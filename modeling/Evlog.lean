import Evlog.Evlogd.RecIdTheorems
import Evlog.Query.ReleaseTheorems
import Evlog.Evlogmgr.Maintenance
import Evlog.Evlactiond.ActiondTheorems
import Evlog.Evlactiond.ReloadTheorems
import Evlog.Evlview.LogTheorems
import Evlog.Evlview.ViewTheorems
import Evlog.Evlogd.HeaderTheorems
import Evlog.Evlogd.TcpBackendTheorems
import Evlog.Evlogd.KernelTheorems
import Evlog.Evlnotifyd.HandleTheorems
import Evlog.Evlnotifyd.DeliveryTheorems
import Evlog.Evlnotifyd.SerializeTheorems
import Evlog.Evlogd.ConfigTheorems
import Evlog.Template.PartitionTheorems
import Evlog.Template.BitLayoutTheorems
import Evlog.Template.ReuseTheorems
import Evlog.Template.ConvertTheorems
import Evlog.Template.FormatTheorems
import Evlog.Query.MixedTheorems
import Evlog.Printf.HostileTheorems
import Evlog.Query.HostTheorems
import Evlog.Posix.BackwardTheorems
import Evlog.Evlogmgr.SearchTheorems
import Evlog.Evlogd.AuthTheorems
import Evlog.Evlogd.DatagramTheorems
import Evlog.Query.AttStore
import Evlog.Evlactiond.ThresholdTheorems
import Evlog.Evlogmgr.PreviewTheorems
import Evlog.Evlactiond.IdentTheorems
import Evlog.Evlactiond.Expand
import Evlog.Template.Bvfmt
import Evlog.Template.BitFieldTheorems
import Evlog.Evlogd.DupTimeoutTheorems
import Evlog.Util.FormatFixedTheorems
import Evlog.Tmplmgmt.RedirectTheorems
import Evlog.Evlogd.KernEvtTheorems
import Evlog.Posix.SplitCmdTheorems
import Evlog.Posix.FacilityCache
import Evlog.Evlogd.StringRecords
import Evlog.Evlgentmpls.MetaInfoTheorems
import Evlog.Util.Scanner
import Evlog.Util.ParseFormat
import Evlog.Template.IntLiterals
import Evlog.Util.EvlList
import Evlog.Posix.Write
import Evlog.Posix.EventType
import Evlog.Evlogd.RemoteConf
import Evlog.Printf.AttributesTheorems
import Evlog.Evlogmgr.LogLife
