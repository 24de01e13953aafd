import Sysak.Cli.Exectue
import Sysak.Common.Strip
import Sysak.Common.LineRoundTrip
import Sysak.Common.Lmd
import Sysak.Fox.Sessions
import Sysak.Fox.Rotation
import Sysak.Fox.Window
import Sysak.Fox.Torn
import Sysak.Fox.Isolation
import Sysak.Fox.Offsets
import Sysak.Fox.DayWindow
import Sysak.Fox.Damaged
import Sysak.Collector.Loop
import Sysak.Collector.Transport
import Sysak.Collector.VarCount
import Sysak.Collector.SnmpStat
import Sysak.Collector.Kmsg
import Sysak.Collector.FastKsym
import Sysak.Collector.Dist
import Sysak.Collector.Schedstat
import Sysak.Sched.Ksym
import Sysak.Sched.TaskState
import Sysak.Sched.Runlatency
import Sysak.Collector.NetRetrans
import Sysak.Collector.Netdev
import Sysak.Collector.Diskstats
import Sysak.Collector.Buddyinfo
import Sysak.BeeQ.Send
import Sysak.BeeQ.Registration
import Sysak.Beaver.KeepAlive
import Sysak.Beaver.Poll
import Sysak.Beaver.Export
import Sysak.PingTrace.SlidingDelay
import Sysak.PingTrace.ClockShift
import Sysak.PingTrace.Statistics
import Sysak.PingTrace.Receive
import Sysak.Tcpping.Rows
import Sysak.Mservice.Hwres
import Sysak.Mservice.Http
import Sysak.Mservice.Merge
import Sysak.Mservice.ShortItems
import Sysak.Mservice.TailLines
import Sysak.Mservice.History
import Sysak.Mservice.Tail
import Sysak.Surftrace.Lbc
import Sysak.Surftrace.ExprMeaning
import Sysak.Surftrace.HeadTrans
import Sysak.Surftrace.Skb
import Sysak.Mservice.Jitter
import Sysak.IoMon.ExceptCheck
import Sysak.IoMon.Monitor
import Sysak.IoMon.Diagnose
import Sysak.Rtrace.KernelStack
import Sysak.Rtrace.DeltaDev
import Sysak.Rtrace.Icmp
import Sysak.Podmem.Filename
import Sysak.Podmem.FileCache
import Sysak.Pagescan.Fragement
import Sysak.Pagescan.PidParse
import Sysak.Pagescan.ZeroSubpage
import Sysak.Pagescan.Kcore
import Sysak.Pagescan.Smaps
import Sysak.Pagescan.Bitmap
import Sysak.Pagescan.BaseScan
import Sysak.Pagescan.Numa
import Sysak.Iosdiag.Attribution
import Sysak.Iosdiag.Hang
import Sysak.Iosdiag.Calculate
import Sysak.Iosdiag.Outputs
import Sysak.Iosdiag.Summary
