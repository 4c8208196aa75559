import Ucore.Mm.DefaultPmmRun
import Ucore.Fs.SfsIo
import Ucore.Schedule.StrideShare
import Ucore.Process.PidRun
import Ucore.Schedule.TimerRun
import Ucore.Fs.SfsAddress
import Ucore.Fs.SfsAtomic
import Ucore.Fs.FileReadOnly
import Ucore.Fs.SfsDir
import Ucore.Fs.SfsMount
import Ucore.Tools.MksfsNames
import Ucore.Tools.MksfsTree
import Ucore.Fs.SfsLifetimeRun
import Ucore.Fs.VfsOpen
import Ucore.Process.ProcFiles
import Ucore.Mm.TakeDown
import Ucore.Mm.SwapTransparent
import Ucore.Mm.SwapAlloc
import Ucore.Mm.CopyString
import Ucore.Mm.MmMap
import Ucore.Fs.DevStdin
import Ucore.Mm.BuddyRun
import Ucore.Fs.SfsAccounts
import Ucore.Fs.SysfileRead
import Ucore.Mm.KmallocRun
import Ucore.Libs.Printfmt
import Ucore.Mm.BestFitPmm
import Ucore.Mm.SwapLru
import Ucore.Mm.SwapClock
import Ucore.Libs.SkewHeapRun
import Ucore.Fs.SysfileGetdirentry
import Ucore.Fs.SfsNamefile
import Ucore.Process.ExecArgs
import Ucore.Mm.UserView
import Ucore.Process.LoadIcode
import Ucore.Mm.DupMmap
import Ucore.Fs.FdTable
import Ucore.Process.Residue
import Ucore.Sync.CheckSync
