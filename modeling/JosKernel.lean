import JosKernel.Foundation.CInt
import JosKernel.Foundation.Ring
import JosKernel.Foundation.Transducer
import JosKernel.Console.Input
import JosKernel.Console.Ports
import JosKernel.Console.Display
import JosKernel.Console.Terminal
import JosKernel.Console.Streams
import JosKernel.Format.CStr
import JosKernel.Format.Printfmt
import JosKernel.Format.Sink
import JosKernel.Foundation.Memory
import JosKernel.Format.Cprintf
import JosKernel.Format.Snprintf
import JosKernel.Format.Scan
import JosKernel.Format.Number
import JosKernel.Format.Strtol
import JosKernel.Format.Written
import JosKernel.Format.Parts
import JosKernel.Format.Arguments
import JosKernel.Monitor.Readline
import JosKernel.Boot.Disk
import JosKernel.Boot.Main
import JosKernel.Boot.Readseg
import JosKernel.Debug.Stab
import JosKernel.Debug.Kdebug
import JosKernel.Debug.Coverage
import JosKernel.Debug.Args
import JosKernel.Console.Controller
import JosKernel.Console.Modifiers
import JosKernel.Console.Mouse
import JosKernel.Console.Overrun
import JosKernel.Console.Cursor
import JosKernel.Debug.Search
import JosKernel.Foundation.RepString
import JosKernel.Lib.Memmove
import JosKernel.Foundation.Words
import JosKernel.Lib.CString
import JosKernel.Monitor.Runcmd
import JosKernel.Monitor.LineEditor
import JosKernel.Format.Fields
import JosKernel.Format.ErrorCode
import JosKernel.Format.Numeric
import JosKernel.Format.Width
import JosKernel.Format.Strings
import JosKernel.Format.Literal
import JosKernel.Console.Keys
import JosKernel.Lib.Memset
import JosKernel.Debug.Accesses
import JosKernel.Foundation.AccessLog
import JosKernel.Foundation.ReadLog
import JosKernel.Lib.Compare
import JosKernel.Lib.Strlcpy
import JosKernel.Monitor.Commands
import JosKernel.Monitor.Session
import JosKernel.Console.Reboot
import JosKernel.Foundation.Merge
import JosKernel.Monitor.System
import JosKernel.Console.Receivers
import JosKernel.Monitor.Kernel
import JosKernel.Monitor.Panic
import JosKernel.Foundation.Paging
import JosKernel.Boot.Paging
import JosKernel.Boot.Entry
import JosKernel.Boot.Handover
import JosKernel.Boot.ClearBss
import JosKernel.Console.Typing
import JosKernel.Monitor.Answer
import JosKernel.Boot.Segments
import JosKernel.Boot.Start
import JosKernel.Boot.DiskImage
import JosKernel.Boot.Waitdisk
import JosKernel.Boot.PowerOn
import JosKernel.Debug.Report
import JosKernel.Lib.Strcat
import JosKernel.Lib.Find
