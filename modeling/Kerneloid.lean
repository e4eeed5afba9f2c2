import Kerneloid.Vfs.Appends
import Kerneloid.Vfs.Descriptors
import Kerneloid.Vfs.ExactRemoval
import Kerneloid.Vfs.Mkdir
import Kerneloid.Vfs.Listing
import Kerneloid.Tcb.Priorities
import Kerneloid.Tcb.Wakeups
import Kerneloid.Tcb.Stacks
import Kerneloid.Ipc.Addressee
import Kerneloid.Ipc.LostWakeups
import Kerneloid.Ipc.SpuriousWakeups
import Kerneloid.Ipc.NamedPorts
import Kerneloid.Vfs.Refcounts
import Kerneloid.XnuMemory.Pmap
import Kerneloid.XnuMemory.ZoneGrowth
import Kerneloid.XnuMemory.VmViews
import Kerneloid.XnuMemory.VmFirstFit
import Kerneloid.Tcp.Checksum
import Kerneloid.Tcp.InetAddr
import Kerneloid.Tcp.Connections
import Kerneloid.Installer.Confirmation
import Kerneloid.Editor.Files
import Kerneloid.Shell.CopyMove
import Kerneloid.Shell.Quoting
import Kerneloid.Shell.History
import Kerneloid.Console.Print
import Kerneloid.Vga.Line
import Kerneloid.Browser.Html
import Kerneloid.Browser.History
import Kerneloid.UnnamedFS.Contiguous
import Kerneloid.UnnamedFS.Remanence
import Kerneloid.LibString.Move
import Kerneloid.LibString.Strlen
import Kerneloid.Mouse.Motion
