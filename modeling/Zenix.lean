import Zenix.Lib.Memory
import Zenix.Lib.Transition
import Zenix.Lib.FirstFit
import Zenix.Mm.Heap
import Zenix.Mm.HeapRefinement
import Zenix.Mm.HeapSafety
import Zenix.Lib.TwoLevel
import Zenix.Lib.Bitmap
import Zenix.Lib.X86
import Zenix.Lib.X86Code
import Zenix.Boot.Start
import Zenix.Hal.Interrupts
import Zenix.Hal.InterruptStubs
import Zenix.Mm.Paging
import Zenix.Mm.PagingRefinement
import Zenix.Mm.PageWalk
import Zenix.Mm.Tlb
import Zenix.Mm.Pmm
import Zenix.Mm.PmmRefinement
import Zenix.Mm.PmmRuns
import Zenix.Mm.PmmOverlap
import Zenix.Mm.PmmOwnership
import Zenix.Lib.AccessLog
import Zenix.Mm.PmmAccounting
import Zenix.Mm.HeapClient
import Zenix.Proc.SwitchContext
import Zenix.Libc
import Zenix.Proc.Process
import Zenix.Proc.Scheduler
import Zenix.Proc.ProcessCreate
import Zenix.Proc.SwitchAgreement
import Zenix.Proc.ReadyQueue
import Zenix.Lib.ByteImage
import Zenix.Tools.Mkinitrd
import Zenix.Fs.Vfs
import Zenix.Fs.Initrd
import Zenix.Fs.InitrdLoad
import Zenix.Fs.InitrdRoundTrip
import Zenix.Fs.InitrdReadBack
import Zenix.Fs.VfsComplete
import Zenix.Fs.FdTable
import Zenix.Fs.FdTableRefinement
import Zenix.Fs.ParentPath
import Zenix.Fs.ResolvePath
import Zenix.Proc.CurrentProcess
import Zenix.Drivers.Timer
import Zenix.Drivers.Framebuffer
import Zenix.Drivers.FramebufferMapping
import Zenix.Lib.FreeGaps
import Zenix.Mm.HeapGaps
import Zenix.Lib.RingQueue
import Zenix.Drivers.Keyboard
import Zenix.Core.Monitor
import Zenix.Lib.IntrusiveQueue
import Zenix.Proc.RoundRobin
import Zenix.Proc.ProcessTable
import Zenix.Apps.AppManager
import Zenix.Apps.AppProcesses
import Zenix.Apps.Calculator
import Zenix.Gui.Gui
import Zenix.Gui.CalculatorAgreement
import Zenix.Drivers.Mouse
import Zenix.Mm.DirectoryInit
import Zenix.Mm.PagingTest
import Zenix.Boot.VideoInfo
import Zenix.Syscall.Syscall
import Zenix.Syscall.SyscallStub
import Zenix.Syscall.Sleep
import Zenix.Usermode.Usermode
import Zenix.Lib.TextTerminal
import Zenix.Core.Terminal
import Zenix.Shell.Shell
import Zenix.Mm.HeapUndo
import Zenix.Mm.DoubleFree
import Zenix.Fs.Seek
import Zenix.Fs.InitrdFailure
import Zenix.Fs.InitrdDir
import Zenix.Fs.InitrdBounds
import Zenix.Shell.Files
import Zenix.Fs.InitrdListing
import Zenix.Fs.PathSegments
import Zenix.Fs.PathSlashes
import Zenix.Mm.HeapReport
import Zenix.Mm.PmmNull
import Zenix.Drivers.KeyState
import Zenix.Drivers.MouseOverflow
import Zenix.Shell.LineEditor
import Zenix.Shell.Execute
import Zenix.Gui.TopWindow
import Zenix.Gui.DragWindow
import Zenix.Drivers.Vga
import Zenix.Drivers.VgaDraw
import Zenix.Gui.DrawWindow
import Zenix.Libc.Memmove
import Zenix.Lib.Rounding
import Zenix.Drivers.VgaRect
import Zenix.Drivers.Lines
import Zenix.Drivers.VgaCircle
import Zenix.Drivers.TimerWait
import Zenix.Drivers.I915
import Zenix.Core.Scrollback
import Zenix.Apps.CalculatorDisplay
import Zenix.Lib.Numeral
import Zenix.Apps.CalculatorText
import Zenix.Libc.Strcmp
import Zenix.Drivers.VgaDisc
import Zenix.Shell.Typing
import Zenix.Lib.DeviceProgram
import Zenix.Lib.InterruptController
import Zenix.Hal.Pic
import Zenix.Hal.IrqProtocol
import Zenix.Hal.DescriptorTables
import Zenix.Lib.Layers
import Zenix.Drivers.VgaLayers
import Zenix.Drivers.VgaText
import Zenix.Gui.Frame
import Zenix.Gui.Dragging
import Zenix.Lib.CallFrames
import Zenix.Core.PrintNumbers
import Zenix.Core.StackTrace
import Zenix.Apps.CalculatorWindow
import Zenix.Gui.CalculatorPicture
import Zenix.Syscall.Handlers
import Zenix.Shell.Cat
import Zenix.Drivers.GpuDetect
import Zenix.Drivers.MouseInit
