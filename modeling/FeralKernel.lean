import FeralKernel.Library.Program
import FeralKernel.Library.Bytes
import FeralKernel.Library.Radix
import FeralKernel.Library.Focus
import FeralKernel.Library.Keeps
import FeralKernel.Machine
import FeralKernel.Lib.MemFuncs
import FeralKernel.Lib.MemRegions
import FeralKernel.Lib.MemCompare
import FeralKernel.Lib.MemLoops
import FeralKernel.Mm.State
import FeralKernel.Mm.Heap
import FeralKernel.Mm.HeapRun
import FeralKernel.Mm.PhysFrame
import FeralKernel.Mm.Setup
import FeralKernel.Mm.Startup
import FeralKernel.Paging.MapAddress
import FeralKernel.Paging.PageTree
import FeralKernel.Paging.MapRun
import FeralKernel.Paging.Validate
import FeralKernel.Paging.AllocPages
import FeralKernel.Paging.AllocRun
import FeralKernel.Paging.RealTables
import FeralKernel.Paging.Unmap
import FeralKernel.Paging.AllocRange
import FeralKernel.Paging.AddressSpace
import FeralKernel.Paging.HugePages
import FeralKernel.Paging.BootMap
import FeralKernel.Paging.Window
import FeralKernel.Mm.BootLayout
import FeralKernel.Lib.StringFuncs
import FeralKernel.Console.Keyboard
import FeralKernel.Lib.BinFuncs
import FeralKernel.Console.PrintFmt
import FeralKernel.Console.Vga
import FeralKernel.Console.Screen
import FeralKernel.Console.Draw
import FeralKernel.Console.DrawString
import FeralKernel.Console.Terminal
import FeralKernel.Console.VgaRun
import FeralKernel.Mm.Exhausted
import FeralKernel.Mm.MarkingLoops
import FeralKernel.Console.PrintPadding
import FeralKernel.Lib.Numerals
import FeralKernel.Bootloader.Itoa
import FeralKernel.Lib.Log2
import FeralKernel.Console.NumberBuffers
import FeralKernel.Mm.NodeList
import FeralKernel.Mm.WorstCase
import FeralKernel.Mm.FastPath
import FeralKernel.Mm.Arenas
import FeralKernel.Console.Backspace
import FeralKernel.Console.SplitPrint
import FeralKernel.Console.Lines
import FeralKernel.Mm.MemoryMap
import FeralKernel.Entry.KernInit
import FeralKernel.Entry.TagWalk
import FeralKernel.Entry.InfoTags
import FeralKernel.Entry.TagBlock
import FeralKernel.Entry.Processor
import FeralKernel.Entry.BootScreen
import FeralKernel.Drivers.Serial
import FeralKernel.Drivers.KShell
import FeralKernel.Bootloader.Firmware
import FeralKernel.Bootloader.ElfImage
import FeralKernel.Bootloader.ElfLoad
import FeralKernel.Mm.NodeAreas
import FeralKernel.Console.SwapBuffers
import FeralKernel.Console.Visible
import FeralKernel.Console.BackingFunctions
import FeralKernel.Console.Typing
import FeralKernel.Interrupts.Devices
import FeralKernel.Interrupts.Descriptors
import FeralKernel.Interrupts.Kernel
import FeralKernel.Interrupts.Startup
import FeralKernel.Interrupts.Handlers
import FeralKernel.Interrupts.Run
import FeralKernel.Interrupts.Service
