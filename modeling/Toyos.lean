import Toyos.Util.ArrayInsertion
import Toyos.Util.IntervalMapQueries
import Toyos.Util.LockFreeQueueAttach
import Toyos.Util.Map
import Toyos.Util.ShadowReg
import Toyos.Util.SimpleRingBuffer
import Toyos.Memory.SplittingBuddy
import Toyos.Memory.SimpleBuddyRefill
import Toyos.Memory.FirstFitRuns
import Toyos.Boot.Operators
import Toyos.Boot.Cmdline
import Toyos.Boot.IoApicUpdate
import Toyos.Boot.RedirectionEntry
import Toyos.Boot.Mb2Header
import Toyos.Boot.Entry
import Toyos.Paging.Tlb
import Toyos.Paging.Walk
import Toyos.Paging.Guarded
import Toyos.Pci.Capabilities
import Toyos.Pci.SerialOption
import Toyos.Printf.Bounded
import Toyos.Printf.PprintfMeaning
import Toyos.Baretest.Protocol
import Toyos.Testhelper.PicEoi
import Toyos.Testhelper.Lapic
import Toyos.Testhelper.Hpet
import Toyos.Testhelper.Interrupts
import Toyos.X86.Vmcs
import Toyos.X86.VmExit
import Toyos.Xhci.TransferRuns
import Toyos.Xhci.EventRuns
import Toyos.Xhci.ConsoleStream
