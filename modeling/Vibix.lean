import Vibix.Keyboard
import Vibix.MmapWalk
import Vibix.Paging.Point
import Vibix.Elf.Trackers
import Vibix.Elf.Record
import Vibix.Proc.LineEdit
import Vibix.Proc.Sigkill
import Vibix.Proc.Handler
import Vibix.Proc.Startup
import Vibix.Proc.ExitWake
import Vibix.Proc.CtrlC
import Vibix.Proc.Listing
import Vibix.Proc.Overtaking
import Vibix.Proc.Reap
import Vibix.Proc.Sleep
import Vibix.Proc.PipeAtomic
import Vibix.Kernel.Anonymous
import Vibix.Kernel.ArchiveAccess
import Vibix.Kernel.FlatContents
import Vibix.Kernel.StackBounds
import Vibix.Kernel.Replace
import Vibix.Proc.Returns
import Vibix.Kernel.Conserve
import Vibix.KmmStats
import Vibix.Paging.Huge
import Vibix.Interrupts
