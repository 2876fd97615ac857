import Cs330.Blocks.Hashit
import Cs330.Hash.Reader
import Cs330.Hash.Used
import Cs330.Hash.Threads
import Cs330.Hash.Awake
import Cs330.Hash.Mapping
import Cs330.Hash.Generator
import Cs330.Hash.Terminates
import Cs330.Vm.Limit
import Cs330.Vm.Placement
import Cs330.Vm.Hostile
import Cs330.Lib.Fork
import Cs330.Mm.CopyOnWrite
import Cs330.Mm.WriteProtect
import Cs330.Mm.Family
import Cs330.Mm.Failure
import Cs330.Mm.Leak
import Cs330.Mm.Residue
import Cs330.Mm.Kernel
import Cs330.Mm.Covered
import Cs330.Mm.Shrink
import Cs330.Mm.Munmap
import Cs330.Mm.VforkStack
import Cs330.Mm.Exhaustion
import Cs330.Mm.StackGrowth
import Cs330.Mm.Walkers
import Cs330.Proc.Waiting
import Cs330.Proc.Fair
import Cs330.Proc.Alarm
import Cs330.Lock.Progress
import Cs330.Lock.Counter
import Cs330.Files.Refine
import Cs330.Files.OpenFails
import Cs330.Files.Offsets
import Cs330.Files.Transfer
import Cs330.Files.Slots
import Cs330.Memory.Alloc
import Cs330.Memory.Objects
import Cs330.Memory.Lists
import Cs330.Tree.Sizes
import Cs330.Text.Grep
import Cs330.Text.Recurse
import Cs330.Text.Tee
import Cs330.Print.Vprintf
import Cs330.Mm.Tlb
import Cs330.Files.Channels
import Cs330.Files.Carries
