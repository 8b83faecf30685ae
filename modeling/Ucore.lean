import Ucore.Lib.Ring
import Ucore.Lib.Radix
import Ucore.Halt
import Ucore.ListEntry
import Ucore.PageAllocator
import Ucore.Proofs.PageAllocator
import Ucore.Proofs.FreeList
import Ucore.Proofs.Family
import Ucore.Proofs.Reaping
import Ucore.Proofs.Kills
import Ucore.Proofs.LifeCycle
import Ucore.Proofs.RoundRobin
import Ucore.Proofs.Fairness
import Ucore.Proofs.TimeSlice
import Ucore.Proofs.PidRuns
import Ucore.Proofs.SkewHeap
import Ucore.Proofs.RoundTrip
import Ucore.Proofs.KmallocLimits
import Ucore.Proofs.MmMap
import Ucore.Proofs.PageMap
import Ucore.Proofs.Execve
import Ucore.Proofs.Kmonitor
import Ucore.Proofs.Dtb
import Ucore.Proofs.Memmove
import Ucore.Proofs.FormatScan
import Ucore.Proofs.RefRuns
import Ucore.Proofs.TearDown
import Ucore.Proofs.DupMmap
import Ucore.Proofs.Progress
import Ucore.Lib.Pointers
import Ucore.Proofs.Separation
import Ucore.Proofs.KmallocPages
import Ucore.Proofs.Agreement
import Ucore.Proofs.ElfSafety
import Ucore.Proofs.Backing
