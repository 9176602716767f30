import TheKernel.ClassicBpf.Agreement
import TheKernel.ClassicBpf.Paths
import TheKernel.ClassicBpf.Program
import TheKernel.ClassicBpf.Safety
import TheKernel.Cred.Credential
import TheKernel.Cred.Exec
import TheKernel.Cred.IdMap
import TheKernel.Cred.NsCapable
import TheKernel.Cred.Transition
import TheKernel.Ebpf.ControlFlow
import TheKernel.Ebpf.Flow
import TheKernel.Ebpf.Instruction
import TheKernel.Ebpf.Isa
import TheKernel.Ebpf.Soundness
import TheKernel.Ebpf.StepSpec
import TheKernel.Ebpf.Typing
import TheKernel.Ebpf.Verify
import TheKernel.Ebpf.Vm
import TheKernel.Eevdf.Arith
import TheKernel.Eevdf.Entity
import TheKernel.Eevdf.Request
import TheKernel.Eevdf.RequestRun
import TheKernel.Eevdf.Reweight
import TheKernel.Eevdf.Service
import TheKernel.Eevdf.Tree
import TheKernel.Eevdf.TreeCursor
import TheKernel.Eevdf.TreeFixup
import TheKernel.Eevdf.TreeInsert
import TheKernel.Eevdf.TreeRemove
import TheKernel.Eevdf.TreeRep
import TheKernel.Eevdf.TreeRun
import TheKernel.Eevdf.TreeSearch
import TheKernel.Eevdf.Wide
import TheKernel.Fd.Epoll
import TheKernel.Fd.EpollQueue
import TheKernel.Fd.EpollStep
import TheKernel.Fd.EpollWake
import TheKernel.Fd.Graph
import TheKernel.Fd.GraphRun
import TheKernel.Futex.Identity
import TheKernel.Futex.PiBoost
import TheKernel.Futex.PiQueue
import TheKernel.Futex.PiQueueRun
import TheKernel.Futex.Planners
import TheKernel.Futex.Table
import TheKernel.IoUring.Request
import TheKernel.IoUring.RequestOrder
import TheKernel.IoUring.RequestPlans
import TheKernel.IoUring.RequestRefine
import TheKernel.IoUring.RequestRun
import TheKernel.IoUring.RequestSound
import TheKernel.IoUring.RequestStep
import TheKernel.IoUring.RequestTerminal
import TheKernel.Ipc.IdTable
import TheKernel.Keyring.Graph
import TheKernel.Keyring.Search
import TheKernel.Lib.Action
import TheKernel.Lib.BitWords
import TheKernel.Lib.Fifo
import TheKernel.Lib.Issuers
import TheKernel.Lib.Limbs
import TheKernel.Lib.Lineage
import TheKernel.Lib.Machine
import TheKernel.Lib.Marks
import TheKernel.Lib.Outcome
import TheKernel.Lib.Ranges
import TheKernel.Lib.RedBlack
import TheKernel.Lib.Ring
import TheKernel.Lib.Slots
import TheKernel.Lib.SortedMap
import TheKernel.Lib.Walk
import TheKernel.Lib.Worklist
import TheKernel.MemorySet.Area
import TheKernel.MemorySet.Consistent
import TheKernel.MemorySet.FreeArea
import TheKernel.MemorySet.GapTree
import TheKernel.MemorySet.Gaps
import TheKernel.MemorySet.Guarantees
import TheKernel.MemorySet.Merge
import TheKernel.MemorySet.Metadata
import TheKernel.MemorySet.MetadataExact
import TheKernel.MemorySet.MetadataLoop
import TheKernel.MemorySet.Operation
import TheKernel.MemorySet.Protect
import TheKernel.MemorySet.Replacement
import TheKernel.MemorySet.Run
import TheKernel.MemorySet.Set
import TheKernel.MemorySet.Unmap
import TheKernel.Memtype.Contract
import TheKernel.Memtype.State
import TheKernel.Mm.Pin
import TheKernel.Mm.PinContract
import TheKernel.Mm.PinEffect
import TheKernel.Mm.PinHistory
import TheKernel.Mm.PinRun
import TheKernel.Mm.Range
import TheKernel.Mm.Remap
import TheKernel.Mm.Uffd
import TheKernel.Mm.UffdContract
import TheKernel.Mm.UffdDelta
import TheKernel.Mm.UffdPlan
import TheKernel.Mm.UffdRegister
import TheKernel.Mm.UffdRun
import TheKernel.Mount.Reparent
import TheKernel.Mount.Topology
import TheKernel.Pipe.Atomic
import TheKernel.Pipe.Changes
import TheKernel.Pipe.History
import TheKernel.Pipe.Packets
import TheKernel.Pipe.Pages
import TheKernel.Pipe.Report
import TheKernel.Pipe.Ring
import TheKernel.Pipe.Transfers
import TheKernel.Pipe.Wake
import TheKernel.Seccomp.Chain
import TheKernel.Seccomp.Selection
import TheKernel.Seccomp.State
import TheKernel.Signal.Accounts
import TheKernel.Signal.Pending
import TheKernel.Signal.PendingOrder
import TheKernel.Time.Adjtimex
import TheKernel.Tty.LineDiscipline
import TheKernel.Tty.Records
import TheKernel.Tty.Transcript
