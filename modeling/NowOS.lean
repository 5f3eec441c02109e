import NowOS.Kdef
import NowOS.Klib.SortedArrayList
import NowOS.Lib.Blocks
import NowOS.Lib.Runs
import NowOS.Kheap.Basic
import NowOS.Kheap.Chain
import NowOS.Kheap.Merge
import NowOS.Kheap.Split
import NowOS.Kheap.Kmalloc
import NowOS.Kheap.Run
import NowOS.Kheap.Termination
import NowOS.Kheap.WellFormed
import NowOS.Sched.Scheduler
import NowOS.Sched.Conservation
import NowOS.Sched.Stack
import NowOS.Arch.Machine
import NowOS.Arch.ThreadSwitch
import NowOS.Arch.Preemption
import NowOS.Kheap.Early
import NowOS.Sched.Deadlock
import NowOS.Kheap.Page
import NowOS.Mm.Paging
import NowOS.Mm.PhysMem
import NowOS.Mm.Region
import NowOS.Mm.Frames
import NowOS.Klib.SharedPool
import NowOS.Klib.SortedSet
import NowOS.Kheap.Integrity
import NowOS.Klib.LinkedList
import NowOS.Klib.LinkedListRun
import NowOS.Kheap.EndPtr
import NowOS.Kheap.Request
import NowOS.Klib.LinkedListInsert
import NowOS.Klib.CircBuf
import NowOS.Acpi.Madt
import NowOS.Arch.Smp
import NowOS.Mm.Boot
import NowOS.Sched.RoundRobin
import NowOS.Kheap.Release
import NowOS.Kheap.Listed
import NowOS.Mm.Bitmap
import NowOS.Mm.Mapped
import NowOS.Acpi.Tables
import NowOS.Arch.Ioapic
import NowOS.Arch.Unmask
import NowOS.Klib.LinkedListErrors
import NowOS.Klib.PoolSequence
import NowOS.Klib.SortedSearch
import NowOS.Console.Tty
import NowOS.Mm.Reserve
import NowOS.Console.Kprint
import NowOS.Klib.CircBufSlots
import NowOS.Console.Scan
import NowOS.Lib.Tso
import NowOS.Sched.SpinLock
import NowOS.Lib.Mutex
import NowOS.Sched.Interleaving
import NowOS.Sched.Atomic
import NowOS.Arch.Interrupts
import NowOS.Arch.Delivery
import NowOS.Kheap.Objects
import NowOS.Arch.ApBoot
import NowOS.Arch.Gdt
import NowOS.Mm.Virtual
import NowOS.Sched.NewThread
