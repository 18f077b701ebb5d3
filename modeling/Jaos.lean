import Jaos.Lib.Word
import Jaos.Lib.Scan
import Jaos.Lib.Bytes
import Jaos.Lib.Tile
import Jaos.Lib.Run
import Jaos.Lib.Prog
import Jaos.Lib.Bitmap
import Jaos.Lib.Chain
import Jaos.Lib.Register
import Jaos.Lib.Cells
import Jaos.Lib.Words
import Jaos.Lib.Numerals
import Jaos.Lib.Fields
import Jaos.Lib.Labels
import Jaos.Lib.Procedures
import Jaos.Lib.Stack
import Jaos.Corelib.Memmove
import Jaos.Corelib.Strings
import Jaos.Heap.OrderedArray
import Jaos.Heap.Kheap
import Jaos.Heap.Proof.Tags
import Jaos.Heap.Proof.Inv
import Jaos.Heap.Proof.Alloc
import Jaos.Heap.Proof.Grow
import Jaos.Heap.Proof.AllocRun
import Jaos.Heap.Proof.Free
import Jaos.Heap.System
import Jaos.Heap.Proof.Run
import Jaos.Heap.NoOverlap
import Jaos.Heap.Proof.Order
import Jaos.Heap.Sorted
import Jaos.Heap.SortedArray
import Jaos.Heap.BestFit
import Jaos.Heap.PageAligned
import Jaos.Heap.FreeIndex
import Jaos.Heap.FreeTags
import Jaos.Heap.Undo
import Jaos.Heap.Contraction
import Jaos.Heap.FreeInside
import Jaos.Heap.IndexRoom
import Jaos.Heap.Expansions
import Jaos.Heap.AnySize
import Jaos.Heap.BadFree
import Jaos.Heap.Calls
import Jaos.Heap.Reentry
import Jaos.Heap.Kfree
import Jaos.Memory.Frames
import Jaos.Memory.Proof.Frames
import Jaos.Memory.FrameRun
import Jaos.Memory.ZoneSearch
import Jaos.Memory.AllocFails
import Jaos.Memory.UsableMemory
import Jaos.Locking.BLocking
import Jaos.Locking.Proof.Queue
import Jaos.Locking.Proof.Lists
import Jaos.Locking.Exclusion
import Jaos.Locking.Waiters
import Jaos.Locking.Fifo
import Jaos.Locking.Wakeup
import Jaos.Locking.MasterLock
import Jaos.Locking.Records
import Jaos.Memory.AddressSpace
import Jaos.Memory.Proof.Clean
import Jaos.Memory.Paging
import Jaos.Memory.Proof.Window
import Jaos.Memory.RecursiveMap
import Jaos.Tasks.Proof.TaskList
import Jaos.Tasks.System
import Jaos.Tasks.Proof.Readers
import Jaos.Tasks.Proof.Inv
import Jaos.Tasks.Proof.Effect
import Jaos.Tasks.Runnable
import Jaos.Tasks.Exited
import Jaos.Tasks.Presses
import Jaos.Tasks.RoundRobin
import Jaos.Tasks.Readline
import Jaos.Screen.Scrollback
import Jaos.Screen.Numbers
import Jaos.Shell.Token
import Jaos.Tables.Descriptors
import Jaos.Disk.Fat32
import Jaos.Disk.Directory
import Jaos.Disk.Layout
import Jaos.Disk.ReadCluster
import Jaos.Disk.FindFile
import Jaos.Disk.DamagedFat
import Jaos.Disk.SearchFile
import Jaos.Elf.SameSegments
import Jaos.Memory.OnePage
import Jaos.Memory.Proof.Forest
import Jaos.Memory.Proof.Spaces
import Jaos.Memory.Proof.History
import Jaos.Memory.Proof.Clone
import Jaos.Memory.Proof.Boot
import Jaos.Memory.FailedAlloc
import Jaos.Memory.Proof.Links
import Jaos.Memory.Proof.SpacesRun
import Jaos.Memory.Proof.Written
import Jaos.Memory.TableFrames
import Jaos.Memory.KernelAgreement
import Jaos.Memory.Proof.CleanPages
import Jaos.Memory.CleanUserSpace
import Jaos.Memory.Proof.CloneOne
import Jaos.Memory.FrameOwnership
import Jaos.Memory.UserMemory
import Jaos.Memory.Proof.UserMemory
import Jaos.Memory.OldEntries
import Jaos.Memory.Proof.OldEntries
import Jaos.Memory.Proof.Ample
import Jaos.Elf.LoadExecutable
import Jaos.Elf.Segments
import Jaos.Elf.LoadedImage
import Jaos.Elf.SegmentPages
import Jaos.Elf.Touches
import Jaos.Elf.Confined
import Jaos.Elf.Exec
import Jaos.Elf.KernelHeap
import Jaos.Elf.FailedExec
import Jaos.Memory.Proof.KernelPages
import Jaos.Memory.HeapPages
import Jaos.Memory.HeapLimits
import Jaos.Interrupts.Isr
import Jaos.Interrupts.Syscall
