import Ucore.Lib.Loop
import Ucore.Lib.Client
import Ucore.Lib.Script
import Ucore.Lib.Pool
import Ucore.Lib.Refs
import Ucore.Lib.Chain
import Ucore.Lib.Links
import Ucore.Lib.Ring
import Ucore.Lib.Circular
import Ucore.Lib.Stride
import Ucore.Lib.Dyadic
import Ucore.Lib.BinTree
import Ucore.Lib.Restoring
import Ucore.Lib.Asm
import Ucore.ListEntry.Defs
import Ucore.ListEntry.Refine
import Ucore.Buddy.Defs
import Ucore.Buddy.Split
import Ucore.Buddy.Inv
import Ucore.Buddy.Free
import Ucore.Buddy.Alloc
import Ucore.Buddy.Run
import Ucore.Buddy.Canon
import Ucore.Buddy.Exact
import Ucore.Buddy.Client
import Ucore.RbTree.Defs
import Ucore.RbTree.Linked
import Ucore.RbTree.Insert
import Ucore.RbTree.Walk
import Ucore.RbTree.Search
import Ucore.RbTree.Delete
import Ucore.Vmm.Defs
import Ucore.Vmm.Areas
import Ucore.Vmm.Ops
import Ucore.Vmm.Run
import Ucore.Vmm.Search
import Ucore.Slab.Defs
import Ucore.Slab.Inv
import Ucore.Slab.Alloc
import Ucore.Slab.Free
import Ucore.Slab.Run
import Ucore.Slab.Layout
import Ucore.Slab.Fail
import Ucore.Slab.Client
import Ucore.Slab.OnBuddy
import Ucore.Pmm.Defs
import Ucore.Pmm.Inv
import Ucore.Pmm.Tables
import Ucore.Pmm.Range
import Ucore.Pmm.Pages
import Ucore.Pmm.Shmem
import Ucore.Pmm.Store
import Ucore.Pmm.Entry
import Ucore.Pmm.Word
import Ucore.Pmm.Sim
import Ucore.Pmm.Flat
import Ucore.Boot.Defs
import Ucore.Boot.PageInit
import Ucore.Boot.Segment
import Ucore.Boot.Load
import Ucore.World.Defs
import Ucore.World.Fault
import Ucore.World.Effects
import Ucore.World.Inv
import Ucore.World.Step
import Ucore.World.Change
import Ucore.World.Share
import Ucore.World.Counts
import Ucore.World.Reclaim
import Ucore.World.Unmap
import Ucore.World.Coherent
import Ucore.World.Access
import Ucore.World.Store
import Ucore.World.Cow
import Ucore.Proc.Defs
import Ucore.Proc.Pid
import Ucore.Proc.Sched
import Ucore.Proc.Table
import Ucore.Str.Defs
import Ucore.Str.Memmove
import Ucore.Fmt.Defs
import Ucore.Fmt.Output
import Ucore.Fmt.Number
import Ucore.Str.Strtol
import Ucore.Fmt.Div
import Ucore.Fmt.Scan
import Ucore.Fmt.Field
import Ucore.Fmt.Parse
import Ucore.Fmt.Total
import Ucore.Fmt.Sprint
import Ucore.Console.Defs
import Ucore.Console.Screen
import Ucore.Console.Keys
import Ucore.Console.Input
import Ucore.Console.Readline
import Ucore.Console.Reading
import Ucore.Arm.Defs
import Ucore.Arm.Code
import Ucore.Arm.Exec
import Ucore.Arm.Udiv
import Ucore.Arm.Umod
import Ucore.Arm.Sdiv
import Ucore.Arm.Smod
import Ucore.Arm.Div64
import Ucore.Arm.Call
