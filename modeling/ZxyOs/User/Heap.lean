/-
  ZxyOs.User.Heap

  `sys_malloc` and `sys_free` called by user processes, and what `sys_fork` does to
  their heaps.

  A process works on its own user memory, below `kernelBase`, and on the kernel
  memory all processes share.  Its free lists start in the descriptors `u_block_desc`
  of its process control block, which lies in kernel memory; its arenas lie in its
  user memory, and the headers of small ones point to a descriptor.

  The code is that of kernel threads (`kernelMalloc`, `kernelFree`) with the
  descriptors of the process and the user pool.  `malloc_page` is not modelled here:
  a call carries the page range it would hand out.
-/

import ZxyOs.Kernel.ArenaRun

namespace ZxyOs

open Lib Lib.Exec

/-- The first address of the kernel. -/
abbrev kernelBase : Nat := 0xc0000000

/-- The bytes of `struct task_struct` in front of `u_block_desc`. -/
abbrev uBlockDescOffset : Nat := 100

/-- `u_block_desc` of the process with its control block at `pcb`. -/
abbrev uBlockDesc (pcb : Nat) : Nat := pcb + uBlockDescOffset

/-- The word at `w` belongs to `u_block_desc` of the process at `pcb`. -/
def InDescs (pcb w : Nat) : Prop := uBlockDesc pcb ≤ w ∧ w < uBlockDesc pcb + 24 * descCnt

instance (pcb : Nat) : DecidablePred (InDescs pcb) :=
  fun w => inferInstanceAs (Decidable (uBlockDesc pcb ≤ w ∧ w < uBlockDesc pcb + 24 * descCnt))

/-- A system call on the heap, or a store by the program. -/
inductive Call where
  | malloc (size : Nat) (page : Option Nat)
  | free (x : Nat × Nat)
  | write (w v : Nat)

/-- What is assumed of `malloc_page` for a process: it hands out whole user pages
    that overlap no range the process has. -/
def UserPageOk (held : List (Nat × Nat)) (size : Nat) (page : Option Nat) : Prop :=
  ∀ a, page = some a → a % pgSize = 0 ∧ 0 < a ∧ a + pgSize * pagesFor size ≤ kernelBase ∧
    ∀ r ∈ held, a + pgSize * pagesFor size ≤ r.1 ∨ r.1 + pgSize * r.2 ≤ a

/-- A user word that is in no arena, or in a block the program has. -/
def Writable (σ : Kernel) (w : Nat) : Prop :=
  w < kernelBase ∧ ((∃ x ∈ σ.live, x.1 ≤ w ∧ w < x.1 + x.2) ∨
    ∀ r ∈ σ.heap.held, w < r.1 ∨ r.1 + pgSize * r.2 ≤ w)

/-- One call of the process at `pcb`, on the memory as the process sees it. -/
inductive UserStep (pcb poolSize : Nat) : Kernel → Call → Kernel → Prop where
  | malloc {σ : Kernel} {size : Nat} {page : Option Nat} {r : Option Nat} {s' : KHeap}
      (hpage : UserPageOk σ.heap.held size page)
      (h : Returns (kernelMalloc (uBlockDesc pcb) poolSize size page) σ.heap r s') :
      UserStep pcb poolSize σ (.malloc size page)
        { heap := s', live := (r.map fun p => (p, size)).toList ++ σ.live }
  | free {σ : Kernel} {x : Nat × Nat} {s' : KHeap} (hx : x ∈ σ.live)
      (h : Returns (kernelFree x.1) σ.heap () s') :
      UserStep pcb poolSize σ (.free x) { heap := s', live := σ.live.erase x }
  | write {σ : Kernel} {w v : Nat} (hw : Writable σ w) :
      UserStep pcb poolSize σ (.write w v)
        { σ with heap := { σ.heap with mem := Function.update σ.heap.mem w v } }

/-- The heaps of all processes.  Processes are told apart by the addresses of their
    control blocks. -/
structure Heaps where
  kmem : Mem
  procs : List Nat
  umem : Nat → Mem
  held : Nat → List (Nat × Nat)
  live : Nat → List (Nat × Nat)

namespace Heaps

/-- Memory as the process at `p` sees it. -/
def view (σ : Heaps) (p : Nat) : Mem := fun w => if w < kernelBase then σ.umem p w else σ.kmem w

/-- The heap as the process at `p` sees it. -/
def seen (σ : Heaps) (p : Nat) : Kernel :=
  { heap := { mem := σ.view p, held := σ.held p }, live := σ.live p }

/-- What the process at `p` leaves of the heap it sees. -/
def put (σ : Heaps) (p : Nat) (s : Kernel) : Heaps :=
  { kmem := fun w => if w < kernelBase then σ.kmem w else s.heap.mem w
    procs := σ.procs
    umem := Function.update σ.umem p s.heap.mem
    held := Function.update σ.held p s.heap.held
    live := Function.update σ.live p s.live }

/-- `memcpy(child_thread, parent_thread, PG_SIZE)`. -/
def copyPcb (m : Mem) (parent child : Nat) : Mem :=
  fun w => if child ≤ w ∧ w < child + pgSize then m (parent + (w - child)) else m w

/-- What `sys_fork` of the process at `parent` does to the heaps: the control block
    is copied to the page at `child`, the descriptors of the child are initialised,
    and the child gets a copy of the user memory. -/
def fork (σ : Heaps) (parent child : Nat) : Heaps :=
  { kmem := blockDescInit (uBlockDesc child) (copyPcb σ.kmem parent child)
    procs := child :: σ.procs
    umem := Function.update σ.umem child (σ.umem parent)
    held := Function.update σ.held child (σ.held parent)
    live := Function.update σ.live child (σ.live parent) }

/-- A page of kernel memory that may become a control block. -/
def FreshPcb (σ : Heaps) (p : Nat) : Prop :=
  p % pgSize = 0 ∧ kernelBase ≤ p ∧ p ∉ σ.procs

/-- A call of the process at `c.1`. -/
inductive Step (poolSize : Nat) : Heaps → Nat × Call → Heaps → Prop where
  | call {σ : Heaps} {p : Nat} {c : Call} {s : Kernel} (hp : p ∈ σ.procs)
      (h : UserStep p poolSize (σ.seen p) c s) : Step poolSize σ (p, c) (σ.put p s)

/-- The process at `p` frees only large blocks and blocks of arenas that point to
    its own descriptors. -/
def FreesOwn (σ : Heaps) (p : Nat) : Call → Prop
  | .free x => σ.view p (block2arena x.1 + 8) = 1 ∨ InDescs p (σ.view p (block2arena x.1))
  | _ => True

/-- Calls of any processes in any order, each meeting the condition `ok`. -/
inductive Calls (ok : Heaps → Nat → Call → Prop) (poolSize : Nat) :
    Heaps → List (Nat × Call) → Heaps → Prop where
  | nil {σ : Heaps} : Calls ok poolSize σ [] σ
  | cons {σ τ υ : Heaps} {p : Nat} {c : Call} {tr : List (Nat × Call)} (hok : ok σ p c)
      (hstep : Step poolSize σ (p, c) τ) (h : Calls ok poolSize τ tr υ) :
      Calls ok poolSize σ ((p, c) :: tr) υ

/-- The first process, with nothing allocated. -/
def boot (p : Nat) (kmem umem : Mem) : Heaps :=
  { kmem := blockDescInit (uBlockDesc p) kmem
    procs := [p]
    umem := fun _ => umem
    held := fun _ => []
    live := fun _ => [] }

/-- The states of runs in which processes call the allocator and fork, every call
    meeting the condition `ok`. -/
inductive Reachable (ok : Heaps → Nat → Call → Prop) (poolSize : Nat) : Heaps → Prop where
  | boot {p : Nat} {kmem umem : Mem} (hp : p % pgSize = 0 ∧ kernelBase ≤ p) :
      Reachable ok poolSize (boot p kmem umem)
  | call {σ τ : Heaps} {p : Nat} {c : Call} (h : Reachable ok poolSize σ) (hok : ok σ p c)
      (hstep : Step poolSize σ (p, c) τ) : Reachable ok poolSize τ
  | fork {σ : Heaps} {parent child : Nat} (h : Reachable ok poolSize σ)
      (hp : parent ∈ σ.procs) (hc : σ.FreshPcb child) : Reachable ok poolSize (σ.fork parent child)

/-- The part of the heaps that belongs to the process at `p`: its user memory, its
    descriptors, its page ranges and its blocks. -/
def own (σ : Heaps) (p : Nat) : Kernel :=
  { heap :=
      { mem := fun w => if w < kernelBase ∨ InDescs p w then σ.view p w else 0
        held := σ.held p }
    live := σ.live p }

end Heaps

end ZxyOs
