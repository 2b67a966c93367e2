/-
  ZxyOs.Kernel.Arena

  `sys_malloc` and `sys_free` of `kernel/memory.c` for kernel threads.

  A request of more than 1024 bytes gets pages of its own; a smaller one gets a
  block of one of seven sizes, cut out of an arena of one page.  A page range that
  serves requests starts with a `struct arena` (descriptor, count and `large` in the
  words at 0, 4 and 8), and the free blocks of one size, from whatever arena, are on
  the list of their descriptor, linked through the blocks themselves.

  A `struct mem_block_desc` takes 24 bytes: block size, blocks per arena, and the
  free list with its head at 8 and its tail at 16.

  The pages come from `malloc_page`, which is not modelled here: each call of
  `sys_malloc` carries the page range `malloc_page` would hand out, and `held` is the
  list of ranges handed out and not taken back.
-/

import ZxyOs.Kernel.List

namespace ZxyOs

open Lib Lib.Exec

/-- Memory, and the page ranges (start and number of pages) in use by the allocator. -/
structure KHeap where
  mem : Mem
  held : List (Nat × Nat)

/-- Code of the allocator. -/
abbrev HeapM (α : Type) : Type := Exec KHeap α

/-- `PG_SIZE`. -/
abbrev pgSize : Nat := 4096

/-- `DESC_CNT`. -/
abbrev descCnt : Nat := 7

/-- `&descs[idx]`. -/
abbrev descAt (descs idx : Nat) : Nat := descs + 24 * idx

/-- The loop of `block_desc_init` with `n` descriptors left. -/
def blockDescInitFrom (descArray : Nat) : Nat → Nat → Nat → Mem → Mem
  | 0, _, _, m => m
  | n + 1, index, blockSize, m =>
    let desc := descAt descArray index
    let m := Function.update m desc blockSize
    let m : Mem := Function.update m (desc + 4) ((pgSize - 12) / blockSize)
    let m := m.listInit (desc + 8)
    blockDescInitFrom descArray n (index + 1) (blockSize * 2) m

/-- `block_desc_init`. -/
def blockDescInit (descArray : Nat) (m : Mem) : Mem := blockDescInitFrom descArray descCnt 0 16 m

/-- `arena2block`. -/
def arena2block (m : Mem) (a idx : Nat) : Nat := a + 12 + idx * m (m a)

/-- `block2arena`. -/
def block2arena (b : Nat) : Nat := b / 4096 * 4096

/-- `memset(dst, 0, size)` with its assertion. -/
def memsetZero (dst size : Nat) : HeapM Unit := do
  assert (dst ≠ 0)
  update fun s => { s with mem := s.mem.clear dst size }

/-- Store a word. -/
def store (w v : Nat) : HeapM Unit := update fun s => { s with mem := Function.update s.mem w v }

/-- `malloc_page`, handing out the range of `pageCnt` pages at `page`. -/
def mallocPage (page : Option Nat) (pageCnt : Nat) : HeapM (Option Nat) :=
  match page with
  | none => return none
  | some a => do
    update fun s => { s with held := (a, pageCnt) :: s.held }
    return some a

instance rangesLawful : LawfulBEq (Nat × Nat) := Prod.instLawfulBEq

/-- `mfree_page`; a range that was not handed out is not taken back. -/
def mfreePage (vaddr pgCnt : Nat) : HeapM Unit := do
  let s ← query id
  require ((vaddr, pgCnt) ∈ s.held)
  update fun s => { s with held := s.held.erase (vaddr, pgCnt) }

/-- The search for the first descriptor whose blocks are large enough. -/
def findDesc (m : Mem) (descs size : Nat) : Nat → Nat → Nat
  | 0, descIdx => descIdx
  | n + 1, descIdx =>
    if size ≤ m (descAt descs descIdx) then descIdx else findDesc m descs size n (descIdx + 1)

/-- The loop of `sys_malloc` that cuts an arena into blocks and appends them to the
    free list of its descriptor, with `n` blocks left. -/
def splitArena (a : Nat) : Nat → Nat → HeapM Unit
  | 0, _ => return ()
  | n + 1, blockIdx => do
    let s ← query id
    let b := arena2block s.mem a blockIdx
    let found ← deref (s.mem.elemFind (s.mem a + 8) b)
    assert (found = false)
    update fun s => { s with mem := s.mem.listAppend (s.mem a + 8) b }
    splitArena a n (blockIdx + 1)

/-- The part of `sys_malloc` that makes sure the descriptor at `desc` has a free
    block; `false` where there is no page for a new arena. -/
def refill (desc : Nat) (page : Option Nat) : HeapM Bool := do
  let s ← query id
  if s.mem.listEmpty (desc + 8) then
    let a ← mallocPage page 1
    match a with
    | none => return false
    | some a =>
      memsetZero a pgSize
      store a desc
      store (a + 8) 0
      let s ← query id
      store (a + 4) (s.mem (desc + 4))
      splitArena a (s.mem (desc + 4)) 0
      return true
  else
    return true

/-- The part of `sys_malloc` that takes the first free block of a descriptor. -/
def takeBlock (desc : Nat) : HeapM Nat := do
  let s ← query id
  let b := s.mem (desc + 12)
  update fun s => { s with mem := s.mem.listRemove b }
  let s ← query id
  memsetZero b (s.mem desc)
  let a := block2arena b
  let s ← query id
  store (a + 4) ((s.mem (a + 4) + (2 ^ 32 - 1)) % 2 ^ 32)
  return b

/-- `sys_malloc` of a kernel thread, with the descriptors at `descs` and a pool of
    `poolSize` bytes; `page` is what `malloc_page` returns if it is called.  A pool has
    fewer than 2^16 pages, so the number of pages is computed without overflow. -/
def kernelMalloc (descs poolSize size : Nat) (page : Option Nat) : HeapM (Option Nat) :=
  if ¬ (0 < size ∧ size < poolSize) then
    return none
  else if 1024 < size then do
    let pageCnt := (size + 12 + pgSize - 1) / pgSize
    let a ← mallocPage page pageCnt
    match a with
    | none => return none
    | some a =>
      memsetZero a (pageCnt * pgSize)
      store a 0
      store (a + 4) pageCnt
      store (a + 8) 1
      return some (a + 12)
  else do
    let s ← query id
    let desc := descAt descs (findDesc s.mem descs size descCnt 0)
    let ready ← refill desc page
    if ready then
      let b ← takeBlock desc
      return some b
    else
      return none

/-- The loop of `sys_free` that takes the blocks of an arena off the free list, with
    `n` blocks left. -/
def dismantle (a : Nat) : Nat → Nat → HeapM Unit
  | 0, _ => return ()
  | n + 1, blockIdx => do
    let s ← query id
    let b := arena2block s.mem a blockIdx
    let found ← deref (s.mem.elemFind (s.mem a + 8) b)
    assert (found = true)
    update fun s => { s with mem := s.mem.listRemove b }
    dismantle a n (blockIdx + 1)

/-- `sys_free` of a kernel thread. -/
def kernelFree (ptr : Nat) : HeapM Unit := do
  assert (ptr ≠ 0)
  let a := block2arena ptr
  let s ← query id
  assert (s.mem (a + 8) = 0 ∨ s.mem (a + 8) = 1)
  if s.mem (a + 8) = 1 ∧ s.mem a = 0 then
    mfreePage a (s.mem (a + 4))
  else
    update fun s => { s with mem := s.mem.listAppend (s.mem a + 8) ptr }
    let s ← query id
    store (a + 4) ((s.mem (a + 4) + 1) % 2 ^ 32)
    let s ← query id
    if s.mem (a + 4) = s.mem (s.mem a + 4) then
      dismantle a (s.mem (s.mem a + 4)) 0
      mfreePage a 1

/-! ## The system around the allocator -/

/-- The allocator's memory together with the blocks handed out, each with the size
    it was asked for. -/
structure Kernel where
  heap : KHeap
  live : List (Nat × Nat)

/-- The number of pages a request takes if it takes any. -/
def pagesFor (size : Nat) : Nat := if 1024 < size then (size + 12 + pgSize - 1) / pgSize else 1

/-- What is assumed of `malloc_page`: the range it hands out consists of whole pages
    below 4 GiB and overlaps neither a range in use nor the descriptors. -/
def PageOk (descs : Nat) (s : KHeap) (size : Nat) (page : Option Nat) : Prop :=
  ∀ a, page = some a → a % pgSize = 0 ∧ 0 < a ∧ a + pgSize * pagesFor size ≤ 2 ^ 32 ∧
    (descs + 24 * descCnt ≤ a ∨ a + pgSize * pagesFor size ≤ descs) ∧
    ∀ r ∈ s.held, a + pgSize * pagesFor size ≤ r.1 ∨ r.1 + pgSize * r.2 ≤ a

/-- A word the owners of blocks, or code that has nothing to do with the allocator,
    may write. -/
def Kernel.Foreign (descs : Nat) (σ : Kernel) (w : Nat) : Prop :=
  (∃ x ∈ σ.live, x.1 ≤ w ∧ w < x.1 + x.2) ∨
    ((∀ r ∈ σ.heap.held, w < r.1 ∨ r.1 + pgSize * r.2 ≤ w) ∧
      (w < descs ∨ descs + 24 * descCnt ≤ w))

/-- One call of the allocator, or a write by somebody else. -/
inductive Kernel.Step (descs poolSize : Nat) : Kernel → Kernel → Prop where
  | malloc {σ : Kernel} {size : Nat} {page : Option Nat} {r : Option Nat} {s' : KHeap}
      (hpage : PageOk descs σ.heap size page)
      (h : Returns (kernelMalloc descs poolSize size page) σ.heap r s') :
      Step descs poolSize σ { heap := s', live := (r.map fun p => (p, size)).toList ++ σ.live }
  | free {σ : Kernel} {x : Nat × Nat} {s' : KHeap} (hx : x ∈ σ.live)
      (h : Returns (kernelFree x.1) σ.heap () s') :
      Step descs poolSize σ { heap := s', live := σ.live.erase x }
  | write {σ : Kernel} {m : Mem} (h : ∀ w, ¬ σ.Foreign descs w → m w = σ.heap.mem w) :
      Step descs poolSize σ { σ with heap := { σ.heap with mem := m } }

/-- The kernel after `block_desc_init`: no page is in use and nothing handed out. -/
def Kernel.init (descs : Nat) (m : Mem) : Kernel :=
  { heap := { mem := blockDescInit descs m, held := [] }, live := [] }

end ZxyOs
