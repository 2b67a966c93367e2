/-
  ZxyOs.Kernel.PageThreads

  Page allocation of `kernel/memory.c` by threads that may be preempted between any
  two statements, with the locks of `kernel/sync.c`.

  An act is a statement that reads or writes something other threads use.  A function
  is a program over acts, written after its source.  `sema_down` and `sema_up` run
  with interrupts off and are acts; the byte and the bit a loop of `bitmap_scan` looks
  at is an act each, and so is the statement of `bitmap_set`.

  What is in the pages is left out, but for the page tables.  Whether `sys_malloc`
  finds a free list empty depends on what is in the pages, so the answer may be any.
-/

import ZxyOs.Kernel.Arena
import ZxyOs.Kernel.Bitmap
import ZxyOs.Lib.Threads

namespace ZxyOs

open Lib Lib.Prog

/-- `enum pool_flags`. -/
inductive PoolFlag where
  | kernel
  | user
  deriving DecidableEq

/-- `struct lock` with its semaphore.  Threads are known by the addresses of their
    control blocks. -/
structure Lock where
  holder : Option Nat := none
  holderRepeatNr : Nat := 0
  value : Nat := 1
  waiters : List Nat := []

/-- `struct pool`. -/
structure Pool where
  poolBitmap : Bitmap
  phyAddrStart : Nat
  poolSize : Nat
  lock : Lock

/-- `struct virtual_addr`. -/
structure VirtualAddr where
  vaddrBitmap : Bitmap
  vaddrStart : Nat

/-- The physical address of the page directory of kernel threads. -/
abbrev kernelPageDir : Nat := 0x100000

/-- What the threads share. -/
structure Shared where
  pool : PoolFlag → Pool
  kernelVaddr : VirtualAddr
  /-- `userprog_vaddr` of the thread -/
  userprogVaddr : Nat → VirtualAddr
  /-- the physical address of the page directory `pgdir` of the thread, if it has one -/
  pgdir : Nat → Option Nat
  cr3 : Nat
  /-- entry `i` of a page directory -/
  pde : Nat → Nat → Nat
  /-- the entry of page `i` in the page tables of a page directory -/
  pte : Nat → Nat → Nat
  blocked : Nat → Bool

namespace Shared

/-- The page directory entry `i` is found in: the kernel's entries are everybody's. -/
def dirOf (s : Shared) (i : Nat) : Nat := if i < 768 then s.cr3 else kernelPageDir

/-- `*pde_ptr(vaddr)`. -/
def pdeAt (s : Shared) (vaddr : Nat) : Nat := s.pde (s.dirOf (vaddr / 2 ^ 22)) (vaddr / 2 ^ 22)

/-- `*pte_ptr(vaddr)`. -/
def pteAt (s : Shared) (vaddr : Nat) : Nat := s.pte (s.dirOf (vaddr / 2 ^ 22)) (vaddr / pgSize)

def setPool (s : Shared) (pf : PoolFlag) (p : Pool) : Shared :=
  { s with pool := Function.update s.pool pf p }

def lock (s : Shared) (pf : PoolFlag) : Lock := (s.pool pf).lock

def setLock (s : Shared) (pf : PoolFlag) (l : Lock) : Shared :=
  s.setPool pf { s.pool pf with lock := l }

def bitmap (s : Shared) (pf : PoolFlag) : Bitmap := (s.pool pf).poolBitmap

def setBitmap (s : Shared) (pf : PoolFlag) (b : Bitmap) : Shared :=
  s.setPool pf { s.pool pf with poolBitmap := b }

/-- The pool of virtual addresses the thread `t` takes pages of the pool `pf` from. -/
def vaddrPool (s : Shared) (t : Nat) : PoolFlag → VirtualAddr
  | .kernel => s.kernelVaddr
  | .user => s.userprogVaddr t

def setVaddrPool (s : Shared) (t : Nat) (pf : PoolFlag) (v : VirtualAddr) : Shared :=
  match pf with
  | .kernel => { s with kernelVaddr := v }
  | .user => { s with userprogVaddr := Function.update s.userprogVaddr t v }

end Shared

/-! ## Acts -/

/-- The statements of the functions below that touch what the threads share. -/
inductive Act where
  | assert (p : Bool)
  /-- `plock->holder == running_thread()` -/
  | holderIsSelf (pf : PoolFlag)
  | semaDown (pf : PoolFlag)
  | setHolder (pf : PoolFlag)
  | clearHolder (pf : PoolFlag)
  | holderRepeatNr (pf : PoolFlag)
  | setHolderRepeatNr (pf : PoolFlag) (n : Nat)
  | semaUp (pf : PoolFlag)
  /-- the call of `palloc` -/
  | palloc (pf : PoolFlag)
  | btmpBytesLen (pf : PoolFlag)
  /-- `0xff == btmp->bits[idx_byte]` -/
  | byteFull (pf : PoolFlag) (idxByte : Nat)
  /-- `(uint8_t)(BITMAP_MASK << idx_bit) & btmp->bits[idx_byte]` -/
  | testBit (pf : PoolFlag) (idxByte idxBit : Nat)
  /-- `bitmap_set(&m_pool->pool_bitmap, bit_index, 1)` -/
  | setBit (pf : PoolFlag) (bitIndex : Nat)
  | phyAddrStart (pf : PoolFlag)
  | poolSize (pf : PoolFlag)
  /-- `bitmap_scan` of a pool of virtual addresses: the index plus 1, 0 for `-1` -/
  | vaddrScan (pf : PoolFlag) (pgCount : Nat)
  | vaddrSet (pf : PoolFlag) (bitIdx : Nat)
  | vaddrStart (pf : PoolFlag)
  /-- `running_thread()->pgdir != NULL` -/
  | hasPgdir
  /-- `*pde & 1` -/
  | pdePresent (vaddr : Nat)
  /-- `*pte & 1` -/
  | ptePresent (vaddr : Nat)
  | setPde (vaddr pde : Nat)
  | setPte (vaddr pte : Nat)
  /-- `memset` of the page table of `vaddr` -/
  | clearPageTable (vaddr : Nat)
  | pageDirActivate (dir : Nat)
  /-- `list_empty(&descs[desc_idx].free_list)` -/
  | freeListEmpty (descIdx : Nat)

/-- What an act of the thread `t` does: it is answered, or the thread blocks (no
    answer), or an assertion stops everything.  `oracle` answers what is left open. -/
def Act.exec (t oracle : Nat) (s : Shared) : Act → Option (Option Nat × Shared)
  | .assert p => if p then some (some 0, s) else none
  | .holderIsSelf pf => some (some (if (s.lock pf).holder = some t then 1 else 0), s)
  | .semaDown pf =>
    if (s.lock pf).value = 0 then
      if t ∈ (s.lock pf).waiters then none
      else some (none,
        { s.setLock pf { s.lock pf with waiters := (s.lock pf).waiters ++ [t] } with
          blocked := Function.update s.blocked t true })
    else if (s.lock pf).value - 1 = 0 then
      some (some 0, s.setLock pf { s.lock pf with value := (s.lock pf).value - 1 })
    else none
  | .setHolder pf => some (some 0, s.setLock pf { s.lock pf with holder := some t })
  | .clearHolder pf => some (some 0, s.setLock pf { s.lock pf with holder := none })
  | .holderRepeatNr pf => some (some (s.lock pf).holderRepeatNr, s)
  | .setHolderRepeatNr pf n =>
    some (some 0, s.setLock pf { s.lock pf with holderRepeatNr := n })
  | .semaUp pf =>
    if (s.lock pf).value = 0 then
      match (s.lock pf).waiters with
      | [] => some (some 0, s.setLock pf { s.lock pf with value := 1 })
      | w :: ws =>
        if s.blocked w then
          some (some 0,
            { s.setLock pf { s.lock pf with value := 1, waiters := ws } with
              blocked := Function.update s.blocked w false })
        else none
    else none
  | .palloc _ => some (some 0, s)
  | .btmpBytesLen pf => some (some (s.bitmap pf).btmpBytesLen, s)
  | .byteFull pf k => some (some (if (s.bitmap pf).byteFull k then 1 else 0), s)
  | .testBit pf k j => some (some (if j < 8 ∧ (s.bitmap pf).bit (8 * k + j) then 1 else 0), s)
  | .setBit pf i => some (some 0, s.setBitmap pf ((s.bitmap pf).bitmapSet i true))
  | .phyAddrStart pf => some (some (s.pool pf).phyAddrStart, s)
  | .poolSize pf => some (some (s.pool pf).poolSize, s)
  | .vaddrScan pf cnt =>
    match Exec.result? ((s.vaddrPool t pf).vaddrBitmap.bitmapScan cnt) () with
    | none => none
    | some none => some (some 0, s)
    | some (some i) => some (some (i + 1), s)
  | .vaddrSet pf i =>
    let v := s.vaddrPool t pf
    some (some 0, s.setVaddrPool t pf { v with vaddrBitmap := v.vaddrBitmap.bitmapSet i true })
  | .vaddrStart pf => some (some (s.vaddrPool t pf).vaddrStart, s)
  | .hasPgdir => some (some (if (s.pgdir t).isSome then 1 else 0), s)
  | .pdePresent vaddr => some (some (s.pdeAt vaddr % 2), s)
  | .ptePresent vaddr => some (some (s.pteAt vaddr % 2), s)
  | .setPde vaddr w =>
    let dir := s.dirOf (vaddr / 2 ^ 22)
    let entries := Function.update (s.pde dir) (vaddr / 2 ^ 22) w
    some (some 0, { s with pde := Function.update s.pde dir entries })
  | .setPte vaddr w =>
    let dir := s.dirOf (vaddr / 2 ^ 22)
    let entries := Function.update (s.pte dir) (vaddr / pgSize) w
    some (some 0, { s with pte := Function.update s.pte dir entries })
  | .clearPageTable vaddr =>
    let dir := s.dirOf (vaddr / 2 ^ 22)
    let entries := fun page => if page / 1024 = vaddr / 2 ^ 22 then 0 else s.pte dir page
    some (some 0, { s with pte := Function.update s.pte dir entries })
  | .pageDirActivate dir => some (some 0, { s with cr3 := dir })
  | .freeListEmpty _ => some (some oracle, s)

/-! ## The functions -/

/-- A function of the kernel, as a thread runs it. -/
abbrev Code (α : Type) : Type := Prog Act α

namespace Code

/-- `ASSERT`. -/
def assert (p : Prop) [Decidable p] : Code Unit := do
  let _ ← perform (.assert (decide p))
  return ()

def lockAcquire (pf : PoolFlag) : Code Unit := do
  if (← perform (.holderIsSelf pf)) = 0 then
    let _ ← perform (.semaDown pf)
    let _ ← perform (.setHolder pf)
    let n ← perform (.holderRepeatNr pf)
    assert (n = 0)
    let _ ← perform (.setHolderRepeatNr pf 1)
    return ()
  else
    let n ← perform (.holderRepeatNr pf)
    let _ ← perform (.setHolderRepeatNr pf (n + 1))
    return ()

def lockRelease (pf : PoolFlag) : Code Unit := do
  let self ← perform (.holderIsSelf pf)
  assert (self ≠ 0)
  let n ← perform (.holderRepeatNr pf)
  if 1 < n then
    let _ ← perform (.setHolderRepeatNr pf (n - 1))
    return ()
  else
    assert (n = 1)
    let _ ← perform (.clearHolder pf)
    let _ ← perform (.setHolderRepeatNr pf 0)
    let _ ← perform (.semaUp pf)
    return ()

/-- The byte loop of `bitmap_scan`, with `n` bytes left to look at. -/
def scanByte (pf : PoolFlag) : Nat → Nat → Code Nat
  | 0, idxByte => return idxByte
  | n + 1, idxByte => do
    if (← perform (.byteFull pf idxByte)) = 0 then return idxByte
    else scanByte pf n (idxByte + 1)

/-- The bit loop of `bitmap_scan` in byte `idxByte`.  For `idx_bit = 8` the mask is
    0, so it makes at most `n = 9` tests. -/
def scanBit (pf : PoolFlag) (idxByte : Nat) : Nat → Nat → Code Nat
  | 0, idxBit => return idxBit
  | n + 1, idxBit => do
    if (← perform (.testBit pf idxByte idxBit)) = 0 then return idxBit
    else scanBit pf idxByte n (idxBit + 1)

/-- `bitmap_scan` of a pool for one bit; `none` is `-1`. -/
def bitmapScan (pf : PoolFlag) : Code (Option Nat) := do
  let len ← perform (.btmpBytesLen pf)
  let idxByte ← scanByte pf len 0
  assert (idxByte < len)
  if idxByte = len then
    return none
  else
    let idxBit ← scanBit pf idxByte 9 0
    return some (idxByte * 8 + idxBit)

/-- `palloc`; `none` is `NULL`. -/
def palloc (pf : PoolFlag) : Code (Option Nat) := do
  let _ ← perform (.palloc pf)
  match ← bitmapScan pf with
  | none => return none
  | some bitIndex =>
    let _ ← perform (.setBit pf bitIndex)
    let phyAddrStart ← perform (.phyAddrStart pf)
    return some (bitIndex * pgSize + phyAddrStart)

/-- `page | PG_US_U | PG_RW_W | PG_P_1`. -/
def entry (phyaddr : Nat) : Nat := phyaddr ||| 7

def pageTableAdd (vaddr pagePhyaddr : Nat) : Code Unit := do
  if (← perform (.pdePresent vaddr)) ≠ 0 then
    if (← perform (.ptePresent vaddr)) = 0 then
      let _ ← perform (.setPte vaddr (entry pagePhyaddr))
      return ()
    else
      -- PANIC("pte repeat")
      assert False
  else
    let pdePhyaddr ← palloc .kernel
    let _ ← perform (.setPde vaddr (entry (pdePhyaddr.getD 0)))
    let _ ← perform (.clearPageTable vaddr)
    let present ← perform (.ptePresent vaddr)
    assert (present = 0)
    let _ ← perform (.setPte vaddr (entry pagePhyaddr))
    return ()

/-- The loop of `vaddr_get` that marks `n` pages from bit `bitIdx` on. -/
def setVaddrs (pf : PoolFlag) : Nat → Nat → Code Unit
  | 0, _ => return ()
  | n + 1, bitIdx => do
    let _ ← perform (.vaddrSet pf bitIdx)
    setVaddrs pf n (bitIdx + 1)

def vaddrGet (pf : PoolFlag) (pgCount : Nat) : Code (Option Nat) := do
  let scan ← perform (.vaddrScan pf pgCount)
  if scan = 0 then
    return none
  else
    setVaddrs pf pgCount (scan - 1)
    let start ← perform (.vaddrStart pf)
    let vaddr := start + (scan - 1) * pgSize
    match pf with
    | .kernel => return some vaddr
    | .user =>
      assert (vaddr < 0xc0000000 - pgSize)
      return some vaddr

/-- The loop of `malloc_page`, with `n` pages left from `vaddr` on; `false` where the
    pool has no frame. -/
def mapPages (pf : PoolFlag) : Nat → Nat → Code Bool
  | 0, _ => return true
  | n + 1, vaddr => do
    match ← palloc pf with
    | none => return false
    | some pagePhyaddr =>
      pageTableAdd vaddr pagePhyaddr
      mapPages pf n (vaddr + pgSize)

def mallocPage (pf : PoolFlag) (pageCount : Nat) : Code (Option Nat) := do
  assert (0 < pageCount ∧ pageCount < 3840)
  match ← vaddrGet pf pageCount with
  | none => return none
  | some vaddr =>
    if ← mapPages pf pageCount vaddr then return some vaddr else return none

/-- `get_kernel_pages` and `get_user_pages`, which differ in the pool. -/
def getPages (pf : PoolFlag) (pageCount : Nat) : Code Unit := do
  lockAcquire pf
  let _ ← mallocPage pf pageCount
  lockRelease pf

def getKernelPages (pageCount : Nat) : Code Unit := getPages .kernel pageCount

def getUserPages (pageCount : Nat) : Code Unit := getPages .user pageCount

/-- `(vaddr - vaddr_start) / PG_SIZE`, unsigned. -/
def vaddrIdx (vaddr start : Nat) : Nat := (vaddr + 2 ^ 32 - start) % 2 ^ 32 / pgSize

def getAPage (pf : PoolFlag) (vaddr : Nat) : Code Unit := do
  lockAcquire pf
  let hasPgdir ← perform .hasPgdir
  let start ← perform (.vaddrStart pf)
  if hasPgdir ≠ 0 ∧ pf = .user then
    assert (0 ≤ vaddrIdx vaddr start)
    let _ ← perform (.vaddrSet pf (vaddrIdx vaddr start))
  else if hasPgdir = 0 ∧ pf = .kernel then
    assert (0 < vaddrIdx vaddr start)
    let _ ← perform (.vaddrSet pf (vaddrIdx vaddr start))
  else
    -- PANIC("get_a_page: ...")
    assert False
  match ← palloc pf with
  -- the lock is not released here
  | none => return ()
  | some pagePhyaddr =>
    pageTableAdd vaddr pagePhyaddr
    lockRelease pf

def getAPageWithoutOpvaddrbitmap (pf : PoolFlag) (vaddr : Nat) : Code Unit := do
  lockAcquire pf
  match ← palloc pf with
  | none => lockRelease pf
  | some pagePhyaddr =>
    pageTableAdd vaddr pagePhyaddr
    lockRelease pf

/-- The loop of `copy_block_stack3` at one page: it is mapped in the page directory
    of the child. -/
def copyPage (parentDir childDir vaddr : Nat) : Code Unit := do
  let _ ← perform (.pageDirActivate childDir)
  getAPageWithoutOpvaddrbitmap .user vaddr
  let _ ← perform (.pageDirActivate parentDir)
  return ()

/-- The index of the first descriptor with large enough blocks. -/
def descIdx (size : Nat) : Nat :=
  ((List.range descCnt).find? fun i => size ≤ 16 * 2 ^ i).getD descCnt

def sysMalloc (size : Nat) : Code Unit := do
  let hasPgdir ← perform .hasPgdir
  let pf : PoolFlag := if hasPgdir = 0 then .kernel else .user
  let poolSize ← perform (.poolSize pf)
  if ¬ (0 < size ∧ size < poolSize) then
    return ()
  else
    lockAcquire pf
    if 1024 < size then
      let _ ← mallocPage pf ((size + 12 + pgSize - 1) / pgSize)
      lockRelease pf
    else if (← perform (.freeListEmpty (descIdx size))) ≠ 0 then
      let _ ← mallocPage pf 1
      lockRelease pf
    else
      lockRelease pf

end Code

/-- A call of the allocator. -/
inductive Request where
  | getKernelPages (pageCount : Nat)
  | getUserPages (pageCount : Nat)
  | sysMalloc (size : Nat)
  | getAPage (pf : PoolFlag) (vaddr : Nat)
  | getAPageWithoutOpvaddrbitmap (pf : PoolFlag) (vaddr : Nat)
  | copyPage (parentDir childDir vaddr : Nat)

def Request.code : Request → Code Unit
  | .getKernelPages n => Code.getKernelPages n
  | .getUserPages n => Code.getUserPages n
  | .sysMalloc size => Code.sysMalloc size
  | .getAPage pf vaddr => Code.getAPage pf vaddr
  | .getAPageWithoutOpvaddrbitmap pf vaddr => Code.getAPageWithoutOpvaddrbitmap pf vaddr
  | .copyPage parentDir childDir vaddr => Code.copyPage parentDir childDir vaddr

/-! ## Threads -/

/-- A thread: what it still has to do, whether it runs with interrupts on, and the
    pool of the `palloc` it is in, with whether it held the lock of the pool when it
    called it. -/
structure Thread where
  code : Code Unit
  intrOn : Bool
  inPalloc : Option (PoolFlag × Bool)

/-- The thread has no call to finish. -/
def Thread.idle (th : Thread) : Bool :=
  match th.code with
  | .ret _ => true
  | .act _ _ => false

/-- Frame `frame` of a pool is taken by `palloc`, or given back. -/
inductive FrameEvent where
  | palloc (t : Nat) (pf : PoolFlag) (frame : Nat)
  | free (pf : PoolFlag) (frame : Nat)
  deriving DecidableEq

/-- One processor and its threads.  The latest event comes first. -/
structure Cpu where
  shared : Shared
  threads : Nat → Thread
  running : Nat
  events : List FrameEvent

/-- What may happen next: the running thread performs its next act or makes a call,
    another thread gets the processor, or a frame is given back. -/
inductive Next where
  | perform (oracle : Nat)
  | call (r : Request) (intrOn : Bool)
  | switch (t : Nat)
  | free (pf : PoolFlag) (frame : Nat)

namespace Cpu

/-- The thread the processor runs. -/
def cur (c : Cpu) : Thread := c.threads c.running

def setCur (c : Cpu) (th : Thread) : Cpu :=
  { c with threads := Function.update c.threads c.running th }

/-- The `palloc` a thread is in after the act `a`. -/
def inPallocAfter (c : Cpu) : Act → Option (PoolFlag × Bool)
  | .palloc pf => some (pf, (c.shared.lock pf).holder = some c.running)
  | .setBit _ _ => none
  | _ => c.cur.inPalloc

/-- The events of the act `a`. -/
def eventsOf (c : Cpu) : Act → List FrameEvent
  | .setBit pf i => [.palloc c.running pf i]
  | _ => []

/-- The running thread performs its next act. -/
def perform (c : Cpu) (oracle : Nat) : Option Cpu :=
  match c.cur.code with
  | .ret _ => none
  | .act a k =>
    if c.shared.blocked c.running then none
    else
      match a.exec c.running oracle c.shared with
      | none => none
      | some (none, s) => some { c with shared := s }
      | some (some n, s) =>
        some { c.setCur { c.cur with code := k n, inPalloc := c.inPallocAfter a } with
          shared := s
          events := c.eventsOf a ++ c.events }

/-- The processor may be taken from the running thread: the timer interrupts it, or
    it is blocked. -/
def preemptible (c : Cpu) : Bool :=
  c.cur.idle || c.cur.intrOn || c.shared.blocked c.running

/-- The step `n`, if it is possible. -/
def step (c : Cpu) : Next → Option Cpu
  | .perform oracle => c.perform oracle
  | .call r intrOn =>
    if c.cur.idle then
      some (c.setCur { code := r.code, intrOn := intrOn, inPalloc := c.cur.inPalloc })
    else none
  | .switch t =>
    if c.preemptible ∧ ¬ c.shared.blocked t then
      some { c with
        running := t
        shared := { c.shared with cr3 := (c.shared.pgdir t).getD kernelPageDir } }
    else none
  | .free pf i =>
    some { c with
      shared := c.shared.setBitmap pf ((c.shared.bitmap pf).bitmapSet i false)
      events := .free pf i :: c.events }

/-- The state the steps `ns` lead to. -/
def steps (c : Cpu) : List Next → Option Cpu
  | [] => some c
  | n :: ns =>
    match c.step n with
    | none => none
    | some d => d.steps ns

/-- Runs whose steps all meet the condition `ok`. -/
inductive Run (ok : Cpu → Next → Prop) : Cpu → Cpu → Prop where
  | refl {c : Cpu} : Run ok c c
  | step {c d e : Cpu} {n : Next} (h : Run ok c d) (hok : ok d n) (hstep : d.step n = some e) :
      Run ok c e

/-- The locks are free, no thread is in a call, and nothing has happened. -/
structure Initial (c : Cpu) : Prop where
  locks : ∀ pf, (c.shared.lock pf).holder = none ∧ (c.shared.lock pf).value = 1
  threads : ∀ t, (c.threads t).code = .ret () ∧ (c.threads t).inPalloc = none
  events : c.events = []

/-- No frame is taken twice without being given back in between. -/
def FramesUnique (events : List FrameEvent) : Prop :=
  ∀ (t t' : Nat) (pf : PoolFlag) (i : Nat) (l₁ l₂ l₃ : List FrameEvent),
    events = l₁ ++ .palloc t' pf i :: l₂ ++ .palloc t pf i :: l₃ → .free pf i ∈ l₂

end Cpu

end ZxyOs
