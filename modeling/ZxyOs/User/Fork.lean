/-
  ZxyOs.User.Fork

  `sys_fork` (`user/fork.c`) with all that it takes: pages of the kernel, a pid, a page
  directory, the pages of the child and the descriptors.

  The pools and the page tables are those of `PageThreads`, run alone, the files those of the
  file system.  The bytes of a page belong to its frame; a page directory is known by its
  physical address, and what `fork` uses of a control block is in `Pcb`, in the file system's
  `Task` and in `userprogVaddr`, each under the address of the block.  Translations that are
  kept are left out, and so is the lock of the pids.
-/

import ZxyOs.Kernel.AllocFails
import ZxyOs.Kernel.Sched
import ZxyOs.User.Descriptors

namespace ZxyOs

open Lib Lib.Exec Lib.Prog

/-- What `fork` uses of a `struct task_struct` and of the kernel stack behind it. -/
structure Pcb where
  selfKstack : Nat
  pid : Int
  status : TaskStatus
  name : CStr
  priority : Nat
  ticks : Nat
  elapsedTicks : Nat
  /-- the address of the page directory -/
  pgdir : Option Nat
  parentPid : Int
  /-- `eax` of the `struct intr_stack` at the end of the page -/
  eax : Nat
  /-- the words below it: `ebp`, `ebx`, `edi`, `esi` and the return address -/
  threadStack : List Nat

structure ForkState where
  shared : Shared
  fs : Fs
  /-- the bytes of the frames -/
  page : Nat → Nat → UInt8
  pidBitmap : Bitmap
  pcb : Nat → Pcb
  threadReadyList : List Nat
  threadAllList : List Nat

/-- The kernel in `fork`. -/
abbrev ForkM (α : Type) : Type := Exec ForkState α

namespace ForkState

/-! ## Memory -/

/-- Code on the pools and page tables. -/
def onShared {α : Type} (code : Code α) : ForkM α := fun s =>
  match alone (Act.runs s.fs.cur) code s.shared with
  | .ok (a, t) => .ok (a, { s with shared := t })
  | .error e => .error e

/-- A call of the file system. -/
def onFs {α : Type} (x : FsM α) : ForkM α := fun s =>
  match x s.fs with
  | .ok (a, f) => .ok (a, { s with fs := f })
  | .error e => .error e

def loadByte (vaddr : Nat) : ForkM UInt8 := do
  let s ← query id
  let f ← deref (s.shared.walk (vaddr / pgSize))
  return s.page f (vaddr % pgSize)

/-- A byte is stored in frame `f`. -/
def setByte (s : ForkState) (f i : Nat) (v : UInt8) : ForkState :=
  { s with page := Function.update s.page f (Function.update (s.page f) i v) }

def storeByte (vaddr : Nat) (v : UInt8) : ForkM Unit := do
  let s ← query id
  let f ← deref (s.shared.walk (vaddr / pgSize))
  update fun s => s.setByte f (vaddr % pgSize) v

/-- The loop of `memcpy`, with `size` bytes left. -/
def memcpyLoop : Nat → Nat → Nat → ForkM Unit
  | 0, _, _ => return ()
  | size + 1, dst, src => do
    let v ← loadByte src
    storeByte dst v
    memcpyLoop size (dst + 1) (src + 1)

def memcpy (dst src size : Nat) : ForkM Unit := do
  assert (dst ≠ 0 ∧ src ≠ 0)
  memcpyLoop size dst src

/-- The loop of `memset` for zeros, with `size` bytes left. -/
def memsetLoop : Nat → Nat → ForkM Unit
  | 0, _ => return ()
  | size + 1, dst => do
    storeByte dst 0
    memsetLoop size (dst + 1)

def memsetZero (dst size : Nat) : ForkM Unit := do
  assert (dst ≠ 0)
  memsetLoop size dst

def getKernelPages (pageCount : Nat) : ForkM (Option Nat) := do
  onShared (Code.lockAcquire .kernel)
  let vaddr ← onShared (Code.mallocPage .kernel pageCount)
  match vaddr with
  | none =>
    onShared (Code.lockRelease .kernel)
    return none
  | some vaddr =>
    memsetZero vaddr (pageCount * pgSize)
    onShared (Code.lockRelease .kernel)
    return some vaddr

/-- `mfree_page(PF_KERNEL, …)`. -/
def mfreeKernelPages (vaddr pgCnt : Nat) : ForkM Unit := fun s =>
  match Mmu.mfreePage .kernel vaddr pgCnt { shared := s.shared, cur := s.fs.cur, tlb := fun _ => none } with
  | .ok (_, d) => .ok ((), { s with shared := d.shared })
  | .error e => .error e

def addrV2p (vaddr : Nat) : ForkM Nat := do
  let s ← query id
  require (s.shared.pdeAt vaddr % 2 = 1)
  return s.shared.pteAt vaddr / pgSize * pgSize + vaddr % pgSize

/-- `page_dir_activate`. -/
def pageDirActivate (pthread : Nat) : ForkM Unit := do
  let s ← query id
  let pagePhyAddr ← match (s.pcb pthread).pgdir with
    | none => pure kernelPageDir
    | some pgdir => addrV2p pgdir
  update fun s => { s with shared := { s.shared with cr3 := pagePhyAddr } }

/-- `create_page_dir`: a page of zeros with the kernel's entries and one for itself. -/
def createPageDir : ForkM (Option Nat) := do
  let pageDirVaddr ← getKernelPages 1
  match pageDirVaddr with
  | none => return none
  | some vaddr =>
    let dir ← addrV2p vaddr
    update fun s => { s with shared := { s.shared with
      pde := Function.update s.shared.pde dir fun i =>
        if i = 1023 then dir ||| 3 else if 768 ≤ i then s.shared.pde (s.shared.dirOf i) i else 0 } }
    return some vaddr

/-! ## The functions of fork -/

def setPcb (s : ForkState) (t : Nat) (p : Pcb) : ForkState := { s with pcb := Function.update s.pcb t p }

/-- `fork_pid`, with `pid_start` 1. -/
def forkPid : ForkM Int := do
  let s ← query id
  let bitIdx ← s.pidBitmap.bitmapScan 1
  match bitIdx with
  -- the bit in front of the bitmap would be set
  | none => stop .fault
  | some i =>
    update fun s => { s with pidBitmap := s.pidBitmap.bitmapSet i true }
    return i + 1

/-- `USER_VADDR_START`. -/
abbrev userVaddrBase : Nat := 0x8048000

/-- `"_fork"`. -/
def forkSuffix : CStr := [95, 102, 111, 114, 107]

/-- The first statement of `copy_pcb_vaddrbitmap_stack`: the page of the control block is
    copied. -/
def copyPcb (s : ForkState) (child parent : Nat) : ForkState :=
  { s with
    pcb := Function.update s.pcb child (s.pcb parent)
    fs := { s.fs with tasks := Function.update s.fs.tasks child (s.fs.tasks parent) }
    shared := { s.shared with
      userprogVaddr := Function.update s.shared.userprogVaddr child (s.shared.userprogVaddr parent) } }

/-- `copy_pcb_vaddrbitmap_stack`.  The bits the child has of its parent with the control block
    become its own with the pages for them. -/
def copyPcbVaddrbitmapStack (child parent : Nat) : ForkM Int := do
  update fun s => s.copyPcb child parent
  let pid ← forkPid
  update fun s =>
    let p := s.pcb child
    s.setPcb child { p with
      pid := pid, status := .ready, elapsedTicks := 0, ticks := p.priority, parentPid := (s.pcb parent).pid }
  let bitmapPgCnt := ((0xc0000000 - userVaddrBase) / pgSize / 8 + pgSize - 1) / pgSize
  let vaddrBitmap ← getKernelPages bitmapPgCnt
  match vaddrBitmap with
  | none => return -1
  | some _ =>
    let s ← query id
    assert ((s.pcb child).name.length < 11)
    update fun s => s.setPcb child { s.pcb child with name := (s.pcb child).name ++ forkSuffix }
    return 0

/-- One bit of the loop of `copy_block_stack3`. -/
def copyMarked (child parent bufPage idxByte idxBit : Nat) : ForkM Unit := do
  let s ← query id
  let v := s.shared.userprogVaddr parent
  if v.vaddrBitmap.bit (8 * idxByte + idxBit) then
    let progVaddr := v.vaddrStart + (idxByte * 8 + idxBit) * pgSize
    memcpy bufPage progVaddr pgSize
    pageDirActivate child
    onShared (Code.getAPageWithoutOpvaddrbitmap .user progVaddr)
    memcpy progVaddr bufPage pgSize
    pageDirActivate parent

/-- The bit loop, with `n` bits of the byte left. -/
def copyBits (child parent bufPage idxByte : Nat) : Nat → Nat → ForkM Unit
  | 0, _ => return ()
  | n + 1, idxBit => do
    copyMarked child parent bufPage idxByte idxBit
    copyBits child parent bufPage idxByte n (idxBit + 1)

/-- The byte loop, with `n` bytes left. -/
def copyBytes (child parent bufPage : Nat) : Nat → Nat → ForkM Unit
  | 0, _ => return ()
  | n + 1, idxByte => do
    let s ← query id
    if (List.range 8).any fun j => (s.shared.userprogVaddr parent).vaddrBitmap.bit (8 * idxByte + j) then
      copyBits child parent bufPage idxByte 8 0
    copyBytes child parent bufPage n (idxByte + 1)

def copyBlockStack3 (child parent bufPage : Nat) : ForkM Unit := do
  let s ← query id
  copyBytes child parent bufPage (s.shared.userprogVaddr parent).vaddrBitmap.btmpBytesLen 0

/-- `sizeof(struct intr_stack)`. -/
abbrev intrStackSize : Nat := 76

/-- `build_child_statck`, where `intrExit` is the address of `intr_exit`. -/
def buildChildStack (intrExit child : Nat) : ForkM Unit :=
  update fun s => s.setPcb child { s.pcb child with
    eax := 0, threadStack := [0, 0, 0, 0, intrExit], selfKstack := child + pgSize - intrStackSize - 5 * 4 }

def copyProcess (intrExit child parent : Nat) : ForkM Int := do
  let bufPage ← getKernelPages 1
  match bufPage with
  | none => return -1
  | some bufPage =>
    let r ← copyPcbVaddrbitmapStack child parent
    if r = -1 then
      return -1
    else
      let pgdir ← createPageDir
      update fun s => s.setPcb child { s.pcb child with pgdir := pgdir }
      match pgdir with
      | none => return -1
      | some _ =>
        copyBlockStack3 child parent bufPage
        buildChildStack intrExit child
        onFs (updateInodeOpenCnts child localFds)
        mfreeKernelPages bufPage 1
        return 0

/-- `sys_fork`; the running thread is `fs.cur`. -/
def sysFork (intrExit : Nat) : ForkM Int := do
  let parent ← query fun s => s.fs.cur
  let child ← getKernelPages 1
  match child with
  | none => return -1
  | some child =>
    let s ← query id
    assert ((s.pcb parent).pgdir ≠ none)
    let r ← copyProcess intrExit child parent
    if r = -1 then
      return -1
    else
      let s ← query id
      assert (child ∉ s.threadReadyList)
      update fun s => { s with threadReadyList := s.threadReadyList ++ [child] }
      assert (child ∉ s.threadAllList)
      update fun s => { s with threadAllList := s.threadAllList ++ [child] }
      query fun s => (s.pcb child).pid

end ForkState

end ZxyOs
