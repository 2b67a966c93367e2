/-
  ZxyOs.Fs.State

  The state the file system works on: the mounted partition with its two
  bitmaps and its list of open inodes, the kernel objects the code reaches
  through pointers, the table of open files and the tasks' descriptor tables,
  and the disk.

  The disk is a byte store (byte `512 * lba + k` is byte `k` of sector `lba`).
  The drive itself always answers: the `PANIC` behind a failing `busy_wait` is
  not modelled.  `sys_malloc` hands out addresses that are never reused, and
  `Heap.full` says which requests find the heap exhausted, so every null-pointer
  check of the callers has both its outcomes.
-/

import ZxyOs.Lib.Bytes
import ZxyOs.Kernel.Bitmap

namespace ZxyOs

open Lib Lib.Exec

/-- The super block of a partition (`struct super_block` without its padding). -/
structure SuperBlock where
  magic : Nat
  secCnt : Nat
  inodeCnt : Nat
  partLbaBase : Nat
  blockBitmapLba : Nat
  blockBitmapSecs : Nat
  inodeBitmapLba : Nat
  inodeBitmapSecs : Nat
  inodeTableLba : Nat
  inodeTableSecs : Nat
  dataStartLba : Nat
  rootInodeNo : Nat
  dirEntrySize : Nat
  deriving DecidableEq

/-- The fields of `struct partition` that do not change after mounting.  Only
    the mounted partition (`cur_part`) has its super block loaded, so wherever
    the source passes a partition whose super block it reads, it is this one. -/
structure Partition where
  startLba : Nat
  secCnt : Nat
  sb : SuperBlock

/-- `struct inode`.  The list links `inode_tag` are represented by the position
    of the inode's address in `Fs.openInodes`. -/
structure Inode where
  iNo : Nat
  iSize : Nat
  iOpenCnt : Nat
  writeDeny : Bool
  iSectors : Fin 13 → Nat

/-- `struct dir`; the buffer `dir_buf` is only used by `dir_read`. -/
structure Dir where
  inode : Nat
  dirPose : Nat

/-- A `struct dir*`: the static `root_dir` or a block of the heap. -/
inductive DirPtr where
  | root
  | heap (addr : Nat)
  deriving DecidableEq

/-- `struct file`: for a pipe `fdInode` is the ring buffer, `fdFlag` is
    `PIPE_FLAG` and `fdPos` counts the descriptors. -/
structure File where
  fdPos : Nat
  fdFlag : Nat
  fdInode : Option Nat

/-- The ring buffer of a pipe (`struct ioqueue` without its lock and sleepers). -/
structure Ring where
  head : Nat
  tail : Nat
  buf : Bytes

/-- The fields of `struct task_struct` the file system uses.  `userSpace` says
    that `pgdir` is not `NULL`. -/
structure Task where
  fdtable : Fin 8 → Int
  cwdInodeNr : Nat
  userSpace : Bool

/-- A numeral can name a descriptor. -/
instance fdtableNeZero : NeZero 8 := ⟨by decide⟩

/-- A descriptor in range is an index of `fdtable`. -/
theorem fdtable_lt {fd : Int} (h : 0 ≤ fd ∧ fd < 8) : fd.toNat < 8 := by
  omega

/-- The heap behind `sys_malloc`: the next address, the live blocks with the
    pool they came from (`true` for the user pool), and which requests fail. -/
structure Heap where
  next : Nat
  live : List (Nat × Bool)
  full : Nat → Bool

/-- The state of the file system. -/
structure Fs where
  part : Partition
  disk : Bytes
  blockBitmap : Bitmap
  inodeMap : Bitmap
  openInodes : List Nat
  inodes : Nat → Option Inode
  dirs : Nat → Option Dir
  rings : Nat → Option Ring
  rootDir : Dir
  fileTable : Nat → File
  heap : Heap
  tasks : Nat → Option Task
  cur : Nat

/-- Kernel code running on the file-system state. -/
abbrev FsM (α : Type) : Type := Exec Fs α

/-! ## The disk -/

/-- `max_lba`: the last sector of the 80 MB disk. -/
def maxLba : Nat := 80 * 1024 * 1024 / 512 - 1

/-- `ide_read`: sectors `lba, …, lba + secCnt - 1` of the disk of `cur_part`, stored at a
    pointer with `room` bytes behind it. -/
def ideRead (lba secCnt room : Nat) : FsM Bytes := do
  fits (512 * secCnt ≤ room)
  assert (lba ≤ maxLba)
  assert (0 < secCnt)
  query fun s => s.disk.window (512 * lba) (512 * secCnt)

/-- `ide_write`: store the first `512 * secCnt` bytes of `buf` from `lba` on. -/
def ideWrite (lba : Nat) (buf : Bytes) (secCnt : Nat) : FsM Unit := do
  assert (lba ≤ maxLba)
  assert (0 < secCnt)
  update fun s => { s with disk := s.disk.splice (512 * lba) (512 * secCnt) buf }

/-! ## Tasks and the heap -/

/-- `running_thread`. -/
def runningThread : FsM Task := do
  let t ← query fun s => s.tasks s.cur
  deref t

/-- Store the control block of the running task. -/
def putThread (t : Task) : FsM Unit :=
  update fun s => { s with tasks := Function.update s.tasks s.cur (some t) }

/-- One request to the heap, served from the user pool when `user` is set. -/
def mallocFrom (user : Bool) : FsM (Option Nat) := do
  let h ← query fun s => s.heap
  if h.full h.next then
    update fun s => { s with heap := { s.heap with next := s.heap.next + 1 } }
    return none
  update fun s => { s with heap :=
    { s.heap with next := s.heap.next + 1, live := (s.heap.next, user) :: s.heap.live } }
  return some h.next

/-- `sys_malloc`: a task with an address space of its own allocates there. -/
def sysMalloc : FsM (Option Nat) := do
  let cur ← runningThread
  mallocFrom cur.userSpace

/-- `sys_free` of a block; freeing `NULL` fails an assertion.  Whether the arena
    of the block accepts it back is the business of the allocator, not modelled
    here. -/
def sysFree (ptr : Option Nat) : FsM Unit := do
  assert (ptr ≠ none)
  update fun s => { s with heap :=
    { s.heap with live := s.heap.live.filter fun b => some b.1 ≠ ptr } }

/-! ## Objects behind pointers -/

/-- The inode at address `a`. -/
def getInode (a : Nat) : FsM Inode := do
  let v ← query fun s => s.inodes a
  deref v

/-- Store an inode at address `a`. -/
def putInode (a : Nat) (v : Inode) : FsM Unit :=
  update fun s => { s with inodes := Function.update s.inodes a (some v) }

/-- The directory handle behind a `struct dir*`. -/
def getDir : DirPtr → FsM Dir
  | .root => query fun s => s.rootDir
  | .heap a => do
    let d ← query fun s => s.dirs a
    deref d

/-- `dir->inode`. -/
def dirInode (d : DirPtr) : FsM Nat := do
  let d ← getDir d
  return d.inode

/-! ## Bitmaps of the partition -/

/-- The bitmap a call of `bitmap_sync` is about (`enum bitmap_type`). -/
inductive BitmapType where
  | inodeBitmap
  | blockBitmap

/-- The bytes of a bitmap from byte `off` on. -/
def Bitmap.bytesFrom (b : Bitmap) (off : Nat) : Bytes := fun k => b.byteAt (off + k)

/-- `bitmap_sync`: write the sector of the bitmap that holds bit `bitIdx`. -/
def bitmapSync (bitIdx : Nat) (bitmapType : BitmapType) : FsM Unit := do
  let offSec := bitIdx / 4096
  let offSize := offSec * 512
  let s ← query id
  match bitmapType with
  | .inodeBitmap =>
    ideWrite (s.part.sb.inodeBitmapLba + offSec) (s.inodeMap.bytesFrom offSize) 1
  | .blockBitmap =>
    ideWrite (s.part.sb.blockBitmapLba + offSec) (s.blockBitmap.bytesFrom offSize) 1

/-- `bitmap_set(&cur_part->inode_map, …)`; a bit behind the bitmap is not ours. -/
def inodeMapSet (bitIdx : Nat) (value : Bool) : FsM Unit := do
  let s ← query id
  require (bitIdx < s.inodeMap.size)
  update fun s => { s with inodeMap := s.inodeMap.bitmapSet bitIdx value }

/-- `bitmap_set(&cur_part->block_bitmap, …)`; a bit behind the bitmap is not ours. -/
def blockBitmapSet (bitIdx : Nat) (value : Bool) : FsM Unit := do
  let s ← query id
  require (bitIdx < s.blockBitmap.size)
  update fun s => { s with blockBitmap := s.blockBitmap.bitmapSet bitIdx value }

/-- `inode_bitmap_alloc`: take the first free inode number, `none` for `-1`. -/
def inodeBitmapAlloc : FsM (Option Nat) := do
  let s ← query id
  let bitIdx ← s.inodeMap.bitmapScan 1
  match bitIdx with
  | none => return none
  | some i =>
    inodeMapSet i true
    return some i

/-- `block_bitmap_alloc`: take the first free block and return its sector. -/
def blockBitmapAlloc : FsM (Option Nat) := do
  let s ← query id
  let bitIdx ← s.blockBitmap.bitmapScan 1
  match bitIdx with
  | none => return none
  | some i =>
    blockBitmapSet i true
    return some (s.part.sb.dataStartLba + i)

/-- `lba - sb->data_start_lba` in 32-bit arithmetic. -/
def blockBitmapIdx (sb : SuperBlock) (lba : Nat) : Nat :=
  (lba + (2 ^ 32 - sb.dataStartLba % 2 ^ 32)) % 2 ^ 32

/-! ## Inversion -/

section Returns

variable {s s' : Fs} {u : Unit}

theorem returns_ideRead {lba secCnt room : Nat} {b : Bytes} :
    Returns (ideRead lba secCnt room) s b s' ↔ 512 * secCnt ≤ room ∧
      lba ≤ maxLba ∧ 0 < secCnt ∧ s.disk.window (512 * lba) (512 * secCnt) = b ∧ s = s' := by
  simp only [ideRead, returns_bind, returns_fits, returns_assert, returns_query]
  constructor
  · rintro ⟨-, t, ⟨h0, rfl⟩, -, t, ⟨h1, rfl⟩, -, t, ⟨h2, rfl⟩, h3, rfl⟩
    exact ⟨h0, h1, h2, h3, rfl⟩
  · rintro ⟨h0, h1, h2, h3, rfl⟩
    exact ⟨(), s, ⟨h0, rfl⟩, (), s, ⟨h1, rfl⟩, (), s, ⟨h2, rfl⟩, h3, rfl⟩

/-- One sector fits a buffer of one sector. -/
@[simp] theorem returns_ideRead_sector {lba : Nat} {b : Bytes} :
    Returns (ideRead lba 1 512) s b s' ↔
      lba ≤ maxLba ∧ 0 < 1 ∧ s.disk.window (512 * lba) (512 * 1) = b ∧ s = s' :=
  returns_ideRead.trans (and_iff_right (by decide))

@[simp] theorem returns_ideWrite {lba secCnt : Nat} {b : Bytes} :
    Returns (ideWrite lba b secCnt) s u s' ↔
      lba ≤ maxLba ∧ 0 < secCnt ∧
        { s with disk := s.disk.splice (512 * lba) (512 * secCnt) b } = s' := by
  simp only [ideWrite, returns_bind, returns_assert, returns_update]
  constructor
  · rintro ⟨-, t, ⟨h1, rfl⟩, -, t, ⟨h2, rfl⟩, h3⟩
    exact ⟨h1, h2, h3⟩
  · rintro ⟨h1, h2, h3⟩
    exact ⟨(), s, ⟨h1, rfl⟩, (), s, ⟨h2, rfl⟩, h3⟩

@[simp] theorem returns_runningThread {t : Task} :
    Returns runningThread s t s' ↔ s.tasks s.cur = some t ∧ s = s' := by
  simp [runningThread]

@[simp] theorem returns_putThread {t : Task} :
    Returns (putThread t) s u s' ↔
      { s with tasks := Function.update s.tasks s.cur (some t) } = s' := by
  simp [putThread]

/-- A request to the heap changes the heap alone, and what it hands out is new. -/
theorem returns_mallocFrom {user : Bool} {r : Option Nat}
    (h : Returns (mallocFrom user) s r s') :
    s' = { s with heap := s'.heap } ∧ s'.heap.next = s.heap.next + 1 ∧
      ∀ a, r = some a → a = s.heap.next := by
  simp only [mallocFrom, returns_bind, returns_query] at h
  obtain ⟨_, _, ⟨rfl, rfl⟩, h⟩ := h
  split at h
  · simp only [returns_bind, returns_update, returns_pure] at h
    obtain ⟨-, _, rfl, rfl, rfl⟩ := h
    exact ⟨rfl, rfl, by simp⟩
  · simp only [returns_bind, returns_update, returns_pure] at h
    obtain ⟨-, _, rfl, rfl, rfl⟩ := h
    exact ⟨rfl, rfl, by simp⟩

/-- `sys_malloc` changes the heap alone, and what it hands out is new. -/
theorem returns_sysMalloc {r : Option Nat} (h : Returns sysMalloc s r s') :
    s' = { s with heap := s'.heap } ∧ s'.heap.next = s.heap.next + 1 ∧
      ∀ a, r = some a → a = s.heap.next := by
  simp only [sysMalloc, returns_bind, returns_runningThread] at h
  obtain ⟨_, _, ⟨-, rfl⟩, h⟩ := h
  exact returns_mallocFrom h

/-- A request is turned down only where the heap says so. -/
theorem full_of_sysMalloc (h : Returns sysMalloc s none s') :
    s.heap.full s.heap.next = true := by
  simp only [sysMalloc, mallocFrom, returns_bind, returns_runningThread, returns_query] at h
  obtain ⟨_, _, ⟨-, rfl⟩, _, _, ⟨rfl, rfl⟩, h⟩ := h
  by_contra hfull
  rw [if_neg hfull] at h
  simp at h

/-- `sys_free` changes the list of live blocks alone. -/
theorem returns_sysFree {ptr : Option Nat} (h : Returns (sysFree ptr) s u s') :
    s' = { s with heap := s'.heap } ∧ s'.heap.next = s.heap.next := by
  simp only [sysFree, returns_bind, returns_assert, returns_update] at h
  obtain ⟨-, _, ⟨-, rfl⟩, rfl⟩ := h
  exact ⟨rfl, rfl⟩

/-- `cur` runs and its next `n` requests to the heap are served. -/
def Fs.HasMemory (s : Fs) (n : Nat) : Prop :=
  (∃ t, s.tasks s.cur = some t) ∧ ∀ i < n, s.heap.full (s.heap.next + i) = false

theorem sysMalloc_returns {n : Nat} (h : s.HasMemory (n + 1)) :
    ∃ s', Returns sysMalloc s (some s.heap.next) s' ∧ s'.HasMemory n ∧
      s' = { s with heap := s'.heap } := by
  obtain ⟨⟨t, ht⟩, hfull⟩ := h
  refine ⟨{ s with heap := { s.heap with next := s.heap.next + 1
                                         live := (s.heap.next, t.userSpace) :: s.heap.live } },
    ?_, ⟨⟨t, ht⟩, fun i hi => ?_⟩, rfl⟩
  · simp only [sysMalloc, mallocFrom, returns_bind, returns_runningThread, returns_query]
    refine ⟨t, s, ⟨ht, rfl⟩, s.heap, s, ⟨rfl, rfl⟩, ?_⟩
    rw [if_neg (by simpa using hfull 0 (by omega))]
    simp
  · have := hfull (i + 1) (by omega)
    rwa [show s.heap.next + (i + 1) = s.heap.next + 1 + i by omega] at this

theorem sysFree_returns (s : Fs) (a : Nat) : ∃ s', Returns (sysFree (some a)) s () s' := by
  simp [sysFree]

/-- The address of the inode behind a directory handle. -/
def Fs.handle (s : Fs) : DirPtr → Option Nat
  | .root => some s.rootDir.inode
  | .heap d => (s.dirs d).map Dir.inode

@[simp] theorem returns_dirInode {d : DirPtr} {a : Nat} :
    Returns (dirInode d) s a s' ↔ s.handle d = some a ∧ s = s' := by
  cases d with
  | root => simp [dirInode, getDir, Fs.handle, and_comm]
  | heap d =>
    simp only [dirInode, getDir, Fs.handle, returns_bind, returns_query, returns_deref,
      returns_pure, Option.map_eq_some_iff]
    constructor
    · rintro ⟨v, _, ⟨_, _, ⟨rfl, rfl⟩, hv, rfl⟩, rfl, rfl⟩
      exact ⟨⟨v, hv, rfl⟩, rfl⟩
    · rintro ⟨⟨v, hv, rfl⟩, rfl⟩
      exact ⟨v, s, ⟨_, s, ⟨rfl, rfl⟩, hv, rfl⟩, rfl, rfl⟩

@[simp] theorem returns_getInode {a : Nat} {v : Inode} :
    Returns (getInode a) s v s' ↔ s.inodes a = some v ∧ s = s' := by
  simp [getInode]

@[simp] theorem returns_putInode {a : Nat} {v : Inode} :
    Returns (putInode a v) s u s' ↔
      { s with inodes := Function.update s.inodes a (some v) } = s' := by
  simp [putInode]

@[simp] theorem returns_bitmapSync_inode {i : Nat} :
    Returns (bitmapSync i .inodeBitmap) s u s' ↔
      s.part.sb.inodeBitmapLba + i / 4096 ≤ maxLba ∧
        { s with disk := s.disk.splice (512 * (s.part.sb.inodeBitmapLba + i / 4096)) 512
                           (s.inodeMap.bytesFrom (i / 4096 * 512)) } = s' := by
  simp [bitmapSync]

@[simp] theorem returns_bitmapSync_block {i : Nat} :
    Returns (bitmapSync i .blockBitmap) s u s' ↔
      s.part.sb.blockBitmapLba + i / 4096 ≤ maxLba ∧
        { s with disk := s.disk.splice (512 * (s.part.sb.blockBitmapLba + i / 4096)) 512
                           (s.blockBitmap.bytesFrom (i / 4096 * 512)) } = s' := by
  simp [bitmapSync]

@[simp] theorem returns_inodeMapSet {i : Nat} {v : Bool} :
    Returns (inodeMapSet i v) s u s' ↔
      i < s.inodeMap.size ∧ { s with inodeMap := s.inodeMap.bitmapSet i v } = s' := by
  simp [inodeMapSet]

@[simp] theorem returns_blockBitmapSet {i : Nat} {v : Bool} :
    Returns (blockBitmapSet i v) s u s' ↔
      i < s.blockBitmap.size ∧ { s with blockBitmap := s.blockBitmap.bitmapSet i v } = s' := by
  simp [blockBitmapSet]

/-- `inode_bitmap_alloc` takes the first free number; it never returns `-1`. -/
theorem returns_inodeBitmapAlloc {r : Option Nat} :
    Returns inodeBitmapAlloc s r s' ↔
      ∃ i, r = some i ∧ s.inodeMap.IsFirstClear i ∧
        s' = { s with inodeMap := s.inodeMap.bitmapSet i true } := by
  simp only [inodeBitmapAlloc, returns_bind, returns_query, Bitmap.returns_bitmapScan_one]
  constructor
  · rintro ⟨_, _, ⟨rfl, rfl⟩, _, _, ⟨rfl, i, rfl, hi⟩, h⟩
    simp only [returns_bind, returns_inodeMapSet, returns_pure] at h
    obtain ⟨-, _, ⟨-, rfl⟩, rfl, rfl⟩ := h
    exact ⟨i, rfl, hi, rfl⟩
  · rintro ⟨i, rfl, hi, rfl⟩
    refine ⟨s, s, ⟨rfl, rfl⟩, some i, s, ⟨rfl, i, rfl, hi⟩, ?_⟩
    simp only [returns_bind, returns_inodeMapSet, returns_pure]
    exact ⟨(), _, ⟨hi.1, rfl⟩, trivial, rfl⟩

/-- `block_bitmap_alloc` takes the first free block; it never returns `-1`. -/
theorem returns_blockBitmapAlloc {r : Option Nat} :
    Returns blockBitmapAlloc s r s' ↔
      ∃ i, r = some (s.part.sb.dataStartLba + i) ∧ s.blockBitmap.IsFirstClear i ∧
        s' = { s with blockBitmap := s.blockBitmap.bitmapSet i true } := by
  simp only [blockBitmapAlloc, returns_bind, returns_query, Bitmap.returns_bitmapScan_one]
  constructor
  · rintro ⟨_, _, ⟨rfl, rfl⟩, _, _, ⟨rfl, i, rfl, hi⟩, h⟩
    simp only [returns_bind, returns_blockBitmapSet, returns_pure] at h
    obtain ⟨-, _, ⟨-, rfl⟩, rfl, rfl⟩ := h
    exact ⟨i, rfl, hi, rfl⟩
  · rintro ⟨i, rfl, hi, rfl⟩
    refine ⟨s, s, ⟨rfl, rfl⟩, some i, s, ⟨rfl, i, rfl, hi⟩, ?_⟩
    simp only [returns_bind, returns_blockBitmapSet, returns_pure]
    exact ⟨(), _, ⟨hi.1, rfl⟩, trivial, rfl⟩

end Returns

end ZxyOs
