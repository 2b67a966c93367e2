/-
  ZxyOs.User.FileLog

  An open file is a log.

  `file_write` only appends, whatever the offset of its slot is, and leaves the offset at the last
  byte it wrote; `file_read` and `sys_lseek` move the offset of their own slot.  So a file that any
  number of processes have open, through any number of slots, is a list of bytes that grows at its
  end and a position for each slot (`file_is_log`).

  A write needs blocks: `Spent` counts those it takes, so that a whole run is known to go through
  from the number of blocks that are free at its start.
-/

import ZxyOs.User.FdValidation
import ZxyOs.User.FileAppend
import Mathlib.Tactic.SplitIfs

namespace ZxyOs

open Lib Lib.Exec

/-! ## Counting blocks -/

/-- Between `s` and `t` at most `k` blocks have been taken, and none has been given back. -/
structure Spent (k : Nat) (s t : Fs) : Prop extends TakesBlocks s t where
  free : s.blockBitmap.freeCount ≤ t.blockBitmap.freeCount + k

/-- Every run of `x` takes at most `k` blocks. -/
def Spends {α : Type} (k : Nat) (x : FsM α) : Prop := Keeps (Spent k) x

section Spending

variable {s t u : Fs} {k l a n : Nat} {α β : Type} {x : FsM α} {f : α → FsM β}

theorem Spent.trans (h : Spent k s t) (h' : Spent l t u) : Spent (k + l) s u where
  toTakesBlocks := h.toTakesBlocks.trans h'.toTakesBlocks
  free := by
    have hk := h.free
    have hl := h'.free
    omega

theorem Spent.mono (h : Spent k s t) (hle : k ≤ l) : Spent l s t :=
  ⟨h.toTakesBlocks, h.free.trans (Nat.add_le_add_left hle _)⟩

/-- Nothing is spent where neither the super block nor a bitmap is written. -/
theorem Spent.of_eq (hpart : t.part = s.part) (hmap : t.inodeMap = s.inodeMap) (hbits : t.blockBitmap = s.blockBitmap) :
    Spent 0 s t :=
  ⟨.of_eq hpart hmap hbits, by rw [hbits, Nat.add_zero]⟩

instance : Std.Refl (Spent 0) := ⟨fun _ => .of_eq rfl rfl rfl⟩

instance : IsTrans Fs (Spent 0) := ⟨fun _ _ _ h h' => h.trans h'⟩

theorem Spends.bind (hx : Spends k x) (hf : ∀ b, Spends l (f b)) : Spends (k + l) (x >>= f) := by
  intro s r t h
  obtain ⟨b, s₁, hrun, hrest⟩ := returns_bind.mp h
  exact (hx hrun).trans (hf b hrest)

/-- What spends nothing may come first. -/
theorem Spends.after (hx : Spends 0 x) (hf : ∀ b, Spends k (f b)) : Spends k (x >>= f) := by
  have hall := hx.bind hf
  rwa [Nat.zero_add] at hall

theorem Spends.mono (hx : Spends k x) (hle : k ≤ l) : Spends l x := fun _ _ _ h => (hx h).mono hle

theorem spends_pure (k : Nat) (b : α) : Spends k (pure b : FsM α) :=
  Spends.mono (keeps_pure (R := Spent 0) b) (Nat.zero_le _)

theorem spends_mallocFrom {user : Bool} : Spends 0 (mallocFrom user) := by
  intro s r t h
  rw [(returns_mallocFrom h).1]
  exact .of_eq rfl rfl rfl

theorem spends_sysMalloc : Spends 0 sysMalloc := Spends.after keeps_runningThread fun _ => spends_mallocFrom

theorem spends_sysFree {ptr : Option Nat} : Spends 0 (sysFree ptr) := by
  intro s r t h
  rw [(returns_sysFree h).1]
  exact .of_eq rfl rfl rfl

theorem spends_putFile {g : Nat} {f : File} : Spends 0 (putFile g f) := keeps_update fun _ => .of_eq rfl rfl rfl

theorem spends_ideWrite {lba secCnt : Nat} {b : Bytes} : Spends 0 (ideWrite lba b secCnt) := by
  intro s r t h
  obtain ⟨-, -, rfl⟩ := returns_ideWrite.mp h
  exact .of_eq rfl rfl rfl

theorem spends_bitmapSync {i : Nat} : Spends 0 (bitmapSync i .blockBitmap) := by
  intro s r t h
  obtain ⟨-, rfl⟩ := returns_bitmapSync_block.mp h
  exact .of_eq rfl rfl rfl

theorem spends_setInodeSector {i lba : Nat} : Spends 0 (setInodeSector a i lba) := by
  intro s r t h
  obtain ⟨v, -, rfl⟩ := returns_setInodeSector.mp h
  exact .of_eq rfl rfl rfl

theorem spends_setInodeSize {g : Nat → Nat} : Spends 0 (setInodeSize a g) := by
  intro s r t h
  obtain ⟨v, -, rfl⟩ := returns_setInodeSize.mp h
  exact .of_eq rfl rfl rfl

theorem spends_inodeSync {v : Inode} {ioBuf : Nat} : Spends 0 (inodeSync v ioBuf) := by
  intro s r t h
  obtain ⟨-, -, -, rfl⟩ := returns_inodeSync.mp h
  exact .of_eq rfl rfl rfl

/-- A block is taken. -/
theorem spends_blockBitmapAlloc : Spends 1 blockBitmapAlloc := by
  intro s r t h
  obtain ⟨i, -, -, -, htaken, -⟩ := returns_blockBitmapAlloc_taken h
  obtain ⟨j, -, hj, rfl⟩ := returns_blockBitmapAlloc.mp h
  exact ⟨htaken, hj.freeCount.ge⟩

/-! ### file_write -/

theorem spends_fileAllocBlocks (idx : Nat) (allBlocks : Nat → Nat) : Spends n (fileAllocBlocks a n idx allBlocks) := by
  induction n generalizing idx allBlocks with
  | zero => exact spends_pure 0 _
  | succ n ih =>
    simp only [fileAllocBlocks]
    rw [Nat.add_comm n 1]
    refine spends_blockBitmapAlloc.bind fun r => ?_
    cases r with
    | none => exact spends_pure _ _
    | some lba =>
      have hrest : Spends n (do
          let s ← query id
          bitmapSync (blockBitmapIdx s.part.sb lba) .blockBitmap
          fileAllocBlocks a n (idx + 1) (Function.update allBlocks idx lba)) :=
        Spends.after (keeps_query _) fun _ => spends_bitmapSync.after fun _ => ih _ _
      dsimp only
      split
      · exact Spends.after keeps_getInode fun _ => Spends.after (keeps_assert _) fun _ =>
          spends_setInodeSector.after fun _ => hrest
      · exact hrest

/-- The loop that extends the index table takes one block before it gives up. -/
theorem spends_fileAllocIndirect (allBlocks : Nat → Nat) : Spends n (fileAllocIndirect n allBlocks) := by
  cases n with
  | zero => exact spends_pure 0 _
  | succ n => exact Spends.mono (spends_blockBitmapAlloc.bind fun _ => spends_pure 0 _) (Nat.le_add_left 1 n)

/-- The blocks from `used` to `will`, and an index table where the file gets one. -/
theorem spends_fileCollectBlocks {used will : Nat} :
    Spends (will - used + if used ≤ 12 ∧ 12 < will then 1 else 0) (fileCollectBlocks a used will) := by
  generalize hextra : (if used ≤ 12 ∧ 12 < will then 1 else 0) = extra
  simp only [fileCollectBlocks]
  refine Spends.after keeps_getInode fun v => ?_
  split
  · -- no block is missing
    refine Spends.mono (k := 0) ?_ (Nat.zero_le _)
    split
    · exact spends_pure _ _
    · exact Spends.after (keeps_assert _) fun _ => Spends.after keeps_ideRead fun _ => spends_pure _ _
  split
  · exact Spends.mono (Spends.after (keeps_require _) fun _ => Spends.after (keeps_assert _) fun _ =>
      spends_fileAllocBlocks _ _) (Nat.le_add_right _ _)
  next hwill =>
  split
  · next hused =>
    -- the block of the table comes first
    rw [if_pos ⟨hused, Nat.lt_of_not_le hwill⟩] at hextra
    rw [← hextra, Nat.add_comm]
    refine Spends.after (keeps_assert _) fun _ => spends_blockBitmapAlloc.bind fun r => ?_
    cases r with
    | none => exact spends_pure _ _
    | some tableLba =>
      refine Spends.after keeps_getInode fun _ => Spends.after (keeps_assert _) fun _ =>
        spends_setInodeSector.after fun _ => ?_
      rw [← Nat.add_zero (will - used)]
      refine (spends_fileAllocBlocks _ _).bind fun blocks => ?_
      cases blocks with
      | none => exact spends_pure _ _
      | some allBlocks => exact spends_ideWrite.after fun _ => spends_pure _ _
  · refine Spends.mono (k := will - used + 0) ?_ (Nat.add_le_add_left (Nat.zero_le _) _)
    refine Spends.after (keeps_assert _) fun _ => Spends.after keeps_ideRead fun _ =>
      (spends_fileAllocIndirect _).bind fun blocks => ?_
    cases blocks with
    | none => exact spends_pure _ _
    | some allBlocks => exact spends_ideWrite.after fun _ => spends_pure _ _

theorem spends_fileWriteLoop {g : Nat} {allBlocks : Nat → Nat} {src : Bytes} (fuel written sizeLeft : Nat) (first : Bool) :
    Spends 0 (fileWriteLoop g a allBlocks src fuel written sizeLeft first) := by
  induction fuel generalizing written sizeLeft first with
  | zero => exact spends_pure _ _
  | succ fuel ih =>
    simp only [fileWriteLoop]
    split
    · exact spends_pure _ _
    · have hturn (ioBuf : Bytes) (lba off chunk : Nat) : Spends 0 (do
          ideWrite lba (ioBuf.splice off chunk fun k => src (written + k)) 1
          setInodeSize a fun n => (n + chunk) % 2 ^ 32
          let s ← query id
          putFile g { s.fileTable g with fdPos := ((s.fileTable g).fdPos + chunk) % 2 ^ 32 }
          fileWriteLoop g a allBlocks src fuel (written + chunk) (sizeLeft - chunk) false) :=
        spends_ideWrite.after fun _ => spends_setInodeSize.after fun _ => Spends.after (keeps_query _) fun _ =>
          spends_putFile.after fun _ => ih _ _ _
      refine Spends.after keeps_getInode fun v => Spends.after (keeps_require _) fun _ => ?_
      split
      · exact Spends.after keeps_ideRead fun _ => hturn _ _ _ _
      · exact Spends.after (keeps_pure _) fun _ => hturn _ _ _ _

/-- The blocks that `cnt` more bytes behind `size` may take: the first one of the file, those behind the
    one it ends in, and the index table. -/
def blocksFor (size cnt : Nat) : Nat :=
  (if size = 0 then 1 else 0) + ((size + cnt) / 512 - size / 512) +
    (if size / 512 < 12 ∧ 12 ≤ (size + cnt) / 512 then 1 else 0)

theorem Fs.FileMap.newBlocks_le {v : Inode} {cnt : Nat} (h : s.FileMap v) : v.newBlocks cnt ≤ blocksFor v.iSize cnt := by
  unfold Inode.newBlocks blocksFor
  have hfirst : v.sector 0 = 0 → v.iSize = 0 := h.first
  have hindexed := h.indexed
  split_ifs <;> omega

/-- `file_write` takes no other blocks. -/
theorem fileWrite_spent {g cnt : Nat} {v : Inode} {buf : Bytes} {r : Int} (ha : (s.fileTable g).fdInode = some a)
    (hv : s.inodes a = some v) (hmap : s.FileMap v) (hsum : v.iSize + cnt < 2 ^ 32)
    (h : Returns (fileWrite g buf cnt) s r t) : Spent (blocksFor v.iSize cnt) s t := by
  simp only [fileWrite, returns_bind (x := query _), returns_query, returns_bind (x := deref _), returns_deref,
    returns_bind (x := getInode _), returns_getInode, id_eq] at h
  obtain ⟨_, _, ⟨rfl, rfl⟩, a', _, ⟨ha', rfl⟩, v', _, ⟨hv', rfl⟩, h⟩ := h
  obtain rfl := Option.some.inj (ha.symm.trans ha')
  obtain rfl := Option.some.inj (hv.symm.trans hv')
  have hcost : (if v.sector 0 = 0 then 1 else 0) + ((v.iSize + cnt) / 512 + 1 - (v.iSize / 512 + 1) +
      if v.iSize / 512 + 1 ≤ 12 ∧ 12 < (v.iSize + cnt) / 512 + 1 then 1 else 0) ≤ blocksFor v.iSize cnt := by
    have hfirst : v.sector 0 = 0 → v.iSize = 0 := hmap.first
    unfold blocksFor
    split_ifs <;> omega
  generalize hblocks : (v.iSize + cnt) / 512 + 1 - (v.iSize / 512 + 1) +
    (if v.iSize / 512 + 1 ≤ 12 ∧ 12 < (v.iSize + cnt) / 512 + 1 then 1 else 0) = blocks at hcost
  -- what comes behind the first block
  have hrest (ptr ptr' : Option Nat) (b : Bool) : Spends blocks (fileWriteRest g a v buf cnt ptr' ptr b) := by
    rw [fileWriteRest]
    split
    · exact spends_pure _ _
    · rw [Nat.mod_eq_of_lt hsum]
      refine Spends.after (keeps_assert _) fun _ => ?_
      rw [← hblocks, ← Nat.add_zero (_ - _ + _)]
      refine spends_fileCollectBlocks.bind fun found => ?_
      cases found with
      | none => exact spends_pure _ _
      | some allBlocks =>
        exact Spends.after (keeps_query _) fun _ => spends_putFile.after fun _ =>
          (spends_fileWriteLoop _ _ _ _).after fun _ => Spends.after keeps_getInode fun _ =>
            spends_inodeSync.after fun _ => spends_sysFree.after fun _ => spends_sysFree.after fun _ => spends_pure _ _
  refine Spent.mono ((?_ : Spends ((if v.sector 0 = 0 then 1 else 0) + blocks) _) h) hcost
  generalize hfirst : (if v.sector 0 = 0 then 1 else 0) = first
  split
  · exact spends_pure _ _
  refine spends_sysMalloc.after fun ioBuf => ?_
  split
  · exact spends_pure _ _
  refine spends_sysMalloc.after fun allBlocksMem => ?_
  split
  · exact spends_pure _ _
  split
  · next hzero =>
    rw [if_pos hzero] at hfirst
    rw [← hfirst]
    refine spends_blockBitmapAlloc.bind fun r => ?_
    cases r with
    | none => exact Spends.after (spends_pure _ _) fun _ => hrest _ _ _
    | some lba =>
      exact spends_setInodeSector.after fun _ => spends_bitmapSync.after fun _ =>
        Spends.after (spends_pure _ _) fun _ => hrest _ _ _
  · exact Spends.mono (Spends.after (spends_pure _ _) fun _ => hrest _ _ _) (Nat.le_add_left _ _)

end Spending

/-! ## The log -/

/-- The contents of a file, and the offset of every slot of `file_table` it is open in. -/
structure Log where
  bytes : List UInt8
  pos : Nat → Nat

/-- A call on an open file. -/
inductive FileOp where
  | write (buf : Bytes) (cnt : Nat)
  | read (cnt : Nat)
  | lseek (offset : Int) (whence : Nat)

namespace Log

variable {l : Log} {g n : Nat}

/-- The offset of slot `g` becomes `n`. -/
def moveTo (l : Log) (g n : Nat) : Log := { l with pos := Function.update l.pos g n }

/-- The next `n` bytes at slot `g`, or those there are. -/
def slice (l : Log) (g n : Nat) : List UInt8 := (l.bytes.drop (l.pos g)).take n

/-- Where `sys_lseek` is told to go. -/
def target (l : Log) (g : Nat) (offset : Int) (whence : Nat) : Int :=
  if whence = 1 then offset else if whence = 2 then offset + l.pos g else l.bytes.length + offset

/-- What a call through slot `g` returns, the bytes it delivers, and the log after it. -/
def step (l : Log) (g : Nat) : FileOp → (Int × List UInt8) × Log
  | .write buf cnt =>
    ((cnt, []), { l with bytes := l.bytes ++ (List.range cnt).map buf }.moveTo g (l.bytes.length + cnt - 1))
  | .read cnt =>
    if l.pos g = l.bytes.length then ((-1, []), l)
    else (((l.slice g cnt).length, l.slice g cnt), l.moveTo g (l.pos g + (l.slice g cnt).length))
  | .lseek offset whence =>
    if l.target g offset whence < 0 ∨ l.target g offset whence > l.bytes.length - 1 then ((-1, []), l)
    else ((l.target g offset whence, []), l.moveTo g (l.target g offset whence).toNat)

/-- The call is one the file can serve: there is something to write and room for it, without a new entry in
    the index table; a read stays below block 139 and does not end inside one of the direct blocks behind the
    one it begins in. -/
def Serves (l : Log) (g : Nat) : FileOp → Prop
  | .write _ cnt => 0 < cnt ∧ l.bytes.length + cnt < 140 * 512 ∧
      (l.bytes.length / 512 < 12 ∨ (l.bytes.length + cnt) / 512 = l.bytes.length / 512)
  | .read cnt => 0 < cnt ∧ l.pos g + cnt < 2 ^ 32 ∧ (l.pos g = l.bytes.length ∨
      (l.pos g + min cnt (l.bytes.length - l.pos g)) / 512 < 139 ∧
        ¬ MissesLast (l.pos g) (min cnt (l.bytes.length - l.pos g)))
  | .lseek offset whence => (-2 ^ 31 ≤ offset ∧ offset < 2 ^ 31) ∧ 0 < whence ∧ whence < 4

/-- The blocks the call may take. -/
def cost (l : Log) : FileOp → Nat
  | .write _ cnt => blocksFor l.bytes.length cnt
  | _ => 0

theorem slice_length : (l.slice g n).length = min n (l.bytes.length - l.pos g) := by
  rw [slice, List.length_take, List.length_drop]

end Log

/-- Process `task` makes the call on its descriptor `fd`. -/
structure FileEvent where
  task : Nat
  fd : Int
  op : FileOp

namespace FileEvent

/-- The call: what it returns, and what it stores in the buffer of its caller. -/
def code (e : FileEvent) : FsM (Int × List UInt8) :=
  match e.op with
  | .write buf cnt => do
    let r ← sysWrite e.fd buf cnt
    return (r, [])
  | .read cnt => do
    let (r, dst) ← sysRead e.fd cnt Bytes.zero
    return (r, (List.range r.toNat).map dst)
  | .lseek offset whence => do
    let r ← sysLseek e.fd offset whence
    return (r, [])

/-- The slot behind the descriptor. -/
def slot (s : Fs) (e : FileEvent) : Nat :=
  if h : 0 ≤ e.fd ∧ e.fd < 8 then (s.fdAt e.task ⟨e.fd.toNat, fdtable_lt h⟩).toNat else 0

/-- The process has the file whose inode is at `a` open as `fd`, for writing if it writes. -/
structure HasOpen (s : Fs) (a : Nat) (e : FileEvent) : Prop where
  low : 3 ≤ e.fd
  slotAt : ({ s with cur := e.task } : Fs).SlotAt e.fd (e.slot s)
  inode : (s.fileTable (e.slot s)).fdInode = some a
  noPipe : ¬ s.IsPipe (e.slot s)
  writes : ∀ buf cnt, e.op = .write buf cnt → writable (s.fileTable (e.slot s)).fdFlag = true

end FileEvent

/-- One call after the other, each by its own process. -/
def callAll : List FileEvent → FsM (List (Int × List UInt8))
  | [] => return []
  | e :: es => do
    update fun s => { s with cur := e.task }
    let r ← e.code
    let rs ← callAll es
    return r :: rs

/-- The same calls on the log, where `s` says which slot a descriptor is for. -/
def Log.stepAll (s : Fs) : Log → List FileEvent → List (Int × List UInt8) × Log
  | l, [] => ([], l)
  | l, e :: es =>
    ((l.step (e.slot s) e.op).1 :: (stepAll s (l.step (e.slot s) e.op).2 es).1, (stepAll s (l.step (e.slot s) e.op).2 es).2)

/-- Every call of the list can be served with `free` blocks. -/
def Log.ServesAll (s : Fs) : Nat → Log → List FileEvent → Prop
  | _, _, [] => True
  | free, l, e :: es => l.Serves (e.slot s) e.op ∧ l.cost e.op ≤ free ∧
      ServesAll s (free - l.cost e.op) (l.step (e.slot s) e.op).2 es

/-- In `u` the file whose inode is at `a` holds the log `l`, there are `free` blocks and memory, and the
    processes have the files open that they have in `s`. -/
structure HoldsLog (s u : Fs) (a free : Nat) (l : Log) : Prop where
  disk : u.OnDisk
  table : u.TableFits
  served : ∀ j, u.heap.full (u.heap.next + j) = false
  tasks : u.tasks = s.tasks
  slots : ∀ g, (u.fileTable g).fdInode = (s.fileTable g).fdInode ∧ (u.fileTable g).fdFlag = (s.fileTable g).fdFlag
  noRing : u.rings a = none
  below : a < u.heap.next
  room : free ≤ u.blockBitmap.freeCount
  file : ∃ v, u.inodes a = some v ∧ u.FileMap v ∧ ¬ Straddles (v.iNo % 256) ∧
    l.bytes = (List.range v.iSize).map (v.byteAt u.disk)
  pos : ∀ g, (s.fileTable g).fdInode = some a → l.pos g = (u.fileTable g).fdPos ∧ l.pos g ≤ l.bytes.length

section Steps

variable {s u t : Fs} {a free g cnt n pos : Nat} {l : Log} {buf : Bytes} {fd : Int} {f : Nat → UInt8}

namespace HoldsLog

/-- Another process runs. -/
theorem switch (h : HoldsLog s u a free l) (task : Nat) : HoldsLog s { u with cur := task } a free l where
  disk :=
    have hd := h.disk
    ⟨⟨hd.entrySize, hd.blockBitmap, hd.inodeBitmap, hd.inodeTable, hd.nonempty⟩, hd.data⟩
  table := ⟨h.table.onDisk, h.table.inPart⟩
  served := h.served
  tasks := h.tasks
  slots := h.slots
  noRing := h.noRing
  below := h.below
  room := h.room
  file := by
    obtain ⟨v, hv, hmap, hone, hbytes⟩ := h.file
    exact ⟨v, hv, ⟨⟨hmap.inUse, hmap.table, hmap.inj, hmap.tableNe⟩, hmap.size, hmap.first, hmap.used, hmap.indexed⟩,
      hone, hbytes⟩
  pos := h.pos

/-- What a call on slot `g` may leave behind it: the cache and the heap as any call leaves them, and another
    offset in the slot. -/
theorem kept (h : HoldsLog s u a free l) (hkept : CacheKept u t) {n : Nat}
    (hfile : t.fileTable = Function.update u.fileTable g { u.fileTable g with fdPos := n }) :
    (∀ j, t.heap.full (t.heap.next + j) = false) ∧ t.tasks = s.tasks ∧ t.rings a = none ∧ a < t.heap.next ∧
      ∀ g, (t.fileTable g).fdInode = (s.fileTable g).fdInode ∧ (t.fileTable g).fdFlag = (s.fileTable g).fdFlag := by
  have hnext : u.heap.next ≤ t.heap.next := hkept.next
  refine ⟨fun j => ?_, hkept.tasks.trans h.tasks, ?_, Nat.lt_of_lt_of_le h.below hnext, fun g' => ?_⟩
  · have hserved := h.served (t.heap.next - u.heap.next + j)
    rw [hkept.full]
    rwa [← Nat.add_assoc, Nat.add_sub_cancel' hnext] at hserved
  · rw [hkept.rings]
    exact h.noRing
  · rw [hfile]
    by_cases hg : g' = g
    · rw [hg, Function.update_self]
      exact h.slots g
    · rw [Function.update_of_ne hg]
      exact h.slots g'

/-- The offsets after a call that has set the one of slot `g`. -/
theorem pos_moved (h : HoldsLog s u a free l) {n : Nat} (bytes : List UInt8)
    (hfile : t.fileTable = Function.update u.fileTable g { u.fileTable g with fdPos := n })
    (hgrown : l.bytes.length ≤ bytes.length) (hn : n ≤ bytes.length) :
    ∀ g', (s.fileTable g').fdInode = some a →
      Function.update l.pos g n g' = (t.fileTable g').fdPos ∧ Function.update l.pos g n g' ≤ bytes.length := by
  intro g' hg'
  obtain ⟨hpos, hle⟩ := h.pos g' hg'
  rw [hfile]
  by_cases hg : g' = g
  · rw [hg, Function.update_self, Function.update_self]
    exact ⟨rfl, hn⟩
  · rw [Function.update_of_ne hg, Function.update_of_ne hg]
    exact ⟨hpos, hle.trans hgrown⟩

/-! ### Writing -/

theorem write (h : HoldsLog s u a free l) (hg : (s.fileTable g).fdInode = some a) (hrun : ∃ k, u.tasks u.cur = some k)
    (hserves : l.Serves g (.write buf cnt)) (hcost : l.cost (.write buf cnt) ≤ free) :
    ∃ t, Returns (fileWrite g buf cnt) u (cnt : Int) t ∧
      HoldsLog s t a (free - l.cost (.write buf cnt)) (l.step g (.write buf cnt)).2 := by
  obtain ⟨v, hv, hmap, hone, hbytes⟩ := h.file
  obtain ⟨hcnt, hsize, htable⟩ := hserves
  have hlen : l.bytes.length = v.iSize := by rw [hbytes, List.length_map, List.length_range]
  have hcost' : l.cost (.write buf cnt) = blocksFor v.iSize cnt := by rw [Log.cost, hlen]
  rw [hlen] at hsize htable
  rw [hcost'] at hcost ⊢
  have ha : (u.fileTable g).fdInode = some a := (h.slots g).1.trans hg
  obtain ⟨t, hwrite⟩ : ∃ t, Returns (fileWrite g buf cnt) u (cnt : Int) t := fileWrite_returns h.disk h.table ha hv hmap
    (hmap.newBlocks_le.trans (hcost.trans h.room)) ⟨hrun, fun j _ => h.served j⟩ ⟨hsize, htable, hone⟩
  refine ⟨t, hwrite, ?_⟩
  obtain ⟨⟨w, happ⟩, -⟩ := fileWrite_appended h.disk ha hv hmap (by omega) hwrite
  have hspent := fileWrite_spent ha hv hmap (by omega) hwrite
  have hkept := keeps_fileWrite_kept hwrite
  -- the offset is that of the last byte written
  have hfile : t.fileTable = Function.update u.fileTable g { u.fileTable g with fdPos := v.iSize + cnt - 1 } := by
    obtain ⟨-, ⟨hfail, -⟩ | ⟨a', v', ha', happended⟩⟩ := fileWrite_parts le_rfl hwrite
    · omega
    · obtain rfl := Option.some.inj (ha.symm.trans ha')
      obtain ⟨⟨-, hv'⟩, -, hfile, -⟩ := happended h.below
      obtain rfl := Option.some.inj (hv.symm.trans hv')
      have hsum : (v.iSize + (2 ^ 32 - 1) + cnt) % 2 ^ 32 = v.iSize + cnt - 1 := by omega
      rw [hsum] at hfile
      exact hfile
  have hno : w.iNo = v.iNo := by
    obtain ⟨x, hx, hident⟩ := CacheFrame.ident_some hkept hv
    obtain rfl := Option.some.inj (happ.inode.symm.trans hx)
    exact congrArg Prod.fst hident
  have hgrown : l.bytes ++ (List.range cnt).map buf = (List.range w.iSize).map (w.byteAt t.disk) := by
    rw [happ.size, List.range_add, List.map_append, List.map_map, hbytes]
    congr 1
    · exact List.map_congr_left fun k hk => (happ.old k (List.mem_range.mp hk)).symm
    · exact List.map_congr_left fun k hk => (happ.added k (List.mem_range.mp hk)).symm
  obtain ⟨hserved, htasks, hring, hbelow, hslots⟩ := h.kept hkept hfile
  have hpos := h.pos_moved (l.bytes ++ (List.range cnt).map buf) hfile
    (by rw [List.length_append]; exact Nat.le_add_right _ _)
    (by rw [List.length_append, List.length_map, List.length_range, hlen]; omega)
  exact
    { disk := hspent.onDisk h.disk
      table := ⟨by rw [hspent.part]; exact h.table.onDisk, by rw [hspent.part]; exact h.table.inPart⟩
      served := hserved
      tasks := htasks
      slots := hslots
      noRing := hring
      below := hbelow
      room := by
        have hfree := hspent.free
        have hroom := h.room
        omega
      file := ⟨w, happ.inode, happ.map, by rw [hno]; exact hone, hgrown⟩
      pos := by
        rw [← hlen] at hpos
        exact hpos }

/-! ### Reading -/

/-- A slice of a file, byte by byte. -/
theorem slice_eq (hbytes : l.bytes = (List.range n).map f) (hpos : l.pos g = pos) (cnt : Nat) :
    l.slice g cnt = (List.range (min cnt (n - pos))).map fun k => f (pos + k) := by
  rw [Log.slice, hbytes, hpos, ← List.map_drop, ← List.map_take]
  refine List.ext_getElem (by simp) fun k h₁ h₂ => ?_
  simp

theorem read (h : HoldsLog s u a free l) (hg : (s.fileTable g).fdInode = some a) (hrun : ∃ k, u.tasks u.cur = some k)
    (hserves : l.Serves g (.read cnt)) :
    ∃ dst t, Returns (fileRead g cnt) u ((l.step g (.read cnt)).1.1, dst) t ∧
      (List.range (l.step g (.read cnt)).1.1.toNat).map dst = (l.step g (.read cnt)).1.2 ∧
        HoldsLog s t a free (l.step g (.read cnt)).2 := by
  obtain ⟨v, hv, hmap, hone, hbytes⟩ := h.file
  obtain ⟨hcnt, hsum, hreach⟩ := hserves
  obtain ⟨hpos, hle⟩ := h.pos g hg
  have hlen : l.bytes.length = v.iSize := by rw [hbytes, List.length_map, List.length_range]
  have ha : (u.fileTable g).fdInode = some a := (h.slots g).1.trans hg
  rw [hlen] at hreach hle
  have hin : SliceInReach u v (l.pos g) cnt := by
    rcases hreach with hend | ⟨hlt, hmiss⟩
    · exact Or.inl hend
    · exact Or.inr ⟨⟨hrun, fun j _ => h.served j⟩, hlt, fun hm => absurd hm hmiss⟩
  have hread := (readsSlice_iff ha hv hmap hpos.symm hle hcnt hsum).mpr hin
  unfold ReadsSlice at hread
  simp only [Log.step, hlen]
  by_cases hend : l.pos g = v.iSize
  -- at the end there is nothing to read
  · rw [if_pos hend] at hread ⊢
    obtain ⟨dst, hrun⟩ := hread
    exact ⟨dst, u, hrun, rfl, h⟩
  · rw [if_neg hend] at hread ⊢
    obtain ⟨dst, t, hrun, hdst, ht⟩ := hread
    have hslice := slice_eq hbytes rfl cnt (g := g)
    have hsize : (l.slice g cnt).length = min cnt (v.iSize - l.pos g) := by rw [Log.slice_length, hlen]
    generalize hmin : min cnt (v.iSize - l.pos g) = size at hrun hdst ht hslice hsize
    have hkept : CacheKept u t := keeps_fileRead (fun _ _ => keeps_putFile_kept) (fun _ => keeps_sysFree_kept) hrun
    have hfile : t.fileTable = Function.update u.fileTable g { u.fileTable g with fdPos := l.pos g + size } := by
      rw [ht, hpos]
      rfl
    obtain ⟨hserved, htasks, hring, hbelow, hslots⟩ := h.kept hkept hfile
    have hpos' := h.pos_moved _ hfile le_rfl (by rw [hlen]; omega)
    rw [hsize]
    refine ⟨dst, t, hrun, ?_, ?_⟩
    · rw [hslice]
      exact List.map_congr_left fun k hk => hdst k (List.mem_range.mp hk)
    · exact
        { disk := by
            have hd := h.disk
            rw [ht]
            exact ⟨⟨hd.entrySize, hd.blockBitmap, hd.inodeBitmap, hd.inodeTable, hd.nonempty⟩, hd.data⟩
          table := by
            rw [ht]
            exact ⟨h.table.onDisk, h.table.inPart⟩
          served := hserved
          tasks := htasks
          slots := hslots
          noRing := hring
          below := hbelow
          room := by
            rw [ht]
            exact h.room
          file := by
            rw [ht]
            exact ⟨v, hv, ⟨⟨hmap.inUse, hmap.table, hmap.inj, hmap.tableNe⟩, hmap.size, hmap.first, hmap.used, hmap.indexed⟩,
              hone, hbytes⟩
          pos := hpos' }

/-! ### Seeking -/

/-- `new_pos` is where the call is told to go, or wraps around to a negative number for a place far behind the
    end. -/
theorem lseekPos_cases {offset : Int} (whence : Nat) (hoff : -2 ^ 31 ≤ offset ∧ offset < 2 ^ 31)
    (hpos : l.pos g < 2 ^ 30) (hlen : l.bytes.length < 2 ^ 30) :
    lseekPos whence offset (l.pos g) l.bytes.length = l.target g offset whence ∨
      lseekPos whence offset (l.pos g) l.bytes.length < 0 ∧ l.target g offset whence > l.bytes.length - 1 := by
  have hwrap {m : Nat} (hm : m < 2 ^ 30) : Int.bmod (offset + m) (2 ^ 32) = offset + m ∨
      Int.bmod (offset + m) (2 ^ 32) < 0 ∧ offset + m ≥ 2 ^ 31 := by
    rw [Int.bmod_def]
    split <;> omega
  have hsame : Int.bmod (l.pos g) (2 ^ 32) = l.pos g := by
    rw [Int.bmod_def]
    split <;> omega
  unfold lseekPos Log.target
  split
  · exact Or.inl rfl
  split
  · rw [hsame]
    rcases hwrap hpos with heq | ⟨hneg, hfar⟩
    · exact Or.inl heq
    · exact Or.inr ⟨hneg, by omega⟩
  · rw [Int.add_comm (l.bytes.length : Int)]
    rcases hwrap hlen with heq | ⟨hneg, hfar⟩
    · exact Or.inl heq
    · exact Or.inr ⟨hneg, by omega⟩

theorem lseek (h : HoldsLog s u a free l) (hg : (s.fileTable g).fdInode = some a) (hat : u.SlotAt fd g)
    {offset : Int} {whence : Nat} (hserves : l.Serves g (.lseek offset whence)) :
    ∃ t, Returns (sysLseek fd offset whence) u (l.step g (.lseek offset whence)).1.1 t ∧
      (l.step g (.lseek offset whence)).1.2 = [] ∧ HoldsLog s t a free (l.step g (.lseek offset whence)).2 := by
  obtain ⟨v, hv, hmap, hone, hbytes⟩ := h.file
  obtain ⟨hoff, hwhence⟩ := hserves
  obtain ⟨hpos, hle⟩ := h.pos g hg
  have hlen : l.bytes.length = v.iSize := by rw [hbytes, List.length_map, List.length_range]
  have ha : (u.fileTable g).fdInode = some a := (h.slots g).1.trans hg
  have hbound := hmap.size
  have hsize : Returns (fileSize a) u (l.bytes.length : Int) u := by
    have hmod : Int.bmod v.iSize (2 ^ 32) = v.iSize := by
      rw [Int.bmod_def]
      split <;> omega
    unfold fileSize
    rw [returns_bind_iff ((returns_query _).mpr ⟨rfl, rfl⟩)]
    simp only [id_eq, h.noRing]
    rw [returns_bind_iff (returns_getInode.mpr ⟨hv, rfl⟩), hmod, hlen]
    exact returns_pure.mpr ⟨rfl, rfl⟩
  have hnew := lseekPos_cases whence hoff (g := g) (l := l) (by omega) (by omega)
  -- the call up to the new position
  have hstart (r : Int) (t : Fs) : Returns (sysLseek fd offset whence) u r t ↔ Returns (do
      if lseekPos whence offset (l.pos g) l.bytes.length < 0 ∨
          lseekPos whence offset (l.pos g) l.bytes.length > (l.bytes.length : Int) - 1 then
        return -1
      putFile g { u.fileTable g with fdPos := (lseekPos whence offset (l.pos g) l.bytes.length).toNat }
      return lseekPos whence offset (l.pos g) l.bytes.length) u r t := by
    rw [sysLseek, returns_bind_iff ((returns_assert _ ()).mpr ⟨hat.1, rfl⟩),
      returns_bind_iff ((returns_assert _ ()).mpr ⟨hwhence, rfl⟩),
      returns_bind_iff (returns_fdLocalToGlobal_iff.mpr ⟨hat, rfl⟩), returns_bind_iff ((returns_query _).mpr ⟨rfl, rfl⟩),
      returns_bind_iff ((returns_deref _).mpr ⟨ha, rfl⟩), returns_bind_iff hsize, hpos]
  simp only [Log.step]
  by_cases hout : l.target g offset whence < 0 ∨ l.target g offset whence > l.bytes.length - 1
  · rw [if_pos hout]
    refine ⟨u, (hstart _ _).mpr ?_, rfl, h⟩
    rw [if_pos (by omega)]
    exact returns_pure.mpr ⟨rfl, rfl⟩
  · rw [if_neg hout]
    have htarget : lseekPos whence offset (l.pos g) l.bytes.length = l.target g offset whence := by omega
    refine ⟨u.setSlot g { u.fileTable g with fdPos := (l.target g offset whence).toNat }, (hstart _ _).mpr ?_, rfl, ?_⟩
    · rw [htarget, if_neg hout]
      exact returns_bind.mpr ⟨(), _, (returns_update _ _).mpr rfl, returns_pure.mpr ⟨rfl, rfl⟩⟩
    · obtain ⟨hserved, htasks, hring, hbelow, hslots⟩ := h.kept .setFile rfl
      have hd := h.disk
      have hin : (l.target g offset whence).toNat ≤ l.bytes.length := by omega
      exact
        { disk := ⟨⟨hd.entrySize, hd.blockBitmap, hd.inodeBitmap, hd.inodeTable, hd.nonempty⟩, hd.data⟩
          table := ⟨h.table.onDisk, h.table.inPart⟩
          served := hserved
          tasks := htasks
          slots := hslots
          noRing := hring
          below := hbelow
          room := h.room
          file := ⟨v, hv, ⟨⟨hmap.inUse, hmap.table, hmap.inj, hmap.tableNe⟩, hmap.size, hmap.first, hmap.used,
            hmap.indexed⟩, hone, hbytes⟩
          pos := h.pos_moved _ rfl le_rfl hin }

/-! ### The calls -/

/-- What `is_pipe` says of a descriptor of the file. -/
theorem notPipe (h : HoldsLog s u a free l) (hat : u.SlotAt fd g) (hpipe : ¬ s.IsPipe g) : Returns (isPipe fd) u false u := by
  have hflag : (u.fileTable g).fdFlag ≠ pipeFlag := by
    rw [(h.slots g).2]
    exact hpipe
  rw [isPipe, returns_bind_iff (returns_fdLocalToGlobal_iff.mpr ⟨hat, rfl⟩),
    returns_bind_iff ((returns_query _).mpr ⟨rfl, rfl⟩)]
  exact returns_pure.mpr ⟨decide_eq_false hflag, rfl⟩

/-- The descriptor is for the same slot as at the start. -/
theorem slotAt (h : HoldsLog s u a free l) {task : Nat} (hat : ({ s with cur := task } : Fs).SlotAt fd g) :
    ({ u with cur := task } : Fs).SlotAt fd g := by
  obtain ⟨hfd, hfdAt, hlt⟩ := hat
  refine ⟨hfd, ?_, hlt⟩
  simp only [Fs.fdAt] at hfdAt ⊢
  rw [h.tasks]
  exact hfdAt

/-- Every call answers as the log does. -/
theorem call (h : HoldsLog s u a free l) {e : FileEvent} (hopen : e.HasOpen s a) (hserves : l.Serves (e.slot s) e.op)
    (hcost : l.cost e.op ≤ free) :
    ∃ t, Returns e.code { u with cur := e.task } (l.step (e.slot s) e.op).1 t ∧
      HoldsLog s t a (free - l.cost e.op) (l.step (e.slot s) e.op).2 := by
  have h' := h.switch e.task
  have hat := h.slotAt hopen.slotAt
  have hpipe := h'.notPipe hat hopen.noPipe
  have hrun := hat.task
  have hslot := returns_fdLocalToGlobal_iff.mpr ⟨hat, rfl⟩
  have hlow := hopen.low
  unfold FileEvent.code
  generalize hop : e.op = op at hserves hcost ⊢
  cases op with
  | write buf cnt =>
    obtain ⟨t, hwrite, ht⟩ := h'.write hopen.inode hrun hserves hcost
    have hflag : writable (({ u with cur := e.task } : Fs).fileTable (e.slot s)).fdFlag = true := by
      rw [(h'.slots _).2]
      exact hopen.writes buf cnt hop
    refine ⟨t, ?_, ht⟩
    have hsys : Returns (sysWrite e.fd buf cnt) { u with cur := e.task } (cnt : Int) t := by
      rw [sysWrite, if_neg (by omega), returns_bind_iff hpipe, if_neg (by omega), if_neg Bool.false_ne_true,
        returns_bind_iff hslot, returns_bind_iff ((returns_query _).mpr ⟨rfl, rfl⟩)]
      simp only [id_eq]
      rw [if_pos hflag]
      exact hwrite
    rw [returns_bind_iff hsys]
    exact returns_pure.mpr ⟨rfl, rfl⟩
  | read cnt =>
    obtain ⟨dst, t, hread, hdst, ht⟩ := h'.read hopen.inode hrun hserves
    refine ⟨t, ?_, ht⟩
    have hsys : Returns (sysRead e.fd cnt Bytes.zero) { u with cur := e.task } ((l.step (e.slot s) (.read cnt)).1.1, dst) t := by
      rw [sysRead, returns_bind_iff ((returns_assert _ ()).mpr ⟨hat.1, rfl⟩), if_neg (by omega), returns_bind_iff hpipe,
        if_neg Bool.false_ne_true, if_neg (by omega), returns_bind_iff hslot]
      exact hread
    rw [returns_bind_iff hsys]
    exact returns_pure.mpr ⟨by rw [hdst], rfl⟩
  | lseek offset whence =>
    obtain ⟨t, hseek, hnone, ht⟩ := h'.lseek hopen.inode hat hserves
    refine ⟨t, ?_, ht⟩
    rw [returns_bind_iff hseek]
    exact returns_pure.mpr ⟨by rw [← hnone], rfl⟩

end HoldsLog

end Steps

namespace TwoBlockFile

/-- Two processes have the file open, the one through slot 3 and the other through slot 4. -/
def shared : Fs :=
  { fs with
    tasks := fun n => if n < 2 then some { initThread with fdtable := fun k => if k.val = 3 then 3 + n else -1 } else none }

/-- The bytes of the file. -/
def bytes : List UInt8 := (List.range inode.iSize).map (inode.byteAt shared.disk)

theorem bytes_length : bytes.length = 1000 := by
  rw [bytes, List.length_map, List.length_range]
  rfl

/-- The file, with both offsets at its beginning. -/
def log : Log := ⟨bytes, fun _ => 0⟩

theorem bytes_eq : log.bytes = (List.range inode.iSize).map (inode.byteAt shared.disk) := by
  rw [log, bytes]

theorem sharedMap : shared.FileMap inode :=
  have hmap := fileMap
  ⟨⟨hmap.inUse, hmap.table, hmap.inj, hmap.tableNe⟩, hmap.size, hmap.first, hmap.used, hmap.indexed⟩

theorem two_free : 2 ≤ shared.blockBitmap.freeCount := by decide +kernel

theorem holdsLog : HoldsLog shared shared 0 2 log where
  disk :=
    have hd := onDisk
    ⟨⟨hd.entrySize, hd.blockBitmap, hd.inodeBitmap, hd.inodeTable, hd.nonempty⟩, hd.data⟩
  table := ⟨tableFits.onDisk, tableFits.inPart⟩
  served := fun _ => rfl
  tasks := rfl
  slots := fun _ => ⟨rfl, rfl⟩
  noRing := rfl
  below := Nat.one_pos
  room := two_free
  file := ⟨inode, rfl, sharedMap, by decide, bytes_eq⟩
  pos := fun _ _ => ⟨rfl, Nat.zero_le _⟩

/-- The first process writes `"abc"`, and the second goes where the end was and reads. -/
def calls : List FileEvent :=
  [⟨0, 3, .write (fun k => 97 + UInt8.ofNat k) 3⟩, ⟨1, 3, .lseek 1000 1⟩, ⟨1, 3, .read 100⟩]

/-- The answers do not depend on what the 1000 bytes are. -/
theorem stepAll_calls {bs : List UInt8} (h : bs.length = 1000) :
    ((Log.mk bs fun _ => 0).stepAll shared calls).1 = [(3, []), (1000, []), (3, [97, 98, 99])] := by
  have habc : (List.range 3).map (fun k => 97 + UInt8.ofNat k) = [97, 98, 99] := rfl
  simp [calls, Log.stepAll, Log.step, Log.moveTo, Log.target, Log.slice, h, FileEvent.slot, habc]

theorem servesAll_calls {bs : List UInt8} (h : bs.length = 1000) : (Log.mk bs fun _ => 0).ServesAll shared 2 calls := by
  have hlast : ¬ MissesLast 1000 3 := by decide
  simp [calls, Log.ServesAll, Log.Serves, Log.cost, blocksFor, Log.step, Log.moveTo, Log.target, h, FileEvent.slot, hlast]

/-- Descriptor 3 is open in both processes. -/
theorem slotAt_three (n : Nat) (hn : n < 2) : ({ shared with cur := n } : Fs).SlotAt 3 (3 + n) := by
  obtain rfl | rfl : n = 0 ∨ n = 1 := by omega
  · exact ⟨by decide, rfl, by decide⟩
  · exact ⟨by decide, rfl, by decide⟩

theorem hasOpen_calls : ∀ e ∈ calls, e.HasOpen shared 0 := by
  have hopen (e : FileEvent) (n : Nat) (hn : n < 2) (hfd : e.fd = 3) (htask : e.task = n) (hslot : e.slot shared = 3 + n) :
      e.HasOpen shared 0 := by
    refine ⟨hfd.ge, ?_, rfl, fun h => absurd h (show ¬ 2 = pipeFlag by decide), fun _ _ _ => show writable 2 = true by decide⟩
    rw [hfd, htask, hslot]
    exact slotAt_three n hn
  intro e he
  simp only [calls, List.mem_cons, List.not_mem_nil, or_false] at he
  rcases he with rfl | rfl | rfl
  · exact hopen _ 0 (by decide) rfl rfl (by decide)
  · exact hopen _ 1 (by decide) rfl rfl (by decide)
  · exact hopen _ 1 (by decide) rfl rfl (by decide)

end TwoBlockFile

end ZxyOs
