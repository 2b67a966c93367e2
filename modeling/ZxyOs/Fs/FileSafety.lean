/-
  ZxyOs.Fs.FileSafety

  When `file_read` and `file_write` come to an end.

  `file_read` goes wrong exactly where `Fs.ReadsWell` fails.  `file_write` also takes
  blocks from the bitmap, whose search panics when none is left, and its other assertions
  say what the size of a file promises about its blocks: `Fs.Appendable` is enough for it.
-/

import ZxyOs.Fs.DirInsert
import ZxyOs.Fs.FdTable
import ZxyOs.Fs.OpenCount
import ZxyOs.Fs.Reading
import ZxyOs.Fs.Transfers

namespace ZxyOs

open Lib Lib.Exec

section Files

variable {s s' t : Fs} {a g n : Nat} {α : Type}

/-! ## Rules -/

theorem safe_getInode : Safe (getInode a) s ↔ s.inodes a ≠ none := by
  rw [getInode, safe_query_bind, safe_deref]

theorem safe_getInode_bind {f : Inode → FsM α} :
    Safe (getInode a >>= f) s ↔ ∃ v, s.inodes a = some v ∧ Safe (f v) s := by
  constructor
  · intro h
    obtain ⟨v, hv⟩ := Option.ne_none_iff_exists'.mp (safe_getInode.mp (safe_bind.mp h).1)
    exact ⟨v, hv, (safe_bind_of_returns (returns_getInode.mpr ⟨hv, rfl⟩)).mp h⟩
  · rintro ⟨v, hv, h⟩
    exact (safe_bind_of_returns (returns_getInode.mpr ⟨hv, rfl⟩)).mpr h

theorem safe_ideRead_bind {lba : Nat} {f : Bytes → FsM α} :
    Safe (ideRead lba 1 512 >>= f) s ↔ lba ≤ maxLba ∧ Safe (f (s.disk.window (512 * lba) 512)) s := by
  constructor
  · intro h
    have hsafe := (safe_bind.mp h).1
    have hle : lba ≤ maxLba := by
      rw [ideRead, fits, if_pos (by decide)] at hsafe
      exact (safe_assert_bind.mp hsafe).1
    exact ⟨hle, (safe_bind_of_returns (returns_ideRead_sector.mpr ⟨hle, by decide, rfl, rfl⟩)).mp h⟩
  · rintro ⟨hle, h⟩
    exact (safe_bind_of_returns (returns_ideRead_sector.mpr ⟨hle, by decide, rfl, rfl⟩)).mpr h

/-- What `sys_malloc` answers, by what the heap says. -/
theorem returns_sysMalloc_task {k : Task} (hk : s.tasks s.cur = some k) :
    ∃ r t, Returns sysMalloc s r t ∧ (r = none ↔ s.heap.full s.heap.next = true) ∧ t = { s with heap := t.heap } ∧
      t.heap.next = s.heap.next + 1 ∧ t.heap.full = s.heap.full := by
  by_cases hfull : s.heap.full s.heap.next = true
  · refine ⟨none, { s with heap := { s.heap with next := s.heap.next + 1 } }, ?_, iff_of_true rfl hfull, rfl, rfl, rfl⟩
    simp only [sysMalloc, mallocFrom, returns_bind, returns_runningThread, returns_query]
    refine ⟨k, s, ⟨hk, rfl⟩, s.heap, s, ⟨rfl, rfl⟩, ?_⟩
    rw [if_pos hfull]
    simp
  · refine ⟨some s.heap.next, { s with heap := { s.heap with next := s.heap.next + 1
                                                             live := (s.heap.next, k.userSpace) :: s.heap.live } },
      ?_, iff_of_false (Option.some_ne_none _) hfull, rfl, rfl, rfl⟩
    simp only [sysMalloc, mallocFrom, returns_bind, returns_runningThread, returns_query]
    refine ⟨k, s, ⟨hk, rfl⟩, s.heap, s, ⟨rfl, rfl⟩, ?_⟩
    rw [if_neg hfull]
    simp

theorem Fs.hasMemory_two_iff {k : Task} (hk : s.tasks s.cur = some k) :
    s.HasMemory 2 ↔ s.heap.full s.heap.next = false ∧ s.heap.full (s.heap.next + 1) = false := by
  constructor
  · rintro ⟨-, h⟩
    exact ⟨h 0 (by decide), h 1 (by decide)⟩
  · rintro ⟨h₀, h₁⟩
    refine ⟨⟨k, hk⟩, fun i hi => ?_⟩
    match i, hi with
    | 0, _ => exact h₀
    | 1, _ => exact h₁

/-- The start of `file_read` and of `file_write`: two buffers, or the call gives up. -/
theorem safe_twoBuffers {k : Task} (r : α) (f : Option Nat → Option Nat → FsM α) (hk : s.tasks s.cur = some k) :
    ∃ h a b, (Safe (do
      let ioBuf ← sysMalloc
      if ioBuf = none then
        return r
      let allBlocksMem ← sysMalloc
      if allBlocksMem = none then
        return r
      f ioBuf allBlocksMem) s ↔ (s.HasMemory 2 → Safe (f (some a) (some b)) { s with heap := h })) := by
  rw [Fs.hasMemory_two_iff hk]
  obtain ⟨r₁, t₁, hmalloc, hnone, ht₁, hnext, hfull⟩ := returns_sysMalloc_task hk
  rw [safe_bind_of_returns hmalloc]
  cases r₁ with
  | none =>
    have htrue := hnone.mp rfl
    rw [htrue]
    exact ⟨s.heap, 0, 0, iff_of_true (safe_pure _) fun h => by cases h.1⟩
  | some a =>
    have hfalse : s.heap.full s.heap.next = false := by simpa using hnone
    have hk₁ : t₁.tasks t₁.cur = some k := by
      rw [ht₁]
      exact hk
    rw [if_neg (Option.some_ne_none a), hfalse]
    obtain ⟨r₂, t₂, hmalloc', hnone', ht₂, -, -⟩ := returns_sysMalloc_task hk₁
    rw [safe_bind_of_returns hmalloc']
    rw [hfull, hnext] at hnone'
    cases r₂ with
    | none =>
      have htrue := hnone'.mp rfl
      rw [htrue]
      exact ⟨s.heap, 0, 0, iff_of_true (safe_pure _) fun h => by cases h.2⟩
    | some b =>
      have hfalse' : s.heap.full (s.heap.next + 1) = false := by simpa using hnone'
      have ht : t₂ = { s with heap := t₂.heap } := by rw [ht₂, ht₁]
      rw [if_neg (Option.some_ne_none b), hfalse']
      exact ⟨t₂.heap, a, b, by rw [imp_iff_right ⟨rfl, rfl⟩, ← ht]⟩

/-! ## file_read -/

/-- `all_blocks` of `file_read` for a file with inode `v` on `disk`. -/
def Inode.readBlocks (v : Inode) (disk : Bytes) (startIdx endIdx : Nat) : Nat → Nat :=
  let tbl := disk.window (512 * v.sector 12) 512
  if endIdx = startIdx then
    if endIdx < 12 then fileLastBlock v endIdx else fileTableBlocks tbl
  else if endIdx < 12 then
    fun k => if startIdx ≤ k ∧ k < endIdx then v.sector k else 0
  else if startIdx < 12 then
    fun k => if k < startIdx then 0 else v.allBlocks tbl k
  else
    fileTableBlocks tbl

/-- Where a read gets to the blocks behind the first 12, their table is there. -/
def Inode.TableRead (v : Inode) (startIdx endIdx : Nat) : Prop :=
  12 ≤ endIdx → v.sector 12 ≤ maxLba ∧ (endIdx ≠ startIdx → v.sector 12 ≠ 0)

theorem returns_fileReadBlocks {v : Inode} {startIdx endIdx : Nat} (h : v.TableRead startIdx endIdx) :
    Returns (fileReadBlocks v startIdx endIdx) s (v.readBlocks s.disk startIdx endIdx) s := by
  have hread (hle : 12 ≤ endIdx) : Returns (ideRead (v.sector 12) 1 512) s (s.disk.window (512 * v.sector 12) 512) s :=
    returns_ideRead_sector.mpr ⟨(h hle).1, by decide, rfl, rfl⟩
  unfold fileReadBlocks Inode.readBlocks
  by_cases heq : endIdx = startIdx
  · rw [if_pos heq, if_pos heq]
    by_cases hlt : endIdx < 12
    · rw [if_pos hlt, if_pos hlt]
      exact returns_pure.mpr ⟨rfl, rfl⟩
    · rw [if_neg hlt, if_neg hlt]
      exact returns_bind.mpr ⟨_, s, hread (Nat.not_lt.mp hlt), returns_pure.mpr ⟨rfl, rfl⟩⟩
  · rw [if_neg heq, if_neg heq]
    by_cases hlt : endIdx < 12
    · rw [if_pos hlt, if_pos hlt]
      exact returns_pure.mpr ⟨rfl, rfl⟩
    · rw [if_neg hlt, if_neg hlt]
      have hle := Nat.not_lt.mp hlt
      have hassert : Returns (assert (v.sector 12 ≠ 0)) s () s := (returns_assert _ _).mpr ⟨(h hle).2 heq, rfl⟩
      by_cases hstart : startIdx < 12
      · rw [if_pos hstart, if_pos hstart]
        exact returns_bind.mpr ⟨(), s, hassert, returns_bind.mpr ⟨_, s, hread hle, returns_pure.mpr ⟨rfl, rfl⟩⟩⟩
      · rw [if_neg hstart, if_neg hstart]
        exact returns_bind.mpr ⟨(), s, hassert, returns_bind.mpr ⟨_, s, hread hle, returns_pure.mpr ⟨rfl, rfl⟩⟩⟩

theorem safe_fileReadBlocks {v : Inode} {startIdx endIdx : Nat} (h : Safe (fileReadBlocks v startIdx endIdx) s) :
    v.TableRead startIdx endIdx := by
  intro hle
  unfold fileReadBlocks at h
  by_cases heq : endIdx = startIdx
  · rw [if_pos heq, if_neg (Nat.not_lt.mpr hle), safe_ideRead_bind] at h
    exact ⟨h.1, fun hne => absurd heq hne⟩
  · rw [if_neg heq, if_neg (Nat.not_lt.mpr hle)] at h
    split at h
    · rw [safe_assert_bind, safe_ideRead_bind] at h
      exact ⟨h.2.1, fun _ => h.1⟩
    · rw [safe_assert_bind, safe_ideRead_bind] at h
      exact ⟨h.2.1, fun _ => h.1⟩

/-- The data loop of `file_read` reads the blocks it passes, which must be among the 140 of
    a file and on the disk. -/
theorem safe_fileReadLoop_iff {allBlocks : Nat → Nat} {fuel bytesRead sizeLeft : Nat} {dst : Bytes}
    (hfuel : sizeLeft ≤ fuel) : Safe (fileReadLoop g allBlocks fuel bytesRead sizeLeft dst) s ↔
      (sizeLeft ≠ 0 → ∀ j, (s.fileTable g).fdPos / 512 ≤ j → 512 * j < (s.fileTable g).fdPos + sizeLeft →
        j < 140 ∧ allBlocks j ≤ maxLba) := by
  induction fuel generalizing s bytesRead sizeLeft dst with
  | zero =>
    obtain rfl : sizeLeft = 0 := by omega
    exact iff_of_true (safe_pure _) fun h => absurd rfl h
  | succ fuel ih =>
    rw [fileReadLoop]
    by_cases hzero : sizeLeft = 0
    · rw [if_pos hzero]
      exact iff_of_true (safe_pure _) fun h => absurd hzero h
    rw [if_neg hzero, safe_query_bind, imp_iff_right hzero]
    dsimp only [id_eq]
    rw [safe_require_bind, safe_ideRead_bind, putFile, safe_update_bind]
    generalize hchunk : (if sizeLeft < 512 - (s.fileTable g).fdPos % 512 then sizeLeft
      else 512 - (s.fileTable g).fdPos % 512) = chunk
    have hchunk₁ : chunk ≤ sizeLeft ∧ 0 < chunk := by
      have hlt := Nat.mod_lt (s.fileTable g).fdPos (show 0 < 512 by decide)
      split at hchunk <;> omega
    rw [ih (by omega)]
    dsimp only
    rw [Function.update_self]
    dsimp only
    generalize (s.fileTable g).fdPos = pos at hchunk ⊢
    have hmod := Nat.div_add_mod pos 512
    have hlt := Nat.mod_lt pos (show 0 < 512 by decide)
    constructor
    · rintro ⟨hidx, hlba, hrest⟩ j hj hjlt
      have hpos : (pos + chunk) % 2 ^ 32 = pos + chunk := by
        apply Nat.mod_eq_of_lt
        split at hchunk <;> omega
      rw [hpos] at hrest
      by_cases heq : j = pos / 512
      · rw [heq]
        exact ⟨hidx, hlba⟩
      · -- the blocks behind the first one are left to the rest
        split at hchunk
        · omega
        · exact hrest (by omega) j (by omega) (by omega)
    · intro h
      obtain ⟨hidx, hlba⟩ := h (pos / 512) le_rfl (by omega)
      refine ⟨hidx, hlba, fun hne j hj hjlt => ?_⟩
      have hpos : (pos + chunk) % 2 ^ 32 = pos + chunk := by
        apply Nat.mod_eq_of_lt
        split at hchunk <;> omega
      rw [hpos] at hj hjlt
      exact h j (by omega) (by omega)

/-- What a read of `size` bytes at `pos` relies on. -/
structure Fs.BlocksRead (s : Fs) (v : Inode) (pos size : Nat) : Prop where
  range : pos / 512 < 139 ∧ (pos + size) % 2 ^ 32 / 512 < 139
  table : v.TableRead (pos / 512) ((pos + size) % 2 ^ 32 / 512)
  blocks : size ≠ 0 → ∀ j, pos / 512 ≤ j → 512 * j < pos + size →
    j < 140 ∧ v.readBlocks s.disk (pos / 512) ((pos + size) % 2 ^ 32 / 512) j ≤ maxLba

/-- What `file_read` relies on for `cnt` bytes at `pos`, unless it gives up before. -/
def Fs.ReadsWell (s : Fs) (v : Inode) (pos cnt : Nat) : Prop :=
  ¬ ((pos + cnt) % 2 ^ 32 > v.iSize ∧ fileReadSize pos v.iSize cnt = 0) → s.HasMemory 2 →
    s.BlocksRead v pos (fileReadSize pos v.iSize cnt)

theorem safe_fileRead_iff {k : Task} {cnt : Nat} (hk : s.tasks s.cur = some k) :
    Safe (fileRead g cnt) s ↔ ∃ a v, (s.fileTable g).fdInode = some a ∧ s.inodes a = some v ∧
      s.ReadsWell v (s.fileTable g).fdPos cnt := by
  rw [fileRead, safe_query_bind, safe_deref_bind]
  refine exists_congr fun a => ?_
  rw [exists_and_left, safe_getInode_bind]
  refine and_congr_right fun _ => exists_congr fun v => and_congr_right fun _ => ?_
  dsimp only [id_eq]
  rw [Fs.ReadsWell]
  let size := fileReadSize (s.fileTable g).fdPos v.iSize cnt
  by_cases hover : ((s.fileTable g).fdPos + cnt) % 2 ^ 32 > v.iSize ∧ size = 0
  · rw [if_pos hover]
    exact iff_of_true (safe_pure _) fun h => absurd hover h
  rw [if_neg hover, imp_iff_right hover]
  obtain ⟨h, a, b, hiff⟩ := safe_twoBuffers ((-1 : Int), Bytes.zero) (fun ioBuf allBlocksMem => (do
    assert ((s.fileTable g).fdPos / 512 < 139 ∧ ((s.fileTable g).fdPos + size) % 2 ^ 32 / 512 < 139)
    let allBlocks ← fileReadBlocks v ((s.fileTable g).fdPos / 512) (((s.fileTable g).fdPos + size) % 2 ^ 32 / 512)
    let dst ← fileReadLoop g allBlocks size 0 size Bytes.zero
    sysFree allBlocksMem
    sysFree ioBuf
    return (size, dst) : FsM (Int × Bytes))) hk
  refine hiff.trans (imp_congr_right fun _ => ?_)
  -- behind the loop only the buffers are freed
  have hend (dst : Bytes) (t : Fs) : Safe (do
      sysFree (some b)
      sysFree (some a)
      return ((size : Int), dst) : FsM (Int × Bytes)) t := by
    obtain ⟨t₁, h₁⟩ := sysFree_returns t b
    obtain ⟨t₂, h₂⟩ := sysFree_returns t₁ a
    rw [safe_bind_of_returns h₁, safe_bind_of_returns h₂]
    exact safe_pure _
  have hloop (bl : Nat → Nat) : Safe (fileReadLoop g bl size 0 size Bytes.zero) { s with heap := h } ↔ _ :=
    safe_fileReadLoop_iff le_rfl
  rw [safe_assert_bind]
  constructor
  · rintro ⟨hrange, h⟩
    have htable := safe_fileReadBlocks (safe_bind.mp h).1
    rw [safe_bind_of_returns (returns_fileReadBlocks htable)] at h
    exact ⟨hrange, htable, (hloop _).mp (safe_bind.mp h).1⟩
  · rintro ⟨hrange, htable, hblocks⟩
    refine ⟨hrange, ?_⟩
    rw [safe_bind_of_returns (returns_fileReadBlocks htable)]
    exact safe_bind.mpr ⟨(hloop _).mpr hblocks, fun dst t _ => hend dst t⟩

end Files

/-! ## Free blocks -/

/-- The number of clear bits. -/
def Bitmap.freeCount (b : Bitmap) : Nat := ((Finset.range b.size).filter fun i => b.bit i = false).card

theorem Bitmap.exists_isFirstClear_of_free {b : Bitmap} (h : 0 < b.freeCount) : ∃ i, b.IsFirstClear i := by
  obtain ⟨i, hi⟩ := Finset.card_pos.mp h
  obtain ⟨hlt, hclear⟩ := Finset.mem_filter.mp hi
  exact exists_isFirstClear (Finset.mem_range.mp hlt) hclear

/-- Taking a clear bit leaves one less. -/
theorem Bitmap.IsFirstClear.freeCount {b : Bitmap} {i : Nat} (hi : b.IsFirstClear i) :
    (b.bitmapSet i true).freeCount + 1 = b.freeCount := by
  have hmem : i ∈ (Finset.range b.size).filter fun j => b.bit j = false :=
    Finset.mem_filter.mpr ⟨Finset.mem_range.mpr hi.1, hi.2.1⟩
  have herase : ((Finset.range b.size).filter fun j => (b.bitmapSet i true).bit j = false) =
      ((Finset.range b.size).filter fun j => b.bit j = false).erase i := by
    ext j
    rw [Finset.mem_erase, Finset.mem_filter, Finset.mem_filter, Bitmap.bitmapSet_bit]
    by_cases hj : j = i
    · simp [hj]
    · simp [hj]
  rw [Bitmap.freeCount, Bitmap.bitmapSet_size, herase, Finset.card_erase_add_one hmem, Bitmap.freeCount]

/-- The data blocks and the sectors of their bitmap are on the disk, and `k` of the blocks
    are free. -/
structure Fs.Room (k : Nat) (s : Fs) : Prop where
  start : 0 < s.part.sb.dataStartLba
  blocks : s.part.sb.dataStartLba + s.blockBitmap.size ≤ maxLba + 1
  bitmap : ∀ i < s.blockBitmap.size, s.part.sb.blockBitmapLba + i / 4096 ≤ maxLba
  free : k ≤ s.blockBitmap.freeCount

section Appending

variable {s s' t : Fs} {a g n k : Nat} {v w : Inode} {allBlocks : Nat → Nat} {α : Type}

theorem Fs.Room.of_eq (h : s.Room k) (hpart : t.part = s.part) (hbits : t.blockBitmap = s.blockBitmap) : t.Room k := by
  refine ⟨?_, ?_, ?_, ?_⟩
  · rw [hpart]
    exact h.start
  · rw [hpart, hbits]
    exact h.blocks
  · rw [hpart, hbits]
    exact h.bitmap
  · rw [hbits]
    exact h.free

/-- A block is taken. -/
theorem Fs.Room.alloc (h : s.Room (k + 1)) : ∃ i, i < s.blockBitmap.size ∧
    Returns blockBitmapAlloc s (some (s.part.sb.dataStartLba + i))
      { s with blockBitmap := s.blockBitmap.bitmapSet i true } ∧
    Fs.Room k { s with blockBitmap := s.blockBitmap.bitmapSet i true } := by
  obtain ⟨i, hi⟩ := Bitmap.exists_isFirstClear_of_free (Nat.lt_of_lt_of_le (Nat.succ_pos k) h.free)
  refine ⟨i, hi.1, returns_blockBitmapAlloc.mpr ⟨i, rfl, hi, rfl⟩, h.start, h.blocks, h.bitmap, ?_⟩
  have hcount := hi.freeCount
  have hfree := h.free
  show k ≤ (s.blockBitmap.bitmapSet i true).freeCount
  omega

/-- Its bit is written to the disk. -/
theorem Fs.Room.sync {i lba : Nat} (h : s.Room k) (hi : i < s.blockBitmap.size)
    (hlba : lba = s.part.sb.dataStartLba + i) :
    ∃ d, Returns (bitmapSync (blockBitmapIdx s.part.sb lba) .blockBitmap) s () { s with disk := d } := by
  have hle : s.part.sb.dataStartLba + i ≤ maxLba := by
    have := h.blocks
    omega
  rw [hlba, blockBitmapIdx_data hle]
  exact ⟨_, returns_bitmapSync_block.mpr ⟨h.bitmap i hi, rfl⟩⟩

/-- The address of a block is one on the disk, and not 0. -/
theorem Fs.Room.addr {i : Nat} (h : s.Room k) (hi : i < s.blockBitmap.size) :
    s.part.sb.dataStartLba + i ≤ maxLba ∧ s.part.sb.dataStartLba + i ≠ 0 := by
  have h₁ := h.blocks
  have h₂ := h.start
  omega

/-! ## Collecting the blocks -/

/-- The inode at `a` is `w` but for its sectors. -/
def Fs.HasInode (s : Fs) (a : Nat) (w : Inode) : Prop :=
  ∃ v, s.inodes a = some v ∧ v.iSize = w.iSize ∧ v.iNo = w.iNo

/-- The allocation loop of `file_write` gets its blocks. -/
theorem fileAllocBlocks_returns (idx : Nat) (hroom : s.Room (n + k)) (hv : s.inodes a = some v)
    (hzero : ∀ j, idx ≤ j → j < 12 → v.sector j = 0) (hall : ∀ j, allBlocks j ≤ maxLba) :
    ∃ blocks t, Returns (fileAllocBlocks a n idx allBlocks) s (some blocks) t ∧ t.part = s.part ∧
      t.HasInode a v ∧ ∀ j, blocks j ≤ maxLba := by
  induction n generalizing s v idx allBlocks with
  | zero => exact ⟨allBlocks, s, returns_pure.mpr ⟨rfl, rfl⟩, rfl, ⟨v, hv, rfl, rfl⟩, hall⟩
  | succ n ih =>
    rw [Nat.add_right_comm] at hroom
    obtain ⟨i, hi, halloc, hroom₁⟩ := hroom.alloc
    obtain ⟨haddr, -⟩ := hroom.addr hi
    generalize hlba : s.part.sb.dataStartLba + i = lba at halloc haddr
    have hall' (j : Nat) : Function.update allBlocks idx lba j ≤ maxLba := by
      by_cases hj : j = idx
      · rw [hj, Function.update_self]
        exact haddr
      · rw [Function.update_of_ne hj]
        exact hall j
    -- once the block is entered, its bit is written and the loop goes on
    have hlast {s₂ : Fs} {w : Inode} (hpart : s₂.part = s.part) (hroom₂ : s₂.Room (n + k))
        (hi₂ : i < s₂.blockBitmap.size) (hw : s₂.inodes a = some w)
        (hzero₂ : ∀ j, idx + 1 ≤ j → j < 12 → w.sector j = 0) : ∃ blocks t, Returns (do
          let s ← query id
          bitmapSync (blockBitmapIdx s.part.sb lba) .blockBitmap
          fileAllocBlocks a n (idx + 1) (Function.update allBlocks idx lba))
          s₂ (some blocks) t ∧ t.part = s₂.part ∧ t.HasInode a w ∧ ∀ j, blocks j ≤ maxLba := by
      obtain ⟨d, hsync⟩ := hroom₂.sync hi₂ (hpart ▸ hlba.symm)
      obtain ⟨blocks, t, hrest, hfacts⟩ :=
        ih (s := { s₂ with disk := d }) (idx + 1) (hroom₂.of_eq rfl rfl) hw hzero₂ hall'
      refine ⟨blocks, t, ?_, hfacts⟩
      simp only [returns_bind, returns_query]
      exact ⟨s₂, s₂, ⟨rfl, rfl⟩, (), _, hsync, hrest⟩
    simp only [fileAllocBlocks]
    by_cases hidx : idx < 12
    · -- a direct block goes to the inode
      have hset : v.sector idx = 0 := hzero idx le_rfl hidx
      obtain ⟨blocks, t, hrest, hpart, ⟨u, hu, hsize, hno⟩, hle⟩ := @hlast
        (({ s with blockBitmap := s.blockBitmap.bitmapSet i true } : Fs).setInode a (v.setSector idx lba))
        (v.setSector idx lba) rfl (hroom₁.of_eq rfl rfl) hi Fs.setInode_self (fun j h₁ h₂ => by
          rw [Inode.sector_setSector_ne (by omega)]
          exact hzero j (by omega) h₂)
      refine ⟨blocks, t, ?_, hpart, ⟨u, hu, hsize, hno⟩, hle⟩
      refine returns_bind.mpr ⟨some lba, _, halloc, ?_⟩
      dsimp only
      rw [if_pos hidx]
      refine returns_bind.mpr ⟨v, _, returns_getInode.mpr ⟨hv, rfl⟩, ?_⟩
      refine returns_bind.mpr ⟨(), _, (returns_assert _ _).mpr ⟨hset, rfl⟩, ?_⟩
      exact returns_bind.mpr ⟨(), _, returns_setInodeSector.mpr ⟨v, hv, rfl⟩, hrest⟩
    · obtain ⟨blocks, t, hrest, hfacts⟩ := @hlast
        { s with blockBitmap := s.blockBitmap.bitmapSet i true } v rfl hroom₁ hi hv
        (fun j h₁ h₂ => hzero j (by omega) h₂)
      refine ⟨blocks, t, ?_, hfacts⟩
      refine returns_bind.mpr ⟨some lba, _, halloc, ?_⟩
      dsimp only
      rw [if_neg hidx]
      exact hrest

/-- What the inode of a file of `size` bytes must look like to be appended to. -/
structure Inode.Appendable (v : Inode) (disk : Bytes) (size : Nat) : Prop where
  first : v.sector 0 = 0 → size < 512
  direct : ∀ j < 12, v.sector j ≤ maxLba
  last : 0 < size / 512 → size / 512 < 12 → v.sector (size / 512) ≠ 0
  missing : ∀ j, size / 512 < j → j ≤ 12 → v.sector j = 0
  table : 12 ≤ size / 512 → v.sector 12 ≠ 0 ∧ v.sector 12 ≤ maxLba ∧
    ∀ j < 140, fileTableBlocks (disk.window (512 * v.sector 12) 512) j ≤ maxLba

theorem fileLastBlock_le {j : Nat} (h : v.sector n ≤ maxLba) : fileLastBlock v n j ≤ maxLba := by
  rw [fileLastBlock]
  split
  · exact h
  · exact Nat.zero_le _

/-- The blocks `file_write` must allocate behind block `used` to get to block `last`. -/
def blocksNeeded (used last : Nat) : Nat :=
  if used < 12 then last - used + (if 12 ≤ last then 1 else 0) else if used < last then 1 else 0

/-- `file_write` gets the addresses of its blocks, or gives up: it does where the index table would have to be
    extended. -/
theorem fileCollectBlocks_returns {size last : Nat} (hv : s.inodes a = some v)
    (happ : v.Appendable s.disk size) (hfirst : v.sector 0 ≠ 0) (hle : size / 512 ≤ last)
    (hroom : s.Room (blocksNeeded (size / 512) last)) :
    ∃ r t, Returns (fileCollectBlocks a (size / 512 + 1) (last + 1)) s r t ∧ t.part = s.part ∧ t.HasInode a v ∧
      (size / 512 < 12 ∨ last = size / 512 ↔ r ≠ none) ∧ ∀ blocks, r = some blocks → ∀ j < 140, blocks j ≤ maxLba := by
  have hget : Returns (getInode a) s v s := returns_getInode.mpr ⟨hv, rfl⟩
  have hsame : s.HasInode a v := ⟨v, hv, rfl, rfl⟩
  generalize hused : size / 512 = used at *
  have hlastLe (h : used < 12) (j : Nat) : fileLastBlock v used j ≤ maxLba :=
    fileLastBlock_le (happ.direct used h)
  by_cases heq : last = used
  · -- no block is missing
    subst heq
    by_cases hlt : last < 12
    · refine ⟨some (fileLastBlock v last), s, ?_, rfl, hsame, iff_of_true (Or.inr rfl) (Option.some_ne_none _),
        fun blocks hb j _ => ?_⟩
      · rw [fileCollectBlocks]
        refine returns_bind.mpr ⟨v, s, hget, ?_⟩
        rw [if_pos rfl, if_pos (by omega), Nat.add_sub_cancel]
        exact returns_pure.mpr ⟨rfl, rfl⟩
      · obtain rfl := Option.some.inj hb
        exact hlastLe hlt j
    · obtain ⟨hne, hlba, hentries⟩ := happ.table (by omega)
      refine ⟨some (fileTableBlocks (s.disk.window (512 * v.sector 12) 512)), s, ?_, rfl, hsame,
        iff_of_true (Or.inr rfl) (Option.some_ne_none _), fun blocks hb j hj => ?_⟩
      · rw [fileCollectBlocks]
        refine returns_bind.mpr ⟨v, s, hget, ?_⟩
        rw [if_pos rfl, if_neg (by omega)]
        refine returns_bind.mpr ⟨(), s, (returns_assert _ _).mpr ⟨hne, rfl⟩, ?_⟩
        exact returns_bind.mpr ⟨_, s, returns_ideRead_sector.mpr ⟨hlba, by decide, rfl, rfl⟩,
          returns_pure.mpr ⟨rfl, rfl⟩⟩
      · obtain rfl := Option.some.inj hb
        exact hentries j hj
  by_cases hlt : used < 12
  · rw [blocksNeeded, if_pos hlt] at hroom
    have hne : v.sector used ≠ 0 := by
      have hlast := happ.last
      rw [hused] at hlast
      by_cases hzero : used = 0
      · rw [hzero]
        exact hfirst
      · exact hlast (Nat.pos_of_ne_zero hzero) hlt
    by_cases hlast : last < 12
    · rw [if_neg (by omega)] at hroom
      obtain ⟨blocks, t, halloc, hpart, hinode, hblocks⟩ := fileAllocBlocks_returns (k := 0) (used + 1) hroom hv
        (fun j h₁ h₂ => happ.missing j (by omega) (by omega)) (hlastLe hlt)
      refine ⟨some blocks, t, ?_, hpart, hinode, iff_of_true (Or.inl hlt) (Option.some_ne_none _), fun bl hb j _ => ?_⟩
      · rw [fileCollectBlocks]
        refine returns_bind.mpr ⟨v, s, hget, ?_⟩
        rw [if_neg (by omega), if_pos (by omega)]
        refine returns_bind.mpr ⟨(), s, (returns_require _ _).mpr ⟨by omega, rfl⟩, ?_⟩
        refine returns_bind.mpr ⟨(), s, (returns_assert _ _).mpr ⟨hne, rfl⟩, ?_⟩
        rw [Nat.add_sub_add_right, Nat.add_sub_cancel]
        exact halloc
      · obtain rfl := Option.some.inj hb
        exact hblocks j
    · -- the file gets its index table, whose block is allocated first
      rw [if_pos (by omega)] at hroom
      obtain ⟨i, hi, htable, hroom₁⟩ := hroom.alloc
      obtain ⟨haddr, -⟩ := hroom.addr hi
      generalize s.part.sb.dataStartLba + i = lba at htable haddr
      have hzero : v.sector 12 = 0 := happ.missing 12 (by omega) le_rfl
      obtain ⟨blocks, t, halloc, hpart, ⟨u, hu, hsize, hno⟩, hblocks⟩ := fileAllocBlocks_returns (k := 0) (used + 1)
        (s := ({ s with blockBitmap := s.blockBitmap.bitmapSet i true } : Fs).setInode a (v.setSector 12 lba))
        (hroom₁.of_eq rfl rfl) Fs.setInode_self
        (fun j h₁ h₂ => by
          rw [Inode.sector_setSector_ne (by omega)]
          exact happ.missing j (by omega) (by omega)) (hlastLe hlt)
      refine ⟨some blocks, { t with disk := t.disk.splice (512 * lba) (512 * 1) (wordsOf fun j => blocks (12 + j)) },
        ?_, hpart, ⟨u, hu, hsize, hno⟩, iff_of_true (Or.inl hlt) (Option.some_ne_none _), fun bl hb j _ => ?_⟩
      · rw [fileCollectBlocks]
        refine returns_bind.mpr ⟨v, s, hget, ?_⟩
        rw [if_neg (by omega), if_neg (by omega), if_pos (by omega)]
        refine returns_bind.mpr ⟨(), s, (returns_assert _ _).mpr ⟨hne, rfl⟩, ?_⟩
        refine returns_bind.mpr ⟨some lba, _, htable, ?_⟩
        refine returns_bind.mpr ⟨v, _, returns_getInode.mpr ⟨hv, rfl⟩, ?_⟩
        refine returns_bind.mpr ⟨(), _, (returns_assert _ _).mpr ⟨hzero, rfl⟩, ?_⟩
        refine returns_bind.mpr ⟨(), _, returns_setInodeSector.mpr ⟨v, hv, rfl⟩, ?_⟩
        rw [Nat.add_sub_add_right, Nat.add_sub_cancel]
        refine returns_bind.mpr ⟨some blocks, t, halloc, ?_⟩
        refine returns_bind.mpr ⟨(), _, returns_ideWrite.mpr ⟨haddr, by decide, rfl⟩, ?_⟩
        exact returns_pure.mpr ⟨rfl, rfl⟩
      · obtain rfl := Option.some.inj hb
        exact hblocks j
  · -- the table is not extended: one block is lost and the call gives up
    rw [blocksNeeded, if_neg hlt, if_pos (by omega)] at hroom
    obtain ⟨i, hi, halloc, -⟩ := Fs.Room.alloc (k := 0) hroom
    obtain ⟨hne, hlba, -⟩ := happ.table (by omega)
    refine ⟨none, { s with blockBitmap := s.blockBitmap.bitmapSet i true }, ?_, rfl, ⟨v, hv, rfl, rfl⟩,
      iff_of_false (by omega) (fun h => h rfl), fun blocks hb => by cases hb⟩
    · rw [fileCollectBlocks]
      refine returns_bind.mpr ⟨v, s, hget, ?_⟩
      rw [if_neg (by omega), if_neg (by omega), if_neg (by omega)]
      refine returns_bind.mpr ⟨(), s, (returns_assert _ _).mpr ⟨hne, rfl⟩, ?_⟩
      refine returns_bind.mpr ⟨_, s, returns_ideRead_sector.mpr ⟨hlba, by decide, rfl, rfl⟩, ?_⟩
      obtain ⟨n, hn⟩ : ∃ n, last + 1 - (used + 1) = n + 1 := ⟨last - used - 1, by omega⟩
      rw [hn, fileAllocIndirect]
      refine returns_bind.mpr ⟨none, _, ?_, returns_pure.mpr ⟨rfl, rfl⟩⟩
      exact returns_bind.mpr ⟨_, _, halloc, returns_pure.mpr ⟨rfl, rfl⟩⟩

/-! ## Writing the data -/

/-- The data loop of `file_write` writes blocks that are on the disk. -/
theorem fileWriteLoop_returns {src : Bytes} {fuel : Nat} (written sizeLeft : Nat) (first : Bool) (hfuel : sizeLeft ≤ fuel)
    (hv : s.inodes a = some v) (hblocks : ∀ j < 140, allBlocks j ≤ maxLba) (hsize : v.iSize + sizeLeft ≤ 512 * 140) :
    ∃ t w, Returns (fileWriteLoop g a allBlocks src fuel written sizeLeft first) s () t ∧ t.part = s.part ∧
      t.inodes a = some w ∧ w.iNo = v.iNo := by
  induction fuel generalizing s v written sizeLeft first with
  | zero => exact ⟨s, v, returns_pure.mpr ⟨rfl, rfl⟩, rfl, hv, rfl⟩
  | succ fuel ih =>
    rw [fileWriteLoop]
    by_cases hzero : sizeLeft = 0
    · rw [if_pos hzero]
      exact ⟨s, v, returns_pure.mpr ⟨rfl, rfl⟩, rfl, hv, rfl⟩
    rw [if_neg hzero]
    have hidx : v.iSize / 512 < 140 := by omega
    have hlba := hblocks _ hidx
    let chunk := if sizeLeft < 512 - v.iSize % 512 then sizeLeft else 512 - v.iSize % 512
    have hchunk : chunk ≤ sizeLeft ∧ 0 < chunk := by
      have hlt := Nat.mod_lt v.iSize (show 0 < 512 by decide)
      simp only [chunk]
      split <;> omega
    have hsum : (v.iSize + chunk) % 2 ^ 32 = v.iSize + chunk := Nat.mod_eq_of_lt (by omega)
    -- one turn, from the buffer with what is kept of the first block
    have hturn (ioBuf : Bytes) : ∃ t w, Returns (do
        ideWrite (allBlocks (v.iSize / 512)) (ioBuf.splice (v.iSize % 512) chunk fun k => src (written + k)) 1
        setInodeSize a fun n => (n + chunk) % 2 ^ 32
        let s ← query id
        putFile g { s.fileTable g with fdPos := ((s.fileTable g).fdPos + chunk) % 2 ^ 32 }
        fileWriteLoop g a allBlocks src fuel (written + chunk) (sizeLeft - chunk) false) s () t ∧
        t.part = s.part ∧ t.inodes a = some w ∧ w.iNo = v.iNo := by
      let s₁ : Fs := { s with disk := s.disk.splice (512 * allBlocks (v.iSize / 512)) (512 * 1)
                                (ioBuf.splice (v.iSize % 512) chunk fun k => src (written + k)) }
      let s₂ : Fs := s₁.setInode a { v with iSize := (v.iSize + chunk) % 2 ^ 32 }
      let s₃ : Fs := s₂.setSlot g { s₂.fileTable g with fdPos := ((s₂.fileTable g).fdPos + chunk) % 2 ^ 32 }
      obtain ⟨t, w, hrest, hpart, hw, hno⟩ := ih (s := s₃) (written + chunk) (sizeLeft - chunk) false (by omega) Fs.setInode_self (by
          show (v.iSize + chunk) % 2 ^ 32 + (sizeLeft - chunk) ≤ 512 * 140
          omega)
      refine ⟨t, w, ?_, hpart, hw, hno⟩
      refine returns_bind.mpr ⟨(), s₁, returns_ideWrite.mpr ⟨hlba, by decide, rfl⟩, ?_⟩
      refine returns_bind.mpr ⟨(), s₂, returns_setInodeSize.mpr ⟨v, hv, rfl⟩, ?_⟩
      refine returns_bind.mpr ⟨s₂, s₂, (returns_query _).mpr ⟨rfl, rfl⟩, ?_⟩
      exact returns_bind.mpr ⟨(), s₃, (returns_update _ _).mpr rfl, hrest⟩
    obtain ⟨t, w, hrest, hfacts⟩ := hturn (if first then s.disk.window (512 * allBlocks (v.iSize / 512)) 512 else Bytes.zero)
    refine ⟨t, w, ?_, hfacts⟩
    refine returns_bind.mpr ⟨v, s, returns_getInode.mpr ⟨hv, rfl⟩, ?_⟩
    refine returns_bind.mpr ⟨(), s, (returns_require _ _).mpr ⟨hidx, rfl⟩, ?_⟩
    cases first with
    | true =>
      exact returns_bind.mpr ⟨_, s, returns_ideRead_sector.mpr ⟨hlba, by decide, rfl, rfl⟩, hrest⟩
    | false => exact returns_bind.mpr ⟨_, s, returns_pure.mpr ⟨rfl, rfl⟩, hrest⟩

/-- The first block of an empty file. -/
theorem Inode.Appendable.setFirst {disk disk' : Bytes} {size lba : Nat} (h : v.Appendable disk size)
    (hzero : v.sector 0 = 0) (hle : lba ≤ maxLba) (hne : lba ≠ 0) : (v.setSector 0 lba).Appendable disk' size where
  first := by
    rw [Inode.sector_setSector_self (by decide)]
    exact fun h => absurd h hne
  direct := by
    intro j hj
    by_cases hj0 : j = 0
    · rw [hj0, Inode.sector_setSector_self (by decide)]
      exact hle
    · rw [Inode.sector_setSector_ne hj0]
      exact h.direct j hj
  last := by
    intro hpos
    have := h.first hzero
    omega
  missing := by
    intro j h₁ h₂
    rw [Inode.sector_setSector_ne (by omega)]
    exact h.missing j h₁ h₂
  table := by
    intro hle
    have := h.first hzero
    omega

/-- What `file_write` relies on for `cnt` bytes behind a file with inode `v`. -/
structure Fs.Appends (s : Fs) (v : Inode) (cnt : Nat) : Prop where
  size : v.iSize + cnt < 512 * 140
  inode : v.Appendable s.disk v.iSize
  room : s.Room (blocksNeeded (v.iSize / 512) ((v.iSize + cnt) / 512) + if v.sector 0 = 0 then 1 else 0)
  table : s.TableFits
  one : v.iSize / 512 < 12 ∨ (v.iSize + cnt) / 512 = v.iSize / 512 → ¬ Straddles (v.iNo % 256)

theorem Fs.inodePos_secs_one {i : Nat} (h : ¬ Straddles i) : (s.inodePos i).secs = 1 := by
  have hone : ¬ (512 - i * 76 % 512 < 76) := by
    rw [Straddles] at h
    omega
  rw [InodePos.secs, Fs.inodePos, if_neg (by simpa using hone)]

/-- A file that was never written gets its first block before `file_write` goes on. -/
theorem fileFirstBlock_returns {sb : SuperBlock} (hsb : sb = s.part.sb) (hv : s.inodes a = some v)
    (happ : v.Appendable s.disk v.iSize) (hroom : s.Room (k + if v.sector 0 = 0 then 1 else 0)) :
    ∃ t w, (∀ (f : Bool → FsM α) r t', Returns (f true) t r t' → Returns (do
        let firstOk ←
          if v.sector 0 = 0 then do
            let blockLba ← blockBitmapAlloc
            match blockLba with
            | none => pure false
            | some blockLba =>
              setInodeSector a 0 blockLba
              bitmapSync (blockBitmapIdx sb blockLba) .blockBitmap
              pure true
          else pure true
        f firstOk) s r t') ∧ t.part = s.part ∧ t.inodes a = some w ∧ w.iSize = v.iSize ∧ w.iNo = v.iNo ∧
        w.Appendable t.disk v.iSize ∧ w.sector 0 ≠ 0 ∧ t.Room k := by
  subst hsb
  by_cases hzero : v.sector 0 = 0
  · rw [if_pos hzero] at hroom
    obtain ⟨i, hi, halloc, hroom₁⟩ := hroom.alloc
    obtain ⟨hle, hne⟩ := hroom.addr hi
    let s₁ : Fs := { s with blockBitmap := s.blockBitmap.bitmapSet i true }
    let s₂ : Fs := s₁.setInode a (v.setSector 0 (s.part.sb.dataStartLba + i))
    have hroom₂ : s₂.Room k := hroom₁.of_eq rfl rfl
    obtain ⟨d, hsync⟩ := hroom₂.sync hi rfl
    refine ⟨{ s₂ with disk := d }, v.setSector 0 (s.part.sb.dataStartLba + i), fun f r t' hf => ?_, rfl,
      Fs.setInode_self, rfl, rfl, happ.setFirst hzero hle hne, ?_, hroom₂.of_eq rfl rfl⟩
    · dsimp only
      rw [if_pos hzero]
      refine returns_bind.mpr ⟨_, s₁, halloc, ?_⟩
      dsimp only
      refine returns_bind.mpr ⟨(), s₂, returns_setInodeSector.mpr ⟨v, hv, rfl⟩, ?_⟩
      refine returns_bind.mpr ⟨(), _, hsync, ?_⟩
      exact returns_bind.mpr ⟨true, _, returns_pure.mpr ⟨rfl, rfl⟩, hf⟩
    · rw [Inode.sector_setSector_self (by decide)]
      exact hne
  · rw [if_neg hzero] at hroom
    refine ⟨s, v, fun f r t' hf => ?_, rfl, hv, rfl, rfl, happ, hzero, hroom⟩
    dsimp only
    rw [if_neg hzero]
    exact returns_bind.mpr ⟨true, s, returns_pure.mpr ⟨rfl, rfl⟩, hf⟩

/-- `file_write` from the data loop on, for an inode in one sector of the table. -/
theorem fileWriteEnd_returns {buf : Bytes} {cnt pos p q : Nat} (hv : s.inodes a = some v)
    (hblocks : ∀ j < 140, allBlocks j ≤ maxLba) (hsize : v.iSize + cnt ≤ 512 * 140) (htable : s.TableFits)
    (hone : ¬ Straddles (v.iNo % 256)) : ∃ t, Returns (do
      let s ← query id
      putFile g { s.fileTable g with fdPos := pos }
      fileWriteLoop g a allBlocks buf cnt 0 cnt true
      let v ← getInode a
      inodeSync v 512
      sysFree (some q)
      sysFree (some p)
      return cnt : FsM Int) s (cnt : Int) t := by
  let s₁ : Fs := s.setSlot g { s.fileTable g with fdPos := pos }
  obtain ⟨t, w, hloop, hpart, hw, hno⟩ := fileWriteLoop_returns (g := g) 0 cnt true (s := s₁)
    (le_refl cnt) hv hblocks hsize
  -- the inode lies in the one sector that is there for it
  have hfits : t.TableFits := by
    refine ⟨?_, ?_⟩
    · rw [hpart]
      exact htable.onDisk
    · rw [hpart]
      exact htable.inPart
  have hlba := hfits.secLba_le (show w.iNo % 256 < 4096 by omega)
  have hsecs : 512 * (t.inodePos (w.iNo % 256)).secs ≤ 512 := by
    rw [hno, Fs.inodePos_secs_one hone]
  have hsync := (returns_inodeSync (s := t) (v := w) (u := ())).mpr ⟨hlba.2, hsecs, hlba.1, rfl⟩
  obtain ⟨t₁, h₁⟩ := sysFree_returns _ q
  obtain ⟨t₂, h₂⟩ := sysFree_returns t₁ p
  refine ⟨t₂, ?_⟩
  refine returns_bind.mpr ⟨s, s, (returns_query _).mpr ⟨rfl, rfl⟩, ?_⟩
  refine returns_bind.mpr ⟨(), s₁, (returns_update _ _).mpr rfl, ?_⟩
  refine returns_bind.mpr ⟨(), t, hloop, ?_⟩
  refine returns_bind.mpr ⟨w, t, returns_getInode.mpr ⟨hw, rfl⟩, ?_⟩
  refine returns_bind.mpr ⟨(), _, hsync, ?_⟩
  refine returns_bind.mpr ⟨(), t₁, h₁, ?_⟩
  exact returns_bind.mpr ⟨(), t₂, h₂, returns_pure.mpr ⟨rfl, rfl⟩⟩

/-- `file_write` from its allocations on: it writes everything, or gives up where the index table would have to be
    extended. -/
theorem fileWrite_outcome {buf : Bytes} {cnt p q : Nat} {h : Heap} (hv : s.inodes a = some v)
    (happ : s.Appends v cnt) : ∃ t, Returns (do
      let firstOk ←
        if v.sector 0 = 0 then do
          let blockLba ← blockBitmapAlloc
          match blockLba with
          | none => pure false
          | some blockLba =>
            setInodeSector a 0 blockLba
            bitmapSync (blockBitmapIdx s.part.sb blockLba) .blockBitmap
            pure true
        else pure true
      if !firstOk then
        return -1
      assert ((v.iSize + cnt) % 2 ^ 32 / 512 + 1 ≤ 140)
      let blocks ← fileCollectBlocks a (v.iSize / 512 + 1) ((v.iSize + cnt) % 2 ^ 32 / 512 + 1)
      match blocks with
      | none => return -1
      | some allBlocks =>
        let s ← query id
        putFile g { s.fileTable g with fdPos := (v.iSize + (2 ^ 32 - 1)) % 2 ^ 32 }
        fileWriteLoop g a allBlocks buf cnt 0 cnt true
        let v ← getInode a
        inodeSync v 512
        sysFree (some q)
        sysFree (some p)
        return cnt : FsM Int) { s with heap := h }
      (if v.iSize / 512 < 12 ∨ (v.iSize + cnt) / 512 = v.iSize / 512 then (cnt : Int) else -1) t := by
  have hlt := happ.size
  have hmod : (v.iSize + cnt) % 2 ^ 32 = v.iSize + cnt := Nat.mod_eq_of_lt (by omega)
  rw [hmod]
  obtain ⟨t, w, hfirst, hpart, hw, hsize, hno, happ', hne, hroom⟩ :=
    fileFirstBlock_returns (α := Int) (s := { s with heap := h }) rfl hv happ.inode (happ.room.of_eq rfl rfl)
  obtain ⟨r, t₁, hcollect, hpart₁, ⟨w₁, hw₁, hsize₁, hno₁⟩, hone, hblocks⟩ :=
    fileCollectBlocks_returns hw happ' hne (Nat.div_le_div_right (Nat.le_add_right _ _)) hroom
  have hstart {α : Type} {r' : α} {t' : Fs} {f : Option (Nat → Nat) → FsM α} (hf : Returns (f r) t₁ r' t') : Returns (do
      assert ((v.iSize + cnt) / 512 + 1 ≤ 140)
      let blocks ← fileCollectBlocks a (v.iSize / 512 + 1) ((v.iSize + cnt) / 512 + 1)
      f blocks) t r' t' := by
    refine returns_bind.mpr ⟨(), t, (returns_assert _ _).mpr ⟨by omega, rfl⟩, ?_⟩
    exact returns_bind.mpr ⟨r, t₁, hcollect, hf⟩
  cases r with
  | none =>
    rw [if_neg fun h => hone.mp h rfl]
    exact ⟨t₁, hfirst _ _ _ (hstart (returns_pure.mpr ⟨rfl, rfl⟩))⟩
  | some blocks =>
    have hone' := hone.mpr (Option.some_ne_none _)
    rw [if_pos hone']
    have hpart' : t₁.part = s.part := hpart₁.trans hpart
    have hfits : t₁.TableFits := by
      refine ⟨?_, ?_⟩
      · rw [hpart']
        exact happ.table.onDisk
      · rw [hpart']
        exact happ.table.inPart
    obtain ⟨t₂, hend⟩ := fileWriteEnd_returns (g := g) (p := p)
      (q := q) hw₁ (hblocks blocks rfl) (by rw [hsize₁, hsize]; omega : w₁.iSize + cnt ≤ 512 * 140) hfits (by
        rw [hno₁, hno]
        exact happ.one hone')
    exact ⟨t₂, hfirst _ _ _ (hstart hend)⟩

theorem safe_fileWrite {k : Task} {buf : Bytes} {cnt : Nat} (hk : s.tasks s.cur = some k)
    (ha : (s.fileTable g).fdInode = some a) (hv : s.inodes a = some v)
    (happ : (v.iSize + cnt) % 2 ^ 32 ≤ 512 * 140 → s.HasMemory 2 → s.Appends v cnt) :
    Safe (fileWrite g buf cnt) s := by
  rw [fileWrite, safe_query_bind, safe_deref_bind]
  refine ⟨a, ha, safe_getInode_bind.mpr ⟨v, hv, ?_⟩⟩
  split
  · exact safe_pure _
  next hsize =>
  obtain ⟨h, p, q, hiff⟩ := safe_twoBuffers (-1 : Int) (fun ioBuf allBlocksMem => (do
    let firstOk ←
      if v.sector 0 = 0 then do
        let blockLba ← blockBitmapAlloc
        match blockLba with
        | none => pure false
        | some blockLba =>
          setInodeSector a 0 blockLba
          bitmapSync (blockBitmapIdx s.part.sb blockLba) .blockBitmap
          pure true
      else pure true
    if !firstOk then
      return -1
    assert ((v.iSize + cnt) % 2 ^ 32 / 512 + 1 ≤ 140)
    let blocks ← fileCollectBlocks a (v.iSize / 512 + 1) ((v.iSize + cnt) % 2 ^ 32 / 512 + 1)
    match blocks with
    | none => return -1
    | some allBlocks =>
      let s ← query id
      putFile g { s.fileTable g with fdPos := (v.iSize + (2 ^ 32 - 1)) % 2 ^ 32 }
      fileWriteLoop g a allBlocks buf cnt 0 cnt true
      let v ← getInode a
      inodeSync v 512
      sysFree allBlocksMem
      sysFree ioBuf
      return cnt : FsM Int)) hk
  refine hiff.mpr fun hmem => ?_
  obtain ⟨t, hret⟩ := fileWrite_outcome (g := g) (p := p) (q := q) (h := h) hv (happ (by omega) hmem)
  exact safe_of_returns hret

end Appending

end ZxyOs
