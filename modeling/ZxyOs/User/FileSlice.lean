/-
  ZxyOs.User.FileSlice

  What `file_read` delivers (`fs/file.c`).

  The bytes of a file are the bytes of its blocks one after the other.  The data loop reads
  them through `all_blocks`, so a read is right where `all_blocks` has the address of every
  block the loop comes to.  It has not where a read from one direct block into another ends
  inside a block: the loop that collects the addresses stops before the last one, and the
  data loop takes the bytes from sector 0 of the disk (`fileRead_slice_iff`).
-/

import ZxyOs.User.FdValidation
import ZxyOs.User.FileOffsets

namespace ZxyOs

open Lib Lib.Exec

/-! ## The bytes of a file -/

/-- Byte `k` of the file with inode `v`. -/
def Inode.byteAt (v : Inode) (disk : Bytes) (k : Nat) : UInt8 :=
  disk (512 * v.blockAddr disk (k / 512) + k % 512)

/-- The block map as `file_write` leaves it: no block where nothing was ever written, and
    otherwise one for every 512 bytes and one for what comes next. -/
structure Fs.FileMap (s : Fs) (v : Inode) : Prop extends s.BlocksOk v where
  size : v.iSize < 512 * 140
  first : v.sector 0 = 0 → v.iSize = 0
  used : ∀ k < 140, v.blockAddr s.disk k ≠ 0 ↔ v.sector 0 ≠ 0 ∧ k ≤ v.iSize / 512
  indexed : v.sector 12 ≠ 0 ↔ 12 ≤ v.iSize / 512

section Map

variable {s : Fs} {v : Inode} {k : Nat}

theorem Fs.FileMap.le_maxLba (h : s.FileMap v) (hk : k < 140) : v.blockAddr s.disk k ≤ maxLba := by
  by_cases h0 : v.blockAddr s.disk k = 0
  · rw [h0]
    exact Nat.zero_le _
  · exact (h.inUse k hk h0).1

theorem Fs.FileMap.table_le (h : s.FileMap v) : v.sector 12 ≤ maxLba := by
  by_cases h0 : v.sector 12 = 0
  · rw [h0]
    exact Nat.zero_le _
  · exact (h.table h0).1

/-- A file whose blocks follow each other, with its index table behind them if it has one. -/
theorem Fs.FileMap.of_row {base n : Nat} (hbase : 0 < base) (hsize : v.iSize < 512 * 140) (hn : n = v.iSize / 512 + 1)
    (haddr : ∀ k < 140, v.blockAddr s.disk k = if k < n then base + k else 0)
    (huse : ∀ k < n, s.InUse (base + k))
    (htable : (v.sector 12 = 0 ∧ n ≤ 12) ∨ (v.sector 12 = base + n ∧ 12 < n ∧ s.InUse (base + n))) : s.FileMap v := by
  have hlt {k : Nat} (hk : k < 140) : v.blockAddr s.disk k ≠ 0 ↔ k < n := by
    rw [haddr k hk]
    split <;> omega
  have hzero : v.sector 0 = base := by
    rw [← Inode.blockAddr_direct (show 0 < 12 by decide), haddr 0 (by decide), if_pos (by omega)]
    rfl
  refine ⟨⟨fun k hk hne => ?_, fun hne => ?_, fun j hj k hk hne heq => ?_, fun k hk hne => ?_⟩, hsize, by omega,
    fun k hk => ?_, ?_⟩
  · have hkn := (hlt hk).mp hne
    rw [haddr k hk, if_pos hkn]
    exact huse k hkn
  · rcases htable with ⟨h0, -⟩ | ⟨heq, -, hused⟩
    · exact absurd h0 hne
    · rw [heq]
      exact hused
  · have hjn := (hlt hj).mp hne
    rw [haddr j hj, haddr k hk, if_pos hjn] at heq
    split at heq <;> omega
  · rcases htable with ⟨h0, -⟩ | ⟨heq, -, -⟩
    · exact absurd h0 hne
    · rw [heq, haddr k hk]
      split <;> omega
  · rw [hlt hk]
    omega
  · rcases htable with ⟨h0, hle⟩ | ⟨heq, hlt, -⟩ <;> omega

end Map

/-! ## Reading -/

section Read

variable {s s' : Fs} {g a pos size cnt : Nat} {v : Inode} {allBlocks : Nat → Nat}

/-- The data loop stores the bytes of the blocks in `all_blocks`. -/
theorem fileReadLoop_slice {fuel : Nat} (bytesRead sizeLeft : Nat) (dst : Bytes) (hfuel : sizeLeft ≤ fuel)
    (hpos : (s.fileTable g).fdPos = pos) (hsum : pos + sizeLeft ≤ 512 * 140)
    (hblocks : ∀ j < 140, allBlocks j ≤ maxLba) :
    ∃ dst', Returns (fileReadLoop g allBlocks fuel bytesRead sizeLeft dst) s dst' (s.moved g sizeLeft) ∧
      (∀ k < bytesRead, dst' k = dst k) ∧
      ∀ k < sizeLeft, dst' (bytesRead + k) = s.disk (512 * allBlocks ((pos + k) / 512) + (pos + k) % 512) := by
  induction fuel generalizing s pos bytesRead sizeLeft dst with
  | zero =>
    obtain rfl : sizeLeft = 0 := by omega
    refine ⟨dst, returns_pure.mpr ⟨rfl, Fs.moved_zero.symm⟩, fun _ _ => rfl, fun k hk => by omega⟩
  | succ fuel ih =>
    rw [fileReadLoop]
    by_cases hzero : sizeLeft = 0
    · subst hzero
      rw [if_pos rfl]
      exact ⟨dst, returns_pure.mpr ⟨rfl, Fs.moved_zero.symm⟩, fun _ _ => rfl, fun k hk => by omega⟩
    rw [if_neg hzero]
    have hidx : pos / 512 < 140 := by omega
    have hlba := hblocks _ hidx
    have hoff := Nat.mod_lt pos (show 0 < 512 by decide)
    obtain ⟨chunk, hchunk⟩ : ∃ chunk, (if sizeLeft < 512 - pos % 512 then sizeLeft else 512 - pos % 512) = chunk :=
      ⟨_, rfl⟩
    have hle : chunk ≤ sizeLeft ∧ 0 < chunk ∧ chunk ≤ 512 - pos % 512 := by
      split at hchunk <;> omega
    have hmod : (pos + chunk) % 2 ^ 32 = pos + chunk := Nat.mod_eq_of_lt (by omega)
    let ioBuf := s.disk.window (512 * allBlocks (pos / 512)) (512 * 1)
    have hpos' : ((s.moved g chunk).fileTable g).fdPos = pos + chunk := by
      rw [Fs.moved_file, hpos]
    -- the rest goes on behind this chunk
    obtain ⟨dst', hrest, hkept, hread⟩ := ih (s := s.moved g chunk) (bytesRead + chunk)
      (sizeLeft - chunk) (dst.splice bytesRead chunk fun k => ioBuf (pos % 512 + k)) (by omega) hpos' (by omega)
    refine ⟨dst', ?_, fun k hk => ?_, fun k hk => ?_⟩
    · refine returns_bind.mpr ⟨s, s, (returns_query _).mpr ⟨rfl, rfl⟩, ?_⟩
      dsimp only
      rw [hpos, hchunk]
      refine returns_bind.mpr ⟨(), s, (returns_require _ _).mpr ⟨hidx, rfl⟩, ?_⟩
      refine returns_bind.mpr ⟨ioBuf, s, returns_ideRead_sector.mpr ⟨hlba, Nat.one_pos, rfl, rfl⟩, ?_⟩
      rw [hmod]
      refine returns_bind.mpr ⟨(), s.moved g chunk, (returns_update _ _).mpr ?_, ?_⟩
      · rw [Fs.moved, hpos]
        rfl
      · rw [Fs.moved_moved, Nat.add_sub_cancel' hle.1] at hrest
        exact hrest
    · rw [hkept k (by omega), Bytes.splice_outside (Or.inl hk)]
    · by_cases hlt : k < chunk
      · have hsame : (pos + k) / 512 = pos / 512 ∧ (pos + k) % 512 = pos % 512 + k := by omega
        rw [hkept _ (by omega), Bytes.splice_inside (by omega) (by omega), Nat.add_sub_cancel_left, hsame.1, hsame.2,
          ← Nat.add_assoc]
        show s.disk.window _ (512 * 1) (pos % 512 + k) = _
        rw [Bytes.window_apply (by omega), Nat.add_assoc]
      · have hk' := hread (k - chunk) (by omega)
        rw [show bytesRead + chunk + (k - chunk) = bytesRead + k by omega,
          show pos + chunk + (k - chunk) = pos + k by omega] at hk'
        exact hk'

/-- The block a read ends in is missing from `all_blocks`: it begins and ends in different
    direct blocks, and not at the end of one. -/
def MissesLast (pos size : Nat) : Prop :=
  pos / 512 < (pos + size) / 512 ∧ (pos + size) / 512 < 12 ∧ (pos + size) % 512 ≠ 0

instance (pos size : Nat) : Decidable (MissesLast pos size) := inferInstanceAs (Decidable (_ ∧ _))

/-- `all_blocks` has the blocks of the file, but for the one a read may miss. -/
theorem Fs.FileMap.readBlocks_eq (h : s.FileMap v) {j : Nat} (hpos : pos + size ≤ v.iSize) (hj : pos / 512 ≤ j)
    (hjlt : 512 * j < pos + size) :
    v.readBlocks s.disk (pos / 512) ((pos + size) / 512) j =
      if MissesLast pos size ∧ j = (pos + size) / 512 then 0 else v.blockAddr s.disk j := by
  have hsize := h.size
  have htable (hle : 12 ≤ j) : v.sector 12 ≠ 0 := h.indexed.mpr (by omega)
  have hindirect (hle : 12 ≤ j) : Bytes.u32At (s.disk.window (512 * v.sector 12) 512) (4 * (j - 12)) =
      v.blockAddr s.disk j := (Inode.blockAddr_indirect hle (htable hle)).symm
  unfold Inode.readBlocks
  by_cases heq : (pos + size) / 512 = pos / 512
  · have hmiss : ¬ (MissesLast pos size ∧ j = (pos + size) / 512) := fun hm => by
      have := hm.1.1
      omega
    rw [if_pos heq, if_neg hmiss]
    obtain rfl : j = pos / 512 := by omega
    by_cases hlt : (pos + size) / 512 < 12
    · rw [if_pos hlt, fileLastBlock, if_pos heq.symm, heq, Inode.blockAddr_direct (by omega)]
    · rw [if_neg hlt, fileTableBlocks, if_neg (by omega)]
      exact hindirect (by omega)
  · rw [if_neg heq]
    by_cases hlt : (pos + size) / 512 < 12
    · rw [if_pos hlt]
      by_cases hend : j = (pos + size) / 512
      · have hmiss : MissesLast pos size := ⟨by omega, hlt, by omega⟩
        rw [if_neg (by omega), if_pos ⟨hmiss, hend⟩]
      · rw [if_pos ⟨hj, by omega⟩, if_neg fun hm => hend hm.2, Inode.blockAddr_direct (by omega)]
    · have hmiss : ¬ (MissesLast pos size ∧ j = (pos + size) / 512) := fun hm => hlt hm.1.2.1
      rw [if_neg hlt, if_neg hmiss]
      by_cases hj12 : j < 12
      · rw [if_pos (by omega), if_neg (by omega), Inode.allBlocks, if_pos hj12, Inode.blockAddr_direct hj12]
      · by_cases hstart : pos / 512 < 12
        · rw [if_pos hstart, if_neg (by omega), Inode.allBlocks, if_neg hj12]
          exact hindirect (by omega)
        · rw [if_neg hstart, fileTableBlocks, if_neg hj12]
          exact hindirect (by omega)

/-- `all_blocks` has no address behind the end of the disk. -/
theorem Fs.FileMap.readBlocks_le (h : s.FileMap v) (startIdx endIdx : Nat) (hend : endIdx ≤ v.iSize / 512) :
    ∀ j < 140, v.readBlocks s.disk startIdx endIdx j ≤ maxLba := by
  intro j hj
  have haddr := h.le_maxLba hj
  have hdirect (hlt : j < 12) : v.sector j ≤ maxLba := by
    rw [Inode.blockAddr_direct hlt] at haddr
    exact haddr
  have hindirect (hle : 12 ≤ j) (hend12 : 12 ≤ endIdx) :
      Bytes.u32At (s.disk.window (512 * v.sector 12) 512) (4 * (j - 12)) ≤ maxLba := by
    rw [Inode.blockAddr_indirect hle (h.indexed.mpr (by omega))] at haddr
    exact haddr
  unfold Inode.readBlocks
  by_cases heq : endIdx = startIdx
  · rw [if_pos heq]
    by_cases hlt : endIdx < 12
    · rw [if_pos hlt, fileLastBlock]
      split
      · next hj => exact hj ▸ hdirect (hj ▸ hlt)
      · exact Nat.zero_le _
    · rw [if_neg hlt, fileTableBlocks]
      split
      · exact Nat.zero_le _
      · exact hindirect (by omega) (by omega)
  · rw [if_neg heq]
    by_cases hlt : endIdx < 12
    · rw [if_pos hlt]
      split
      · next hj => exact hdirect (by omega)
      · exact Nat.zero_le _
    · rw [if_neg hlt]
      by_cases hstart : startIdx < 12
      · rw [if_pos hstart]
        split
        · exact Nat.zero_le _
        · rw [Inode.allBlocks]
          split
          · next hj12 => exact hdirect hj12
          · exact hindirect (by omega) (by omega)
      · rw [if_neg hstart, fileTableBlocks]
        split
        · exact Nat.zero_le _
        · exact hindirect (by omega) (by omega)

/-- `file_read` where it gets its memory and stays in reach. -/
theorem fileRead_returns (hmem : s.HasMemory 2) (ha : (s.fileTable g).fdInode = some a) (hv : s.inodes a = some v)
    (hmap : s.FileMap v) (hpos : (s.fileTable g).fdPos = pos) (hlt : pos < v.iSize) (hcnt : 0 < cnt)
    (hsum : pos + cnt < 2 ^ 32) (hsize : size = min cnt (v.iSize - pos)) (hrange : (pos + size) / 512 < 139) :
    ∃ dst s', Returns (fileRead g cnt) s (size, dst) s' ∧ s' = { s.moved g size with heap := s'.heap } ∧
      ∀ k < size, dst k = s.disk (512 * v.readBlocks s.disk (pos / 512) ((pos + size) / 512) ((pos + k) / 512) +
        (pos + k) % 512) := by
  have hfileSize := hmap.size
  have hread : fileReadSize pos v.iSize cnt = size := by
    rw [fileReadSize_eq hlt.le (Or.inl hsum), hsize]
  have hle : 0 < size ∧ pos + size ≤ v.iSize := by omega
  have hmod : (pos + size) % 2 ^ 32 = pos + size := Nat.mod_eq_of_lt (by omega)
  obtain ⟨s₁, h₁, hmem₁, e₁⟩ := sysMalloc_returns hmem
  obtain ⟨s₂, h₂, -, e₂⟩ := sysMalloc_returns hmem₁
  have hheap : s₂ = { s with heap := s₂.heap } := by rw [e₂, e₁]
  have htable : v.TableRead (pos / 512) ((pos + size) / 512) :=
    fun hle => ⟨hmap.table_le, fun _ => hmap.indexed.mpr (by omega)⟩
  have hdisk : s₂.disk = s.disk := by rw [hheap]
  have hpos₂ : (s₂.fileTable g).fdPos = pos := by
    rw [hheap]
    exact hpos
  obtain ⟨dst, hloop, -, hbytes⟩ := fileReadLoop_slice (s := s₂) (g := g) 0 size Bytes.zero
    le_rfl hpos₂ (by omega) (hmap.readBlocks_le (pos / 512) ((pos + size) / 512) (by omega))
  obtain ⟨s₃, h₃⟩ := sysFree_returns (s₂.moved g size) s₁.heap.next
  obtain ⟨s₄, h₄⟩ := sysFree_returns s₃ s.heap.next
  refine ⟨dst, s₄, ?_, ?_, fun k hk => ?_⟩
  · rw [fileRead]
    refine returns_bind.mpr ⟨s, s, (returns_query _).mpr ⟨rfl, rfl⟩, ?_⟩
    refine returns_bind.mpr ⟨a, s, (returns_deref _).mpr ⟨ha, rfl⟩, ?_⟩
    refine returns_bind.mpr ⟨v, s, returns_getInode.mpr ⟨hv, rfl⟩, ?_⟩
    dsimp only [id_eq]
    rw [hpos, hread, if_neg (by omega)]
    refine returns_bind.mpr ⟨_, s₁, h₁, ?_⟩
    rw [if_neg (Option.some_ne_none _)]
    refine returns_bind.mpr ⟨_, s₂, h₂, ?_⟩
    rw [if_neg (Option.some_ne_none _), hmod]
    refine returns_bind.mpr ⟨(), s₂, (returns_assert _ _).mpr ⟨⟨by omega, hrange⟩, rfl⟩, ?_⟩
    refine returns_bind.mpr ⟨_, s₂, returns_fileReadBlocks htable, ?_⟩
    rw [hdisk]
    refine returns_bind.mpr ⟨dst, _, hloop, ?_⟩
    refine returns_bind.mpr ⟨(), s₃, h₃, ?_⟩
    exact returns_bind.mpr ⟨(), s₄, h₄, returns_pure.mpr ⟨rfl, rfl⟩⟩
  · rw [(returns_sysFree h₄).1, (returns_sysFree h₃).1, hheap]
    rfl
  · have hk' := hbytes k hk
    rw [Nat.zero_add, hdisk] at hk'
    exact hk'

/-- A read that delivers something got its memory and was in reach. -/
theorem fileRead_needs {n : Nat} {dst : Bytes} (ha : (s.fileTable g).fdInode = some a) (hv : s.inodes a = some v)
    (hpos : (s.fileTable g).fdPos = pos) (h : Returns (fileRead g cnt) s ((n : Int), dst) s') :
    s.HasMemory 2 ∧ (pos + fileReadSize pos v.iSize cnt) % 2 ^ 32 / 512 < 139 := by
  simp only [fileRead, returns_bind (x := query _), returns_query, returns_bind (x := deref _), returns_deref,
    returns_bind (x := getInode _), returns_getInode, id_eq] at h
  obtain ⟨_, _, ⟨rfl, rfl⟩, a', _, ⟨ha', rfl⟩, v', _, ⟨hv', rfl⟩, h⟩ := h
  obtain rfl : a = a' := Option.some.inj (ha.symm.trans ha')
  obtain rfl : v = v' := Option.some.inj (hv.symm.trans hv')
  rw [hpos] at h
  -- giving up is reported by -1
  have hfail {t : Fs} (h : Returns (pure ((-1 : Int), Bytes.zero)) t ((n : Int), dst) s') : False := by
    obtain ⟨heq, -⟩ := returns_pure.mp h
    have := congrArg Prod.fst heq
    simp only at this
    omega
  split at h
  · exact (hfail h).elim
  obtain ⟨ioBuf, t₁, hmalloc, h⟩ := returns_bind.mp h
  split at h
  · exact (hfail h).elim
  next hio =>
  obtain ⟨allBlocksMem, t₂, hmalloc', h⟩ := returns_bind.mp h
  split at h
  · exact (hfail h).elim
  next hmem =>
  obtain ⟨p, rfl⟩ := Option.ne_none_iff_exists'.mp hio
  obtain ⟨q, rfl⟩ := Option.ne_none_iff_exists'.mp hmem
  obtain ⟨_, _, hassert, -⟩ := returns_bind.mp h
  obtain ⟨⟨-, hrange⟩, -⟩ := (returns_assert _ _).mp hassert
  exact ⟨hasMemory_of_two hmalloc hmalloc' rfl, hrange⟩

end Read

/-! ## The slice a read is to deliver -/

/-- `file_read` of `cnt` bytes in slot `g`, at offset `pos` of the file with inode `v`: at the end of the
    file it returns -1, elsewhere it delivers the bytes from `pos` on and moves the offset. -/
def ReadsSlice (s : Fs) (g : Nat) (v : Inode) (pos cnt : Nat) : Prop :=
  if pos = v.iSize then ∃ dst, Returns (fileRead g cnt) s (-1, dst) s
  else ∃ dst s', Returns (fileRead g cnt) s ((min cnt (v.iSize - pos) : Nat), dst) s' ∧
    (∀ k < min cnt (v.iSize - pos), dst k = v.byteAt s.disk (pos + k)) ∧
    s' = { s.moved g (min cnt (v.iSize - pos)) with heap := s'.heap }

/-- Where it does: it gets its two buffers, ends before block 139, and finds the address of the block it
    ends in, or by chance the same bytes in sector 0. -/
def SliceInReach (s : Fs) (v : Inode) (pos cnt : Nat) : Prop :=
  pos = v.iSize ∨
    let size := min cnt (v.iSize - pos)
    s.HasMemory 2 ∧ (pos + size) / 512 < 139 ∧
      (MissesLast pos size → ∀ k < (pos + size) % 512, s.disk k = v.byteAt s.disk ((pos + size) / 512 * 512 + k))

section Slice

variable {s : Fs} {g a pos cnt : Nat} {v : Inode}

theorem readsSlice_iff (ha : (s.fileTable g).fdInode = some a) (hv : s.inodes a = some v) (hmap : s.FileMap v)
    (hpos : (s.fileTable g).fdPos = pos) (hle : pos ≤ v.iSize) (hcnt : 0 < cnt) (hsum : pos + cnt < 2 ^ 32) :
    ReadsSlice s g v pos cnt ↔ SliceInReach s v pos cnt := by
  have hfileSize := hmap.size
  unfold ReadsSlice SliceInReach
  by_cases hend : pos = v.iSize
  · -- at the end of the file the call gives up before it asks for memory
    rw [if_pos hend]
    refine iff_of_true ⟨Bytes.zero, ?_⟩ (Or.inl hend)
    have hzero : fileReadSize pos v.iSize cnt = 0 := by
      rw [fileReadSize_eq hle (Or.inl hsum)]
      omega
    rw [fileRead]
    refine returns_bind.mpr ⟨s, s, (returns_query _).mpr ⟨rfl, rfl⟩, ?_⟩
    refine returns_bind.mpr ⟨a, s, (returns_deref _).mpr ⟨ha, rfl⟩, ?_⟩
    refine returns_bind.mpr ⟨v, s, returns_getInode.mpr ⟨hv, rfl⟩, ?_⟩
    dsimp only [id_eq]
    rw [hpos, hzero, if_pos ⟨by rw [Nat.mod_eq_of_lt hsum]; omega, rfl⟩]
    exact returns_pure.mpr ⟨rfl, rfl⟩
  rw [if_neg hend, or_iff_right hend]
  generalize hsize : min cnt (v.iSize - pos) = size
  have hlt : pos < v.iSize := Nat.lt_of_le_of_ne hle hend
  have hmod : (pos + size) % 2 ^ 32 = pos + size := Nat.mod_eq_of_lt (by omega)
  -- the bytes delivered are those of the file, but for those from the block that is missing
  have hblocks (k : Nat) (hk : k < size) :
      v.readBlocks s.disk (pos / 512) ((pos + size) / 512) ((pos + k) / 512) =
        if MissesLast pos size ∧ (pos + k) / 512 = (pos + size) / 512 then 0 else v.blockAddr s.disk ((pos + k) / 512) :=
    hmap.readBlocks_eq (by omega) (by omega) (by omega)
  have hlast (k : Nat) (hk : k < (pos + size) % 512) (hmiss : MissesLast pos size) :
      pos + ((pos + size) / 512 * 512 + k - pos) = (pos + size) / 512 * 512 + k ∧
        (pos + size) / 512 * 512 + k - pos < size ∧ ((pos + size) / 512 * 512 + k) / 512 = (pos + size) / 512 ∧
        ((pos + size) / 512 * 512 + k) % 512 = k := by
    have := hmiss.1
    omega
  constructor
  · rintro ⟨dst, s', hret, hbytes, -⟩
    obtain ⟨hmem, hrange⟩ := fileRead_needs ha hv hpos hret
    rw [fileReadSize_eq hle (Or.inl hsum), hsize, hmod] at hrange
    refine ⟨hmem, hrange, fun hmiss k hk => ?_⟩
    obtain ⟨dst', t, hret', -, hdst⟩ := fileRead_returns hmem ha hv hmap hpos hlt hcnt hsum hsize.symm hrange
    obtain ⟨hpair, -⟩ := hret.unique hret'
    obtain rfl : dst = dst' := congrArg Prod.snd hpair
    obtain ⟨hidx, hklt, hdiv, hrem⟩ := hlast k hk hmiss
    have hread := hdst _ hklt
    rw [hblocks _ hklt, hidx, hdiv, hrem, if_pos ⟨hmiss, rfl⟩, Nat.mul_zero, Nat.zero_add] at hread
    rw [← hread, hbytes _ hklt, hidx]
  · rintro ⟨hmem, hrange, hsame⟩
    obtain ⟨dst, s', hret, hs', hdst⟩ := fileRead_returns hmem ha hv hmap hpos hlt hcnt hsum hsize.symm hrange
    refine ⟨dst, s', hret, fun k hk => ?_, hs'⟩
    rw [hdst k hk, hblocks k hk]
    split
    · next hmiss =>
      have hk' : pos + k = (pos + size) / 512 * 512 + (pos + k) % 512 := by omega
      have hbound : (pos + k) % 512 < (pos + size) % 512 := by omega
      rw [Nat.mul_zero, Nat.zero_add, hsame hmiss.1 _ hbound, ← hk']
    · rfl

end Slice

/-- `file_read` delivers the slice exactly where it gets memory, ends before block 139, and either stays in
    one direct block, ends at the end of one, ends behind the direct blocks, or finds by chance the right
    bytes in sector 0. -/
theorem fileRead_slice_iff (s : Fs) (g a : Nat) (v : Inode) (cnt : Nat) (ha : (s.fileTable g).fdInode = some a)
    (hv : s.inodes a = some v) (hmap : s.FileMap v) (hle : (s.fileTable g).fdPos ≤ v.iSize) (hcnt : 0 < cnt)
    (hsum : (s.fileTable g).fdPos + cnt < 2 ^ 32) :
    ReadsSlice s g v (s.fileTable g).fdPos cnt ↔ SliceInReach s v (s.fileTable g).fdPos cnt :=
  readsSlice_iff ha hv hmap rfl hle hcnt hsum

namespace TwoBlockFile

/-- The second block of the file is full of the letter A. -/
def disk : Bytes := fun a => if a / 512 = 1001 then 65 else 0

/-- A file of 1000 bytes, with blocks in sectors 1000 and 1001. -/
def inode : Inode := { (SmallTree.inode 1 1000 1000).setSector 1 1001 with iOpenCnt := 1 }

/-- The file is open in slot 3, at its beginning. -/
def fs : Fs :=
  { SmallTree.fs with
    disk := disk
    inodes := fun a => if a = 0 then some inode else none
    fileTable := fun _ => { fdPos := 0, fdFlag := 2, fdInode := some 0 } }

theorem blockAddr_eq : ∀ k < 140, inode.blockAddr disk k = if k < 2 then 1000 + k else 0 := by decide +kernel

theorem inUse {lba : Nat} (h : 1000 ≤ lba ∧ lba < 1002) : fs.InUse lba := by
  obtain ⟨i, rfl⟩ := Nat.exists_eq_add_of_le h.1
  have hi : i < 2 := by omega
  have hmax : 1001 ≤ maxLba := by decide
  exact ⟨by omega, i, show i < 32 by omega, decide_eq_true hi, rfl⟩

theorem fileMap : fs.FileMap inode :=
  .of_row (n := 2) (by decide) (by decide) rfl blockAddr_eq (fun _ _ => inUse (by omega)) (Or.inl ⟨rfl, by decide⟩)

theorem hasMemory : fs.HasMemory 2 := ⟨⟨_, rfl⟩, fun _ _ => rfl⟩

end TwoBlockFile

/-- The first block of a file. -/
theorem fileRead_slice_block : ReadsSlice TwoBlockFile.fs 3 TwoBlockFile.inode 0 512 :=
  (fileRead_slice_iff TwoBlockFile.fs 3 0 TwoBlockFile.inode 512 rfl rfl TwoBlockFile.fileMap (Nat.zero_le _)
    (by decide) (by decide)).mpr (Or.inr ⟨TwoBlockFile.hasMemory, by decide, fun h => absurd rfl h.2.2⟩)

/-- The first 600 bytes: those from the second block are zero and not what the file has there. -/
theorem fileRead_loses_last_block : ∃ (s : Fs) (g a : Nat) (v : Inode), (s.fileTable g).fdInode = some a ∧
    s.inodes a = some v ∧ s.FileMap v ∧ s.HasMemory 2 ∧ (s.fileTable g).fdPos = 0 ∧ v.iSize = 1000 ∧
      ¬ ReadsSlice s g v 0 600 := by
  refine ⟨TwoBlockFile.fs, 3, 0, TwoBlockFile.inode, rfl, rfl, TwoBlockFile.fileMap, TwoBlockFile.hasMemory, rfl, rfl,
    fun h => ?_⟩
  have hreach := (readsSlice_iff (s := TwoBlockFile.fs) (g := 3) (a := 0) rfl rfl TwoBlockFile.fileMap rfl
    (Nat.zero_le _) (by decide) (by decide)).mp h
  obtain h | ⟨-, -, hsame⟩ := hreach
  · exact absurd h (by decide)
  · have hbyte := hsame (by decide) 0 (by decide)
    exact absurd hbyte (by decide)

end ZxyOs
