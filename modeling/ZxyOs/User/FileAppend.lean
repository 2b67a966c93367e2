/-
  ZxyOs.User.FileAppend

  What `file_write` leaves behind (`fs/file.c`).

  A write takes blocks from the bitmap until the file has one for every 512 bytes and one
  for what comes next, and then puts the bytes behind those that are there.  The blocks of
  the file stay different from each other, since what the bitmap gives out was free
  (`Fs.NewBlock`), and so a byte written to one is not in the way of the others
  (`fileWriteLoop_bytes`).
-/

import ZxyOs.User.FileSlice

namespace ZxyOs

open Lib Lib.Exec

/-! ## Taking blocks -/

/-- The super block divides the partition up, and its data blocks are on the disk. -/
structure Fs.OnDisk (s : Fs) : Prop extends s.Layout where
  data : s.part.sb.dataStartLba + s.blockBitmap.size ≤ maxLba + 1

/-- Blocks have been taken between `s` and `t`, and none has been given back. -/
structure TakesBlocks (s t : Fs) : Prop where
  part : t.part = s.part
  inodeMap : t.inodeMap = s.inodeMap
  size : t.blockBitmap.size = s.blockBitmap.size
  bits : ∀ i, s.blockBitmap.bit i = true → t.blockBitmap.bit i = true

/-- The block at `lba` has been taken between `s` and `t`. -/
def Fs.NewBlock (s t : Fs) (lba : Nat) : Prop :=
  ∃ i < s.blockBitmap.size,
    s.blockBitmap.bit i = false ∧ t.blockBitmap.bit i = true ∧ lba = s.part.sb.dataStartLba + i

/-- The data blocks hold the same in `s` and `t`. -/
def SameData (s t : Fs) : Prop :=
  ∀ lba, s.part.sb.dataStartLba ≤ lba → sectorAt t.disk lba = sectorAt s.disk lba

section Taking

variable {s s' t u : Fs} {a n lba : Nat} {v w : Inode} {allBlocks blocks : Nat → Nat}

theorem TakesBlocks.refl (s : Fs) : TakesBlocks s s := ⟨rfl, rfl, rfl, fun _ h => h⟩

theorem TakesBlocks.of_eq (hpart : t.part = s.part) (hmap : t.inodeMap = s.inodeMap)
    (hbits : t.blockBitmap = s.blockBitmap) : TakesBlocks s t := by
  refine ⟨hpart, hmap, by rw [hbits], fun i hi => ?_⟩
  rw [hbits]
  exact hi

theorem TakesBlocks.trans (h : TakesBlocks s t) (h' : TakesBlocks t u) : TakesBlocks s u :=
  ⟨h'.part.trans h.part, h'.inodeMap.trans h.inodeMap, h'.size.trans h.size, fun i hi => h'.bits i (h.bits i hi)⟩

theorem TakesBlocks.onDisk (h : TakesBlocks s t) (hd : s.OnDisk) : t.OnDisk := by
  refine ⟨⟨?_, ?_, ?_, ?_, ?_⟩, ?_⟩
  · rw [h.part]
    exact hd.entrySize
  · rw [h.part, h.size]
    exact hd.blockBitmap
  · rw [h.part, h.inodeMap]
    exact hd.inodeBitmap
  · rw [h.part]
    exact hd.inodeTable
  · rw [h.size, h.inodeMap]
    exact hd.nonempty
  · rw [h.part, h.size]
    exact hd.data

/-- A block in use stays in use. -/
theorem TakesBlocks.inUse (h : TakesBlocks s t) (hlba : s.InUse lba) : t.InUse lba := by
  obtain ⟨hle, i, hi, hbit, hi'⟩ := hlba
  exact ⟨hle, i, h.size ▸ hi, h.bits i hbit, h.part ▸ hi'⟩

theorem Fs.NewBlock.after (h : s.NewBlock t lba) (h' : TakesBlocks t u) : s.NewBlock u lba := by
  obtain ⟨i, hi, hfree, hbit, hlba⟩ := h
  exact ⟨i, hi, hfree, h'.bits i hbit, hlba⟩

theorem Fs.NewBlock.before (h : TakesBlocks s t) (h' : t.NewBlock u lba) : s.NewBlock u lba := by
  obtain ⟨i, hi, hfree, hbit, hlba⟩ := h'
  refine ⟨i, h.size ▸ hi, ?_, hbit, h.part ▸ hlba⟩
  -- a bit that was set before would still be set
  cases hs : s.blockBitmap.bit i with
  | false => rfl
  | true =>
    rw [h.bits i hs] at hfree
    cases hfree

theorem Fs.NewBlock.ge (h : s.NewBlock t lba) : s.part.sb.dataStartLba ≤ lba := by
  obtain ⟨i, -, -, -, rfl⟩ := h
  exact Nat.le_add_right _ _

theorem Fs.NewBlock.le_maxLba (h : s.NewBlock t lba) (hd : s.OnDisk) : lba ≤ maxLba := by
  obtain ⟨i, hi, -, -, rfl⟩ := h
  have := hd.data
  omega

theorem Fs.NewBlock.ne_zero (h : s.NewBlock t lba) (hd : s.OnDisk) : lba ≠ 0 := by
  have h₁ := hd.data_pos
  have h₂ := h.ge
  omega

/-- A new block is in use from then on. -/
theorem Fs.NewBlock.inUse (h : s.NewBlock t lba) (hd : s.OnDisk) (ht : TakesBlocks s t) : t.InUse lba := by
  refine ⟨h.le_maxLba hd, ?_⟩
  obtain ⟨i, hi, -, hbit, rfl⟩ := h
  exact ⟨i, ht.size ▸ hi, hbit, by rw [ht.part]⟩

/-- It was not in use before. -/
theorem Fs.NewBlock.ne_inUse {lba' : Nat} (h : s.NewBlock t lba) (hlba' : s.InUse lba') : lba ≠ lba' := by
  rintro rfl
  obtain ⟨i, -, hfree, -, hi⟩ := h
  exact hlba'.ne_of_free hfree hi

theorem SameData.trans (h : SameData s t) (hpart : t.part = s.part) (h' : SameData t u) : SameData s u :=
  fun lba hlba => (h' lba (hpart ▸ hlba)).trans (h lba hlba)

/-- `block_bitmap_alloc` takes a new block. -/
theorem returns_blockBitmapAlloc_taken {r : Option Nat} (h : Returns blockBitmapAlloc s r t) :
    ∃ i, r = some (s.part.sb.dataStartLba + i) ∧ i < s.blockBitmap.size ∧
      t = { s with blockBitmap := s.blockBitmap.bitmapSet i true } ∧ TakesBlocks s t ∧
        s.NewBlock t (s.part.sb.dataStartLba + i) := by
  obtain ⟨i, hr, ⟨hi, hfree, -⟩, rfl⟩ := returns_blockBitmapAlloc.mp h
  refine ⟨i, hr, hi, rfl, ⟨rfl, rfl, rfl, fun j hj => ?_⟩, i, hi, hfree, Bitmap.bitmapSet_bit_self _ _ _, rfl⟩
  show (s.blockBitmap.bitmapSet i true).bit j = true
  rw [Bitmap.bitmapSet_bit]
  split
  · rfl
  · exact hj

/-- `bitmap_sync` of the bit of a data block. -/
theorem returns_bitmapSync_data {i : Nat} {r : Unit} (hd : s.OnDisk) (hi : i < s.blockBitmap.size)
    (h : Returns (bitmapSync (blockBitmapIdx s.part.sb (s.part.sb.dataStartLba + i)) .blockBitmap) s r t) :
    t = { s with disk := t.disk } ∧ SameData s t := by
  have hle : s.part.sb.dataStartLba + i ≤ maxLba := by
    have := hd.data
    omega
  rw [blockBitmapIdx_data hle] at h
  obtain ⟨-, rfl⟩ := returns_bitmapSync_block.mp h
  exact ⟨rfl, fun lba hlba => hd.sectorAt_syncedBlockBitmap hi hlba⟩

/-- What the allocation loop of `file_write` leaves, from block `idx` of the file on. -/
structure Allocated (s t : Fs) (a : Nat) (v w : Inode) (idx n : Nat) (allBlocks blocks : Nat → Nat) : Prop where
  taken : TakesBlocks s t
  data : SameData s t
  inode : t.inodes a = some w
  ident : w.iSize = v.iSize ∧ w.iNo = v.iNo
  sector : ∀ j, w.sector j = if idx ≤ j ∧ j < idx + n ∧ j < 12 then blocks j else v.sector j
  old : ∀ j, ¬ (idx ≤ j ∧ j < idx + n) → blocks j = allBlocks j
  new : ∀ j, idx ≤ j → j < idx + n → s.NewBlock t (blocks j)
  inj : ∀ j k, idx ≤ j → j < idx + n → idx ≤ k → k < idx + n → blocks j = blocks k → j = k

theorem fileAllocBlocks_allocated {idx : Nat} (hd : s.OnDisk) (hv : s.inodes a = some v)
    (h : Returns (fileAllocBlocks a n idx allBlocks) s (some blocks) t) :
    ∃ w, Allocated s t a v w idx n allBlocks blocks := by
  induction n generalizing s v idx allBlocks with
  | zero =>
    obtain ⟨hblocks, rfl⟩ := returns_pure.mp h
    obtain rfl := Option.some.inj hblocks
    refine ⟨v, TakesBlocks.refl s, fun _ _ => rfl, hv, ⟨rfl, rfl⟩, fun j => ?_, fun _ _ => rfl, fun j h₁ h₂ => ?_,
      fun j k h₁ h₂ => ?_⟩
    · rw [if_neg (by omega)]
    · omega
    · omega
  | succ n ih =>
    simp only [fileAllocBlocks] at h
    obtain ⟨r, s₁, halloc, h⟩ := returns_bind.mp h
    obtain ⟨i, rfl, hi, rfl, htaken, hnew⟩ := returns_blockBitmapAlloc_taken halloc
    generalize hlba : s.part.sb.dataStartLba + i = lba at h hnew
    dsimp only at h
    -- once the block is entered, its bit is written and the loop goes on
    have hlast {s₂ : Fs} {u : Inode} (hpart : s₂.part = s.part) (hmap : s₂.inodeMap = s.inodeMap)
        (hbits : s₂.blockBitmap = s.blockBitmap.bitmapSet i true) (hdisk : s₂.disk = s.disk)
        (hu : s₂.inodes a = some u) (hident : u.iSize = v.iSize ∧ u.iNo = v.iNo)
        (hsector : ∀ j, u.sector j = if j = idx ∧ j < 12 then lba else v.sector j) (h : Returns (do
          let s ← query id
          bitmapSync (blockBitmapIdx s.part.sb lba) .blockBitmap
          fileAllocBlocks a n (idx + 1) (Function.update allBlocks idx lba)) s₂ (some blocks) t) :
        ∃ w, Allocated s t a v w idx (n + 1) allBlocks blocks := by
      have htaken₂ : TakesBlocks s s₂ := htaken.trans (.of_eq hpart hmap hbits)
      have hd₂ := htaken₂.onDisk hd
      simp only [returns_bind (x := query _), returns_query] at h
      obtain ⟨_, _, ⟨rfl, rfl⟩, h⟩ := h
      obtain ⟨_, s₃, hsync, h⟩ := returns_bind.mp h
      rw [← hlba, ← hpart] at hsync
      obtain ⟨hs₃, hsame⟩ := returns_bitmapSync_data hd₂ (htaken₂.size ▸ hi) hsync
      have htaken₃ : TakesBlocks s s₃ := htaken₂.trans (.of_eq (by rw [hs₃]) (by rw [hs₃]) (by rw [hs₃]))
      have hu₃ : s₃.inodes a = some u := by
        rw [hs₃]
        exact hu
      obtain ⟨w, hrest⟩ := ih (htaken₃.onDisk hd) hu₃ h
      have hidx : blocks idx = lba := by
        rw [hrest.old idx (by omega), Function.update_self]
      have hnew₃ : s.NewBlock s₃ lba := hnew.after (.of_eq (by rw [hs₃]; exact hpart) (by rw [hs₃]; exact hmap)
        (by rw [hs₃]; exact hbits))
      have hused : s₃.InUse lba := hnew₃.inUse hd htaken₃
      refine ⟨w, htaken₃.trans hrest.taken, ?_, hrest.inode, ?_, fun j => ?_, fun j hj => ?_, fun j h₁ h₂ => ?_,
        fun j k h₁ h₂ h₃ h₄ heq => ?_⟩
      · have hdata : SameData s s₃ := fun x hx => by
          rw [hsame x (hpart ▸ hx), hdisk]
        exact hdata.trans htaken₃.part hrest.data
      · exact ⟨hrest.ident.1.trans hident.1, hrest.ident.2.trans hident.2⟩
      · rw [hrest.sector j, hsector j]
        by_cases hj : j = idx
        · subst hj
          rw [if_neg (by omega), hidx]
          by_cases hlt : j < 12
          · rw [if_pos ⟨rfl, hlt⟩, if_pos (by omega)]
          · rw [if_neg (by omega), if_neg (by omega)]
        · rw [if_neg (c := j = idx ∧ j < 12) (by omega)]
          by_cases hin : idx + 1 ≤ j ∧ j < idx + 1 + n ∧ j < 12
          · rw [if_pos hin, if_pos (by omega)]
          · rw [if_neg hin, if_neg (by omega)]
      · rw [hrest.old j (by omega), Function.update_of_ne (by omega)]
      · by_cases hj : j = idx
        · rw [hj, hidx]
          exact hnew₃.after hrest.taken
        · exact .before htaken₃ (hrest.new j (by omega) (by omega))
      · -- a block taken later was free when this one had been taken
        by_cases hj : j = idx
        · by_cases hk : k = idx
          · rw [hj, hk]
          · rw [hj, hidx] at heq
            exact absurd heq.symm ((hrest.new k (by omega) (by omega)).ne_inUse hused)
        · by_cases hk : k = idx
          · rw [hk, hidx] at heq
            exact absurd heq ((hrest.new j (by omega) (by omega)).ne_inUse hused)
          · exact hrest.inj j k (by omega) (by omega) (by omega) (by omega) heq
    split at h
    · next hidx =>
      simp only [returns_bind (x := getInode _), returns_getInode, returns_bind (x := assert _), returns_assert,
        returns_bind (x := setInodeSector _ _ _), returns_setInodeSector] at h
      obtain ⟨_, _, ⟨hv', rfl⟩, _, _, ⟨-, rfl⟩, _, _, ⟨u, hu, rfl⟩, h⟩ := h
      obtain rfl : v = u := Option.some.inj (hv.symm.trans hu)
      refine @hlast
        (({ s with blockBitmap := s.blockBitmap.bitmapSet i true } : Fs).setInode a (v.setSector idx lba))
        (v.setSector idx lba) rfl rfl rfl rfl Fs.setInode_self ⟨rfl, rfl⟩ (fun j => ?_) h
      by_cases hj : j = idx
      · rw [hj, Inode.sector_setSector_self (by omega), if_pos ⟨rfl, hidx⟩]
      · rw [Inode.sector_setSector_ne hj, if_neg fun h => hj h.1]
    · next hidx =>
      refine @hlast { s with blockBitmap := s.blockBitmap.bitmapSet i true } v rfl rfl rfl rfl hv
        ⟨rfl, rfl⟩ (fun j => ?_) h
      rw [if_neg (by omega)]

end Taking

/-! ## The blocks of a file -/

/-- The file with inode `v` has its first `n` blocks and no others, and an index table if it needs one. -/
structure Fs.HasBlocks (s : Fs) (v : Inode) (n : Nat) : Prop extends s.BlocksOk v where
  le : n ≤ 140
  used : ∀ k < 140, v.blockAddr s.disk k ≠ 0 ↔ k < n
  indexed : v.sector 12 ≠ 0 ↔ 12 < n

theorem Fs.FileMap.hasBlocks {s : Fs} {v : Inode} (h : s.FileMap v) :
    s.HasBlocks v (if v.sector 0 = 0 then 0 else v.iSize / 512 + 1) := by
  have hsize := h.size
  refine ⟨h.toBlocksOk, ?_, fun k hk => ?_, ?_⟩
  · split <;> omega
  · rw [h.used k hk]
    split <;> omega
  · rw [h.indexed]
    split
    · next hzero =>
      have := h.first hzero
      omega
    · omega

theorem Fs.HasBlocks.fileMap {s : Fs} {v : Inode} (h : s.HasBlocks v (v.iSize / 512 + 1)) : s.FileMap v := by
  have hzero : v.sector 0 ≠ 0 := by
    rw [← Inode.blockAddr_direct (show 0 < 12 by decide)]
    exact (h.used 0 (by decide)).mpr (Nat.succ_pos _)
  refine ⟨h.toBlocksOk, ?_, fun h0 => absurd h0 hzero, fun k hk => ?_, ?_⟩
  · have := h.le
    omega
  · rw [h.used k hk]
    omega
  · rw [h.indexed]
    omega

/-- The file has got the blocks from `n` to `m`, and what it had is where it was. -/
structure Extended (s t : Fs) (a : Nat) (v w : Inode) (n m : Nat) : Prop where
  taken : TakesBlocks s t
  inode : t.inodes a = some w
  ident : w.iSize = v.iSize ∧ w.iNo = v.iNo
  blocks : t.HasBlocks w m
  old : ∀ k < n, w.blockAddr t.disk k = v.blockAddr s.disk k
  new : ∀ k, n ≤ k → k < m → s.NewBlock t (w.blockAddr t.disk k)
  table : w.sector 12 = v.sector 12 ∨ s.NewBlock t (w.sector 12)
  data : ∀ lba, s.part.sb.dataStartLba ≤ lba → ¬ s.NewBlock t lba → sectorAt t.disk lba = sectorAt s.disk lba

section Extending

variable {s t u : Fs} {a n m l : Nat} {v w x : Inode} {allBlocks blocks : Nat → Nat}

theorem Extended.refl (hv : s.inodes a = some v) (hb : s.HasBlocks v n) : Extended s s a v v n n :=
  ⟨.refl s, hv, ⟨rfl, rfl⟩, hb, fun _ _ => rfl, fun k h₁ h₂ => by omega, Or.inl rfl, fun _ _ _ => rfl⟩

theorem Extended.trans (h : Extended s t a v w n m) (h' : Extended t u a w x m l) (hle : n ≤ m) :
    Extended s u a v x n l where
  taken := h.taken.trans h'.taken
  inode := h'.inode
  ident := ⟨h'.ident.1.trans h.ident.1, h'.ident.2.trans h.ident.2⟩
  blocks := h'.blocks
  old := fun k hk => (h'.old k (by omega)).trans (h.old k hk)
  new := by
    intro k h₁ h₂
    by_cases hk : k < m
    · rw [h'.old k hk]
      exact (h.new k h₁ hk).after h'.taken
    · exact .before h.taken (h'.new k (by omega) h₂)
  table := by
    rcases h'.table with heq | hnew
    · rw [heq]
      exact h.table.imp_right fun hnew => hnew.after h'.taken
    · exact Or.inr (.before h.taken hnew)
  data := by
    intro lba hlba hnew
    rw [h'.data lba (h.taken.part ▸ hlba) fun hn => hnew (.before h.taken hn),
      h.data lba hlba fun hn => hnew (hn.after h'.taken)]

/-- New blocks keep the blocks of a file different from each other and in use. -/
theorem Fs.HasBlocks.extend (hb : s.HasBlocks v n) (hd : s.OnDisk) (ht : TakesBlocks s t) (hle : n ≤ m) (hm : m ≤ 140)
    (hold : ∀ k < n, w.blockAddr t.disk k = v.blockAddr s.disk k)
    (hnew : ∀ k, n ≤ k → k < m → s.NewBlock t (w.blockAddr t.disk k))
    (hinj : ∀ j k, n ≤ j → j < m → n ≤ k → k < m → w.blockAddr t.disk j = w.blockAddr t.disk k → j = k)
    (hzero : ∀ k, m ≤ k → k < 140 → w.blockAddr t.disk k = 0)
    (htable : (w.sector 12 = v.sector 12 ∧ (12 < n ∨ m ≤ 12)) ∨ (n ≤ 12 ∧ 12 < m ∧ s.NewBlock t (w.sector 12) ∧
      ∀ k, n ≤ k → k < m → w.blockAddr t.disk k ≠ w.sector 12)) : t.HasBlocks w m := by
  have hused (k : Nat) (hk : k < 140) : w.blockAddr t.disk k ≠ 0 ↔ k < m := by
    by_cases h₁ : k < n
    · rw [hold k h₁]
      exact (hb.used k hk).trans (by omega)
    by_cases h₂ : k < m
    · exact iff_of_true ((hnew k (by omega) h₂).ne_zero hd) h₂
    · exact iff_of_false (fun hne => hne (hzero k (by omega) hk)) h₂
  have hne {k : Nat} (hk : k < n) : s.InUse (v.blockAddr s.disk k) := by
    have hlt : k < 140 := by
      have := hb.le
      omega
    exact hb.inUse k hlt ((hb.used k hlt).mpr hk)
  refine ⟨⟨fun k hk h0 => ?_, fun h0 => ?_, fun j hj k hk h0 heq => ?_, fun k hk h0 => ?_⟩, hm, hused, ?_⟩
  · have hkm := (hused k hk).mp h0
    by_cases h₁ : k < n
    · rw [hold k h₁]
      exact ht.inUse (hne h₁)
    · exact (hnew k (by omega) hkm).inUse hd ht
  · rcases htable with ⟨heq, -⟩ | ⟨-, -, hnew, -⟩
    · rw [heq] at h0 ⊢
      exact ht.inUse (hb.table h0)
    · exact hnew.inUse hd ht
  · have hjm := (hused j hj).mp h0
    have hkm := (hused k hk).mp (heq ▸ h0)
    by_cases h₁ : j < n
    · by_cases h₂ : k < n
      · rw [hold j h₁, hold k h₂] at heq
        exact hb.inj j hj k hk ((hb.used j hj).mpr h₁) heq
      · rw [hold j h₁] at heq
        exact absurd heq.symm ((hnew k (by omega) hkm).ne_inUse (hne h₁))
    · by_cases h₂ : k < n
      · rw [hold k h₂] at heq
        exact absurd heq ((hnew j (by omega) hjm).ne_inUse (hne h₂))
      · exact hinj j k (by omega) hjm (by omega) hkm heq
  · by_cases hkm : k < m
    · rcases htable with ⟨heq, -⟩ | ⟨-, -, htbl, hother⟩
      · rw [heq] at h0 ⊢
        by_cases h₁ : k < n
        · rw [hold k h₁]
          exact hb.tableNe k hk h0
        · exact (hnew k (by omega) hkm).ne_inUse (hb.table h0)
      · by_cases h₁ : k < n
        · rw [hold k h₁]
          exact (htbl.ne_inUse (hne h₁)).symm
        · exact hother k (by omega) hkm
    · rw [hzero k (by omega) hk]
      exact h0.symm
  · rcases htable with ⟨heq, hnm⟩ | ⟨-, hlt, hnew, -⟩
    · rw [heq, hb.indexed]
      omega
    · exact iff_of_true (hnew.ne_zero hd) hlt

/-- Direct blocks are entered in the inode. -/
theorem Allocated.extended (h : Allocated s t a v w n (m - n) allBlocks blocks) (hd : s.OnDisk)
    (hb : s.HasBlocks v n) (hle : n ≤ m) (hm : m ≤ 12) : Extended s t a v w n m := by
  have h12 : w.sector 12 = v.sector 12 := by
    rw [h.sector, if_neg (by omega)]
  have hnone : v.sector 12 = 0 := by
    by_contra hne
    have := hb.indexed.mp hne
    omega
  have haddr (k : Nat) (hk : k < 12) : w.blockAddr t.disk k = if n ≤ k ∧ k < m then blocks k else v.blockAddr s.disk k := by
    rw [Inode.blockAddr_direct hk, Inode.blockAddr_direct hk, h.sector]
    by_cases hin : n ≤ k ∧ k < m
    · rw [if_pos hin, if_pos (by omega)]
    · rw [if_neg hin, if_neg (by omega)]
  have hold (k : Nat) (hk : k < n) : w.blockAddr t.disk k = v.blockAddr s.disk k := by
    rw [haddr k (by omega), if_neg (by omega)]
  have hnew (k : Nat) (h₁ : n ≤ k) (h₂ : k < m) : w.blockAddr t.disk k = blocks k := by
    rw [haddr k (by omega), if_pos ⟨h₁, h₂⟩]
  have hnewBlock (k : Nat) (h₁ : n ≤ k) (h₂ : k < m) : s.NewBlock t (w.blockAddr t.disk k) := by
    rw [hnew k h₁ h₂]
    exact h.new k h₁ (by omega)
  refine ⟨h.taken, h.inode, h.ident, hb.extend hd h.taken hle (by omega) hold hnewBlock (fun j k h₁ h₂ h₃ h₄ heq => ?_)
    (fun k h₁ hk => ?_) (Or.inl ⟨h12, Or.inr hm⟩), hold, hnewBlock, Or.inl h12, fun lba hlba _ => h.data lba hlba⟩
  · rw [hnew j h₁ h₂, hnew k h₃ h₄] at heq
    exact h.inj j k h₁ (by omega) h₃ (by omega) heq
  · by_cases hlt : k < 12
    · rw [haddr k hlt, if_neg (by omega)]
      by_contra hne
      have := (hb.used k hk).mp hne
      omega
    · exact Inode.blockAddr_no_table (by omega) (h12.trans hnone)

/-- The others go to the index table, which is written once they are all there. -/
theorem Allocated.extended_table {u' : Fs} {lba : Nat}
    (h : Allocated t u a (v.setSector 12 lba) w n (m - n) allBlocks blocks) (hd : s.OnDisk) (hb : s.HasBlocks v n)
    (ht : TakesBlocks s t) (htable : s.NewBlock t lba) (hdisk : t.disk = s.disk) (hle : n ≤ 12) (hlt : 12 < m) (hm : m ≤ 140)
    (hall : ∀ k, m ≤ k → allBlocks k = 0) (hu : TakesBlocks u u') (hinode : u'.inodes a = some w)
    (hwords : u'.disk = writeSector u.disk lba (wordsOf fun j => blocks (12 + j))) :
    Extended s u' a v w n m ∧ ∀ k, n ≤ k → k < m → w.blockAddr u'.disk k = blocks k := by
  have h12 : w.sector 12 = lba := by
    rw [h.sector, if_neg (by omega), Inode.sector_setSector_self (by decide)]
  have hd₁ := ht.onDisk hd
  have htaken : TakesBlocks s u' := (ht.trans h.taken).trans hu
  have hne : lba ≠ 0 := htable.ne_zero hd
  have htable' : s.NewBlock u' lba := htable.after (h.taken.trans hu)
  have hblock (k : Nat) (h₁ : n ≤ k) (h₂ : k < m) : t.NewBlock u (blocks k) := h.new k h₁ (by omega)
  -- the words of the table are read back as they were written
  have hword (k : Nat) (hk : 12 ≤ k) : blocks k < 2 ^ 32 := by
    by_cases hkm : k < m
    · have hmax : maxLba < 2 ^ 32 := by decide
      exact Nat.lt_of_le_of_lt ((hblock k (by omega) hkm).le_maxLba hd₁) hmax
    · rw [h.old k (by omega), hall k (by omega)]
      decide
  have hindirect (k : Nat) (h₁ : 12 ≤ k) (h₂ : k < 140) : w.blockAddr u'.disk k = blocks k := by
    rw [Inode.blockAddr_indirect h₁ (h12 ▸ hne), h12, hwords, sectorAt_writeSector_self, u32At_wordsOf (by omega),
      Nat.add_sub_cancel' h₁, Nat.mod_eq_of_lt (hword k h₁)]
  have hdirect (k : Nat) (hk : k < 12) :
      w.blockAddr u'.disk k = if n ≤ k then blocks k else v.blockAddr s.disk k := by
    rw [Inode.blockAddr_direct hk, Inode.blockAddr_direct hk, h.sector]
    by_cases hin : n ≤ k
    · rw [if_pos hin, if_pos (by omega)]
    · rw [if_neg hin, if_neg (by omega), Inode.sector_setSector_ne (by omega)]
  have hnew (k : Nat) (h₁ : n ≤ k) (h₂ : k < m) : w.blockAddr u'.disk k = blocks k := by
    by_cases hk : k < 12
    · rw [hdirect k hk, if_pos h₁]
    · exact hindirect k (by omega) (by omega)
  have hold (k : Nat) (hk : k < n) : w.blockAddr u'.disk k = v.blockAddr s.disk k := by
    rw [hdirect k (by omega), if_neg (by omega)]
  have hnewBlock (k : Nat) (h₁ : n ≤ k) (h₂ : k < m) : s.NewBlock u' (w.blockAddr u'.disk k) := by
    rw [hnew k h₁ h₂]
    exact .before ht ((hblock k h₁ h₂).after hu)
  have hblocks : u'.HasBlocks w m := by
    refine hb.extend hd htaken (by omega) hm hold hnewBlock (fun j k h₁ h₂ h₃ h₄ heq => ?_) (fun k h₁ hk => ?_)
      (Or.inr ⟨hle, hlt, h12 ▸ htable', fun k h₁ h₂ => ?_⟩)
    · rw [hnew j h₁ h₂, hnew k h₃ h₄] at heq
      exact h.inj j k h₁ (by omega) h₃ (by omega) heq
    · rw [hindirect k (by omega) hk, h.old k (by omega), hall k h₁]
    · rw [hnew k h₁ h₂, h12]
      exact (hblock k h₁ h₂).ne_inUse (htable.inUse hd ht)
  refine ⟨⟨htaken, hinode, h.ident, hblocks, hold, hnewBlock, Or.inr (h12 ▸ htable'), fun x hx hxnew => ?_⟩, hnew⟩
  have hne' : x ≠ lba := fun hxl => hxnew (hxl ▸ htable')
  rw [hwords, sectorAt_writeSector_ne hne', h.data x (ht.part ▸ hx), hdisk]

/-- A file that was never written gets its first block before `file_write` goes on. -/
theorem fileFirstBlock_extended {α : Type} {f : Bool → FsM α} {r : α} {sb : SuperBlock} (hsb : sb = s.part.sb)
    (hd : s.OnDisk) (hv : s.inodes a = some v) (hmap : s.FileMap v) (h : Returns (do
      let firstOk ←
        if v.sector 0 = 0 then do
          let blockLba ← blockBitmapAlloc
          match blockLba with
          | none => pure false
          | some blockLba =>
            setInodeSector a 0 blockLba
            bitmapSync (blockBitmapIdx sb blockLba) .blockBitmap
            pure true
        else pure true
      f firstOk) s r u) : ∃ t w,
        Extended s t a v w (if v.sector 0 = 0 then 0 else v.iSize / 512 + 1) (v.iSize / 512 + 1) ∧
          Returns (f true) t r u := by
  subst hsb
  have hb := hmap.hasBlocks
  dsimp only at h
  split at h
  · next hzero =>
    rw [if_pos hzero] at hb ⊢
    obtain ⟨_, s₁, halloc, h⟩ := returns_bind.mp h
    obtain ⟨i, rfl, -, hs₁, -⟩ := returns_blockBitmapAlloc_taken halloc
    dsimp only at h
    obtain ⟨_, s₂, hset, h⟩ := returns_bind.mp h
    obtain ⟨_, s₃, hsync, h⟩ := returns_bind.mp h
    obtain ⟨_, _, hpure, h⟩ := returns_bind.mp h
    obtain ⟨rfl, rfl⟩ := returns_pure.mp hpure
    have hv₁ : s₁.inodes a = some v := by
      rw [hs₁]
      exact hv
    have hs₂ : s.part.sb = s₂.part.sb := by
      obtain ⟨w, -, rfl⟩ := returns_setInodeSector.mp hset
      rw [hs₁]
    rw [hs₂] at halloc hset hsync
    -- it is one turn of the allocation loop
    have hloop : Returns (fileAllocBlocks a 1 0 fun _ => 0) s
        (some (Function.update (fun _ => 0) 0 (s₂.part.sb.dataStartLba + i))) s₃ := by
      rw [fileAllocBlocks]
      refine returns_bind.mpr ⟨_, s₁, halloc, ?_⟩
      dsimp only
      rw [if_pos (by decide)]
      refine returns_bind.mpr ⟨v, s₁, returns_getInode.mpr ⟨hv₁, rfl⟩, ?_⟩
      refine returns_bind.mpr ⟨(), s₁, (returns_assert _ _).mpr ⟨hzero, rfl⟩, ?_⟩
      refine returns_bind.mpr ⟨(), s₂, hset, ?_⟩
      refine returns_bind.mpr ⟨s₂, s₂, (returns_query _).mpr ⟨rfl, rfl⟩, ?_⟩
      exact returns_bind.mpr ⟨(), s₃, hsync, returns_pure.mpr ⟨rfl, rfl⟩⟩
    obtain ⟨w, hw⟩ := fileAllocBlocks_allocated hd hv hloop
    rw [hmap.first hzero]
    exact ⟨s₃, w, hw.extended hd hb (Nat.zero_le _) (by decide), h⟩
  · next hne =>
    rw [if_neg hne] at hb ⊢
    obtain ⟨_, _, hpure, h⟩ := returns_bind.mp h
    obtain ⟨rfl, rfl⟩ := returns_pure.mp hpure
    exact ⟨s, v, .refl hv hb, h⟩

/-- `file_write` gets its blocks, unless it had to extend the index table. -/
theorem fileCollectBlocks_extended (hd : s.OnDisk) (hv : s.inodes a = some v) (hb : s.HasBlocks v (n + 1))
    (hle : n + 1 ≤ m) (hm : m ≤ 140) (h : Returns (fileCollectBlocks a (n + 1) m) s (some blocks) t) :
    (n < 12 ∨ m = n + 1) ∧ ∃ w, Extended s t a v w (n + 1) m ∧
      ∀ k, n ≤ k → k < m → blocks k = w.blockAddr t.disk k := by
  rw [fileCollectBlocks] at h
  obtain ⟨_, _, hget, h⟩ := returns_bind.mp h
  obtain ⟨hv', rfl⟩ := returns_getInode.mp hget
  obtain rfl := Option.some.inj (hv.symm.trans hv')
  by_cases heq : m = n + 1
  · -- no block is missing
    subst heq
    have hsame (k : Nat) (h₁ : n ≤ k) (h₂ : k < n + 1) : k = n := by omega
    rw [if_pos rfl] at h
    split at h
    · next hlt =>
      obtain ⟨hblocks, rfl⟩ := returns_pure.mp h
      obtain rfl := Option.some.inj hblocks
      refine ⟨Or.inr rfl, v, .refl hv hb, fun k h₁ h₂ => ?_⟩
      rw [hsame k h₁ h₂, Nat.add_sub_cancel, fileLastBlock, if_pos rfl, Inode.blockAddr_direct (by omega)]
    · next hge =>
      obtain ⟨_, _, hassert, h⟩ := returns_bind.mp h
      obtain ⟨htbl, rfl⟩ := (returns_assert _ _).mp hassert
      obtain ⟨_, _, hread, h⟩ := returns_bind.mp h
      obtain ⟨-, -, rfl, rfl⟩ := returns_ideRead_sector.mp hread
      obtain ⟨hblocks, rfl⟩ := returns_pure.mp h
      obtain rfl := Option.some.inj hblocks
      refine ⟨Or.inr rfl, v, .refl hv hb, fun k h₁ h₂ => ?_⟩
      rw [hsame k h₁ h₂, fileTableBlocks, if_neg (by omega), Inode.blockAddr_indirect (by omega) htbl]
      rfl
  rw [if_neg heq, Nat.add_sub_cancel] at h
  have hlast (blocks : Nat → Nat) (w : Inode) (disk : Bytes) (hlt : n < 12) (hn : blocks n = v.sector n)
      (hold : w.blockAddr disk n = v.blockAddr s.disk n) : blocks n = w.blockAddr disk n := by
    rw [hn, hold, Inode.blockAddr_direct hlt]
  split at h
  · -- direct blocks
    next hm12 =>
    obtain ⟨_, _, hrequire, h⟩ := returns_bind.mp h
    obtain ⟨-, rfl⟩ := (returns_require _ _).mp hrequire
    obtain ⟨_, _, hassert, h⟩ := returns_bind.mp h
    obtain ⟨-, rfl⟩ := (returns_assert _ _).mp hassert
    obtain ⟨w, halloc⟩ := fileAllocBlocks_allocated hd hv h
    have hext := halloc.extended hd hb hle hm12
    refine ⟨Or.inl (by omega), w, hext, fun k h₁ h₂ => ?_⟩
    by_cases hk : k = n
    · rw [hk]
      refine hlast blocks w t.disk (by omega) ?_ (hext.old n (by omega))
      rw [halloc.old n (by omega), fileLastBlock, if_pos rfl]
    · rw [Inode.blockAddr_direct (by omega), halloc.sector, if_pos (by omega)]
  split at h
  · -- the index table and what it leads to
    next hm12 hn12 =>
    obtain ⟨_, _, hassert, h⟩ := returns_bind.mp h
    obtain ⟨-, rfl⟩ := (returns_assert _ _).mp hassert
    obtain ⟨r, s₁, htable, h⟩ := returns_bind.mp h
    obtain ⟨i, rfl, -, hs₁, htaken, hnew⟩ := returns_blockBitmapAlloc_taken htable
    generalize s.part.sb.dataStartLba + i = lba at h hnew
    dsimp only at h
    have hv₁ : s₁.inodes a = some v := by
      rw [hs₁]
      exact hv
    obtain ⟨_, _, hget', h⟩ := returns_bind.mp h
    obtain ⟨hv', rfl⟩ := returns_getInode.mp hget'
    obtain rfl := Option.some.inj (hv₁.symm.trans hv')
    obtain ⟨_, _, hassert', h⟩ := returns_bind.mp h
    obtain ⟨-, rfl⟩ := (returns_assert _ _).mp hassert'
    obtain ⟨_, s₂, hset, h⟩ := returns_bind.mp h
    obtain ⟨u, hu, hs₂⟩ := returns_setInodeSector.mp hset
    obtain rfl := Option.some.inj (hv₁.symm.trans hu)
    have hpart₂ : TakesBlocks s₁ s₂ := .of_eq (by rw [← hs₂]) (by rw [← hs₂]) (by rw [← hs₂])
    have hv₂ : s₂.inodes a = some (v.setSector 12 lba) := by
      rw [← hs₂]
      exact Function.update_self ..
    have hdisk₂ : s₂.disk = s.disk := by
      rw [← hs₂, hs₁]
    obtain ⟨r, s₃, hloop, h⟩ := returns_bind.mp h
    cases r with
    | none =>
      obtain ⟨hnone, -⟩ := returns_pure.mp h
      cases hnone
    | some all =>
      dsimp only at h
      obtain ⟨_, s₄, hwrite, h⟩ := returns_bind.mp h
      obtain ⟨hblocks, rfl⟩ := returns_pure.mp h
      obtain rfl := Option.some.inj hblocks
      obtain ⟨-, -, hs₄⟩ := returns_ideWrite.mp hwrite
      have ht₂ := htaken.trans hpart₂
      obtain ⟨w, halloc⟩ := fileAllocBlocks_allocated (ht₂.onDisk hd) hv₂ hloop
      have hpart₄ : TakesBlocks s₃ s₄ := .of_eq (by rw [← hs₄]) (by rw [← hs₄]) (by rw [← hs₄])
      obtain ⟨hext, hblocks⟩ := halloc.extended_table hd hb ht₂ (hnew.after hpart₂) hdisk₂ hn12 (by omega) hm
        (fun k hk => by rw [fileLastBlock, if_neg (by omega)]) hpart₄ (by rw [← hs₄]; exact halloc.inode) (by rw [← hs₄]; rfl)
      refine ⟨Or.inl (by omega), w, hext, fun k h₁ h₂ => ?_⟩
      by_cases hk : k = n
      · rw [hk]
        refine hlast all w s₄.disk (by omega) ?_ (hext.old n (by omega))
        rw [halloc.old n (by omega), fileLastBlock, if_pos rfl]
      · exact (hblocks k (by omega) h₂).symm
  · -- the loop that extends the table gives up
    obtain ⟨_, _, -, h⟩ := returns_bind.mp h
    obtain ⟨_, _, -, h⟩ := returns_bind.mp h
    obtain ⟨r, _, hgive, h⟩ := returns_bind.mp h
    obtain ⟨d, hd'⟩ : ∃ d, m - (n + 1) = d + 1 := ⟨m - n - 2, by omega⟩
    rw [hd', fileAllocIndirect] at hgive
    obtain ⟨_, _, -, hgive⟩ := returns_bind.mp hgive
    obtain ⟨rfl, -⟩ := returns_pure.mp hgive
    obtain ⟨hnone, -⟩ := returns_pure.mp h
    cases hnone

end Extending

/-! ## Writing the bytes -/

section Writing

variable {s t : Fs} {a g : Nat} {v : Inode} {allBlocks : Nat → Nat} {src : Bytes}

/-- What the data loop leaves when it has `sizeLeft` bytes to write, from `src` at `written` on. -/
structure BytesWritten (s t : Fs) (a : Nat) (v : Inode) (allBlocks : Nat → Nat) (src : Bytes) (written sizeLeft : Nat) :
    Prop where
  taken : TakesBlocks s t
  bitmap : t.blockBitmap = s.blockBitmap
  inode : t.inodes a = some { v with iSize := v.iSize + sizeLeft }
  bytes : ∀ k < sizeLeft,
    sectorAt t.disk (allBlocks ((v.iSize + k) / 512)) ((v.iSize + k) % 512) = src (written + k)
  kept : ∀ r < v.iSize % 512,
    sectorAt t.disk (allBlocks (v.iSize / 512)) r = sectorAt s.disk (allBlocks (v.iSize / 512)) r
  others : ∀ lba, (∀ k < sizeLeft, lba ≠ allBlocks ((v.iSize + k) / 512)) → sectorAt t.disk lba = sectorAt s.disk lba

theorem BytesWritten.zero {written : Nat} (hv : s.inodes a = some v) : BytesWritten s s a v allBlocks src written 0 :=
  ⟨.refl s, rfl, hv, fun k hk => by omega, fun _ _ => rfl, fun _ _ => rfl⟩

/-- The blocks a write goes through are different from each other. -/
def DifferentBlocks (allBlocks : Nat → Nat) (iSize sizeLeft : Nat) : Prop :=
  ∀ j < sizeLeft, ∀ k < sizeLeft, allBlocks ((iSize + j) / 512) = allBlocks ((iSize + k) / 512) →
    (iSize + j) / 512 = (iSize + k) / 512

theorem fileWriteLoop_bytes {fuel written sizeLeft : Nat} {first : Bool} (hfuel : sizeLeft ≤ fuel)
    (hv : s.inodes a = some v) (hfirst : first = true ∨ v.iSize % 512 = 0 ∨ sizeLeft = 0) (hsize : v.iSize + sizeLeft ≤ 512 * 140)
    (hdiff : DifferentBlocks allBlocks v.iSize sizeLeft)
    (h : Returns (fileWriteLoop g a allBlocks src fuel written sizeLeft first) s () t) :
    BytesWritten s t a v allBlocks src written sizeLeft := by
  induction fuel generalizing s v written sizeLeft first with
  | zero =>
    obtain rfl : sizeLeft = 0 := by omega
    obtain ⟨-, rfl⟩ := returns_pure.mp h
    exact .zero hv
  | succ fuel ih =>
    simp only [fileWriteLoop] at h
    split at h
    · next hzero =>
      subst hzero
      obtain ⟨-, rfl⟩ := returns_pure.mp h
      exact .zero hv
    next hne =>
    simp only [returns_bind (x := getInode _), returns_getInode, returns_bind (x := require _), returns_require] at h
    obtain ⟨v', _, ⟨hv', rfl⟩, _, _, ⟨hidx, rfl⟩, h⟩ := h
    obtain rfl := Option.some.inj (hv.symm.trans hv')
    generalize hchunk : (if sizeLeft < 512 - v.iSize % 512 then sizeLeft else 512 - v.iSize % 512) = chunk at h
    have hoff := Nat.mod_lt v.iSize (show 0 < 512 by decide)
    have hcut : chunk ≤ sizeLeft ∧ 0 < chunk ∧ v.iSize % 512 + chunk ≤ 512 ∧
        (chunk = sizeLeft ∨ v.iSize % 512 + chunk = 512) := by
      split at hchunk <;> omega
    have hsum : (v.iSize + chunk) % 2 ^ 32 = v.iSize + chunk := Nat.mod_eq_of_lt (by omega)
    -- one turn, from the buffer with what is kept of the block
    have hturn (ioBuf : Bytes) (hbuf : ∀ r < v.iSize % 512, ioBuf r = sectorAt s.disk (allBlocks (v.iSize / 512)) r)
        (h : Returns (do
          ideWrite (allBlocks (v.iSize / 512)) (ioBuf.splice (v.iSize % 512) chunk fun k => src (written + k)) 1
          setInodeSize a fun n => (n + chunk) % 2 ^ 32
          let s ← query id
          putFile g { s.fileTable g with fdPos := ((s.fileTable g).fdPos + chunk) % 2 ^ 32 }
          fileWriteLoop g a allBlocks src fuel (written + chunk) (sizeLeft - chunk) false) s () t) :
        BytesWritten s t a v allBlocks src written sizeLeft := by
      simp only [returns_bind, returns_ideWrite, returns_setInodeSize, returns_query, putFile, returns_update] at h
      obtain ⟨_, _, ⟨-, -, rfl⟩, _, _, ⟨u, hu, rfl⟩, _, _, ⟨rfl, rfl⟩, _, _, rfl, h⟩ := h
      obtain rfl := Option.some.inj (hv.symm.trans hu)
      rw [hsum] at h
      have hrest := ih (v := { v with iSize := v.iSize + chunk }) (by omega) (Function.update_self ..) (by
          show false = true ∨ (v.iSize + chunk) % 512 = 0 ∨ sizeLeft - chunk = 0
          omega) (by
          show v.iSize + chunk + (sizeLeft - chunk) ≤ 512 * 140
          omega) (by
          intro j hj k hk heq
          have heq' := hdiff (chunk + j) (by omega) (chunk + k) (by omega)
          simp only [← Nat.add_assoc] at heq'
          exact heq' heq) h
      obtain ⟨htaken, hbitmap, hinode, hbytes, -, hothers⟩ := hrest
      dsimp only at hinode hbytes hothers
      -- what is left goes to other blocks
      have hblock : sectorAt t.disk (allBlocks (v.iSize / 512)) =
          (ioBuf.splice (v.iSize % 512) chunk fun k => src (written + k)).window 0 512 := by
        rw [hothers _ fun k hk heq => ?_]
        · exact sectorAt_writeSector_self
        · have heq' := hdiff 0 (by omega) (chunk + k) (by omega) (by rw [Nat.add_zero, heq, Nat.add_assoc])
          omega
      refine ⟨⟨htaken.part, htaken.inodeMap, htaken.size, htaken.bits⟩, hbitmap, ?_, fun k hk => ?_, fun r hr => ?_, fun lba hlba => ?_⟩
      · rw [hinode, Nat.add_assoc, Nat.add_sub_cancel' hcut.1]
      · by_cases hlt : k < chunk
        · have hsame : (v.iSize + k) / 512 = v.iSize / 512 ∧ (v.iSize + k) % 512 = v.iSize % 512 + k := by omega
          rw [hsame.1, hsame.2, hblock, Bytes.window_apply (by omega), Nat.zero_add,
            Bytes.splice_inside (by omega) (by omega), Nat.add_sub_cancel_left]
        · have hk' := hbytes (k - chunk) (by omega)
          rw [show v.iSize + chunk + (k - chunk) = v.iSize + k by omega,
            show written + chunk + (k - chunk) = written + k by omega] at hk'
          exact hk'
      · rw [hblock, Bytes.window_apply (by omega), Nat.zero_add, Bytes.splice_outside (Or.inl hr), hbuf r hr]
      · rw [hothers lba fun k hk => ?_]
        · exact sectorAt_writeSector_ne (hlba 0 (by omega))
        · have hk' := hlba (chunk + k) (by omega)
          rw [← Nat.add_assoc] at hk'
          exact hk'
    split at h
    · obtain ⟨ioBuf, _, hread, h⟩ := returns_bind.mp h
      obtain ⟨-, -, rfl, rfl⟩ := returns_ideRead_sector.mp hread
      exact hturn _ (fun _ _ => rfl) h
    · next hnot =>
      obtain ⟨_, _, hpure, h⟩ := returns_bind.mp h
      obtain ⟨rfl, rfl⟩ := returns_pure.mp hpure
      refine hturn _ (fun r hr => ?_) h
      rcases hfirst with hfirst | hzero | hzero
      · exact absurd hfirst hnot
      · omega
      · exact absurd hzero hne

end Writing

/-! ## The whole write -/

/-- The sizes of the inodes in memory are what they were. -/
def SameSizes (s s' : Fs) : Prop :=
  ∀ a v', s'.inodes a = some v' → ∃ v, s.inodes a = some v ∧ v'.iSize = v.iSize

instance : Std.Refl SameSizes := ⟨fun _ _ v hv => ⟨v, hv, rfl⟩⟩

instance : IsTrans Fs SameSizes :=
  ⟨fun _ _ _ h h' a w hw => by
    obtain ⟨u, hu, hsize⟩ := h' a w hw
    obtain ⟨v, hv, hsize'⟩ := h a u hu
    exact ⟨v, hv, hsize.trans hsize'⟩⟩

instance : Calm SameSizes where
  disk _ _ _ v hv := ⟨v, hv, rfl⟩
  inodeMap _ _ _ v hv := ⟨v, hv, rfl⟩
  blockBitmap _ _ _ v hv := ⟨v, hv, rfl⟩
  sector s a k lba v hv b w hw := by
    have hw' : Function.update s.inodes a (some (v.setSector k lba)) b = some w := hw
    by_cases hb : b = a
    · subst hb
      rw [Function.update_self] at hw'
      obtain rfl := Option.some.inj hw'
      exact ⟨v, hv, rfl⟩
    · rw [Function.update_of_ne hb] at hw'
      exact ⟨w, hw', rfl⟩
  refused _ _ v hv := ⟨v, hv, rfl⟩
  served _ _ _ v hv := ⟨v, hv, rfl⟩

/-- The sectors a file occupies. -/
def Inode.Occupies (v : Inode) (disk : Bytes) (lba : Nat) : Prop :=
  lba ≠ 0 ∧ ((∃ k < 140, v.blockAddr disk k = lba) ∨ v.sector 12 = lba)

/-- The `cnt` bytes of `buf` have been put behind the file with inode `v`, which is now `w`; what is not a new
    block and not the one the file ended in is as it was, the index table the file had included. -/
structure FileAppended (s t : Fs) (a : Nat) (v w : Inode) (buf : Bytes) (cnt : Nat) : Prop where
  inode : t.inodes a = some w
  size : w.iSize = v.iSize + cnt
  old : ∀ k < v.iSize, w.byteAt t.disk k = v.byteAt s.disk k
  added : ∀ k < cnt, w.byteAt t.disk (v.iSize + k) = buf k
  map : t.FileMap w
  new : ∀ lba, w.Occupies t.disk lba → ¬ v.Occupies s.disk lba → s.NewBlock t lba
  others : ∀ lba, s.part.sb.dataStartLba ≤ lba → lba ≠ v.blockAddr s.disk (v.iSize / 512) →
    ¬ s.NewBlock t lba → sectorAt t.disk lba = sectorAt s.disk lba

section Appending

variable {s s₁ s₂ t : Fs} {a g cnt n : Nat} {v w : Inode} {allBlocks : Nat → Nat} {buf : Bytes}

/-- The slot of an inode lies in front of the data blocks. -/
theorem returns_inodeSync_data {ioBuf : Nat} {r : Unit} (hl : s.Layout) (h : Returns (inodeSync v ioBuf) s r t) :
    t = { s with disk := t.disk } ∧ SameData s t := by
  obtain ⟨-, -, -, rfl⟩ := returns_inodeSync.mp h
  refine ⟨rfl, fun lba hlba => Bytes.window_splice_disjoint (Or.inr ?_)⟩
  have htable := hl.inodeTable
  have hslot : v.iNo % 256 < 256 := Nat.mod_lt _ (by decide)
  rw [Fs.slotAddr]
  omega

theorem byteAt_eq {disk : Bytes} {k : Nat} :
    v.byteAt disk k = sectorAt disk (v.blockAddr disk (k / 512)) (k % 512) := by
  rw [sectorAt, Bytes.window_apply (Nat.mod_lt _ (by decide))]
  rfl

theorem Fs.HasBlocks.congr {m : Nat} (hb : s.HasBlocks v m) (ht : TakesBlocks s t)
    (haddr : ∀ k < 140, w.blockAddr t.disk k = v.blockAddr s.disk k) (h12 : w.sector 12 = v.sector 12) :
    t.HasBlocks w m := by
  refine ⟨⟨fun k hk h0 => ?_, fun h0 => ?_, fun j hj k hk h0 heq => ?_, fun k hk h0 => ?_⟩, hb.le, fun k hk => ?_, ?_⟩
  · rw [haddr k hk] at h0 ⊢
    exact ht.inUse (hb.inUse k hk h0)
  · rw [h12] at h0 ⊢
    exact ht.inUse (hb.table h0)
  · rw [haddr j hj] at h0 heq
    rw [haddr k hk] at heq
    exact hb.inj j hj k hk h0 heq
  · rw [h12] at h0 ⊢
    rw [haddr k hk]
    exact hb.tableNe k hk h0
  · rw [haddr k hk]
    exact hb.used k hk
  · rw [h12]
    exact hb.indexed

/-- New blocks and the bytes in them make an append. -/
theorem Extended.fileAppended (h : Extended s s₁ a v w n ((v.iSize + cnt) / 512 + 1)) (hmap : s.FileMap v)
    (hn : n = if v.sector 0 = 0 then 0 else v.iSize / 512 + 1)
    (hblocks : ∀ k, v.iSize / 512 ≤ k → k < (v.iSize + cnt) / 512 + 1 → allBlocks k = w.blockAddr s₁.disk k)
    (hbytes : BytesWritten s₁ s₂ a w allBlocks buf 0 cnt) (ht : TakesBlocks s₂ t)
    (hinode : t.inodes a = some { w with iSize := w.iSize + cnt }) (hdata : SameData s₂ t) :
    FileAppended s t a v { w with iSize := w.iSize + cnt } buf cnt := by
  have hle := h.blocks.le
  have hsize : w.iSize = v.iSize := h.ident.1
  have ht₁ : TakesBlocks s₁ t := hbytes.taken.trans ht
  have htaken : TakesBlocks s t := h.taken.trans ht₁
  have hlast {k : Nat} (hk : k < v.iSize) : n = v.iSize / 512 + 1 := by
    rw [hn, if_neg fun h0 => ?_]
    have := hmap.first h0
    omega
  -- the blocks the bytes went to
  have hgoes (k : Nat) (hk : k < cnt) : (v.iSize + k) / 512 < (v.iSize + cnt) / 512 + 1 ∧
      allBlocks ((w.iSize + k) / 512) = w.blockAddr s₁.disk ((v.iSize + k) / 512) := by
    have hlt : (v.iSize + k) / 512 < (v.iSize + cnt) / 512 + 1 :=
      Nat.lt_succ_of_le (Nat.div_le_div_right (by omega))
    refine ⟨hlt, ?_⟩
    rw [hsize]
    exact hblocks _ (Nat.div_le_div_right (Nat.le_add_right _ _)) hlt
  have hdata' {lba : Nat} (hlba : s.part.sb.dataStartLba ≤ lba) : sectorAt t.disk lba = sectorAt s₂.disk lba := by
    refine hdata lba ?_
    rw [hbytes.taken.part, h.taken.part]
    exact hlba
  have haddr (k : Nat) (hk : k < 140) : w.blockAddr t.disk k = w.blockAddr s₁.disk k := by
    by_cases hk12 : k < 12
    · rw [Inode.blockAddr_direct hk12, Inode.blockAddr_direct hk12]
    · refine Inode.blockAddr_congr_indirect (by omega) rfl fun h0 => ?_
      rw [hdata' (h.taken.part ▸ (h.blocks.table h0).ge), hbytes.others _ fun j hj => ?_]
      obtain ⟨hlt, heq⟩ := hgoes j hj
      rw [heq]
      exact (h.blocks.tableNe _ (by omega) h0).symm
  have hold {k : Nat} (hk : k < n) (hlt : k < 140) : s.InUse (v.blockAddr s.disk k) := by
    refine hmap.inUse k hlt ((hmap.hasBlocks.used k hlt).mpr ?_)
    rw [← hn]
    exact hk
  refine ⟨hinode, by rw [hsize], fun k hk => ?_, fun k hk => ?_, ?_, fun lba hlba hno => ?_, fun lba hlba hne hno => ?_⟩
  · -- a byte that was there
    have hn' := hlast hk
    have hdiv : k / 512 ≤ v.iSize / 512 := Nat.div_le_div_right hk.le
    have hlt : k / 512 < 140 := by
      have := Nat.div_le_div_right (c := 512) (Nat.le_add_right v.iSize cnt)
      omega
    have huse := hold (k := k / 512) (by omega) hlt
    have hsame := h.old (k / 512) (by omega)
    rw [byteAt_eq, byteAt_eq]
    change sectorAt t.disk (w.blockAddr t.disk (k / 512)) (k % 512) = _
    rw [haddr _ hlt, hsame, hdata' huse.ge, ← h.data _ huse.ge fun hnew => hnew.ne_inUse huse rfl]
    by_cases hend : k / 512 = v.iSize / 512
    · have hblock := hblocks (v.iSize / 512) le_rfl (Nat.lt_succ_of_le (Nat.div_le_div_right (Nat.le_add_right _ _)))
      rw [← hend] at hblock
      have hkept := hbytes.kept (k % 512) (by rw [hsize]; omega)
      rw [hsize, ← hend, hblock, hsame] at hkept
      exact hkept
    · rw [hbytes.others _ fun j hj heq => ?_]
      obtain ⟨hjlt, hj'⟩ := hgoes j hj
      rw [hj', ← hsame] at heq
      have h0 : w.blockAddr s₁.disk (k / 512) ≠ 0 := (h.blocks.used _ hlt).mpr (by omega)
      have hidx := h.blocks.inj _ hlt _ (by omega) h0 heq
      have hge : v.iSize / 512 ≤ (v.iSize + j) / 512 := Nat.div_le_div_right (Nat.le_add_right _ _)
      omega
  · -- a byte of the buffer
    obtain ⟨hlt, heq⟩ := hgoes k hk
    have hlt' : (v.iSize + k) / 512 < 140 := by omega
    have hge := (h.blocks.inUse _ hlt' ((h.blocks.used _ hlt').mpr hlt)).ge
    have hbyte := hbytes.bytes k hk
    rw [heq, hsize, Nat.zero_add] at hbyte
    rw [byteAt_eq]
    change sectorAt t.disk (w.blockAddr t.disk _) _ = _
    rw [haddr _ hlt', hdata' (h.taken.part ▸ hge), hbyte]
  · apply Fs.HasBlocks.fileMap
    show t.HasBlocks _ ((w.iSize + cnt) / 512 + 1)
    rw [hsize]
    exact h.blocks.congr ht₁ haddr rfl
  · obtain ⟨h0, ⟨k, hk, hlba⟩ | hlba⟩ := hlba
    · change w.blockAddr t.disk k = lba at hlba
      rw [haddr k hk] at hlba
      have hkm := (h.blocks.used k hk).mp (by rw [hlba]; exact h0)
      by_cases hkn : k < n
      · exact absurd ⟨h0, Or.inl ⟨k, hk, (h.old k hkn).symm.trans hlba⟩⟩ hno
      · rw [← hlba]
        exact (h.new k (by omega) hkm).after ht₁
    · change w.sector 12 = lba at hlba
      rcases h.table with heq | hnew
      · exact absurd ⟨h0, Or.inr (heq.symm.trans hlba)⟩ hno
      · rw [← hlba]
        exact hnew.after ht₁
  · rw [hdata' hlba, hbytes.others lba fun k hk heq => ?_, h.data lba hlba fun hnew => hno (hnew.after ht₁)]
    obtain ⟨hlt, heq'⟩ := hgoes k hk
    rw [heq'] at heq
    by_cases hkn : (v.iSize + k) / 512 < n
    · -- the block the file ended in
      have hidx : (v.iSize + k) / 512 = v.iSize / 512 := by
        have hge : v.iSize / 512 ≤ (v.iSize + k) / 512 := Nat.div_le_div_right (Nat.le_add_right _ _)
        split at hn <;> omega
      rw [h.old _ hkn, hidx] at heq
      exact hne heq
    · exact hno (heq ▸ (h.new _ (by omega) hlt).after ht₁)

theorem Fs.FileMap.of_heap (hmap : s.FileMap v) (ht : t = { s with heap := t.heap }) : t.FileMap v := by
  rw [ht]
  exact ⟨⟨hmap.inUse, hmap.table, hmap.inj, hmap.tableNe⟩, hmap.size, hmap.first, hmap.used, hmap.indexed⟩

/-- The memory `file_write` asks for is no part of this. -/
theorem FileAppended.of_heap (h : FileAppended s₁ t a v w buf cnt) (hs : s₁ = { s with heap := s₁.heap }) :
    FileAppended s t a v w buf cnt := by
  rw [hs] at h
  exact ⟨h.inode, h.size, h.old, h.added, h.map, h.new, h.others⟩

/-- The data loop of `file_write` stays in the blocks of a file. -/
theorem fileWriteLoop_bound (hv : s.inodes a = some v) (hpos : (s.fileTable g).fdPos < 2 ^ 32)
    (h : Returns (fileWriteLoop g a allBlocks buf cnt 0 cnt true) s () t) : cnt ≠ 0 → v.iSize + cnt ≤ 512 * 140 :=
  fun hne => (fileWriteLoop_written le_rfl hpos h).bound hne v hv

/-- Whatever `file_write` returns but -1, it has appended its bytes, to a file in one sector of the inode table whose
    index table it did not have to extend. -/
theorem fileWrite_appended {r : Int} (hd : s.OnDisk) (ha : (s.fileTable g).fdInode = some a) (hv : s.inodes a = some v)
    (hmap : s.FileMap v) (hr : r ≠ -1) (h : Returns (fileWrite g buf cnt) s r t) : (∃ w, FileAppended s t a v w buf cnt) ∧
      v.iSize + cnt < 512 * 140 ∧ (v.iSize / 512 < 12 ∨ (v.iSize + cnt) / 512 = v.iSize / 512) ∧
        ¬ Straddles (v.iNo % 256) := by
  simp only [fileWrite, returns_bind (x := query _), returns_query, returns_bind (x := deref _), returns_deref,
    returns_bind (x := getInode _), returns_getInode, id_eq] at h
  obtain ⟨_, _, ⟨rfl, rfl⟩, a', _, ⟨ha', rfl⟩, v', _, ⟨hv', rfl⟩, h⟩ := h
  obtain rfl := Option.some.inj (ha.symm.trans ha')
  obtain rfl := Option.some.inj (hv.symm.trans hv')
  have hfail {t' : Fs} (h : Returns (pure (-1 : Int)) t' r t) : False := hr (returns_pure.mp h).1.symm
  split at h
  · exact (hfail h).elim
  obtain ⟨ioBuf, s₁, hmalloc, h⟩ := returns_bind.mp h
  split at h
  · exact (hfail h).elim
  obtain ⟨allBlocksMem, s₂, hmalloc', h⟩ := returns_bind.mp h
  split at h
  · exact (hfail h).elim
  have hs₂ : s₂ = { s with heap := s₂.heap } := by
    rw [(returns_sysMalloc hmalloc').1, (returns_sysMalloc hmalloc).1]
  have ht₂ : TakesBlocks s s₂ := .of_eq (by rw [hs₂]) (by rw [hs₂]) (by rw [hs₂])
  have hd₂ := ht₂.onDisk hd
  have hv₂ : s₂.inodes a = some v := by
    rw [hs₂]
    exact hv
  have hmap₂ := hmap.of_heap hs₂
  obtain ⟨s₃, w, hfirst, h⟩ := fileFirstBlock_extended (by rw [hs₂]) hd₂ hv₂ hmap₂ h
  rw [if_neg (by decide)] at h
  obtain ⟨_, _, hassert, h⟩ := returns_bind.mp h
  obtain ⟨hwill, rfl⟩ := (returns_assert _ _).mp hassert
  obtain ⟨blocks, s₄, hcollect, h⟩ := returns_bind.mp h
  cases blocks with
  | none => exact (hfail h).elim
  | some allBlocks =>
    dsimp only at h
    simp only [returns_bind (x := query _), returns_query, putFile] at h
    obtain ⟨_, _, ⟨rfl, rfl⟩, h⟩ := h
    obtain ⟨_, s₅, hput, h⟩ := returns_bind.mp h
    obtain ⟨_, s₆, hloop, h⟩ := returns_bind.mp h
    obtain ⟨u, _, hget, h⟩ := returns_bind.mp h
    obtain ⟨hu, rfl⟩ := returns_getInode.mp hget
    obtain ⟨_, s₇, hsync, h⟩ := returns_bind.mp h
    obtain ⟨_, s₈, hfree, h⟩ := returns_bind.mp h
    obtain ⟨_, s₉, hfree', h⟩ := returns_bind.mp h
    obtain ⟨-, rfl⟩ := returns_pure.mp h
    have hs₅ := ((returns_update _ _).mp hput).symm
    -- the loop came to an end, so the sum did not wrap around
    obtain ⟨w₁, hw₁, -⟩ := (keeps_fileCollectBlocks (R := CacheFrame) hcollect).ident_some hfirst.inode
    obtain ⟨w₂, hw₂, hsize₁⟩ := keeps_fileCollectBlocks (R := SameSizes) hcollect a w₁ hw₁
    obtain rfl := Option.some.inj (hfirst.inode.symm.trans hw₂)
    rw [hfirst.ident.1] at hsize₁
    have hpos : (s₅.fileTable g).fdPos < 2 ^ 32 := by
      rw [hs₅]
      show (Function.update s₄.fileTable g _ g).fdPos < 2 ^ 32
      rw [Function.update_self]
      exact Nat.mod_lt _ (by decide)
    have hw₅ : s₅.inodes a = some w₁ := by
      rw [hs₅]
      exact hw₁
    have hbound := fileWriteLoop_bound hw₅ hpos hloop
    have hsize := hmap.size
    have hsum : (v.iSize + cnt) % 2 ^ 32 = v.iSize + cnt := Nat.mod_eq_of_lt (by omega)
    rw [hsum] at hwill hcollect
    have hlt : v.iSize + cnt < 512 * 140 := by omega
    obtain ⟨hone, x, hext, hblocks⟩ := fileCollectBlocks_extended (hfirst.taken.onDisk hd₂) hfirst.inode hfirst.blocks
      (Nat.succ_le_succ (Nat.div_le_div_right (Nat.le_add_right _ _))) hwill hcollect
    have htotal := hfirst.trans hext (by split <;> omega)
    obtain rfl := Option.some.inj (hext.inode.symm.trans hw₁)
    have hdiff : DifferentBlocks allBlocks x.iSize cnt := by
      intro j hj k hk heq
      rw [hsize₁] at heq ⊢
      have hidx {i : Nat} (hi : i < cnt) :
          v.iSize / 512 ≤ (v.iSize + i) / 512 ∧ (v.iSize + i) / 512 < (v.iSize + cnt) / 512 + 1 := by omega
      rw [hblocks _ (hidx hj).1 (hidx hj).2, hblocks _ (hidx hk).1 (hidx hk).2] at heq
      have hlt₁ : (v.iSize + j) / 512 < 140 := by omega
      have hlt₂ : (v.iSize + k) / 512 < 140 := by omega
      exact htotal.blocks.inj _ hlt₁ _ hlt₂ ((htotal.blocks.used _ hlt₁).mpr (hidx hj).2) heq
    have hloop' := fileWriteLoop_bytes le_rfl hw₅ (Or.inl rfl) (by omega) hdiff hloop
    have hbytes : BytesWritten s₄ s₆ a x allBlocks buf 0 cnt := by
      rw [hs₅] at hloop'
      obtain ⟨htaken, hbitmap, hinode, hwritten, hkept, hothers⟩ := hloop'
      exact ⟨⟨htaken.part, htaken.inodeMap, htaken.size, htaken.bits⟩, hbitmap, hinode, hwritten, hkept, hothers⟩
    obtain rfl := Option.some.inj (hbytes.inode.symm.trans hu)
    -- the inode goes to the table, which lies in front of the data blocks
    have hd₆ := hbytes.taken.onDisk (htotal.taken.onDisk hd₂)
    obtain ⟨hs₇, hdata⟩ := returns_inodeSync_data hd₆.toLayout hsync
    have hs₉ : s₉ = { s₇ with heap := s₉.heap } := by rw [(returns_sysFree hfree').1, (returns_sysFree hfree).1]
    have ht₉ : TakesBlocks s₆ s₉ := .of_eq (by rw [hs₉, hs₇]) (by rw [hs₉, hs₇]) (by rw [hs₉, hs₇])
    have happ := htotal.fileAppended hmap₂ rfl hblocks hbytes ht₉ (by rw [hs₉, hs₇]; exact hbytes.inode)
      (fun lba hlba => by rw [hs₉]; exact hdata lba hlba)
    refine ⟨⟨_, happ.of_heap hs₂⟩, hlt, ?_, fun hstraddles => ?_⟩
    · rcases hone with hone | hone
      · exact Or.inl hone
      · exact Or.inr (Nat.succ.inj hone)
    · obtain ⟨-, hsecs, -⟩ := returns_inodeSync.mp hsync
      have hno : x.iNo = v.iNo := htotal.ident.2
      rw [InodePos.secs, Fs.inodePos, if_pos] at hsecs
      · omega
      · rw [Straddles] at hstraddles
        show decide (512 - x.iNo % 256 * 76 % 512 < 76) = true
        rw [hno]
        exact decide_eq_true (by omega)

end Appending

/-- A write that returns `cnt` has put the `cnt` bytes behind those that were there, in blocks that were free
    before, and has left the other data sectors alone. -/
theorem fileWrite_appends (s t : Fs) (g a : Nat) (v : Inode) (buf : Bytes) (cnt : Nat) (hd : s.OnDisk)
    (ha : (s.fileTable g).fdInode = some a) (hv : s.inodes a = some v) (hmap : s.FileMap v)
    (h : Returns (fileWrite g buf cnt) s cnt t) : ∃ w, FileAppended s t a v w buf cnt :=
  (fileWrite_appended hd ha hv hmap (by omega) h).1

/-! ## What is accepted -/

/-- The blocks a file lacks for `cnt` more bytes: its first one, those behind the one it ends in, and the index
    table. -/
def Inode.newBlocks (v : Inode) (cnt : Nat) : Nat :=
  (if v.sector 0 = 0 then 1 else 0) + ((v.iSize + cnt) / 512 - v.iSize / 512) +
    (if v.sector 12 = 0 ∧ 12 ≤ (v.iSize + cnt) / 512 then 1 else 0)

/-- `file_write` takes `cnt` more bytes: the file stays below 140 blocks, its index table is not extended, and its
    inode lies in one sector. -/
def Inode.Takes (v : Inode) (cnt : Nat) : Prop :=
  v.iSize + cnt < 140 * 512 ∧ (v.iSize / 512 < 12 ∨ (v.iSize + cnt) / 512 = v.iSize / 512) ∧
    ¬ Straddles (v.iNo % 256)

instance (v : Inode) (cnt : Nat) : Decidable (v.Takes cnt) := inferInstanceAs (Decidable (_ ∧ _))

section Accepting

variable {s t : Fs} {a g cnt : Nat} {v : Inode} {buf : Bytes}

theorem Fs.FileMap.appendable (h : s.FileMap v) : v.Appendable s.disk v.iSize where
  first := by
    intro h0
    have := h.first h0
    omega
  direct := by
    intro j hj
    rw [← Inode.blockAddr_direct hj]
    exact h.le_maxLba (by omega)
  last := by
    intro hpos hlt
    rw [← Inode.blockAddr_direct hlt]
    refine (h.used _ (by omega)).mpr ⟨fun h0 => ?_, le_rfl⟩
    have := h.first h0
    omega
  missing := by
    intro j h₁ h₂
    by_cases hj : j = 12
    · subst hj
      by_contra hne
      have := h.indexed.mp hne
      omega
    · rw [← Inode.blockAddr_direct (show j < 12 by omega)]
      by_contra hne
      have := ((h.used j (by omega)).mp hne).2
      omega
  table := by
    intro hle
    have hne := h.indexed.mpr hle
    refine ⟨hne, h.table_le, fun j hj => ?_⟩
    rw [fileTableBlocks]
    split
    · exact Nat.zero_le _
    · next hj12 =>
      have haddr := h.le_maxLba hj
      rw [Inode.blockAddr_indirect (by omega) hne] at haddr
      exact haddr

theorem Fs.OnDisk.room {k : Nat} (hd : s.OnDisk) (hfree : k ≤ s.blockBitmap.freeCount) : s.Room k := by
  have hdata := hd.data
  have hpos := hd.nonempty.1
  refine ⟨hd.data_pos, hdata, fun i hi => ?_, hfree⟩
  have := hd.blockBitmap_lt_data hi
  omega

/-- Where the file takes the bytes, and there are blocks and memory, they are written. -/
theorem fileWrite_returns (hd : s.OnDisk) (htable : s.TableFits) (ha : (s.fileTable g).fdInode = some a)
    (hv : s.inodes a = some v) (hmap : s.FileMap v) (hroom : v.newBlocks cnt ≤ s.blockBitmap.freeCount)
    (hmem : s.HasMemory 2) (htakes : v.Takes cnt) : ∃ t, Returns (fileWrite g buf cnt) s (cnt : Int) t := by
  obtain ⟨hlt, hone, hstraddles⟩ := htakes
  have hneeded : blocksNeeded (v.iSize / 512) ((v.iSize + cnt) / 512) + (if v.sector 0 = 0 then 1 else 0) ≤
      v.newBlocks cnt := by
    have hindexed : v.iSize / 512 < 12 → v.sector 12 = 0 := by
      intro hlt12
      by_contra hne
      have := hmap.indexed.mp hne
      omega
    unfold blocksNeeded Inode.newBlocks
    by_cases hlt12 : v.iSize / 512 < 12
    · rw [if_pos hlt12]
      simp only [hindexed hlt12, true_and]
      omega
    · rw [if_neg hlt12]
      split <;> omega
  have happ : s.Appends v cnt := ⟨by omega, hmap.appendable, hd.room (hneeded.trans hroom), htable, fun _ => hstraddles⟩
  obtain ⟨s₁, h₁, hmem₁, e₁⟩ := sysMalloc_returns hmem
  obtain ⟨s₂, h₂, -, e₂⟩ := sysMalloc_returns hmem₁
  have hheap : s₂ = { s with heap := s₂.heap } := by rw [e₂, e₁]
  obtain ⟨t, hret⟩ := fileWrite_outcome (g := g) (p := s.heap.next) (q := s₁.heap.next) (h := s₂.heap) hv
    happ
  rw [if_pos hone] at hret
  refine ⟨t, ?_⟩
  rw [fileWrite]
  refine returns_bind.mpr ⟨s, s, (returns_query _).mpr ⟨rfl, rfl⟩, ?_⟩
  refine returns_bind.mpr ⟨a, s, (returns_deref _).mpr ⟨ha, rfl⟩, ?_⟩
  refine returns_bind.mpr ⟨v, s, returns_getInode.mpr ⟨hv, rfl⟩, ?_⟩
  rw [if_neg (by omega)]
  refine returns_bind.mpr ⟨_, s₁, h₁, ?_⟩
  rw [if_neg (Option.some_ne_none _)]
  refine returns_bind.mpr ⟨_, s₂, h₂, ?_⟩
  rw [if_neg (Option.some_ne_none _), hheap]
  exact hret

end Accepting

/-- With free blocks and memory, `file_write` accepts what stays below 140 blocks and needs no more of the index
    table, for a file whose inode lies in one sector. -/
theorem fileWrite_accepts_iff (s : Fs) (g a : Nat) (v : Inode) (buf : Bytes) (cnt : Nat) (hd : s.OnDisk)
    (htable : s.TableFits) (ha : (s.fileTable g).fdInode = some a) (hv : s.inodes a = some v) (hmap : s.FileMap v)
    (hroom : v.newBlocks cnt ≤ s.blockBitmap.freeCount) (hmem : s.HasMemory 2) :
    (∃ t, Returns (fileWrite g buf cnt) s (cnt : Int) t) ↔ v.Takes cnt := by
  constructor
  · rintro ⟨t, hret⟩
    obtain ⟨-, hlt, hone, hstraddles⟩ := fileWrite_appended hd ha hv hmap (by omega) hret
    exact ⟨by omega, hone, hstraddles⟩
  · exact fileWrite_returns hd htable ha hv hmap hroom hmem

namespace TwoBlockFile

theorem onDisk : fs.OnDisk where
  entrySize := rfl
  blockBitmap := by
    show ∀ i < 32, 2 + i / 4096 < 3
    intro i hi
    omega
  inodeBitmap := by
    show ∀ i < 8, 3 + i / 4096 < 4
    intro i hi
    omega
  inodeTable := by
    show 4 + 608 ≤ 1000
    decide
  nonempty := by
    show 0 < 32 ∧ 0 < 8
    decide
  data := by
    show 1000 + 32 ≤ maxLba + 1
    decide

theorem tableFits : fs.TableFits where
  onDisk := by
    show 4 + 607 ≤ maxLba
    decide
  inPart := by
    show 4 + 607 ≤ 0 + 4096
    decide

theorem room : inode.newBlocks 3 ≤ fs.blockBitmap.freeCount := by decide +kernel

end TwoBlockFile

/-- Three bytes behind a file of 1000. -/
theorem fileWrite_accepts_three : ∃ t, Returns (fileWrite 3 Bytes.zero 3) TwoBlockFile.fs 3 t :=
  (fileWrite_accepts_iff TwoBlockFile.fs 3 0 TwoBlockFile.inode Bytes.zero 3 TwoBlockFile.onDisk TwoBlockFile.tableFits
    rfl rfl TwoBlockFile.fileMap TwoBlockFile.room TwoBlockFile.hasMemory).mpr (by decide)

theorem fileWrite_appends_three : ∃ t w, Returns (fileWrite 3 Bytes.zero 3) TwoBlockFile.fs 3 t ∧
    FileAppended TwoBlockFile.fs t 0 TwoBlockFile.inode w Bytes.zero 3 := by
  obtain ⟨t, hret⟩ := fileWrite_returns (g := 3) TwoBlockFile.onDisk
    TwoBlockFile.tableFits rfl rfl TwoBlockFile.fileMap TwoBlockFile.room TwoBlockFile.hasMemory (by decide)
  obtain ⟨w, happ⟩ := fileWrite_appends TwoBlockFile.fs t 3 0 TwoBlockFile.inode Bytes.zero 3 TwoBlockFile.onDisk rfl rfl
    TwoBlockFile.fileMap hret
  exact ⟨t, w, hret, happ⟩

namespace IndexedFile

/-- The index table in sector 1013 leads to block 12 of the file in sector 1012. -/
def disk : Bytes := fun a => if a / 512 = 1013 ∧ a % 512 < 4 then Bytes.wordByte 1012 (a % 512) else 0

/-- A file of 6600 bytes in the sectors from 1000 on. -/
def inode : Inode where
  iNo := 1
  iSize := 6600
  iOpenCnt := 1
  writeDeny := false
  iSectors := fun k => if k.val < 12 then 1000 + k else 1013

/-- The file is open in slot 3, and 18 blocks are free. -/
def fs : Fs :=
  { TwoBlockFile.fs with
    disk := disk
    blockBitmap := { btmpBytesLen := 4, bit := fun i => i < 14 }
    inodes := fun a => if a = 0 then some inode else none }

theorem blockAddr_eq : ∀ k < 140, inode.blockAddr disk k = if k < 13 then 1000 + k else 0 := by decide +kernel

theorem inUse {k : Nat} (hk : k < 14) : fs.InUse (1000 + k) := by
  have hmax : 1013 ≤ maxLba := by decide
  exact ⟨by omega, k, show k < 32 by omega, decide_eq_true hk, rfl⟩

theorem fileMap : fs.FileMap inode :=
  .of_row (n := 13) (by decide) (by decide) rfl blockAddr_eq (fun _ _ => inUse (by omega))
    (Or.inr ⟨rfl, by decide, inUse (by decide)⟩)

theorem onDisk : fs.OnDisk :=
  have h := TwoBlockFile.onDisk
  ⟨⟨h.entrySize, h.blockBitmap, h.inodeBitmap, h.inodeTable, h.nonempty⟩, h.data⟩

theorem tableFits : fs.TableFits := ⟨TwoBlockFile.tableFits.onDisk, TwoBlockFile.tableFits.inPart⟩

theorem hasMemory : fs.HasMemory 2 := ⟨⟨_, rfl⟩, fun _ _ => rfl⟩

theorem room : inode.newBlocks 100 ≤ fs.blockBitmap.freeCount := by decide +kernel

end IndexedFile

/-- A hundred bytes behind a file of 6600, for which the index table would get a second entry. -/
theorem fileWrite_refuses_indirect : ∃ (s : Fs) (g a : Nat) (v : Inode) (cnt : Nat), s.OnDisk ∧ s.TableFits ∧
    (s.fileTable g).fdInode = some a ∧ s.inodes a = some v ∧ s.FileMap v ∧ v.iSize + cnt ≤ 140 * 512 ∧
      v.newBlocks cnt ≤ s.blockBitmap.freeCount ∧ s.HasMemory 2 ∧
        ¬ ∃ t, Returns (fileWrite g Bytes.zero cnt) s (cnt : Int) t := by
  refine ⟨IndexedFile.fs, 3, 0, IndexedFile.inode, 100, IndexedFile.onDisk, IndexedFile.tableFits, rfl, rfl,
    IndexedFile.fileMap, by decide, IndexedFile.room, IndexedFile.hasMemory, ?_⟩
  rintro ⟨t, hret⟩
  obtain ⟨-, -, hone, -⟩ := fileWrite_appended IndexedFile.onDisk (a := 0) rfl rfl IndexedFile.fileMap (by decide) hret
  exact absurd hone (by decide)

end ZxyOs
