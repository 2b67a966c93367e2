/-
  ZxyOs.Fs.FormatLayout

  The layout `partition_format` computes, in the arithmetic of `uint32_t`, and the block
  bitmap it writes.

  The number of blocks is what is left after a first estimate of the size of the bitmap; the
  size of the bitmap is then computed again from the number of blocks.  The loop that clears
  the valid bits of the last byte clears one bit more than there are blocks.  So the bitmap
  is right where the second size is smaller than the estimate by one sector, which gives the
  partition one block more.
-/

import ZxyOs.Fs.Format
import Mathlib.Order.Interval.Set.Basic
import Mathlib.Order.Disjoint
import Mathlib.Data.Set.Lattice
import Mathlib.Order.CompletePartialOrder

namespace ZxyOs

open Lib Lib.Exec

/-! ## Sizes -/

/-- `DIV_ROUND_UP` of `uint32_t` values. -/
def divRoundUp32 (x step : Nat) : Nat := (x + step - 1) % 2 ^ 32 / step

/-- The first value of `block_bitmap_secs`. -/
def bitmapSecsEstimate (secCnt : Nat) : Nat := divRoundUp32 (freeSecs secCnt) 4096

/-- `block_bitmap_bit_len`. -/
def bitLen32 (secCnt : Nat) : Nat := (freeSecs secCnt + (2 ^ 32 - bitmapSecsEstimate secCnt)) % 2 ^ 32

/-- The final value of `block_bitmap_secs`. -/
def bitmapSecs32 (secCnt : Nat) : Nat := divRoundUp32 (bitLen32 secCnt) 4096

/-- The super block of `partition_format`, in `uint32_t` arithmetic. -/
def formatSuperBlock32 (startLba secCnt : Nat) : SuperBlock :=
  let blockBitmapLba := (startLba + 2) % 2 ^ 32
  let inodeBitmapLba := (blockBitmapLba + bitmapSecs32 secCnt) % 2 ^ 32
  let inodeTableLba := (inodeBitmapLba + divRoundUp32 4096 4096) % 2 ^ 32
  { magic := 0x19590318
    secCnt := secCnt
    inodeCnt := 4096
    partLbaBase := startLba
    blockBitmapLba := blockBitmapLba
    blockBitmapSecs := bitmapSecs32 secCnt
    inodeBitmapLba := inodeBitmapLba
    inodeBitmapSecs := divRoundUp32 4096 4096
    inodeTableLba := inodeTableLba
    inodeTableSecs := divRoundUp32 (76 * 4096) 512
    dataStartLba := (inodeTableLba + divRoundUp32 (76 * 4096) 512) % 2 ^ 32
    rootInodeNo := 0
    dirEntrySize := 24 }

/-- `buf_size`. -/
def formatBufSize (sb : SuperBlock) : Nat :=
  let bufSize := if sb.blockBitmapSecs ≥ sb.inodeBitmapSecs then sb.blockBitmapSecs else sb.inodeBitmapSecs
  let bufSize := if bufSize ≥ sb.inodeTableSecs then bufSize else sb.inodeTableSecs
  bufSize * 512 % 2 ^ 32

/-- The stores into `buf`, as offsets and sizes, in the order of the program. -/
def formatStores (sb : SuperBlock) (bitLen : Nat) : List (Nat × Nat) :=
  let lastByte := bitLen / 8
  [
    -- `buf[0] |= 0x01`, the `memset` behind the last block, the loop on the last byte
    (0, 1), (lastByte, 512 - lastByte % 512), (lastByte, 1),
    -- the bitmap of the inodes
    (0, formatBufSize sb), (0, 1),
    -- the inode of the root
    (0, formatBufSize sb), (0, 76),
    -- its two entries
    (0, formatBufSize sb), (0, 24), (24, 24)]

/-- Bit `b` of the block bitmap that is written. -/
def formatBit (secCnt b : Nat) : Bool :=
  (Bitmap.ofBytes (formatBlockBitmap (bitLen32 secCnt)) (512 * bitmapSecs32 secCnt)).bit b

/-- The sectors of the block bitmap, the bitmap of the inodes, the inode table and the data. -/
def formatAreas (startLba secCnt : Nat) : List (Set Nat) :=
  let sb := formatSuperBlock32 startLba secCnt
  [Set.Ico sb.blockBitmapLba (sb.blockBitmapLba + sb.blockBitmapSecs),
    Set.Ico sb.inodeBitmapLba (sb.inodeBitmapLba + sb.inodeBitmapSecs),
    Set.Ico sb.inodeTableLba (sb.inodeTableLba + sb.inodeTableSecs),
    Set.Ico sb.dataStartLba (startLba + secCnt)]

/-- Formatting the partition at `startLba` with `secCnt` sectors yields a sound layout. -/
structure FormatSound (startLba secCnt : Nat) : Prop where
  disjoint : (formatAreas startLba secCnt).Pairwise Disjoint
  inside : ∀ A ∈ formatAreas startLba secCnt, A ⊆ Set.Ico startLba (startLba + secCnt)
  inBuffer : ∀ w ∈ formatStores (formatSuperBlock32 startLba secCnt) (bitLen32 secCnt),
    w.1 + w.2 ≤ formatBufSize (formatSuperBlock32 startLba secCnt)
  bits : ∀ b < 4096 * bitmapSecs32 secCnt, formatBit secCnt b = false ↔
    b ≠ 0 ∧ (formatSuperBlock32 startLba secCnt).dataStartLba + b ∈
      Set.Ico (formatSuperBlock32 startLba secCnt).dataStartLba (startLba + secCnt)

/-! ## The bits that are written -/

/-- The loop on a byte. -/
def clearBits : Nat → Nat → UInt8 → UInt8
  | 0, _, x => x
  | n + 1, bitIdx, x => clearBits n (bitIdx + 1) (x &&& ~~~(1 <<< UInt8.ofNat bitIdx))

theorem clearLastByte_apply (last n j : Nat) (buf : Bytes) (k : Nat) :
    clearLastByte last n j buf k = if k = last then clearBits n j (buf last) else buf k := by
  induction n generalizing j buf with
  | zero =>
    rw [clearLastByte]
    split
    · next h =>
      rw [h]
      rfl
    · rfl
  | succ n ih =>
    rw [clearLastByte, ih, clearBits]
    by_cases hk : k = last
    · rw [if_pos hk, if_pos hk, Function.update_self]
    · rw [if_neg hk, if_neg hk, Function.update_of_ne hk]

/-- The first `n` bits of a full byte have been cleared. -/
theorem testBit_clearBits : ∀ n < 9, ∀ t < 8, (clearBits n 0 0xff).toNat.testBit t = decide (n ≤ t) := by
  decide

/-- Up to the end of the sector of bit `bitLen`, what is set is bit 0, unless it is in the
    last byte, and what lies behind bit `bitLen`. -/
theorem formatBlockBitmap_bit {bitLen len b : Nat} (hb : b < 4096 * (bitLen / 4096 + 1)) :
    (Bitmap.ofBytes (formatBlockBitmap bitLen) len).bit b = decide (b = 0 ∧ 8 ≤ bitLen ∨ bitLen < b) := by
  have hbyte : (Bitmap.ofBytes (formatBlockBitmap bitLen) len).bit b =
      (formatBlockBitmap bitLen (b / 8)).toNat.testBit (b % 8) := rfl
  rw [hbyte, formatBlockBitmap, clearLastByte_apply]
  split
  · next hlast =>
    -- the last byte
    rw [Bytes.splice_inside le_rfl (by omega), testBit_clearBits _ (by omega) _ (by omega)]
    apply decide_eq_decide.mpr
    omega
  · next hne =>
    rcases Nat.lt_or_ge (b / 8) (bitLen / 8) with hlt | hge
    · rw [Bytes.splice_outside (Or.inl hlt)]
      by_cases h0 : b / 8 = 0
      · -- bit 0 has been set first
        have hfirst : firstBitSet (b / 8) = 1 := by
          rw [h0]
          rfl
        have hone : ∀ t < 8, (1 : UInt8).toNat.testBit t = decide (t = 0) := by decide
        rw [hfirst, hone _ (by omega)]
        apply decide_eq_decide.mpr
        omega
      · have hzero : firstBitSet (b / 8) = 0 := Function.update_of_ne h0 _ _
        rw [hzero, show (0 : UInt8).toNat = 0 from rfl, Nat.zero_testBit]
        symm
        apply decide_eq_false
        omega
    · have hfull : ∀ t < 8, (0xff : UInt8).toNat.testBit t = true := by decide
      rw [Bytes.splice_inside hge (by omega), hfull _ (by omega)]
      symm
      apply decide_eq_true
      omega

/-! ## The sizes that are computed -/

section Sizes

variable {startLba secCnt : Nat}

theorem freeSecs_eq (h : 611 ≤ secCnt) (h' : secCnt < 2 ^ 32) : freeSecs secCnt = secCnt - 611 := by
  have hused : usedSecs = 611 := by decide
  rw [freeSecs, hused]
  omega

/-- Where the rounding does not wrap around. -/
theorem sizes_eq (h : 613 ≤ secCnt) (h' : secCnt + 3484 < 2 ^ 32) :
    bitLen32 secCnt = (secCnt - 612) - (secCnt - 612) / 4096 ∧
      bitmapSecs32 secCnt = ((secCnt - 612) - (secCnt - 612) / 4096 + 4095) / 4096 := by
  have hest : bitmapSecsEstimate secCnt = (secCnt - 612) / 4096 + 1 := by
    rw [bitmapSecsEstimate, divRoundUp32, freeSecs_eq (by omega) (by omega)]
    omega
  have hlen : bitLen32 secCnt = (secCnt - 612) - (secCnt - 612) / 4096 := by
    rw [bitLen32, hest, freeSecs_eq (by omega) (by omega)]
    omega
  refine ⟨hlen, ?_⟩
  rw [bitmapSecs32, divRoundUp32, hlen]
  omega

/-- Where it does, the bitmap has no sector, and room for all blocks is claimed. -/
theorem sizes_wrapped (h : 2 ^ 32 ≤ secCnt + 3484) (h' : secCnt < 2 ^ 32) :
    bitLen32 secCnt = secCnt - 611 ∧ bitmapSecs32 secCnt = 0 := by
  have hest : bitmapSecsEstimate secCnt = 0 := by
    rw [bitmapSecsEstimate, divRoundUp32, freeSecs_eq (by omega) (by omega)]
    omega
  have hlen : bitLen32 secCnt = secCnt - 611 := by
    rw [bitLen32, hest, freeSecs_eq (by omega) (by omega)]
    omega
  refine ⟨hlen, ?_⟩
  rw [bitmapSecs32, divRoundUp32, hlen]
  omega

/-- The addresses of the areas, one behind the other. -/
structure AreasAt (startLba secs : Nat) (sb : SuperBlock) : Prop where
  blockBitmapLba : sb.blockBitmapLba = startLba + 2
  blockBitmapSecs : sb.blockBitmapSecs = secs
  inodeBitmapLba : sb.inodeBitmapLba = startLba + 2 + secs
  inodeBitmapSecs : sb.inodeBitmapSecs = 1
  inodeTableLba : sb.inodeTableLba = startLba + 3 + secs
  inodeTableSecs : sb.inodeTableSecs = 608
  dataStartLba : sb.dataStartLba = startLba + 611 + secs

theorem areasAt_format (h : startLba + 611 + bitmapSecs32 secCnt < 2 ^ 32) :
    AreasAt startLba (bitmapSecs32 secCnt) (formatSuperBlock32 startLba secCnt) := by
  have hone : divRoundUp32 4096 4096 = 1 := by decide
  have htable : divRoundUp32 (76 * 4096) 512 = 608 := by decide
  constructor <;> simp only [formatSuperBlock32, hone, htable] <;> omega

/-- In the sizes of real disks this is the super block of `partition_format` without
    overflow. -/
theorem formatSuperBlock32_eq (hpart : startLba + secCnt < 2 ^ 32) (h : 613 ≤ secCnt) (h' : secCnt + 3484 < 2 ^ 32) :
    formatSuperBlock32 startLba secCnt = formatSuperBlock startLba secCnt := by
  have hsecs := (sizes_eq h h').2
  have hlen : blockBitmapBitLen secCnt = (secCnt - 612) - (secCnt - 612) / 4096 := by
    rw [blockBitmapBitLen, freeSecs_eq (by omega) (by omega), divRoundUp]
    omega
  have hsecs' : divRoundUp (blockBitmapBitLen secCnt) 4096 = bitmapSecs32 secCnt := by
    rw [hsecs, hlen, divRoundUp]
    rfl
  have hone : divRoundUp32 4096 4096 = 1 := by decide
  have htable : divRoundUp32 (76 * 4096) 512 = 608 := by decide
  have hone' : divRoundUp 4096 4096 = 1 := by decide
  have htable' : divRoundUp (76 * 4096) 512 = 608 := by decide
  have hbound : startLba + 611 + bitmapSecs32 secCnt < 2 ^ 32 := by
    rw [hsecs]
    omega
  simp only [formatSuperBlock32, formatSuperBlock, hsecs', hone, htable, hone', htable', SuperBlock.mk.injEq, true_and,
    and_true]
  omega

/-! ## Sound layouts -/

theorem disjoint_Ico {a b c d : Nat} (h : b ≤ c) : Disjoint (Set.Ico a b) (Set.Ico c d) := by
  rw [Set.disjoint_left]
  intro x hx hx'
  rw [Set.mem_Ico] at hx hx'
  omega

/-- The areas lie one behind the other, inside the partition. -/
theorem areas_sound (h : AreasAt startLba (bitmapSecs32 secCnt) (formatSuperBlock32 startLba secCnt))
    (hdata : 611 + bitmapSecs32 secCnt ≤ secCnt) :
    (formatAreas startLba secCnt).Pairwise Disjoint ∧
      ∀ A ∈ formatAreas startLba secCnt, A ⊆ Set.Ico startLba (startLba + secCnt) := by
  simp only [formatAreas, h.blockBitmapLba, h.blockBitmapSecs, h.inodeBitmapLba, h.inodeBitmapSecs,
    h.inodeTableLba, h.inodeTableSecs, h.dataStartLba]
  refine ⟨?_, ?_⟩
  · simp only [List.pairwise_cons, List.mem_cons, List.not_mem_nil, or_false, forall_eq_or_imp, forall_eq]
    refine ⟨⟨?_, ?_, ?_⟩, ⟨?_, ?_⟩, ?_, ?_⟩
    all_goals first
      | exact disjoint_Ico (by omega)
      | exact ⟨nofun, List.Pairwise.nil⟩
  · intro A hA
    simp only [List.mem_cons, List.not_mem_nil, or_false] at hA
    rcases hA with rfl | rfl | rfl | rfl <;> exact Set.Ico_subset_Ico (by omega) (by omega)

/-- The only store that can leave the buffer is the `memset` behind the last block. -/
theorem stores_sound_iff (h : AreasAt startLba (bitmapSecs32 secCnt) (formatSuperBlock32 startLba secCnt))
    (hsmall : bitmapSecs32 secCnt ≤ 2 ^ 20) :
    (∀ w ∈ formatStores (formatSuperBlock32 startLba secCnt) (bitLen32 secCnt),
      w.1 + w.2 ≤ formatBufSize (formatSuperBlock32 startLba secCnt)) ↔
      bitLen32 secCnt / 4096 < bitmapSecs32 secCnt ∨ bitLen32 secCnt / 4096 < 608 := by
  have hsize : formatBufSize (formatSuperBlock32 startLba secCnt) =
      512 * (if bitmapSecs32 secCnt ≥ 608 then bitmapSecs32 secCnt else 608) := by
    simp only [formatBufSize, h.blockBitmapSecs, h.inodeBitmapSecs, h.inodeTableSecs]
    split <;> split <;> first | omega | (split <;> omega)
  generalize hL : bitLen32 secCnt = L
  constructor
  · intro hall
    have hlast := hall (L / 8, 512 - L / 8 % 512) (by simp [formatStores])
    rw [hsize] at hlast
    dsimp only at hlast
    split at hlast <;> omega
  · intro hor w hw
    simp only [formatStores, List.mem_cons, List.not_mem_nil, or_false] at hw
    rcases hw with rfl | rfl | rfl | rfl | rfl | rfl | rfl | rfl | rfl | rfl <;> dsimp only <;>
      first | omega | (rw [hsize]; split <;> omega)

/-- The bits of the blocks are clear and those behind them set where there are at least as
    many blocks as the bitmap was computed for, and one more at most. -/
theorem bits_sound_iff (h : AreasAt startLba (bitmapSecs32 secCnt) (formatSuperBlock32 startLba secCnt))
    (hdata : 611 + bitmapSecs32 secCnt < secCnt) (hlen : 8 ≤ bitLen32 secCnt)
    (hsecs : bitmapSecs32 secCnt = (bitLen32 secCnt + 4095) / 4096) :
    (∀ b < 4096 * bitmapSecs32 secCnt, formatBit secCnt b = false ↔
      b ≠ 0 ∧ (formatSuperBlock32 startLba secCnt).dataStartLba + b ∈
        Set.Ico (formatSuperBlock32 startLba secCnt).dataStartLba (startLba + secCnt)) ↔
      ∀ b < 4096 * bitmapSecs32 secCnt, b ≤ bitLen32 secCnt ↔ b < secCnt - 611 - bitmapSecs32 secCnt := by
  refine forall_congr' fun b => imp_congr_right fun hb => ?_
  rw [formatBit, formatBlockBitmap_bit (by omega), decide_eq_false_iff_not, h.dataStartLba, Set.mem_Ico]
  generalize bitLen32 secCnt = L at *
  generalize bitmapSecs32 secCnt = S at *
  constructor
  · intro hiff
    rcases Nat.eq_zero_or_pos b with rfl | hpos
    · omega
    · constructor
      · intro hle
        have := hiff.mp (by omega)
        omega
      · intro hlt
        have := hiff.mpr ⟨by omega, by omega, by omega⟩
        omega
  · intro hiff
    omega

end Sizes

/-- Sizes for which the layout is sound.  The sectors behind the first 612 are `q` groups of
    4096 and `r` more.  There are no more left over than there are groups, and not fewer by
    4096 or more, unless the bitmap comes out one bit short of full sectors; and where it
    comes out full it must not be larger than the inode table. -/
def FormatFits (secCnt : Nat) : Prop :=
  let q := (secCnt - 612) / 4096
  let r := (secCnt - 612) % 4096
  secCnt + 3484 < 2 ^ 32 ∧ r ≤ q ∧ (q - r < 4096 ∨ (q - r) % 4096 = 1) ∧ (q = r → q < 608)

instance (secCnt : Nat) : Decidable (FormatFits secCnt) := by
  unfold FormatFits
  infer_instance

/-- What the sizes come to, for `d` sectors behind the first 612. -/
theorem fits_iff {d len secs : Nat} (hd : 1 ≤ d) (hlen : len = d - d / 4096) (hsecs : secs = (len + 4095) / 4096) :
    ((len / 4096 < secs ∨ len / 4096 < 608) ∧ 8 ≤ len ∧
      ∀ b < 4096 * secs, b ≤ len ↔ b < d + 1 - secs) ↔
      d % 4096 ≤ d / 4096 ∧ (d / 4096 - d % 4096 < 4096 ∨ (d / 4096 - d % 4096) % 4096 = 1) ∧
        (d / 4096 = d % 4096 → d / 4096 < 608) := by
  constructor
  · rintro ⟨hbuffer, hlong, hbits⟩
    -- the bit that is cleared besides those of the blocks, and the one after it
    have hextra := hbits len
    have hnext := hbits (len + 1)
    have hle : d % 4096 ≤ d / 4096 := by
      by_contra hlt
      have hbitmap : secs = d / 4096 + 1 := by omega
      omega
    have hbitmap : secs = d / 4096 - (d / 4096 - d % 4096) / 4096 := by omega
    have hblocks : len = 4096 * (d / 4096) - (d / 4096 - d % 4096) := by omega
    refine ⟨hle, ?_, fun heq => by omega⟩
    by_contra hnot
    rw [not_or] at hnot
    have hpad : len + 1 < 4096 * secs := by omega
    have hmore : len + 1 < d + 1 - secs := by omega
    exact absurd ((hnext hpad).mpr hmore) (by omega)
  · rintro ⟨hle, hpad, hfull⟩
    refine ⟨by omega, by omega, fun b hb => ?_⟩
    omega

/-- For every partition that is large enough, `partition_format` yields a sound layout
    exactly for the sizes above. -/
theorem format_sound_iff (startLba secCnt : Nat) (hpart : startLba + secCnt < 2 ^ 32) (hlarge : 613 ≤ secCnt) :
    FormatSound startLba secCnt ↔ FormatFits secCnt := by
  rcases Nat.lt_or_ge (secCnt + 3484) (2 ^ 32) with hfits | hwrap
  · obtain ⟨hlen, hsecs⟩ := sizes_eq hlarge hfits
    have hround : bitmapSecs32 secCnt = (bitLen32 secCnt + 4095) / 4096 := by rw [hsecs, hlen]
    have hat : AreasAt startLba (bitmapSecs32 secCnt) (formatSuperBlock32 startLba secCnt) :=
      areasAt_format (by omega)
    have hareas := areas_sound hat (by omega)
    have hstores := stores_sound_iff hat (by omega)
    have hiff := fits_iff (by omega) hlen hround
    have hcount : secCnt - 611 - bitmapSecs32 secCnt = secCnt - 612 + 1 - bitmapSecs32 secCnt := by omega
    constructor
    · intro h
      have hlong : 8 ≤ bitLen32 secCnt := by
        by_contra hshort
        -- bit 0 has been cleared with the last byte
        have hzero := (h.bits 0 (by omega)).mp
        rw [formatBit, formatBlockBitmap_bit (by omega), decide_eq_false_iff_not] at hzero
        exact (hzero (by omega)).1 rfl
      refine ⟨hfits, hiff.mp ⟨hstores.mp h.inBuffer, hlong, ?_⟩⟩
      have hbits := (bits_sound_iff hat (by omega) hlong hround).mp h.bits
      rw [hcount] at hbits
      exact hbits
    · rintro ⟨-, hsizes⟩
      obtain ⟨hbuffer, hlong, hbits⟩ := hiff.mpr hsizes
      rw [← hcount] at hbits
      exact ⟨hareas.1, hareas.2, hstores.mpr hbuffer, (bits_sound_iff hat (by omega) hlong hround).mpr hbits⟩
  · -- the bitmap has no sector, and the buffer is much too small for it
    obtain ⟨hlen, hsecs⟩ := sizes_wrapped hwrap (by omega)
    have hat : AreasAt startLba (bitmapSecs32 secCnt) (formatSuperBlock32 startLba secCnt) :=
      areasAt_format (by omega)
    refine iff_of_false (fun h => ?_) (fun h => ?_)
    · have := (stores_sound_iff hat (by omega)).mp h.inBuffer
      omega
    · exact absurd h.1 (by omega)

/-- One bitmap sector, and a second one that would hold no bit. -/
theorem format_sound_small : FormatSound 2048 4708 :=
  (format_sound_iff 2048 4708 (by decide) (by decide)).mpr (by decide)

/-- In a partition of 8192 sectors bit 7579 is clear, and there are only 7579 blocks. -/
theorem format_clears_padding : ¬ ∀ startLba secCnt, startLba + secCnt < 2 ^ 32 → 613 ≤ secCnt →
    FormatSound startLba secCnt := by
  intro h
  have hsound := h 2048 8192 (by decide) (by decide)
  have hclear : formatBit 8192 7579 = false := by decide +kernel
  have hblock := ((hsound.bits 7579 (by decide +kernel)).mp hclear).2
  rw [Set.mem_Ico] at hblock
  exact absurd hblock.2 (by decide +kernel)

end ZxyOs
