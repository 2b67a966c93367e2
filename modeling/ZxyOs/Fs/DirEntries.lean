/-
  ZxyOs.Fs.DirEntries

  What a directory holds: the entries in the slots of its blocks, as a collection
  that forgets where each of them lies.  A block has 21 slots, a directory up to
  140 blocks; a slot whose type is `FT_UNKOWN` is empty.

  `search_dir_entry` is shown to be lookup by name in this collection.
-/

import ZxyOs.Fs.Dir
import ZxyOs.Lib.Cells
import Mathlib.Data.List.TakeWhile

namespace ZxyOs

open Lib Lib.Exec

/-! ## Slots of a block -/

/-- The contents of sector `lba`. -/
def sectorAt (disk : Bytes) (lba : Nat) : Bytes := disk.window (512 * lba) 512

/-- `disk` with sector `lba` overwritten. -/
def writeSector (disk : Bytes) (lba : Nat) (buf : Bytes) : Bytes := disk.splice (512 * lba) 512 buf

section Sectors

variable {disk buf : Bytes} {lba lba' : Nat}

@[simp] theorem sectorAt_writeSector_self :
    sectorAt (writeSector disk lba buf) lba = buf.window 0 512 :=
  Bytes.window_splice_same disk buf _ _

theorem sectorAt_writeSector_ne (h : lba' ≠ lba) :
    sectorAt (writeSector disk lba buf) lba' = sectorAt disk lba' :=
  Bytes.window_splice_disjoint (by omega)

end Sectors

/-- The entry in slot `idx` of a block, if there is one. -/
def slotEntry (buf : Bytes) (idx : Nat) : Multiset DirEntry :=
  if DirEntry.fTypeAt buf idx = ftUnkown then 0 else {DirEntry.decode buf idx}

/-- The entries of a block. -/
def blockEntries (buf : Bytes) : Multiset DirEntry := contents 21 (slotEntry buf)

namespace DirEntry

/-- Which strings hold no NUL is read off the string. -/
instance decidableNoNul (name : CStr) : Decidable (∀ c ∈ name, c ≠ 0) :=
  decidable_of_iff ((name.all fun c => c ≠ 0) = true) (by simp only [List.all_eq_true, decide_eq_true_eq])

/-- A name that can be stored and compared as a C string. -/
structure NameOk (name : CStr) : Prop where
  pos : 0 < name.length
  lt : name.length < 16
  noNul : ∀ c ∈ name, c ≠ 0

instance (name : CStr) : Decidable (NameOk name) :=
  decidable_of_iff (0 < name.length ∧ name.length < 16 ∧ ∀ c ∈ name, c ≠ 0)
    ⟨fun h => ⟨h.1, h.2.1, h.2.2⟩, fun h => ⟨h.pos, h.lt, h.noNul⟩⟩

/-- An entry a directory can hold. -/
structure Valid (e : DirEntry) : Prop where
  name : NameOk e.filename
  iNo : e.iNo < 2 ^ 32
  fType : e.fType ≠ ftUnkown ∧ e.fType < 2 ^ 32

theorem u32At_slot_congr {b c : Bytes} {idx idx' off : Nat}
    (h : ∀ k < 24, b (24 * idx + k) = c (24 * idx' + k)) (hoff : off + 4 ≤ 24) :
    Bytes.u32At b (24 * idx + off) = Bytes.u32At c (24 * idx' + off) :=
  Bytes.u32At_congr fun j hj => by
    rw [Nat.add_assoc, Nat.add_assoc]
    exact h _ (by omega)

/-- A slot is determined by its 24 bytes. -/
theorem decode_congr {b c : Bytes} {idx idx' : Nat}
    (h : ∀ k < 24, b (24 * idx + k) = c (24 * idx' + k)) : decode b idx = decode c idx' := by
  have hname : nameAt b idx = nameAt c idx' := by
    simp only [nameAt]
    congr 1
    exact List.map_congr_left fun k hk => h k (by have := List.mem_range.mp hk; omega)
  have hno : iNoAt b idx = iNoAt c idx' := u32At_slot_congr h (by omega)
  have hty : fTypeAt b idx = fTypeAt c idx' := u32At_slot_congr h (by omega)
  simp only [decode, hname, hno, hty]

theorem nameAt_of_encode {b : Bytes} {idx : Nat} {e : DirEntry} (he : NameOk e.filename)
    (h : ∀ k < 24, b (24 * idx + k) = e.encode k) : nameAt b idx = e.filename := by
  have hlt := he.lt
  have hmap : (List.range 16).map (fun k => b (24 * idx + k))
      = e.filename ++ List.replicate (16 - e.filename.length) 0 := by
    refine List.ext_getElem (by simp; omega) fun k hk _ => ?_
    have hk' : k < 16 := by simpa using hk
    rw [List.getElem_map, List.getElem_range, h k (by omega), encode, if_pos hk',
      List.getElem_append]
    split
    · next hlen => rw [List.getD_eq_getElem _ _ hlen]
    · next hlen =>
      rw [List.getD_eq_default _ _ (by omega), List.getElem_replicate]
  rw [nameAt, hmap, List.takeWhile_append_of_pos fun c hc => by simpa using he.noNul c hc]
  cases 16 - e.filename.length with
  | zero => simp
  | succ n => simp [List.replicate_succ]

/-- A valid entry survives being written and read back. -/
theorem decode_of_encode {b : Bytes} {idx : Nat} {e : DirEntry} (he : e.Valid)
    (h : ∀ k < 24, b (24 * idx + k) = e.encode k) : decode b idx = e := by
  have hno : iNoAt b idx = e.iNo := by
    rw [iNoAt, Bytes.u32At_of_wordByte (w := e.iNo), Nat.mod_eq_of_lt he.iNo]
    intro j hj
    rw [Nat.add_assoc, h _ (by omega), encode, if_neg (by omega), if_pos (by omega)]
    congr 1
    omega
  have hty : fTypeAt b idx = e.fType := by
    rw [fTypeAt, Bytes.u32At_of_wordByte (w := e.fType), Nat.mod_eq_of_lt he.fType.2]
    intro j hj
    rw [Nat.add_assoc, h _ (by omega), encode, if_neg (by omega), if_neg (by omega)]
    congr 1
    omega
  cases e
  simp only [decode, hno, hty, nameAt_of_encode he.name h]

end DirEntry

section Slots

variable {b c src : Bytes} {idx : Nat} {e : DirEntry}

theorem slotEntry_congr {idx' : Nat} (h : ∀ k < 24, b (24 * idx + k) = c (24 * idx' + k)) :
    slotEntry b idx = slotEntry c idx' := by
  have hty : DirEntry.fTypeAt b idx = DirEntry.fTypeAt c idx' :=
    DirEntry.u32At_slot_congr h (by omega)
  simp only [slotEntry, hty, DirEntry.decode_congr h]

theorem slotEntry_of_encode (he : e.Valid) (h : ∀ k < 24, b (24 * idx + k) = e.encode k) :
    slotEntry b idx = {e} := by
  have hdec := DirEntry.decode_of_encode he h
  have hty : DirEntry.fTypeAt b idx = e.fType := congrArg DirEntry.fType hdec
  rw [slotEntry, hty, if_neg he.fType.1, hdec]

theorem slotEntry_of_zero (h : ∀ k < 24, b (24 * idx + k) = 0) : slotEntry b idx = 0 := by
  have hty : DirEntry.fTypeAt b idx = 0 := by
    simp only [DirEntry.fTypeAt, Bytes.u32At, Nat.add_assoc]
    rw [h _ (by omega), h _ (by omega), h _ (by omega), h _ (by omega)]
    rfl
  rw [slotEntry, hty, if_pos rfl]

/-- Overwriting a slot leaves the other slots alone. -/
theorem slotEntry_splice_ne {idx' : Nat} (h : idx' ≠ idx) :
    slotEntry (b.splice (24 * idx) 24 src) idx' = slotEntry b idx' :=
  slotEntry_congr fun k hk => Bytes.splice_outside (by omega)

/-- Filling an empty slot adds its entry to the block. -/
theorem blockEntries_splice_encode (hidx : idx < 21) (he : e.Valid)
    (hfree : DirEntry.fTypeAt b idx = ftUnkown) :
    blockEntries (b.splice (24 * idx) 24 e.encode) = e ::ₘ blockEntries b := by
  refine contents_cons hidx ?_ fun j _ hj => slotEntry_splice_ne hj
  have hnew : slotEntry (b.splice (24 * idx) 24 e.encode) idx = {e} := by
    refine slotEntry_of_encode he fun k hk => ?_
    rw [Bytes.splice_inside (by omega) (by omega)]
    congr 1
    omega
  rw [hnew, slotEntry, if_pos hfree]
  rfl

/-- Clearing a full slot takes its entry out of the block. -/
theorem blockEntries_splice_zero (hidx : idx < 21) (hfull : DirEntry.fTypeAt b idx ≠ ftUnkown) :
    blockEntries b
      = DirEntry.decode b idx ::ₘ blockEntries (b.splice (24 * idx) 24 Bytes.zero) := by
  refine contents_cons hidx ?_ fun j _ hj => (slotEntry_splice_ne hj).symm
  have hnew : slotEntry (b.splice (24 * idx) 24 Bytes.zero) idx = 0 :=
    slotEntry_of_zero fun k hk => by
      rw [Bytes.splice_inside (by omega) (by omega)]
      rfl
  rw [hnew, slotEntry, if_neg hfull]
  rfl

theorem blockEntries_congr (h : ∀ k < 504, b k = c k) : blockEntries b = blockEntries c :=
  contents_congr fun j hj => slotEntry_congr fun k hk => h _ (by omega)

@[simp] theorem blockEntries_zero : blockEntries Bytes.zero = 0 := by
  have h : ∀ j < 21, slotEntry Bytes.zero j = (fun _ => 0) j :=
    fun j _ => slotEntry_of_zero fun _ _ => rfl
  rw [blockEntries, contents_congr h]
  simp [contents]

theorem mem_blockEntries :
    e ∈ blockEntries b ↔
      ∃ j < 21, DirEntry.fTypeAt b j ≠ ftUnkown ∧ DirEntry.decode b j = e := by
  simp only [blockEntries, mem_contents]
  refine exists_congr fun j => and_congr_right fun _ => ?_
  simp only [slotEntry]
  split
  · next h => simp [h]
  · next h => simp [h, eq_comm]

end Slots

/-! ## Names -/

theorem strEq_eq_true {p : Bytes} {name : CStr} {k : Nat} :
    strEq p name k = true ↔
      (∀ i (h : i < name.length), p (k + i) = name[i]) ∧ p (k + name.length) = 0 := by
  induction name generalizing k with
  | nil => simp [strEq]
  | cons c cs ih =>
    simp only [strEq, Bool.and_eq_true, beq_iff_eq, ih, List.length_cons]
    constructor
    · rintro ⟨h0, hrest, hend⟩
      refine ⟨fun i hi => ?_, by rwa [show k + (cs.length + 1) = k + 1 + cs.length by omega]⟩
      cases i with
      | zero => simpa using h0
      | succ i =>
        rw [show k + (i + 1) = k + 1 + i by omega]
        exact hrest i (by omega)
    · rintro ⟨hall, hend⟩
      refine ⟨by simpa using hall 0 (by omega), fun i hi => ?_,
        by rwa [show k + 1 + cs.length = k + (cs.length + 1) by omega]⟩
      have := hall (i + 1) (by omega)
      rwa [show k + (i + 1) = k + 1 + i by omega] at this

/-- A stored name has at most 16 bytes, none of them zero. -/
theorem nameAt_length_le (b : Bytes) (idx : Nat) : (DirEntry.nameAt b idx).length ≤ 16 := by
  have := (List.takeWhile_prefix (· ≠ 0)
    (l := (List.range 16).map fun k => b (24 * idx + k))).length_le
  simpa [DirEntry.nameAt] using this

theorem nameAt_noNul (b : Bytes) (idx : Nat) : ∀ c ∈ DirEntry.nameAt b idx, c ≠ 0 := by
  intro c hc
  simpa using List.mem_takeWhile_imp hc

/-- A name shorter than its field is stored with a terminator. -/
theorem nameAt_eq_iff {b : Bytes} {idx : Nat} {name : CStr} (hname : ∀ c ∈ name, c ≠ 0)
    (hlt : name.length < 16) :
    DirEntry.nameAt b idx = name ↔
      (∀ i (h : i < name.length), b (24 * idx + i) = name[i]) ∧
        b (24 * idx + name.length) = 0 := by
  set l := (List.range 16).map fun k => b (24 * idx + k) with hl
  have hlen : l.length = 16 := by simp [hl]
  have hget (i : Nat) (h : i < l.length) : l[i] = b (24 * idx + i) := by simp [hl]
  have htake : DirEntry.nameAt b idx = l.take (l.findIdx fun c => !decide (c ≠ 0)) :=
    List.takeWhile_eq_take_findIdx_not
  constructor
  · intro h
    have hidx : l.findIdx (fun c => !decide (c ≠ 0)) = name.length := by
      have := congrArg List.length (htake.symm.trans h)
      rw [List.length_take] at this
      omega
    rw [h, hidx] at htake
    refine ⟨fun i hi => ?_, ?_⟩
    · have hi' : i < (l.take name.length).length := by rw [List.length_take]; omega
      have hval : (l.take name.length)[i] = name[i] := List.getElem_of_eq htake.symm hi'
      rwa [List.getElem_take, hget] at hval
    · have hend : l.findIdx (fun c => !decide (c ≠ 0)) < l.length := by omega
      have hz := List.findIdx_getElem (w := hend)
      simp only [hidx, hget] at hz
      simpa using hz
  · rintro ⟨hall, hend⟩
    have hidx : l.findIdx (fun c => !decide (c ≠ 0)) = name.length := by
      rw [List.findIdx_eq (by omega)]
      refine ⟨by simp [hget, hend], fun j hj => ?_⟩
      rw [hget, hall j hj]
      simpa using hname _ (List.getElem_mem hj)
    rw [htake, hidx]
    refine List.ext_getElem (by rw [List.length_take]; omega) fun i h1 h2 => ?_
    rw [List.getElem_take, hget, hall i h2]

/-- Comparing with a stored name that has its terminator. -/
theorem nameIs_iff {b : Bytes} {idx : Nat} {name : CStr} (hname : ∀ c ∈ name, c ≠ 0)
    (hlt : (DirEntry.nameAt b idx).length < 16) :
    DirEntry.nameIs b idx name = true ↔ DirEntry.nameAt b idx = name := by
  rw [DirEntry.nameIs, strEq_eq_true]
  constructor
  · rintro ⟨hall, hend⟩
    by_cases h16 : name.length < 16
    · exact (nameAt_eq_iff hname h16).mpr ⟨hall, hend⟩
    · -- the terminator of the stored name would be one of the bytes compared
      have hterm := ((nameAt_eq_iff (nameAt_noNul b idx) hlt).mp rfl).2
      have hbyte := hall (DirEntry.nameAt b idx).length (by omega)
      rw [hterm] at hbyte
      exact absurd hbyte.symm (hname _ (List.getElem_mem _))
  · intro h
    rw [h] at hlt
    exact (nameAt_eq_iff hname hlt).mp h

/-- An empty slot has no name and a full one a proper name. -/
def SlotOk (buf : Bytes) (j : Nat) : Prop :=
  if DirEntry.fTypeAt buf j = ftUnkown then DirEntry.nameAt buf j = []
  else DirEntry.NameOk (DirEntry.nameAt buf j)

instance (buf : Bytes) (j : Nat) : Decidable (SlotOk buf j) := inferInstanceAs (Decidable (ite _ _ _))

/-- A block as `sync_dir_entry` and `delete_dir_entry` leave it. -/
def SlotsOk (buf : Bytes) : Prop := ∀ j < 21, SlotOk buf j

instance (buf : Bytes) : Decidable (SlotsOk buf) := inferInstanceAs (Decidable (∀ j < 21, _))

section SlotOk

variable {b c src : Bytes} {j : Nat} {e : DirEntry}

theorem slotOk_congr {j' : Nat} (h : ∀ k < 24, b (24 * j + k) = c (24 * j' + k))
    (hc : SlotOk c j') : SlotOk b j := by
  have hdec := DirEntry.decode_congr h
  have hty : DirEntry.fTypeAt b j = DirEntry.fTypeAt c j' := congrArg DirEntry.fType hdec
  have hname : DirEntry.nameAt b j = DirEntry.nameAt c j' := congrArg DirEntry.filename hdec
  simp only [SlotOk, hty, hname]
  exact hc

theorem slotOk_of_encode (he : e.Valid) (h : ∀ k < 24, b (24 * j + k) = e.encode k) :
    SlotOk b j := by
  have hdec := DirEntry.decode_of_encode he h
  have hty : DirEntry.fTypeAt b j = e.fType := congrArg DirEntry.fType hdec
  have hname : DirEntry.nameAt b j = e.filename := congrArg DirEntry.filename hdec
  rw [SlotOk, hty, hname, if_neg he.fType.1]
  exact he.name

theorem slotOk_of_zero (h : ∀ k < 24, b (24 * j + k) = 0) : SlotOk b j := by
  have hzero : SlotOk Bytes.zero j := by
    have hty : DirEntry.fTypeAt Bytes.zero j = ftUnkown := by simp [DirEntry.fTypeAt]
    rw [SlotOk, if_pos hty]
    exact (nameAt_eq_iff (by simp) (by simp)).mpr ⟨by simp, rfl⟩
  exact slotOk_congr h hzero

theorem slotsOk_congr (h : ∀ k < 504, b k = c k) (hc : SlotsOk c) : SlotsOk b :=
  fun j hj => slotOk_congr (fun k hk => h _ (by omega)) (hc j hj)

theorem slotsOk_window (h : SlotsOk b) : SlotsOk (b.window 0 512) :=
  slotsOk_congr (fun k hk => by rw [Bytes.window_apply (by omega), Nat.zero_add]) h

/-- Overwriting a slot of a block with a proper entry, or clearing it, keeps the
    block in order. -/
theorem slotsOk_splice {idx : Nat} (h : SlotsOk b)
    (hnew : SlotOk (b.splice (24 * idx) 24 src) idx) :
    SlotsOk (b.splice (24 * idx) 24 src) := by
  intro j hj
  by_cases hij : j = idx
  · rw [hij]
    exact hnew
  · exact slotOk_congr (fun k hk => Bytes.splice_outside (by omega)) (h j hj)

theorem slotsOk_splice_encode {idx : Nat} (he : e.Valid) (h : SlotsOk b) :
    SlotsOk (b.splice (24 * idx) 24 e.encode) :=
  slotsOk_splice h <| slotOk_of_encode he fun k hk => by
    rw [Bytes.splice_inside (by omega) (by omega), Nat.add_sub_cancel_left]

theorem slotsOk_splice_zero {idx : Nat} (h : SlotsOk b) :
    SlotsOk (b.splice (24 * idx) 24 Bytes.zero) :=
  slotsOk_splice h <| slotOk_of_zero fun k hk => Bytes.splice_inside (by omega) (by omega)

theorem slotsOk_zero : SlotsOk Bytes.zero := fun _ _ => slotOk_of_zero fun _ _ => rfl

end SlotOk

/-! ## Directories -/

/-- The addresses of the blocks of an inode, 0 where there is none. -/
def Inode.blockAddr (v : Inode) (disk : Bytes) : Nat → Nat :=
  v.allBlocks (if v.sector 12 = 0 then Bytes.zero else sectorAt disk (v.sector 12))

/-- The entries of the block at `lba`. -/
def entriesAt (disk : Bytes) (lba : Nat) : Multiset DirEntry :=
  if lba = 0 then 0 else blockEntries (sectorAt disk lba)

/-- The entries of a directory. -/
def dirEntries (disk : Bytes) (v : Inode) : Multiset DirEntry :=
  contents 140 fun k => entriesAt disk (v.blockAddr disk k)

/-- The super block divides the partition up: the bitmaps, the inode table and the
    data blocks follow each other. -/
structure Fs.Layout (s : Fs) : Prop where
  entrySize : s.part.sb.dirEntrySize = 24
  blockBitmap : ∀ i < s.blockBitmap.size,
    s.part.sb.blockBitmapLba + i / 4096 < s.part.sb.inodeBitmapLba
  inodeBitmap : ∀ i < s.inodeMap.size,
    s.part.sb.inodeBitmapLba + i / 4096 < s.part.sb.inodeTableLba
  inodeTable : s.part.sb.inodeTableLba + 608 ≤ s.part.sb.dataStartLba
  nonempty : 0 < s.blockBitmap.size ∧ 0 < s.inodeMap.size

/-- `lba` is a data block of the partition that the block bitmap says is taken. -/
def Fs.InUse (s : Fs) (lba : Nat) : Prop :=
  lba ≤ maxLba ∧ ∃ i < s.blockBitmap.size,
    s.blockBitmap.bit i = true ∧ lba = s.part.sb.dataStartLba + i

/-- The blocks of an inode are data blocks in use, all different. -/
structure Fs.BlocksOk (s : Fs) (v : Inode) : Prop where
  inUse : ∀ k < 140, v.blockAddr s.disk k ≠ 0 → s.InUse (v.blockAddr s.disk k)
  table : v.sector 12 ≠ 0 → s.InUse (v.sector 12)
  inj : ∀ j < 140, ∀ k < 140, v.blockAddr s.disk j ≠ 0 →
    v.blockAddr s.disk j = v.blockAddr s.disk k → j = k
  tableNe : ∀ k < 140, v.sector 12 ≠ 0 → v.blockAddr s.disk k ≠ v.sector 12

/-- The entries of a directory have proper and different names. -/
structure Fs.EntriesOk (s : Fs) (v : Inode) : Prop extends s.BlocksOk v where
  slots : ∀ k < 140, v.blockAddr s.disk k ≠ 0 → SlotsOk (sectorAt s.disk (v.blockAddr s.disk k))
  names : ((dirEntries s.disk v).map DirEntry.filename).Nodup

/-- The blocks of a directory can be read, and its entries have proper and different
    names.  Which bits of the block bitmap are set does not matter. -/
structure Fs.Listed (s : Fs) (v : Inode) : Prop where
  blocks : ∀ k < 140, v.blockAddr s.disk k ≤ maxLba
  table : v.sector 12 ≤ maxLba
  slots : ∀ k < 140, v.blockAddr s.disk k ≠ 0 → SlotsOk (sectorAt s.disk (v.blockAddr s.disk k))
  names : ((dirEntries s.disk v).map DirEntry.filename).Nodup

/-- A well-formed directory: its size counts its entries. -/
structure Fs.DirOk (s : Fs) (v : Inode) : Prop extends s.EntriesOk v where
  size : v.iSize = 24 * (dirEntries s.disk v).card

section Directories

variable {s s' : Fs} {v : Inode} {buf : Bytes} {name : CStr} {e : DirEntry}

theorem mem_dirEntries {disk : Bytes} :
    e ∈ dirEntries disk v ↔
      ∃ k < 140, v.blockAddr disk k ≠ 0 ∧
        e ∈ blockEntries (sectorAt disk (v.blockAddr disk k)) := by
  simp only [dirEntries, mem_contents]
  refine exists_congr fun k => and_congr_right fun _ => ?_
  simp only [entriesAt]
  split
  · next h => simp [h]
  · next h => simp [h]

theorem Fs.EntriesOk.listed (h : s.EntriesOk v) : s.Listed v where
  blocks := by
    intro k hk
    by_cases h0 : v.blockAddr s.disk k = 0
    · rw [h0]
      exact Nat.zero_le _
    · exact (h.inUse k hk h0).1
  table := by
    by_cases h0 : v.sector 12 = 0
    · rw [h0]
      exact Nat.zero_le _
    · exact (h.table h0).1
  slots := h.slots
  names := h.names

/-- In a well-formed directory an entry is determined by its name. -/
theorem Fs.Listed.unique (h : s.Listed v) {e e' : DirEntry} (he : e ∈ dirEntries s.disk v)
    (he' : e' ∈ dirEntries s.disk v) (hname : e.filename = e'.filename) : e = e' := by
  classical
  by_contra hne
  obtain ⟨m, hm⟩ := Multiset.exists_cons_of_mem he
  have hmem : e' ∈ m := by
    rw [hm, Multiset.mem_cons] at he'
    exact he'.resolve_left (Ne.symm hne)
  have hnodup := h.names
  rw [hm, Multiset.map_cons, Multiset.nodup_cons] at hnodup
  exact hnodup.1 (hname ▸ Multiset.mem_map_of_mem _ hmem)

/-- A directory has room for 2940 entries. -/
theorem card_dirEntries_le (disk : Bytes) (v : Inode) : (dirEntries disk v).card ≤ 140 * 21 := by
  refine card_contents_le fun k _ => ?_
  simp only [entriesAt]
  split
  · simp
  · have hblock : (blockEntries (sectorAt disk (v.blockAddr disk k))).card ≤ 21 * 1 := by
      refine card_contents_le fun j _ => ?_
      simp only [slotEntry]
      split <;> simp
    omega

/-! ### Lookup -/

theorem findEntry_some {n idx j : Nat} (h : findEntry buf name n idx = some j) :
    idx ≤ j ∧ j < idx + n ∧ DirEntry.nameIs buf j name = true := by
  induction n generalizing idx with
  | zero => simp [findEntry] at h
  | succ n ih =>
    simp only [findEntry] at h
    split at h
    · next hn =>
      cases h
      exact ⟨le_refl _, by omega, hn⟩
    · obtain ⟨h1, h2, h3⟩ := ih h
      exact ⟨by omega, by omega, h3⟩

theorem findEntry_none {n idx : Nat} (h : findEntry buf name n idx = none) :
    ∀ j, idx ≤ j → j < idx + n → DirEntry.nameIs buf j name = false := by
  induction n generalizing idx with
  | zero =>
    intro j h1 h2
    omega
  | succ n ih =>
    simp only [findEntry] at h
    split at h
    · cases h
    · next hn =>
      intro j h1 h2
      rcases Nat.eq_or_lt_of_le h1 with rfl | hlt
      · simpa using hn
      · exact ih h j hlt (by omega)

theorem nameOk_lt (h : SlotsOk buf) {j : Nat} (hj : j < 21) :
    (DirEntry.nameAt buf j).length < 16 := by
  have := h j hj
  rw [SlotOk] at this
  split at this
  · simp [this]
  · exact this.lt

/-- Looking for a name in a block finds an entry of the block with that name. -/
theorem mem_blockEntries_of_nameIs (h : SlotsOk buf) (hname : DirEntry.NameOk name) {j : Nat}
    (hj : j < 21) (his : DirEntry.nameIs buf j name = true) :
    DirEntry.decode buf j ∈ blockEntries buf ∧ (DirEntry.decode buf j).filename = name := by
  have heq := (nameIs_iff hname.noNul (nameOk_lt h hj)).mp his
  refine ⟨mem_blockEntries.mpr ⟨j, hj, fun hty => ?_, rfl⟩, heq⟩
  have := h j hj
  rw [SlotOk, if_pos hty, heq] at this
  have hpos := hname.pos
  simp [this] at hpos

theorem searchBlocks_spec {allBlocks : Nat → Nat} {mem : Option Nat} {n k : Nat}
    {r : Option DirEntry} (hname : DirEntry.NameOk name)
    (hslots : ∀ i, k ≤ i → i < k + n → allBlocks i ≠ 0 → SlotsOk (sectorAt s.disk (allBlocks i)))
    (h : Returns (searchBlocks allBlocks name 21 mem n k) s r s') :
    s = s' ∧
      (∀ e, r = some e → e.filename = name ∧ ∃ i, k ≤ i ∧ i < k + n ∧
        e ∈ entriesAt s.disk (allBlocks i)) ∧
      (r = none → ∀ i, k ≤ i → i < k + n → ∀ e ∈ entriesAt s.disk (allBlocks i),
        e.filename ≠ name) := by
  induction n generalizing k with
  | zero =>
    simp only [searchBlocks, returns_pure] at h
    obtain ⟨rfl, rfl⟩ := h
    refine ⟨rfl, by simp, fun _ i h1 h2 => by omega⟩
  | succ n ih =>
    simp only [searchBlocks] at h
    -- a missing block holds nothing, the block found full of other names neither
    have hskip (hk : ∀ e ∈ entriesAt s.disk (allBlocks k), e.filename ≠ name)
        (h : Returns (searchBlocks allBlocks name 21 mem n (k + 1)) s r s') :
        s = s' ∧
          (∀ e, r = some e → e.filename = name ∧ ∃ i, k ≤ i ∧ i < k + (n + 1) ∧
            e ∈ entriesAt s.disk (allBlocks i)) ∧
          (r = none → ∀ i, k ≤ i → i < k + (n + 1) →
            ∀ e ∈ entriesAt s.disk (allBlocks i), e.filename ≠ name) := by
      obtain ⟨hs, hsome, hnone⟩ := ih (fun i h1 h2 => hslots i (by omega) (by omega)) h
      refine ⟨hs, fun e he => ?_, fun hr i h1 h2 => ?_⟩
      · obtain ⟨hn, i, h1, h2, hi⟩ := hsome e he
        exact ⟨hn, i, by omega, by omega, hi⟩
      · rcases Nat.eq_or_lt_of_le h1 with rfl | hlt
        · exact hk
        · exact hnone hr i hlt (by omega)
    split at h
    · next hzero => exact hskip (by simp [entriesAt, hzero]) h
    · next hne =>
      have hok := hslots k (by omega) (by omega) hne
      have hentries : entriesAt s.disk (allBlocks k)
          = blockEntries (sectorAt s.disk (allBlocks k)) := by
        rw [entriesAt, if_neg hne]
      simp only [returns_bind, returns_fits, returns_ideRead_sector, Nat.mul_one] at h
      obtain ⟨-, _, ⟨-, rfl⟩, block, _, ⟨-, -, rfl, rfl⟩, h⟩ := h
      split at h
      · next j hj =>
        obtain ⟨-, hj21, his⟩ := findEntry_some hj
        simp only [returns_pure] at h
        obtain ⟨rfl, rfl⟩ := h
        obtain ⟨hmem, hfn⟩ := mem_blockEntries_of_nameIs hok hname (by omega) his
        refine ⟨rfl, ?_, by simp⟩
        rintro _ ⟨⟩
        exact ⟨hfn, k, le_refl _, by omega, by rwa [hentries]⟩
      · next hj =>
        refine hskip (fun e he hfn => ?_) h
        rw [hentries, mem_blockEntries] at he
        obtain ⟨j, hj21, -, rfl⟩ := he
        have hfalse := findEntry_none hj j (by omega) (by omega)
        have htrue := (nameIs_iff hname.noNul (nameOk_lt hok hj21)).mpr hfn
        exact absurd (htrue.symm.trans hfalse) (by simp)

theorem searchBlocks_returns {allBlocks : Nat → Nat} {mem : Option Nat} {n k : Nat}
    (hmem : mem ≠ none) (hlba : ∀ i, k ≤ i → i < k + n → allBlocks i ≤ maxLba) :
    ∃ r, Returns (searchBlocks allBlocks name 21 mem n k) s r s := by
  induction n generalizing k with
  | zero => exact ⟨none, by simp [searchBlocks]⟩
  | succ n ih =>
    obtain ⟨r, hr⟩ := ih (k := k + 1) fun i h1 h2 => hlba i (by omega) (by omega)
    simp only [searchBlocks]
    split
    · exact ⟨r, hr⟩
    · cases hf : findEntry (sectorAt s.disk (allBlocks k)) name 21 0 with
      | some j =>
        refine ⟨some (DirEntry.decode (sectorAt s.disk (allBlocks k)) j), ?_⟩
        simp only [returns_bind, returns_fits, returns_ideRead_sector, Nat.mul_one]
        refine ⟨(), s, ⟨hmem, rfl⟩, _, s, ⟨hlba k (by omega) (by omega), by omega, rfl, rfl⟩, ?_⟩
        rw [sectorAt] at hf
        rw [hf, returns_pure]
        exact ⟨rfl, rfl⟩
      | none =>
        refine ⟨r, ?_⟩
        simp only [returns_bind, returns_fits, returns_ideRead_sector, Nat.mul_one]
        refine ⟨(), s, ⟨hmem, rfl⟩, _, s, ⟨hlba k (by omega) (by omega), by omega, rfl, rfl⟩, ?_⟩
        rw [sectorAt] at hf
        rwa [hf]

theorem returns_readAllBlocks {f : Nat → Nat} :
    Returns (readAllBlocks v) s f s' ↔
      (v.sector 12 ≠ 0 → v.sector 12 ≤ maxLba) ∧ f = v.blockAddr s.disk ∧ s = s' := by
  unfold readAllBlocks Inode.blockAddr
  by_cases h : v.sector 12 = 0
  · simp [h, eq_comm]
  · rw [if_pos h, if_neg h]
    simp only [returns_bind, returns_ideRead_sector, returns_pure, Nat.mul_one]
    constructor
    · rintro ⟨_, _, ⟨h1, -, rfl, rfl⟩, rfl, rfl⟩
      exact ⟨fun _ => h1, rfl, rfl⟩
    · rintro ⟨h1, rfl, rfl⟩
      exact ⟨_, s, ⟨h1 h, by omega, rfl, rfl⟩, rfl, rfl⟩

/-- `search_dir_entry` changes the heap alone.  What it finds is an entry of the
    directory with the name asked for; where it finds nothing there is no such
    entry, or there was no memory for the addresses of the blocks. -/
theorem returns_searchDirEntry {d : DirPtr} {a : Nat} {r : Option DirEntry}
    (hsize : s.part.sb.dirEntrySize = 24) (ha : s.handle d = some a) (hv : s.inodes a = some v)
    (hslots : ∀ k < 140, v.blockAddr s.disk k ≠ 0 →
      SlotsOk (sectorAt s.disk (v.blockAddr s.disk k)))
    (hname : DirEntry.NameOk name) (h : Returns (searchDirEntry d name) s r s') :
    s' = { s with heap := s'.heap } ∧
      (∀ e, r = some e → e ∈ dirEntries s.disk v ∧ e.filename = name) ∧
      (r = none → s.heap.full s.heap.next = true ∨
        ∀ e ∈ dirEntries s.disk v, e.filename ≠ name) := by
  simp only [searchDirEntry, returns_bind] at h
  obtain ⟨mem, t1, h1, h⟩ := h
  have e1 := (returns_sysMalloc h1).1
  split at h
  · next hnone =>
    subst hnone
    simp only [returns_pure] at h
    obtain ⟨rfl, rfl⟩ := h
    exact ⟨e1, by simp, fun _ => Or.inl (full_of_sysMalloc h1)⟩
  · next hmem =>
    have ha1 : t1.handle d = some a := by rw [e1]; exact ha
    have hv1 : t1.inodes a = some v := by rw [e1]; exact hv
    simp only [returns_bind, returns_dirInode, returns_getInode, returns_readAllBlocks] at h
    obtain ⟨a', _, ⟨ha', rfl⟩, v', _, ⟨hv', rfl⟩, f, _, ⟨-, rfl, rfl⟩, buf, t2, h2, h⟩ := h
    obtain rfl : a = a' := by simpa [ha1] using ha'
    obtain rfl : v = v' := by simpa [hv1] using hv'
    have e2 := (returns_sysMalloc h2).1
    simp only [returns_query] at h
    obtain ⟨_, _, ⟨rfl, rfl⟩, found, t3, h3, _, t4, h4, _, t5, h5, rfl, rfl⟩ := h
    have hd2 : t2.disk = s.disk := by rw [e2, e1]
    have hd1 : t1.disk = s.disk := by rw [e1]
    have hsz : 512 / (id t2).part.sb.dirEntrySize = 21 := by
      rw [id, e2, e1]
      simp [hsize]
    rw [hsz, hd1] at h3
    obtain ⟨rfl, hsome, hnone⟩ := searchBlocks_spec hname
      (fun i _ hi hne => by rw [hd2]; exact hslots i (by omega) hne) h3
    have e4 := (returns_sysFree h4).1
    have e5 := (returns_sysFree h5).1
    rw [hd2] at hsome hnone
    refine ⟨by rw [e5, e4, e2, e1], fun e he => ?_, fun hr => Or.inr fun e he => ?_⟩
    · obtain ⟨hfn, i, -, hi, hmem⟩ := hsome e he
      exact ⟨mem_contents.mpr ⟨i, by omega, hmem⟩, hfn⟩
    · obtain ⟨i, hi, hmem⟩ := mem_contents.mp he
      exact hnone hr i (by omega) (by omega) e hmem

/-- In a well-formed directory, and with memory for its two buffers,
    `search_dir_entry` finds exactly the entry with the name asked for. -/
theorem searchDirEntry_listed {d : DirPtr} {a : Nat} (hsize : s.part.sb.dirEntrySize = 24)
    (ha : s.handle d = some a) (hv : s.inodes a = some v) (hd : s.Listed v)
    (hname : DirEntry.NameOk name) (hmem : s.HasMemory 2) :
    ∃ r t, Returns (searchDirEntry d name) s r t ∧
      ∀ e, r = some e ↔ e ∈ dirEntries s.disk v ∧ e.filename = name := by
  have hret : ∃ r t, Returns (searchDirEntry d name) s r t := by
    obtain ⟨t1, h1, hmem1, e1⟩ := sysMalloc_returns hmem
    obtain ⟨t2, h2, -, e2⟩ := sysMalloc_returns hmem1
    have hv1 : t1.inodes a = some v := by rw [e1]; exact hv
    have ha1 : t1.handle d = some a := by rw [e1]; exact ha
    have hsz : 512 / t2.part.sb.dirEntrySize = 21 := by
      rw [e2, e1]
      simp [hsize]
    have hlba : ∀ i, 0 ≤ i → i < 0 + 140 → v.blockAddr t1.disk i ≤ maxLba := by
      intro i _ hi
      rw [show t1.disk = s.disk by rw [e1]]
      exact hd.blocks i (by omega)
    obtain ⟨r, hr⟩ : ∃ r, Returns (searchBlocks (v.blockAddr t1.disk) name 21
        (some t1.heap.next) 140 0) t2 r t2 := searchBlocks_returns (by simp) hlba
    obtain ⟨t3, h3⟩ := sysFree_returns t2 t1.heap.next
    obtain ⟨t4, h4⟩ := sysFree_returns t3 s.heap.next
    refine ⟨r, t4, ?_⟩
    simp only [searchDirEntry, returns_bind]
    refine ⟨_, t1, h1, ?_⟩
    rw [if_neg (by simp)]
    simp only [returns_bind, returns_dirInode, returns_getInode, returns_readAllBlocks,
      returns_query, returns_pure]
    refine ⟨a, t1, ⟨ha1, rfl⟩, v, t1, ⟨hv1, rfl⟩, _, t1, ⟨fun _ => hd.table, rfl, rfl⟩,
      _, t2, h2, t2, t2, ⟨rfl, rfl⟩, r, t2, ?_, (), t3, h3, (), t4, h4, rfl, rfl⟩
    rwa [hsz]
  obtain ⟨r, t, h⟩ := hret
  obtain ⟨-, hsome, hnone⟩ := returns_searchDirEntry hsize ha hv hd.slots hname h
  refine ⟨r, t, h, fun e => ⟨hsome e, ?_⟩⟩
  rintro ⟨he, hfn⟩
  cases r with
  | some e' =>
    obtain ⟨he', hfn'⟩ := hsome e' rfl
    rw [hd.unique he he' (hfn.trans hfn'.symm)]
  | none =>
    have hfull := hmem.2 0 (by omega)
    rcases hnone rfl with hf | hno
    · simp [hf] at hfull
    · exact absurd hfn (hno e he)

theorem searchDirEntry_spec {d : DirPtr} {a : Nat} (hsize : s.part.sb.dirEntrySize = 24)
    (ha : s.handle d = some a) (hv : s.inodes a = some v) (hd : s.EntriesOk v)
    (hname : DirEntry.NameOk name) (hmem : s.HasMemory 2) :
    ∃ r t, Returns (searchDirEntry d name) s r t ∧
      ∀ e, r = some e ↔ e ∈ dirEntries s.disk v ∧ e.filename = name :=
  searchDirEntry_listed hsize ha hv hd.listed hname hmem

end Directories

end ZxyOs
