/-
  ZxyOs.Fs.DirDelete

  `delete_dir_entry` (`fs/dir.c`) as removal from the collection of entries.

  The loop over a block stops at the entry it looks for, so its count of the other entries
  is not to be relied on.  What saves them is `is_dir_first_block`: the first block of a
  directory begins with `"."`, the flag is never cleared again, and so no block is ever
  given back and the entry is cleared in place.

  A directory with an index table is out of reach: the table is read through
  `&p->my_disk`, which is not a disk.
-/

import ZxyOs.Fs.DirInsert
import ZxyOs.Fs.OpenBalance

namespace ZxyOs

open Lib Lib.Exec

/-! ## The entry to be deleted -/

/-- Slot `j` holds the entry `delete_dir_entry` looks for. -/
def DeletesSlot (buf : Bytes) (iNo j : Nat) : Prop :=
  DirEntry.fTypeAt buf j ≠ ftUnkown ∧ DirEntry.nameIs buf j dot = false ∧
    DirEntry.nameIs buf j dotDot = false ∧ DirEntry.iNoAt buf j = iNo

/-- The entry with number `iNo` that is neither `"."` nor `".."`. -/
def DirEntry.Names (e : DirEntry) (iNo : Nat) : Prop :=
  e.iNo = iNo ∧ e.filename ≠ dot ∧ e.filename ≠ dotDot

section Scan

variable {buf : Bytes} {iNo n idx j : Nat} {r : DeleteScan}

theorem deleteScan_flag (hr : r.isDirFirstBlock = true) :
    (deleteScan buf iNo n idx r).isDirFirstBlock = true := by
  induction n generalizing idx r with
  | zero => exact hr
  | succ n ih =>
    rw [deleteScan]
    split
    · split
      · exact ih rfl
      · split
        · split
          · exact hr
          · exact ih hr
        · exact ih hr
    · exact ih hr

/-- The block that begins with `"."` sets the flag. -/
theorem deleteScan_dot (hfull : DirEntry.fTypeAt buf idx ≠ ftUnkown) (hdot : DirEntry.nameIs buf idx dot = true) :
    (deleteScan buf iNo (n + 1) idx r).isDirFirstBlock = true := by
  rw [deleteScan, if_pos hfull, if_pos hdot]
  exact deleteScan_flag rfl

theorem deleteScan_some (hr : r.dirEntryFound = none) (h : (deleteScan buf iNo n idx r).dirEntryFound = some j) :
    idx ≤ j ∧ j < idx + n ∧ DeletesSlot buf iNo j := by
  induction n generalizing idx r with
  | zero =>
    rw [deleteScan, hr] at h
    cases h
  | succ n ih =>
    have hnext {r' : DeleteScan} (hr' : r'.dirEntryFound = none)
        (h : (deleteScan buf iNo n (idx + 1) r').dirEntryFound = some j) :
        idx ≤ j ∧ j < idx + (n + 1) ∧ DeletesSlot buf iNo j := by
      obtain ⟨h₁, h₂, h₃⟩ := ih hr' h
      exact ⟨by omega, by omega, h₃⟩
    rw [deleteScan] at h
    split at h
    · next hfull =>
      split at h
      · exact hnext (by exact hr) h
      · next hdot =>
        split at h
        · next hdotDot =>
          split at h
          · next hno =>
            obtain rfl := Option.some.inj h
            exact ⟨le_rfl, by omega, hfull, by simpa using hdot, by simpa using hdotDot, hno⟩
          · exact hnext (by exact hr) h
        · exact hnext hr h
    · exact hnext hr h

theorem deleteScan_none (h : (deleteScan buf iNo n idx r).dirEntryFound = none) :
    ∀ j, idx ≤ j → j < idx + n → ¬ DeletesSlot buf iNo j := by
  induction n generalizing idx r with
  | zero =>
    intro j h₁ h₂
    omega
  | succ n ih =>
    -- the slot at hand is passed, the rest by induction
    have hnext {r' : DeleteScan} (hidx : ¬ DeletesSlot buf iNo idx)
        (h : (deleteScan buf iNo n (idx + 1) r').dirEntryFound = none) :
        ∀ j, idx ≤ j → j < idx + (n + 1) → ¬ DeletesSlot buf iNo j := by
      intro j h₁ h₂
      rcases Nat.eq_or_lt_of_le h₁ with rfl | hlt
      · exact hidx
      · exact ih h j hlt (by omega)
    rw [deleteScan] at h
    split at h
    · split at h
      · next hdot => exact hnext (fun hs => by rw [hs.2.1] at hdot; cases hdot) h
      · split at h
        · split at h
          · cases h
          · next hno => exact hnext (fun hs => hno hs.2.2.2) h
        · next hdotDot => exact hnext (fun hs => hdotDot (by rw [hs.2.2.1]; rfl)) h
    · next hfull => exact hnext (fun hs => hfull hs.1) h

theorem deletesSlot_iff (h : SlotsOk buf) (hj : j < 21) :
    DeletesSlot buf iNo j ↔ DirEntry.fTypeAt buf j ≠ ftUnkown ∧ (DirEntry.decode buf j).Names iNo := by
  have hlt := nameOk_lt h hj
  have hdot : DirEntry.nameIs buf j dot = false ↔ (DirEntry.decode buf j).filename ≠ dot := by
    rw [← Bool.not_eq_true, nameIs_iff (by decide) hlt]
    rfl
  have hdotDot : DirEntry.nameIs buf j dotDot = false ↔ (DirEntry.decode buf j).filename ≠ dotDot := by
    rw [← Bool.not_eq_true, nameIs_iff (by decide) hlt]
    rfl
  rw [DeletesSlot, hdot, hdotDot, DirEntry.Names]
  constructor
  · rintro ⟨h₁, h₂, h₃, h₄⟩
    exact ⟨h₁, h₄, h₂, h₃⟩
  · rintro ⟨h₁, h₂, h₃, h₄⟩
    exact ⟨h₁, h₃, h₄, h₂⟩

end Scan

/-! ## What `delete_dir_entry` does -/

/-- The directory's inode with one entry less. -/
def Inode.shrink (v : Inode) : Inode := { v with iSize := v.iSize - 24 }

/-- Slot `j` of block `lba` of the directory is cleared, and its inode written to the table. -/
def Fs.clearEntry (s : Fs) (a : Nat) (v : Inode) (lba j : Nat) : Fs :=
  { s with
    inodes := Function.update s.inodes a (some v.shrink)
    disk := (writeSector s.disk lba ((sectorAt s.disk lba).splice (24 * j) 24 Bytes.zero)).splice
      (s.slotAddr (v.iNo % 256)) 76 v.shrink.pureInode.encode }

/-- The first block of a directory begins with `"."` and `".."`. -/
structure Fs.DotsFirst (s : Fs) (v : Inode) : Prop where
  block : v.sector 0 ≠ 0
  full : ∀ j < 2, DirEntry.fTypeAt (sectorAt s.disk (v.sector 0)) j ≠ ftUnkown
  dot : DirEntry.nameAt (sectorAt s.disk (v.sector 0)) 0 = dot
  dotDot : DirEntry.nameAt (sectorAt s.disk (v.sector 0)) 1 = dotDot

section Delete

variable {s s' : Fs} {d : DirPtr} {a iNo lba j : Nat} {v : Inode} {e : DirEntry} {b : Bool}

/-- Once the flag is set the entry is cleared in place. -/
theorem deleteFound_returns {allBlocks : Nat → Nat} {k : Nat} {r : DeleteScan}
    (hsize : s.part.sb.dirEntrySize = 24) (hfits : s.TableFits) (hv : s.inodes a = some v)
    (hle : 24 ≤ v.iSize) (hlba : allBlocks k ≤ maxLba) (hflag : r.isDirFirstBlock = true) :
    Returns (deleteFound a allBlocks k (sectorAt s.disk (allBlocks k)) r j) s true
      (s.clearEntry a v (allBlocks k) j) := by
  let s₁ : Fs := { s with disk := writeSector s.disk (allBlocks k)
                                    ((sectorAt s.disk (allBlocks k)).splice (24 * j) 24 Bytes.zero) }
  let s₂ : Fs := s₁.setInode a v.shrink
  have hfits₂ : s₂.TableFits := ⟨hfits.onDisk, hfits.inPart⟩
  unfold deleteFound
  refine returns_bind.mpr ⟨s, s, (returns_query _).mpr ⟨rfl, rfl⟩, ?_⟩
  rw [if_neg (by rw [hflag]; simp)]
  refine returns_bind.mpr ⟨(), s₁, ?_, ?_⟩
  · rw [hsize]
    exact returns_ideWrite.mpr ⟨hlba, Nat.one_pos, rfl⟩
  · rw [hsize]
    refine returns_bind.mpr ⟨v, s₁, returns_getInode.mpr ⟨hv, rfl⟩, ?_⟩
    refine returns_bind.mpr ⟨(), s₁, (returns_assert _ _).mpr ⟨hle, rfl⟩, ?_⟩
    refine returns_bind.mpr ⟨(), s₂, returns_setInodeSize.mpr ⟨v, hv, rfl⟩, ?_⟩
    refine returns_bind.mpr ⟨v.shrink, s₂, returns_getInode.mpr ⟨Fs.setInode_self, rfl⟩, ?_⟩
    refine returns_bind.mpr ⟨(), _, (returns_inodeSync_of_fits hfits₂ le_rfl).mpr rfl, ?_⟩
    exact returns_pure.mpr ⟨rfl, rfl⟩

/-- The block loop clears the first entry it finds, or changes nothing. -/
theorem deleteDirEntryLoop_returns (iNo : Nat) (allBlocks : Nat → Nat) {n k : Nat} (flag : Bool)
    (hsize : s.part.sb.dirEntrySize = 24) (hfits : s.TableFits) (hv : s.inodes a = some v)
    (hle : 24 ≤ v.iSize) (hlba : ∀ i, k ≤ i → i < k + n → allBlocks i ≤ maxLba)
    (hflag : flag = true ∨ allBlocks k ≠ 0 ∧
      DirEntry.fTypeAt (sectorAt s.disk (allBlocks k)) 0 ≠ ftUnkown ∧
      DirEntry.nameIs (sectorAt s.disk (allBlocks k)) 0 dot = true) :
    (∃ i j, k ≤ i ∧ i < k + n ∧ allBlocks i ≠ 0 ∧ j < 21 ∧ DeletesSlot (sectorAt s.disk (allBlocks i)) iNo j ∧
      Returns (deleteDirEntryLoop a iNo allBlocks 21 n k flag) s true (s.clearEntry a v (allBlocks i) j)) ∨
    ((∀ i j, k ≤ i → i < k + n → allBlocks i ≠ 0 → j < 21 → ¬ DeletesSlot (sectorAt s.disk (allBlocks i)) iNo j) ∧
      Returns (deleteDirEntryLoop a iNo allBlocks 21 n k flag) s false s) := by
  induction n generalizing k flag with
  | zero =>
    refine Or.inr ⟨fun i j h₁ h₂ => by omega, ?_⟩
    exact returns_pure.mpr ⟨rfl, rfl⟩
  | succ n ih =>
    have hlba' (i : Nat) (h₁ : k + 1 ≤ i) (h₂ : i < k + 1 + n) : allBlocks i ≤ maxLba :=
      hlba i (by omega) (by omega)
    by_cases hzero : allBlocks k = 0
    · -- a block that is missing is passed with the flag set before it
      rw [deleteDirEntryLoop, if_pos hzero]
      have hset : flag = true := hflag.resolve_right fun h => h.1 hzero
      rcases ih _ hlba' (Or.inl hset) with ⟨i, j, h₁, h₂, hrest⟩ | ⟨hnone, hret⟩
      · exact Or.inl ⟨i, j, by omega, by omega, hrest⟩
      · refine Or.inr ⟨fun i j h₁ h₂ hne => ?_, hret⟩
        rcases Nat.eq_or_lt_of_le h₁ with rfl | hlt
        · exact absurd hzero hne
        · exact hnone i j hlt (by omega) hne
    · generalize hscan : deleteScan (sectorAt s.disk (allBlocks k)) iNo 21 0
        { isDirFirstBlock := flag, dirEntryCnt := 0, dirEntryFound := none } = r
      have hset : r.isDirFirstBlock = true := by
        rw [← hscan]
        rcases hflag with hflag | ⟨-, hfull, hdot⟩
        · exact deleteScan_flag hflag
        · exact deleteScan_dot hfull hdot
      have hread : Returns (ideRead (allBlocks k) 1 512) s (sectorAt s.disk (allBlocks k)) s :=
        returns_ideRead_sector.mpr ⟨hlba k le_rfl (by omega), Nat.one_pos, rfl, rfl⟩
      cases hfound : r.dirEntryFound with
      | some j =>
        obtain ⟨-, hj, hdel⟩ := deleteScan_some rfl (hscan ▸ hfound)
        refine Or.inl ⟨k, j, le_rfl, by omega, hzero, by omega, hdel, ?_⟩
        rw [deleteDirEntryLoop, if_neg hzero]
        refine returns_bind.mpr ⟨_, s, hread, ?_⟩
        rw [hscan]
        simp only [hfound]
        exact deleteFound_returns hsize hfits hv hle (hlba k le_rfl (by omega)) hset
      | none =>
        have hpass := deleteScan_none (hscan ▸ hfound)
        have hstep {b : Bool} {t : Fs}
            (h : Returns (deleteDirEntryLoop a iNo allBlocks 21 n (k + 1) r.isDirFirstBlock) s b t) :
            Returns (deleteDirEntryLoop a iNo allBlocks 21 (n + 1) k flag) s b t := by
          rw [deleteDirEntryLoop, if_neg hzero]
          refine returns_bind.mpr ⟨_, s, hread, ?_⟩
          rw [hscan]
          simp only [hfound]
          exact h
        rcases ih _ hlba' (Or.inl hset) with ⟨i, j, h₁, h₂, hne, hj, hdel, hret⟩ | ⟨hnone, hret⟩
        · exact Or.inl ⟨i, j, by omega, by omega, hne, hj, hdel, hstep hret⟩
        · refine Or.inr ⟨fun i j h₁ h₂ hne hj => ?_, hstep hret⟩
          rcases Nat.eq_or_lt_of_le h₁ with rfl | hlt
          · exact hpass j (Nat.zero_le _) (by omega)
          · exact hnone i j hlt (by omega) hne hj

/-- A slot of the inode table lies before the data blocks. -/
theorem Fs.Layout.sectorAt_slot {disk content : Bytes} {n : Nat} (h : s.Layout) (hn : n < 4096)
    (hlba : s.part.sb.dataStartLba ≤ lba) :
    sectorAt (disk.splice (s.slotAddr n) 76 content) lba = sectorAt disk lba := by
  have htable := h.inodeTable
  apply Bytes.window_splice_disjoint
  rw [Fs.slotAddr]
  omega

/-- Clearing a slot takes its entry out of the directory. -/
theorem clearEntry_entries {k : Nat} (hl : s.Layout) (hd : s.EntriesOk v) (hk : k < 12) (hne : v.sector k ≠ 0)
    (hj : j < 21) (hfull : DirEntry.fTypeAt (sectorAt s.disk (v.sector k)) j ≠ ftUnkown) :
    (s.clearEntry a v (v.sector k) j).EntriesOk v.shrink ∧
      dirEntries s.disk v = DirEntry.decode (sectorAt s.disk (v.sector k)) j ::ₘ
        dirEntries (s.clearEntry a v (v.sector k) j).disk v.shrink := by
  have hk140 : k < 140 := by omega
  have hno : v.iNo % 256 < 4096 := by omega
  have haddr : v.blockAddr s.disk k = v.sector k := Inode.blockAddr_direct hk
  -- the write to the inode table does not show in the blocks
  have hsector {lba : Nat} (hlba : s.InUse lba) :
      sectorAt (s.clearEntry a v (v.sector k) j).disk lba =
        sectorAt (writeSector s.disk (v.sector k)
          ((sectorAt s.disk (v.sector k)).splice (24 * j) 24 Bytes.zero)) lba :=
    hl.sectorAt_slot hno hlba.ge
  have hself : sectorAt (s.clearEntry a v (v.sector k) j).disk (v.sector k) =
      ((sectorAt s.disk (v.sector k)).splice (24 * j) 24 Bytes.zero).window 0 512 := by
    have huse := hd.inUse k hk140 (haddr ▸ hne)
    rw [haddr] at huse
    rw [hsector huse]
    exact sectorAt_writeSector_self
  have hother {i : Nat} (hi : i < 140) (hik : i ≠ k) (hi0 : v.blockAddr s.disk i ≠ 0) :
      sectorAt (s.clearEntry a v (v.sector k) j).disk (v.blockAddr s.disk i) =
        sectorAt s.disk (v.blockAddr s.disk i) := by
    rw [hsector (hd.inUse i hi hi0)]
    exact sectorAt_writeSector_ne fun heq => hik (hd.inj i hi k hk140 hi0 (heq.trans haddr.symm))
  have hblocks (i : Nat) :
      v.shrink.blockAddr (s.clearEntry a v (v.sector k) j).disk i = v.blockAddr s.disk i := by
    by_cases hi : i < 12
    · rw [Inode.blockAddr_direct hi, Inode.blockAddr_direct hi]
      rfl
    · refine Inode.blockAddr_congr_indirect (by omega) rfl fun h12 => ?_
      rw [hsector (hd.table h12)]
      exact sectorAt_writeSector_ne fun heq => hd.tableNe k hk140 h12 (haddr.trans heq.symm)
  have hslots : ∀ i < 140, v.blockAddr s.disk i ≠ 0 →
      SlotsOk (sectorAt (s.clearEntry a v (v.sector k) j).disk (v.blockAddr s.disk i)) := by
    intro i hi hi0
    by_cases hik : i = k
    · subst hik
      rw [haddr, hself]
      apply slotsOk_window
      apply slotsOk_splice_zero
      rw [← haddr]
      exact hd.slots i hi hi0
    · rw [hother hi hik hi0]
      exact hd.slots i hi hi0
  have hentries : dirEntries s.disk v = DirEntry.decode (sectorAt s.disk (v.sector k)) j ::ₘ
      dirEntries (s.clearEntry a v (v.sector k) j).disk v.shrink := by
    refine contents_cons hk140 ?_ fun i hi hik => ?_
    · simp only [hblocks, haddr, entriesAt, if_neg hne]
      rw [hself, blockEntries_window]
      exact blockEntries_splice_zero hj hfull
    · rw [hblocks]
      exact (entriesAt_congr fun hi0 => hother hi hik hi0).symm
  refine ⟨⟨⟨?_, ?_, ?_, ?_⟩, ?_, ?_⟩, hentries⟩
  · intro i hi hi0
    rw [hblocks] at hi0 ⊢
    exact hd.inUse i hi hi0
  · exact hd.table
  · intro i hi i' hi' hi0 heq
    rw [hblocks] at hi0
    rw [hblocks, hblocks] at heq
    exact hd.inj i hi i' hi' hi0 heq
  · intro i hi h12
    rw [hblocks]
    exact hd.tableNe i hi h12
  · intro i hi hi0
    rw [hblocks] at hi0 ⊢
    exact hslots i hi hi0
  · have hnames := hd.names
    rw [hentries, Multiset.map_cons, Multiset.nodup_cons] at hnames
    exact hnames.2

end Delete

/-! ## Removal -/

instance (e : DirEntry) (iNo : Nat) : Decidable (e.Names iNo) := inferInstanceAs (Decidable (_ ∧ _))

/-- From `s` to `s'` the entry `e` went out of the directory `d`, whose inode is at `a`: searches
    that get memory no longer find it, and find for other names what they found before. -/
structure DeletesEntry (s s' : Fs) (d : DirPtr) (a : Nat) (v : Inode) (e : DirEntry) : Prop where
  gone : s'.HasMemory 2 → ∃ t, Returns (searchDirEntry d e.filename) s' none t
  others : s.HasMemory 2 → s'.HasMemory 2 → ∀ name, DirEntry.NameOk name → name ≠ e.filename →
    ∀ r, (∃ t, Returns (searchDirEntry d name) s' r t) ↔ ∃ t, Returns (searchDirEntry d name) s r t
  size : ∃ w, s'.inodes a = some w ∧ w.iSize = v.iSize - s.part.sb.dirEntrySize

/-- `delete_dir_entry` removes the one entry with number `iNo` beside `"."` and `".."`, and where
    there is none it says so and changes nothing. -/
structure DeletesExactly (s : Fs) (d : DirPtr) (a : Nat) (v : Inode) (iNo : Nat) : Prop where
  found : ∀ e ∈ dirEntries s.disk v, e.Names iNo →
    ∃ s', Returns (deleteDirEntry d iNo) s true s' ∧ DeletesEntry s s' d a v e
  missing : (∀ e ∈ dirEntries s.disk v, ¬ e.Names iNo) → Returns (deleteDirEntry d iNo) s false s

section Removal

variable {s s' : Fs} {d : DirPtr} {a iNo : Nat} {v : Inode} {e e' : DirEntry}

theorem clearEntry_deletes {k j : Nat} (hl : s.Layout) (ha : s.handle d = some a) (hv : s.inodes a = some v)
    (hd : s.EntriesOk v) (hk : k < 12) (hne : v.sector k ≠ 0) (hj : j < 21)
    (hfull : DirEntry.fTypeAt (sectorAt s.disk (v.sector k)) j ≠ ftUnkown) :
    DeletesEntry s (s.clearEntry a v (v.sector k) j) d a v
      (DirEntry.decode (sectorAt s.disk (v.sector k)) j) := by
  obtain ⟨hok, hentries⟩ := clearEntry_entries (a := a) hl hd hk hne hj hfull
  generalize he : DirEntry.decode (sectorAt s.disk (v.sector k)) j = e at hentries
  have hmem : e ∈ dirEntries s.disk v := by
    rw [hentries]
    exact Multiset.mem_cons_self _ _
  have hsize' : (s.clearEntry a v (v.sector k) j).part.sb.dirEntrySize = 24 := hl.entrySize
  have ha' : (s.clearEntry a v (v.sector k) j).handle d = some a := ha
  have hv' : (s.clearEntry a v (v.sector k) j).inodes a = some v.shrink := Function.update_self ..
  have hname : DirEntry.NameOk e.filename := by
    have hslot := hd.slots k (by omega) (by rwa [Inode.blockAddr_direct hk]) j hj
    rw [Inode.blockAddr_direct hk, SlotOk, if_neg hfull] at hslot
    rw [← he]
    exact hslot
  -- the names are different, so no other entry has this one
  have hfresh : ∀ e' ∈ dirEntries (s.clearEntry a v (v.sector k) j).disk v.shrink, e'.filename ≠ e.filename := by
    have hnames := hd.names
    rw [hentries, Multiset.map_cons, Multiset.nodup_cons] at hnames
    intro e' he' hfn
    exact hnames.1 (hfn ▸ Multiset.mem_map_of_mem _ he')
  refine ⟨fun hmem' => ?_, fun hmem₁ hmem₂ name hok' hne' r => ?_, v.shrink, hv', ?_⟩
  · obtain ⟨r, t, hret, hr⟩ := searchDirEntry_spec hsize' ha' hv' hok hname hmem'
    cases r with
    | none => exact ⟨t, hret⟩
    | some e' =>
      obtain ⟨he', hfn⟩ := (hr e').mp rfl
      exact absurd hfn (hfresh e' he')
  · obtain ⟨r₁, t₁, hret₁, hr₁⟩ := searchDirEntry_spec hl.entrySize ha hv hd hok' hmem₁
    obtain ⟨r₂, t₂, hret₂, hr₂⟩ := searchDirEntry_spec hsize' ha' hv' hok hok' hmem₂
    have heq : r₁ = r₂ := by
      refine Option.ext fun e' => ?_
      rw [hr₁, hr₂, hentries, Multiset.mem_cons]
      constructor
      · rintro ⟨hm, hfn⟩
        exact ⟨hm.resolve_left fun hee => hne' (by rw [← hfn, hee]), hfn⟩
      · rintro ⟨hm, hfn⟩
        exact ⟨Or.inr hm, hfn⟩
    constructor
    · rintro ⟨t, ht⟩
      refine ⟨t₁, ?_⟩
      rw [(ht.unique hret₂).1, ← heq]
      exact hret₁
    · rintro ⟨t, ht⟩
      refine ⟨t₂, ?_⟩
      rw [(ht.unique hret₁).1, heq]
      exact hret₂
  · rw [hl.entrySize]
    rfl

theorem returns_deleteDirEntry {b : Bool} (hl : s.Layout) (ha : s.handle d = some a) (hv : s.inodes a = some v) :
    Returns (deleteDirEntry d iNo) s b s' ↔ v.sector 12 = 0 ∧
      Returns (deleteDirEntryLoop a iNo (fun k => if k < 12 then v.sector k else 0) 21 140 0 false) s b s' := by
  simp only [deleteDirEntry, returns_bind, returns_dirInode, returns_getInode, returns_require, returns_query]
  constructor
  · rintro ⟨a', _, ⟨ha', rfl⟩, v', _, ⟨hv', rfl⟩, _, _, ⟨h12, rfl⟩, _, _, ⟨rfl, rfl⟩, hloop⟩
    obtain rfl : a = a' := Option.some.inj (ha.symm.trans ha')
    obtain rfl : v = v' := Option.some.inj (hv.symm.trans hv')
    rw [id_eq, hl.entrySize] at hloop
    exact ⟨h12, hloop⟩
  · rintro ⟨h12, hloop⟩
    refine ⟨a, s, ⟨ha, rfl⟩, v, s, ⟨hv, rfl⟩, (), s, ⟨h12, rfl⟩, s, s, ⟨rfl, rfl⟩, ?_⟩
    rw [hl.entrySize]
    exact hloop

/-- Without an index table the entries lie in the direct blocks. -/
theorem mem_dirEntries_direct (h12 : v.sector 12 = 0) :
    e ∈ dirEntries s.disk v ↔ ∃ k < 12, v.sector k ≠ 0 ∧
      ∃ j < 21, DirEntry.fTypeAt (sectorAt s.disk (v.sector k)) j ≠ ftUnkown ∧
        DirEntry.decode (sectorAt s.disk (v.sector k)) j = e := by
  rw [mem_dirEntries]
  constructor
  · rintro ⟨k, hk, hne, hmem⟩
    by_cases hlt : k < 12
    · rw [Inode.blockAddr_direct hlt] at hne hmem
      exact ⟨k, hlt, hne, mem_blockEntries.mp hmem⟩
    · exact absurd (Inode.blockAddr_no_table (Nat.not_lt.mp hlt) h12) hne
  · rintro ⟨k, hk, hne, hslot⟩
    refine ⟨k, by omega, ?_, ?_⟩
    · rwa [Inode.blockAddr_direct hk]
    · rw [Inode.blockAddr_direct hk]
      exact mem_blockEntries.mpr hslot

/-- The directory's own entry is one of its entries. -/
theorem Fs.DotsFirst.card_pos (h : s.DotsFirst v) : 0 < (dirEntries s.disk v).card := by
  apply Multiset.card_pos_iff_exists_mem.mpr
  refine ⟨_, mem_dirEntries.mpr ⟨0, by decide, ?_, mem_blockEntries.mpr ⟨0, by decide, ?_, rfl⟩⟩⟩
  · rw [Inode.blockAddr_direct (by decide)]
    exact h.block
  · rw [Inode.blockAddr_direct (by decide)]
    exact h.full 0 (by decide)

/-- `delete_dir_entry` without an index table clears the slot of the first entry it finds. -/
theorem deleteDirEntry_clearEntry (hl : s.Layout) (hfits : s.TableFits) (ha : s.handle d = some a)
    (hv : s.inodes a = some v) (hd : s.DirOk v) (hdots : s.DotsFirst v) (h12 : v.sector 12 = 0) :
    (∃ k < 12, v.sector k ≠ 0 ∧ ∃ j < 21, DirEntry.fTypeAt (sectorAt s.disk (v.sector k)) j ≠ ftUnkown ∧
      (DirEntry.decode (sectorAt s.disk (v.sector k)) j).Names iNo ∧
      Returns (deleteDirEntry d iNo) s true (s.clearEntry a v (v.sector k) j)) ∨
    ((∀ e ∈ dirEntries s.disk v, ¬ e.Names iNo) ∧ Returns (deleteDirEntry d iNo) s false s) := by
  have haddr (k : Nat) (hk : k < 12) : v.blockAddr s.disk k = v.sector k := Inode.blockAddr_direct hk
  have hslots (k : Nat) (hk : k < 12) (hne : v.sector k ≠ 0) : SlotsOk (sectorAt s.disk (v.sector k)) := by
    rw [← haddr k hk] at hne ⊢
    exact hd.slots k (by omega) hne
  have hlba (k : Nat) : (if k < 12 then v.sector k else 0) ≤ maxLba := by
    split
    · next hk =>
      rw [← haddr k hk]
      exact hd.toEntriesOk.listed.blocks k (by omega)
    · exact Nat.zero_le _
  have hle : 24 ≤ v.iSize := by
    have := hdots.card_pos
    rw [hd.size]
    omega
  have hfirst : DirEntry.nameIs (sectorAt s.disk (v.sector 0)) 0 dot = true :=
    (nameIs_iff (by decide) (nameOk_lt (hslots 0 (by decide) hdots.block) (by decide))).mpr hdots.dot
  have hloop := deleteDirEntryLoop_returns (n := 140) (k := 0) (a := a) iNo
    (fun k => if k < 12 then v.sector k else 0) false hl.entrySize hfits hv hle
    (fun i _ _ => hlba i) (Or.inr ⟨hdots.block, hdots.full 0 (by decide), hfirst⟩)
  have hdirect {k : Nat} (hne : (if k < 12 then v.sector k else 0) ≠ 0) : k < 12 := by
    by_contra hk
    rw [if_neg hk] at hne
    exact hne rfl
  rcases hloop with ⟨k, j, -, -, hne, hj, hdel, hret⟩ | ⟨hnone, hret⟩
  · have hk := hdirect hne
    simp only [if_pos hk] at hne hdel hret
    obtain ⟨hfull, hnames⟩ := (deletesSlot_iff (hslots k hk hne) hj).mp hdel
    exact Or.inl ⟨k, hk, hne, j, hj, hfull, hnames, (returns_deleteDirEntry hl ha hv).mpr ⟨h12, hret⟩⟩
  · refine Or.inr ⟨fun e he hnames => ?_, (returns_deleteDirEntry hl ha hv).mpr ⟨h12, hret⟩⟩
    obtain ⟨k, hk, hne, j, hj, hfull, rfl⟩ := (mem_dirEntries_direct h12).mp he
    have hno := hnone k j (Nat.zero_le _) (by omega)
    simp only [if_pos hk] at hno
    exact hno hne hj ((deletesSlot_iff (hslots k hk hne) hj).mpr ⟨hfull, hnames⟩)

/-- `delete_dir_entry` without an index table: the first entry the loop finds, or none. -/
theorem deleteDirEntry_direct (hl : s.Layout) (hfits : s.TableFits) (ha : s.handle d = some a)
    (hv : s.inodes a = some v) (hd : s.DirOk v) (hdots : s.DotsFirst v) (h12 : v.sector 12 = 0) :
    (∃ e ∈ dirEntries s.disk v, e.Names iNo ∧
      ∃ s', Returns (deleteDirEntry d iNo) s true s' ∧ DeletesEntry s s' d a v e) ∨
    ((∀ e ∈ dirEntries s.disk v, ¬ e.Names iNo) ∧ Returns (deleteDirEntry d iNo) s false s) := by
  rcases deleteDirEntry_clearEntry hl hfits ha hv hd hdots h12 with ⟨k, hk, hne, j, hj, hfull, hnames, hret⟩ | hnone
  · exact Or.inl ⟨_, (mem_dirEntries_direct h12).mpr ⟨k, hk, hne, j, hj, hfull, rfl⟩, hnames,
      s.clearEntry a v (v.sector k) j, hret, clearEntry_deletes hl ha hv hd.toEntriesOk hk hne hj hfull⟩
  · exact Or.inr hnone

end Removal

/-- In a well-formed directory that begins with `"."` and `".."`, and for a number that at most one
    other entry has, `delete_dir_entry` removes exactly that entry where the directory has no index
    table, and only there. -/
theorem deleteDirEntry_deletes_iff (s : Fs) (d : DirPtr) (a : Nat) (v : Inode) (iNo : Nat)
    (hl : s.Layout) (hfits : s.TableFits) (ha : s.handle d = some a) (hv : s.inodes a = some v)
    (hd : s.DirOk v) (hdots : s.DotsFirst v) (honce : (dirEntries s.disk v).countP (·.Names iNo) ≤ 1) :
    DeletesExactly s d a v iNo ↔ v.sector 12 = 0 := by
  constructor
  · -- whatever it is asked for, the call has to come back
    intro h
    by_cases hmem : ∃ e ∈ dirEntries s.disk v, e.Names iNo
    · obtain ⟨e, he, hnames⟩ := hmem
      obtain ⟨s', hret, -⟩ := h.found e he hnames
      exact ((returns_deleteDirEntry hl ha hv).mp hret).1
    · have hret := h.missing fun e he hnames => hmem ⟨e, he, hnames⟩
      exact ((returns_deleteDirEntry hl ha hv).mp hret).1
  · intro h12
    rcases deleteDirEntry_direct hl hfits ha hv hd hdots h12 with ⟨e, he, hnames, s', hret, hdel⟩ | ⟨hnone, hret⟩
    · refine ⟨fun e' he' hnames' => ?_, fun hnone => absurd hnames (hnone e he)⟩
      have heq : e' = e := by
        by_contra hne
        obtain ⟨m, hm⟩ := Multiset.exists_cons_of_mem he
        have hmem : e' ∈ m := by
          rw [hm, Multiset.mem_cons] at he'
          exact he'.resolve_left hne
        have hpos : 0 < m.countP (·.Names iNo) := Multiset.countP_pos.mpr ⟨e', hmem, hnames'⟩
        have hone : (e ::ₘ m).countP (·.Names iNo) = m.countP (·.Names iNo) + 1 :=
          Multiset.countP_cons_of_pos _ hnames
        rw [hm, hone] at honce
        omega
      rw [heq]
      exact ⟨s', hret, hdel⟩
    · exact ⟨fun e he hnames => absurd hnames (hnone e he), fun _ => hret⟩

/-! ## A directory with and without an index table -/

namespace TableDir

/-- The entries of the first block. -/
def entries : List DirEntry := [⟨dot, 0, ftDir⟩, ⟨dotDot, 0, ftDir⟩, ⟨[97], 1, ftRegular⟩]

/-- The entry behind the index table. -/
def last : DirEntry := ⟨[98], 2, ftRegular⟩

/-- The first block in sector 1000, an index table in sector 1001 and the block it leads to, with one
    entry, in sector 1002. -/
def disk : Bytes := fun a =>
  if a / 512 = 1000 then SmallTree.block entries (a % 512)
  else if a / 512 = 1001 then (if a % 512 < 4 then Bytes.wordByte 1002 (a % 512) else 0)
  else if a / 512 = 1002 then SmallTree.block [last] (a % 512)
  else 0

/-- The root directory with its table at `tbl`, or none. -/
def inode (tbl size : Nat) : Inode := { (SmallTree.inode 0 size 1000).setSector 12 tbl with iOpenCnt := 1 }

def fs (tbl size : Nat) : Fs :=
  { SmallTree.fs with
    disk := disk
    blockBitmap := { btmpBytesLen := 4, bit := fun i => i < 3 }
    inodes := fun a => if a = 0 then some (inode tbl size) else none }

theorem layout (tbl size : Nat) : (fs tbl size).Layout where
  entrySize := rfl
  blockBitmap := by
    show ∀ i < 32, 2 + i / 4096 < 3
    intro i hi
    omega
  inodeBitmap := by
    show ∀ i < 8, 3 + i / 4096 < 4
    intro i hi
    omega
  inodeTable := by
    show 4 + 608 ≤ 1000
    decide
  nonempty := by
    show 0 < 32 ∧ 0 < 8
    decide

theorem tableFits (tbl size : Nat) : (fs tbl size).TableFits where
  onDisk := by
    show 4 + 607 ≤ maxLba
    decide
  inPart := by
    show 4 + 607 ≤ 0 + 4096
    decide

theorem inUse {tbl size lba : Nat} (h : 1000 ≤ lba ∧ lba < 1003) : (fs tbl size).InUse lba := by
  obtain ⟨i, rfl⟩ := Nat.exists_eq_add_of_le h.1
  have hi : i < 3 := by omega
  have hmax : 1002 ≤ maxLba := by decide
  exact ⟨by omega, i, show i < 32 by omega, decide_eq_true hi, rfl⟩

theorem blockAddr_eq {tbl size : Nat} (h : tbl = 0 ∧ size = 72 ∨ tbl = 1001 ∧ size = 96) :
    ∀ k < 140, (inode tbl size).blockAddr disk k =
      if k = 0 then 1000 else if k = 12 ∧ tbl ≠ 0 then 1002 else 0 := by
  rcases h with ⟨rfl, rfl⟩ | ⟨rfl, rfl⟩
  · decide +kernel
  · decide +kernel

theorem slotsOk : SlotsOk (sectorAt disk 1000) ∧ SlotsOk (sectorAt disk 1002) := by decide +kernel

theorem dirEntries_none : dirEntries disk (inode 0 72) = entries := by decide +kernel

theorem dirEntries_table : dirEntries disk (inode 1001 96) = (entries ++ [last] : List DirEntry) := by
  decide +kernel

theorem dirOk {tbl size : Nat} (h : tbl = 0 ∧ size = 72 ∨ tbl = 1001 ∧ size = 96) :
    (fs tbl size).DirOk (inode tbl size) where
  inUse := by
    intro k hk hne
    change (inode tbl size).blockAddr disk k ≠ 0 at hne
    show (fs tbl size).InUse ((inode tbl size).blockAddr disk k)
    rw [blockAddr_eq h k hk] at hne ⊢
    apply inUse
    split
    · omega
    · split
      · omega
      · next h₁ h₂ => exact absurd (by rw [if_neg h₁, if_neg h₂]) hne
  table := by
    intro hne
    apply inUse
    rcases h with ⟨rfl, rfl⟩ | ⟨rfl, rfl⟩
    · exact absurd rfl hne
    · decide
  inj := by
    intro i hi k hk hne heq
    change (inode tbl size).blockAddr disk i ≠ 0 at hne
    change (inode tbl size).blockAddr disk i = (inode tbl size).blockAddr disk k at heq
    rw [blockAddr_eq h i hi] at hne heq
    rw [blockAddr_eq h k hk] at heq
    grind
  tableNe := by
    intro k hk hne
    change (inode tbl size).blockAddr disk k ≠ (inode tbl size).sector 12
    rw [blockAddr_eq h k hk]
    rcases h with ⟨rfl, rfl⟩ | ⟨rfl, rfl⟩
    · exact absurd rfl hne
    · have htbl : (inode 1001 96).sector 12 = 1001 := by decide
      rw [htbl]
      split
      · decide
      · split <;> decide
  slots := by
    intro k hk hne
    change (inode tbl size).blockAddr disk k ≠ 0 at hne
    show SlotsOk (sectorAt disk ((inode tbl size).blockAddr disk k))
    rw [blockAddr_eq h k hk] at hne ⊢
    split
    · exact slotsOk.1
    · split
      · exact slotsOk.2
      · next h₁ h₂ => exact absurd (by rw [if_neg h₁, if_neg h₂]) hne
  names := by
    show ((dirEntries disk (inode tbl size)).map DirEntry.filename).Nodup
    rcases h with ⟨rfl, rfl⟩ | ⟨rfl, rfl⟩
    · rw [dirEntries_none]
      decide
    · rw [dirEntries_table]
      decide
  size := by
    show (inode tbl size).iSize = 24 * (dirEntries disk (inode tbl size)).card
    rcases h with ⟨rfl, rfl⟩ | ⟨rfl, rfl⟩
    · rw [dirEntries_none]
      rfl
    · rw [dirEntries_table]
      rfl

theorem dotsFirst (tbl size : Nat) (h : tbl = 0 ∨ tbl = 1001) : (fs tbl size).DotsFirst (inode tbl size) where
  block := by
    rcases h with rfl | rfl
    · show (1000 : Nat) ≠ 0
      decide
    · show (1000 : Nat) ≠ 0
      decide
  full := by
    have hsec : (inode tbl size).sector 0 = 1000 := by
      rcases h with rfl | rfl <;> rfl
    rw [hsec]
    show ∀ j < 2, DirEntry.fTypeAt (sectorAt disk 1000) j ≠ ftUnkown
    decide +kernel
  dot := by
    have hsec : (inode tbl size).sector 0 = 1000 := by
      rcases h with rfl | rfl <;> rfl
    rw [hsec]
    show DirEntry.nameAt (sectorAt disk 1000) 0 = dot
    decide +kernel
  dotDot := by
    have hsec : (inode tbl size).sector 0 = 1000 := by
      rcases h with rfl | rfl <;> rfl
    rw [hsec]
    show DirEntry.nameAt (sectorAt disk 1000) 1 = dotDot
    decide +kernel

end TableDir

open TableDir in
theorem deleteDirEntry_deletes_first : DeletesExactly (fs 0 72) .root 0 (inode 0 72) 1 ↔ (inode 0 72).sector 12 = 0 :=
  deleteDirEntry_deletes_iff (fs 0 72) .root 0 (inode 0 72) 1 (layout 0 72) (tableFits 0 72) rfl rfl
    (dirOk (Or.inl ⟨rfl, rfl⟩)) (dotsFirst 0 72 (Or.inl rfl)) (by
      show (dirEntries disk (inode 0 72)).countP (·.Names 1) ≤ 1
      rw [dirEntries_none]
      decide)

open TableDir in
/-- The entry behind the index table is there, alone with its number, and the call reads the table
    through a pointer that is not a disk. -/
theorem delete_entry_with_table :
    (fs 1001 96).DirOk (inode 1001 96) ∧ (fs 1001 96).DotsFirst (inode 1001 96) ∧
      (dirEntries (fs 1001 96).disk (inode 1001 96)).countP (·.Names 2) = 1 ∧
      Stops (deleteDirEntry .root 2) (fs 1001 96) .fault ∧
      ¬ DeletesExactly (fs 1001 96) .root 0 (inode 1001 96) 2 := by
  have hstop : Stops (deleteDirEntry .root 2) (fs 1001 96) .fault := by
    rw [← stopsFor_eq_true]
    decide +kernel
  have hentries : dirEntries (fs 1001 96).disk (inode 1001 96) = (entries ++ [last] : List DirEntry) :=
    dirEntries_table
  refine ⟨dirOk (Or.inr ⟨rfl, rfl⟩), dotsFirst 1001 96 (Or.inr rfl), ?_, hstop, fun h => ?_⟩
  · rw [hentries]
    decide
  · obtain ⟨s', hret, -⟩ := h.found last (by rw [hentries]; decide) (by decide)
    cases hstop.symm.trans hret

end ZxyOs
