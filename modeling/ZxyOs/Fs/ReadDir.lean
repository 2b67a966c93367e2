/-
  ZxyOs.Fs.ReadDir

  `dir_read` (`fs/dir.c`) through `sys_readdir` (`fs/fs.c`), called again and again on
  one handle.

  Every call starts at the first block and counts the entries it passes until the count
  reaches `dir_pose`.  `dir_pose` counts entries, not bytes of the directory: deleted
  slots and block positions without a block do not move it.  So `dir_pose` is 24 times
  the number of entries returned before, and a call returns the next one of them.
-/

import ZxyOs.Fs.Reading
import ZxyOs.Fs.DirDelete

namespace ZxyOs

open Lib Lib.Exec

/-! ## The entries in order -/

/-- The slots in use among `n` slots of a block from `idx` on. -/
def liveSlots (buf : Bytes) (n idx : Nat) : List Nat :=
  (List.range' idx n).filter fun j => DirEntry.fTypeAt buf j ≠ ftUnkown

/-- The entries of the block at `lba` in slot order. -/
def listingAt (disk : Bytes) (lba : Nat) : List DirEntry :=
  if lba = 0 then []
  else (liveSlots (sectorAt disk lba) 21 0).map (DirEntry.decode (sectorAt disk lba))

/-- The entries of `n` blocks of a directory from block `k` on, in block and slot order. -/
def listingFrom (disk : Bytes) (v : Inode) (n k : Nat) : List DirEntry :=
  (List.range' k n).flatMap fun j => listingAt disk (v.blockAddr disk j)

/-- The entries of a directory in block and slot order. -/
def dirListing (disk : Bytes) (v : Inode) : List DirEntry := listingFrom disk v 140 0

section Listing

variable {buf disk : Bytes} {v : Inode} {n idx k : Nat}

theorem liveSlots_live (h : DirEntry.fTypeAt buf idx ≠ ftUnkown) :
    liveSlots buf (n + 1) idx = idx :: liveSlots buf n (idx + 1) := by
  rw [liveSlots, List.range'_succ, List.filter_cons_of_pos (by simpa using h)]
  rfl

theorem liveSlots_deleted (h : DirEntry.fTypeAt buf idx = ftUnkown) :
    liveSlots buf (n + 1) idx = liveSlots buf n (idx + 1) := by
  rw [liveSlots, List.range'_succ, List.filter_cons_of_neg (by simpa using h)]
  rfl

theorem listingFrom_succ :
    listingFrom disk v (n + 1) k = listingAt disk (v.blockAddr disk k) ++ listingFrom disk v n (k + 1) := by
  rw [listingFrom, List.range'_succ, List.flatMap_cons]
  rfl

/-- The listing of some blocks and of the blocks that follow them. -/
theorem listingFrom_add (m n k : Nat) :
    listingFrom disk v (m + n) k = listingFrom disk v m k ++ listingFrom disk v n (k + m) := by
  rw [listingFrom, ← List.range'_append_1, List.flatMap_append]
  rfl

/-- A directory without an index table has its entries in the first twelve blocks. -/
theorem dirListing_no_table (h : v.sector 12 = 0) : dirListing disk v = listingFrom disk v 12 0 := by
  have hrest : listingFrom disk v 128 12 = [] := by
    refine List.flatMap_eq_nil_iff.mpr fun j hj => ?_
    obtain ⟨hlow, -⟩ := List.mem_range'_1.mp hj
    rw [Inode.blockAddr_no_table hlow h, listingAt, if_pos rfl]
  rw [dirListing, show 140 = 12 + 128 from rfl, listingFrom_add, hrest, List.append_nil]

/-! ### As a collection -/

theorem coe_liveSlots (buf : Bytes) (n idx : Nat) :
    ((liveSlots buf n idx).map (DirEntry.decode buf) : Multiset DirEntry)
      = contents n fun j => slotEntry buf (idx + j) := by
  induction n generalizing idx with
  | zero => rfl
  | succ n ih =>
    have hrest : contents (n + 1) (fun j => slotEntry buf (idx + j))
        = slotEntry buf idx + contents n fun j => slotEntry buf (idx + 1 + j) := by
      rw [Nat.add_comm n 1, contents_add]
      congr 1
      · simp [contents]
      · exact contents_congr fun j _ => by rw [Nat.add_assoc]
    rw [hrest, ← ih]
    by_cases h : DirEntry.fTypeAt buf idx = ftUnkown
    · rw [liveSlots_deleted h, slotEntry, if_pos h, zero_add]
    · rw [liveSlots_live h, slotEntry, if_neg h, List.map_cons]
      rfl

theorem coe_listingAt (disk : Bytes) (lba : Nat) :
    (listingAt disk lba : Multiset DirEntry) = entriesAt disk lba := by
  rw [listingAt, entriesAt]
  split
  · rfl
  · rw [coe_liveSlots, blockEntries]
    exact contents_congr fun j _ => by rw [Nat.zero_add]

theorem coe_listingFrom (disk : Bytes) (v : Inode) (n k : Nat) :
    (listingFrom disk v n k : Multiset DirEntry)
      = contents n fun j => entriesAt disk (v.blockAddr disk (k + j)) := by
  induction n generalizing k with
  | zero => rfl
  | succ n ih =>
    rw [listingFrom_succ, ← Multiset.coe_add, coe_listingAt, ih, Nat.add_comm n 1, contents_add]
    congr 1
    · simp [contents]
    · exact contents_congr fun j _ => by rw [Nat.add_assoc]

/-- The listing has every entry of the directory, as often as the directory has it. -/
theorem coe_dirListing (disk : Bytes) (v : Inode) : (dirListing disk v : Multiset DirEntry) = dirEntries disk v := by
  rw [dirListing, coe_listingFrom, dirEntries]
  exact contents_congr fun j _ => by rw [Nat.zero_add]

theorem length_dirListing (disk : Bytes) (v : Inode) : (dirListing disk v).length = (dirEntries disk v).card := by
  rw [← coe_dirListing, Multiset.coe_card]

end Listing

/-! ## One block -/

/-- The entry loop over `n` slots from `idx` on, with `c` of the `k` entries before the
    position passed already: it stops at the entry that has `k - c` entries before it, or
    passes all of them. -/
theorem dirReadScan_eq (buf : Bytes) {c k : Nat} (n idx : Nat) (hc : c ≤ k) :
    dirReadScan buf (24 * k) 24 n idx (24 * c) =
      match (liveSlots buf n idx)[k - c]? with
      | some j => (some j, 24 * k)
      | none => (none, 24 * (c + (liveSlots buf n idx).length)) := by
  induction n generalizing idx c with
  | zero => rfl
  | succ n ih =>
    rw [dirReadScan]
    by_cases hlive : DirEntry.fTypeAt buf idx ≠ ftUnkown
    · rw [if_pos hlive, liveSlots_live hlive]
      by_cases hpass : c < k
      · -- an entry returned by an earlier call
        rw [if_pos (by omega), show 24 * c + 24 = 24 * (c + 1) by omega, ih _ hpass,
          show k - c = k - (c + 1) + 1 by omega, List.getElem?_cons_succ, List.length_cons]
        cases (liveSlots buf n (idx + 1))[k - (c + 1)]? with
        | some j => rfl
        | none =>
          show (none, _) = (none, _)
          rw [show c + 1 + (liveSlots buf n (idx + 1)).length = c + ((liveSlots buf n (idx + 1)).length + 1) by omega]
      · obtain rfl : c = k := by omega
        rw [if_neg (by omega), Nat.sub_self, List.getElem?_cons_zero]
    · have hdead : DirEntry.fTypeAt buf idx = ftUnkown := not_not.mp hlive
      rw [if_neg hlive, liveSlots_deleted hdead, ih _ hc]

/-! ## One call -/

/-- The state with `h` behind the directory handle `d`. -/
def Fs.putDirAt (s : Fs) (d : DirPtr) (h : Dir) : Fs :=
  match d with
  | .root => { s with rootDir := h }
  | .heap a => { s with dirs := Function.update s.dirs a (some h) }

/-- `d` is a handle of the directory `v`, whose inode is at `a`, with `k` entries returned:
    the blocks of the directory lie on the disk, and its size counts its entries. -/
structure Fs.Reading (s : Fs) (d : DirPtr) (a : Nat) (v : Inode) (k : Nat) : Prop where
  entrySize : s.part.sb.dirEntrySize = 24
  pose : Returns (getDir d) s ⟨a, 24 * k⟩ s
  inode : s.inodes a = some v
  blocks : ∀ j < 140, v.blockAddr s.disk j ≤ maxLba
  table : v.sector 12 ≤ maxLba
  size : v.iSize = 24 * (dirListing s.disk v).length

section Calls

variable {s : Fs} {d : DirPtr} {a k : Nat} {v : Inode}

@[simp] theorem returns_putDir {h : Dir} {u : Unit} {s' : Fs} :
    Returns (putDir d h) s u s' ↔ s.putDirAt d h = s' := by
  cases d <;> simp [putDir, Fs.putDirAt]

@[simp] theorem Fs.disk_putDirAt (h : Dir) : (s.putDirAt d h).disk = s.disk := by
  cases d <;> rfl

/-- A handle that moves on by one entry is again a handle of the directory. -/
theorem Fs.Reading.next (hr : s.Reading d a v k) : (s.putDirAt d ⟨a, 24 * (k + 1)⟩).Reading d a v (k + 1) where
  entrySize := by
    cases d <;> exact hr.entrySize
  pose := by
    cases d with
    | root => simp [getDir, Fs.putDirAt]
    | heap b => simp [getDir, Fs.putDirAt]
  inode := by
    cases d <;> exact hr.inode
  blocks := by
    rw [Fs.disk_putDirAt]
    exact hr.blocks
  table := hr.table
  size := by
    rw [Fs.disk_putDirAt]
    exact hr.size

/-- The handle after a call: on by one entry where there was one. -/
def Fs.afterRead (s : Fs) (d : DirPtr) (a k : Nat) (more : Bool) : Fs :=
  if more then s.putDirAt d ⟨a, 24 * (k + 1)⟩ else s

theorem Fs.afterRead_more {p : Prop} [Decidable p] (h : p) : s.afterRead d a k p = s.putDirAt d ⟨a, 24 * (k + 1)⟩ :=
  if_pos (decide_eq_true h)

theorem Fs.afterRead_done {p : Prop} [Decidable p] (h : ¬ p) : s.afterRead d a k p = s :=
  if_neg (by simpa using h)

/-- The block loop over `n` blocks from block `b` on, with `c` of the `k` entries before
    the position passed: while the position is below the size of the directory it returns
    the entry that has `k - c` entries before it, if there is one. -/
theorem returns_dirReadLoop {size c : Nat} (n b : Nat) (hc : c ≤ k) (hlt : 24 * k < size)
    (hblocks : ∀ j < b + n, v.blockAddr s.disk j ≤ maxLba) :
    Returns (dirReadLoop d ⟨a, 24 * k⟩ size (v.blockAddr s.disk) 24 n b (24 * c)) s
      (listingFrom s.disk v n b)[k - c]?
      (s.afterRead d a k (k - c < (listingFrom s.disk v n b).length)) := by
  induction n generalizing b c with
  | zero => exact returns_pure.mpr ⟨rfl, rfl⟩
  | succ n ih =>
    rw [dirReadLoop, if_neg (by show ¬ 24 * k ≥ size; omega), listingFrom_succ]
    have hrest : ∀ j < b + 1 + n, v.blockAddr s.disk j ≤ maxLba := fun j hj => hblocks j (by omega)
    by_cases hhole : v.blockAddr s.disk b = 0
    · rw [if_pos hhole, hhole, listingAt, if_pos rfl, List.nil_append]
      exact ih (b + 1) hc hrest
    · rw [if_neg hhole, listingAt, if_neg hhole]
      set block := sectorAt s.disk (v.blockAddr s.disk b)
      have hread : Returns (ideRead (v.blockAddr s.disk b) 1 512) s block s :=
        returns_ideRead_sector.mpr ⟨hblocks b (by omega), by decide, rfl, rfl⟩
      have hscan : dirReadScan block (24 * k) 24 (512 / 24) 0 (24 * c) = _ := dirReadScan_eq block 21 0 hc
      rw [returns_bind_iff hread]
      dsimp only
      rw [hscan]
      set here := liveSlots block 21 0
      cases hfound : here[k - c]? with
      | some j =>
        -- the entry is in this block, and the count has reached the position
        obtain ⟨hj, -⟩ := List.getElem?_eq_some_iff.mp hfound
        have hassert : Returns (assert (24 * k = 24 * k)) s () s := (returns_assert _ ()).mpr ⟨rfl, rfl⟩
        have hput : Returns (putDir d ⟨a, 24 * k + 24⟩) s () (s.putDirAt d ⟨a, 24 * k + 24⟩) :=
          returns_putDir.mpr rfl
        rw [returns_bind_iff hassert, returns_bind_iff hput, returns_pure,
          List.getElem?_append_left (by simpa using hj), List.getElem?_map, hfound]
        refine ⟨rfl, ?_⟩
        rw [Fs.afterRead_more (by rw [List.length_append, List.length_map]; omega)]
        rfl
      | none =>
        -- every entry of this block was returned by an earlier call
        have hpassed : here.length ≤ k - c := List.getElem?_eq_none_iff.mp hfound
        have hlater := ih (b + 1) (show c + here.length ≤ k by omega) hrest
        rw [List.getElem?_append_right (by simpa using hpassed), List.length_map, List.length_append, List.length_map,
          show k - c - here.length = k - (c + here.length) by omega]
        convert hlater using 2
        simp only [decide_eq_decide]
        omega

/-- One call after `k` entries: the next entry, or `NULL` after the last one. -/
theorem returns_dirRead (hr : s.Reading d a v k) :
    Returns (dirRead d) s (dirListing s.disk v)[k]? (s.afterRead d a k (k < (dirListing s.disk v).length)) := by
  have hinode : Returns (getInode a) s v s := returns_getInode.mpr ⟨hr.inode, rfl⟩
  have hread : Returns (readAllBlocks v) s (v.blockAddr s.disk) s :=
    returns_readAllBlocks.mpr ⟨fun _ => hr.table, rfl, rfl⟩
  have hquery : Returns (query id) s s s := (returns_query _).mpr ⟨rfl, rfl⟩
  rw [dirRead, returns_bind_iff hr.pose, returns_bind_iff hinode, returns_bind_iff hread,
    returns_bind_iff hquery, hr.entrySize, hr.size]
  by_cases hmore : k < (dirListing s.disk v).length
  · have hloop (n : Nat) (hn : n ≤ 140) := returns_dirReadLoop (s := s) (d := d) (a := a) (v := v) n 0 (Nat.zero_le k)
      (show 24 * k < 24 * (dirListing s.disk v).length by omega) fun j hj => hr.blocks j (by omega)
    simp only [Nat.mul_zero, Nat.sub_zero] at hloop
    by_cases h12 : v.sector 12 = 0
    · rw [if_neg (not_not.mpr h12)]
      have hlisted : dirListing s.disk v = _ := dirListing_no_table h12
      have h := hloop 12 (by decide)
      rwa [← hlisted] at h
    · rw [if_pos h12]
      exact hloop 140 le_rfl
  · -- the position is behind the size, which the loop looks at first
    have hstop (n : Nat) : Returns (dirReadLoop d ⟨a, 24 * k⟩ (24 * (dirListing s.disk v).length)
        (v.blockAddr s.disk) 24 n 0 0) s none s := by
      cases n with
      | zero => exact returns_pure.mpr ⟨rfl, rfl⟩
      | succ n =>
        rw [dirReadLoop, if_pos (by show 24 * k ≥ _; omega)]
        exact returns_pure.mpr ⟨rfl, rfl⟩
    rw [List.getElem?_eq_none (by omega), Fs.afterRead_done (by omega)]
    exact hstop _

theorem returns_sysReaddir (hr : s.Reading d a v k) :
    Returns (sysReaddir (some d)) s (dirListing s.disk v)[k]?
      (s.afterRead d a k (k < (dirListing s.disk v).length)) := by
  have hassert : Returns (assert (some d ≠ none)) s () s := (returns_assert _ ()).mpr ⟨by simp, rfl⟩
  have hderef : Returns (deref (some d)) s d s := (returns_deref _).mpr ⟨rfl, rfl⟩
  rw [sysReaddir, returns_bind_iff hassert, returns_bind_iff hderef]
  exact returns_dirRead hr

end Calls

/-! ## All calls -/

/-- `n` calls of `sys_readdir` on one handle, and what they return. -/
def readMany (d : DirPtr) : Nat → FsM (List (Option DirEntry))
  | 0 => return []
  | n + 1 => do
    let e ← sysReaddir (some d)
    let es ← readMany d n
    return e :: es

section Runs

variable {s : Fs} {d : DirPtr} {a k : Nat} {v : Inode}

theorem take_padded {α : Type} (xs : List (Option α)) (n : Nat) :
    (xs ++ List.replicate (n + 1) none).take n = (xs ++ List.replicate n none).take n := by
  rw [List.replicate_succ', ← List.append_assoc]
  exact List.take_append_of_le_length (by rw [List.length_append, List.length_replicate]; omega)

/-- From the `k`-th entry on: the entries that are left, one a call, and then `NULL`. -/
theorem returns_readMany (n : Nat) (hr : s.Reading d a v k) (hk : k ≤ (dirListing s.disk v).length) :
    ∃ s', Returns (readMany d n) s
        ((((dirListing s.disk v).drop k).map some ++ List.replicate n none).take n) s' ∧ s'.disk = s.disk := by
  -- by induction on the calls left; the handle has returned `k` entries before each
  induction n generalizing s k with
  | zero => exact ⟨s, returns_pure.mpr ⟨(List.take_zero).symm, rfl⟩, rfl⟩
  | succ n ih =>
    have hcall := returns_sysReaddir hr
    simp only [readMany, returns_bind_iff hcall]
    by_cases hmore : k < (dirListing s.disk v).length
    · have hdisk := Fs.disk_putDirAt (s := s) (d := d) ⟨a, 24 * (k + 1)⟩
      obtain ⟨s', hrest, hsame⟩ := ih hr.next (by rw [hdisk]; exact hmore)
      rw [hdisk] at hrest hsame
      refine ⟨s', ?_, hsame⟩
      rw [Fs.afterRead_more hmore, returns_bind_iff hrest, returns_pure, List.getElem?_eq_getElem hmore,
        List.drop_eq_getElem_cons hmore, List.map_cons, List.cons_append, List.take_succ_cons, take_padded]
      exact ⟨rfl, rfl⟩
    · -- every entry was returned: nothing changes any more
      have hall : (dirListing s.disk v).drop k = [] := List.drop_eq_nil_iff.mpr (by omega)
      obtain ⟨s', hrest, hsame⟩ := ih hr hk
      refine ⟨s', ?_, hsame⟩
      rw [Fs.afterRead_done (by omega), returns_bind_iff hrest, returns_pure, List.getElem?_eq_none (by omega), hall]
      exact ⟨rfl, rfl⟩

/-- A handle just opened on a well-formed directory. -/
theorem Fs.DirOk.reading (hd : s.DirOk v) (hsize : s.part.sb.dirEntrySize = 24) (hinode : s.inodes a = some v)
    (hpose : Returns (getDir d) s ⟨a, 0⟩ s) : s.Reading d a v 0 where
  entrySize := hsize
  pose := hpose
  inode := hinode
  blocks := hd.toEntriesOk.listed.blocks
  table := hd.toEntriesOk.listed.table
  size := by
    rw [length_dirListing]
    exact hd.size

/-- From `dir_pose` 0, `n` calls of `sys_readdir` return the entries of the directory in
    block and slot order, each once, and then `NULL`, and leave the disk alone. -/
theorem readdir_enumerates (s : Fs) (d : DirPtr) (a : Nat) (v : Inode) (hr : s.Reading d a v 0) (n : Nat) :
    ∃ s', Returns (readMany d n) s (((dirListing s.disk v).map some ++ List.replicate n none).take n) s' ∧
      s'.disk = s.disk :=
  returns_readMany n hr (Nat.zero_le _)

end Runs

namespace TableDir

theorem reading : (fs 1001 96).Reading .root 0 (inode 1001 96) 0 :=
  (dirOk (Or.inr ⟨rfl, rfl⟩)).reading rfl rfl ((returns_query _).mpr ⟨rfl, rfl⟩)

theorem dirListing_table : dirListing disk (inode 1001 96) = entries ++ [last] := by decide +kernel

/-- Six calls on a directory with three entries in its first block, eleven positions
    without a block and one entry behind the index table. -/
theorem readdir_enumerates_table :
    ∃ s', Returns (readMany .root 6) (fs 1001 96)
        ((entries.map some ++ [some last]) ++ [none, none]) s' ∧ s'.disk = disk := by
  have hrun := readdir_enumerates (fs 1001 96) .root 0 (inode 1001 96) reading 6
  have hdisk : (fs 1001 96).disk = disk := rfl
  rw [hdisk, dirListing_table] at hrun
  exact hrun

end TableDir

end ZxyOs
