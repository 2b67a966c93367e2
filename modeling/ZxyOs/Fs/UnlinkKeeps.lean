/-
  ZxyOs.Fs.UnlinkKeeps

  Deleting a file keeps the file system in order.

  The directory keeps its blocks: one slot of them is cleared, and it is none of the first two,
  as these name directories.  What the other inodes own stays in use, as no two of them share a
  block, and nothing refers to the number that has been given back: the file was not open, so
  it was not cached either.
-/

import ZxyOs.Fs.MkdirKeeps

namespace ZxyOs

open Lib Lib.Exec

/-- A closed file has been removed, from a directory with a slot of its own to be synchronised to, and with all
    its blocks. -/
structure UnlinkDone (s t u s' : Fs) (p : DirPtr) (d a n c j : Nat) (v w : Inode) (e : DirEntry) : Prop
    extends UnlinkRun s t u s' p d a n c j v w e where
  small : d < 256
  last : (s.content n).blockAddr s.disk 139 = 0
  closed : ¬ s.IsOpenFile n

namespace UnlinkDone

variable {s t u s' : Fs} {p : DirPtr} {d a n c j i k m lba : Nat} {v w : Inode} {e : DirEntry} {name : CStr}

theorem removed (h : UnlinkDone s t u s' p d a n c j v w e) : Removed s s' d n :=
  h.unlinking.removed h.place.1 h.block h.place.2 h.full h.entry h.small h.sector h.blockAddr h.last h.released
    h.toUnlinkRun.part h.final h.others h.self

theorem isFile (h : UnlinkDone s t u s' p d a n c j v w e) : s.IsFile n := h.unlinking.isFile

theorem part_eq (h : UnlinkDone s t u s' p d a n c j v w e) : s'.part = s.part := h.removed.part

theorem ge_data (h : UnlinkDone s t u s' p d a n c j v w e) : s.part.sb.dataStartLba ≤ v.sector c :=
  (h.unlinking.store.inUse (Or.inl h.unlinking.dir) (h.unlinking.owns h.place.1 h.block)).ge

/-! ## Numbers and slots -/

/-- Nothing refers to the file: it is no directory, and it was not open. -/
theorem not_cached (h : UnlinkDone s t u s' p d a n c j v w e) (hs : s.InOrder) {b : Nat} {x : Inode}
    (hx : s.inodes b = some x) : x.iNo ≠ n := by
  intro hno
  rcases hs.cachedFor b x hx with hdir | ⟨g, hg, hfile, hring⟩
  · exact hs.notDir n h.isFile (hno ▸ hdir)
  · exact h.closed ⟨g, hg, b, x, hfile, hring, hx, hno⟩

theorem not_cached_end (h : UnlinkDone s t u s' p d a n c j v w e) (hs : s.InOrder) (hset : Settled s s') {b : Nat}
    {x : Inode} (hx : s'.inodes b = some x) : x.iNo ≠ n := by
  obtain ⟨y, hy, hno⟩ := hset.cachedAs hs.cache hx
  rw [← hno]
  exact h.not_cached hs hy

theorem slot_other (h : UnlinkDone s t u s' p d a n c j v w e) (hi : i < 4096) (hin : i ≠ n) (hid : i ≠ d) :
    s'.slot i = s.slot i :=
  h.unlinking.slot_left h.ge_data h.released h.toUnlinkRun.part h.final hi hin (by rwa [Nat.mod_eq_of_lt h.small])

theorem coherent (h : UnlinkDone s t u s' p d a n c j v w e) (hs : s.InOrder) (hset : Settled s s') : s'.Coherent i := by
  intro b x hx hno
  have hin : i ≠ n := by
    rintro rfl
    exact h.not_cached_end hs hset hx hno
  by_cases hid : i = d
  · subst hid
    rw [h.self b x hno hx, h.removed.slot, ← h.unlinking.on.content]
    rfl
  · rw [h.slot_other (hno ▸ hset.numberLt hs b x hx) hin hid]
    exact hs.coherent i b x (h.others b x (hno ▸ hid) (hno ▸ hin) hx) hno

/-! ## Blocks -/

/-- What another inode of the tree owns is in use still. -/
theorem inUse_kept (h : UnlinkDone s t u s' p d a n c j v w e) (hi : s.InTree i) (hin : i ≠ n) (hown : s.Owns i lba) :
    s'.InUse lba := by
  have huse := h.unlinking.store.inUse hi hown
  obtain ⟨hmax, b, hb, hbit, hlba⟩ := huse
  refine ⟨hmax, b, ?_, (h.removed.blocks b).mpr ⟨hbit, fun hbelow => ?_⟩, by rw [h.part_eq]; exact hlba⟩
  · have hlen : s'.blockBitmap.size = s.blockBitmap.size := by
      rw [h.final.blockBitmap, Bitmap.size, h.released.blockLen]
      exact congrArg Bitmap.size h.unlinking.same.blockBitmap
    rw [hlen]
    exact hb
  · -- the file would own the block
    refine hin (h.unlinking.store.apart i n lba hi (Or.inr h.isFile) hown ⟨hown.1, ?_⟩)
    have hgive {x : Nat} (hx : s.Owns n x) (hbx : b = x - s.part.sb.dataStartLba) : lba = x := by
      have hge := (h.unlinking.store.inUse (Or.inr h.isFile) hx).ge
      omega
    rcases hbelow with ⟨hne, hbx⟩ | ⟨k, hk, hne, hbx⟩
    · exact Or.inl (hgive ⟨hne, Or.inl rfl⟩ hbx)
    · exact Or.inr ⟨k, hk, (hgive ⟨hne, Or.inr ⟨k, hk, rfl⟩⟩ hbx).symm⟩

/-- The directory has its blocks where it had them. -/
theorem sector_dir (h : UnlinkDone s t u s' p d a n c j v w e) : (s'.content d).sector = v.sector := by
  rw [h.removed.content, ← h.unlinking.on.content]
  rfl

theorem sector_was (h : UnlinkDone s t u s' p d a n c j v w e) : (s.content d).sector = v.sector := by
  rw [← h.unlinking.on.content]
  rfl

theorem blockAddr_dir (h : UnlinkDone s t u s' p d a n c j v w e) :
    (s'.content d).blockAddr s'.disk k = (s.content d).blockAddr s.disk k := by
  by_cases hk : k < 12
  · rw [Inode.blockAddr_direct hk, Inode.blockAddr_direct hk, h.sector_dir, h.sector_was]
  · -- there is no index table
    have hk' : 12 ≤ k := Nat.not_lt.mp hk
    rw [Inode.blockAddr_no_table hk' (by rw [h.sector_dir]; exact h.table),
      Inode.blockAddr_no_table hk' (by rw [h.sector_was]; exact h.table)]

/-- A block of the directory is the one with the cleared slot, or as it was. -/
theorem block_dir (h : UnlinkDone s t u s' p d a n c j v w e) (hk : k < 140) (hne : (s.content d).blockAddr s.disk k ≠ 0) :
    sectorAt s'.disk ((s.content d).blockAddr s.disk k) = sectorAt s.disk ((s.content d).blockAddr s.disk k) ∨
      k = c ∧ sectorAt s'.disk ((s.content d).blockAddr s.disk k) =
        ((sectorAt s.disk (v.sector c)).splice (24 * j) 24 Bytes.zero).window 0 512 := by
  have hown : s.Owns d ((s.content d).blockAddr s.disk k) := ⟨hne, Or.inr ⟨k, hk, rfl⟩⟩
  have hdata := (h.unlinking.store.inUse (Or.inl h.unlinking.dir) hown).ge
  have hl : (t.clearEntry a v (v.sector c) j).Layout := by
    have hl := h.unlinking.layout
    exact ⟨hl.entrySize, hl.blockBitmap, hl.inodeBitmap, hl.inodeTable, hl.nonempty⟩
  have hpart : (t.clearEntry a v (v.sector c) j).part = s.part := h.unlinking.same.part
  have hend : sectorAt s'.disk ((s.content d).blockAddr s.disk k) =
      sectorAt (t.clearEntry a v (v.sector c) j).disk ((s.content d).blockAddr s.disk k) := by
    rw [h.final.disk]
    exact h.released.sectorAt_data hl (h.unlinking.store.inMap n (Or.inr h.isFile)).1 (by rw [hpart]; exact hdata)
  rw [hend]
  by_cases hkc : k = c
  · right
    have haddr : (s.content d).blockAddr s.disk k = v.sector c := by
      rw [hkc, Inode.blockAddr_direct h.place.1, h.sector_was]
    have hdata' : t.part.sb.dataStartLba ≤ v.sector c := by
      rw [h.unlinking.same.part]
      exact h.ge_data
    refine ⟨hkc, ?_⟩
    rw [haddr]
    show sectorAt (Bytes.splice _ (t.slotAddr (v.iNo % 256)) 76 _) (v.sector c) = _
    rw [h.unlinking.layout.sectorAt_slot (by omega) hdata', sectorAt_writeSector_self, h.unlinking.same.disk]
  · left
    refine h.unlinking.sectorAt_cleared hdata fun heq => hkc ?_
    have hc : (s.content d).blockAddr s.disk c = v.sector c := by
      rw [Inode.blockAddr_direct h.place.1, h.sector_was]
    exact (h.unlinking.store.blocks d (Or.inl h.unlinking.dir)).inj k hk c (by have := h.place.1; omega) hne (heq.trans hc.symm)

/-- The cleared slot is none of the first two. -/
theorem slot_ge (h : UnlinkDone s t u s' p d a n c j v w e) (hc : c = 0) : 2 ≤ j := by
  obtain ⟨-, hdot, hdotDot⟩ := (h.unlinking.names_iff h.unlinking.mem).mpr rfl
  have hdots := h.unlinking.dotsFirst
  have hentry := h.entry
  rw [hc] at hentry
  by_contra hlt
  obtain rfl | rfl : j = 0 ∨ j = 1 := by omega
  · exact hdot ((congrArg DirEntry.filename hentry).symm.trans hdots.dot)
  · exact hdotDot ((congrArg DirEntry.filename hentry).symm.trans hdots.dotDot)

/-! ## The directory -/

theorem inodeOk_dir (h : UnlinkDone s t u s' p d a n c j v w e) (hs : s.InOrder) : s'.InodeOk d := by
  have hdir := h.unlinking.dir
  have hold := hs.inodeOk (Or.inl hdir)
  have h12 : (s'.content d).sector 12 = 0 := by
    rw [h.sector_dir]
    exact h.table
  have hlen : s'.inodeMap.size = s.inodeMap.size := by
    rw [h.final.inodeMap, Bitmap.size, h.released.inodeLen]
    exact congrArg Bitmap.size h.unlinking.same.inodeMap
  refine ⟨⟨hold.inMap.1, hlen ▸ hold.inMap.2⟩, (h.removed.inodes d).mpr ⟨hold.used, h.unlinking.ne.symm⟩, ?_,
    ⟨fun k hk hne => ?_, fun hne => absurd h12 hne, ?_, fun k hk hne => absurd h12 hne⟩⟩
  · rw [h.removed.content]
    exact hold.own
  · rw [h.blockAddr_dir] at hne ⊢
    exact h.inUse_kept (Or.inl hdir) h.unlinking.ne.symm ⟨hne, Or.inr ⟨k, hk, rfl⟩⟩
  · intro k hk m hm hne heq
    rw [h.blockAddr_dir] at hne heq
    rw [h.blockAddr_dir] at heq
    exact hold.blocks.inj k hk m hm hne heq

/-- The entries that are left. -/
theorem entries_dir (h : UnlinkDone s t u s' p d a n c j v w e) : s.entries d = e ::ₘ s'.entries d := by
  obtain ⟨e', hty, hno, hentries⟩ := h.removed.entry
  have hmem : e' ∈ s.entries d := by
    rw [hentries]
    exact Multiset.mem_cons_self _ _
  obtain ⟨-, rfl⟩ := h.unlinking.store.once d d e' e h.unlinking.dir h.unlinking.dir hmem h.unlinking.mem hty
    h.unlinking.file (hno.trans h.unlinking.number.symm)
  exact hentries

theorem entries_sub (h : UnlinkDone s t u s' p d a n c j v w e) {x : DirEntry} (hx : x ∈ s'.entries d) : x ∈ s.entries d := by
  rw [h.entries_dir]
  exact Multiset.mem_cons_of_mem hx

/-- The first two slots of the directory are as they were. -/
theorem dots_kept (h : UnlinkDone s t u s' p d a n c j v w e) (hs : s.InOrder) (hm : m < 2) :
    DirEntry.decode (sectorAt s'.disk ((s.content d).sector 0)) m =
      DirEntry.decode (sectorAt s.disk ((s.content d).sector 0)) m := by
  have haddr : (s.content d).blockAddr s.disk 0 = (s.content d).sector 0 := Inode.blockAddr_direct (by decide)
  have hblock := h.block_dir (k := 0) (by decide) (by rw [haddr]; exact (hs.dirAt h.unlinking.dir).dots.block)
  rw [haddr] at hblock
  rcases hblock with hsame | ⟨hc, hsplice⟩
  · rw [hsame]
  · have hge := h.slot_ge hc.symm
    have hsec : v.sector c = (s.content d).sector 0 := by rw [← hc, h.sector_was]
    have hwindow : DirEntry.decode (((sectorAt s.disk (v.sector c)).splice (24 * j) 24 Bytes.zero).window 0 512) m =
        DirEntry.decode ((sectorAt s.disk (v.sector c)).splice (24 * j) 24 Bytes.zero) m :=
      DirEntry.decode_congr fun k hk => by rw [Bytes.window_apply (by omega), Nat.zero_add]
    rw [hsplice, hwindow, decode_splice_ne (by omega), hsec]

theorem dirAt_dir (h : UnlinkDone s t u s' p d a n c j v w e) (hs : s.InOrder) : s'.DirAt d := by
  have hold := hs.dirAt h.unlinking.dir
  have hentries : dirEntries s'.disk (s'.content d) = s'.entries d := rfl
  have hwas := h.entries_dir
  have hsec : (s'.content d).sector = (s.content d).sector := h.sector_dir.trans h.sector_was.symm
  refine ⟨⟨⟨(h.inodeOk_dir hs).blocks, fun k hk hne => ?_, ?_⟩, ?_⟩, ⟨?_, fun m hm => ?_, ?_, ?_⟩,
    fun x hx => hold.types x (h.entries_sub hx), fun k hk hne => ?_⟩
  · rw [h.blockAddr_dir] at hne ⊢
    have hslots := hold.dirOk.slots k hk hne
    rcases h.block_dir hk hne with hsame | ⟨hc, hsplice⟩
    · rw [hsame]
      exact hslots
    · rw [hc, Inode.blockAddr_direct h.place.1, h.sector_was] at hslots
      rw [hsplice]
      exact slotsOk_window (slotsOk_splice_zero hslots)
  · have hnames := hold.dirOk.names
    show ((s'.entries d).map DirEntry.filename).Nodup
    rw [show dirEntries s.disk (s.content d) = s.entries d from rfl, hwas, Multiset.map_cons, Multiset.nodup_cons] at hnames
    exact hnames.2
  · have hsize := hold.dirOk.size
    rw [show dirEntries s.disk (s.content d) = s.entries d from rfl, hwas, Multiset.card_cons] at hsize
    rw [hentries, h.removed.content]
    show (s.content d).iSize - 24 = _
    omega
  · rw [hsec]
    exact hold.dots.block
  · have hty := congrArg DirEntry.fType (h.dots_kept hs hm)
    rw [hsec]
    show (DirEntry.decode _ m).fType ≠ _
    rw [hty]
    exact hold.dots.full m hm
  · rw [hsec]
    exact (congrArg DirEntry.filename (h.dots_kept hs (by decide : 0 < 2))).trans hold.dots.dot
  · rw [hsec]
    exact (congrArg DirEntry.filename (h.dots_kept hs (by decide : 1 < 2))).trans hold.dots.dotDot
  · rw [h.blockAddr_dir] at hne ⊢
    have hzero := hold.zero k hk hne
    rcases h.block_dir hk hne with hsame | ⟨hc, hsplice⟩
    · rw [hsame]
      exact hzero
    · rw [hc, Inode.blockAddr_direct h.place.1, h.sector_was] at hzero
      rw [hsplice]
      exact slotsZero_window (slotsZero_splice_zero hzero)

/-! ## The tree -/

theorem entries_kept (h : UnlinkDone s t u s' p d a n c j v w e) (hi : s.InTree i) (hid : i ≠ d) (hin : i ≠ n) :
    s'.entries i = s.entries i :=
  (h.removed.others i hi hid hin).2.2

/-- A directory has the entries it had, but for the one that was removed. -/
theorem mem_entries (h : UnlinkDone s t u s' p d a n c j v w e) (hi : s.IsDir i) {x : DirEntry} :
    x ∈ s'.entries i ↔ x ∈ s.entries i ∧ (i = d → x ≠ e) := by
  by_cases hid : i = d
  · subst hid
    have hnames := (h.unlinking.store.dirOk i hi).names
    rw [show dirEntries s.disk (s.content i) = s.entries i from rfl, h.entries_dir, Multiset.map_cons,
      Multiset.nodup_cons] at hnames
    rw [h.entries_dir, Multiset.mem_cons]
    constructor
    · intro hx
      refine ⟨Or.inr hx, fun _ => ?_⟩
      rintro rfl
      exact hnames.1 (Multiset.mem_map_of_mem _ hx)
    · rintro ⟨hx, hne⟩
      exact hx.resolve_left (hne rfl)
  · have hin : i ≠ n := by
      rintro rfl
      exact h.unlinking.store.notDir i h.isFile hi
    rw [h.entries_kept (Or.inl hi) hid hin]
    exact (and_iff_left fun hd => absurd hd hid).symm

theorem isDir_iff (h : UnlinkDone s t u s' p d a n c j v w e) : s'.IsDir i ↔ s.IsDir i := by
  constructor
  · intro hi
    induction hi with
    | root => exact .root
    | child hm hx hty ih => exact ih.child ((h.mem_entries ih).mp hx).1 hty
  · intro hi
    induction hi with
    | root => exact .root
    | child hm hx hty ih =>
      refine ih.child ((h.mem_entries hm).mpr ⟨hx, fun _ => ?_⟩) hty
      rintro rfl
      have hfile := h.unlinking.file
      rw [hty] at hfile
      cases hfile

theorem isFile_iff (h : UnlinkDone s t u s' p d a n c j v w e) : s'.IsFile i ↔ s.IsFile i ∧ i ≠ n := by
  constructor
  · rintro ⟨m, hm, x, hx, hty, hno⟩
    have hm' := h.isDir_iff.mp hm
    obtain ⟨hold, hne⟩ := (h.mem_entries hm').mp hx
    refine ⟨⟨m, hm', x, hold, hty, hno⟩, ?_⟩
    rintro rfl
    -- no other entry has the number
    obtain ⟨hmd, hxe⟩ := h.unlinking.store.once m d x e hm' h.unlinking.dir hold h.unlinking.mem hty h.unlinking.file
      (hno.trans h.unlinking.number.symm)
    exact hne hmd hxe
  · rintro ⟨⟨m, hm, x, hx, hty, hno⟩, hne⟩
    refine ⟨m, h.isDir_iff.mpr hm, x, (h.mem_entries hm).mpr ⟨hx, fun _ => ?_⟩, hty, hno⟩
    rintro rfl
    exact hne (hno.symm.trans h.unlinking.number)

theorem inTree_iff (h : UnlinkDone s t u s' p d a n c j v w e) : s'.InTree i ↔ s.InTree i ∧ i ≠ n := by
  have hne (hdir : s.IsDir i) : i ≠ n := by
    rintro rfl
    exact h.unlinking.store.notDir i h.isFile hdir
  unfold Fs.InTree
  rw [h.isDir_iff, h.isFile_iff, or_and_right, and_iff_left_of_imp hne]

theorem inodeOk (h : UnlinkDone s t u s' p d a n c j v w e) (hs : s.InOrder) (hi : s'.InTree i) : s'.InodeOk i := by
  obtain ⟨hold, hin⟩ := h.inTree_iff.mp hi
  by_cases hid : i = d
  · rw [hid]
    exact h.inodeOk_dir hs
  · obtain ⟨hspared, hcontent, -⟩ := h.removed.others i hold hid hin
    refine hspared.inodeOk hcontent ?_ ((h.removed.inodes i).mpr ⟨hs.used i hold, hin⟩)
      (fun lba hown => h.inUse_kept hold hin hown) (hs.inodeOk hold)
    rw [h.final.inodeMap, Bitmap.size, h.released.inodeLen]
    exact congrArg Bitmap.size h.unlinking.same.inodeMap

theorem dirAt (h : UnlinkDone s t u s' p d a n c j v w e) (hs : s.InOrder) (hi : s'.IsDir i) : s'.DirAt i := by
  have hold := h.isDir_iff.mp hi
  by_cases hid : i = d
  · rw [hid]
    exact h.dirAt_dir hs
  · have hin : i ≠ n := by
      rintro rfl
      exact h.unlinking.store.notDir i h.isFile hold
    obtain ⟨hspared, hcontent, hentries⟩ := h.removed.others i (Or.inl hold) hid hin
    exact hspared.dirAt hcontent hentries (h.inodeOk hs (Or.inl hi)) (hs.dirAt hold)

theorem node (h : UnlinkDone s t u s' p d a n c j v w e) (hs : s.InOrder) (hi : s'.IsDir i) : s'.DirNode i :=
  (h.dirAt hs hi).node (h.inodeOk hs (Or.inl hi))

/-- What an inode owns it owned before. -/
theorem owner (h : UnlinkDone s t u s' p d a n c j v w e) (hi : s'.InTree i) (hown : s'.Owns i lba) : s.Owns i lba := by
  obtain ⟨hold, hin⟩ := h.inTree_iff.mp hi
  obtain ⟨hne, hown⟩ := hown
  refine ⟨hne, ?_⟩
  by_cases hid : i = d
  · subst hid
    simp only [h.blockAddr_dir] at hown
    rwa [h.sector_dir, ← h.sector_was] at hown
  · obtain ⟨hspared, hcontent, -⟩ := h.removed.others i hold hid hin
    rwa [hcontent, hspared.blockAddr] at hown

/-! ## Names -/

/-- The directory names everything as before, but not the file. -/
theorem names_dir (h : UnlinkDone s t u s' p d a n c j v w e) (hs : s.InOrder) :
    s'.names d name = if name = e.filename then none else s.names d name := by
  have hdir := h.unlinking.dir
  split
  · next hname =>
    rw [Fs.names_eq_none]
    intro x hx hxname
    -- the name is the one of the removed entry
    obtain ⟨hold, hne⟩ := (h.mem_entries hdir).mp hx
    have hlisted := (hs.node d hdir).listed
    exact hne rfl (hlisted.unique hold h.unlinking.mem (hxname.trans hname))
  · next hname =>
    cases hwas : s.names d name with
    | some ch =>
      obtain ⟨x, hx, rfl, rfl⟩ := Fs.exists_of_names hwas
      refine (h.node hs (h.isDir_iff.mpr hdir)).names_eq ((h.mem_entries hdir).mpr ⟨hx, fun _ => ?_⟩)
      rintro rfl
      exact hname rfl
    | none =>
      rw [Fs.names_eq_none] at hwas ⊢
      exact fun x hx => hwas x ((h.mem_entries hdir).mp hx).1

theorem names_kept (h : UnlinkDone s t u s' p d a n c j v w e) (hi : s.IsDir i) (hid : i ≠ d) : s'.names i = s.names i := by
  have hin : i ≠ n := by
    rintro rfl
    exact h.unlinking.store.notDir i h.isFile hi
  unfold Fs.names
  rw [h.entries_kept (Or.inl hi) hid hin]

/-- The entry was the file's. -/
theorem names_was (h : UnlinkDone s t u s' p d a n c j v w e) (hs : s.InOrder) : s.names d e.filename = some (.file n) := by
  rw [(hs.node d h.unlinking.dir).names_eq h.unlinking.mem, DirEntry.child_file h.unlinking.file, h.unlinking.number]

/-- Directories are named as they were. -/
theorem names_dir_iff (h : UnlinkDone s t u s' p d a n c j v w e) (hs : s.InOrder) (hi : s.IsDir i) :
    s'.names i name = some (.dir m) ↔ s.names i name = some (.dir m) := by
  by_cases hid : i = d
  · subst hid
    rw [h.names_dir hs]
    split
    · next hname =>
      rw [hname, h.names_was hs]
      simp
    · exact Iff.rfl
  · rw [h.names_kept hi hid]

/-- Deleting a file keeps the file system in order. -/
theorem inOrder (h : UnlinkDone s t u s' p d a n c j v w e) (hs : s.InOrder) (hset : Settled s s') : s'.InOrder where
  cache := hset.ok
  live := hset.live
  entrySize := by rw [hset.part]; exact hs.entrySize
  table := hset.table hs.toStoreOk
  running := hset.running hs.toStoreOk
  root := hset.root hs.toStoreOk
  node := fun i hi => h.node hs hi
  self := fun i hi => (h.names_dir_iff hs (h.isDir_iff.mp hi)).mpr (hs.self i (h.isDir_iff.mp hi))
  rootUp := (h.names_dir_iff hs .root).mpr hs.rootUp
  layout := hset.layout hs.toStoreOk
  coherent := fun i => h.coherent hs hset
  single := hset.single hs.toStoreOk
  dirOk := fun i hi => (h.dirAt hs hi).dirOk
  dotsFirst := fun i hi => (h.dirAt hs hi).dots
  up := by
    intro i hi
    obtain ⟨m, hm⟩ := hs.up i (h.isDir_iff.mp hi)
    exact ⟨m, (h.names_dir_iff hs (h.isDir_iff.mp hi)).mpr hm⟩
  inMap := fun i hi => (h.inodeOk hs hi).inMap
  own := fun i hi => (h.inodeOk hs hi).own
  blocks := fun i hi => (h.inodeOk hs hi).blocks
  apart := fun i m lba hi hm hown hown' =>
    hs.apart i m lba (h.inTree_iff.mp hi).1 (h.inTree_iff.mp hm).1 (h.owner hi hown) (h.owner hm hown')
  notDir := fun i hfile hdir => hs.notDir i (h.isFile_iff.mp hfile).1 (h.isDir_iff.mp hdir)
  once := fun i m x x' hi hm hx hx' =>
    hs.once i m x x' (h.isDir_iff.mp hi) (h.isDir_iff.mp hm) ((h.mem_entries (h.isDir_iff.mp hi)).mp hx).1
      ((h.mem_entries (h.isDir_iff.mp hm)).mp hx').1
  rootFirst := by
    have hdata : s'.part.sb.dataStartLba = s.part.sb.dataStartLba := by rw [hset.part]
    rw [hdata, ← hs.rootFirst]
    by_cases hd : d = 0
    · subst hd
      rw [h.sector_dir, h.sector_was]
    · have hn : (0 : Nat) ≠ n := (h.isFile.ne_zero hs.toStoreOk).symm
      rw [(h.removed.others 0 (Or.inl .root) (Ne.symm hd) hn).2.1]
  slots := hset.slots hs.toStoreOk
  parent := by
    intro i x m hi hx hnames
    have hold := h.isDir_iff.mp hi
    have hwas := (h.names_dir_iff hs hold).mp hnames
    exact (h.names_dir_iff hs (hold.names hwas)).mpr (hs.parent i x m hold hx hwas)
  distinct := by
    intro i x y m hi hx hy hnames hnames'
    have hold := h.isDir_iff.mp hi
    exact hs.distinct i x y m hold hx hy ((h.names_dir_iff hs hold).mp hnames) ((h.names_dir_iff hs hold).mp hnames')
  top := fun i x hi hx hnames =>
    hs.top i x (h.isDir_iff.mp hi) hx ((h.names_dir_iff hs (h.isDir_iff.mp hi)).mp hnames)
  free := fun i hi => (h.dirAt hs hi).zero
  used := fun i hi => (h.inodeOk hs hi).used
  held := by
    intro b x hx
    obtain ⟨y, hy, hno⟩ := hset.cachedAs hs.cache hx
    rw [← hno]
    exact (h.removed.inodes _).mpr ⟨hs.held b y hy, h.not_cached hs hy⟩
  slotNo := by
    intro i hi hbit
    obtain ⟨hwas, hin⟩ := (h.removed.inodes i).mp hbit
    by_cases hid : i = d
    · have hslot := congrArg Inode.iNo h.removed.slot
      have hown := hs.own d (Or.inl h.unlinking.dir)
      rw [hid]
      exact hslot.trans hown
    · rw [h.slot_other hi hin hid]
      exact hs.slotNo i hi hwas
  numberLt := hset.numberLt hs
  cachedFor := hset.cachedFor hs fun i hi => h.isDir_iff.mpr hi
  cwd := hset.cwd hs fun i hi => h.isDir_iff.mpr hi

end UnlinkDone

/-! ## sys_unlink -/

section Call

variable {s t u s' : Fs} {path : CStr} {n : Nat}

theorem UnlinkDone.settled {p : DirPtr} {d a c j : Nat} {v w : Inode} {e : DirEntry}
    (h : UnlinkDone s t u s' p d a n c j v w e) (hholds : HoldsDir s s' .root) (hlive : s'.heap.LiveBelow) : Settled s s' := by
  refine hholds.settled hlive h.part_eq ?_ ?_
  · rw [h.final.blockBitmap, Bitmap.size, h.released.blockLen]
    exact congrArg Bitmap.size h.unlinking.same.blockBitmap
  · rw [h.final.inodeMap, Bitmap.size, h.released.inodeLen]
    exact congrArg Bitmap.size h.unlinking.same.inodeMap

/-- The search on behalf of `sys_unlink`. -/
theorem sysUnlink_search_arrives (hs : s.InOrder) (hserves : s.Serves) (hpath : PathFits path) (hroot : ¬ RootAlias path)
    (hne : components slash path ≠ []) :
    ∃ out s₁ k, Returns (searchFile path) s out s₁ ∧ Arrives s s₁ (s.walkPath path) k out := by
  obtain ⟨hhead, hclear⟩ := (clear_of_fits hserves hpath.fit : HeadFits _ ∧ s.Clear 0 0 0 _)
  obtain ⟨out, s₁, hsearch, harr⟩ := searchFile_arrives hs.toTreeOk hpath.abs hpath.short hpath.nul hroot hne hhead hclear
  exact ⟨out, s₁, _, hsearch, harr⟩

/-- Where the path leads nowhere, to a directory or to an open file, `sys_unlink` fails and changes nothing. -/
theorem sysUnlink_refuses (hs : s.InOrder) (hserves : s.Serves) (hpath : PathFits path) (hroot : ¬ RootAlias path)
    (hne : components slash path ≠ []) (hdir : (s.walkPath path).found ≠ some (.dir 0))
    (hfile : ∀ m, (s.walkPath path).found = some (.file m) → s.IsOpenFile m) :
    ∃ s', Returns (sysUnlink path) s (-1) s' ∧ Restored s s' := by
  obtain ⟨out, s₁, k, hsearch, harr⟩ := sysUnlink_search_arrives hs hserves hpath hroot hne
  have hfits : s.UnlinkFits (s.walkPath path) k := by
    unfold Fs.UnlinkFits
    cases hfound : (s.walkPath path).found with
    | none => trivial
    | some ch =>
      cases ch with
      | dir m =>
        rintro rfl
        exact hdir hfound
      | file m => exact Or.inl (hfile m hfound)
  obtain ⟨r, s', hrun, -, hrest⟩ := (sysUnlink_arrives hs.toStoreOk hpath.short hsearch harr).mpr hfits
  obtain ⟨rfl, hundone⟩ := hrest fun m hm => hm.2.2 (hfile m hm.1)
  exact ⟨s', hrun, hundone⟩

/-- A closed file is removed. -/
theorem sysUnlink_removes (hs : s.InOrder) (hserves : s.Serves) (hpath : PathFits path) (hroot : ¬ RootAlias path)
    (hne : components slash path ≠ []) (hfound : (s.walkPath path).found = some (.file n)) (hclosed : ¬ s.IsOpenFile n)
    (h12 : (s.content (s.walkPath path).above).sector 12 = 0) (hd : (s.walkPath path).above < 256)
    (hlast : (s.content n).blockAddr s.disk 139 = 0) :
    ∃ t u s' p a c j v w e, Returns (sysUnlink path) s 0 s' ∧
      UnlinkDone s t u s' p (s.walkPath path).above a n c j v w e ∧ Settled s s' := by
  obtain ⟨out, s₁, k, hsearch, harr⟩ := sysUnlink_search_arrives hs hserves hpath hroot hne
  obtain ⟨e, hf⟩ := harr.unlinkFound hs.toStoreOk hsearch hfound
  obtain ⟨t, u, s', a, v, w, c, j, hfile, hrun⟩ := hf.runs hclosed (fun i hi => hserves _) h12 hd
  have hnumber := harr.number
  have hkind := harr.kind
  rw [hfound] at hnumber hkind
  have hty : out.2.fType ≠ ftDir := by
    rw [hkind]
    show ftRegular ≠ ftDir
    decide
  have hzero : n ≠ 0 := Fs.IsFile.ne_zero ⟨_, hf.dir, e, hf.mem, hf.file, hf.number⟩ hs.toStoreOk
  have hunlink : Returns (sysUnlink path) s 0 s' := by
    rw [returns_sysUnlink hpath.short hsearch, hnumber]
    show some n ≠ some 0 ∧ Returns (if out.2.fType = ftDir then _ else _) s₁ 0 s'
    rw [if_neg hty]
    exact ⟨fun h => hzero (Option.some.inj h), hfile⟩
  have hdone : UnlinkDone s t u s' out.2.parentDir (s.walkPath path).above a n c j v w e := ⟨hrun, hd, hlast, hclosed⟩
  exact ⟨t, u, s', out.2.parentDir, a, c, j, v, w, e, hunlink, hdone, hdone.settled (sysUnlink_holds hs.cache hunlink)
    (keeps_sysUnlink (R := KeepsLive) hunlink hs.live)⟩

end Call

end ZxyOs
