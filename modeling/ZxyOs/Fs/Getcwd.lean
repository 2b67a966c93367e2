/-
  ZxyOs.Fs.Getcwd

  `sys_getcwd` after `sys_chdir`.

  The call climbs from the working directory to the root: it reads the number of the directory
  above from the second entry of the first block, and looks in that directory for the first entry
  with the number it comes from.  In a tree that entry is the one by which the path went down, so
  the names are collected last to first (`returns_climbLoop`), and putting the last component first
  until none is left gives the path (`reversePath_spell`).
-/

import ZxyOs.Fs.DirCalls
import ZxyOs.Fs.Reading

namespace ZxyOs

open Lib Lib.Exec

/-! ## Directory trees -/

/-- A name other than `"."` and `".."`. -/
def Downward (c : CStr) : Prop := c ≠ dot ∧ c ≠ dotDot

instance (c : CStr) : Decidable (Downward c) := inferInstanceAs (Decidable (_ ∧ _))

/-- The directories form a tree: `".."` leads back to where the directory is named, no two names of
    a directory lead to the same directory, and none leads to the root.  A free slot is zero. -/
structure Fs.ChainOk (s : Fs) : Prop extends s.StoreOk where
  parent : ∀ i c n, s.IsDir i → Downward c → s.names i c = some (.dir n) → s.names n dotDot = some (.dir i)
  distinct : ∀ i c d n, s.IsDir i → Downward c → Downward d → s.names i c = some (.dir n) →
    s.names i d = some (.dir n) → c = d
  top : ∀ i c, s.IsDir i → Downward c → s.names i c ≠ some (.dir 0)
  free : ∀ i, s.IsDir i → ∀ k < 140, (s.content i).blockAddr s.disk k ≠ 0 → ∀ j < 21,
    DirEntry.fTypeAt (sectorAt s.disk ((s.content i).blockAddr s.disk k)) j = ftUnkown →
      DirEntry.iNoAt (sectorAt s.disk ((s.content i).blockAddr s.disk k)) j = 0

theorem Fs.ChainOk.tree {s : Fs} (hs : s.ChainOk) : Tree s.names s.IsDir Downward 0 where
  top := .root
  closed := fun hi hnames => hi.names hnames
  once := by
    intro i j c d n hi hj hc hd hnames hnames'
    -- both are what the directory has as `".."`
    have hup := hs.parent i c n hi hc hnames
    rw [hs.parent j d n hj hd hnames'] at hup
    obtain rfl : j = i := by simpa using hup
    exact ⟨rfl, hs.distinct j c d n hi hc hd hnames hnames'⟩
  above := fun hi hc => hs.top _ _ hi hc

/-- A washed path: `"/"`, or a slash in front of each of its components, none of them empty, `"."` or
    `".."`. -/
def Washed (path : CStr) : Prop :=
  path = [slash] ∨ ∃ cs, cs ≠ [] ∧ path = spell slash cs ∧ ∀ c ∈ cs, c ≠ [] ∧ slash ∉ c ∧ Downward c

/-! ## Reading inodes on the way -/

/-- `u` is `s` but for the processes and the heap, which serves every request. -/
structure Beside (s u : Fs) : Prop where
  rest : u = { s with tasks := u.tasks, heap := u.heap }
  next : s.heap.next ≤ u.heap.next
  live : u.heap.LiveBelow
  running : ∃ c, u.tasks u.cur = some c
  served : ∀ j, u.heap.full (u.heap.next + j) = false

section Climb

variable {s u t : Fs} {i j k n : Nat} {c path : CStr} {cs : List CStr} {v : Inode}

namespace Beside

theorem disk (h : Beside s u) : u.disk = s.disk := by rw [h.rest]

theorem part (h : Beside s u) : u.part = s.part := by rw [h.rest]

theorem content (h : Beside s u) : u.content i = s.content i := by
  rw [h.rest]
  rfl

theorem cacheOk (h : Beside s u) (hok : s.CacheOk) : u.CacheOk := by
  have hle := h.next
  rw [h.rest]
  exact ⟨hok.nodup, hok.mem, hok.pos, fun a ha => Nat.lt_of_lt_of_le (hok.inode_lt a ha) hle,
    fun d hd => Nat.lt_of_lt_of_le (hok.dir_lt d hd) hle⟩

theorem hasMemory (h : Beside s u) (n : Nat) : u.HasMemory n := ⟨h.running, fun j _ => h.served j⟩

theorem heapAt (h : Beside s u) (hn : u.heap.next ≤ n) : Beside s (u.heapAt n) where
  rest := by
    have hrest := h.rest
    show { u with heap := u.heap.goOn n } = _
    rw [hrest]
    rfl
  next := h.next.trans hn
  live := h.live.goOn hn
  running := h.running
  served := by
    intro j
    obtain ⟨m, rfl⟩ := Nat.exists_eq_add_of_le hn
    have hserved := h.served (m + j)
    rwa [← Nat.add_assoc] at hserved

/-- An inode is opened, and closed again without a trace. -/
theorem visit (h : Beside s u) (hs : s.TreeOk) (hi : i < 4096) :
    ∃ a v t u', Returns (inodeOpen i) u a t ∧ t.inodes a = some v ∧ v.pureInode = s.content i ∧ SameStore u t ∧
      Returns (inodeClose a) t () u' ∧ Beside s u' := by
  have hok := h.cacheOk hs.cache
  have htable : u.TableFits := by
    refine ⟨?_, ?_⟩
    · rw [h.part]
      exact hs.table.onDisk
    · rw [h.part]
      exact hs.table.inPart
  obtain ⟨a, t, hopen⟩ := inodeOpen_runs hok htable hi (h.hasMemory _)
  obtain ⟨v, hopens, hcontent⟩ := u.opens_content i
  obtain ⟨⟨c, hv⟩, hst, -⟩ := inodeOpen_same hopens hopen
  obtain ⟨u', hclose, -⟩ := inodeClose_runs hv
  have hundo : Restored { u with dirs := t.dirs } u' := inodeOpen_undo hok h.live hopen hclose
  rw [(inodeOpen_step hok hopen).2.1] at hundo
  obtain ⟨m, hm, rfl⟩ := hundo
  exact ⟨a, { v with iOpenCnt := c }, t, _, hopen, hv, hcontent.trans h.content, hst, hclose, h.heapAt hm⟩

end Beside

/-! ## One step up -/

/-- The second entry of a directory's first block. -/
theorem Fs.StoreOk.second (hs : s.StoreOk) (hi : s.IsDir i) (hup : s.names i dotDot = some (.dir j)) :
    DirEntry.iNoAt (sectorAt s.disk ((s.content i).sector 0)) 1 = j ∧
      DirEntry.fTypeAt (sectorAt s.disk ((s.content i).sector 0)) 1 = ftDir := by
  have hdots := hs.dotsFirst i hi
  have hmem : DirEntry.decode (sectorAt s.disk ((s.content i).sector 0)) 1 ∈ s.entries i := by
    refine mem_dirEntries.mpr ⟨0, by decide, ?_, ?_⟩
    · rw [Inode.blockAddr_direct (by decide)]
      exact hdots.block
    · rw [Inode.blockAddr_direct (by decide)]
      exact mem_blockEntries.mpr ⟨1, by decide, hdots.full 1 (by decide), rfl⟩
  have hnames := (hs.node i hi).names_eq hmem
  have hname : (DirEntry.decode (sectorAt s.disk ((s.content i).sector 0)) 1).filename = dotDot := hdots.dotDot
  rw [hname, hup] at hnames
  obtain ⟨hty, hno⟩ := DirEntry.eq_of_child_dir (Option.some.inj hnames).symm
  exact ⟨hno, hty⟩

/-- `get_parent_dir_i_no` finds the directory above. -/
theorem getParentDirINo_runs (hs : s.StoreOk) (hi : s.IsDir i) (hup : s.names i dotDot = some (.dir j)) (h : Beside s u) :
    ∃ u', Returns (getParentDirINo i) u j u' ∧ Beside s u' := by
  obtain ⟨a, v, t, u', hopen, hv, hcontent, hst, hclose, h'⟩ := h.visit hs.toTreeOk (hs.node i hi).number
  obtain ⟨hno, hty⟩ := hs.second hi hup
  have hsec : v.sector 0 = (s.content i).sector 0 := by
    rw [← hcontent]
    rfl
  have hdots := hs.dotsFirst i hi
  have hblock := hs.blocks i (Or.inl hi)
  have huse : s.InUse ((s.content i).sector 0) := by
    have hin := hblock.inUse 0 (by decide)
    rw [Inode.blockAddr_direct (by decide)] at hin
    exact hin hdots.block
  have hj : j < 4096 := (hs.node j (hi.names hup)).number
  have hassert : Returns (assert (v.sector 0 ≥ t.part.sb.dataStartLba)) t () t := by
    refine (returns_assert _ _).mpr ⟨?_, rfl⟩
    rw [hst.part, h.part, hsec]
    exact huse.ge
  have hread : Returns (ideRead (v.sector 0) 1 512) u' (sectorAt s.disk ((s.content i).sector 0)) u' := by
    refine returns_ideRead.mpr ⟨le_rfl, ?_, by decide, ?_, rfl⟩
    · rw [hsec]
      exact huse.1
    · rw [hsec, h'.disk]
      rfl
  have hfound : Returns (assert (j < 4096 ∧ ftDir = ftDir)) u' () u' := (returns_assert _ _).mpr ⟨⟨hj, rfl⟩, rfl⟩
  refine ⟨u', ?_, h'⟩
  unfold getParentDirINo
  rw [returns_bind_iff hopen, returns_bind_iff (returns_getInode.mpr ⟨hv, rfl⟩)]
  simp only [returns_bind (x := query _), returns_query]
  refine ⟨t, t, ⟨rfl, rfl⟩, ?_⟩
  rw [returns_bind_iff hassert, returns_bind_iff hclose, returns_bind_iff hread, hno, hty, returns_bind_iff hfound]
  exact returns_pure.mpr ⟨rfl, rfl⟩

/-! ## The name of a child -/

/-- The first slot with the number. -/
theorem findINo_some {b : Bytes} (m idx : Nat) (h : ∃ q, idx ≤ q ∧ q < idx + m ∧ DirEntry.iNoAt b q = n) :
    ∃ q < idx + m, findINo b n m idx = some q ∧ DirEntry.iNoAt b q = n := by
  induction m generalizing idx with
  | zero =>
    obtain ⟨q, hge, hlt, -⟩ := h
    omega
  | succ m ih =>
    rw [findINo]
    by_cases hno : DirEntry.iNoAt b idx = n
    · rw [if_pos hno]
      exact ⟨idx, by omega, rfl, hno⟩
    · rw [if_neg hno]
      obtain ⟨q, hge, hlt, hq⟩ := h
      have hne : q ≠ idx := by
        rintro rfl
        exact hno hq
      obtain ⟨p, hp, hfind, hpn⟩ := ih (idx + 1) ⟨q, by omega, by omega, hq⟩
      exact ⟨p, by omega, hfind, hpn⟩

theorem findINo_none {b : Bytes} (m idx : Nat) (h : ∀ q, idx ≤ q → q < idx + m → DirEntry.iNoAt b q ≠ n) :
    findINo b n m idx = none := by
  induction m generalizing idx with
  | zero => rfl
  | succ m ih =>
    rw [findINo, if_neg (h idx le_rfl (by omega))]
    exact ih (idx + 1) fun q hge hlt => h q (by omega) (by omega)

/-- The block loop finds a name, where all slots with the number have it. -/
theorem childNameBlocks_runs {allBlocks : Nat → Nat} (m b : Nat) (hlba : ∀ k, b ≤ k → k < b + m → allBlocks k ≤ maxLba)
    (hall : ∀ k, b ≤ k → k < b + m → allBlocks k ≠ 0 → ∀ q < 21, DirEntry.iNoAt (sectorAt u.disk (allBlocks k)) q = n →
      DirEntry.nameAt (sectorAt u.disk (allBlocks k)) q = c)
    (hex : ∃ k, b ≤ k ∧ k < b + m ∧ allBlocks k ≠ 0 ∧ ∃ q < 21, DirEntry.iNoAt (sectorAt u.disk (allBlocks k)) q = n) :
    Returns (childNameBlocks allBlocks n 21 m b) u (some c) u := by
  induction m generalizing b with
  | zero =>
    obtain ⟨k, hge, hlt, -⟩ := hex
    omega
  | succ m ih =>
    have hrest : (∃ k, b + 1 ≤ k ∧ k < b + 1 + m ∧ allBlocks k ≠ 0 ∧
        ∃ q < 21, DirEntry.iNoAt (sectorAt u.disk (allBlocks k)) q = n) →
        Returns (childNameBlocks allBlocks n 21 m (b + 1)) u (some c) u :=
      ih (b + 1) (fun k hge hlt => hlba k (by omega) (by omega)) fun k hge hlt => hall k (by omega) (by omega)
    rw [childNameBlocks]
    obtain ⟨k, hge, hlt, hne, q, hq, hqn⟩ := hex
    by_cases hzero : allBlocks b = 0
    · rw [if_pos hzero]
      have hkb : k ≠ b := by
        rintro rfl
        exact hne hzero
      exact hrest ⟨k, by omega, by omega, hne, q, hq, hqn⟩
    · have hread : Returns (ideRead (allBlocks b) 1 512) u (sectorAt u.disk (allBlocks b)) u :=
        returns_ideRead.mpr ⟨le_rfl, hlba b le_rfl (by omega), by decide, rfl, rfl⟩
      rw [if_neg hzero, returns_bind_iff hread]
      by_cases hin : ∃ q, 0 ≤ q ∧ q < 0 + 21 ∧ DirEntry.iNoAt (sectorAt u.disk (allBlocks b)) q = n
      · obtain ⟨p, hp, hfind, hpn⟩ := findINo_some 21 0 hin
        rw [hfind]
        exact returns_pure.mpr ⟨congrArg some (hall b le_rfl (by omega) hzero p (by omega) hpn), rfl⟩
      · rw [findINo_none 21 0 fun q hge hlt hqn => hin ⟨q, hge, hlt, hqn⟩]
        have hkb : k ≠ b := by
          rintro rfl
          exact hin ⟨q, by omega, by omega, hqn⟩
        exact hrest ⟨k, by omega, by omega, hne, q, hq, hqn⟩

/-- The slots of the directory above that hold the number of a directory hold its name. -/
theorem Fs.ChainOk.nameAt (hs : s.ChainOk) (hj : s.IsDir j) (hi : s.IsDir i) (hi0 : i ≠ 0) (hij : i ≠ j) (hc : Downward c)
    (hnames : s.names j c = some (.dir i)) (hup : s.names j dotDot ≠ some (.dir i)) {q : Nat} (hk : k < 140)
    (hne : (s.content j).blockAddr s.disk k ≠ 0) (hq : q < 21)
    (hno : DirEntry.iNoAt (sectorAt s.disk ((s.content j).blockAddr s.disk k)) q = i) :
    DirEntry.nameAt (sectorAt s.disk ((s.content j).blockAddr s.disk k)) q = c := by
  by_cases hfull : DirEntry.fTypeAt (sectorAt s.disk ((s.content j).blockAddr s.disk k)) q = ftUnkown
  · -- a free slot is zero
    exact absurd (hno.symm.trans (hs.free j hj k hk hne q hq hfull)) hi0
  · have hmem : DirEntry.decode (sectorAt s.disk ((s.content j).blockAddr s.disk k)) q ∈ s.entries j :=
      mem_dirEntries.mpr ⟨k, hk, hne, mem_blockEntries.mpr ⟨q, hq, hfull, rfl⟩⟩
    generalize he : DirEntry.decode (sectorAt s.disk ((s.content j).blockAddr s.disk k)) q = e at hmem
    have heno : e.iNo = i := by rw [← he]; exact hno
    have hename : DirEntry.nameAt (sectorAt s.disk ((s.content j).blockAddr s.disk k)) q = e.filename := by rw [← he]; rfl
    rw [hename]
    rcases (hs.node j hj).types e hmem with hty | hty
    · have hchild := (hs.node j hj).names_eq hmem
      rw [DirEntry.child_dir hty, heno] at hchild
      have hdown : Downward e.filename := by
        refine ⟨fun hdot => ?_, fun hdot => ?_⟩
        · rw [hdot, hs.self j hj] at hchild
          exact hij (by simpa using hchild.symm)
        · rw [hdot] at hchild
          exact hup hchild
      exact hs.distinct j e.filename c i hj hdown hc hchild hnames
    · exact absurd hi (hs.notDir i ⟨j, hj, e, hmem, hty, heno⟩)

/-- `get_child_dir_name` appends the name of the child, where there is room for it. -/
theorem returns_getChildDirName (path : CStr) (hs : s.ChainOk) (hj : s.IsDir j) (hi : s.IsDir i) (hi0 : i ≠ 0) (hij : i ≠ j)
    (hc : Downward c) (hnames : s.names j c = some (.dir i)) (hup : s.names j dotDot ≠ some (.dir i))
    (h : Beside s u) :
    ∃ u', Beside s u' ∧ ∀ r t, Returns (getChildDirName j i path) u r t ↔
      (path ++ slash :: c).length < 512 ∧ some (path ++ slash :: c) = r ∧ u' = t := by
  have hnode := hs.node j hj
  obtain ⟨a, v, t, u', hopen, hv, hcontent, hst, hclose, h'⟩ := h.visit hs.toTreeOk hnode.number
  have hsec : v.sector 12 = (s.content j).sector 12 := by
    rw [← hcontent]
    rfl
  have haddr : v.blockAddr t.disk = (s.content j).blockAddr s.disk := by
    rw [← hcontent, hst.disk, h.disk]
    rfl
  have hall : Returns (readAllBlocks v) t ((s.content j).blockAddr s.disk) t := by
    refine returns_readAllBlocks.mpr ⟨fun _ => ?_, haddr.symm, rfl⟩
    rw [hsec]
    exact hnode.listed.table
  -- the entry is in one of the blocks that are read
  obtain ⟨e, he, hename, hchild⟩ := Fs.exists_of_names hnames
  obtain ⟨-, heno⟩ := DirEntry.eq_of_child_dir hchild
  obtain ⟨k, hk, hne, he⟩ := mem_dirEntries.mp he
  obtain ⟨q, hq, -, hdecode⟩ := mem_blockEntries.mp he
  have hkn : k < if v.sector 12 ≠ 0 then 140 else 12 := by
    split
    · exact hk
    · next h12 =>
      by_contra hge
      rw [not_not, hsec] at h12
      exact hne (Inode.blockAddr_no_table (Nat.le_of_not_lt hge) h12)
  have hblocks : Returns (childNameBlocks ((s.content j).blockAddr s.disk) i (512 / u'.part.sb.dirEntrySize)
      (if v.sector 12 ≠ 0 then 140 else 12) 0) u' (some c) u' := by
    have hsize : 512 / u'.part.sb.dirEntrySize = 21 := by rw [h'.part, hs.entrySize]
    have hle : (if v.sector 12 ≠ 0 then 140 else 12) ≤ 140 := by split <;> omega
    rw [hsize]
    refine childNameBlocks_runs _ 0 (fun m _ hm => hnode.listed.blocks m (by omega)) (fun m _ hm hne' p hp hpn => ?_)
      ⟨k, Nat.zero_le _, by omega, hne, q, hq, ?_⟩
    · rw [h'.disk] at hpn ⊢
      exact hs.nameAt hj hi hi0 hij hc hnames hup (by omega) hne' hp hpn
    · rw [h'.disk, ← heno, ← hdecode]
      rfl
  have hquery : Returns (query id) u' u' u' := (returns_query _).mpr ⟨rfl, rfl⟩
  refine ⟨u', h', fun r t => ?_⟩
  unfold getChildDirName
  rw [returns_bind_iff hopen, returns_bind_iff (returns_getInode.mpr ⟨hv, rfl⟩), returns_bind_iff hall,
    returns_bind_iff hclose, returns_bind_iff hquery, returns_bind_iff hblocks]
  simp only
  rw [returns_bind]
  constructor
  · rintro ⟨w, t', hrequire, hret⟩
    obtain ⟨hfits, rfl⟩ := (returns_require _ _).mp hrequire
    obtain ⟨rfl, rfl⟩ := returns_pure.mp hret
    exact ⟨hfits, rfl, rfl⟩
  · rintro ⟨hfits, rfl, rfl⟩
    exact ⟨(), u', (returns_require _ _).mpr ⟨hfits, rfl⟩, returns_pure.mpr ⟨rfl, rfl⟩⟩

/-! ## The way to the root -/

/-- Climbing collects the names by which the directory is reached, the last one first, and ends
    where there is room for all of them. -/
theorem returns_climbLoop (hs : s.ChainOk) (hcs : ∀ c ∈ cs, Downward c) (hwalk : walk s.names 0 cs = .dir i) (fuel : Nat)
    (hfuel : 512 ≤ fuel + path.length) (hroom : path.length < 512) (h : Beside s u) :
    ∃ u', Beside s u' ∧ ∀ r t, Returns (climbLoop fuel i path) u r t ↔
      (path ++ spell slash cs.reverse).length < 512 ∧ some (path ++ spell slash cs.reverse) = r ∧ u' = t := by
  obtain ⟨fuel, rfl⟩ : ∃ m, fuel = m + 1 := ⟨fuel - 1, by omega⟩
  induction cs using List.reverseRecOn generalizing i fuel path u with
  | nil =>
    obtain rfl : 0 = i := by simpa using hwalk
    refine ⟨u, h, fun r t => ?_⟩
    rw [climbLoop, if_pos rfl, List.reverse_nil, spell_nil, List.append_nil, returns_pure]
    exact (and_iff_right hroom).symm
  | append_singleton cs c ih =>
    have hdown : Downward c := hcs c (by simp)
    have hcs' : ∀ d ∈ cs, Downward d := fun d hd => hcs d (by simp [hd])
    obtain ⟨j, hj, hnames⟩ := walk_concat_eq_dir.mp hwalk
    have hdir : s.IsDir j := hs.tree.dir_walk .root hj
    have hi := hdir.names hnames
    -- the directory is none of those above it
    have hij : i ≠ j := (hs.tree.walk_ne hcs (by simp) hj hwalk).symm
    have hi0 : i ≠ 0 := by
      rintro rfl
      exact hs.top j c hdir hdown hnames
    have hup : s.names j dotDot ≠ some (.dir i) := by
      rcases List.eq_nil_or_concat' cs with rfl | ⟨ds, d, rfl⟩
      · obtain rfl : 0 = j := by simpa using hj
        rw [hs.rootUp]
        intro heq
        exact hi0 (by simpa using heq.symm)
      · obtain ⟨k, hk, hnames'⟩ := walk_concat_eq_dir.mp hj
        have hkdir : s.IsDir k := hs.tree.dir_walk .root hk
        rw [hs.parent k d j hkdir (hcs' d (by simp)) hnames']
        have hki : k ≠ i := by
          have hboth : ∀ x ∈ ds ++ [d, c], Downward x := by simpa using hcs
          have hwalk' : walk s.names 0 (ds ++ [d, c]) = .dir i := by simpa using hwalk
          exact hs.tree.walk_ne hboth (by simp) hk hwalk'
        intro heq
        exact hki (by simpa using heq)
    rw [List.reverse_append, List.reverse_singleton, List.singleton_append, spell_cons]
    have hpath : path ++ (slash :: c ++ spell slash cs.reverse) = (path ++ slash :: c) ++ spell slash cs.reverse := by
      rw [List.append_assoc]
    rw [hpath]
    obtain ⟨u₁, hparent, h₁⟩ := getParentDirINo_runs hs.toStoreOk hi (hs.parent j c i hdir hdown hnames) h
    obtain ⟨u₂, h₂, hname⟩ := returns_getChildDirName path hs hdir hi hi0 hij hdown hnames hup h₁
    by_cases hfits : (path ++ slash :: c).length < 512
    · have hlen : (path ++ slash :: c).length = path.length + (c.length + 1) := List.length_append
      obtain ⟨fuel, rfl⟩ : ∃ m, fuel = m + 1 := ⟨fuel - 1, by omega⟩
      obtain ⟨u₃, h₃, hclimb⟩ := ih hcs' hj hfits h₂ fuel (by omega)
      refine ⟨u₃, h₃, fun r t => ?_⟩
      rw [climbLoop, if_neg hi0, returns_bind_iff hparent, returns_bind_iff ((hname _ _).mpr ⟨hfits, rfl, rfl⟩)]
      exact hclimb r t
    -- no room for the name
    · refine ⟨u₂, h₂, fun r t => ?_⟩
      rw [climbLoop, if_neg hi0, returns_bind_iff hparent]
      refine iff_of_false (fun hrun => ?_) fun hall => hfits ?_
      · obtain ⟨x, t', hx, -⟩ := returns_bind.mp hrun
        exact hfits ((hname x t').mp hx).1
      · have hlt := hall.1
        rw [List.length_append] at hlt
        omega

/-! ## The string -/

/-- Putting the last component first until none is left turns the order around. -/
theorem reversePath_spell (hcs : ∀ c ∈ cs, slash ∉ c) (fuel : Nat) (hfuel : (spell slash cs.reverse).length ≤ fuel)
    (buf : CStr) : reversePath fuel (spell slash cs.reverse) buf = buf ++ spell slash cs := by
  induction cs generalizing fuel buf with
  | nil =>
    rw [List.reverse_nil, spell_nil, List.append_nil]
    cases fuel with
    | zero => rfl
    | succ fuel => exact if_neg List.not_mem_nil
  | cons c cs ih =>
    have hspell : spell slash (c :: cs).reverse = spell slash cs.reverse ++ slash :: c := by
      rw [List.reverse_cons, spell_append, spell_cons, spell_nil, List.append_nil]
    rw [hspell] at hfuel ⊢
    rw [List.length_append, List.length_cons] at hfuel
    obtain ⟨fuel, rfl⟩ : ∃ m, fuel = m + 1 := ⟨fuel - 1, by omega⟩
    have hin : slash ∈ spell slash cs.reverse ++ slash :: c := by simp
    have hlast : lastName (spell slash cs.reverse ++ slash :: c) = c := lastName_concat (hcs c List.mem_cons_self)
    have hcut : (spell slash cs.reverse ++ slash :: c).take
        ((spell slash cs.reverse ++ slash :: c).length - (slash :: c).length) = spell slash cs.reverse := by
      rw [List.length_append, Nat.add_sub_cancel]
      exact List.take_left
    rw [reversePath, if_pos hin]
    simp only
    rw [hlast, hcut, ih (fun d hd => hcs d (List.mem_cons_of_mem _ hd)) fuel (by omega), spell_cons, List.append_assoc]

/-! ## sys_getcwd -/

/-- Taking a block for the buffer. -/
theorem Beside.malloc (h : Beside s u) : ∃ b t, Returns sysMalloc u (some b) t ∧ Beside s t ∧ t.tasks = u.tasks := by
  obtain ⟨t, hmalloc, -⟩ := sysMalloc_returns (h.hasMemory (0 + 1))
  rcases sysMalloc_inv hmalloc with ⟨hnone, -⟩ | ⟨w, -, rfl⟩
  · cases hnone
  · refine ⟨u.heap.next, _, hmalloc, ⟨?_, Nat.le_succ_of_le h.next, h.live.alloc, h.running, fun j => ?_⟩, rfl⟩
    · have hrest := h.rest
      show { u with heap := u.heap.alloc w } = _
      rw [hrest]
    · have hserved := h.served (1 + j)
      rwa [← Nat.add_assoc] at hserved

/-- And freeing it. -/
theorem Beside.free (h : Beside s u) (b : Nat) : ∃ t, Returns (sysFree (some b)) u () t ∧ Beside s t := by
  obtain ⟨t, hfree⟩ := sysFree_returns u b
  obtain ⟨b', -, rfl⟩ := sysFree_inv hfree
  refine ⟨_, hfree, ?_, h.next, fun c hc => h.live c (List.mem_of_mem_filter hc), h.running, h.served⟩
  have hrest := h.rest
  show { u with heap := u.heap.freed b' } = _
  rw [hrest]

/-- In a directory that is reached by the names `cs` the call spells them, and all else stays. -/
theorem sysGetcwd_beside (hs : s.ChainOk) (hcs : ∀ c ∈ cs, Downward c ∧ slash ∉ c) (hwalk : walk s.names 0 cs = .dir i)
    (hroom : (spell slash cs).length < 512) (h : Beside s u) {p : Task} (hp : u.tasks u.cur = some p)
    (hcwd : p.cwdInodeNr = i) :
    ∃ u', Returns (sysGetcwd 512) u (some (if cs = [] then [slash] else spell slash cs)) u' ∧ Beside s u' := by
  have hdir : s.IsDir i := hs.tree.dir_walk .root hwalk
  obtain ⟨b, t, hmalloc, ht, htasks⟩ := h.malloc
  have hp' : t.tasks t.cur = some p := by
    rw [ht.rest] at htasks ⊢
    rw [h.rest] at hp
    rw [htasks]
    exact hp
  have hlt : p.cwdInodeNr < 4096 := by
    rw [hcwd]
    exact (hs.node i hdir).number
  have hassert : Returns (assert (p.cwdInodeNr < 4096)) t () t := (returns_assert _ _).mpr ⟨hlt, rfl⟩
  unfold sysGetcwd
  rw [hcwd] at hassert
  rcases List.eq_nil_or_concat' cs with rfl | ⟨ds, d, hds⟩
  · -- the root
    obtain rfl : 0 = i := by simpa using hwalk
    obtain ⟨u', hfree, h'⟩ := ht.free b
    refine ⟨u', ?_, h'⟩
    rw [returns_bind_iff hmalloc, if_neg (by simp), returns_bind_iff (returns_runningThread.mpr ⟨hp', rfl⟩)]
    simp only
    rw [hcwd, returns_bind_iff hassert, if_pos rfl, returns_bind_iff hfree, if_pos trivial]
    exact returns_pure.mpr ⟨rfl, rfl⟩
  · have hne : cs ≠ [] := by
      rw [hds]
      simp
    have hi0 : i ≠ 0 := by
      rintro rfl
      have hnil : cs = [] := hs.tree.walk_unique (fun c hc => (hcs c hc).1) (by simp) hwalk walk_nil
      exact hne hnil
    have hlen : (spell slash cs.reverse).length = (spell slash cs).length := by
      rw [spell, spell, List.length_flatMap, List.length_flatMap, List.map_reverse, List.sum_reverse]
    have hempty : ([] : CStr).length < 512 := by decide
    obtain ⟨u₁, h₁, hclimb⟩ := returns_climbLoop hs (fun c hc => (hcs c hc).1) hwalk 513 (by decide) hempty ht
    have hclimb := (hclimb _ _).mpr ⟨by rw [List.nil_append, hlen]; exact hroom, rfl, rfl⟩
    rw [List.nil_append] at hclimb
    obtain ⟨u', hfree, h'⟩ := h₁.free b
    have hfits : Returns (assert ((spell slash cs.reverse).length ≤ 512)) u₁ () u₁ :=
      (returns_assert _ _).mpr ⟨by omega, rfl⟩
    refine ⟨u', ?_, h'⟩
    rw [returns_bind_iff hmalloc, if_neg (by simp), returns_bind_iff (returns_runningThread.mpr ⟨hp', rfl⟩)]
    simp only
    rw [hcwd, returns_bind_iff hassert, if_neg hi0, returns_bind_iff hclimb]
    simp only
    rw [returns_bind_iff hfits, returns_bind_iff hfree, if_neg hne,
      reversePath_spell (fun c hc => (hcs c hc).2) _ le_rfl, List.nil_append]
    exact returns_pure.mpr ⟨rfl, rfl⟩

theorem sysGetcwd_runs (hs : s.ChainOk) (hcs : ∀ c ∈ cs, Downward c ∧ slash ∉ c) (hwalk : walk s.names 0 cs = .dir i)
    (hroom : (spell slash cs).length < 512) (h : Beside s u) {p : Task} (hp : u.tasks u.cur = some p)
    (hcwd : p.cwdInodeNr = i) :
    ∃ u', Returns (sysGetcwd 512) u (some (if cs = [] then [slash] else spell slash cs)) u' := by
  obtain ⟨u', hrun, -⟩ := sysGetcwd_beside hs hcs hwalk hroom h hp hcwd
  exact ⟨u', hrun⟩

/-! ## sys_chdir -/

/-- Where every request is served the way along names that are there is clear. -/
theorem clear_of_served {above : Nat} (hs : s.TreeOk) (hi : s.IsDir i) (hserved : ∀ j, s.heap.full (s.heap.next + j) = false)
    (hwalk : walk s.names i cs = .dir n) : HeadFits cs ∧ s.Clear k above i cs := by
  induction cs generalizing k above i with
  | nil => exact ⟨nofun, fun j _ => hserved _⟩
  | cons c cs ih =>
    obtain ⟨j, hnames, hwalk⟩ := walk_cons_eq_dir.mp hwalk
    obtain ⟨e, he, hename, -⟩ := Fs.exists_of_names hnames
    obtain ⟨m, hm, hne, hmem⟩ := mem_dirEntries.mp he
    obtain ⟨q, hq, hfull, hdecode⟩ := mem_blockEntries.mp hmem
    have hok := (hs.node i hi).listed.slots m hm hne q hq
    rw [SlotOk, if_neg hfull] at hok
    have hlt : c.length < 16 := by
      rw [← hename, ← hdecode]
      exact hok.lt
    obtain ⟨hfit, hclear⟩ := ih (hi.names hnames) hwalk
    refine ⟨fun d hd => ?_, ?_⟩
    · obtain rfl : c = d := by simpa using hd
      exact hlt
    · simp only [Fs.Clear, hnames]
      exact ⟨fun j _ => hserved _, hfit, fun j _ => hserved _, hclear⟩

/-- The components of a washed path, and the path they spell. -/
theorem Washed.components (h : Washed path) :
    (∀ c ∈ components slash path, Downward c ∧ slash ∉ c) ∧
      path = if components slash path = [] then [slash] else spell slash (components slash path) := by
  rcases h with rfl | ⟨cs, hne, rfl, hcs⟩
  · have hnil : Lib.components slash [slash] = [] := by decide
    rw [hnil]
    exact ⟨nofun, (if_pos rfl).symm⟩
  · rw [components_spell fun c hc => ⟨(hcs c hc).1, (hcs c hc).2.1⟩, if_neg hne]
    exact ⟨fun c hc => ⟨(hcs c hc).2.2, (hcs c hc).2.1⟩, rfl⟩

theorem Washed.head (h : Washed path) : path.head? = some slash := by
  rcases h with rfl | ⟨cs, hne, rfl, -⟩
  · rfl
  · cases cs with
    | nil => exact absurd rfl hne
    | cons c cs => rfl

/-- Of the names of the root only `"/"` is washed. -/
theorem Washed.alias (h : Washed path) (hroot : RootAlias path) : path = [slash] := by
  obtain ⟨hcs, -⟩ := h.components
  rcases hroot with rfl | rfl | rfl
  · rfl
  · have hdot := (hcs dot (by decide)).1.1
    exact absurd rfl hdot
  · have hdot := (hcs dotDot (by decide)).1.2
    exact absurd rfl hdot

/-- `sys_chdir` moves the running process to the directory, and leaves nothing else behind. -/
theorem sysChdir_moves (hs : s.TreeOk) (hserved : ∀ j, s.heap.full (s.heap.next + j) = false) (hwash : Washed path)
    (hlen : path.length < 512) (hnul : ∀ b ∈ path, b ≠ 0) (hwalk : walk s.names 0 (Lib.components slash path) = .dir i) :
    ∃ (m : Nat) (c : Task), s.tasks s.cur = some c ∧
      Returns (sysChdir path) s 0 ((s.heapAt (s.heap.next + m)).setTask s.cur { c with cwdInodeNr := i }) := by
  have hfound : (s.walkPath path).found = some (.dir i) := arrive_found_dir.mpr hwalk
  by_cases hroot : RootAlias path
  · obtain ⟨c, hc, hrun⟩ := sysChdir_root hs hroot
    have hzero := (hs.walk_root hroot).1
    rw [hfound] at hzero
    obtain rfl : i = 0 := by simpa using hzero
    exact ⟨0, c, hc, hrun⟩
  · have hne : Lib.components slash path ≠ [] := by
      intro hnil
      have hpath := hwash.components.2
      rw [if_pos hnil] at hpath
      exact hroot (Or.inl hpath)
    obtain ⟨hfit, hclear⟩ : HeadFits (Lib.components slash path) ∧ s.Clear 0 0 0 (Lib.components slash path) :=
      clear_of_served hs .root hserved hwalk
    obtain ⟨out, s₁, hsearch, harr⟩ := searchFile_arrives hs hwash.head hlen hnul hroot hne hfit hclear
    obtain ⟨hnumber, hkind⟩ := harr.number_eq hfound
    obtain ⟨c, hc, hrun⟩ := chdirFound_dir hs harr.parent hnumber hkind
    exact ⟨_, c, hc, (returns_sysChdir hsearch).mpr hrun⟩

theorem sysChdir_runs (hs : s.TreeOk) (hserved : ∀ j, s.heap.full (s.heap.next + j) = false) (hwash : Washed path)
    (hlen : path.length < 512) (hnul : ∀ b ∈ path, b ≠ 0) (hwalk : walk s.names 0 (Lib.components slash path) = .dir i) :
    ∃ u p, Returns (sysChdir path) s 0 u ∧ Beside s u ∧ u.tasks u.cur = some p ∧ p.cwdInodeNr = i := by
  obtain ⟨m, c, -, hrun⟩ := sysChdir_moves hs hserved hwash hlen hnul hwalk
  refine ⟨_, { c with cwdInodeNr := i }, hrun, ⟨rfl, Nat.le_add_right _ _, hs.live.goOn (Nat.le_add_right _ _), ⟨_, cwd_chdir⟩,
    fun j => ?_⟩, cwd_chdir, rfl⟩
  show s.heap.full (s.heap.next + m + j) = false
  rw [Nat.add_assoc]
  exact hserved _

end Climb

namespace SmallTree

theorem names_down {i n : Nat} {c : CStr} (hi : fs.IsDir i) (hc : Downward c) (h : fs.names i c = some (.dir n)) :
    i = 0 ∧ c = [100] ∧ n = 1 := by
  have hroot : ∀ e ∈ rootEntries, e.fType = ftDir → e.filename ≠ dot → e.filename ≠ dotDot →
      e.filename = [100] ∧ e.iNo = 1 := by decide
  have hsub : ∀ e ∈ subEntries, e.fType = ftDir → e.filename = dot ∨ e.filename = dotDot := by decide
  obtain ⟨e, he, rfl, hchild⟩ := Fs.exists_of_names h
  obtain ⟨hty, rfl⟩ := DirEntry.eq_of_child_dir hchild
  rcases mem_entries hi he with ⟨rfl, hmem⟩ | ⟨rfl, hmem⟩
  · exact ⟨rfl, hroot e hmem hty hc.1 hc.2⟩
  · rcases hsub e hmem hty with hdot | hdot
    · exact absurd hdot hc.1
    · exact absurd hdot hc.2

theorem chainOk : fs.ChainOk where
  toStoreOk := storeOk
  parent := by
    intro i c n hi hc h
    obtain ⟨rfl, -, rfl⟩ := names_down hi hc h
    exact names_sub (e := ⟨dotDot, 0, ftDir⟩) (by decide)
  distinct := by
    intro i c d n hi hc hd h h'
    rw [(names_down hi hc h).2.1, (names_down hi hd h').2.1]
  top := by
    intro i c hi hc h
    exact absurd (names_down hi hc h).2.2 (by decide)
  free := by
    intro i hi k hk hne j hj hfree
    have hlt : i < 2 := by
      have hdir := isDir hi
      omega
    have hzero : ∀ i < 2, ∀ j < 21, DirEntry.fTypeAt (sectorAt fs.disk (1000 + i)) j = ftUnkown →
        DirEntry.iNoAt (sectorAt fs.disk (1000 + i)) j = 0 := by decide +kernel
    rw [blockAddr i (by omega) k hk] at hne hfree ⊢
    split at hne
    · next h0 =>
      rw [if_pos h0] at hfree ⊢
      exact hzero i hlt j hj hfree
    · exact absurd rfl hne

/-- The same file system, with a heap that serves nothing. -/
def exhausted : Fs := { fs with heap := { fs.heap with full := fun _ => true } }

theorem walk_dir : fs.walkPath [47, 100] = ⟨some (.dir 1), 0, [[100]], []⟩ := by
  have hroot : fs.names 0 [100] = some (.dir 1) := names_root (e := ⟨[100], 1, ftDir⟩) (by decide)
  rw [Fs.walkPath, show components slash [47, 100] = [[100]] by decide, arrive_cons_dir hroot]
  rfl

end SmallTree

/-- `"/d"` is a washed path. -/
theorem washed_dir : Washed [47, 100] := Or.inr ⟨[[100]], by decide, rfl, by decide⟩

end ZxyOs
