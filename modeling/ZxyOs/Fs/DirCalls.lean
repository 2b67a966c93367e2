/-
  ZxyOs.Fs.DirCalls

  The three calls that take the path of a directory.

  `sys_opendir`, `sys_chdir` and `sys_stat` all leave the path to `search_file`, and what each adds
  is where they part: `sys_opendir` takes every path that begins with `"/."` for the root and
  asserts that the whole path fits a name, and each of the calls asks the heap for something else
  while the directory above is still open.
-/

import ZxyOs.Fs.Store
import ZxyOs.Fs.Resolve

namespace ZxyOs

open Lib Lib.Exec

/-! ## Agreement -/

/-- `sys_opendir` returns a handle on inode `i`. -/
def OpensDir (s : Fs) (path : CStr) (i : Nat) : Prop := ∃ p t, Returns (sysOpendir path) s (some p) t ∧ t.OpenOn p i

/-- `sys_chdir` returns 0 and makes inode `i` the working directory. -/
def ChangesTo (s : Fs) (path : CStr) (i : Nat) : Prop :=
  ∃ t c, Returns (sysChdir path) s 0 t ∧ t.tasks t.cur = some c ∧ c.cwdInodeNr = i

/-- `sys_stat` reports inode `i`, a directory. -/
def StatsDir (s : Fs) (path : CStr) (i : Nat) : Prop :=
  ∃ b t, Returns (sysStat path) s (some b) t ∧ b.stFiletype = ftDir ∧ b.stIno = i

/-- The path names nothing: a component is missing, or one before the last is a file. -/
def Fs.Absent (s : Fs) (path : CStr) : Prop :=
  (s.walkPath path).found = none ∨ ∃ n, (s.walkPath path).found = some (.file n) ∧ (s.walkPath path).rest ≠ []

/-- The three calls agree, and all of them return where the path names nothing. -/
def DirCallsAgree (s : Fs) (path : CStr) : Prop :=
  (∀ i, (OpensDir s path i ↔ ChangesTo s path i) ∧ (ChangesTo s path i ↔ StatsDir s path i)) ∧
    (s.Absent path → (∃ r t, Returns (sysOpendir path) s r t) ∧ (∃ r t, Returns (sysChdir path) s r t) ∧
      ∃ r t, Returns (sysStat path) s r t)

/-! ## Where the search comes back -/

/-- `search_file` goes through. -/
def Fs.WayClear (s : Fs) (path : CStr) : Prop :=
  components slash path ≠ [] ∧ HeadFits (components slash path) ∧ s.Clear 0 0 0 (components slash path)

/-- `search_file` gives up for want of memory. -/
def Fs.WayStarved (s : Fs) (path : CStr) : Prop :=
  components slash path ≠ [] ∧ HeadFits (components slash path) ∧ s.Starved 0 0 (components slash path)

/-- The number of requests `search_file` makes where it goes through. -/
noncomputable def Fs.wayAsked (s : Fs) (path : CStr) : Nat := s.asked 0 0 0 (components slash path)

/-- What `inode_open` asks of the heap for inode `n` while the directory above is open. -/
noncomputable def Fs.lastRequests (s : Fs) (path : CStr) (n : Nat) : Nat :=
  if n = (s.walkPath path).above then 0 else s.openRequests n

/-- Behind a clear way the calls get what they ask for: a handle for a directory, and an inode for a
    file in the middle of the path. -/
def Fs.DirFits (s : Fs) (path : CStr) : Prop :=
  match (s.walkPath path).found with
  | none => True
  | some (.dir n) => s.Grants (s.wayAsked path) (1 + s.lastRequests path n)
  | some (.file n) => (s.walkPath path).rest ≠ [] → s.Grants (s.wayAsked path) (s.lastRequests path n)

section Calls

variable {s s' s₁ t : Fs} {path : CStr} {p : DirPtr} {n i k : Nat} {out : Option Nat × PathSearchRecord}

/-- Away from the names of the root the search comes back in one of two ways. -/
theorem searchFile_cases (hs : s.TreeOk) (habs : path.head? = some slash) (hlen : path.length < 512)
    (hnul : ∀ b ∈ path, b ≠ 0) (hroot : ¬ RootAlias path) (hrun : Returns (searchFile path) s out t) :
    s.WayClear path ∧ Arrives s t (s.walkPath path) (s.wayAsked path) out ∨
      s.WayStarved path ∧ Misses s t (s.walkPath path) out := by
  obtain ⟨hne, hfit, hloop⟩ := searchFile_loop habs hroot hrun
  rcases searchLoop_clear hs _ (.start hs habs hlen hnul hne hfit) hloop with hclear | hstarved
  · obtain ⟨out', t', hrun', harr⟩ := searchFile_arrives hs habs hlen hnul hroot hne hfit hclear
    obtain ⟨rfl, rfl⟩ := hrun.unique hrun'
    exact Or.inl ⟨⟨hne, hfit, hclear⟩, harr⟩
  · obtain ⟨out', t', hrun', hmiss⟩ := searchFile_misses hs habs hlen hnul hroot hne hfit hstarved
    obtain ⟨rfl, rfl⟩ := hrun.unique hrun'
    exact Or.inr ⟨⟨hne, hfit, hstarved⟩, hmiss⟩

/-- The number `search_file` returns. -/
theorem Arrives.number_eq {w : Arrival Nat CStr} {child : Child Nat} (h : Arrives s t w k out)
    (hfound : w.found = some child) : out.1 = some child.node ∧ out.2.fType = child.fType := by
  have hnumber := h.number
  have hkind := h.kind
  rw [hfound] at hnumber hkind
  exact ⟨hnumber, hkind⟩

/-! ## Changing the directory -/

/-- `sys_chdir` behind the search. -/
def chdirFound (out : Option Nat × PathSearchRecord) : FsM Int := do
  let ret ←
    match out.1 with
    | none => pure (-1 : Int)
    | some iNo =>
      if out.2.fType = ftDir then do
        let cur ← runningThread
        putThread { cur with cwdInodeNr := iNo }
        pure 0
      else
        pure (-1)
  dirClose out.2.parentDir
  return ret

theorem returns_sysChdir {r : Int} (hsearch : Returns (searchFile path) s out s₁) :
    Returns (sysChdir path) s r s' ↔ Returns (chdirFound out) s₁ r s' := by
  rw [sysChdir, returns_bind_iff hsearch]
  rfl

/-- A number that is none of a directory. -/
theorem chdirFound_fails (hst : Stands s s₁ out.2.parentDir i k) (hno : out.1 = none ∨ out.2.fType ≠ ftDir) :
    ∃ s', Returns (chdirFound out) s₁ (-1) s' := by
  obtain ⟨s', hclose, -⟩ := hst.closes (-1 : Int)
  refine ⟨s', ?_⟩
  unfold chdirFound
  split
  · exact hclose
  · next n hn =>
    rcases hno with hnone | hty
    · rw [hn] at hnone
      cases hnone
    · rw [if_neg hty]
      exact hclose

/-- Closing an inode does not look at the processes. -/
theorem inodeClose_setTask {a m : Nat} {u : Unit} {c : Task} (h : Returns (inodeClose a) s u s') :
    Returns (inodeClose a) (s.setTask m c) u (s'.setTask m c) := by
  simp only [inodeClose, returns_bind, returns_getInode, returns_putInode] at h ⊢
  obtain ⟨v, _, ⟨hv, rfl⟩, _, _, rfl, h⟩ := h
  refine ⟨v, s.setTask m c, ⟨hv, rfl⟩, (), _, rfl, ?_⟩
  generalize (if v.iOpenCnt = 0 then 2 ^ 32 - 1 else v.iOpenCnt - 1) = cnt at h ⊢
  by_cases hzero : cnt = 0
  · rw [if_pos hzero] at h ⊢
    simp only [returns_bind, returns_update] at h ⊢
    obtain ⟨_, _, rfl, hfree⟩ := h
    obtain ⟨b, hb, rfl⟩ := sysFree_inv hfree
    refine ⟨(), _, rfl, ?_⟩
    simp only [sysFree, returns_bind, returns_assert, returns_update]
    obtain rfl := Option.some.inj hb
    exact ⟨(), _, ⟨by simp, rfl⟩, rfl⟩
  · rw [if_neg hzero] at h ⊢
    obtain ⟨-, rfl⟩ := returns_pure.mp h
    exact returns_pure.mpr ⟨rfl, rfl⟩

theorem dirClose_setTask {m : Nat} {u : Unit} {c : Task} (h : Returns (dirClose p) s u s') :
    Returns (dirClose p) (s.setTask m c) u (s'.setTask m c) := by
  cases p with
  | root =>
    obtain ⟨-, rfl⟩ := returns_pure.mp h
    exact returns_pure.mpr ⟨rfl, rfl⟩
  | heap d =>
    simp only [dirClose, getDir, returns_bind, returns_query, returns_deref, returns_update] at h ⊢
    obtain ⟨dir, _, ⟨_, _, ⟨rfl, rfl⟩, hdir, rfl⟩, _, s₁, hclose, _, _, rfl, hfree⟩ := h
    obtain ⟨b, hb, rfl⟩ := sysFree_inv hfree
    obtain rfl := Option.some.inj hb
    refine ⟨dir, s.setTask m c, ⟨_, _, ⟨rfl, rfl⟩, hdir, rfl⟩, (), s₁.setTask m c, inodeClose_setTask hclose, (), _,
      rfl, ?_⟩
    simp only [sysFree, returns_bind, returns_assert, returns_update]
    exact ⟨(), _, ⟨by simp, rfl⟩, rfl⟩

/-- A directory becomes the working directory, and nothing else is left of the search. -/
theorem chdirFound_dir (hs : s.TreeOk) (hst : Stands s s₁ out.2.parentDir i k) (hn : out.1 = some n)
    (hty : out.2.fType = ftDir) : ∃ c, s.tasks s.cur = some c ∧
      Returns (chdirFound out) s₁ 0 ((s.heapAt (s.heap.next + k)).setTask s.cur { c with cwdInodeNr := n }) := by
  obtain ⟨c, hc⟩ := hs.running
  refine ⟨c, hc, ?_⟩
  rw [← hst.tasks, ← hst.cur] at hc
  obtain ⟨s', hclose, rfl⟩ := hst.close
  have hput : Returns (putThread { c with cwdInodeNr := n }) s₁ () (s₁.setTask s.cur { c with cwdInodeNr := n }) := by
    rw [← hst.cur]
    exact returns_putThread.mpr rfl
  unfold chdirFound
  rw [hn]
  simp only
  rw [if_pos hty, returns_bind_iff (returns_runningThread.mpr ⟨hc, rfl⟩), returns_bind_iff hput,
    returns_bind_iff (returns_pure.mpr ⟨rfl, rfl⟩), returns_bind_iff (dirClose_setTask hclose)]
  exact returns_pure.mpr ⟨rfl, rfl⟩

/-- The working directory once the call has returned. -/
theorem cwd_chdir {c : Task} {m : Nat} :
    ((s.heapAt m).setTask s.cur { c with cwdInodeNr := n }).tasks s.cur = some { c with cwdInodeNr := n } :=
  Function.update_self _ _ _

/-- `sys_chdir` goes where the walk arrives at a directory. -/
theorem changesTo_iff (hs : s.TreeOk) (habs : path.head? = some slash) (hlen : path.length < 512)
    (hnul : ∀ b ∈ path, b ≠ 0) (hroot : ¬ RootAlias path) :
    ChangesTo s path i ↔ s.WayClear path ∧ (s.walkPath path).found = some (.dir i) := by
  constructor
  · rintro ⟨t, c, hrun, hc, rfl⟩
    obtain ⟨out, s₁, hsearch, hrun⟩ := returns_bind.mp hrun
    change Returns (chdirFound out) s₁ 0 t at hrun
    -- without a directory the call fails
    have hfails {j k : Nat} (hst : Stands s s₁ out.2.parentDir j k) (hno : out.1 = none ∨ out.2.fType ≠ ftDir) : False := by
      obtain ⟨s', hrun'⟩ := chdirFound_fails hst hno
      cases (hrun.unique hrun').1
    rcases searchFile_cases hs habs hlen hnul hroot hsearch with ⟨hclear, harr⟩ | ⟨-, hmiss⟩
    · refine ⟨hclear, ?_⟩
      cases hfound : (s.walkPath path).found with
      | none =>
        have hnumber := harr.number
        rw [hfound] at hnumber
        exact (hfails harr.parent (Or.inl hnumber)).elim
      | some child =>
        obtain ⟨hnumber, hkind⟩ := harr.number_eq hfound
        cases child with
        | file n =>
          refine (hfails harr.parent (Or.inr ?_)).elim
          rw [hkind]
          show ftRegular ≠ ftDir
          decide
        | dir n =>
          obtain ⟨c', -, hrun'⟩ := chdirFound_dir hs harr.parent hnumber hkind
          obtain ⟨-, rfl⟩ := hrun.unique hrun'
          obtain rfl := Option.some.inj (hc.symm.trans cwd_chdir)
          rfl
    · obtain ⟨j, k, hst⟩ := hmiss.parent
      exact (hfails hst (Or.inl hmiss.number)).elim
  · rintro ⟨⟨hne, hfit, hclear⟩, hfound⟩
    obtain ⟨out, s₁, hsearch, harr⟩ := searchFile_arrives hs habs hlen hnul hroot hne hfit hclear
    obtain ⟨hnumber, hkind⟩ := harr.number_eq hfound
    obtain ⟨c, -, hrun⟩ := chdirFound_dir hs harr.parent hnumber hkind
    exact ⟨_, _, (returns_sysChdir hsearch).mpr hrun, cwd_chdir, rfl⟩

/-- And it comes back where the search does. -/
theorem sysChdir_returns_iff (hs : s.TreeOk) (habs : path.head? = some slash) (hlen : path.length < 512)
    (hnul : ∀ b ∈ path, b ≠ 0) (hroot : ¬ RootAlias path) :
    (∃ r t, Returns (sysChdir path) s r t) ↔ s.WayClear path ∨ s.WayStarved path := by
  constructor
  · rintro ⟨r, t, hrun⟩
    obtain ⟨out, s₁, hsearch, -⟩ := returns_bind.mp hrun
    rcases searchFile_cases hs habs hlen hnul hroot hsearch with ⟨hclear, -⟩ | ⟨hstarved, -⟩
    · exact Or.inl hclear
    · exact Or.inr hstarved
  · rintro (⟨hne, hfit, hclear⟩ | ⟨hne, hfit, hstarved⟩)
    · obtain ⟨out, s₁, hsearch, harr⟩ := searchFile_arrives hs habs hlen hnul hroot hne hfit hclear
      by_cases hno : out.1 = none ∨ out.2.fType ≠ ftDir
      · obtain ⟨s', hrun⟩ := chdirFound_fails harr.parent hno
        exact ⟨-1, s', (returns_sysChdir hsearch).mpr hrun⟩
      · rw [not_or, not_not] at hno
        obtain ⟨n, hn⟩ := Option.ne_none_iff_exists'.mp hno.1
        obtain ⟨c, -, hrun⟩ := chdirFound_dir hs harr.parent hn hno.2
        exact ⟨0, _, (returns_sysChdir hsearch).mpr hrun⟩
    · obtain ⟨out, s₁, hsearch, hmiss⟩ := searchFile_misses hs habs hlen hnul hroot hne hfit hstarved
      obtain ⟨j, k, hst⟩ := hmiss.parent
      obtain ⟨s', hrun⟩ := chdirFound_fails hst (Or.inl hmiss.number)
      exact ⟨-1, s', (returns_sysChdir hsearch).mpr hrun⟩

/-! ## Asking for its state -/

/-- What is asked of the heap is granted after `k` requests. -/
theorem Stands.hasMemory_iff {m : Nat} (hst : Stands s t p i k) (hs : s.TreeOk) : t.HasMemory m ↔ s.Grants k m := by
  constructor
  · rintro ⟨-, hfull⟩ j hj
    have hgranted := hfull j hj
    rwa [hst.full, hst.next, Nat.add_assoc] at hgranted
  · exact hst.hasMemory hs

/-- A directory that stands open need not be read again. -/
theorem Stands.openRequests_eq (hst : Stands s t p i k) (hs : s.StoreOk) (hok : t.CacheOk) (hi : s.IsDir i) :
    t.openRequests n = if n = i then 0 else s.openRequests n := by
  obtain ⟨a, v, hon⟩ := hst.dirOn
  have hv : v.iNo = i := by
    have hown := hs.own i (Or.inl hi)
    rwa [← hon.content] at hown
  by_cases hn : n = i
  · rw [if_pos hn, Fs.openRequests, if_pos (hok.cached_isSome.mpr ⟨a, v, hon.inode, hv.trans hn.symm⟩)]
  · rw [if_neg hn]
    refine openRequests_congr hs.cache hok (exists_congr fun b => exists_congr fun w => and_congr_left fun hw => ?_)
    apply hon.others_iff hv
    rwa [hw]

theorem Arrives.hasMemory_iff {m : Nat} (harr : Arrives s s₁ (s.walkPath path) k out) (hs : s.StoreOk) (hok : s₁.CacheOk) :
    s₁.HasMemory (m + s₁.openRequests n) ↔ s.Grants k (m + s.lastRequests path n) := by
  rw [harr.parent.openRequests_eq hs hok (dir_arrive .root .root), harr.parent.hasMemory_iff hs.toTreeOk]
  rfl

/-- `sys_stat` behind the search. -/
def statFound (out : Option Nat × PathSearchRecord) : FsM (Option Stat) := do
  let ret ←
    match out.1 with
    | none => pure none
    | some iNo => do
      let a ← inodeOpen iNo
      let v ← getInode a
      inodeClose a
      pure (some { stIno := iNo, stSize := v.iSize, stFiletype := out.2.fType })
  dirClose out.2.parentDir
  return ret

theorem returns_sysStat {r : Option Stat} (hroot : ¬ RootAlias path) (hsearch : Returns (searchFile path) s out s₁) :
    Returns (sysStat path) s r s' ↔ Returns (statFound out) s₁ r s' := by
  have hneg : ¬ (path = [slash] ∨ path = slash :: dot ∨ path = slash :: dotDot) := hroot
  rw [sysStat, if_neg hneg, returns_bind_iff hsearch]
  rfl

theorem statFound_none (hst : Stands s s₁ out.2.parentDir i k) (hno : out.1 = none) :
    ∃ s', Returns (statFound out) s₁ none s' := by
  obtain ⟨s', hclose, -⟩ := hst.closes (none : Option Stat)
  refine ⟨s', ?_⟩
  unfold statFound
  rw [hno]
  exact hclose

theorem statFound_some (hst : Stands s s₁ out.2.parentDir i k) (hok : s₁.CacheOk) (htable : s₁.TableFits)
    (hn : out.1 = some n) (hlt : n < 4096) (hmem : s₁.HasMemory (s₁.openRequests n)) :
    ∃ b s', Returns (statFound out) s₁ (some b) s' ∧ b.stIno = n ∧ b.stFiletype = out.2.fType := by
  obtain ⟨a, t, hopen⟩ := inodeOpen_runs hok htable hlt hmem
  obtain ⟨v, hopens, -⟩ := s₁.opens_content n
  obtain ⟨⟨c, hv⟩, -⟩ := inodeOpen_same hopens hopen
  obtain ⟨t₁, hclose, -⟩ := inodeClose_runs hv
  -- opening and closing the inode leaves no trace
  have hundo : Restored { s₁ with dirs := t.dirs } t₁ := inodeOpen_undo hok hst.held.live hopen hclose
  have hdirs : t.dirs = s₁.dirs := (inodeOpen_step hok hopen).2.1
  obtain ⟨m, hm, rfl⟩ := hundo
  obtain ⟨m, rfl⟩ := Nat.exists_eq_add_of_le hm
  rw [hdirs] at hclose
  obtain ⟨s', hend, -⟩ := (hst.heapAt m).closes
    (some { stIno := n, stSize := v.iSize, stFiletype := out.2.fType } : Option Stat)
  refine ⟨{ stIno := n, stSize := v.iSize, stFiletype := out.2.fType }, s', ?_, rfl, rfl⟩
  unfold statFound
  rw [hn]
  simp only
  rw [returns_bind_iff hopen, returns_bind_iff (returns_getInode.mpr ⟨hv, rfl⟩), returns_bind_iff hclose]
  exact hend

theorem statFound_served {r : Option Stat} (hrunning : ∃ c, s₁.tasks s₁.cur = some c)
    (hn : out.1 = some n) (hrun : Returns (statFound out) s₁ r s') : s₁.HasMemory (s₁.openRequests n) := by
  unfold statFound at hrun
  rw [hn] at hrun
  obtain ⟨a, t, hopen, -⟩ := returns_bind.mp hrun
  cases hcached : s₁.cached n with
  | some b =>
    rw [Fs.openRequests, hcached]
    exact ⟨hrunning, fun j hj => absurd hj (Nat.not_lt_zero _)⟩
  | none =>
    rw [Fs.openRequests, hcached]
    exact (inodeOpen_served hcached hopen).1

theorem Stands.tableFits (hst : Stands s t p i k) (hs : s.TreeOk) : t.TableFits := by
  refine ⟨?_, ?_⟩
  · rw [hst.part]
    exact hs.table.onDisk
  · rw [hst.part]
    exact hs.table.inPart

theorem Stands.running (hst : Stands s t p i k) (hs : s.TreeOk) : ∃ c, t.tasks t.cur = some c := by
  rw [hst.tasks, hst.cur]
  exact hs.running

/-- What a walk from the root comes to is in the tree. -/
theorem Fs.StoreOk.found_inTree {child : Child Nat} (hs : s.StoreOk) (h : (s.walkPath path).found = some child) :
    s.InTree child.node := by
  cases child with
  | dir n => exact Or.inl (dir_found .root h)
  | file n =>
    have habove : s.IsDir (s.walkPath path).above := dir_arrive .root .root
    obtain ⟨c, hnames⟩ := file_arrive h
    obtain ⟨e, he, -, hchild⟩ := Fs.exists_of_names hnames
    obtain ⟨hty, hno⟩ := DirEntry.eq_of_child_file hchild
    exact Or.inr ⟨_, habove, e, he, ((hs.node _ habove).types e he).resolve_left hty, hno⟩

/-- `sys_stat` reports a directory where the walk arrives at it and its inode can be opened. -/
theorem statsDir_iff (hs : s.StoreOk) (habs : path.head? = some slash) (hlen : path.length < 512)
    (hnul : ∀ b ∈ path, b ≠ 0) (hroot : ¬ RootAlias path) :
    StatsDir s path i ↔ s.WayClear path ∧ (s.walkPath path).found = some (.dir i) ∧
      s.Grants (s.wayAsked path) (s.lastRequests path i) := by
  have htree := hs.toTreeOk
  have hneg : ¬ (path = [slash] ∨ path = slash :: dot ∨ path = slash :: dotDot) := hroot
  constructor
  · rintro ⟨b, t, hrun, hty, rfl⟩
    have hrun' := hrun
    rw [sysStat, if_neg hneg] at hrun'
    obtain ⟨out, s₁, hsearch, -⟩ := returns_bind.mp hrun'
    rw [returns_sysStat hroot hsearch] at hrun
    have hok := (searchFile_holds hs.cache hsearch).ok
    have hnone {j k : Nat} (hst : Stands s s₁ out.2.parentDir j k) (hno : out.1 = none) : False := by
      obtain ⟨s', hrun'⟩ := statFound_none hst hno
      cases (hrun.unique hrun').1
    rcases searchFile_cases htree habs hlen hnul hroot hsearch with ⟨hclear, harr⟩ | ⟨-, hmiss⟩
    · cases hfound : (s.walkPath path).found with
      | none =>
        have hnumber := harr.number
        rw [hfound] at hnumber
        exact (hnone harr.parent hnumber).elim
      | some child =>
        obtain ⟨hnumber, hkind⟩ := harr.number_eq hfound
        have hmem := statFound_served (harr.parent.running htree) hnumber hrun
        obtain ⟨b', s', hrun', hino, hkind'⟩ := statFound_some harr.parent hok (harr.parent.tableFits htree) hnumber
          (hs.inMap _ (hs.found_inTree hfound)).1 hmem
        obtain ⟨hb, -⟩ := hrun.unique hrun'
        obtain rfl := Option.some.inj hb
        rw [← Nat.zero_add (s₁.openRequests _), harr.hasMemory_iff hs hok, Nat.zero_add] at hmem
        cases child with
        | file n =>
          rw [hkind', hkind] at hty
          cases hty
        | dir n =>
          obtain rfl : b.stIno = n := hino
          exact ⟨hclear, rfl, hmem⟩
    · obtain ⟨j, k, hst⟩ := hmiss.parent
      exact (hnone hst hmiss.number).elim
  · rintro ⟨⟨hne, hfit, hclear⟩, hfound, hmem⟩
    obtain ⟨out, s₁, hsearch, harr⟩ := searchFile_arrives htree habs hlen hnul hroot hne hfit hclear
    obtain ⟨hnumber, hkind⟩ := harr.number_eq hfound
    have hok := (searchFile_holds hs.cache hsearch).ok
    have hmem' : s₁.HasMemory (s₁.openRequests i) := by
      rw [← Nat.zero_add (s₁.openRequests i)]
      apply (harr.hasMemory_iff hs hok).mpr
      rwa [Nat.zero_add]
    obtain ⟨b, s', hrun, hino, hkind'⟩ := statFound_some harr.parent hok (harr.parent.tableFits htree) hnumber
      (hs.inMap _ (hs.found_inTree hfound)).1 hmem'
    exact ⟨b, s', (returns_sysStat hroot hsearch).mpr hrun, hkind'.trans hkind, hino⟩

/-- And where the path leads nowhere, or to a file whose inode can be opened, it comes back. -/
theorem sysStat_returns_iff (hs : s.StoreOk) (habs : path.head? = some slash) (hlen : path.length < 512)
    (hnul : ∀ b ∈ path, b ≠ 0) (hroot : ¬ RootAlias path) :
    (∃ r t, Returns (sysStat path) s r t) ↔ s.WayStarved path ∨ s.WayClear path ∧
      ∀ child, (s.walkPath path).found = some child → s.Grants (s.wayAsked path) (s.lastRequests path child.node) := by
  have htree := hs.toTreeOk
  have hneg : ¬ (path = [slash] ∨ path = slash :: dot ∨ path = slash :: dotDot) := hroot
  constructor
  · rintro ⟨r, t, hrun⟩
    have hrun' := hrun
    rw [sysStat, if_neg hneg] at hrun'
    obtain ⟨out, s₁, hsearch, -⟩ := returns_bind.mp hrun'
    rw [returns_sysStat hroot hsearch] at hrun
    have hok := (searchFile_holds hs.cache hsearch).ok
    rcases searchFile_cases htree habs hlen hnul hroot hsearch with ⟨hclear, harr⟩ | ⟨hstarved, -⟩
    · refine Or.inr ⟨hclear, fun child hfound => ?_⟩
      have hmem := statFound_served (harr.parent.running htree) (harr.number_eq hfound).1 hrun
      rwa [← Nat.zero_add (s₁.openRequests _), harr.hasMemory_iff hs hok, Nat.zero_add] at hmem
    · exact Or.inl hstarved
  · rintro (⟨hne, hfit, hstarved⟩ | ⟨⟨hne, hfit, hclear⟩, hmem⟩)
    · obtain ⟨out, s₁, hsearch, hmiss⟩ := searchFile_misses htree habs hlen hnul hroot hne hfit hstarved
      obtain ⟨j, k, hst⟩ := hmiss.parent
      obtain ⟨s', hrun⟩ := statFound_none hst hmiss.number
      exact ⟨none, s', (returns_sysStat hroot hsearch).mpr hrun⟩
    · obtain ⟨out, s₁, hsearch, harr⟩ := searchFile_arrives htree habs hlen hnul hroot hne hfit hclear
      have hok := (searchFile_holds hs.cache hsearch).ok
      cases hfound : (s.walkPath path).found with
      | none =>
        have hnumber := harr.number
        rw [hfound] at hnumber
        obtain ⟨s', hrun⟩ := statFound_none harr.parent hnumber
        exact ⟨none, s', (returns_sysStat hroot hsearch).mpr hrun⟩
      | some child =>
        have hmem' : s₁.HasMemory (s₁.openRequests child.node) := by
          rw [← Nat.zero_add (s₁.openRequests child.node)]
          apply (harr.hasMemory_iff hs hok).mpr
          rw [Nat.zero_add]
          exact hmem child hfound
        obtain ⟨b, s', hrun, -⟩ := statFound_some harr.parent hok (harr.parent.tableFits htree) (harr.number_eq hfound).1
          (hs.inMap _ (hs.found_inTree hfound)).1 hmem'
        exact ⟨some b, s', (returns_sysStat hroot hsearch).mpr hrun⟩

/-! ## Opening the directory -/

/-- `sys_opendir` behind the search. -/
def opendirFound (out : Option Nat × PathSearchRecord) : FsM (Option DirPtr) := do
  let ret ←
    match out.1 with
    | none => pure none
    | some iNo =>
      if out.2.fType = ftRegular then
        pure none
      else if out.2.fType = ftDir then do
        let d ← dirOpen iNo
        pure (some d)
      else
        pure none
  dirClose out.2.parentDir
  return ret

/-- The paths `sys_opendir` takes for the root. -/
def DotPath (path : CStr) : Prop := path = [slash] ∨ path.take 2 = [slash, 46]

instance (path : CStr) : Decidable (DotPath path) := inferInstanceAs (Decidable (_ ∨ _))

theorem returns_sysOpendir_long {r : Option DirPtr} (hlong : ¬ path.length < 16) : ¬ Returns (sysOpendir path) s r s' := by
  simp only [sysOpendir, returns_bind (x := assert _), returns_assert]
  rintro ⟨_, _, ⟨hlt, -⟩, -⟩
  exact hlong hlt

theorem returns_sysOpendir_dot {r : Option DirPtr} (hlt : path.length < 16) (hdot : DotPath path) :
    Returns (sysOpendir path) s r s' ↔ r = some .root ∧ s = s' := by
  have hassert : Returns (assert (path.length < 16)) s () s := (returns_assert _ _).mpr ⟨hlt, rfl⟩
  have hpos : path = [slash] ∨ path.take 2 = [slash, 46] := hdot
  rw [sysOpendir, returns_bind_iff hassert, if_pos hpos]
  exact returns_pure.trans (and_congr_left' eq_comm)

theorem returns_sysOpendir {r : Option DirPtr} (hlt : path.length < 16) (hdot : ¬ DotPath path)
    (hsearch : Returns (searchFile path) s out s₁) :
    Returns (sysOpendir path) s r s' ↔ Returns (opendirFound out) s₁ r s' := by
  have hassert : Returns (assert (path.length < 16)) s () s := (returns_assert _ _).mpr ⟨hlt, rfl⟩
  have hneg : ¬ (path = [slash] ∨ path.take 2 = [slash, 46]) := hdot
  rw [sysOpendir, returns_bind_iff hassert, if_neg hneg, returns_bind_iff hsearch]
  rfl

/-- A number that is none of a directory. -/
theorem opendirFound_null (hst : Stands s s₁ out.2.parentDir i k) (hno : out.1 = none ∨ out.2.fType ≠ ftDir) :
    ∃ s', Returns (opendirFound out) s₁ none s' := by
  obtain ⟨s', hclose, -⟩ := hst.closes (none : Option DirPtr)
  refine ⟨s', ?_⟩
  unfold opendirFound
  split
  · exact hclose
  · next n hn =>
    rcases hno with hnone | hty
    · rw [hn] at hnone
      cases hnone
    · split
      · exact hclose
      · exact hclose

/-- The directory is open when the one above has been closed. -/
theorem opendirFound_dir (hst : Stands s s₁ out.2.parentDir i k) (hok : s.CacheOk) (htable : s₁.TableFits)
    (hheld : HoldsDir s s₁ out.2.parentDir) (hn : out.1 = some n) (hty : out.2.fType = ftDir) (hlt : n < 4096)
    (hown : (s₁.content n).iNo = n) (hmem : s₁.HasMemory (1 + s₁.openRequests n)) :
    ∃ p s', Returns (opendirFound out) s₁ (some p) s' ∧ s'.OpenOn p n := by
  obtain ⟨p, t, hopen⟩ := dirOpen_runs hheld.ok htable hlt hmem
  obtain ⟨d, a, v, rfl, hd, hv, hcont⟩ := dirOpen_at hopen
  have hnew := (dirOpen_holds hheld.ok hopen).1
  -- the new handle is not the one on the directory above
  have hne : out.2.parentDir ≠ .heap d := by
    intro hp
    have hlt := hheld.ok.dir_lt d (hheld.fresh d hp).2
    have hge := (hnew.fresh d rfl).1
    omega
  obtain ⟨b, w, hon⟩ := hst.dirOn
  have hb : t.handle out.2.parentDir = some b := by
    have hhandle := hon.handle
    cases hp : out.2.parentDir with
    | root =>
      rw [hp] at hhandle
      show some t.rootDir.inode = _
      rw [hnew.rootDir]
      exact hhandle
    | heap e =>
      rw [hp] at hhandle hne
      show (t.dirs e).map Dir.inode = _
      rw [hnew.dirs e fun h => hne h.symm]
      exact hhandle
  have hin : t.inodes b ≠ none := by
    have hcnt := hnew.cnt b
    have hnonneg := t.dirRef_nonneg (.heap d) b
    have hpos := hheld.ok.pos b w hon.inode
    have hold : s₁.openCnt b = w.iOpenCnt := by rw [Fs.openCnt, hon.inode]
    intro hnone
    rw [hold, Fs.openCnt, hnone] at hcnt
    change ((0 : Nat) : Int) = _ at hcnt
    omega
  obtain ⟨x, hx⟩ := Option.ne_none_iff_exists'.mp hin
  obtain ⟨s', hclose, -⟩ := dirClose_runs hb hx
  obtain ⟨hstep, hdirs, -⟩ := dirClose_step hnew.ok hclose
  have hheld' := hheld.closeUnder hok hnew hclose
  have hd' : s'.dirs d = some { inode := a, dirPose := 0 } := by rw [hdirs d hne, hd]
  -- its inode has a reference left
  have hin' : s'.inodes a ≠ none := by
    have hcnt := hheld'.cnt a
    rw [Fs.dirRef, hd'] at hcnt
    change (s'.openCnt a : Int) = _ + (Pi.single a 1 : Nat → Int) a at hcnt
    rw [Pi.single_eq_same] at hcnt
    intro hnone
    rw [Fs.openCnt, hnone] at hcnt
    change ((0 : Nat) : Int) = _ at hcnt
    omega
  obtain ⟨y, hy⟩ := Option.ne_none_iff_exists'.mp hin'
  have hno : v.iNo = n := (congrArg Inode.iNo hcont).trans hown
  refine ⟨.heap d, s', ?_, a, y, ?_, hy, (hstep.number a v y hv hy).trans hno⟩
  · unfold opendirFound
    rw [hn]
    simp only
    rw [if_neg (by rw [hty]; decide), if_pos hty, returns_bind_iff hopen, returns_bind_iff (returns_pure.mpr ⟨rfl, rfl⟩),
      returns_bind_iff hclose]
    exact returns_pure.mpr ⟨rfl, rfl⟩
  · show (s'.dirs d).map Dir.inode = some a
    rw [hd']
    rfl

theorem opendirFound_served {r : Option DirPtr} (hn : out.1 = some n) (hty : out.2.fType = ftDir)
    (hrun : Returns (opendirFound out) s₁ r s') : s₁.HasMemory (1 + s₁.openRequests n) := by
  unfold opendirFound at hrun
  rw [hn] at hrun
  simp only at hrun
  rw [if_neg (by rw [hty]; decide), if_pos hty] at hrun
  obtain ⟨p, t, hopen, -⟩ := returns_bind.mp hrun
  exact dirOpen_served hopen

/-- A handle is on one inode. -/
theorem Fs.OpenOn.unique {j : Nat} (h : s.OpenOn p i) (h' : s.OpenOn p j) : i = j := by
  obtain ⟨a, v, ha, hv, rfl⟩ := h
  obtain ⟨b, w, hb, hw, rfl⟩ := h'
  obtain rfl := Option.some.inj (ha.symm.trans hb)
  rw [Option.some.inj (hv.symm.trans hw)]

/-- `sys_opendir` opens the directory the walk arrives at, where there is memory for a handle. -/
theorem opensDir_iff (hs : s.StoreOk) (habs : path.head? = some slash) (hlt : path.length < 16)
    (hnul : ∀ b ∈ path, b ≠ 0) (hroot : ¬ RootAlias path) (hdot : ¬ DotPath path) :
    OpensDir s path i ↔ s.WayClear path ∧ (s.walkPath path).found = some (.dir i) ∧
      s.Grants (s.wayAsked path) (1 + s.lastRequests path i) := by
  have htree := hs.toTreeOk
  have hlen : path.length < 512 := by omega
  have hneg : ¬ (path = [slash] ∨ path.take 2 = [slash, 46]) := hdot
  have hassert : Returns (assert (path.length < 16)) s () s := (returns_assert _ _).mpr ⟨hlt, rfl⟩
  -- what the call does where a directory is found
  have hopens {out : Option Nat × PathSearchRecord} {s₁ : Fs} {n : Nat} (hsearch : Returns (searchFile path) s out s₁)
      (harr : Arrives s s₁ (s.walkPath path) (s.wayAsked path) out) (hfound : (s.walkPath path).found = some (.dir n))
      (hmem : s₁.HasMemory (1 + s₁.openRequests n)) :
      ∃ p s', Returns (sysOpendir path) s (some p) s' ∧ s'.OpenOn p n := by
    obtain ⟨hnumber, hkind⟩ := harr.number_eq hfound
    have hin := hs.found_inTree hfound
    have hheld := searchFile_holds hs.cache hsearch
    have hown : (s₁.content n).iNo = n := by
      rw [harr.parent.content_eq hs (dir_arrive .root .root)]
      exact hs.own n hin
    obtain ⟨p, s', hrun, hon⟩ := opendirFound_dir harr.parent hs.cache (harr.parent.tableFits htree) hheld hnumber hkind
      (hs.inMap n hin).1 hown hmem
    exact ⟨p, s', (returns_sysOpendir hlt hdot hsearch).mpr hrun, hon⟩
  constructor
  · rintro ⟨p, t, hrun, hon⟩
    have hrun' := hrun
    rw [sysOpendir, returns_bind_iff hassert, if_neg hneg] at hrun'
    obtain ⟨out, s₁, hsearch, -⟩ := returns_bind.mp hrun'
    have hfound' := (returns_sysOpendir hlt hdot hsearch).mp hrun
    have hnull {j k : Nat} (hst : Stands s s₁ out.2.parentDir j k) (hno : out.1 = none ∨ out.2.fType ≠ ftDir) : False := by
      obtain ⟨s', hnone⟩ := opendirFound_null hst hno
      cases (hfound'.unique hnone).1
    rcases searchFile_cases htree habs hlen hnul hroot hsearch with ⟨hclear, harr⟩ | ⟨-, hmiss⟩
    · cases hfound : (s.walkPath path).found with
      | none =>
        have hnumber := harr.number
        rw [hfound] at hnumber
        exact (hnull harr.parent (Or.inl hnumber)).elim
      | some child =>
        obtain ⟨hnumber, hkind⟩ := harr.number_eq hfound
        cases child with
        | file n =>
          refine (hnull harr.parent (Or.inr ?_)).elim
          rw [hkind]
          show ftRegular ≠ ftDir
          decide
        | dir n =>
          have hmem := opendirFound_served hnumber hkind hfound'
          obtain ⟨q, s', hrun', hon'⟩ := hopens hsearch harr hfound hmem
          obtain ⟨hpq, rfl⟩ := hrun.unique hrun'
          obtain rfl := Option.some.inj hpq
          obtain rfl := hon.unique hon'
          exact ⟨hclear, rfl, (harr.hasMemory_iff hs (searchFile_holds hs.cache hsearch).ok).mp hmem⟩
    · obtain ⟨j, k, hst⟩ := hmiss.parent
      exact (hnull hst (Or.inl hmiss.number)).elim
  · rintro ⟨⟨hne, hfit, hclear⟩, hfound, hmem⟩
    obtain ⟨out, s₁, hsearch, harr⟩ := searchFile_arrives htree habs hlen hnul hroot hne hfit hclear
    exact hopens hsearch harr hfound ((harr.hasMemory_iff hs (searchFile_holds hs.cache hsearch).ok).mpr hmem)

/-- And where the path leads to no directory it comes back with the search. -/
theorem sysOpendir_returns_iff (hs : s.TreeOk) (habs : path.head? = some slash) (hlt : path.length < 16)
    (hnul : ∀ b ∈ path, b ≠ 0) (hroot : ¬ RootAlias path) (hdot : ¬ DotPath path)
    (hdir : ∀ n, (s.walkPath path).found ≠ some (.dir n)) :
    (∃ r t, Returns (sysOpendir path) s r t) ↔ s.WayClear path ∨ s.WayStarved path := by
  have hlen : path.length < 512 := by omega
  have hneg : ¬ (path = [slash] ∨ path.take 2 = [slash, 46]) := hdot
  have hassert : Returns (assert (path.length < 16)) s () s := (returns_assert _ _).mpr ⟨hlt, rfl⟩
  constructor
  · rintro ⟨r, t, hrun⟩
    rw [sysOpendir, returns_bind_iff hassert, if_neg hneg] at hrun
    obtain ⟨out, s₁, hsearch, -⟩ := returns_bind.mp hrun
    rcases searchFile_cases hs habs hlen hnul hroot hsearch with ⟨hclear, -⟩ | ⟨hstarved, -⟩
    · exact Or.inl hclear
    · exact Or.inr hstarved
  · rintro (⟨hne, hfit, hclear⟩ | ⟨hne, hfit, hstarved⟩)
    · obtain ⟨out, s₁, hsearch, harr⟩ := searchFile_arrives hs habs hlen hnul hroot hne hfit hclear
      have hno : out.1 = none ∨ out.2.fType ≠ ftDir := by
        cases hfound : (s.walkPath path).found with
        | none =>
          have hnumber := harr.number
          rw [hfound] at hnumber
          exact Or.inl hnumber
        | some child =>
          cases child with
          | dir n => exact absurd hfound (hdir n)
          | file n =>
            right
            rw [(harr.number_eq hfound).2]
            show ftRegular ≠ ftDir
            decide
      obtain ⟨s', hrun⟩ := opendirFound_null harr.parent hno
      exact ⟨none, s', (returns_sysOpendir hlt hdot hsearch).mpr hrun⟩
    · obtain ⟨out, s₁, hsearch, hmiss⟩ := searchFile_misses hs habs hlen hnul hroot hne hfit hstarved
      obtain ⟨j, k, hst⟩ := hmiss.parent
      obtain ⟨s', hrun⟩ := opendirFound_null hst (Or.inl hmiss.number)
      exact ⟨none, s', (returns_sysOpendir hlt hdot hsearch).mpr hrun⟩

/-- The paths taken for the root. -/
theorem opensDir_dot (hs : s.TreeOk) (hlt : path.length < 16) (hdot : DotPath path) : OpensDir s path i ↔ i = 0 := by
  have hroot : s.OpenOn .root 0 := (Stands.root hs).inode hs .root
  constructor
  · rintro ⟨p, t, hrun, hon⟩
    obtain ⟨hp, rfl⟩ := (returns_sysOpendir_dot hlt hdot).mp hrun
    obtain rfl := Option.some.inj hp
    exact hon.unique hroot
  · rintro rfl
    exact ⟨.root, s, (returns_sysOpendir_dot hlt hdot).mpr ⟨rfl, rfl⟩, hroot⟩

/-! ## The names of the root -/

theorem rootAlias_dot (h : RootAlias path) : path.length < 16 ∧ DotPath path := by
  rcases h with rfl | rfl | rfl
  · exact ⟨by decide, by decide⟩
  · exact ⟨by decide, by decide⟩
  · exact ⟨by decide, by decide⟩

theorem searchFile_alias (hroot : RootAlias path) :
    Returns (searchFile path) s (some 0, { searchedPath := [], parentDir := .root, fType := ftDir }) s := by
  rw [searchFile_root hroot]
  exact returns_pure.mpr ⟨rfl, rfl⟩

/-- `sys_chdir` to the root. -/
theorem sysChdir_root (hs : s.TreeOk) (hroot : RootAlias path) : ∃ c, s.tasks s.cur = some c ∧
    Returns (sysChdir path) s 0 ((s.heapAt (s.heap.next + 0)).setTask s.cur { c with cwdInodeNr := 0 }) := by
  have hst : Stands s s .root 0 0 := .root hs
  let out : Option Nat × PathSearchRecord := (some 0, { searchedPath := [], parentDir := .root, fType := ftDir })
  have hnumber : out.1 = some 0 := rfl
  have hkind : out.2.fType = ftDir := rfl
  obtain ⟨c, hc, hrun⟩ := chdirFound_dir hs hst hnumber hkind
  exact ⟨c, hc, (returns_sysChdir (searchFile_alias hroot)).mpr hrun⟩

theorem changesTo_root (hs : s.TreeOk) (hroot : RootAlias path) : ChangesTo s path i ↔ i = 0 := by
  obtain ⟨c, -, hrun⟩ := sysChdir_root hs hroot
  constructor
  · rintro ⟨t', c', hrun', hc', rfl⟩
    obtain ⟨-, rfl⟩ := hrun.unique hrun'
    obtain rfl := Option.some.inj (cwd_chdir.symm.trans hc')
    rfl
  · rintro rfl
    exact ⟨_, _, hrun, cwd_chdir, rfl⟩

theorem statsDir_root (hs : s.TreeOk) (hroot : RootAlias path) : StatsDir s path i ↔ i = 0 := by
  have hpos : path = [slash] ∨ path = slash :: dot ∨ path = slash :: dotDot := hroot
  obtain ⟨a, v, ha, hv, -⟩ := (Stands.root hs).inode hs .root
  have hrun : Returns (sysStat path) s (some { stIno := 0, stSize := v.iSize, stFiletype := ftDir }) s := by
    rw [sysStat, if_pos hpos, returns_bind_iff (returns_dirInode.mpr ⟨ha, rfl⟩),
      returns_bind_iff (returns_getInode.mpr ⟨hv, rfl⟩)]
    exact returns_pure.mpr ⟨rfl, rfl⟩
  constructor
  · rintro ⟨b, t, hrun', -, rfl⟩
    obtain ⟨hb, -⟩ := hrun.unique hrun'
    rw [← Option.some.inj hb]
  · rintro rfl
    exact ⟨_, s, hrun, rfl, rfl⟩

/-- The root is always open. -/
theorem Fs.TreeOk.lastRequests_zero (hs : s.TreeOk) : s.lastRequests path 0 = 0 := by
  unfold Fs.lastRequests
  split
  · rfl
  · rw [Fs.openRequests, hs.root]
    rfl

/-! ## Where they agree -/

theorem Fs.Absent.not_dir (h : s.Absent path) : (s.walkPath path).found ≠ some (.dir n) := by
  intro hfound
  rcases h with hnone | ⟨m, hfile, -⟩
  · rw [hfound] at hnone
    cases hnone
  · rw [hfound] at hfile
    cases hfile

/-- The search cannot both go through to something and give up. -/
theorem Fs.WayClear.not_starved {child : Child Nat} (hs : s.TreeOk) (habs : path.head? = some slash)
    (hlen : path.length < 512) (hnul : ∀ b ∈ path, b ≠ 0) (hroot : ¬ RootAlias path) (hclear : s.WayClear path)
    (hfound : (s.walkPath path).found = some child) : ¬ s.WayStarved path := by
  rintro ⟨-, -, hstarved⟩
  obtain ⟨hne, hfit, hclear⟩ := hclear
  obtain ⟨out, s₁, hsearch, harr⟩ := searchFile_arrives hs habs hlen hnul hroot hne hfit hclear
  obtain ⟨out', s₁', hsearch', hmiss⟩ := searchFile_misses hs habs hlen hnul hroot hne hfit hstarved
  obtain ⟨rfl, -⟩ := hsearch.unique hsearch'
  have hnumber := hmiss.number
  rw [(harr.number_eq hfound).1] at hnumber
  cases hnumber

/-- A path that `sys_opendir` takes for the root. -/
theorem dirCallsAgree_dot (hs : s.StoreOk) (habs : path.head? = some slash) (hlt : path.length < 16)
    (hnul : ∀ b ∈ path, b ≠ 0) (hroot : ¬ RootAlias path) (hdot : DotPath path) :
    DirCallsAgree s path ↔ s.WayClear path ∧ (s.walkPath path).found = some (.dir 0) := by
  have htree := hs.toTreeOk
  have hlen : path.length < 512 := by omega
  constructor
  · rintro ⟨hagree, -⟩
    have hopens : OpensDir s path 0 := (opensDir_dot htree hlt hdot).mpr rfl
    exact (changesTo_iff htree habs hlen hnul hroot).mp ((hagree 0).1.mp hopens)
  · rintro ⟨hclear, hfound⟩
    refine ⟨fun i => ?_, fun habsent => absurd hfound habsent.not_dir⟩
    rw [opensDir_dot htree hlt hdot, changesTo_iff htree habs hlen hnul hroot, statsDir_iff hs habs hlen hnul hroot, hfound]
    have hzero : some (Child.dir 0) = some (.dir i) ↔ i = 0 := by
      constructor
      · rintro ⟨⟩
        rfl
      · rintro rfl
        rfl
    rw [hzero]
    refine ⟨⟨fun hi => ⟨hclear, hi⟩, fun h => h.2⟩, fun h => ⟨h.1, h.2, ?_⟩, fun h => ⟨h.1, h.2.1⟩⟩
    rw [h.2, htree.lastRequests_zero]
    exact fun j hj => absurd hj (Nat.not_lt_zero j)

/-- A path of fewer than 16 bytes that it does not. -/
theorem dirCallsAgree_short (hs : s.StoreOk) (habs : path.head? = some slash) (hlt : path.length < 16)
    (hnul : ∀ b ∈ path, b ≠ 0) (hroot : ¬ RootAlias path) (hdot : ¬ DotPath path) :
    DirCallsAgree s path ↔ (s.Absent path → s.WayClear path ∨ s.WayStarved path) ∧ (s.WayClear path → s.DirFits path) := by
  have htree := hs.toTreeOk
  have hlen : path.length < 512 := by omega
  constructor
  · rintro ⟨hagree, hreturns⟩
    refine ⟨fun habsent => ?_, fun hclear => ?_⟩
    · exact (sysChdir_returns_iff htree habs hlen hnul hroot).mp (hreturns habsent).2.1
    · unfold Fs.DirFits
      cases hfound : (s.walkPath path).found with
      | none => trivial
      | some child =>
        cases child with
        | dir n =>
          have hchanges : ChangesTo s path n := (changesTo_iff htree habs hlen hnul hroot).mpr ⟨hclear, hfound⟩
          exact ((opensDir_iff hs habs hlt hnul hroot hdot).mp ((hagree n).1.mpr hchanges)).2.2
        | file n =>
          intro hrest
          have hstat := (sysStat_returns_iff hs habs hlen hnul hroot).mp (hreturns (Or.inr ⟨n, hfound, hrest⟩)).2.2
          rcases hstat with hstarved | ⟨-, hmem⟩
          · exact absurd hstarved (hclear.not_starved htree habs hlen hnul hroot hfound)
          · exact hmem _ hfound
  · rintro ⟨habsent, hfits⟩
    refine ⟨fun i => ?_, fun hab => ⟨?_, ?_, ?_⟩⟩
    · rw [opensDir_iff hs habs hlt hnul hroot hdot, changesTo_iff htree habs hlen hnul hroot,
        statsDir_iff hs habs hlen hnul hroot]
      have hmem (h : s.WayClear path ∧ (s.walkPath path).found = some (.dir i)) :
          s.Grants (s.wayAsked path) (1 + s.lastRequests path i) := by
        have hfit := hfits h.1
        unfold Fs.DirFits at hfit
        rw [h.2] at hfit
        exact hfit
      refine ⟨⟨fun h => ⟨h.1, h.2.1⟩, fun h => ⟨h.1, h.2, hmem h⟩⟩, fun h => ⟨h.1, h.2, fun j hj => ?_⟩,
        fun h => ⟨h.1, h.2.1⟩⟩
      exact hmem h j (by omega)
    · exact (sysOpendir_returns_iff htree habs hlt hnul hroot hdot fun n => hab.not_dir).mpr (habsent hab)
    · exact (sysChdir_returns_iff htree habs hlen hnul hroot).mpr (habsent hab)
    · refine (sysStat_returns_iff hs habs hlen hnul hroot).mpr ?_
      rcases habsent hab with hclear | hstarved
      · refine Or.inr ⟨hclear, fun child hfound => ?_⟩
        have hfit := hfits hclear
        unfold Fs.DirFits at hfit
        rw [hfound] at hfit
        cases child with
        | dir n => exact absurd hfound hab.not_dir
        | file n =>
          rcases hab with hnone | ⟨m, -, hrest⟩
          · rw [hfound] at hnone
            cases hnone
          · exact hfit hrest
      · exact Or.inl hstarved

/-- A path that is longer than a name. -/
theorem dirCallsAgree_long (hs : s.StoreOk) (habs : path.head? = some slash) (hlong : 16 ≤ path.length)
    (hlen : path.length < 512) (hnul : ∀ b ∈ path, b ≠ 0) (hroot : ¬ RootAlias path) :
    DirCallsAgree s path ↔ ¬ s.Absent path ∧ ¬ (s.WayClear path ∧ ∃ n, (s.walkPath path).found = some (.dir n)) := by
  have htree := hs.toTreeOk
  have hstops {r : Option DirPtr} {t : Fs} : ¬ Returns (sysOpendir path) s r t := returns_sysOpendir_long (by omega)
  have hopens (i : Nat) : ¬ OpensDir s path i := by
    rintro ⟨p, t, hrun, -⟩
    exact hstops hrun
  constructor
  · rintro ⟨hagree, hreturns⟩
    refine ⟨fun habsent => ?_, ?_⟩
    · obtain ⟨⟨r, t, hrun⟩, -⟩ := hreturns habsent
      exact hstops hrun
    · rintro ⟨hclear, n, hfound⟩
      have hchanges : ChangesTo s path n := (changesTo_iff htree habs hlen hnul hroot).mpr ⟨hclear, hfound⟩
      exact hopens n ((hagree n).1.mpr hchanges)
  · rintro ⟨habsent, hnot⟩
    refine ⟨fun i => ?_, fun hab => absurd hab habsent⟩
    rw [changesTo_iff htree habs hlen hnul hroot, statsDir_iff hs habs hlen hnul hroot]
    have hno (h : s.WayClear path ∧ (s.walkPath path).found = some (.dir i)) : False := hnot ⟨h.1, i, h.2⟩
    exact ⟨⟨fun h => absurd h (hopens i), fun h => (hno h).elim⟩, fun h => (hno h).elim, fun h => ⟨h.1, h.2.1⟩⟩

end Calls

/-- In a file system in order the three calls agree on a path that is a name of the root; on one of
    fewer than 16 bytes that begins with `"/."` where it leads to the root; on any other of fewer
    than 16 bytes, as long as the search comes back where there is nothing to find and what it comes
    to can be opened; and on a longer one only where it names a file, or a directory that cannot be
    reached. -/
theorem dir_calls_agree_iff (s : Fs) (path : CStr) (hs : s.StoreOk) (habs : path.head? = some slash)
    (hlen : path.length < 512) (hnul : ∀ b ∈ path, b ≠ 0) :
    DirCallsAgree s path ↔ RootAlias path ∨
      path.length < 16 ∧ DotPath path ∧ s.WayClear path ∧ (s.walkPath path).found = some (.dir 0) ∨
      path.length < 16 ∧ ¬ DotPath path ∧ (s.Absent path → s.WayClear path ∨ s.WayStarved path) ∧
        (s.WayClear path → s.DirFits path) ∨
      16 ≤ path.length ∧ ¬ s.Absent path ∧ ¬ (s.WayClear path ∧ ∃ n, (s.walkPath path).found = some (.dir n)) := by
  have htree := hs.toTreeOk
  by_cases hroot : RootAlias path
  · -- all three know the root by its names
    refine ⟨fun _ => Or.inl hroot, fun _ => ⟨fun i => ?_, fun habsent => ?_⟩⟩
    · obtain ⟨hlt, hdot⟩ := rootAlias_dot hroot
      rw [opensDir_dot htree hlt hdot, changesTo_root htree hroot, statsDir_root htree hroot]
      exact ⟨Iff.rfl, Iff.rfl⟩
    · have hfound := (htree.walk_root hroot).1
      rcases habsent with hnone | ⟨n, hfile, -⟩
      · rw [hfound] at hnone
        cases hnone
      · rw [hfound] at hfile
        cases hfile
  · rw [or_iff_right hroot]
    by_cases hlt : path.length < 16
    · by_cases hdot : DotPath path
      · rw [dirCallsAgree_dot hs habs hlt hnul hroot hdot]
        constructor
        · exact fun h => Or.inl ⟨hlt, hdot, h⟩
        · rintro (⟨-, -, h⟩ | ⟨-, hndot, -⟩ | ⟨hlong, -⟩)
          · exact h
          · exact absurd hdot hndot
          · omega
      · rw [dirCallsAgree_short hs habs hlt hnul hroot hdot]
        constructor
        · exact fun h => Or.inr (Or.inl ⟨hlt, hdot, h⟩)
        · rintro (⟨-, hdot', -⟩ | ⟨-, -, h⟩ | ⟨hlong, -⟩)
          · exact absurd hdot' hdot
          · exact h
          · omega
    · have hlong : 16 ≤ path.length := by omega
      rw [dirCallsAgree_long hs habs hlong hlen hnul hroot]
      constructor
      · exact fun h => Or.inr (Or.inr ⟨hlong, h⟩)
      · rintro (⟨hlt', -⟩ | ⟨hlt', -⟩ | ⟨-, h⟩)
        · exact absurd hlt' hlt
        · exact absurd hlt' hlt
        · exact h

open SmallTree in
/-- All three find the directory `"/d"`. -/
theorem dir_calls_agree_dir : DirCallsAgree fs [47, 100] := by
  have hroot : fs.names 0 [100] = some (.dir 1) := names_root (e := ⟨[100], 1, ftDir⟩) (by decide)
  have hcs : components slash [47, 100] = [[100]] := by decide
  have hwalk : fs.walkPath [47, 100] = ⟨some (.dir 1), 0, [[100]], []⟩ := by
    rw [Fs.walkPath, hcs, arrive_cons_dir hroot]
    rfl
  refine (dir_calls_agree_iff fs [47, 100] storeOk rfl (by decide) (by decide)).mpr
    (Or.inr (Or.inr (Or.inl ⟨by decide, by decide, fun _ => Or.inl ⟨by decide, by decide, ?_⟩, fun _ => ?_⟩)))
  · rw [hcs]
    simp only [Fs.Clear, hroot]
    exact ⟨grants _ _, by rintro _ ⟨⟩, grants _ _, grants _ _⟩
  · unfold Fs.DirFits
    rw [hwalk]
    exact grants _ _

open SmallTree in
/-- `"/.x"` names nothing, and `sys_opendir` returns the root. -/
theorem opendir_takes_for_root : fs.StoreOk ∧ fs.Absent [47, 46, 120] ∧ OpensDir fs [47, 46, 120] 0 ∧
    (∃ s', Returns (sysChdir [47, 46, 120]) fs (-1) s') ∧ ¬ DirCallsAgree fs [47, 46, 120] := by
  have hroot : fs.names 0 [46, 120] = none := by
    rw [Fs.names_eq_none, entries_root]
    decide
  have hwalk : (fs.walkPath [47, 46, 120]).found = none := by
    rw [Fs.walkPath, show components slash [47, 46, 120] = [[46, 120]] by decide, arrive_cons_none hroot]
  have hopens : OpensDir fs [47, 46, 120] 0 := (opensDir_dot treeOk (by decide) (by decide)).mpr rfl
  have hend : (sysChdir [47, 46, 120]).checks fs (fun r _ => r = -1) = true := by decide +kernel
  obtain ⟨r, s', hrun, hr⟩ := checks_eq_true.mp hend
  obtain rfl := of_decide_eq_true hr
  refine ⟨storeOk, Or.inl hwalk, hopens, ⟨s', hrun⟩, fun hagree => ?_⟩
  obtain ⟨t, c, hrun', -⟩ := (hagree.1 0).1.mp hopens
  cases (hrun.unique hrun').1

end ZxyOs
