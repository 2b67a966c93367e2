/-
  ZxyOs.User.TreeRun

  The directory tree under calls of many processes.

  The user of the file system sees a `Hierarchy`: what each path from the root leads to, and a
  working directory for each process, as a path.  `sys_mkdir` and `sys_unlink` add and drop one
  path of it, `sys_chdir` moves one process, and `sys_getcwd` reads one entry; nothing else
  shows.  The state on disk follows the hierarchy call by call (`TreeCall.shows`), whoever
  makes the calls and in whatever order (`tree_refines`).
-/

import ZxyOs.Fs.Saved
import ZxyOs.Lib.Hierarchy
import ZxyOs.User.Shell

namespace ZxyOs

open Lib Lib.Exec

/-! ## Calls -/

/-- A call that reads or changes the tree. -/
inductive TreeCall where
  | mkdir (path : CStr)
  | unlink (path : CStr)
  | chdir (path : CStr)
  | getcwd

/-- What it comes back with. -/
inductive TreeAnswer where
  | code (r : Int)
  | path (p : Option CStr)

def TreeCall.execute : TreeCall → FsM TreeAnswer
  | .mkdir path => do
    let r ← sysMkdir path
    return .code r
  | .unlink path => do
    let r ← sysUnlink path
    return .code r
  | .chdir path => do
    let r ← sysChdir path
    return .code r
  | .getcwd => do
    let p ← sysGetcwd 512
    return .path p

/-- The scheduler gives the processor to process `t`. -/
def switchTo (t : Nat) : FsM Unit := update fun s => { s with cur := t }

/-- One call after the other, each by the process that makes it. -/
def executeCalls : List (Nat × TreeCall) → FsM (List TreeAnswer)
  | [] => return []
  | (t, call) :: calls => do
    switchTo t
    let answer ← call.execute
    let answers ← executeCalls calls
    return answer :: answers

/-! ## The hierarchy -/

/-- What the paths lead to, which processes there are and where, and which files are open. -/
structure Hierarchy where
  kind : List CStr → Option (Kind Nat)
  cwd : Nat → Option (List CStr)
  opened : Nat → Prop

open Classical in
/-- What a call of process `t` answers, and the hierarchy after it. -/
noncomputable def TreeCall.spec (h : Hierarchy) (t : Nat) : TreeCall → TreeAnswer × Hierarchy
  | .mkdir path =>
    if h.kind (components slash path).dropLast = some .dir ∧ h.kind (components slash path) = none then
      (.code 0, { h with kind := Function.update h.kind (components slash path) (some .dir) })
    else
      (.code (-1), h)
  | .unlink path =>
    if ∃ n, h.kind (components slash path) = some (.file n) ∧ ¬ h.opened n then
      (.code 0, { h with kind := Function.update h.kind (components slash path) none })
    else
      (.code (-1), h)
  | .chdir path =>
    if h.kind (components slash path) = some .dir then
      (.code 0, { h with cwd := Function.update h.cwd t (some (components slash path)) })
    else
      (.code (-1), h)
  | .getcwd => (.path ((h.cwd t).map (rooted slash)), h)

/-- The answers to a list of calls, and the hierarchy in the end. -/
noncomputable def specCalls : Hierarchy → List (Nat × TreeCall) → List TreeAnswer × Hierarchy
  | h, [] => ([], h)
  | h, (t, call) :: calls =>
    ((call.spec h t).1 :: (specCalls (call.spec h t).2 calls).1, (specCalls (call.spec h t).2 calls).2)

/-! ## What the calls are given -/

/-- A washed path that fits the arrays it is copied to. -/
structure WashFits (path : CStr) : Prop where
  wash : Washed path
  nul : ∀ b ∈ path, b ≠ 0
  short : path.length < 512
  fit : AllFit (components slash path)

/-- A directory is only asked for where there is room for it.  No path leads through a file, and a file is only
    removed from a directory without an index table, with a slot of its own to be synchronised to, and with no
    block in the last place of its list. -/
def TreeCall.Fits (s : Fs) : TreeCall → Prop
  | .mkdir path => WashFits path ∧
    ((s.walkPath path).found = none → (s.walkPath path).rest = [] → s.MkdirRoom (s.walkPath path).above)
  | .unlink path => WashFits path ∧ path ≠ [slash] ∧ ∀ n, (s.walkPath path).found = some (.file n) →
    (s.walkPath path).rest = [] ∧ (¬ s.IsOpenFile n → (s.content (s.walkPath path).above).sector 12 = 0 ∧
      (s.walkPath path).above < 256 ∧ (s.content n).blockAddr s.disk 139 = 0)
  | .chdir path => WashFits path
  | .getcwd => True

/-- Every call fits the state it finds. -/
def CallsFit : Fs → List (Nat × TreeCall) → Prop
  | _, [] => True
  | s, (t, call) :: calls => call.Fits s ∧ ∀ answer s', Returns call.execute { s with cur := t } answer s' → CallsFit s' calls

/-! ## The state and the hierarchy -/

/-- Process `k` works in the directory with the path `cs`, which fits the buffer of `sys_getcwd`. -/
structure Fs.WorksIn (s : Fs) (k : Task) (cs : List CStr) : Prop where
  walk : walk s.names 0 cs = .dir k.cwdInodeNr
  names : ∀ c ∈ cs, Downward c ∧ slash ∉ c
  room : (rooted slash cs).length < 512

/-- The file system is in order, and `h` is what it shows. -/
structure Shows (s : Fs) (h : Hierarchy) : Prop where
  order : s.InOrder
  serves : s.Serves
  kind : h.kind = view s.names Downward 0
  opened : ∀ n, h.opened n ↔ s.IsOpenFile n
  cwd : ∀ t, Option.Rel s.WorksIn (s.tasks t) (h.cwd t)

/-- Options that are related stay so under a weaker relation. -/
theorem option_rel_mono {α β : Type} {r r' : α → β → Prop} {a : Option α} {b : Option β} (h : ∀ x y, r x y → r' x y)
    (hr : Option.Rel r a b) : Option.Rel r' a b := by
  cases hr with
  | some hxy => exact .some (h _ _ hxy)
  | none => exact .none

section Shows

variable {s s' u : Fs} {h : Hierarchy} {path : CStr} {t n d i : Nat} {c : CStr} {p : List CStr} {call : TreeCall}

theorem WashFits.pathFits (hw : WashFits path) : PathFits path := ⟨hw.wash.head, hw.nul, hw.short, hw.fit⟩

theorem WashFits.down (hw : WashFits path) : ∀ c ∈ components slash path, Downward c :=
  fun c hc => (hw.wash.components.1 c hc).1

theorem WashFits.rooted_eq (hw : WashFits path) : rooted slash (components slash path) = path := hw.wash.components.2.symm

theorem WashFits.not_alias (hw : WashFits path) (hne : components slash path ≠ []) : ¬ RootAlias path := by
  intro hroot
  rw [hw.wash.alias hroot] at hne
  exact hne (by decide)

theorem Fs.InOrder.tree (hs : s.InOrder) : Tree s.names s.IsDir Downward 0 := hs.toChainOk.tree

/-! ### What does not show -/

theorem Restored.beside (hr : Restored s u) (hs : s.InOrder) (hserves : s.Serves) : Beside s u ∧ SameTasks s u := by
  have hserves' := hr.serves hserves
  obtain ⟨m, hm, rfl⟩ := hr
  exact ⟨⟨rfl, hm, hs.live.goOn hm, hs.running, hserves'⟩, rfl, rfl⟩

/-- The hierarchy does not change while no process moves. -/
theorem Shows.beside (hs : Shows s h) (hb : Beside s u) (ht : SameTasks s u) : Shows u h := by
  have hrunning := hb.running
  have htasks := ht.tasks
  have hserved := hb.served
  rw [hb.rest] at hrunning htasks hserved ⊢
  refine ⟨hs.order.moved hb.live hb.next hrunning fun t k hk => hs.order.cwd t k (htasks ▸ hk), hserved, hs.kind, hs.opened,
    fun t => ?_⟩
  have hcwd := hs.cwd t
  rw [← htasks] at hcwd
  exact option_rel_mono (fun k cs hk => ⟨hk.walk, hk.names, hk.room⟩) hcwd

theorem Shows.restored (hs : Shows s h) (hr : Restored s u) : Shows u h := by
  obtain ⟨hb, ht⟩ := hr.beside hs.order hs.serves
  exact hs.beside hb ht

theorem Shows.switch (hs : Shows s h) (hk : ∃ k, s.tasks t = some k) : Shows { s with cur := t } h :=
  ⟨hs.order.moved hs.order.live le_rfl hk hs.order.cwd, hs.serves, hs.kind, hs.opened,
    fun t => option_rel_mono (fun _ _ hk => ⟨hk.walk, hk.names, hk.room⟩) (hs.cwd t)⟩

/-- The open files are those they were. -/
theorem Settled.isOpenFile (hset : Settled s u) (hs : s.InOrder) : u.IsOpenFile n ↔ s.IsOpenFile n := by
  unfold Fs.IsOpenFile
  rw [hset.fileTable, hset.rings]
  refine exists_congr fun g => and_congr_right fun _ => ?_
  constructor
  · rintro ⟨a, v, hg, hring, hv, hno⟩
    obtain ⟨w, hw, hwno⟩ := hset.cachedAs hs.cache hv
    exact ⟨a, w, hg, hring, hw, hwno.trans hno⟩
  · rintro ⟨a, v, hg, hring, hv, hno⟩
    obtain ⟨w, hw, hwno⟩ := hset.cachedStill hs.cache hv
    exact ⟨a, w, hg, hring, hw, hwno.trans hno⟩

/-- A call that has changed what one path leads to. -/
theorem Shows.settled (hs : Shows s h) (hset : Settled s u) (horder : u.InOrder) {kind : List CStr → Option (Kind Nat)}
    (hkind : kind = view u.names Downward 0)
    (hwalk : ∀ cs i, walk s.names 0 cs = .dir i → walk u.names 0 cs = .dir i) : Shows u { h with kind := kind } := by
  refine ⟨horder, hset.serves hs.serves, hkind, fun n => (hs.opened n).trans (hset.isOpenFile hs.order).symm, fun t => ?_⟩
  have hcwd := hs.cwd t
  rw [← hset.tasks] at hcwd
  exact option_rel_mono (fun k cs hk => ⟨hwalk cs _ hk.walk, hk.names, hk.room⟩) hcwd

/-! ### The edits -/

theorem MkdirDone.adds {t u : Fs} {q : DirPtr} {a b : Nat} {v w : Inode} (hdone : MkdirDone s t u s' q d a i b v w c)
    (hs : s.InOrder) : Adds s.names s'.names s.IsDir Downward d i c where
  above := hdone.making.dir
  missing := Fs.names_eq_none.mpr hdone.fresh
  here := fun e he => by rw [hdone.names_parent hs, if_neg he]
  new := by rw [hdone.names_parent hs, if_pos rfl]
  elsewhere := fun j hj hjd => hdone.names_kept hj hjd
  empty := (hdone.names_new hs).2.2

theorem UnlinkDone.drops {t u : Fs} {q : DirPtr} {a k j : Nat} {v w : Inode} {e : DirEntry}
    (hdone : UnlinkDone s t u s' q d a n k j v w e) (hs : s.InOrder) : Drops s.names s'.names s.IsDir d n e.filename where
  above := hdone.unlinking.dir
  was := hdone.names_was hs
  here := fun c hc => by rw [hdone.names_dir hs, if_neg hc]
  gone := by rw [hdone.names_dir hs, if_pos rfl]
  elsewhere := fun j hj hjd => hdone.names_kept hj hjd

/-- The directory that was made, or that has lost a file, is the one the path leads to before its last name. -/
theorem walk_above (hrest : (s.walkPath path).rest = [])
    (hnot : ∀ n, (s.walkPath path).found ≠ some (.dir n)) :
    ∃ p c, components slash path = p ++ [c] ∧ walk s.names 0 p = .dir (s.walkPath path).above ∧
      s.names (s.walkPath path).above c = (s.walkPath path).found ∧ c = (components slash path).getLastD [] := by
  rcases arrive_end s.names 0 (components slash path) 0 [] with
    ⟨m, -, hfound, -⟩ | ⟨p, c, hcs, hwalk, hname, -⟩
  · exact absurd hfound (hnot m)
  · have hall : components slash path = p ++ [c] := by
      rw [show (arrive s.names 0 0 [] (components slash path)).rest = [] from hrest] at hcs
      exact hcs
    refine ⟨p, c, hall, hwalk, hname, ?_⟩
    rw [hall, List.getLastD_concat]

theorem mem_walk_above (hw : WashFits path) (hall : components slash path = p ++ [c]) : (∀ e ∈ p, Downward e) ∧ Downward c :=
  ⟨fun e he => hw.down e (by rw [hall]; exact List.mem_append_left _ he), hw.down c (by rw [hall]; simp)⟩

/-! ### The calls -/

theorem Shows.mkdir (hs : Shows s h) (hfit : (TreeCall.mkdir path).Fits s) :
    ∃ s', Returns (TreeCall.mkdir path).execute s ((TreeCall.mkdir path).spec h s.cur).1 s' ∧
      Shows s' ((TreeCall.mkdir path).spec h s.cur).2 ∧ Saves s s' := by
  obtain ⟨hw, hroom⟩ := hfit
  have hmissing := found_none s.names 0 hw.down 0 []
  rw [← hs.kind] at hmissing
  have hcode {r : Int} {u : Fs} (hrun : Returns (sysMkdir path) s r u) : Returns (TreeCall.mkdir path).execute s (.code r) u := by
    rw [TreeCall.execute, returns_bind_iff hrun]
    exact returns_pure.mpr ⟨rfl, rfl⟩
  by_cases hnone : (s.walkPath path).found = none ∧ (s.walkPath path).rest = []
  · -- the last name is missing
    have hne : components slash path ≠ [] := by
      intro hnil
      have hfound := hnone.1
      rw [Fs.walkPath, hnil, arrive_nil] at hfound
      cases hfound
    obtain ⟨q, c, hall, hwalk, -, hlast⟩ := walk_above hnone.2 fun n => by rw [hnone.1]; simp
    obtain ⟨hq, hc⟩ := mem_walk_above hw hall
    obtain ⟨t, u, s', p, a, i, b, v, w, hrun, hdone, hset⟩ := sysMkdir_makes hs.order hs.serves hw.pathFits (hw.not_alias hne)
      hne hnone.1 hnone.2 (hroom hnone.1 hnone.2)
    rw [← hlast] at hdone
    have hadds := hdone.adds hs.order
    refine ⟨s', ?_, ?_, hdone.saves⟩
    · rw [TreeCall.spec, if_pos (hmissing.mp hnone)]
      exact hcode hrun
    · rw [TreeCall.spec, if_pos (hmissing.mp hnone)]
      refine hs.settled hset (hdone.inOrder hs.order hset) ?_ fun cs i hcs => hadds.walk_dir hs.order.tree hcs
      rw [hs.kind, hall]
      exact (hadds.view hs.order.tree hq hc hwalk).symm
  · have hspec : (TreeCall.mkdir path).spec h s.cur = (.code (-1), h) := if_neg fun hcond => hnone (hmissing.mpr hcond)
    have hstay : ∃ s', Returns (sysMkdir path) s (-1) s' ∧ Restored s s' := by
      by_cases hne : components slash path = []
      · have hroot := hw.rooted_eq
        rw [hne] at hroot
        exact sysMkdir_root hs.order hs.serves (Or.inl hroot.symm)
      · exact sysMkdir_refuses hs.order hs.serves hw.pathFits (hw.not_alias hne) hne (not_and_or.mp hnone)
    obtain ⟨s', hrun, hrest⟩ := hstay
    rw [hspec]
    exact ⟨s', hcode hrun, hs.restored hrest, hrest.saves⟩

theorem Shows.unlink (hs : Shows s h) (hfit : (TreeCall.unlink path).Fits s) :
    ∃ s', Returns (TreeCall.unlink path).execute s ((TreeCall.unlink path).spec h s.cur).1 s' ∧
      Shows s' ((TreeCall.unlink path).spec h s.cur).2 ∧ Saves s s' := by
  obtain ⟨hw, hslash, hfile⟩ := hfit
  have hne : components slash path ≠ [] := by
    intro hnil
    have hroot := hw.rooted_eq
    rw [hnil] at hroot
    exact hslash hroot.symm
  have hhas (n : Nat) := found_file (n := n) s.names 0 hw.down 0 []
  rw [← hs.kind] at hhas
  have hcode {r : Int} {u : Fs} (hrun : Returns (sysUnlink path) s r u) : Returns (TreeCall.unlink path).execute s (.code r) u := by
    rw [TreeCall.execute, returns_bind_iff hrun]
    exact returns_pure.mpr ⟨rfl, rfl⟩
  by_cases hclosed : ∃ n, h.kind (components slash path) = some (.file n) ∧ ¬ h.opened n
  · obtain ⟨n, hn, hclosed'⟩ := id hclosed
    obtain ⟨hfound, hrest⟩ := (hhas n).mpr hn
    have hfound' : (s.walkPath path).found = some (.file n) := hfound
    have hclosed'' : ¬ s.IsOpenFile n := fun hopen => hclosed' ((hs.opened n).mpr hopen)
    obtain ⟨h12, hd, hlast⟩ := (hfile n hfound').2 hclosed''
    obtain ⟨q, c, hall, hwalk, hname, -⟩ := walk_above hrest fun m => by rw [hfound']; simp
    obtain ⟨hq, hc⟩ := mem_walk_above hw hall
    obtain ⟨t, u, s', p, a, k, j, v, w, e, hrun, hdone, hset⟩ := sysUnlink_removes hs.order hs.serves hw.pathFits
      (hw.not_alias hne) hne hfound' hclosed'' h12 hd hlast
    have hdrops := hdone.drops hs.order
    -- the path ends with the name of the entry
    have hce : c = e.filename := by
      by_contra hce
      have hkept := hdrops.here c hce
      rw [hname, hfound'] at hkept
      obtain ⟨x, hx, hxname, hxchild⟩ := Fs.exists_of_names hkept
      obtain ⟨hty, hno⟩ := DirEntry.eq_of_child_file hxchild
      have hmem := (hdone.mem_entries hdrops.above).mp hx
      have hreg := ((hs.order.node _ hdrops.above).types x hmem.1).resolve_left hty
      obtain ⟨-, rfl⟩ := hs.order.once _ _ x e hdrops.above hdrops.above hmem.1 hdone.unlinking.mem hreg hdone.unlinking.file
        (hno.trans hdone.unlinking.number.symm)
      exact hce hxname.symm
    refine ⟨s', ?_, ?_, hdone.saves⟩
    · rw [TreeCall.spec, if_pos hclosed]
      exact hcode hrun
    · rw [TreeCall.spec, if_pos hclosed]
      refine hs.settled hset (hdone.inOrder hs.order hset) ?_ fun cs i hcs => hdrops.walk_dir hs.order.tree hcs
      rw [hs.kind, hall, hce]
      exact (hdrops.view hs.order.tree hq hwalk).symm
  · have hspec : (TreeCall.unlink path).spec h s.cur = (.code (-1), h) := if_neg hclosed
    have hdir : (s.walkPath path).found ≠ some (.dir 0) := by
      intro hfound
      have hwalk : walk s.names 0 (components slash path) = .dir 0 := arrive_found_dir.mp hfound
      exact hne (hs.order.tree.walk_unique hw.down (by simp) hwalk walk_nil)
    obtain ⟨s', hrun, hrest⟩ := sysUnlink_refuses hs.order hs.serves hw.pathFits (hw.not_alias hne) hne hdir fun m hm => by
      by_contra hopen
      exact hclosed ⟨m, (hhas m).mp ⟨hm, (hfile m hm).1⟩, fun h => hopen ((hs.opened m).mp h)⟩
    rw [hspec]
    exact ⟨s', hcode hrun, hs.restored hrest, hrest.saves⟩

/-- A process moves to the directory a path names. -/
theorem Shows.moves {k : Task} {m : Nat} (hs : Shows s h) (hw : WashFits path)
    (hwalk : walk s.names 0 (components slash path) = .dir i) :
    Shows ((s.heapAt (s.heap.next + m)).setTask s.cur { k with cwdInodeNr := i })
      { h with cwd := Function.update h.cwd s.cur (some (components slash path)) } := by
  have hle : s.heap.next ≤ s.heap.next + m := Nat.le_add_right _ _
  refine ⟨hs.order.moved (hs.order.live.goOn hle) hle ⟨_, Function.update_self _ _ _⟩ fun t k' hk => ?_, fun j => ?_, hs.kind,
    hs.opened, fun t => ?_⟩
  · by_cases ht : t = s.cur
    · subst ht
      rw [Function.update_self] at hk
      rw [← Option.some.inj hk]
      exact hs.order.tree.dir_walk .root hwalk
    · rw [Function.update_of_ne ht] at hk
      exact hs.order.cwd t k' hk
  · show s.heap.full (s.heap.next + m + j) = false
    rw [Nat.add_assoc]
    exact hs.serves _
  · show Option.Rel _ (Function.update s.tasks s.cur (some { k with cwdInodeNr := i }) t)
      (Function.update h.cwd s.cur (some (components slash path)) t)
    by_cases ht : t = s.cur
    · subst ht
      rw [Function.update_self, Function.update_self]
      exact .some ⟨hwalk, hw.wash.components.1, by rw [hw.rooted_eq]; exact hw.short⟩
    · -- the other processes stay where they are
      rw [Function.update_of_ne ht, Function.update_of_ne ht]
      exact option_rel_mono (fun _ _ hk => ⟨hk.walk, hk.names, hk.room⟩) (hs.cwd t)

theorem Shows.chdir (hs : Shows s h) (hw : WashFits path) :
    ∃ s', Returns (TreeCall.chdir path).execute s ((TreeCall.chdir path).spec h s.cur).1 s' ∧
      Shows s' ((TreeCall.chdir path).spec h s.cur).2 ∧ Saves s s' := by
  have hcode {r : Int} {u : Fs} (hrun : Returns (sysChdir path) s r u) : Returns (TreeCall.chdir path).execute s (.code r) u := by
    rw [TreeCall.execute, returns_bind_iff hrun]
    exact returns_pure.mpr ⟨rfl, rfl⟩
  have hleads : view s.names Downward 0 (components slash path) = some .dir ↔ _ := view_eq_dir hw.down
  rw [← hs.kind] at hleads
  by_cases hdir : h.kind (components slash path) = some .dir
  · obtain ⟨i, hwalk⟩ := hleads.mp hdir
    obtain ⟨m, k, -, hrun⟩ := sysChdir_moves hs.order.toTreeOk hs.serves hw.wash hw.short hw.nul hwalk
    have hspec : (TreeCall.chdir path).spec h s.cur =
        (.code 0, { h with cwd := Function.update h.cwd s.cur (some (components slash path)) }) := if_pos hdir
    rw [hspec]
    exact ⟨_, hcode hrun, hs.moves hw hwalk, SameStore.saves ⟨rfl, rfl, rfl, rfl⟩⟩
  · obtain ⟨u, hrun, hb, ht⟩ := sysChdir_misses hs.order.toTreeOk hs.serves hw.wash hw.short hw.nul hw.fit
      fun hl => hdir (hleads.mpr hl)
    have hspec : (TreeCall.chdir path).spec h s.cur = (.code (-1), h) := if_neg hdir
    rw [hspec]
    exact ⟨u, hcode hrun, hs.beside hb ht, hb.saves⟩

theorem Shows.getcwd (hs : Shows s h) :
    ∃ s', Returns TreeCall.getcwd.execute s (TreeCall.getcwd.spec h s.cur).1 s' ∧
      Shows s' (TreeCall.getcwd.spec h s.cur).2 ∧ Saves s s' := by
  obtain ⟨k, hk⟩ := hs.order.running
  have hcwd := hs.cwd s.cur
  rw [hk] at hcwd
  generalize hcs : h.cwd s.cur = o at hcwd
  cases hcwd with
  | @some _ cs hin =>
    have hroom : (spell slash cs).length < 512 := by
      have hroom := hin.room
      by_cases hnil : cs = []
      · rw [hnil]
        decide
      · rwa [rooted_of_ne hnil] at hroom
    have hself : Beside s s := ⟨rfl, le_rfl, hs.order.live, hs.order.running, hs.serves⟩
    obtain ⟨u, hrun, hb⟩ := sysGetcwd_beside hs.order.toChainOk hin.names hin.walk hroom hself hk rfl
    refine ⟨u, ?_, hs.beside hb (keeps_sysGetcwd (R := SameTasks) hrun), hb.saves⟩
    rw [TreeCall.execute, TreeCall.spec, hcs, returns_bind_iff hrun]
    exact returns_pure.mpr ⟨rfl, rfl⟩

/-- A call ends no process. -/
theorem TreeCall.spec_lives {t' : Nat} (h' : h.cwd t' ≠ none) : (call.spec h t).2.cwd t' ≠ none := by
  cases call with
  | mkdir path =>
    simp only [TreeCall.spec]
    split <;> exact h'
  | unlink path =>
    simp only [TreeCall.spec]
    split <;> exact h'
  | chdir path =>
    simp only [TreeCall.spec]
    split
    · show Function.update h.cwd t _ t' ≠ none
      by_cases ht : t' = t
      · rw [ht, Function.update_self]
        simp
      · rwa [Function.update_of_ne ht]
    · exact h'
  | getcwd => exact h'

theorem Shows.task (hs : Shows s h) (ht : h.cwd t ≠ none) : ∃ k, s.tasks t = some k := by
  have hcwd := hs.cwd t
  cases hk : s.tasks t with
  | some k => exact ⟨k, rfl⟩
  | none =>
    rw [hk] at hcwd
    generalize h.cwd t = o at hcwd ht
    cases hcwd
    exact absurd rfl ht

/-- One call: it answers what the hierarchy says, the hierarchy after it shows, and it is on the disk. -/
theorem TreeCall.shows (hs : Shows s h) (hfit : call.Fits s) :
    ∃ s', Returns call.execute s (call.spec h s.cur).1 s' ∧ Shows s' (call.spec h s.cur).2 ∧ Saves s s' := by
  cases call with
  | mkdir path => exact hs.mkdir hfit
  | unlink path => exact hs.unlink hfit
  | chdir path => exact hs.chdir hfit
  | getcwd => exact hs.getcwd

/-- And so for one call after the other. -/
theorem executeCalls_shows {calls : List (Nat × TreeCall)} (hs : Shows s h) (hlives : ∀ entry ∈ calls, h.cwd entry.1 ≠ none)
    (hfit : CallsFit s calls) :
    ∃ s', Returns (executeCalls calls) s (specCalls h calls).1 s' ∧ Shows s' (specCalls h calls).2 ∧ Saves s s' := by
  induction calls generalizing s h with
  | nil => exact ⟨s, returns_pure.mpr ⟨rfl, rfl⟩, hs, SameStore.saves ⟨rfl, rfl, rfl, rfl⟩⟩
  | cons entry calls ih =>
    obtain ⟨t, call⟩ := entry
    obtain ⟨hcall, hcalls⟩ := hfit
    have hk := hs.task (hlives _ List.mem_cons_self)
    obtain ⟨s₁, hrun, hs₁, hsaves⟩ := TreeCall.shows (hs.switch hk) hcall
    obtain ⟨s', hrest, hs', hsaves'⟩ := ih hs₁ (fun entry he => call.spec_lives (hlives entry (List.mem_cons_of_mem _ he)))
      (hcalls _ _ hrun)
    have hswitch : Returns (switchTo t) s () { s with cur := t } := (returns_update _ ()).mpr rfl
    have hsame : SameStore s { s with cur := t } := ⟨rfl, rfl, rfl, rfl⟩
    refine ⟨s', ?_, hs', hsame.saves.trans (hsaves.trans hsaves')⟩
    rw [executeCalls, returns_bind_iff hswitch, returns_bind_iff hrun, returns_bind_iff hrest]
    exact returns_pure.mpr ⟨rfl, rfl⟩

end Shows

namespace SmallTree

theorem cached_root {a : Nat} {v : Inode} (hv : fs.inodes a = some v) : v.iNo = 0 := by
  by_cases ha : a = 0
  · subst ha
    rw [← Option.some.inj hv]
    rfl
  · have hnone : fs.inodes a = none := if_neg ha
    rw [hnone] at hv
    cases hv

theorem inOrder : fs.InOrder where
  toChainOk := chainOk
  used := numbersOk.used
  held := numbersOk.held
  slotNo := numbersOk.slotNo
  numberLt := fun a v hv => by rw [cached_root hv]; decide
  cachedFor := fun a v hv => Or.inl (by rw [cached_root hv]; exact .root)
  cwd := by
    intro t k hk
    have hroot : k.cwdInodeNr = 0 := by
      by_cases ht : t = 0
      · subst ht
        rw [← Option.some.inj hk]
        rfl
      · have hnone : fs.tasks t = none := if_neg ht
        rw [hnone] at hk
        cases hk
    rw [hroot]
    exact .root

/-- What the small tree shows: its one process is in the root. -/
noncomputable def shown : Hierarchy :=
  { kind := view fs.names Downward 0, cwd := fun t => if t = 0 then some [] else none, opened := fs.IsOpenFile }

theorem shows : Shows fs shown where
  order := inOrder
  serves := fun _ => rfl
  kind := rfl
  opened := fun _ => Iff.rfl
  cwd := by
    intro t
    show Option.Rel _ (if t = 0 then some initThread else none) (if t = 0 then some [] else none)
    split
    · exact .some ⟨rfl, fun c hc => absurd hc (List.not_mem_nil), by decide⟩
    · exact .none

theorem walk_deep : fs.walkPath deepPath = ⟨some (.file 2), 1, [[100], [102]], []⟩ := by
  have hroot : fs.names 0 [100] = some (.dir 1) := names_root (e := ⟨[100], 1, ftDir⟩) (by decide)
  have hsub : fs.names 1 [102] = some (.file 2) := names_sub (e := ⟨[102], 2, ftRegular⟩) (by decide)
  have hcs : components slash deepPath = [[100], [102]] := by decide
  rw [Fs.walkPath, hcs, arrive_cons_dir hroot, arrive_cons_file hsub]
  rfl

/-- `rm /d/f`, `cd /d`, `pwd`. -/
def threeCalls : List (Nat × TreeCall) := [(0, .unlink deepPath), (0, .chdir [47, 100]), (0, .getcwd)]

theorem callsFit : CallsFit fs threeCalls := by
  have hdir : WashFits [47, 100] := ⟨washed_dir, by decide, by decide, by decide⟩
  have hdeep : WashFits deepPath := ⟨Or.inr ⟨[[100], [102]], by decide, rfl, by decide⟩, by decide, by decide, by decide⟩
  refine ⟨⟨hdeep, by decide, fun n hn => ?_⟩, fun _ _ _ => ⟨hdir, fun _ _ _ => ⟨trivial, fun _ _ _ => trivial⟩⟩⟩
  rw [walk_deep] at hn ⊢
  obtain rfl : 2 = n := by simpa using hn
  refine ⟨rfl, fun _ => ⟨sector_table 1 (by decide), by decide, ?_⟩⟩
  rw [blockAddr 2 (by decide) 139 (by decide)]
  rfl

/-- All three succeed, and the last answers `"/d"`. -/
theorem answers : (specCalls shown threeCalls).1 = [.code 0, .code 0, .path (some [47, 100])] := by
  have hdeep : components slash deepPath = [[100], [102]] := by decide
  have hdir : components slash [47, 100] = [[100]] := by decide
  have hfile : shown.kind [[100], [102]] = some (.file 2) := by
    have hdown : ∀ c ∈ [[100], [102]], Downward c := by decide
    have hfound := found_file (n := 2) fs.names 0 hdown 0 []
    rw [← hdeep] at hfound ⊢
    exact hfound.mp (by rw [show arrive fs.names 0 0 [] (components slash deepPath) = _ from walk_deep]; exact ⟨rfl, rfl⟩)
  have hopen : ∃ n, shown.kind (components slash deepPath) = some (.file n) ∧ ¬ shown.opened n := by
    refine ⟨2, by rw [hdeep, hfile], ?_⟩
    rintro ⟨g, -, a, v, ha, -⟩
    cases ha
  have hunlink : (TreeCall.unlink deepPath).spec shown 0 =
      (.code 0, { shown with kind := Function.update shown.kind [[100], [102]] none }) := by
    rw [TreeCall.spec, if_pos hopen, hdeep]
  have hkind : Function.update shown.kind [[100], [102]] none (components slash [47, 100]) = some .dir := by
    have hdown : ∀ c ∈ components slash [47, 100], Downward c := by decide
    have hfound := found_dir fs.names 0 hdown 0 []
    rw [Function.update_of_ne (by decide)]
    exact hfound.mp ⟨1, by rw [show arrive fs.names 0 0 [] (components slash [47, 100]) = _ from walk_dir]⟩
  have hchdir : (TreeCall.chdir [47, 100]).spec { shown with kind := Function.update shown.kind [[100], [102]] none } 0 =
      (.code 0, { shown with
        kind := Function.update shown.kind [[100], [102]] none
        cwd := Function.update shown.cwd 0 (some [[100]]) }) := by
    rw [TreeCall.spec, if_pos hkind, hdir]
  rw [threeCalls, specCalls, hunlink, specCalls, hchdir, specCalls, specCalls]
  show [_, _, TreeAnswer.path ((Function.update shown.cwd 0 (some [[100]]) 0).map (rooted slash))] = _
  rw [Function.update_self]
  rfl

end SmallTree

end ZxyOs
