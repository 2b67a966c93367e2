/-
  ZxyOs.User.Shell

  The shell's `cd` and `pwd`.

  `cd` washes the path it is given and hands the result to `sys_chdir`; `pwd` writes what
  `sys_getcwd` reports.  Neither keeps a path: the kernel knows the working directory by its
  inode, and the path is found again by climbing.  In a tree of directories both are
  nevertheless what a shell that keeps a stack of names would do (`shell_refines`): the stack is
  the one that the washed paths leave, and a `cd` into nothing leaves it alone.
-/

import ZxyOs.Fs.InOrder
import ZxyOs.Fs.OpenFrame
import ZxyOs.User.WashPath

namespace ZxyOs

open Lib Lib.Exec

/-! ## The commands -/

/-- `wash_path` on a string of the shell's own. -/
def washOwn (path : CStr) : FsM CStr := fun s =>
  match washPath ⟨s, path⟩ with
  | .ok (newAbsPath, c) => .ok (newAbsPath, c.fs)
  | .error e => .error e

/-- What `make_clear_abs_path` puts into `abs_path` in front of the path. -/
def absPathFront (path : CStr) : FsM CStr :=
  if path.head? ≠ some slash then do
    let cwd ← sysGetcwd 512
    match cwd with
    | none => return []
    | some cwd =>
      if cwd = [slash] then
        return cwd
      else do
        fits (cwd.length + 1 < 512)
        return cwd ++ [slash]
  else
    return []

/-- `make_clear_abs_path`: `abs_path` has 512 bytes. -/
def makeClearAbsPath (path : CStr) : FsM CStr := do
  let front ← absPathFront path
  fits (front.length + path.length < 512)
  washOwn (front ++ path)

/-- What `buildin_cd` puts into `final_path`. -/
def cdPath (argv : List CStr) : FsM CStr :=
  if argv.length = 1 then
    return [slash]
  else do
    let path ← deref argv[1]?
    makeClearAbsPath path

/-- `buildin_cd`: `final_path`, or `NULL`. -/
def buildinCd (argv : List CStr) : FsM (Option CStr) := do
  if argv.length > 2 then
    return none
  else do
    let finalPath ← cdPath argv
    let ret ← sysChdir finalPath
    if ret = -1 then
      return none
    else
      return some finalPath

/-- `buildin_pwd`: the path it prints, if any. -/
def buildinPwd (argv : List CStr) : FsM (Option CStr) := do
  if argv.length ≠ 1 then
    return none
  else
    sysGetcwd 512

/-- A command line of one of the two, with its words. -/
inductive DirCmd where
  | cd (argv : List CStr)
  | pwd (argv : List CStr)

/-- What `cmd_execute` does with it. -/
def DirCmd.execute : DirCmd → FsM (Option CStr)
  | .cd argv => buildinCd argv
  | .pwd argv => buildinPwd argv

/-- One command after the other, with the path each of them comes back with. -/
def executeAll : List DirCmd → FsM (List (Option CStr))
  | [] => return []
  | cmd :: cmds => do
    let answer ← cmd.execute
    let answers ← executeAll cmds
    return answer :: answers

/-! ## A shell with a stack -/

/-- The stack that the words of a `cd` name, in the directory with the stack `st`. -/
def cdTarget (st : List CStr) : List CStr → List CStr
  | _ :: path :: _ => lexical dot dotDot (if path.head? = some slash then [] else st) (components slash path)
  | _ => []

/-- Whether the names lead to a directory. -/
def Leads (names : Naming Nat CStr) (cs : List CStr) : Prop := ∃ i, walk names 0 cs = .dir i

open Classical in
/-- What a command answers, and the stack after it. -/
noncomputable def DirCmd.spec (names : Naming Nat CStr) (st : List CStr) : DirCmd → Option CStr × List CStr
  | .cd argv =>
    if argv.length ≤ 2 ∧ Leads names (cdTarget st argv) then
      (some (rooted slash (cdTarget st argv)), cdTarget st argv)
    else
      (none, st)
  | .pwd argv => (if argv.length = 1 then some (rooted slash st) else none, st)

/-- The answers to a list of commands, and the stack in the end. -/
noncomputable def specAll (names : Naming Nat CStr) : List CStr → List DirCmd → List (Option CStr) × List CStr
  | st, [] => ([], st)
  | st, cmd :: cmds =>
    ((cmd.spec names st).1 :: (specAll names (cmd.spec names st).2 cmds).1, (specAll names (cmd.spec names st).2 cmds).2)

/-- The command is there, and the path of a `cd` fits: each of its components the array for a name,
    and behind the working directory `abs_path`. -/
def DirCmd.Fits (st : List CStr) : DirCmd → Prop
  | .cd [_, path] => FitsName path ∧ (∀ b ∈ path, b ≠ 0) ∧ (absPath (rooted slash st) path).length < 512
  | .cd argv => argv ≠ []
  | .pwd _ => True

/-- Every command of the list fits in the directory it is given in. -/
def CmdsFit (names : Naming Nat CStr) : List CStr → List DirCmd → Prop
  | _, [] => True
  | st, cmd :: cmds => cmd.Fits st ∧ CmdsFit names (cmd.spec names st).2 cmds

/-! ## What `sys_getcwd` leaves alone -/

/-- The processes and their working directories are as they were. -/
structure SameTasks (s t : Fs) : Prop where
  tasks : t.tasks = s.tasks
  cur : t.cur = s.cur

instance : Std.Refl SameTasks := ⟨fun _ => ⟨rfl, rfl⟩⟩

instance : IsTrans Fs SameTasks := ⟨fun _ _ _ h h' => ⟨h'.tasks.trans h.tasks, h'.cur.trans h.cur⟩⟩

instance : Loose SameTasks where
  disk _ _ := ⟨rfl, rfl⟩
  inodeMap _ _ := ⟨rfl, rfl⟩
  blockBitmap _ _ := ⟨rfl, rfl⟩
  sector _ _ _ _ _ _ := ⟨rfl, rfl⟩
  size _ _ _ _ _ := ⟨rfl, rfl⟩
  refused _ := ⟨rfl, rfl⟩
  served _ _ := ⟨rfl, rfl⟩
  cache _ _ _ := ⟨rfl, rfl⟩
  dirs _ _ := ⟨rfl, rfl⟩
  freed _ _ := ⟨rfl, rfl⟩

/-! ## The tree from beside -/

section Beside

variable {s u t : Fs} {i k n above : Nat} {cs : List CStr} {path : CStr}

theorem Beside.trans (h : Beside s u) (h' : Beside u t) : Beside s t where
  rest := by
    rw [h'.rest, h.rest]
  next := h.next.trans h'.next
  live := h'.live
  running := h'.running
  served := h'.served

theorem Beside.names (h : Beside s u) : u.names = s.names := by
  rw [h.rest]
  rfl

/-- The processes and the heap say nothing about the tree. -/
theorem isDir_withTasks {tasks : Nat → Option Task} {heap : Heap} :
    ({ s with tasks := tasks, heap := heap } : Fs).IsDir i ↔ s.IsDir i :=
  ⟨isDir_congr fun _ => rfl, isDir_congr fun _ => rfl⟩

theorem Beside.treeOk (h : Beside s u) (hs : s.TreeOk) : u.TreeOk := by
  have hcache := h.cacheOk hs.cache
  have hlive := h.live
  have hrunning := h.running
  rw [h.rest] at hcache hlive hrunning ⊢
  exact
    { cache := hcache
      live := hlive
      entrySize := hs.entrySize
      table := ⟨hs.table.onDisk, hs.table.inPart⟩
      running := hrunning
      root := hs.root
      node := by
        intro i hi
        have hnode := hs.node i (isDir_withTasks.mp hi)
        exact ⟨hnode.number, hnode.own,
          ⟨hnode.listed.blocks, hnode.listed.table, hnode.listed.slots, hnode.listed.names⟩, hnode.block, hnode.types⟩
      self := fun i hi => hs.self i (isDir_withTasks.mp hi)
      rootUp := hs.rootUp }

/-! ## A path into nothing -/

/-- A search that found no directory is undone. -/
theorem chdirFound_undone {out : Option Nat × PathSearchRecord} (hst : Stands s t out.2.parentDir i k)
    (hno : out.1 = none ∨ out.2.fType ≠ ftDir) : Returns (chdirFound out) t (-1) (s.heapAt (s.heap.next + k)) := by
  obtain ⟨t', hclose, rfl⟩ := hst.close
  have hback : Returns (do dirClose out.2.parentDir; return (-1 : Int)) t (-1) (s.heapAt (s.heap.next + k)) := by
    rw [returns_bind_iff hclose]
    exact returns_pure.mpr ⟨rfl, rfl⟩
  unfold chdirFound
  split
  · exact hback
  · next n hn =>
    rcases hno with hnone | hty
    · rw [hn] at hnone
      cases hnone
    · rw [if_neg hty]
      exact hback

/-- `sys_chdir` fails where the walk comes to no directory, and leaves everything as it was. -/
theorem sysChdir_misses (hs : s.TreeOk) (hserved : ∀ j, s.heap.full (s.heap.next + j) = false) (hwash : Washed path)
    (hlen : path.length < 512) (hnul : ∀ b ∈ path, b ≠ 0) (hfit : FitsName path)
    (hwalk : ¬ Leads s.names (components slash path)) :
    ∃ u, Returns (sysChdir path) s (-1) u ∧ Beside s u ∧ SameTasks s u := by
  have hne : Lib.components slash path ≠ [] := by
    intro hnil
    rw [hnil] at hwalk
    exact hwalk ⟨0, walk_nil⟩
  have hroot : ¬ RootAlias path := by
    intro hroot
    rw [hwash.alias hroot] at hne
    exact hne (by decide)
  obtain ⟨hhead, hclear⟩ : HeadFits (Lib.components slash path) ∧ s.Clear 0 0 0 (Lib.components slash path) :=
    clear_of_fits hserved hfit
  obtain ⟨out, s₁, hsearch, harr⟩ := searchFile_arrives hs hwash.head hlen hnul hroot hne hhead hclear
  have hno : out.1 = none ∨ out.2.fType ≠ ftDir := by
    cases hfound : (s.walkPath path).found with
    | none =>
      have hnumber := harr.number
      rw [hfound] at hnumber
      exact Or.inl hnumber
    | some child =>
      cases child with
      | dir n => exact absurd ⟨n, arrive_found_dir.mp hfound⟩ hwalk
      | file n =>
        refine Or.inr ?_
        rw [(harr.number_eq hfound).2]
        show ftRegular ≠ ftDir
        decide
  have hrun := chdirFound_undone harr.parent hno
  refine ⟨_, (returns_sysChdir hsearch).mpr hrun, ⟨rfl, Nat.le_add_right _ _, hs.live.goOn (Nat.le_add_right _ _),
    hs.running, fun j => ?_⟩, rfl, rfl⟩
  show s.heap.full (s.heap.next + _ + j) = false
  rw [Nat.add_assoc]
  exact hserved _

end Beside

/-! ## A shell in a directory -/

/-- What the shell goes by: `u` is `s` beside the processes and the heap, and the running process is in
    the directory with the path `st`. -/
structure StandsIn (s u : Fs) (st : List CStr) : Prop where
  beside : Beside s u
  task : ∃ p, u.tasks u.cur = some p ∧ walk s.names 0 st = .dir p.cwdInodeNr
  names : ∀ c ∈ st, (c ≠ [] ∧ slash ∉ c ∧ Downward c) ∧ c.length < 16 ∧ ∀ b ∈ c, b ≠ 0
  room : (rooted slash st).length < 512

section Shell

variable {s u : Fs} {st : List CStr} {path name : CStr} {cmd : DirCmd} {cmds : List DirCmd}

/-- The bytes of a path from the root. -/
theorem mem_rooted {b : UInt8} {cs : List CStr} (h : b ∈ rooted slash cs) : b = slash ∨ ∃ c ∈ cs, b ∈ c := by
  unfold rooted at h
  split at h
  · exact Or.inl (List.mem_singleton.mp h)
  · obtain ⟨c, hc, hb⟩ := List.mem_flatMap.mp h
    rcases List.mem_cons.mp hb with hb | hb
    · exact Or.inl hb
    · exact Or.inr ⟨c, hc, hb⟩

theorem returns_washOwn {t : Fs} {r : CStr} (h : Returns washPath ⟨t, path⟩ r ⟨t, path⟩) :
    Returns (washOwn path) t r t := by
  simp only [Returns] at h
  simp only [Returns, washOwn, h]

namespace StandsIn

theorem washed (h : StandsIn s u st) : Washed (rooted slash st) := washed_rooted fun c hc => (h.names c hc).1

theorem components (h : StandsIn s u st) : Lib.components slash (rooted slash st) = st :=
  components_rooted fun c hc => ⟨(h.names c hc).1.1, (h.names c hc).1.2.1⟩

/-- `sys_getcwd` reports the stack. -/
theorem getcwd (h : StandsIn s u st) (hs : s.ChainOk) :
    ∃ u', Returns (sysGetcwd 512) u (some (rooted slash st)) u' ∧ StandsIn s u' st := by
  obtain ⟨p, hp, hwalk⟩ := h.task
  have hroom : (spell slash st).length < 512 := by
    by_cases hnil : st = []
    · rw [hnil]
      decide
    · rw [← rooted_of_ne hnil]
      exact h.room
  obtain ⟨u', hrun, hbeside⟩ := sysGetcwd_beside hs (fun c hc => ⟨(h.names c hc).1.2.2, (h.names c hc).1.2.1⟩) hwalk
    hroom h.beside hp rfl
  obtain ⟨htasks, hcur⟩ := keeps_sysGetcwd (R := SameTasks) hrun
  refine ⟨u', hrun, hbeside, ⟨p, ?_, hwalk⟩, h.names, h.room⟩
  rw [htasks, hcur]
  exact hp

/-! ### The path that is washed -/

/-- The stack a `cd` names is the one that the washed path leaves. -/
theorem cdTarget_eq (h : StandsIn s u st) (cd : CStr) :
    cdTarget st [cd, path] = lexical dot dotDot [] (Lib.components slash (absPath (rooted slash st) path)) := by
  by_cases habs : path.head? = some slash
  · rw [cdTarget, if_pos habs, absPath, if_pos habs]
  · rw [cdTarget, if_neg habs, components_absPath h.washed habs, h.components, lexical_append,
      lexical_of_washed fun c hc => (h.names c hc).1]

/-- The components of the path that is washed. -/
theorem mem_absPath (h : StandsIn s u st) {c : CStr} (hc : c ∈ Lib.components slash (absPath (rooted slash st) path)) :
    c ∈ st ∨ c ∈ Lib.components slash path := by
  by_cases habs : path.head? = some slash
  · rw [absPath, if_pos habs] at hc
    exact Or.inr hc
  · rw [components_absPath h.washed habs, h.components] at hc
    exact List.mem_append.mp hc

/-- Every name on the stack it leaves is one that can be kept there. -/
theorem names_target (h : StandsIn s u st) (hfit : FitsName path) (hnul : ∀ b ∈ path, b ≠ 0) {cd : CStr} :
    ∀ c ∈ cdTarget st [cd, path], (c ≠ [] ∧ slash ∉ c ∧ Downward c) ∧ c.length < 16 ∧ ∀ b ∈ c, b ≠ 0 := by
  intro c hc
  rw [h.cdTarget_eq] at hc
  refine ⟨mem_washed (by simp) (fun d hd => ⟨(mem_components hd).1, (mem_components hd).2.1⟩) hc, ?_⟩
  rcases mem_lexical hc with hc | ⟨hc, -⟩
  · cases hc
  · rcases h.mem_absPath hc with hc | hc
    · exact (h.names c hc).2
    · exact ⟨hfit c hc, fun b hb => hnul b ((mem_components hc).2.2.subset hb)⟩

theorem room_target (h : StandsIn s u st) (hlen : (absPath (rooted slash st) path).length < 512) (cd : CStr) :
    (rooted slash (cdTarget st [cd, path])).length < 512 := by
  rw [h.cdTarget_eq]
  exact Nat.lt_of_le_of_lt (rooted_lexical_length_le (head?_absPath h.washed)) hlen

theorem washOwn (h : StandsIn s u st) (hfit : FitsName path) {t : Fs} {cd : CStr} :
    Returns (washOwn (absPath (rooted slash st) path)) t (rooted slash (cdTarget st [cd, path])) t := by
  have hwash := washPath_returns (s := t) (head?_absPath (p := path) h.washed) (by
    intro w hw
    rcases h.mem_absPath hw with hw | hw
    · exact (h.names w hw).2.1
    · exact hfit w hw)
  rw [← h.cdTarget_eq cd] at hwash
  exact returns_washOwn hwash

/-- `make_clear_abs_path` comes to the path of the stack. -/
theorem makeClear (h : StandsIn s u st) (hs : s.ChainOk) (hfit : FitsName path)
    (hlen : (absPath (rooted slash st) path).length < 512) (cd : CStr) :
    ∃ u', Returns (makeClearAbsPath path) u (rooted slash (cdTarget st [cd, path])) u' ∧ StandsIn s u' st := by
  have hfront : ∃ front u', Returns (absPathFront path) u front u' ∧ front ++ path = absPath (rooted slash st) path ∧
      StandsIn s u' st := by
    unfold absPathFront
    by_cases hhead : path.head? = some slash
    · refine ⟨[], u, ?_, ?_, h⟩
      · rw [if_neg (not_not.mpr hhead)]
        exact returns_pure.mpr ⟨rfl, rfl⟩
      · rw [List.nil_append, absPath, if_pos hhead]
    -- the working directory goes in front
    · obtain ⟨u', hget, h'⟩ := h.getcwd hs
      refine ⟨if rooted slash st = [slash] then rooted slash st else rooted slash st ++ [slash], u', ?_, ?_, h'⟩
      · rw [if_pos hhead, returns_bind_iff hget]
        simp only
        by_cases hroot : rooted slash st = [slash]
        · rw [if_pos hroot, if_pos hroot]
          exact returns_pure.mpr ⟨rfl, rfl⟩
        · have hroom : (rooted slash st).length + 1 < 512 := by
            rw [absPath, if_neg hhead, if_neg hroot, List.length_append, List.length_append, List.length_singleton] at hlen
            omega
          rw [if_neg hroot, if_neg hroot, returns_bind_iff ((returns_fits _ ()).mpr ⟨hroom, rfl⟩)]
          exact returns_pure.mpr ⟨rfl, rfl⟩
      · rw [absPath, if_neg hhead]
  obtain ⟨front, u', hrun, habs, h'⟩ := hfront
  refine ⟨u', ?_, h'⟩
  have hfits : front.length + path.length < 512 := by
    rw [← List.length_append, habs]
    exact hlen
  rw [makeClearAbsPath, returns_bind_iff hrun, returns_bind_iff ((returns_fits _ ()).mpr ⟨hfits, rfl⟩), habs]
  exact h.washOwn hfit

/-! ### Going there -/

/-- `sys_chdir` to the path of a stack goes there, or nowhere. -/
theorem chdir (h : StandsIn s u st) (hs : s.ChainOk) {ts : List CStr}
    (hnames : ∀ c ∈ ts, (c ≠ [] ∧ slash ∉ c ∧ Downward c) ∧ c.length < 16 ∧ ∀ b ∈ c, b ≠ 0)
    (hroom : (rooted slash ts).length < 512) :
    (Leads s.names ts → ∃ u', Returns (sysChdir (rooted slash ts)) u 0 u' ∧ StandsIn s u' ts) ∧
      (¬ Leads s.names ts → ∃ u', Returns (sysChdir (rooted slash ts)) u (-1) u' ∧ StandsIn s u' st) := by
  have htree := h.beside.treeOk hs.toTreeOk
  have hwash : Washed (rooted slash ts) := washed_rooted fun c hc => (hnames c hc).1
  have hcs : Lib.components slash (rooted slash ts) = ts :=
    components_rooted fun c hc => ⟨(hnames c hc).1.1, (hnames c hc).1.2.1⟩
  have hnul : ∀ b ∈ rooted slash ts, b ≠ 0 := by
    intro b hb
    rcases mem_rooted hb with rfl | ⟨c, hc, hb⟩
    · decide
    · exact (hnames c hc).2.2 b hb
  constructor
  · rintro ⟨i, hwalk⟩
    have hwalk' : walk u.names 0 (Lib.components slash (rooted slash ts)) = .dir i := by
      rw [h.beside.names, hcs]
      exact hwalk
    obtain ⟨u', p, hrun, hbeside, hp, rfl⟩ := sysChdir_runs htree h.beside.served hwash hroom hnul hwalk'
    exact ⟨u', hrun, h.beside.trans hbeside, ⟨p, hp, hwalk⟩, hnames, hroom⟩
  · intro hnone
    have hfit : FitsName (rooted slash ts) := by
      intro c hc
      rw [hcs] at hc
      exact (hnames c hc).2.1
    have hnone' : ¬ Leads u.names (Lib.components slash (rooted slash ts)) := by
      rw [h.beside.names, hcs]
      exact hnone
    obtain ⟨u', hrun, hbeside, htasks, hcur⟩ := sysChdir_misses htree h.beside.served hwash hroom hnul hfit hnone'
    obtain ⟨p, hp, hwalk⟩ := h.task
    refine ⟨u', hrun, h.beside.trans hbeside, ⟨p, ?_, hwalk⟩, h.names, h.room⟩
    rw [htasks, hcur]
    exact hp

/-- A `cd` behind the washing. -/
theorem cdBehind (h : StandsIn s u st) (hs : s.ChainOk) (argv : List CStr) (hargc : argv.length ≤ 2)
    (hnames : ∀ c ∈ cdTarget st argv, (c ≠ [] ∧ slash ∉ c ∧ Downward c) ∧ c.length < 16 ∧ ∀ b ∈ c, b ≠ 0)
    (hroom : (rooted slash (cdTarget st argv)).length < 512) :
    ∃ u', Returns (do
        let ret ← sysChdir (rooted slash (cdTarget st argv))
        if ret = -1 then return none else return some (rooted slash (cdTarget st argv)))
      u ((DirCmd.cd argv).spec s.names st).1 u' ∧ StandsIn s u' ((DirCmd.cd argv).spec s.names st).2 := by
  obtain ⟨hthere, hnowhere⟩ := h.chdir hs hnames hroom
  by_cases hleads : Leads s.names (cdTarget st argv)
  · obtain ⟨u', hrun, h'⟩ := hthere hleads
    rw [DirCmd.spec, if_pos ⟨hargc, hleads⟩]
    refine ⟨u', ?_, h'⟩
    rw [returns_bind_iff hrun, if_neg (by decide)]
    exact returns_pure.mpr ⟨rfl, rfl⟩
  · obtain ⟨u', hrun, h'⟩ := hnowhere hleads
    rw [DirCmd.spec, if_neg fun hand => hleads hand.2]
    refine ⟨u', ?_, h'⟩
    rw [returns_bind_iff hrun, if_pos rfl]
    exact returns_pure.mpr ⟨rfl, rfl⟩

/-- What `cd` does. -/
theorem cd (h : StandsIn s u st) (hs : s.ChainOk) {argv : List CStr} (hfits : (DirCmd.cd argv).Fits st) :
    ∃ u', Returns (buildinCd argv) u ((DirCmd.cd argv).spec s.names st).1 u' ∧
      StandsIn s u' ((DirCmd.cd argv).spec s.names st).2 := by
  unfold buildinCd
  rcases argv with _ | ⟨cd, _ | ⟨path, _ | ⟨extra, rest⟩⟩⟩
  · exact absurd rfl hfits
  -- no path: to the root
  · have htarget : cdTarget st [cd] = [] := rfl
    obtain ⟨u', hrun, h'⟩ := h.cdBehind hs [cd] (by simp) (by simp [htarget]) (by rw [htarget]; decide)
    refine ⟨u', ?_, h'⟩
    have hpath : Returns (cdPath [cd]) u [slash] u := returns_pure.mpr ⟨rfl, rfl⟩
    rw [if_neg (by simp), returns_bind_iff hpath]
    exact hrun
  · obtain ⟨hfit, hnul, hlen⟩ := hfits
    obtain ⟨u₁, hclear, h₁⟩ := h.makeClear hs hfit hlen cd
    obtain ⟨u', hrun, h'⟩ := h₁.cdBehind hs [cd, path] le_rfl (h.names_target hfit hnul) (h.room_target hlen cd)
    refine ⟨u', ?_, h'⟩
    have hpath : Returns (cdPath [cd, path]) u (rooted slash (cdTarget st [cd, path])) u₁ := by
      have hargv : Returns (deref [cd, path][1]?) u path u := (returns_deref _).mpr ⟨rfl, rfl⟩
      rw [cdPath, if_neg (by simp), returns_bind_iff hargv]
      exact hclear
    rw [if_neg (by simp), returns_bind_iff hpath]
    exact hrun
  -- more than one path: refused
  · have hmany : ¬ (cd :: path :: extra :: rest).length ≤ 2 := by simp
    have hspec : (DirCmd.cd (cd :: path :: extra :: rest)).spec s.names st = (none, st) := by
      rw [DirCmd.spec]
      exact if_neg fun hand => hmany hand.1
    rw [hspec]
    refine ⟨u, ?_, h⟩
    rw [if_pos (Nat.lt_of_not_le hmany)]
    exact returns_pure.mpr ⟨rfl, rfl⟩

/-- Every command answers as the shell with the stack does, and the stack stays right. -/
theorem execute (h : StandsIn s u st) (hs : s.ChainOk) (hfits : cmd.Fits st) :
    ∃ u', Returns cmd.execute u (cmd.spec s.names st).1 u' ∧ StandsIn s u' (cmd.spec s.names st).2 := by
  cases cmd with
  | cd argv => exact h.cd hs hfits
  | pwd argv =>
    simp only [DirCmd.execute, buildinPwd]
    by_cases hargc : argv.length = 1
    · obtain ⟨u', hrun, h'⟩ := h.getcwd hs
      rw [if_neg (not_not.mpr hargc), DirCmd.spec, if_pos hargc]
      exact ⟨u', hrun, h'⟩
    · rw [if_pos hargc, DirCmd.spec, if_neg hargc]
      exact ⟨u, returns_pure.mpr ⟨rfl, rfl⟩, h⟩

end StandsIn

end Shell

namespace SmallTree

theorem standsIn_root : StandsIn fs fs [] where
  beside := ⟨rfl, le_rfl, chainOk.live, chainOk.running, fun _ => rfl⟩
  task := ⟨_, rfl, rfl⟩
  names := by simp
  room := by decide

theorem leads_dir : Leads fs.names [[100]] := by
  refine ⟨1, ?_⟩
  have hroot : fs.names 0 [100] = some (.dir 1) := names_root (e := ⟨[100], 1, ftDir⟩) (by decide)
  rw [walk_cons_dir hroot, walk_nil]

/-- The answers to `cd ./d/` and `pwd`. -/
theorem specAll_dir : specAll fs.names [] [.cd [[99, 100], [46, 47, 100, 47]], .pwd [[112, 119, 100]]] =
    ([some [47, 100], some [47, 100]], [[100]]) := by
  have htarget : cdTarget [] [[99, 100], [46, 47, 100, 47]] = [[100]] := by decide
  have hspec : (DirCmd.cd [[99, 100], [46, 47, 100, 47]]).spec fs.names [] = (some [47, 100], [[100]]) := by
    rw [DirCmd.spec, htarget, if_pos ⟨le_rfl, leads_dir⟩]
    rfl
  rw [specAll, hspec]
  rfl

end SmallTree

end ZxyOs
