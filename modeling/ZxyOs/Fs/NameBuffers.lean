/-
  ZxyOs.Fs.NameBuffers

  The arrays that `path_parse` copies names into.

  All calls that take a path cut it up with the same copy loop, which stops at a slash or at
  the end of the string and not at the end of the array.  A call stays within its arrays for
  every state of the file system where all components of the path are short, and so are then
  the names it gives to `create_dir_entry` (`Fitting`, one rule for each construct, composed
  along the text of the calls).  `wash_path` cuts off every component, whatever is on disk.
-/

import ZxyOs.Fs.PathBytes

namespace ZxyOs

open Lib Lib.Exec

/-! ## The calls -/

/-- `sys_mkdir`. -/
def sysMkdirAt : CallerM Int := do
  let ioBuf ← onFs sysMalloc
  if ioBuf = none then
    return -1
  else do
    let (iNo, searchedRecord) ← searchFileAt
    if iNo ≠ none then
      onFs do
        dirClose searchedRecord.parentDir
        sysFree ioBuf
        return -1
    else do
      let pathnameDepth ← pathDepthCntAt (.caller 0)
      let pathSearchedDepth ← pathDepthCntAt (.own searchedRecord.searchedPath)
      if pathnameDepth ≠ pathSearchedDepth then
        onFs do
          dirClose searchedRecord.parentDir
          sysFree ioBuf
          return -1
      else do
        entryName (lastName searchedRecord.searchedPath)
        onFs do
          let iNo ← inodeBitmapAlloc
          match iNo with
          | none =>
            dirClose searchedRecord.parentDir
            sysFree ioBuf
            return -1
          | some iNo => mkdirInstall searchedRecord ioBuf iNo

/-- `sys_unlink`. -/
def sysUnlinkAt : CallerM Int := do
  let pathname ← query Caller.pathname
  assert (pathname.length < 512)
  let (iNo, searchedRecord) ← searchFileAt
  onFs do
    assert (iNo ≠ some 0)
    match iNo with
    | none =>
      dirClose searchedRecord.parentDir
      return -1
    | some iNo =>
      if searchedRecord.fType = ftDir then
        dirClose searchedRecord.parentDir
        return -1
      let fd ← findOpenFile iNo maxFilesOpen 0
      if fd ≠ none then
        dirClose searchedRecord.parentDir
        return -1
      let ioBuf ← sysMalloc
      if ioBuf = none then
        dirClose searchedRecord.parentDir
        return -1
      let _ ← deleteDirEntry searchedRecord.parentDir iNo
      inodeRelease iNo
      sysFree ioBuf
      dirClose searchedRecord.parentDir
      return 0

/-- `sys_rmdir`. -/
def sysRmdirAt : CallerM Int := do
  let (inodeNo, searchedRecord) ← searchFileAt
  onFs do
    assert (inodeNo ≠ some 0)
    let ret ←
      match inodeNo with
      | none => pure (-1 : Int)
      | some inodeNo =>
        if searchedRecord.fType = ftRegular then
          pure (-1)
        else do
          let dir ← dirOpen inodeNo
          let empty ← dirIsEmpty dir
          let ret ←
            if !empty then
              pure (-1 : Int)
            else do
              let done ← dirRemove searchedRecord.parentDir dir
              pure (if done then 0 else -1)
          dirClose dir
          pure ret
    dirClose searchedRecord.parentDir
    return ret

/-- `sys_chdir`. -/
def sysChdirAt : CallerM Int := do
  let (iNo, searchedRecord) ← searchFileAt
  onFs do
    let ret ←
      match iNo with
      | none => pure (-1 : Int)
      | some iNo =>
        if searchedRecord.fType = ftDir then do
          let cur ← runningThread
          putThread { cur with cwdInodeNr := iNo }
          pure 0
        else
          pure (-1)
    dirClose searchedRecord.parentDir
    return ret

/-- `sys_stat`. -/
def sysStatAt : CallerM (Option Stat) := do
  let path ← query Caller.pathname
  if path = [slash] ∨ path = slash :: dot ∨ path = slash :: dotDot then
    onFs do
      let a ← dirInode .root
      let v ← getInode a
      return some { stIno := 0, stSize := v.iSize, stFiletype := ftDir }
  else do
    let (iNo, searchedRecord) ← searchFileAt
    onFs do
      let ret ←
        match iNo with
        | none => pure none
        | some iNo => do
          let a ← inodeOpen iNo
          let v ← getInode a
          inodeClose a
          pure (some { stIno := iNo, stSize := v.iSize, stFiletype := searchedRecord.fType })
      dirClose searchedRecord.parentDir
      return ret

/-- The new path of `wash_path` without its last component. -/
def upOne (newAbsPath : CStr) : CStr :=
  let parent := newAbsPath.take (newAbsPath.length - (lastName newAbsPath).length - 1)
  if parent = [] then [slash] else parent

/-- The turn of the loop of `wash_path` on a component. -/
def washName (newAbsPath name : CStr) : CStr :=
  if name = dotDot then
    upOne newAbsPath
  else if name = dot then
    newAbsPath
  else
    (if newAbsPath = [slash] then newAbsPath else newAbsPath ++ [slash]) ++ name

/-- The loop of `wash_path`, with `fuel` components left. -/
def washLoop : Nat → CStr → Option StrPtr → CStr → CallerM CStr
  | 0, _, _, _ => stop .fault
  | fuel + 1, name, subpath, newAbsPath =>
    if name = [] then
      return newAbsPath
    else do
      let (next, subpath) ← pathNextAt subpath
      washLoop fuel next subpath (washName newAbsPath name)

/-- `wash_path` of the shell. -/
def washPath : CallerM CStr := do
  let oldAbsPath ← query Caller.pathname
  assert (oldAbsPath.head? = some slash)
  let (name, subpath) ← pathParseAt (.caller 0)
  if name = [] then
    return [slash]
  else
    washLoop (oldAbsPath.length + 1) name subpath [slash]

/-- The functions that cut up the path they are given. -/
inductive PathUser where
  | sysOpen (flags : Nat)
  | sysMkdir
  | sysUnlink
  | sysRmdir
  | sysStat
  | sysChdir
  | washPath

/-- The call stores outside an array for a name, or fills one up to the last byte. -/
def PathUser.Overruns (c : Caller) : PathUser → Prop
  | .sysOpen flags => Stops (sysOpenAt flags) c .overrun
  | .sysMkdir => Stops sysMkdirAt c .overrun
  | .sysUnlink => Stops sysUnlinkAt c .overrun
  | .sysRmdir => Stops sysRmdirAt c .overrun
  | .sysStat => Stops sysStatAt c .overrun
  | .sysChdir => Stops sysChdirAt c .overrun
  | .washPath => Stops ZxyOs.washPath c .overrun

/-! ## Staying within the arrays -/

/-- On the caller's string `path`, which it leaves as it is, the program stays within its
    arrays for names and returns only what `Q` holds of. -/
def Fitting {α : Type} (path : CStr) (Q : α → Prop) (x : CallerM α) : Prop :=
  ∀ s, ¬ Stops x ⟨s, path⟩ .overrun ∧ ∀ a c', Returns x ⟨s, path⟩ a c' → c'.pathname = path ∧ Q a

section Fitting

variable {α β : Type} {path p : CStr} {q : StrPtr} {ptr : Option StrPtr} {Q : α → Prop} {R : β → Prop}

theorem Fitting.bind {x : CallerM α} {f : α → CallerM β} (hx : Fitting path Q x)
    (hf : ∀ a, Q a → Fitting path R (f a)) : Fitting path R (x >>= f) := by
  intro s
  obtain ⟨hstop, hreturn⟩ := hx s
  constructor
  · intro h
    rcases stops_bind.mp h with h | ⟨a, ⟨t, _⟩, hxa, hfa⟩
    · exact hstop h
    · obtain ⟨rfl, ha⟩ := hreturn a _ hxa
      exact (hf a ha t).1 hfa
  · intro b c' h
    obtain ⟨a, ⟨t, _⟩, hxa, hfa⟩ := returns_bind.mp h
    obtain ⟨rfl, ha⟩ := hreturn a _ hxa
    exact (hf a ha t).2 b c' hfa

theorem fitting_pure {a : α} (h : Q a) : Fitting path Q (pure a) := by
  intro s
  refine ⟨nofun, fun b c' hr => ?_⟩
  obtain ⟨rfl, rfl⟩ := returns_pure.mp hr
  exact ⟨rfl, h⟩

theorem fitting_stop {e : Stop} (he : e ≠ .overrun) : Fitting path Q (stop e) :=
  fun _ => ⟨fun h => he (Except.error.inj h), fun _ _ h => absurd h (returns_stop e)⟩

theorem fitting_assert (P : Prop) [Decidable P] : Fitting path (fun _ => P) (assert P) := by
  unfold assert
  split
  · next hP => exact fitting_pure hP
  · exact fitting_stop (by decide)

theorem fitting_require (P : Prop) [Decidable P] : Fitting path (fun _ => P) (require P) := by
  unfold require
  split
  · next hP => exact fitting_pure hP
  · exact fitting_stop (by decide)

theorem fitting_fits {P : Prop} [Decidable P] (h : P) : Fitting path (fun _ => True) (fits P) := by
  rw [fits, if_pos h]
  exact fitting_pure trivial

theorem fitting_onFs {x : FsM α} : Fitting path (fun _ => True) (onFs x) :=
  fun _ => ⟨not_stops_onFs, fun _ _ h => ⟨(returns_onFs.mp h).2, trivial⟩⟩

theorem Fitting.look {f : CStr → CallerM α} (h : Fitting path Q (f path)) :
    Fitting path Q (query Caller.pathname >>= f) := by
  have hquery : Fitting path (fun a => a = path) (query Caller.pathname) := by
    intro s
    refine ⟨nofun, fun a c' hr => ?_⟩
    obtain ⟨rfl, rfl⟩ := (returns_query _).mp hr
    exact ⟨rfl, rfl⟩
  refine hquery.bind ?_
  rintro a rfl
  exact h

theorem Fitting.ite {P : Prop} [Decidable P] {x y : CallerM α} (h : P → Fitting path Q x)
    (h' : ¬ P → Fitting path Q y) : Fitting path Q (if P then x else y) := by
  split
  · next hP => exact h hP
  · next hP => exact h' hP

/-! ## Short components -/

/-- Every component fits into an array of 16 bytes with its terminator. -/
def Short (p : CStr) : Prop := ∀ w ∈ components slash p, w.length < 16

/-- A name as `path_parse` delivers it, or none. -/
def IsName (name : CStr) : Prop := name.length < 16 ∧ slash ∉ name

theorem components_tail (h : p.head? = some slash) : components slash p.tail = components slash p := by
  cases p with
  | nil => cases h
  | cons b bs =>
    obtain rfl := Option.some.inj h
    exact components_sep_cons.symm

/-- Without a name there is no rest. -/
theorem restOf_eq_nil (h : firstName p = []) : restOf p = [] := by
  by_contra hne
  have hhead := head?_restOf hne
  have hsplit := List.takeWhile_append_dropWhile (p := fun b => decide (b ≠ slash))
    (l := p.tail.dropWhile (· = slash))
  rw [show (p.tail.dropWhile (· = slash)).takeWhile (fun b => decide (b ≠ slash)) = [] from h,
    List.nil_append] at hsplit
  -- the slashes in front have been skipped
  have hskip : p.tail.dropWhile (· = slash) ≠ [] := by
    rw [← hsplit]
    exact hne
  have hfirst := List.head_dropWhile_not (fun b => decide (b = slash)) hskip
  rw [decide_eq_false_iff_not] at hfirst
  rw [restOf, hsplit, List.head?_eq_some_head hskip, Option.some.injEq] at hhead
  exact hfirst hhead

/-- The components of a path are the first name and those of the rest. -/
theorem components_parse : components slash p.tail =
    if firstName p = [] then [] else firstName p :: components slash (restOf p) := by
  split
  · next h => exact components_eq_nil h
  · next h => exact components_eq_cons h

theorem isName_firstName (h : Short p.tail) : IsName (firstName p) := by
  have hclean : slash ∉ firstName p := by
    intro hmem
    simpa using List.mem_takeWhile_imp hmem
  refine ⟨?_, hclean⟩
  by_cases hname : firstName p = []
  · rw [hname]
    decide
  · apply h
    rw [components_parse, if_neg hname]
    exact List.mem_cons_self

theorem short_restOf (h : Short p.tail) : Short (restOf p) := by
  by_cases hname : firstName p = []
  · rw [restOf_eq_nil hname]
    exact nofun
  · intro w hw
    apply h
    rw [components_parse, if_neg hname]
    exact List.mem_cons_of_mem _ hw

/-- A path made of short names. -/
def Spelled (p : CStr) : Prop := ∃ ns : List CStr, p = spell slash ns ∧ ∀ n ∈ ns, n ≠ [] ∧ IsName n

theorem Spelled.short (h : Spelled p) : Short p := by
  obtain ⟨ns, rfl, hns⟩ := h
  rw [Short, components_spell fun n hn => ⟨(hns n hn).1, (hns n hn).2.2⟩]
  exact fun n hn => (hns n hn).2.1

theorem Spelled.append {name : CStr} (h : Spelled p) (hne : name ≠ []) (hname : IsName name) :
    Spelled (p ++ slash :: name) := by
  obtain ⟨ns, rfl, hns⟩ := h
  refine ⟨ns ++ [name], ?_, ?_⟩
  · rw [spell_append, spell_cons, spell_nil, List.append_nil]
  · intro n hn
    rcases List.mem_append.mp hn with hn | hn
    · exact hns n hn
    · obtain rfl := List.mem_singleton.mp hn
      exact ⟨hne, hname⟩

/-- The name handed to `create_dir_entry` is a component. -/
theorem lastName_short (hhead : p.head? = some slash) (h : Short p) : (lastName p).length < 16 := by
  by_cases hne : lastName p = []
  · rw [hne]
    decide
  · apply h
    have hclean : slash ∉ lastName p := by
      intro hmem
      rw [lastName, List.mem_reverse] at hmem
      simpa using List.mem_takeWhile_imp hmem
    -- cut the path at its last slash
    have hsplit := congrArg List.reverse
      (List.takeWhile_append_dropWhile (p := fun b => decide (b ≠ slash)) (l := p.reverse))
    rw [List.reverse_append, List.reverse_reverse] at hsplit
    rcases dropWhile_ne_eq p.reverse with hrest | ⟨r, hrest⟩
    · rw [hrest, List.reverse_nil, List.nil_append] at hsplit
      have hmem : slash ∈ p := List.mem_of_mem_head? hhead
      rw [← hsplit] at hmem
      exact absurd hmem hclean
    · rw [hrest, List.reverse_cons, List.append_assoc] at hsplit
      have hlast := mem_components_last (q := r.reverse) hne hclean
      rw [show r.reverse ++ slash :: lastName p = p from hsplit] at hlast
      exact hlast

/-! ## Cutting up a path -/

/-- A pointer to what is left of a path with short components. -/
def ShortAt (path : CStr) (ptr : Option StrPtr) : Prop :=
  ∀ r ∈ ptr, (r.str path).head? = some slash ∧ Short (r.str path).tail

theorem fitting_parseName (h : Short p.tail) : Fitting path (IsParse p) (parseName p) := by
  refine (fitting_fits (isName_firstName h).1).bind fun _ _ => ?_
  intro s
  refine ⟨not_stops_onFs, fun r c' hr => ?_⟩
  obtain ⟨hparse, hpath⟩ := returns_onFs.mp hr
  exact ⟨hpath, (returns_pathParse.mp hparse).2.2.1⟩

/-- The pointer that goes with the rest of a path leads to it. -/
theorem shortAt_rest {r : CStr × Option CStr} {f : CStr → StrPtr} (h : Short p.tail) (hr : IsParse p r)
    (hf : (f (restOf p)).str path = restOf p) : ShortAt path (r.2.map f) := by
  rw [show r = _ from hr]
  dsimp only
  split
  · exact nofun
  · next hne =>
    intro ptr hptr
    obtain rfl := Option.some.inj hptr
    rw [hf]
    refine ⟨head?_restOf hne, ?_⟩
    rw [Short, components_tail (head?_restOf hne)]
    exact short_restOf h

theorem fitting_pathParseAt (hslash : ∀ k, q = .caller k → (path.drop k).head? = some slash)
    (h : Short (q.str path).tail) :
    Fitting path (fun r => IsName r.1 ∧ ShortAt path r.2) (pathParseAt q) := by
  cases q with
  | own p =>
    refine (fitting_parseName h).bind fun r hr => fitting_pure ⟨?_, shortAt_rest h hr rfl⟩
    rw [show r = _ from hr]
    exact isName_firstName h
  | caller k =>
    have hset : Fitting path (fun _ => True)
        (update fun c : Caller => { c with pathname := c.pathname.set k slash }) := by
      intro s
      refine ⟨nofun, fun u c' hu => ?_⟩
      obtain rfl := (returns_update _ u).mp hu
      exact ⟨set_slash (hslash k rfl), trivial⟩
    refine hset.bind fun _ _ => Fitting.look ((fitting_parseName h).bind fun r hr => fitting_pure ⟨?_, ?_⟩)
    · rw [show r = _ from hr]
      exact isName_firstName h
    · exact shortAt_rest h hr (drop_length_sub
        (restOf_suffix.trans ((List.tail_suffix _).trans (List.drop_suffix k path))))

theorem fitting_pathNextAt (h : ShortAt path ptr) :
    Fitting path (fun r => IsName r.1 ∧ ShortAt path r.2) (pathNextAt ptr) := by
  cases ptr with
  | none => exact fitting_pure ⟨⟨by decide, nofun⟩, nofun⟩
  | some q =>
    obtain ⟨hhead, hshort⟩ := h q rfl
    refine fitting_pathParseAt (fun k hk => ?_) hshort
    rw [hk] at hhead
    exact hhead

theorem fitting_pathDepthLoopAt (fuel depth : Nat) (h : ShortAt path ptr) :
    Fitting path (fun _ => True) (pathDepthLoopAt fuel ptr depth) := by
  induction fuel generalizing ptr depth with
  | zero => exact fitting_pure trivial
  | succ fuel ih =>
    exact (fitting_pathNextAt h).bind fun r hr =>
      Fitting.ite (fun _ => fitting_pure trivial) fun _ => ih _ hr.2

theorem fitting_pathDepthCntAt (hslash : ∀ k, q = .caller k → (path.drop k).head? = some slash)
    (h : Short (q.str path).tail) : Fitting path (fun _ => True) (pathDepthCntAt q) :=
  Fitting.look ((fitting_pathParseAt hslash h).bind fun _ hr => (fitting_require _).bind fun _ _ =>
    fitting_pathDepthLoopAt _ _ hr.2)

/-- Components of a spelled path are those after its first byte. -/
theorem Spelled.short_tail (h : Spelled p) : Short p.tail := by
  obtain ⟨ns, rfl, hns⟩ := h
  cases ns with
  | nil => exact nofun
  | cons n ns =>
    rw [Short, components_tail rfl]
    exact Spelled.short ⟨_, rfl, hns⟩

/-- The path a search has examined is made of names that fit. -/
theorem fitting_searchLoopAt (fuel : Nat) {st : SearchState} (hname : IsName st.name)
    (hspelled : Spelled st.searchedPath) (h : ShortAt path ptr) :
    Fitting path (fun r => Spelled r.2.searchedPath) (searchLoopAt fuel st ptr) := by
  induction fuel generalizing st ptr with
  | zero => exact fitting_stop (by decide)
  | succ fuel ih =>
    apply Fitting.ite
    · intro _ s
      refine ⟨not_stops_onFs, fun r c' hr => ?_⟩
      obtain ⟨hr, hpath⟩ := returns_onFs.mp hr
      simp only [returns_bind, returns_pure] at hr
      obtain ⟨_, _, -, _, _, -, _, _, -, rfl, -⟩ := hr
      exact ⟨hpath, hspelled⟩
    · intro hne
      have hlonger := hspelled.append hne hname
      refine (fitting_assert _).bind fun _ _ => fitting_onFs.bind fun found _ => ?_
      cases found with
      | none => exact fitting_pure hlonger
      | some e =>
        refine (fitting_pathNextAt h).bind fun r hr => Fitting.ite (fun _ => ?_) fun _ => ?_
        · exact fitting_onFs.bind fun _ _ => ih hr.1 hlonger hr.2
        · exact Fitting.ite (fun _ => fitting_pure hlonger) fun _ => ih hr.1 hlonger hr.2

/-- The depth of the path a search has examined. -/
theorem fitting_depth_own (h : Spelled p) : Fitting path (fun _ => True) (pathDepthCntAt (.own p)) :=
  fitting_pathDepthCntAt nofun h.short_tail

theorem Spelled.lastName_short (h : Spelled p) : (lastName p).length < 16 := by
  obtain ⟨ns, rfl, hns⟩ := h
  cases ns with
  | nil => exact Nat.zero_lt_succ _
  | cons n ns => exact ZxyOs.lastName_short rfl (Spelled.short ⟨_, rfl, hns⟩)

theorem fitting_washLoop (fuel : Nat) {name newAbsPath : CStr} (h : ShortAt path ptr) :
    Fitting path (fun _ => True) (washLoop fuel name ptr newAbsPath) := by
  induction fuel generalizing name ptr newAbsPath with
  | zero => exact fitting_stop (by decide)
  | succ fuel ih =>
    exact Fitting.ite (fun _ => fitting_pure trivial) fun _ => (fitting_pathNextAt h).bind fun _ hr => ih hr.2

section Calls

variable (hhead : path.head? = some slash) (hshort : Short path)

include hhead hshort

theorem fitting_start : Fitting path (fun r => IsName r.1 ∧ ShortAt path r.2) (pathParseAt (.caller 0)) := by
  apply fitting_pathParseAt
  · intro k hk
    obtain rfl := StrPtr.caller.inj hk
    exact hhead
  · rw [show (StrPtr.caller 0).str path = path from rfl, Short, components_tail hhead]
    exact hshort

theorem fitting_depth : Fitting path (fun _ => True) (pathDepthCntAt (.caller 0)) :=
  Fitting.look ((fitting_start hhead hshort).bind fun _ hr => (fitting_require _).bind fun _ _ =>
    fitting_pathDepthLoopAt _ _ hr.2)

theorem fitting_searchFileAt : Fitting path (fun r => Spelled r.2.searchedPath) searchFileAt := by
  have hnil : Spelled [] := ⟨[], rfl, nofun⟩
  apply Fitting.look
  apply Fitting.ite
  · exact fun _ => fitting_pure hnil
  · exact fun _ => (fitting_assert _).bind fun _ _ => (fitting_start hhead hshort).bind fun _ hr =>
      fitting_searchLoopAt _ hr.1 hnil hr.2

theorem fitting_sysOpenAt {flags : Nat} : Fitting path (fun _ => True) (sysOpenAt flags) := by
  refine Fitting.look ((fitting_require _).bind fun _ _ => Fitting.ite (fun _ => fitting_pure trivial) fun _ => ?_)
  refine (fitting_assert _).bind fun _ _ => (fitting_depth hhead hshort).bind fun _ _ =>
    (fitting_searchFileAt hhead hshort).bind fun r hr => Fitting.ite (fun _ => fitting_onFs) fun _ => ?_
  refine (fitting_depth_own hr).bind fun _ _ => Fitting.ite (fun _ => fitting_onFs) fun _ => ?_
  split
  · refine Fitting.ite (fun _ => Fitting.look ?_) fun _ => fitting_onFs
    exact (fitting_fits (lastName_short hhead hshort)).bind fun _ _ => fitting_onFs
  · exact Fitting.ite (fun _ => fitting_onFs) fun _ => fitting_onFs

theorem fitting_sysMkdirAt : Fitting path (fun _ => True) sysMkdirAt := by
  refine fitting_onFs.bind fun _ _ => Fitting.ite (fun _ => fitting_pure trivial) fun _ => ?_
  refine (fitting_searchFileAt hhead hshort).bind fun r hr => Fitting.ite (fun _ => fitting_onFs) fun _ => ?_
  refine (fitting_depth hhead hshort).bind fun _ _ => (fitting_depth_own hr).bind fun _ _ =>
    Fitting.ite (fun _ => fitting_onFs) fun _ => ?_
  exact (fitting_fits hr.lastName_short).bind fun _ _ => fitting_onFs

/-- The calls that only search. -/
theorem fitting_search {f : Option Nat × PathSearchRecord → FsM α} :
    Fitting path (fun _ => True) (searchFileAt >>= fun r => onFs (f r)) :=
  (fitting_searchFileAt hhead hshort).bind fun _ _ => fitting_onFs

theorem fitting_washPath : Fitting path (fun _ => True) washPath :=
  Fitting.look ((fitting_assert _).bind fun _ _ => (fitting_start hhead hshort).bind fun _ hr =>
    Fitting.ite (fun _ => fitting_pure trivial) fun _ => fitting_washLoop _ hr.2)

/-- Where all components are short no call overruns an array for a name. -/
theorem not_overruns (s : Fs) (u : PathUser) : ¬ u.Overruns ⟨s, path⟩ := by
  cases u with
  | sysOpen flags => exact (fitting_sysOpenAt hhead hshort s).1
  | sysMkdir => exact (fitting_sysMkdirAt hhead hshort s).1
  | sysUnlink =>
    exact (Fitting.look ((fitting_assert _).bind fun _ _ => fitting_search hhead hshort) s).1
  | sysRmdir => exact (fitting_search hhead hshort s).1
  | sysStat =>
    exact (Fitting.look (Fitting.ite (fun _ => fitting_onFs) fun _ => fitting_search hhead hshort) s).1
  | sysChdir => exact (fitting_search hhead hshort s).1
  | washPath => exact (fitting_washPath hhead hshort s).1

end Calls

/-! ## Long components -/

/-- A component that does not fit. -/
def Long (p : CStr) : Prop := ∃ w ∈ components slash p.tail, 16 ≤ w.length

theorem parseName_overruns {c : Caller} (h : 16 ≤ (firstName p).length) : Stops (parseName p) c .overrun := by
  apply stops_bind.mpr
  left
  rw [fits, if_neg (by omega)]
  rfl

/-- On a path with a long component `path_parse` overruns, or leaves the component in the
    rest, which is shorter. -/
theorem pathParseAt_long {k : Nat} (s : Fs) (hhead : (path.drop k).head? = some slash)
    (h : Long (path.drop k)) : Stops (pathParseAt (.caller k)) ⟨s, path⟩ .overrun ∨
      ∃ name j, Returns (pathParseAt (.caller k)) ⟨s, path⟩ (name, some (.caller j)) ⟨s, path⟩ ∧ name ≠ [] ∧
        (path.drop j).head? = some slash ∧ Long (path.drop j) ∧ (path.drop j).length < (path.drop k).length := by
  obtain ⟨w, hw, hlong⟩ := h
  rw [components_parse] at hw
  by_cases hname : firstName (path.drop k) = []
  · rw [if_pos hname] at hw
    cases hw
  rw [if_neg hname, List.mem_cons] at hw
  have hstart {β : Type} {f : CStr → CallerM β} {e : Stop} (hf : Stops (f path) ⟨s, path⟩ e) :
      Stops (do
        update fun c : Caller => { c with pathname := c.pathname.set k slash }
        let p ← query Caller.pathname
        f p) ⟨s, path⟩ e := by
    refine stops_bind.mpr (Or.inr ⟨(), ⟨s, path⟩, (returns_update _ _).mpr ?_, ?_⟩)
    · exact congrArg (Caller.mk s) (set_slash hhead)
    · exact stops_bind.mpr (Or.inr ⟨path, _, (returns_query _).mpr ⟨rfl, rfl⟩, hf⟩)
  rcases Nat.lt_or_ge (firstName (path.drop k)).length 16 with hfits | hover
  · right
    have hrest : w ∈ components slash (restOf (path.drop k)) := by
      rcases hw with rfl | hw
      · omega
      · exact hw
    have hne : restOf (path.drop k) ≠ [] := by
      intro hnil
      rw [hnil] at hrest
      cases hrest
    have hnonempty : path.drop k ≠ [] := by
      intro hnil
      rw [hnil] at hhead
      cases hhead
    have hdrop := drop_length_sub
      (restOf_suffix.trans ((List.tail_suffix (path.drop k)).trans (List.drop_suffix k path)))
    refine ⟨firstName (path.drop k), path.length - (restOf (path.drop k)).length, ?_, hname, ?_, ?_, ?_⟩
    · have hparse : Returns (parseName (path.drop k)) ⟨s, path⟩
          (firstName (path.drop k), some (restOf (path.drop k))) ⟨s, path⟩ := by
        refine returns_bind.mpr ⟨(), _, (returns_fits _ _).mpr ⟨hfits, rfl⟩, returns_onFs.mpr ⟨?_, rfl⟩⟩
        exact returns_pathParse.mpr ⟨hnonempty, hfits, by rw [if_neg hne], rfl⟩
      simp only [pathParseAt, returns_bind, returns_update, returns_query]
      rw [set_slash hhead]
      exact ⟨(), _, rfl, path, _, ⟨rfl, rfl⟩, _, _, hparse, rfl⟩
    · rw [hdrop]
      exact head?_restOf hne
    · rw [hdrop, Long, components_tail (head?_restOf hne)]
      exact ⟨w, hrest, hlong⟩
    · rw [hdrop]
      have hle := (restOf_suffix (p := path.drop k)).length_le
      have hpos := List.length_pos_of_ne_nil hnonempty
      rw [List.length_tail] at hle
      omega
  · left
    exact hstart (stops_bind.mpr (Or.inl (parseName_overruns hover)))

/-- The loop of `wash_path` comes to every component. -/
theorem washLoop_overruns (fuel : Nat) {s : Fs} {name newAbsPath : CStr} {k : Nat} (hname : name ≠ [])
    (hhead : (path.drop k).head? = some slash) (h : Long (path.drop k)) (hfuel : (path.drop k).length ≤ fuel) :
    Stops (washLoop fuel name (some (.caller k)) newAbsPath) ⟨s, path⟩ .overrun := by
  induction fuel generalizing name newAbsPath k with
  | zero =>
    rw [List.length_eq_zero_iff.mp (Nat.le_zero.mp hfuel)] at hhead
    cases hhead
  | succ fuel ih =>
    rw [washLoop, if_neg hname]
    apply stops_bind.mpr
    rcases pathParseAt_long s hhead h with hover | ⟨next, j, hparse, hnext, hhead', hlong, hlt⟩
    · exact Or.inl hover
    · exact Or.inr ⟨_, _, hparse, ih hnext hhead' hlong (by omega)⟩

theorem washPath_overruns (s : Fs) (hhead : path.head? = some slash) (h : Long path) :
    Stops washPath ⟨s, path⟩ .overrun := by
  refine stops_bind.mpr (Or.inr ⟨path, _, (returns_query _).mpr ⟨rfl, rfl⟩, ?_⟩)
  refine stops_bind.mpr (Or.inr ⟨(), _, (returns_assert _ _).mpr ⟨hhead, rfl⟩, ?_⟩)
  apply stops_bind.mpr
  rcases pathParseAt_long (k := 0) s hhead h with hover | ⟨name, j, hparse, hname, hhead', hlong, hlt⟩
  · exact Or.inl hover
  · refine Or.inr ⟨_, _, hparse, ?_⟩
    dsimp only
    rw [if_neg hname]
    refine washLoop_overruns _ hname hhead' hlong ?_
    rw [List.drop_zero] at hlt
    omega

end Fitting

/-- The functions that cut up an absolute path stay within their arrays for names, in every
    state of the file system, exactly if every component of the path has less than 16
    bytes. -/
theorem names_fit_iff (path : CStr) (habs : path.head? = some slash) :
    (∀ (s : Fs) (u : PathUser), ¬ u.Overruns ⟨s, path⟩) ↔ ∀ w ∈ components slash path, w.length < 16 := by
  constructor
  · intro h w hw
    by_contra hlong
    refine h sampleFs .washPath (washPath_overruns sampleFs habs ⟨w, ?_, by omega⟩)
    rw [components_tail habs]
    exact hw
  · exact fun hshort s u => not_overruns habs hshort s u

theorem names_fit_short : (slash :: [97, 47, 98]).head? = some slash ∧
    ∀ (s : Fs) (u : PathUser), ¬ u.Overruns ⟨s, slash :: [97, 47, 98]⟩ :=
  ⟨rfl, (names_fit_iff (slash :: [97, 47, 98]) rfl).mpr (by decide)⟩

/-- A name of 16 bytes leaves no room for the terminator in `sys_open`. -/
theorem long_name_overruns : (slash :: List.replicate 16 97).length < 512 ∧
    (PathUser.sysOpen 0).Overruns ⟨sampleFs, slash :: List.replicate 16 97⟩ := by
  refine ⟨by decide, stopsFor_eq_true.mp ?_⟩
  decide +kernel

theorem long_names_do_not_fit : ¬ ∀ (s : Fs) (path : CStr) (u : PathUser), path.head? = some slash →
    path.length < 512 → ¬ u.Overruns ⟨s, path⟩ := by
  intro h
  obtain ⟨hlen, hover⟩ := long_name_overruns
  exact h sampleFs (slash :: List.replicate 16 97) (.sysOpen 0) rfl hlen hover

end ZxyOs
