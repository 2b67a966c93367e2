/-
  ZxyOs.Fs.PathBytes

  The calls that take a path, on the bytes of the string they are given.

  `path_parse` is handed a pointer into the caller's string.  Its first line assigns:
  `pathname[0] = '/'` stores a slash there, and the condition is always true.  In
  `Fs.Path` strings are values; here the caller's string is part of the state, a pointer
  says which string it points into, and a name that does not fit its array of 16 bytes
  with its terminator is an overrun.

  Apart from these stores the calls do what those of `Fs.Syscall` do (`Mirrors`).
-/

import ZxyOs.Fs.OpenUndo
import ZxyOs.Lib.Paths

namespace ZxyOs

open Lib Lib.Exec

/-! ## Strings and pointers -/

/-- What a call that takes a path works on: the file system and the caller's string. -/
structure Caller where
  fs : Fs
  pathname : CStr

abbrev CallerM := Exec Caller

/-- Run a file-system function.  Of the buffers that can overrun, only those for names are
    of interest here. -/
def onFs {α : Type} (x : FsM α) : CallerM α := fun c =>
  match x c.fs with
  | .ok (a, s) => .ok (a, { c with fs := s })
  | .error .overrun => .error .fault
  | .error e => .error e

/-- A `char*`: into the caller's string from a position on, or to a string of the call's own. -/
inductive StrPtr where
  | caller (pos : Nat)
  | own (p : CStr)

/-- The string at a pointer, where the caller's is `path`. -/
def StrPtr.str (path : CStr) : StrPtr → CStr
  | .caller k => path.drop k
  | .own p => p

/-! ## Path resolution -/

/-- The bytes `path_parse` stores through `name_store`. -/
def firstName (p : CStr) : CStr := (p.tail.dropWhile (· = slash)).takeWhile (· ≠ slash)

/-- The copy loop of `path_parse` into an array of 16 bytes. -/
def parseName (p : CStr) : CallerM (CStr × Option CStr) := do
  fits ((firstName p).length < 16)
  onFs (pathParse p)

/-- `path_parse`, with the store it makes first. -/
def pathParseAt : StrPtr → CallerM (CStr × Option StrPtr)
  | .caller k => do
    -- `if (pathname[0] = '/')`
    update fun c => { c with pathname := c.pathname.set k slash }
    let path ← query Caller.pathname
    let (name, rest) ← parseName (path.drop k)
    return (name, rest.map fun r => .caller (path.length - r.length))
  | .own p => do
    let (name, rest) ← parseName p
    return (name, rest.map .own)

/-- `if (p) p = path_parse(p, name)` with `name` cleared before. -/
def pathNextAt : Option StrPtr → CallerM (CStr × Option StrPtr)
  | none => return ([], none)
  | some p => pathParseAt p

/-- The loop of `path_depth_cnt`, as `pathDepthLoop`. -/
def pathDepthLoopAt : Nat → Option StrPtr → Nat → CallerM Nat
  | 0, _, depth => return depth
  | fuel + 1, p, depth => do
    let (name, p) ← pathNextAt p
    if name = [] then
      return depth + 1
    pathDepthLoopAt fuel p (depth + 1)

/-- `path_depth_cnt`. -/
def pathDepthCntAt (p : StrPtr) : CallerM Nat := do
  let path ← query Caller.pathname
  let (name, rest) ← pathParseAt p
  require (name ≠ [])
  pathDepthLoopAt (p.str path).length rest 0

/-- The loop of `search_file`, as `searchLoop`; the rest of the path is a pointer. -/
def searchLoopAt : Nat → SearchState → Option StrPtr → CallerM (Option Nat × PathSearchRecord)
  | 0, _, _ => stop .fault
  | fuel + 1, st, subPath =>
    if st.name = [] then
      onFs do
        dirClose st.parentDir
        let parent ← dirOpen st.parentDirInode
        let e ← deref st.dirE
        return (some e.iNo,
          { searchedPath := st.searchedPath, parentDir := parent, fType := ftDir })
    else do
      assert (st.searchedPath.length < 512)
      let searched := st.searchedPath ++ slash :: st.name
      let found ← onFs (searchDirEntry st.parentDir st.name)
      match found with
      | none =>
        return (none,
          { searchedPath := searched, parentDir := st.parentDir, fType := ftUnkown })
      | some e =>
        let (name, subPath) ← pathNextAt subPath
        if e.fType = ftDir then
          let (v, dir) ← onFs do
            let a ← dirInode st.parentDir
            let v ← getInode a
            dirClose st.parentDir
            let dir ← dirOpen e.iNo
            return (v, dir)
          searchLoopAt fuel
            { name := name, subPath := none, parentDir := dir, parentDirInode := v.iNo
              searchedPath := searched, dirE := some e } subPath
        else if e.fType = ftRegular then
          return (some e.iNo,
            { searchedPath := searched, parentDir := st.parentDir, fType := ftRegular })
        else
          searchLoopAt fuel
            { st with name := name, searchedPath := searched, dirE := some e } subPath

/-- `search_file` on the caller's string. -/
def searchFileAt : CallerM (Option Nat × PathSearchRecord) := do
  let pathname ← query Caller.pathname
  if pathname = [slash] ∨ pathname = slash :: dot ∨ pathname = slash :: dotDot then
    return (some 0, { searchedPath := [], parentDir := .root, fType := ftDir })
  else do
    assert (pathname.head? = some slash ∧ pathname.length ≥ 1 ∧ pathname.length < 512)
    let (name, subPath) ← pathParseAt (.caller 0)
    searchLoopAt (pathname.length + 1)
      { name := name, subPath := none, parentDir := .root, parentDirInode := 0
        searchedPath := [], dirE := none } subPath

/-! ## The calls -/

/-- A name given to `create_dir_entry` leaves room for a terminator in the 16 bytes of the
    entry's `filename`. -/
def entryName (name : CStr) : CallerM Unit := fits (name.length < 16)

/-- `sys_open`. -/
def sysOpenAt (flags : Nat) : CallerM Int := do
  let pathname ← query Caller.pathname
  require (pathname ≠ [])
  if pathname.getLast? = some slash then
    return -1
  assert (flags ≤ 7)
  let pathnameDepth ← pathDepthCntAt (.caller 0)
  let (inodeNo, searchedRecord) ← searchFileAt
  if searchedRecord.fType = ftDir then
    onFs do
      dirClose searchedRecord.parentDir
      return -1
  else do
    let searchedPathDepth ← pathDepthCntAt (.own searchedRecord.searchedPath)
    if pathnameDepth ≠ searchedPathDepth then
      onFs do
        dirClose searchedRecord.parentDir
        return -1
    else
      match inodeNo with
      | none =>
        if creating flags then do
          let pathname ← query Caller.pathname
          entryName (lastName pathname)
          onFs do
            let fd ← fileCreate searchedRecord.parentDir (lastName pathname) flags
            dirClose searchedRecord.parentDir
            return fd
        else
          onFs do
            dirClose searchedRecord.parentDir
            return -1
      | some inodeNo =>
        if creating flags then
          onFs do
            dirClose searchedRecord.parentDir
            return -1
        else
          onFs (fileOpen inodeNo flags)

/-! ## Running file-system functions -/

section Caller

variable {α β γ δ : Type} {c c' : Caller} {s s' : Fs} {p p' p'' path : CStr} {q : StrPtr} {k : Nat}

theorem returns_onFs {x : FsM α} {a : α} :
    Returns (onFs x) c a c' ↔ Returns x c.fs a c'.fs ∧ c'.pathname = c.pathname := by
  simp only [Returns, onFs]
  cases hx : x c.fs with
  | ok r =>
    obtain ⟨b, t⟩ := r
    constructor
    · intro h
      obtain ⟨rfl, rfl⟩ := Prod.mk.inj (Except.ok.inj h)
      exact ⟨rfl, rfl⟩
    · rintro ⟨h, hpath⟩
      obtain ⟨rfl, rfl⟩ := Prod.mk.inj (Except.ok.inj h)
      rw [← hpath]
  | error e => cases e <;> simp

/-- Whether other buffers overrun is not looked at. -/
theorem not_stops_onFs {x : FsM α} : ¬ Stops (onFs x) c .overrun := by
  simp only [Stops, onFs]
  cases hx : x c.fs with
  | ok r => simp
  | error e => cases e <;> simp

/-! ## The calls on bytes and the calls on values -/

/-- Where the call on the caller's string `p` returns, the one on values returns a result
    related by `Q`, and the caller's string is `p'` then. -/
def Mirrors (Q : α → β → Prop) (p p' : CStr) (x : CallerM α) (y : FsM β) : Prop :=
  ∀ ⦃s a c'⦄, Returns x ⟨s, p⟩ a c' → ∃ b, Q a b ∧ Returns y s b c'.fs ∧ c'.pathname = p'

theorem Mirrors.bind {Q : α → β → Prop} {R : γ → δ → Prop} {x : CallerM α} {y : FsM β}
    {f : α → CallerM γ} {g : β → FsM δ} (hx : Mirrors Q p p' x y)
    (hf : ∀ a b, Q a b → Mirrors R p' p'' (f a) (g b)) : Mirrors R p p'' (x >>= f) (y >>= g) := by
  intro s r c'' h
  obtain ⟨a, c', hx', hf'⟩ := returns_bind.mp h
  obtain ⟨b, hab, hy, rfl⟩ := hx hx'
  obtain ⟨d, hrd, hg, hpath⟩ := hf a b hab hf'
  exact ⟨d, hrd, returns_bind.mpr ⟨b, _, hy, hg⟩, hpath⟩

theorem mirrors_onFs {x : FsM α} : Mirrors Eq p p (onFs x) x := by
  intro s a c' h
  obtain ⟨hx, hpath⟩ := returns_onFs.mp h
  exact ⟨a, rfl, hx, hpath⟩

theorem mirrors_pure {Q : α → β → Prop} {a : α} {b : β} (h : Q a b) :
    Mirrors Q p p (pure a) (pure b) := by
  intro s r c' hr
  obtain ⟨rfl, rfl⟩ := returns_pure.mp hr
  exact ⟨b, h, returns_pure.mpr ⟨rfl, rfl⟩, rfl⟩

theorem mirrors_stop {Q : α → β → Prop} {e : Stop} {y : FsM β} : Mirrors Q p p' (stop e) y :=
  fun _ _ _ h => absurd h (returns_stop e)

theorem mirrors_assert (P : Prop) [Decidable P] : Mirrors (fun _ _ => P) p p (assert P) (assert P) := by
  intro s u c' h
  obtain ⟨hP, rfl⟩ := (returns_assert P u).mp h
  exact ⟨u, hP, (returns_assert P u).mpr ⟨hP, rfl⟩, rfl⟩

theorem mirrors_require (P : Prop) [Decidable P] : Mirrors (fun _ _ => P) p p (require P) (require P) := by
  intro s u c' h
  obtain ⟨hP, rfl⟩ := (returns_require P u).mp h
  exact ⟨u, hP, (returns_require P u).mpr ⟨hP, rfl⟩, rfl⟩

/-- The string is what it is known to be. -/
theorem Mirrors.look {Q : α → β → Prop} {f : CStr → CallerM α} {y : FsM β} (h : Mirrors Q p p' (f p) y) :
    Mirrors Q p p' (query Caller.pathname >>= f) y := by
  intro s a c' hr
  obtain ⟨_, _, hlook, hf⟩ := returns_bind.mp hr
  obtain ⟨rfl, rfl⟩ := (returns_query _).mp hlook
  exact h hf

/-- A check of a length has no counterpart. -/
theorem Mirrors.checked {Q : α → β → Prop} {P : Prop} [Decidable P] {f : Unit → CallerM α} {y : FsM β}
    (h : Mirrors Q p p' (f ()) y) : Mirrors Q p p' (fits P >>= f) y := by
  intro s a c' hr
  obtain ⟨_, _, hfits, hf⟩ := returns_bind.mp hr
  obtain ⟨-, rfl⟩ := (returns_fits _ _).mp hfits
  exact h hf

theorem Mirrors.ite {Q : α → β → Prop} {P : Prop} [Decidable P] {x x' : CallerM α} {y y' : FsM β}
    (h : P → Mirrors Q p p' x y) (h' : ¬ P → Mirrors Q p p' x' y') :
    Mirrors Q p p' (if P then x else x') (if P then y else y') := by
  split
  · next hP => exact h hP
  · next hP => exact h' hP

/-! ## Cutting off a component -/

/-- What `path_parse` leaves of a path. -/
def restOf (p : CStr) : CStr := (p.tail.dropWhile (· = slash)).dropWhile (· ≠ slash)

/-- `path_parse` computes the first name and what follows it. -/
theorem returns_pathParse {r : CStr × Option CStr} :
    Returns (pathParse p) s r s' ↔ p ≠ [] ∧ (firstName p).length < 16 ∧
      r = (firstName p, if restOf p = [] then none else some (restOf p)) ∧ s = s' := by
  cases p with
  | nil => simp [pathParse]
  | cons b bs =>
    simp only [pathParse, returns_bind, returns_require, returns_pure]
    constructor
    · rintro ⟨_, _, ⟨hlen, rfl⟩, rfl, rfl⟩
      exact ⟨List.cons_ne_nil _ _, hlen, rfl, rfl⟩
    · rintro ⟨-, hlen, rfl, rfl⟩
      exact ⟨(), s, ⟨hlen, rfl⟩, rfl, rfl⟩

theorem restOf_suffix : restOf p <:+ p.tail :=
  (List.dropWhile_suffix _).trans (List.dropWhile_suffix _)

/-- The rest begins with a slash. -/
theorem head?_restOf (h : restOf p ≠ []) : (restOf p).head? = some slash := by
  rcases dropWhile_ne_eq (p.tail.dropWhile (· = slash)) with hnil | ⟨r, hr⟩
  · exact absurd hnil h
  · rw [restOf, hr, List.head?_cons]

/-- A pointer and the string at it, which begins with a slash. -/
def Points (path : CStr) (ptr : Option StrPtr) (sub : Option CStr) : Prop :=
  ptr.map (StrPtr.str path) = sub ∧ ∀ r ∈ sub, r.head? = some slash

/-- What `path_parse` returns, with pointers and with values. -/
def Parsed (path : CStr) (r : CStr × Option StrPtr) (r' : CStr × Option CStr) : Prop :=
  r.1 = r'.1 ∧ Points path r.2 r'.2

theorem drop_length_sub {l r : List UInt8} (h : r <:+ l) : l.drop (l.length - r.length) = r :=
  (List.suffix_iff_eq_drop.mp h).symm

/-- Storing a slash where there is one changes nothing. -/
theorem set_slash (h : (p.drop k).head? = some slash) : p.set k slash = p := by
  rw [List.head?_drop] at h
  obtain ⟨hlt, hget⟩ := List.getElem?_eq_some_iff.mp h
  rw [← hget, List.set_getElem_self]

/-- The names and rests `path_parse` can return. -/
def IsParse (p : CStr) (r : CStr × Option CStr) : Prop :=
  r = (firstName p, if restOf p = [] then none else some (restOf p))

theorem mirrors_parseName {q : CStr} :
    Mirrors (fun r r' => r = r' ∧ IsParse q r') p p (parseName q) (pathParse q) := by
  apply Mirrors.checked
  intro s r c' h
  obtain ⟨hparse, hpath⟩ := returns_onFs.mp h
  exact ⟨r, ⟨rfl, (returns_pathParse.mp hparse).2.2.1⟩, hparse, hpath⟩

/-- In a string of its own a call moves on to the rest of the string. -/
theorem mirrors_pathParseAt_own :
    Mirrors (Parsed path) path path (pathParseAt (.own p)) (pathParse p) := by
  intro s r c' h
  obtain ⟨⟨name, rest⟩, c₁, hparse, hr⟩ := returns_bind.mp h
  obtain ⟨_, ⟨rfl, hval⟩, hy, hpath⟩ := mirrors_parseName hparse
  obtain ⟨rfl, rfl⟩ := returns_pure.mp hr
  refine ⟨_, ⟨rfl, ?_⟩, hy, hpath⟩
  obtain ⟨rfl, rfl⟩ := Prod.mk.inj hval
  dsimp only
  split
  · exact ⟨rfl, nofun⟩
  · next hne =>
    refine ⟨rfl, ?_⟩
    intro r hr
    obtain rfl := Option.some.inj hr
    exact head?_restOf hne

/-- In the caller's string it stores a slash, and parses what is there then. -/
theorem mirrors_pathParseAt_set :
    Mirrors (Parsed (p.set k slash)) p (p.set k slash) (pathParseAt (.caller k))
      (pathParse ((p.set k slash).drop k)) := by
  intro s r c' h
  simp only [pathParseAt, returns_bind, returns_update, returns_query] at h
  obtain ⟨_, _, rfl, _, _, ⟨rfl, rfl⟩, ⟨name, rest⟩, c₁, hparse, hr⟩ := h
  obtain ⟨_, ⟨rfl, hval⟩, hy, hpath⟩ := mirrors_parseName hparse
  obtain ⟨rfl, rfl⟩ := returns_pure.mp hr
  refine ⟨_, ⟨rfl, ?_⟩, hy, hpath⟩
  obtain ⟨rfl, rfl⟩ := Prod.mk.inj hval
  dsimp only
  split
  · exact ⟨rfl, by rintro _ ⟨⟩⟩
  · next hne =>
    refine ⟨?_, ?_⟩
    · -- the rest is a suffix of the string, and found by its length
      have hsuffix := (restOf_suffix (p := (p.set k slash).drop k)).trans
        ((List.tail_suffix _).trans (List.drop_suffix k _))
      exact congrArg some (drop_length_sub hsuffix)
    · intro r hr
      obtain rfl := Option.some.inj hr
      exact head?_restOf hne

/-- Where there is a slash already, the string stays as it is. -/
theorem mirrors_pathParseAt (hq : (q.str path).head? = some slash) :
    Mirrors (Parsed path) path path (pathParseAt q) (pathParse (q.str path)) := by
  cases q with
  | own p => exact mirrors_pathParseAt_own
  | caller k =>
    have h := mirrors_pathParseAt_set (p := path) (k := k)
    rw [set_slash hq] at h
    exact h

theorem mirrors_pathNextAt {ptr : Option StrPtr} {sub : Option CStr} (h : Points path ptr sub) :
    Mirrors (Parsed path) path path (pathNextAt ptr) (pathNext sub) := by
  obtain ⟨rfl, hhead⟩ := h
  cases ptr with
  | none => exact mirrors_pure ⟨rfl, rfl, nofun⟩
  | some q => exact mirrors_pathParseAt (hhead _ rfl)

/-! ## Along a path -/

theorem mirrors_pathDepthLoopAt (fuel depth : Nat) {ptr : Option StrPtr} {sub : Option CStr}
    (h : Points path ptr sub) :
    Mirrors Eq path path (pathDepthLoopAt fuel ptr depth) (pathDepthLoop fuel sub depth) := by
  induction fuel generalizing ptr sub depth with
  | zero => exact mirrors_pure rfl
  | succ fuel ih =>
    refine (mirrors_pathNextAt h).bind ?_
    rintro ⟨name, ptr⟩ ⟨_, sub⟩ ⟨rfl, hnext⟩
    exact Mirrors.ite (fun _ => mirrors_pure rfl) fun _ => ih _ hnext

theorem mirrors_pathDepthCntAt (hparse : Mirrors (Parsed p') p p' (pathParseAt q) (pathParse (q.str p))) :
    Mirrors Eq p p' (pathDepthCntAt q) (pathDepthCnt (q.str p)) := by
  refine Mirrors.look (hparse.bind ?_)
  rintro ⟨name, ptr⟩ ⟨_, sub⟩ ⟨rfl, hnext⟩
  exact (mirrors_require _).bind fun _ _ _ => mirrors_pathDepthLoopAt _ _ hnext

/-- Counting the components of the caller's string stores a slash at its start. -/
theorem mirrors_pathDepthCntAt_caller (hne : p ≠ []) :
    Mirrors Eq p (slash :: p.tail) (pathDepthCntAt (.caller 0)) (pathDepthCnt p) := by
  cases p with
  | nil => exact absurd rfl hne
  | cons b bs =>
    -- `path_parse` does not look at the first byte
    have hparse : Mirrors (Parsed (slash :: bs)) (b :: bs) (slash :: bs) (pathParseAt (.caller 0))
        (pathParse (b :: bs)) := mirrors_pathParseAt_set (p := b :: bs) (k := 0)
    exact mirrors_pathDepthCntAt hparse

theorem mirrors_searchLoopAt (fuel : Nat) (st : SearchState) {ptr : Option StrPtr} {sub : Option CStr}
    (h : Points path ptr sub) :
    Mirrors Eq path path (searchLoopAt fuel st ptr) (searchLoop fuel { st with subPath := sub }) := by
  induction fuel generalizing st ptr sub with
  | zero => exact mirrors_stop
  | succ fuel ih =>
    apply Mirrors.ite
    · exact fun _ => mirrors_onFs
    · intro _
      refine (mirrors_assert _).bind fun _ _ _ => mirrors_onFs.bind ?_
      rintro found _ rfl
      cases found with
      | none => exact mirrors_pure rfl
      | some e =>
        refine (mirrors_pathNextAt h).bind ?_
        rintro ⟨name, ptr⟩ ⟨_, sub⟩ ⟨rfl, hnext⟩
        apply Mirrors.ite
        · intro _ s r c' hr
          obtain ⟨⟨v, dir⟩, ⟨s₁, _⟩, hfs, hrest⟩ := returns_bind.mp hr
          obtain ⟨hfs, rfl⟩ := returns_onFs.mp hfs
          simp only [returns_bind, returns_pure] at hfs
          obtain ⟨a, t, ha, _, u, hv, _, w, hclose, _, x, hopen, heq, rfl⟩ := hfs
          obtain ⟨rfl, rfl⟩ := Prod.mk.inj heq
          obtain ⟨b, hb, hloop, hpath⟩ := ih _ hnext hrest
          refine ⟨b, hb, ?_, hpath⟩
          simp only [returns_bind]
          exact ⟨a, t, ha, _, u, hv, _, w, hclose, _, x, hopen, hloop⟩
        · exact fun _ => Mirrors.ite (fun _ => mirrors_pure rfl) fun _ => ih _ hnext

theorem mirrors_searchFileAt : Mirrors Eq path path searchFileAt (searchFile path) := by
  apply Mirrors.look
  apply Mirrors.ite
  · exact fun _ => mirrors_pure rfl
  · intro _
    refine (mirrors_assert _).bind fun _ _ hassert => ?_
    refine (mirrors_pathParseAt (q := .caller 0) hassert.1).bind ?_
    rintro ⟨name, ptr⟩ ⟨_, sub⟩ ⟨rfl, hnext⟩
    exact mirrors_searchLoopAt _ _ hnext

/-- `sys_open` on the caller's string does what it does on the string's value.  A path that
    ends in a slash is turned down at once; in any other the first byte becomes a slash. -/
theorem mirrors_sysOpenAt {flags : Nat} :
    Mirrors Eq path (if path.getLast? = some slash then path else slash :: path.tail) (sysOpenAt flags)
      (sysOpen path flags) := by
  apply Mirrors.look
  refine (mirrors_require _).bind fun _ _ hne => ?_
  split
  · exact mirrors_pure rfl
  · refine (mirrors_assert _).bind fun _ _ _ => (mirrors_pathDepthCntAt_caller hne).bind ?_
    rintro depth _ rfl
    refine mirrors_searchFileAt.bind ?_
    rintro ⟨iNo, rec⟩ _ rfl
    apply Mirrors.ite
    · exact fun _ => mirrors_onFs
    · intro _
      refine (mirrors_pathDepthCntAt mirrors_pathParseAt_own).bind ?_
      rintro depth' _ rfl
      apply Mirrors.ite
      · exact fun _ => mirrors_onFs
      · intro _
        cases iNo with
        | none => exact Mirrors.ite (fun _ => Mirrors.look (Mirrors.checked mirrors_onFs)) fun _ => mirrors_onFs
        | some n => exact Mirrors.ite (fun _ => mirrors_onFs) fun _ => mirrors_onFs

/-! ## Path arguments are not written to -/

/-- `sys_open` leaves the caller's string as it is, and turns a relative path down without a
    trace. -/
def ReadsPathname (flags : Nat) (s : Fs) (path : CStr) : Prop :=
  (∀ r c', Returns (sysOpenAt flags) ⟨s, path⟩ r c' → c'.pathname = path) ∧
    (path.head? ≠ some slash → ∃ s', Returns (sysOpenAt flags) ⟨s, path⟩ (-1) ⟨s', path⟩ ∧ NoTrace s s')

/-- Whatever `sys_open` returns, this is the caller's string then. -/
theorem sysOpenAt_pathname {flags : Nat} {r : Int} (h : Returns (sysOpenAt flags) ⟨s, path⟩ r c') :
    c'.pathname = if path.getLast? = some slash then path else slash :: path.tail := by
  obtain ⟨_, -, -, hpath⟩ := mirrors_sysOpenAt h
  exact hpath

/-- A path that ends in a slash is turned down at once. -/
theorem sysOpenAt_of_last {flags : Nat} (hlast : path.getLast? = some slash) :
    Returns (sysOpenAt flags) ⟨s, path⟩ (-1) ⟨s, path⟩ := by
  have hne : path ≠ [] := by
    rintro rfl
    cases hlast
  refine returns_bind.mpr ⟨path, _, (returns_query _).mpr ⟨rfl, rfl⟩, ?_⟩
  refine returns_bind.mpr ⟨(), _, (returns_require _ _).mpr ⟨hne, rfl⟩, ?_⟩
  rw [if_pos hlast]
  exact returns_pure.mpr ⟨rfl, rfl⟩

theorem noTrace_refl : NoTrace s s := ⟨rfl, rfl, rfl, fun _ => rfl, rfl, rfl, rfl, rfl⟩

/-- `sys_open` treats its path as read-only, and turns relative paths down, exactly for the
    paths that begin with a slash, where the assignment in `path_parse` changes nothing, and
    for those that end in one, which it does not parse. -/
theorem open_reads_pathname_iff (flags : Nat) (s : Fs) (path : CStr) :
    ReadsPathname flags s path ↔ path.head? = some slash ∨ path.getLast? = some slash := by
  constructor
  · rintro ⟨hkept, hrelative⟩
    by_contra hnot
    rw [not_or] at hnot
    obtain ⟨hhead, hlast⟩ := hnot
    -- a relative path that is read gets a slash, and cannot have been turned down without
    obtain ⟨s', hr, -⟩ := hrelative hhead
    have hpath := sysOpenAt_pathname hr
    rw [if_neg hlast] at hpath
    exact hhead ((congrArg List.head? hpath).trans rfl)
  · rintro hor
    have hsame : (if path.getLast? = some slash then path else slash :: path.tail) = path := by
      split
      · rfl
      · next hlast =>
        have hhead := hor.resolve_right hlast
        exact List.cons_head?_tail hhead
    refine ⟨fun r c' hr => (sysOpenAt_pathname hr).trans hsame, fun hhead => ?_⟩
    exact ⟨s, sysOpenAt_of_last (hor.resolve_left hhead), noTrace_refl⟩

/-- `"xg"` becomes `"/g"`, and this file is opened. -/
theorem open_writes_pathname : (∃ fd c', Returns (sysOpenAt 0) ⟨SmallTree.fs, [120, 103]⟩ fd c' ∧ fd = 3 ∧
    c'.pathname = [47, 103]) ∧ ¬ ∀ flags s path, ReadsPathname flags s path := by
  have hrun : (sysOpenAt 0).checks ⟨SmallTree.fs, [120, 103]⟩ (fun fd c' => fd = 3 ∧ c'.pathname = [47, 103]) =
      true := by
    decide +kernel
  obtain ⟨fd, c', hret, hend⟩ := checks_eq_true.mp hrun
  obtain ⟨hfd, hpath⟩ := of_decide_eq_true hend
  refine ⟨⟨fd, c', hret, hfd, hpath⟩, fun h => ?_⟩
  have hkept := (h 0 SmallTree.fs [120, 103]).1 fd c' hret
  rw [hpath] at hkept
  cases hkept

end Caller

end ZxyOs
