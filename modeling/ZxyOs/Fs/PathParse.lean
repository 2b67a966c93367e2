/-
  ZxyOs.Fs.PathParse

  `path_parse` and `path_depth_cnt` (`fs/fs.c`) on the bytes of their string and of the
  array their names are stored in, and what the comparison of two depths says in
  `sys_open` and `sys_mkdir`.

  `path_parse` terminates no name: it stores the bytes of one component, and its callers
  clear the array before.  It says that the path is over in two ways, by `NULL` where the
  last component ends the string, and by an empty name where only slashes are left.
  Called again and again it delivers the components of an absolute path, whose first byte
  it overwrites with the slash that is there.

  `search_file` spells the components it has looked up into `searched_path`, so the two
  depths are equal just where it has looked all of them up.
-/

import ZxyOs.Lib.CString
import ZxyOs.Fs.Mkdir

namespace ZxyOs

open Lib Lib.Exec

/-! ## path_parse -/

/-- The copy loop of `path_parse`, from `p` to `store`. -/
def copyName : Nat → Bytes → Nat → Nat → Option (Nat × Bytes)
  | 0, _, _, _ => none
  | fuel + 1, mem, p, store =>
    if mem p ≠ slash ∧ mem p ≠ 0 then copyName fuel (Function.update mem store (mem p)) (p + 1) (store + 1)
    else some (p, mem)

/-- `path_parse`: the pointer it returns, 0 for `NULL`, and the memory. -/
def pathParseMem (mem : Bytes) (pathname nameStore : Nat) : Option (Nat × Bytes) := do
  -- `if (pathname[0] = '/')` assigns, and is always true
  let mem : Bytes := Function.update mem pathname slash
  let p ← mem.scan (· = slash) (2 ^ 32) (pathname + 1)
  let (p, mem) ← copyName (2 ^ 32) mem p nameStore
  return (if mem p = 0 then 0 else p, mem)

/-- `memset(name, 0, MAX_FILE_NAME_LEN)`. -/
def clearName (mem : Bytes) (name : Nat) : Bytes := mem.splice name 16 Bytes.zero

/-- The loop of `path_depth_cnt`. -/
def pathDepthLoopMem (name : Nat) : Nat → Bytes → Nat → Nat → Option (Nat × Bytes)
  | 0, _, _, _ => none
  | fuel + 1, mem, p, depth =>
    if mem name ≠ 0 then do
      let mem := clearName mem name
      let (p, mem) ← if p ≠ 0 then pathParseMem mem p name else some (p, mem)
      pathDepthLoopMem name fuel mem p (depth + 1)
    else
      some (depth, mem)

/-- `path_depth_cnt`, with its array at `name`, and the memory. -/
def pathDepthCntMem (mem : Bytes) (pathname name : Nat) : Option (Nat × Bytes) :=
  if pathname = 0 then none
  else do
    let (p, mem) ← pathParseMem mem pathname name
    pathDepthLoopMem name (2 ^ 32) mem p 0

/-- The string in an array of 16 bytes. -/
def storedName (mem : Bytes) (name : Nat) : CStr :=
  ((List.range 16).map fun k => mem (name + k)).takeWhile (· ≠ 0)

/-- `path_parse` called again and again on the pointer it has returned, the array cleared
    before each call, until there is no pointer or no name: the names, and the memory. -/
def parseAll (name : Nat) : Nat → Bytes → Nat → Option (List CStr × Bytes)
  | 0, _, _ => none
  | fuel + 1, mem, p =>
    if p = 0 then some ([], mem)
    else do
      let (p, mem) ← pathParseMem (clearName mem name) p name
      if mem name = 0 then some ([], mem)
      else do
        let (names, mem') ← parseAll name fuel mem p
        return (storedName mem name :: names, mem')

/-! ### One call -/

section Parse

variable {mem mem' : Bytes} {p q name store fuel : Nat} {path w back : CStr} {cs : List CStr}

/-- `mem'` is `mem` outside the 16 bytes at `name`. -/
def SameBeside (name : Nat) (mem mem' : Bytes) : Prop := ∀ a, (a < name ∨ name + 16 ≤ a) → mem' a = mem a

theorem SameBeside.trans {mem'' : Bytes} (h : SameBeside name mem mem') (h' : SameBeside name mem' mem'') :
    SameBeside name mem mem'' :=
  fun a ha => (h' a ha).trans (h a ha)

theorem sameBeside_clear : SameBeside name mem (clearName mem name) :=
  fun _ ha => Bytes.splice_outside (by omega)

theorem sameBeside_write (h : w.length < 16) : SameBeside name mem (mem.write name w) :=
  fun _ ha => Bytes.write_outside (by omega)

/-- The copy loop stores a component. -/
theorem copyName_eq (hstr : mem.IsStr p (w ++ back)) (hsep : slash ∉ w) (hback : back = [] ∨ ∃ r, back = slash :: r)
    (hapart : store + w.length ≤ p ∨ p + (w ++ back).length < store) (hfuel : w.length < fuel) :
    copyName fuel mem p store = some (p + w.length, mem.write store w) := by
  induction w generalizing mem p store fuel with
  | nil =>
    obtain ⟨fuel, rfl⟩ : ∃ n, fuel = n + 1 := ⟨fuel - 1, by simp at hfuel; omega⟩
    have hstop : ¬ (mem p ≠ slash ∧ mem p ≠ 0) := by
      rcases hback with rfl | ⟨r, rfl⟩
      · have hnul : mem p = 0 := hstr
        exact fun h => h.2 hnul
      · exact fun h => h.1 hstr.1.1
    rw [copyName, if_neg hstop]
    rfl
  | cons c w ih =>
    rw [List.length_cons] at hfuel
    rw [List.cons_append, List.length_cons, List.length_cons] at hapart
    obtain ⟨fuel, rfl⟩ : ∃ n, fuel = n + 1 := ⟨fuel - 1, by omega⟩
    rw [List.mem_cons, not_or] at hsep
    have hc : mem p = c := hstr.1.1
    have hgo : mem p ≠ slash ∧ mem p ≠ 0 := by
      rw [hc]
      exact ⟨Ne.symm hsep.1, hstr.1.2⟩
    -- the store leaves the rest of the string alone
    have htail : mem.IsStr (p + 1) (w ++ back) := hstr.2
    have hrest : Bytes.IsStr (Function.update mem store c) (p + 1) (w ++ back) :=
      htail.congr fun a ha ha' => Function.update_of_ne (by omega) _ _
    rw [copyName, if_pos hgo, hc, ih hrest hsep.2 (by omega) (by omega), List.length_cons, Bytes.write]
    rw [show p + 1 + w.length = p + (w.length + 1) by omega]

/-- `p` points to what is left of a path with the components `cs`, away from the array. -/
def PathRest (name : Nat) (mem : Bytes) (p : Nat) (cs : List CStr) : Prop :=
  p = 0 ∧ cs = [] ∨
    p ≠ 0 ∧ ∃ path, mem.IsStr p path ∧ path.head? = some slash ∧ components slash path = cs ∧
      (name + 16 ≤ p ∨ p + path.length < name) ∧ path.length < 2 ^ 32

theorem PathRest.congr (h : PathRest name mem p cs) (hmem : SameBeside name mem mem') : PathRest name mem' p cs := by
  rcases h with h | ⟨hp, path, hstr, hhead, hcs, hapart, hlen⟩
  · exact Or.inl h
  · exact Or.inr ⟨hp, path, hstr.congr fun a ha ha' => hmem a (by omega), hhead, hcs, hapart, hlen⟩

/-- One call stores the next component, if there is one, and points to what is behind it. -/
theorem PathRest.parse (h : PathRest name mem p cs) (hp : p ≠ 0) (hfit : HeadFits cs) :
    ∃ q, pathParseMem mem p name = some (q, mem.write name (cs.headD [])) ∧
      PathRest name (mem.write name (cs.headD [])) q cs.tail := by
  rcases h with ⟨h0, -⟩ | ⟨-, path, hstr, hhead, hcs, hapart, hlen⟩
  · exact absurd h0 hp
  cases path with
  | nil => cases hhead
  | cons c path =>
    obtain rfl : c = slash := Option.some.inj hhead
    obtain ⟨gap, w, back, hcut, hgap, hsep, hback, hempty, hcomp⟩ := @components_cut UInt8 slash _ path
    rw [components_sep_cons, hcomp] at hcs
    have hw : cs.headD [] = w := by
      rw [← hcs]
      split
      · next hnil => rw [hnil]; rfl
      · rfl
    have htail : cs.tail = components slash back := by
      rw [← hcs]
      split
      · next hnil => rw [hempty hnil]; rfl
      · rfl
    have hwlen : w.length < 16 := by
      cases cs with
      | nil => rw [← hw]; decide
      | cons d ds => rw [← hw]; exact hfit d rfl
    -- the first byte is a slash already
    have hassign : Function.update mem p slash = mem := by
      rw [← hstr.1.1, Function.update_eq_self]
    have hrest : mem.IsStr (p + 1) (gap ++ (w ++ back)) := hcut ▸ hstr.2
    have hafter : mem.IsStr (p + 1 + gap.length) (w ++ back) := hrest.rest
    have hlens : (slash :: path).length = 1 + gap.length + w.length + back.length := by
      rw [hcut]
      simp only [List.length_cons, List.length_append]
      omega
    rw [hlens] at hapart hlen
    have hstop : decide (mem (p + 1 + gap.length) = slash) = false := by
      rw [decide_eq_false_iff_not]
      intro heq
      cases w with
      | nil =>
        rw [hempty rfl] at hafter
        have hnul : mem (p + 1 + gap.length) = 0 := hafter
        rw [hnul] at heq
        cases heq
      | cons d w => exact hsep (by rw [← heq, hafter.1.1]; exact List.mem_cons_self)
    have hscan : mem.scan (· = slash) (2 ^ 32) (p + 1) = some (p + 1 + gap.length) :=
      Bytes.scan_eq (fun k hk => by
        rw [hrest.get k (by rw [List.length_append]; omega), List.getElem_append_left hk])
        (fun c hc => by simpa using hgap c hc) hstop (by omega)
    have hcopy : copyName (2 ^ 32) mem (p + 1 + gap.length) name = _ :=
      copyName_eq hafter hsep hback (by rw [List.length_append]; omega) (by omega)
    refine ⟨if mem.write name w (p + 1 + gap.length + w.length) = 0 then 0 else p + 1 + gap.length + w.length, ?_, ?_⟩
    · rw [pathParseMem, hassign, hw]
      simp only [hscan, hcopy, Option.bind_eq_bind, Option.bind_some]
      rfl
    · have hsame : (mem.write name w).IsStr (p + 1 + gap.length + w.length) back :=
        hafter.rest.congr fun a ha ha' => Bytes.write_outside (by omega)
      rw [hw, htail]
      rcases hback with rfl | ⟨r, rfl⟩
      · have hnul : mem.write name w (p + 1 + gap.length + w.length) = 0 := hsame
        rw [if_pos hnul]
        exact Or.inl ⟨rfl, rfl⟩
      · have hslash : mem.write name w (p + 1 + gap.length + w.length) = slash := hsame.1.1
        rw [if_neg (by rw [hslash]; decide)]
        refine Or.inr ⟨by omega, slash :: r, hsame, rfl, rfl, ?_, ?_⟩
        · rw [List.length_cons] at hapart ⊢
          omega
        · omega

theorem PathRest.clean (h : PathRest name mem p cs) : ∀ c ∈ cs, c ≠ [] ∧ (0 : UInt8) ∉ c := by
  rcases h with ⟨-, rfl⟩ | ⟨-, path, hstr, -, rfl, -, -⟩
  · exact nofun
  · intro c hc
    obtain ⟨hne, -, hin⟩ := mem_components hc
    exact ⟨hne, fun hmem => hstr.nonzero (hin.subset hmem)⟩

theorem PathRest.null (h : PathRest name mem p cs) (hp : p = 0) : cs = [] := by
  rcases h with ⟨-, rfl⟩ | ⟨hne, -⟩
  · rfl
  · exact absurd hp hne

/-- What one call has stored in a cleared array. -/
theorem storedName_write (hw : w.length < 16) (hnul : (0 : UInt8) ∉ w) :
    storedName ((clearName mem name).write name w) name = w := by
  have hsplit : ((List.range 16).map fun k => (clearName mem name).write name w (name + k))
      = w ++ List.replicate (16 - w.length) 0 := by
    refine List.ext_getElem (by simp; omega) fun k hk _ => ?_
    rw [List.getElem_map, List.getElem_range, List.getElem_append]
    rw [List.length_map, List.length_range] at hk
    split
    · next hin => exact Bytes.write_inside hin
    · next hout =>
      rw [Bytes.write_outside (by omega), List.getElem_replicate]
      exact Bytes.splice_inside (by omega) (by omega)
  rw [storedName, hsplit, List.takeWhile_append_of_pos fun c hc => by
    simpa using fun h0 : c = 0 => hnul (h0 ▸ hc)]
  rw [show 16 - w.length = 15 - w.length + 1 by omega, List.replicate_succ, List.takeWhile_cons_of_neg (by simp),
    List.append_nil]

/-- The first byte of the array after a call: zero where there was no component. -/
theorem write_headD (hcs : ∀ c ∈ cs, c ≠ [] ∧ (0 : UInt8) ∉ c) :
    (clearName mem name).write name (cs.headD []) name = 0 ↔ cs = [] := by
  cases cs with
  | nil => exact iff_of_true (Bytes.splice_inside (by omega) (by omega)) rfl
  | cons c cs =>
    obtain ⟨hne, hnul⟩ := hcs c List.mem_cons_self
    -- the byte is one of the component's, none of which is NUL
    refine iff_of_false (fun h0 => hnul ?_) (by simp)
    rw [List.headD_cons] at h0
    exact h0 ▸ Bytes.write_first_mem hne

/-- One call with the array cleared before. -/
theorem PathRest.next (h : PathRest name mem p cs) (hp : p ≠ 0) (hfit : HeadFits cs) :
    ∃ q mem', pathParseMem (clearName mem name) p name = some (q, mem') ∧ PathRest name mem' q cs.tail ∧
      SameBeside name mem mem' ∧ (mem' name = 0 ↔ cs = []) ∧ storedName mem' name = cs.headD [] := by
  obtain ⟨q, hcall, hrest⟩ := (h.congr sameBeside_clear).parse hp hfit
  have hlen : (cs.headD []).length < 16 := by
    cases cs with
    | nil => decide
    | cons c cs => exact hfit c rfl
  have hnul : (0 : UInt8) ∉ cs.headD [] := by
    cases cs with
    | nil => simp
    | cons c cs => exact (h.clean c List.mem_cons_self).2
  exact ⟨q, _, hcall, hrest, sameBeside_clear.trans (sameBeside_write hlen), write_headD h.clean,
    storedName_write hlen hnul⟩

/-! ### All calls -/

/-- The calls deliver the components. -/
theorem parseAll_eq (fuel : Nat) (h : PathRest name mem p cs) (hfit : AllFit cs) (hfuel : cs.length < fuel) :
    ∃ mem', parseAll name fuel mem p = some (cs, mem') ∧ SameBeside name mem mem' := by
  induction fuel generalizing mem p cs with
  | zero => exact absurd hfuel (Nat.not_lt_zero _)
  | succ fuel ih =>
    by_cases hp : p = 0
    · -- the string ended with the last component
      obtain rfl := h.null hp
      exact ⟨mem, by rw [parseAll, if_pos hp], fun _ _ => rfl⟩
    · obtain ⟨q, mem₁, hcall, hrest, hsame, hend, hname⟩ := h.next hp hfit.head
      cases cs with
      | nil =>
        -- only slashes were left
        refine ⟨mem₁, ?_, hsame⟩
        rw [parseAll, if_neg hp, hcall]
        simp only [Option.bind_eq_bind, Option.bind_some]
        rw [if_pos (hend.mpr rfl)]
      | cons c cs =>
        obtain ⟨mem', hloop, hsame'⟩ := ih hrest (allFit_cons.mp hfit).2 (by simpa using hfuel)
        refine ⟨mem', ?_, hsame.trans hsame'⟩
        have hgo : ¬ mem₁ name = 0 := fun h0 => by simpa using hend.mp h0
        rw [List.tail_cons] at hloop
        rw [parseAll, if_neg hp, hcall]
        simp only [Option.bind_eq_bind, Option.bind_some]
        rw [if_neg hgo, hloop, Option.bind_some, hname]
        rfl

/-- The loop counts the component in the array and those that are left. -/
theorem pathDepthLoopMem_eq (fuel depth : Nat) (h : PathRest name mem p cs) (hfit : AllFit cs) (hname : mem name ≠ 0)
    (hfuel : cs.length + 1 < fuel) :
    ∃ mem', pathDepthLoopMem name fuel mem p depth = some (depth + 1 + cs.length, mem') ∧ SameBeside name mem mem' := by
  -- the round that finds the array empty
  have hlast (fuel depth : Nat) {mem' : Bytes} {q : Nat} (hpos : 0 < fuel) (h0 : mem' name = 0) :
      pathDepthLoopMem name fuel mem' q depth = some (depth, mem') := by
    obtain ⟨fuel, rfl⟩ : ∃ n, fuel = n + 1 := ⟨fuel - 1, by omega⟩
    rw [pathDepthLoopMem, if_neg (not_not.mpr h0)]
  induction fuel generalizing mem p cs depth with
  | zero => exact absurd hfuel (Nat.not_lt_zero _)
  | succ fuel ih =>
    rw [pathDepthLoopMem, if_pos hname]
    by_cases hp : p = 0
    · obtain rfl := h.null hp
      refine ⟨clearName mem name, ?_, sameBeside_clear⟩
      simp only [Option.bind_eq_bind]
      rw [if_neg (not_not.mpr hp), Option.bind_some]
      exact hlast fuel (depth + 1) (by omega) (Bytes.splice_inside (by omega) (by omega))
    · obtain ⟨q, mem₁, hcall, hrest, hsame, hend, -⟩ := h.next hp hfit.head
      simp only [Option.bind_eq_bind]
      rw [if_pos hp, hcall, Option.bind_some]
      cases cs with
      | nil => exact ⟨mem₁, hlast fuel (depth + 1) (by omega) (hend.mpr rfl), hsame⟩
      | cons c cs =>
        have hgo : mem₁ name ≠ 0 := fun h0 => by simpa using hend.mp h0
        rw [List.length_cons] at hfuel
        obtain ⟨mem', hloop, hsame'⟩ := ih (depth + 1) hrest (allFit_cons.mp hfit).2 hgo (by
          rw [List.tail_cons]
          omega)
        refine ⟨mem', ?_, hsame.trans hsame'⟩
        rw [hloop, List.tail_cons, List.length_cons]
        congr 2
        omega

/-- The depth is the number of components, whatever the array holds at the start. -/
theorem pathDepthCntMem_eq (h : PathRest name mem p cs) (hne : cs ≠ []) (hfit : AllFit cs) (hlen : cs.length < 2 ^ 32 - 1) :
    ∃ mem', pathDepthCntMem mem p name = some (cs.length, mem') ∧ SameBeside name mem mem' := by
  have hp : p ≠ 0 := fun h0 => hne (h.null h0)
  obtain ⟨q, hcall, hrest⟩ := h.parse hp hfit.head
  cases cs with
  | nil => exact absurd rfl hne
  | cons c cs =>
    obtain ⟨hcne, hnul⟩ := h.clean c List.mem_cons_self
    have hgo : mem.write name c name ≠ 0 := fun h0 => hnul (h0 ▸ Bytes.write_first_mem hcne)
    rw [List.headD_cons, List.tail_cons] at *
    rw [List.length_cons] at hlen
    obtain ⟨mem', hloop, hsame⟩ := pathDepthLoopMem_eq (2 ^ 32) 0 hrest (allFit_cons.mp hfit).2 hgo (by omega)
    refine ⟨mem', ?_, (sameBeside_write ((allFit_cons.mp hfit).1)).trans hsame⟩
    rw [pathDepthCntMem, if_neg hp, hcall, Option.bind_eq_bind, Option.bind_some]
    dsimp only
    rw [hloop, List.length_cons]
    congr 2
    omega

end Parse

/-! ## What search_file has examined -/

/-- The loop of `search_file` with the names it has looked up so far. -/
def searchLoopSeen : Nat → SearchState → List CStr → FsM (List CStr × (Option Nat × PathSearchRecord))
  | 0, _, _ => stop .fault
  | fuel + 1, st, seen =>
    if st.name = [] then do
      dirClose st.parentDir
      let parent ← dirOpen st.parentDirInode
      let e ← deref st.dirE
      return (seen, (some e.iNo, { searchedPath := st.searchedPath, parentDir := parent, fType := ftDir }))
    else do
      assert (st.searchedPath.length < 512)
      let searched := st.searchedPath ++ slash :: st.name
      let found ← searchDirEntry st.parentDir st.name
      let seen := seen ++ [st.name]
      match found with
      | none =>
        return (seen, (none, { searchedPath := searched, parentDir := st.parentDir, fType := ftUnkown }))
      | some e =>
        let (name, subPath) ← pathNext st.subPath
        if e.fType = ftDir then
          let a ← dirInode st.parentDir
          let v ← getInode a
          dirClose st.parentDir
          let dir ← dirOpen e.iNo
          searchLoopSeen fuel
            { name := name, subPath := subPath, parentDir := dir, parentDirInode := v.iNo
              searchedPath := searched, dirE := some e } seen
        else if e.fType = ftRegular then
          return (seen, (some e.iNo, { searchedPath := searched, parentDir := st.parentDir, fType := ftRegular }))
        else
          searchLoopSeen fuel
            { st with name := name, subPath := subPath, searchedPath := searched
                      dirE := some e } seen

/-- `search_file` with the names it has looked up. -/
def searchFileSeen (pathname : CStr) : FsM (List CStr × (Option Nat × PathSearchRecord)) :=
  if pathname = [slash] ∨ pathname = slash :: dot ∨ pathname = slash :: dotDot then
    return ([], (some 0, { searchedPath := [], parentDir := .root, fType := ftDir }))
  else do
    assert (pathname.head? = some slash ∧ pathname.length ≥ 1 ∧ pathname.length < 512)
    let (name, subPath) ← pathParse pathname
    searchLoopSeen (pathname.length + 1)
      { name := name, subPath := subPath, parentDir := .root, parentDirInode := 0
        searchedPath := [], dirE := none } []

/-- `x` does what `y` does and keeps something beside its result. -/
def KeepsBeside {α β : Type} (x : FsM (α × β)) (y : FsM β) : Prop :=
  ∀ s b s', Returns y s b s' ↔ ∃ a, Returns x s (a, b) s'

section Seen

variable {s s' s₁ : Fs} {st : SearchState} {seen names cs : List CStr} {path : CStr} {r : Int} {flags m : Nat}
  {out : Option Nat × PathSearchRecord}

theorem keepsBeside_bind {α β γ : Type} {x : FsM γ} {f : γ → FsM (α × β)} {g : γ → FsM β}
    (h : ∀ c, KeepsBeside (f c) (g c)) : KeepsBeside (x >>= f) (x >>= g) := by
  intro s b s'
  rw [returns_bind]
  simp only [returns_bind]
  constructor
  · rintro ⟨c, t, hx, hg⟩
    obtain ⟨a, hf⟩ := (h c t b s').mp hg
    exact ⟨a, c, t, hx, hf⟩
  · rintro ⟨a, c, t, hx, hf⟩
    exact ⟨c, t, hx, (h c t b s').mpr ⟨a, hf⟩⟩

theorem keepsBeside_pure {α β : Type} (a : α) (b : β) : KeepsBeside (pure (a, b) : FsM (α × β)) (pure b) := by
  intro s b' s'
  simp only [returns_pure, Prod.mk.injEq]
  constructor
  · rintro ⟨hb, hs⟩
    exact ⟨a, ⟨rfl, hb⟩, hs⟩
  · rintro ⟨_, ⟨-, hb⟩, hs⟩
    exact ⟨hb, hs⟩

/-- Keeping the names changes nothing else. -/
theorem searchLoopSeen_keeps (fuel : Nat) : KeepsBeside (searchLoopSeen fuel st seen) (searchLoop fuel st) := by
  induction fuel generalizing st seen with
  | zero =>
    intro s b s'
    exact iff_of_false (returns_stop _) fun ⟨_, h⟩ => returns_stop _ h
  | succ fuel ih =>
    rw [searchLoop, searchLoopSeen]
    by_cases hname : st.name = []
    · rw [if_pos hname, if_pos hname]
      apply keepsBeside_bind fun _ => ?_
      apply keepsBeside_bind fun _ => ?_
      exact keepsBeside_bind fun _ => keepsBeside_pure _ _
    · rw [if_neg hname, if_neg hname]
      apply keepsBeside_bind fun _ => ?_
      apply keepsBeside_bind fun found => ?_
      cases found with
      | none => exact keepsBeside_pure _ _
      | some e =>
        apply keepsBeside_bind fun next => ?_
        obtain ⟨name, subPath⟩ := next
        dsimp only
        split
        · apply keepsBeside_bind fun _ => ?_
          apply keepsBeside_bind fun _ => ?_
          apply keepsBeside_bind fun _ => ?_
          exact keepsBeside_bind fun _ => ih
        · split
          · exact keepsBeside_pure _ _
          · exact ih

theorem searchFileSeen_keeps : KeepsBeside (searchFileSeen path) (searchFile path) := by
  rw [searchFile, searchFileSeen]
  split
  · exact keepsBeside_pure _ _
  · apply keepsBeside_bind fun _ => ?_
    exact keepsBeside_bind fun _ => searchLoopSeen_keeps _

/-- The loop looks up the components in order, spells those it has looked up, and has
    looked at least one up where it finds no directory. -/
theorem searchLoopSeen_names (cs : List CStr) (fuel : Nat) (hname : st.name = cs.headD []) (hrem : Remains cs.tail st.subPath)
    (hsearched : st.searchedPath = spell slash seen) (hcs : ∀ c ∈ cs, c ≠ [])
    (hrun : Returns (searchLoopSeen fuel st seen) s (names, out) s') :
    (∃ more, seen ++ cs = names ++ more) ∧ out.2.searchedPath = spell slash names ∧
      (out.1 = none ∨ out.2.fType ≠ ftDir → names ≠ []) := by
  induction fuel generalizing s st seen cs with
  | zero => exact absurd hrun (returns_stop _)
  | succ fuel ih =>
    rw [searchLoopSeen] at hrun
    cases cs with
    | nil =>
      have hnil : st.name = [] := hname
      rw [if_pos hnil] at hrun
      simp only [returns_bind, returns_pure, Prod.mk.injEq] at hrun
      obtain ⟨_, _, -, _, _, -, e, _, -, ⟨rfl, rfl⟩, -⟩ := hrun
      refine ⟨⟨[], rfl⟩, hsearched, ?_⟩
      rintro (h | h)
      · cases h
      · exact absurd rfl h
    | cons c cs =>
      have hc : st.name = c := hname
      have hne : st.name ≠ [] := by
        rw [hc]
        exact hcs c List.mem_cons_self
      have hspell : st.searchedPath ++ slash :: st.name = spell slash (seen ++ [c]) := by
        rw [hsearched, hc, spell_concat]
      have hall : seen ++ c :: cs = seen ++ [c] ++ cs := by simp
      -- the search ends here
      have hends {o : Option Nat} {p : DirPtr} {ty : Nat} {t : Fs} (h : Returns (pure (seen ++ [st.name],
          (o, { searchedPath := st.searchedPath ++ slash :: st.name, parentDir := p, fType := ty })) :
            FsM (List CStr × (Option Nat × PathSearchRecord))) t (names, out) s') :
          (∃ more, seen ++ c :: cs = names ++ more) ∧ out.2.searchedPath = spell slash names ∧
            (out.1 = none ∨ out.2.fType ≠ ftDir → names ≠ []) := by
        simp only [returns_pure, Prod.mk.injEq] at h
        obtain ⟨⟨rfl, rfl⟩, -⟩ := h
        rw [hc] at *
        exact ⟨⟨cs, hall⟩, hspell, fun _ => by simp⟩
      rw [if_neg hne] at hrun
      obtain ⟨_, _, -, hrun⟩ := returns_bind.mp hrun
      obtain ⟨found, t, -, hrun⟩ := returns_bind.mp hrun
      cases found with
      | none => exact hends hrun
      | some e =>
        obtain ⟨next, t', hnext, hrun⟩ := returns_bind.mp hrun
        obtain ⟨sub, hcut, hrest⟩ := pathNext_remains (s := t) hrem (headFits_of_pathNext hrem hnext)
        obtain ⟨rfl, rfl⟩ := hcut.unique hnext
        dsimp only at hrun
        have hstep {st' : SearchState} {t : Fs} (hname' : st'.name = cs.headD [])
            (hsub' : st'.subPath = sub) (hsearched' : st'.searchedPath = st.searchedPath ++ slash :: st.name)
            (h : Returns (searchLoopSeen fuel st' (seen ++ [st.name])) t (names, out) s') :
            (∃ more, seen ++ c :: cs = names ++ more) ∧ out.2.searchedPath = spell slash names ∧
              (out.1 = none ∨ out.2.fType ≠ ftDir → names ≠ []) := by
          rw [hall]
          rw [hc] at h
          exact ih cs hname' (by rw [hsub']; exact hrest) (hsearched'.trans hspell)
            (fun d hd => hcs d (List.mem_cons_of_mem _ hd)) h
        split at hrun
        · obtain ⟨_, _, -, hrun⟩ := returns_bind.mp hrun
          obtain ⟨_, _, -, hrun⟩ := returns_bind.mp hrun
          obtain ⟨_, _, -, hrun⟩ := returns_bind.mp hrun
          obtain ⟨_, _, -, hrun⟩ := returns_bind.mp hrun
          exact hstep rfl rfl rfl hrun
        · split at hrun
          · exact hends hrun
          · exact hstep rfl rfl rfl hrun

theorem searchFileSeen_names (habs : path.head? = some slash) (hrun : Returns (searchFileSeen path) s (names, out) s')
    (hbehind : out.1 = none ∨ out.2.fType ≠ ftDir) :
    (∃ more, components slash path = names ++ more) ∧ out.2.searchedPath = spell slash names ∧ names ≠ [] := by
  rw [searchFileSeen] at hrun
  split at hrun
  · -- the root and its dots: a directory is found
    simp only [returns_pure, Prod.mk.injEq] at hrun
    obtain ⟨⟨rfl, rfl⟩, -⟩ := hrun
    rcases hbehind with h | h
    · cases h
    · exact absurd rfl h
  · obtain ⟨_, _, -, hrun⟩ := returns_bind.mp hrun
    obtain ⟨next, t, hnext, hrun⟩ := returns_bind.mp hrun
    obtain ⟨-, rfl, rfl⟩ := (returns_pathParse_abs habs).mp hnext
    obtain ⟨hmore, hspelled, hne⟩ := searchLoopSeen_names (components slash path) _ rfl
      (remains_restOf (components_tail habs)) rfl (fun c hc => (mem_components hc).1) hrun
    exact ⟨hmore, hspelled, hne hbehind⟩

/-! ## The comparison of the depths -/

/-- `sys_open` where the depths agree: the last component is created or opened. -/
def openLast (path : CStr) (flags : Nat) (out : Option Nat × PathSearchRecord) : FsM Int :=
  match out.1 with
  | none =>
    if creating flags then do
      let fd ← fileCreate out.2.parentDir (lastName path) flags
      dirClose out.2.parentDir
      return fd
    else do
      dirClose out.2.parentDir
      return -1
  | some inodeNo =>
    if creating flags then do
      dirClose out.2.parentDir
      return -1
    else
      fileOpen inodeNo flags

/-- `sys_open` where the depths differ. -/
def openGivesUp (out : Option Nat × PathSearchRecord) : FsM Int := do
  dirClose out.2.parentDir
  return -1

/-- `sys_mkdir` where the depths agree: the last component is made. -/
def mkdirLast (ioBuf : Option Nat) (out : Option Nat × PathSearchRecord) : FsM Int := do
  let iNo ← inodeBitmapAlloc
  match iNo with
  | none =>
    dirClose out.2.parentDir
    sysFree ioBuf
    return -1
  | some iNo => mkdirInstall out.2 ioBuf iNo

/-- `sys_mkdir` where the depths differ. -/
def mkdirGivesUp (ioBuf : Option Nat) (out : Option Nat × PathSearchRecord) : FsM Int := do
  dirClose out.2.parentDir
  sysFree ioBuf
  return -1

/-- The depths of the path and of what was searched are equal just where every component
    was looked up. -/
theorem depths_compare (habs : path.head? = some slash) (hne : components slash path ≠ [])
    (hfit : AllFit (components slash path)) (hrun : Returns (searchFileSeen path) s (names, out) s₁)
    (hbehind : out.1 = none ∨ out.2.fType ≠ ftDir) :
    Returns (pathDepthCnt path) s (components slash path).length s ∧
      Returns (pathDepthCnt path) s₁ (components slash path).length s₁ ∧
      Returns (pathDepthCnt out.2.searchedPath) s₁ names.length s₁ ∧
      ((components slash path).length = names.length ↔ names = components slash path) := by
  obtain ⟨⟨more, hmore⟩, hspelled, hnames⟩ := searchFileSeen_names habs hrun hbehind
  have hfirst : AllFit names := fun c hc => hfit c (by
    rw [hmore]
    exact List.mem_append_left _ hc)
  refine ⟨(pathDepthCnt_iff habs hne).mpr ⟨hfit, rfl, rfl⟩, (pathDepthCnt_iff habs hne).mpr ⟨hfit, rfl, rfl⟩,
    (depth_searched hspelled hmore hnames).mpr ⟨hfirst, rfl, rfl⟩, ?_⟩
  rw [hmore, List.length_append]
  constructor
  · intro hlen
    have hnil : more = [] := List.eq_nil_of_length_eq_zero (by omega)
    rw [hnil, List.append_nil]
  · intro heq
    have hlen := congrArg List.length heq
    rw [List.length_append] at hlen
    exact hlen.symm

theorem sysOpen_compares (habs : path.head? = some slash) (hne : components slash path ≠ [])
    (hfit : AllFit (components slash path)) (hrun : Returns (searchFileSeen path) s (names, out) s₁)
    (hlast : path.getLast? ≠ some slash) (hflags : flags ≤ 7) (hfile : out.2.fType ≠ ftDir) :
    Returns (sysOpen path flags) s r s' ↔
      Returns (if names = components slash path then openLast path flags out else openGivesUp out) s₁ r s' := by
  obtain ⟨hdepth, -, hdepth', heq⟩ := depths_compare habs hne hfit hrun (Or.inr hfile)
  have hsearch : Returns (searchFile path) s out s₁ := (searchFileSeen_keeps s out s₁).mpr ⟨names, hrun⟩
  have hnil : path ≠ [] := by
    rintro rfl
    cases habs
  have hpath : slash :: path.tail = path := by
    cases path with
    | nil => exact absurd rfl hnil
    | cons c path =>
      obtain rfl : c = slash := Option.some.inj habs
      rfl
  have hstart : Returns (require (path ≠ [])) s () s := (returns_require _ _).mpr ⟨hnil, rfl⟩
  have hassert : Returns (assert (flags ≤ 7)) s () s := (returns_assert _ ()).mpr ⟨hflags, rfl⟩
  rw [sysOpen, returns_bind_iff hstart, if_neg hlast, returns_bind_iff hassert, returns_bind_iff hdepth, hpath,
    returns_bind_iff hsearch]
  obtain ⟨iNo, record⟩ := out
  dsimp only at hfile hdepth' ⊢
  rw [if_neg hfile, returns_bind_iff hdepth']
  by_cases hall : names = components slash path
  · rw [if_pos hall, if_neg (not_not.mpr (heq.mpr hall))]
    rfl
  · rw [if_neg hall, if_pos fun h => hall (heq.mp h)]
    rfl

theorem sysMkdir_compares {s₀ : Fs} (habs : path.head? = some slash) (hne : components slash path ≠ [])
    (hfit : AllFit (components slash path)) (hmalloc : Returns sysMalloc s (some m) s₀)
    (hrun : Returns (searchFileSeen path) s₀ (names, out) s₁) (hnone : out.1 = none) :
    Returns (sysMkdir path) s r s' ↔
      Returns (if names = components slash path then mkdirLast (some m) out else mkdirGivesUp (some m) out) s₁ r s' := by
  obtain ⟨-, hdepth, hdepth', heq⟩ := depths_compare habs hne hfit hrun (Or.inl hnone)
  have hsearch : Returns (searchFile path) s₀ out s₁ := (searchFileSeen_keeps s₀ out s₁).mpr ⟨names, hrun⟩
  rw [returns_sysMkdir hmalloc hsearch, mkdirSearched, if_neg (not_not.mpr hnone), returns_bind_iff hdepth,
    returns_bind_iff hdepth']
  by_cases hall : names = components slash path
  · rw [if_pos hall, if_neg (not_not.mpr (heq.mpr hall))]
    rfl
  · rw [if_neg hall, if_pos fun h => hall (heq.mp h)]
    rfl

/-- The string `path` is at `p`, and the array for names at `name` is apart from it. -/
structure PathAt (mem : Bytes) (p name : Nat) (path : CStr) : Prop where
  str : mem.IsStr p path
  notNull : p ≠ 0
  apart : name + 16 ≤ p ∨ p + path.length < name
  short : path.length < 2 ^ 32

theorem PathAt.pathRest {mem : Bytes} {p name : Nat} (h : PathAt mem p name path) (habs : path.head? = some slash) :
    PathRest name mem p (components slash path) :=
  Or.inr ⟨h.notNull, path, h.str, habs, rfl, h.apart, h.short⟩

/-- Every component takes a byte and a slash, so that the count fits an `int32_t`. -/
theorem components_length_le (habs : path.head? = some slash) : 2 * (components slash path).length ≤ path.length := by
  have hspell (cs : List CStr) (hcs : ∀ c ∈ cs, c ≠ []) : 2 * cs.length ≤ (spell slash cs).length := by
    induction cs with
    | nil => exact le_rfl
    | cons c cs ih =>
      have hrest := ih fun d hd => hcs d (List.mem_cons_of_mem _ hd)
      have hpos := List.length_pos_of_ne_nil (hcs c List.mem_cons_self)
      rw [spell_cons, List.length_append, List.length_cons, List.length_cons]
      omega
  have hcs := hspell (components slash path) fun c hc => (mem_components hc).1
  have hle := @spell_components_length_le UInt8 slash path.tail _
  have hpos : 0 < path.length := List.length_pos_of_ne_nil fun h => by rw [h] at habs; cases habs
  rw [components_tail habs, List.length_tail] at hle
  omega

/-- On an absolute path with a component, all of them shorter than 16 bytes: called again
    and again `path_parse` delivers its components, `path_depth_cnt` counts them, and
    neither changes the string; and `sys_open` and `sys_mkdir` find the two depths equal
    just where the search has looked up every component. -/
theorem path_parse_enumerates (path : CStr) (habs : path.head? = some slash) (hne : components slash path ≠ [])
    (hfit : ∀ c ∈ components slash path, c.length < 16) :
    (∀ mem p name, PathAt mem p name path →
      (∃ mem', parseAll name (2 ^ 32) mem p = some (components slash path, mem') ∧ mem'.IsStr p path) ∧
      ∃ mem', pathDepthCntMem mem p name = some ((components slash path).length, mem') ∧ mem'.IsStr p path) ∧
    (∀ s names out s₁ flags r s', Returns (searchFileSeen path) s (names, out) s₁ →
      path.getLast? ≠ some slash → flags ≤ 7 → out.2.fType ≠ ftDir →
      (Returns (sysOpen path flags) s r s' ↔
        Returns (if names = components slash path then openLast path flags out else openGivesUp out) s₁ r s')) ∧
    ∀ s m s₀ names out s₁ r s', Returns sysMalloc s (some m) s₀ →
      Returns (searchFileSeen path) s₀ (names, out) s₁ → out.1 = none →
      (Returns (sysMkdir path) s r s' ↔
        Returns (if names = components slash path then mkdirLast (some m) out else mkdirGivesUp (some m) out) s₁ r s') := by
  refine ⟨fun mem p name hat => ?_, fun s names out s₁ flags r s' hrun hlast hflags hfile =>
    sysOpen_compares habs hne hfit hrun hlast hflags hfile, fun s m s₀ names out s₁ r s' hmalloc hrun hnone =>
    sysMkdir_compares habs hne hfit hmalloc hrun hnone⟩
  have hsame {mem' : Bytes} (h : SameBeside name mem mem') : mem'.IsStr p path :=
    hat.str.congr fun a ha ha' => h a (by have := hat.apart; omega)
  have hrest := hat.pathRest habs
  have hlen := components_length_le habs
  have hshort := hat.short
  obtain ⟨mem₁, hall, hsame₁⟩ := parseAll_eq (2 ^ 32) hrest hfit (by omega)
  obtain ⟨mem₂, hdepth, hsame₂⟩ := pathDepthCntMem_eq hrest hne hfit (by omega)
  exact ⟨⟨mem₁, hall, hsame hsame₁⟩, mem₂, hdepth, hsame hsame₂⟩

end Seen

/-! ## A small path -/

namespace DoubleSlash

/-- `"/x//y"`. -/
def path : CStr := [47, 120, 47, 47, 121]

/-- The path at address 100. -/
def mem : Bytes := Bytes.zero.write 100 path

theorem pathAt : PathAt mem 100 200 path where
  str := Bytes.isStr_write (by decide) rfl
  notNull := by decide
  apart := by decide
  short := by decide

/-- Neither name is there: the search ends with the first one, a file that is not found. -/
def Fails (r : List CStr × (Option Nat × PathSearchRecord)) : Prop :=
  r.1 = [[120]] ∧ r.2.1 = none ∧ r.2.2.fType = ftUnkown

instance (r : List CStr × (Option Nat × PathSearchRecord)) : Decidable (Fails r) :=
  inferInstanceAs (Decidable (_ ∧ _ ∧ _))

theorem search : ∃ r s', Returns (searchFileSeen path) SmallTree.fs r s' ∧ Fails r := by
  have hrun : (searchFileSeen path).checks SmallTree.fs (fun r _ => Fails r) = true := by decide +kernel
  obtain ⟨r, s', hrun, hr⟩ := checks_eq_true.mp hrun
  exact ⟨r, s', hrun, of_decide_eq_true hr⟩

theorem search_buffered : ∃ m s₀ r s', Returns sysMalloc SmallTree.fs (some m) s₀ ∧
    Returns (searchFileSeen path) s₀ r s' ∧ Fails r := by
  have hrun : (sysMalloc >>= fun m => searchFileSeen path >>= fun r => pure (m, r)).checks SmallTree.fs
      (fun p _ => p.1 ≠ none ∧ Fails p.2) = true := by
    decide +kernel
  obtain ⟨p, s', hrun, hp⟩ := checks_eq_true.mp hrun
  obtain ⟨m, s₀, hmalloc, hrun⟩ := returns_bind.mp hrun
  obtain ⟨r, s₁, hsearch, hpure⟩ := returns_bind.mp hrun
  obtain ⟨rfl, rfl⟩ := returns_pure.mp hpure
  obtain ⟨hm, hr⟩ := of_decide_eq_true hp
  obtain ⟨a, rfl⟩ := Option.ne_none_iff_exists'.mp hm
  exact ⟨a, s₀, r, _, hmalloc, hsearch, hr⟩

/-- The two components come out and are counted, and in the small tree both calls give up
    behind the first of them. -/
theorem path_parse_enumerates_small :
    ((∃ mem', parseAll 200 (2 ^ 32) mem 100 = some ([[120], [121]], mem') ∧ mem'.IsStr 100 path) ∧
      ∃ mem', pathDepthCntMem mem 100 200 = some (2, mem') ∧ mem'.IsStr 100 path) ∧
    (∃ names out s₁, Returns (searchFileSeen path) SmallTree.fs (names, out) s₁ ∧ names = [[120]] ∧
      ∀ r s', Returns (sysOpen path 0) SmallTree.fs r s' ↔ Returns (openGivesUp out) s₁ r s') ∧
    ∃ m s₀ names out s₁, Returns sysMalloc SmallTree.fs (some m) s₀ ∧
      Returns (searchFileSeen path) s₀ (names, out) s₁ ∧ names = [[120]] ∧
      ∀ r s', Returns (sysMkdir path) SmallTree.fs r s' ↔ Returns (mkdirGivesUp (some m) out) s₁ r s' := by
  have hcs : components slash path = [[120], [121]] := by decide
  obtain ⟨hparse, hopen, hmkdir⟩ := path_parse_enumerates path rfl (by decide) (by decide)
  rw [hcs] at hparse hopen hmkdir
  refine ⟨hparse mem 100 200 pathAt, ?_, ?_⟩
  · obtain ⟨⟨names, out⟩, s₁, hrun, rfl, -, hty⟩ := search
    refine ⟨[[120]], out, s₁, hrun, rfl, fun r s' => ?_⟩
    exact hopen _ _ _ _ 0 r s' hrun (by decide) (by decide) (by rw [hty]; decide)
  · obtain ⟨m, s₀, ⟨names, out⟩, s₁, hmalloc, hrun, rfl, hnone, -⟩ := search_buffered
    refine ⟨m, s₀, [[120]], out, s₁, hmalloc, hrun, rfl, fun r s' => ?_⟩
    exact hmkdir _ m s₀ _ _ _ r s' hmalloc hrun hnone

end DoubleSlash

end ZxyOs
