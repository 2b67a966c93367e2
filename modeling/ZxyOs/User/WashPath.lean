/-
  ZxyOs.User.WashPath

  `wash_path` of the shell normalises a path lexically.

  The stack of components is kept inside the output string: `washName` is one step of
  `lexStep` on the path that spells the stack (`washName_rooted`), and the loop is the whole
  of `lexical` (`washLoop_returns`).  What `make_clear_abs_path` washes for a relative path is
  the working directory with the path behind it (`components_absPath`).
-/

import ZxyOs.Lib.Lexical
import ZxyOs.Fs.Getcwd
import ZxyOs.Fs.NameBuffers

namespace ZxyOs

open Lib Lib.Exec

/-- What `make_clear_abs_path` hands to `wash_path`, where `getcwd` has stored `cwd`. -/
def absPath (cwd path : CStr) : CStr :=
  if path.head? = some slash then path
  else (if cwd = [slash] then cwd else cwd ++ [slash]) ++ path

/-! ## A component -/

/-- Stacks as `wash_path` keeps them. -/
def IsStack (st : List CStr) : Prop := ∀ c ∈ st, c ≠ [] ∧ slash ∉ c

variable {path name : CStr} {st cs : List CStr} {ptr : Option StrPtr} {s : Fs} {k : Nat}

theorem upOne_rooted (h : IsStack st) : upOne (rooted slash st) = rooted slash st.dropLast := by
  rcases List.eq_nil_or_concat st with rfl | ⟨ds, d, rfl⟩
  · decide
  · rw [List.concat_eq_append] at h ⊢
    have hd := h d (by simp)
    rw [List.dropLast_concat, rooted_concat, upOne, lastName_concat hd.2]
    have hcut : (spell slash ds ++ slash :: d).length - d.length - 1 = (spell slash ds).length := by
      rw [List.length_append, List.length_cons]
      omega
    simp only [hcut, List.take_left', spell_eq_nil]
    rfl

/-- Taking in a component is a step on the stack. -/
theorem washName_rooted (h : IsStack st) :
    washName (rooted slash st) name = rooted slash (lexStep dot dotDot st name) := by
  unfold washName lexStep
  split
  · exact upOne_rooted h
  · split
    · rfl
    · have hroot := @rooted_eq_root UInt8 slash _ fun c hc => (h c hc).1
      rw [rooted_concat]
      by_cases hnil : st = []
      · subst hnil
        rfl
      · rw [if_neg (mt hroot.mp hnil), rooted_of_ne hnil, List.append_assoc]
        rfl

theorem IsStack.step (h : IsStack st) (hne : name ≠ []) (hslash : slash ∉ name) :
    IsStack (lexStep dot dotDot st name) := by
  intro c hc
  rcases mem_lexStep hc with hc | ⟨rfl, -⟩
  · exact h c hc
  · exact ⟨hne, hslash⟩

/-! ## The loop -/

/-- The pointer is at what is left of the path, or there is nothing left. -/
def LeftAt (path : CStr) (ptr : Option StrPtr) (rest : CStr) : Prop :=
  (ptr = none ∧ rest = []) ∨
    ∃ k, ptr = some (.caller k) ∧ rest = path.drop k ∧ rest.head? = some slash

/-- `path_parse` at a slash cuts off the first component, which fits. -/
theorem pathParseAt_returns (hhead : (path.drop k).head? = some slash)
    (hshort : (firstName (path.drop k)).length < 16) :
    ∃ ptr, Returns (pathParseAt (.caller k)) ⟨s, path⟩ (firstName (path.drop k), ptr) ⟨s, path⟩ ∧
      LeftAt path ptr (restOf (path.drop k)) := by
  have hne : path.drop k ≠ [] := by
    intro hnil
    rw [hnil] at hhead
    cases hhead
  have hparse : Returns (parseName (path.drop k)) ⟨s, path⟩
      (firstName (path.drop k), if restOf (path.drop k) = [] then none else some (restOf (path.drop k)))
      ⟨s, path⟩ := by
    refine returns_bind.mpr ⟨(), _, (returns_fits _ _).mpr ⟨hshort, rfl⟩, returns_onFs.mpr ⟨?_, rfl⟩⟩
    exact returns_pathParse.mpr ⟨hne, hshort, rfl, rfl⟩
  refine ⟨(if restOf (path.drop k) = [] then none else some (restOf (path.drop k))).map fun r =>
    .caller (path.length - r.length), ?_, ?_⟩
  · simp only [pathParseAt, returns_bind, returns_update, returns_query]
    rw [set_slash hhead]
    exact ⟨(), _, rfl, path, _, ⟨rfl, rfl⟩, _, _, hparse, rfl⟩
  · by_cases hrest : restOf (path.drop k) = []
    · exact Or.inl ⟨by rw [if_pos hrest]; rfl, hrest⟩
    · right
      have hdrop := drop_length_sub
        (restOf_suffix.trans ((List.tail_suffix (path.drop k)).trans (List.drop_suffix k path)))
      exact ⟨_, by rw [if_neg hrest]; rfl, hdrop.symm, head?_restOf hrest⟩

/-- The components of a path that begins with a slash. -/
theorem components_of_head {p : CStr} (hhead : p.head? = some slash) :
    components slash p = if firstName p = [] then [] else firstName p :: components slash (restOf p) := by
  rw [← components_tail hhead]
  split
  · next hnil => exact components_eq_nil hnil
  · next hne => exact components_eq_cons hne

theorem slash_notMem_firstName {p : CStr} : slash ∉ firstName p := by
  intro hmem
  simpa using List.mem_takeWhile_imp hmem

theorem washLoop_end {fuel : Nat} {newAbsPath : CStr} :
    Returns (washLoop (fuel + 1) [] ptr newAbsPath) ⟨s, path⟩ newAbsPath ⟨s, path⟩ := by
  rw [washLoop, if_pos rfl]
  exact returns_pure.mpr ⟨rfl, rfl⟩

theorem restOf_length_lt {p : CStr} (hhead : p.head? = some slash) : (restOf p).length < p.length := by
  cases p with
  | nil => cases hhead
  | cons b bs => exact Nat.lt_succ_of_le restOf_suffix.length_le

/-- The loop with a component in hand: the stack takes in this one and those that are left. -/
theorem washLoop_returns {fuel : Nat} {rest : CStr} (hst : IsStack st) (hne : name ≠ []) (hslash : slash ∉ name)
    (hleft : LeftAt path ptr rest) (hshort : ∀ w ∈ components slash rest, w.length < 16)
    (hfuel : rest.length + 1 < fuel) :
    Returns (washLoop fuel name ptr (rooted slash st)) ⟨s, path⟩
      (rooted slash (lexical dot dotDot st (name :: components slash rest))) ⟨s, path⟩ := by
  induction fuel generalizing name ptr rest st with
  | zero => omega
  | succ fuel ih =>
    obtain ⟨fuel, rfl⟩ := Nat.exists_eq_succ_of_ne_zero (by omega : fuel ≠ 0)
    rw [washLoop, if_neg hne, lexical_cons, returns_bind, washName_rooted hst]
    rcases hleft with ⟨rfl, rfl⟩ | ⟨k, rfl, rfl, hhead⟩
    · -- the last component
      exact ⟨([], none), ⟨s, path⟩, returns_pure.mpr ⟨rfl, rfl⟩, washLoop_end⟩
    · rw [components_of_head hhead] at hshort ⊢
      by_cases hnil : firstName (path.drop k) = []
      · -- nothing but slashes is left
        obtain ⟨ptr, hparse, -⟩ := pathParseAt_returns (s := s) hhead (by rw [hnil]; exact Nat.zero_lt_succ _)
        refine ⟨_, _, hparse, ?_⟩
        rw [hnil, if_pos rfl]
        exact washLoop_end
      · rw [if_neg hnil] at hshort ⊢
        obtain ⟨ptr, hparse, hleft⟩ := pathParseAt_returns (s := s) hhead (hshort _ List.mem_cons_self)
        have hlt := restOf_length_lt hhead
        exact ⟨_, _, hparse, ih (hst.step hne hslash) hnil slash_notMem_firstName hleft
          (fun w hw => hshort w (List.mem_cons_of_mem _ hw)) (by omega)⟩

/-- `wash_path` writes the stack that its components leave. -/
theorem washPath_returns (hhead : path.head? = some slash)
    (hshort : ∀ w ∈ components slash path, w.length < 16) :
    Returns washPath ⟨s, path⟩ (rooted slash (lexical dot dotDot [] (components slash path))) ⟨s, path⟩ := by
  have hquery : Returns (query Caller.pathname) ⟨s, path⟩ path ⟨s, path⟩ := (returns_query _).mpr ⟨rfl, rfl⟩
  have hassert : Returns (assert (path.head? = some slash)) (⟨s, path⟩ : Caller) () ⟨s, path⟩ :=
    (returns_assert _ _).mpr ⟨hhead, rfl⟩
  rw [washPath, returns_bind_iff hquery, returns_bind_iff hassert, returns_bind]
  rw [components_of_head hhead] at hshort ⊢
  by_cases hnil : firstName path = []
  · obtain ⟨ptr, hparse, -⟩ := pathParseAt_returns (s := s) (k := 0) hhead
      (by rw [List.drop_zero, hnil]; exact Nat.zero_lt_succ _)
    refine ⟨_, _, hparse, ?_⟩
    rw [List.drop_zero]
    simp only [hnil, if_true]
    exact returns_pure.mpr ⟨rfl, rfl⟩
  · rw [if_neg hnil] at hshort ⊢
    obtain ⟨ptr, hparse, hleft⟩ := pathParseAt_returns (s := s) (k := 0) hhead
      (hshort _ List.mem_cons_self)
    rw [List.drop_zero] at hparse hleft
    have hlt := restOf_length_lt hhead
    refine ⟨_, _, hparse, ?_⟩
    simp only [hnil, if_false]
    exact @washLoop_returns _ _ [] _ _ _ _ nofun hnil slash_notMem_firstName hleft
      (fun w hw => hshort w (List.mem_cons_of_mem _ hw)) (by omega)

/-! ## Washed paths -/

/-- The stack a path leaves holds neither an empty component nor one of the two names. -/
theorem mem_washed {c : CStr} (hst : ∀ d ∈ st, d ≠ [] ∧ slash ∉ d ∧ Downward d)
    (hcs : ∀ d ∈ cs, d ≠ [] ∧ slash ∉ d) (hc : c ∈ lexical dot dotDot st cs) :
    c ≠ [] ∧ slash ∉ c ∧ Downward c := by
  rcases mem_lexical hc with hc | ⟨hc, hdown⟩
  · exact hst c hc
  · exact ⟨(hcs c hc).1, (hcs c hc).2, hdown⟩

theorem washed_rooted (h : ∀ c ∈ cs, c ≠ [] ∧ slash ∉ c ∧ Downward c) : Washed (rooted slash cs) := by
  by_cases hnil : cs = []
  · exact Or.inl (if_pos hnil)
  · exact Or.inr ⟨cs, hnil, rooted_of_ne hnil, h⟩

/-- The components of a washed path, and what they spell. -/
theorem Washed.eq_rooted {p : CStr} (h : Washed p) :
    (∀ c ∈ Lib.components slash p, c ≠ [] ∧ slash ∉ c ∧ Downward c) ∧
      p = rooted slash (Lib.components slash p) := by
  obtain ⟨hcs, hp⟩ := h.components
  exact ⟨fun c hc => ⟨(mem_components hc).1, (hcs c hc).2, (hcs c hc).1⟩, hp⟩

/-- Going through the components of a washed path puts them all on the stack. -/
theorem lexical_of_washed (h : ∀ c ∈ cs, c ≠ [] ∧ slash ∉ c ∧ Downward c) :
    lexical dot dotDot [] cs = cs := by
  rw [lexical_of_plain fun c hc => (h c hc).2.2, List.nil_append]

/-- The stack a path leaves takes no more room than the path. -/
theorem rooted_lexical_length_le (hhead : path.head? = some slash) :
    (rooted slash (lexical dot dotDot [] (components slash path))).length ≤ path.length := by
  cases path with
  | nil => cases hhead
  | cons b bs =>
    obtain rfl : b = slash := Option.some.inj hhead
    rw [components_sep_cons]
    have hstack := @spell_lexical_length_le UInt8 slash (components slash bs) _ dot dotDot []
    have hspell := @spell_components_length_le UInt8 slash bs _
    unfold rooted
    split
    · simp
    · rw [spell_nil, List.length_nil] at hstack
      rw [List.length_cons]
      omega

/-- The components of what `make_clear_abs_path` washes for a relative path. -/
theorem components_absPath {cwd p : CStr} (hcwd : Washed cwd) (hrel : p.head? ≠ some slash) :
    components slash (absPath cwd p) = components slash cwd ++ components slash p := by
  obtain ⟨hcs, heq⟩ := hcwd.eq_rooted
  have hroot := @rooted_eq_root UInt8 slash _ fun c hc => (hcs c hc).1
  rw [← heq] at hroot
  rw [absPath, if_neg hrel]
  by_cases hnil : components slash cwd = []
  · rw [if_pos (hroot.mpr hnil), hroot.mpr hnil, List.singleton_append, components_sep_cons]
    rfl
  · have hspell : cwd = spell slash (components slash cwd) := by
      rw [rooted_of_ne hnil] at heq
      exact heq
    rw [if_neg (mt hroot.mp hnil), List.append_assoc, List.singleton_append]
    conv_lhs => rw [hspell]
    exact components_spell_append fun c hc => ⟨(hcs c hc).1, (hcs c hc).2.1⟩

theorem head?_absPath {cwd p : CStr} (hcwd : Washed cwd) : (absPath cwd p).head? = some slash := by
  unfold absPath
  split
  · assumption
  · have hhead := hcwd.head
    cases cwd with
    | nil => cases hhead
    | cons b bs => split <;> exact hhead

/-- What `wash_path` makes of a path. -/
def washedPath (path : CStr) : CStr := rooted slash (lexical dot dotDot [] (components slash path))

/-- The components of a path fit `name`. -/
def FitsName (path : CStr) : Prop := ∀ w ∈ components slash path, w.length < 16

instance (path : CStr) : Decidable (FitsName path) :=
  inferInstanceAs (Decidable (∀ w ∈ components slash path, w.length < 16))

/-- `wash_path` normalises every absolute path whose components fit: it writes the stack its
    components leave, which is a washed path no longer than the one it was given and washed to
    itself.  For a relative path and a washed working directory, it resolves the path against the
    directory. -/
theorem washPath_lexical :
    (∀ path : CStr, path.head? = some slash → FitsName path →
      (∀ s, Returns washPath ⟨s, path⟩ (washedPath path) ⟨s, path⟩) ∧
      Washed (washedPath path) ∧ (washedPath path).length ≤ path.length ∧
      ∀ s, Returns washPath ⟨s, washedPath path⟩ (washedPath path) ⟨s, washedPath path⟩) ∧
    ∀ cwd p : CStr, Washed cwd → p.head? ≠ some slash → FitsName cwd → FitsName p →
      ∀ s, Returns washPath ⟨s, absPath cwd p⟩
        (rooted slash (lexical dot dotDot (components slash cwd) (components slash p))) ⟨s, absPath cwd p⟩ := by
  constructor
  · intro path hhead hshort
    have hstack : ∀ c ∈ lexical dot dotDot [] (components slash path), c ≠ [] ∧ slash ∉ c ∧ Downward c :=
      fun c hc => mem_washed (by simp) (fun d hd => ⟨(mem_components hd).1, (mem_components hd).2.1⟩) hc
    have hcs : components slash (washedPath path) = lexical dot dotDot [] (components slash path) :=
      components_rooted fun c hc => ⟨(hstack c hc).1, (hstack c hc).2.1⟩
    refine ⟨fun s => washPath_returns hhead hshort, washed_rooted hstack, rooted_lexical_length_le hhead, ?_⟩
    intro s
    have hshort' : FitsName (washedPath path) := by
      intro w hw
      rw [hcs] at hw
      rcases mem_lexical hw with hw | ⟨hw, -⟩
      · cases hw
      · exact hshort w hw
    have hsame : washedPath (washedPath path) = washedPath path := by
      rw [washedPath, hcs, lexical_of_washed hstack]
      rfl
    have hagain : Returns washPath ⟨s, washedPath path⟩ (washedPath (washedPath path)) ⟨s, washedPath path⟩ :=
      washPath_returns head?_rooted hshort'
    rw [hsame] at hagain
    exact hagain
  · intro cwd p hcwd hrel hfits hfits' s
    have hcs := components_absPath hcwd hrel
    have hwash := washPath_returns (s := s) (head?_absPath (p := p) hcwd) (by
      intro w hw
      rw [hcs] at hw
      rcases List.mem_append.mp hw with hw | hw
      · exact hfits w hw
      · exact hfits' w hw)
    rw [hcs, lexical_append, lexical_of_washed hcwd.eq_rooted.1] at hwash
    exact hwash

/-- `"//a/./b/../c"` is washed to `"/a/c"`, and `"../x"` in the directory `"/a"` to `"/x"`. -/
theorem washPath_lexical_sample :
    (Returns washPath ⟨sampleFs, [47, 47, 97, 47, 46, 47, 98, 47, 46, 46, 47, 99]⟩ [47, 97, 47, 99]
      ⟨sampleFs, [47, 47, 97, 47, 46, 47, 98, 47, 46, 46, 47, 99]⟩) ∧
    Returns washPath ⟨sampleFs, [47, 97, 47, 46, 46, 47, 120]⟩ [47, 120]
      ⟨sampleFs, [47, 97, 47, 46, 46, 47, 120]⟩ := by
  constructor
  · exact (washPath_lexical.1 [47, 47, 97, 47, 46, 47, 98, 47, 46, 46, 47, 99] rfl (by decide)).1 sampleFs
  · exact washPath_lexical.2 [47, 97] [46, 46, 47, 120] (Or.inr ⟨[[97]], by decide, rfl, by decide⟩)
      (by decide) (by decide) (by decide) sampleFs

end ZxyOs
