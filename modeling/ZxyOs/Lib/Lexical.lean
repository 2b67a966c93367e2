/-
  ZxyOs.Lib.Lexical

  Lexical normalisation of a path.

  The components of a path are put on a stack from left to right; the name of the directory
  itself is left out and the name of the parent takes one component off again.  The stack
  never holds one of the two (`mem_lexical`), so normalising again changes nothing
  (`lexical_of_plain`).  `rooted` writes a stack as a path from the root.
-/

import ZxyOs.Lib.Paths

namespace ZxyOs.Lib

section Lexical

variable {Name : Type} [DecidableEq Name] {here up : Name} {st cs : List Name}

def lexStep (here up : Name) (st : List Name) (c : Name) : List Name :=
  if c = up then st.dropLast else if c = here then st else st ++ [c]

/-- The stack `st` once the components `cs` have been gone through. -/
def lexical (here up : Name) (st cs : List Name) : List Name := cs.foldl (lexStep here up) st

@[simp] theorem lexical_nil : lexical here up st [] = st := rfl

@[simp] theorem lexical_cons {c : Name} :
    lexical here up st (c :: cs) = lexical here up (lexStep here up st c) cs := rfl

theorem lexical_append {ds : List Name} :
    lexical here up st (cs ++ ds) = lexical here up (lexical here up st cs) ds :=
  List.foldl_append

/-- Components that are neither of the two names just go on the stack. -/
theorem lexical_of_plain (h : ∀ c ∈ cs, c ≠ here ∧ c ≠ up) : lexical here up st cs = st ++ cs := by
  induction cs generalizing st with
  | nil => exact (List.append_nil st).symm
  | cons c cs ih =>
    obtain ⟨hhere, hup⟩ := h c List.mem_cons_self
    rw [lexical_cons, lexStep, if_neg hup, if_neg hhere, ih fun d hd => h d (List.mem_cons_of_mem _ hd),
      List.append_assoc]
    rfl

theorem mem_lexStep {c d : Name} (h : d ∈ lexStep here up st c) : d ∈ st ∨ d = c ∧ c ≠ here ∧ c ≠ up := by
  unfold lexStep at h
  split at h
  · exact Or.inl ((List.dropLast_sublist st).subset h)
  · next hup =>
    split at h
    · exact Or.inl h
    · next hhere =>
      rcases List.mem_append.mp h with h | h
      · exact Or.inl h
      · exact Or.inr ⟨List.mem_singleton.mp h, hhere, hup⟩

theorem mem_lexical {d : Name} (h : d ∈ lexical here up st cs) : d ∈ st ∨ d ∈ cs ∧ d ≠ here ∧ d ≠ up := by
  induction cs generalizing st with
  | nil => exact Or.inl h
  | cons c cs ih =>
    rcases ih h with hst | ⟨hcs, hne⟩
    · rcases mem_lexStep hst with hst | ⟨rfl, hne⟩
      · exact Or.inl hst
      · exact Or.inr ⟨List.mem_cons_self, hne⟩
    · exact Or.inr ⟨List.mem_cons_of_mem _ hcs, hne⟩

end Lexical

section Rooted

variable {α : Type} {sep : α} {cs : List (List α)}

/-- The path from the root with these components. -/
def rooted (sep : α) (cs : List (List α)) : List α := if cs = [] then [sep] else spell sep cs

theorem rooted_nil : rooted sep [] = [sep] := rfl

theorem rooted_of_ne (h : cs ≠ []) : rooted sep cs = spell sep cs := if_neg h

theorem spell_eq_nil : spell sep cs = [] ↔ cs = [] := by
  cases cs with
  | nil => simp
  | cons c cs => simp

theorem spell_concat {c : List α} : spell sep (cs ++ [c]) = spell sep cs ++ sep :: c := by
  rw [spell_append, spell_cons, spell_nil, List.append_nil]

theorem rooted_concat {c : List α} : rooted sep (cs ++ [c]) = spell sep cs ++ sep :: c := by
  rw [rooted_of_ne (by simp), spell_concat]

theorem head?_rooted : (rooted sep cs).head? = some sep := by
  cases cs with
  | nil => rfl
  | cons c cs => rfl

theorem rooted_eq_root (h : ∀ c ∈ cs, c ≠ []) : rooted sep cs = [sep] ↔ cs = [] := by
  constructor
  · intro heq
    by_contra hne
    obtain ⟨ds, d, rfl⟩ : ∃ ds d, cs = ds ++ [d] := ⟨_, _, (List.dropLast_append_getLast hne).symm⟩
    have hlen := congrArg List.length heq
    have hd := List.length_pos_of_ne_nil (h d (by simp))
    rw [rooted_concat] at hlen
    simp only [List.length_append, List.length_cons, List.length_nil] at hlen
    omega
  · rintro rfl
    rfl

theorem components_rooted [DecidableEq α] (h : ∀ c ∈ cs, c ≠ [] ∧ sep ∉ c) : components sep (rooted sep cs) = cs := by
  by_cases hnil : cs = []
  · subst hnil
    rw [rooted_nil, components_sep_cons, components_nil]
  · rw [rooted_of_ne hnil, components_spell h]

/-- A path behind a directory adds its components. -/
theorem components_spell_append [DecidableEq α] {p : List α} (h : ∀ c ∈ cs, c ≠ [] ∧ sep ∉ c) :
    components sep (spell sep cs ++ sep :: p) = cs ++ components sep p := by
  induction cs with
  | nil => rw [spell_nil, List.nil_append, components_sep_cons, List.nil_append]
  | cons c cs ih =>
    obtain ⟨hne, hsep⟩ := h c List.mem_cons_self
    have hrest : ∃ r, spell sep cs ++ sep :: p = sep :: r := by
      cases cs with
      | nil => exact ⟨p, rfl⟩
      | cons d ds => exact ⟨_, rfl⟩
    rw [spell_cons, List.cons_append, List.cons_append, components_sep_cons, List.append_assoc,
      components_append hne hsep (Or.inr hrest), ih fun d hd => h d (List.mem_cons_of_mem _ hd),
      List.cons_append]

/-- A component less takes no more room. -/
theorem spell_dropLast_length_le : (spell sep cs.dropLast).length ≤ (spell sep cs).length := by
  rcases List.eq_nil_or_concat cs with rfl | ⟨ds, d, rfl⟩
  · exact Nat.le_refl _
  · rw [List.concat_eq_append, List.dropLast_concat, spell_concat, List.length_append]
    exact Nat.le_add_right _ _

/-- The stack takes no more room than what has gone through it. -/
theorem spell_lexical_length_le [DecidableEq α] {here up : List α} {st : List (List α)} :
    (spell sep (lexical here up st cs)).length ≤ (spell sep st).length + (spell sep cs).length := by
  induction cs generalizing st with
  | nil => simp
  | cons c cs ih =>
    have hstep : (spell sep (lexStep here up st c)).length ≤ (spell sep st).length + (c.length + 1) := by
      unfold lexStep
      split
      · have := @spell_dropLast_length_le α sep st
        omega
      · split
        · omega
        · rw [spell_concat, List.length_append, List.length_cons]
    have hrest := @ih (lexStep here up st c)
    rw [lexical_cons, spell_cons, List.length_append, List.length_cons]
    omega

end Rooted

end ZxyOs.Lib
