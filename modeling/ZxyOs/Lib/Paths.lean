/-
  ZxyOs.Lib.Paths

  Paths in a naming graph.

  A path is a string cut at a separator; its components are the pieces that are not empty.
  A naming graph says what a name stands for in a directory, and walking a path follows
  its components until a file or a missing name ends the walk.

  In a tree no directory is entered twice, and the root nowhere, so the path by which a
  directory is reached is determined by the directory (`Tree.walk_unique`).  This is what
  makes climbing from a directory to the root spell its path.
-/

import Mathlib.Data.List.Basic
import Mathlib.Data.List.Induction
import Mathlib.Data.List.TakeWhile

namespace ZxyOs.Lib

/-! ## Components -/

section Components

variable {α : Type} {sep : α} {p w rest : List α} {cs : List (List α)}

/-- The path with a separator in front of every component. -/
def spell (sep : α) (cs : List (List α)) : List α := cs.flatMap (sep :: ·)

@[simp] theorem spell_nil : spell sep [] = [] := rfl

@[simp] theorem spell_cons : spell sep (w :: cs) = sep :: w ++ spell sep cs := rfl

theorem spell_append {ds : List (List α)} : spell sep (cs ++ ds) = spell sep cs ++ spell sep ds :=
  List.flatMap_append

variable [DecidableEq α]

/-- The non-empty pieces between the separators of a path. -/
def components (sep : α) (p : List α) : List (List α) := (p.splitOn sep).filter (!·.isEmpty)

@[simp] theorem components_nil : components sep [] = [] := rfl

@[simp] theorem components_sep_cons : components sep (sep :: p) = components sep p := by
  have hsplit : ([] ++ sep :: p).splitOn sep = [] :: p.splitOn sep :=
    List.splitOn_append_cons_self_of_not_mem (by simp) p
  rw [List.nil_append] at hsplit
  rw [components, hsplit]
  rfl

/-- Leading separators do not count. -/
theorem components_dropWhile : components sep (p.dropWhile (· = sep)) = components sep p := by
  induction p with
  | nil => rfl
  | cons c p ih =>
    by_cases hc : c = sep
    · rw [List.dropWhile_cons_of_pos (by simpa using hc), ih, hc, components_sep_cons]
    · rw [List.dropWhile_cons_of_neg (by simpa using hc)]

/-- A word up to the end of the path or the next separator is a component. -/
theorem components_append (hw : w ≠ []) (hsep : sep ∉ w) (hrest : rest = [] ∨ ∃ r, rest = sep :: r) :
    components sep (w ++ rest) = w :: components sep rest := by
  have hkeep (l : List (List α)) : (w :: l).filter (!·.isEmpty) = w :: l.filter (!·.isEmpty) :=
    List.filter_cons_of_pos (by simpa using hw)
  rcases hrest with rfl | ⟨r, rfl⟩
  · rw [List.append_nil, components, List.splitOn_eq_singleton hsep, hkeep]
    rfl
  · rw [components, List.splitOn_append_cons_self_of_not_mem hsep, hkeep, components_sep_cons]
    rfl

/-- What is left of a path begins with a separator once a word has been cut off. -/
theorem dropWhile_ne_eq (p : List α) :
    p.dropWhile (· ≠ sep) = [] ∨ ∃ r, p.dropWhile (· ≠ sep) = sep :: r := by
  induction p with
  | nil => exact Or.inl rfl
  | cons c p ih =>
    by_cases hc : c = sep
    · refine Or.inr ⟨p, ?_⟩
      rw [List.dropWhile_cons_of_neg (by simpa using hc), hc]
    · rw [List.dropWhile_cons_of_pos (by simpa using hc)]
      exact ih

/-- Cutting off the first component. -/
theorem components_eq_cons (hw : (p.dropWhile (· = sep)).takeWhile (· ≠ sep) ≠ []) :
    components sep p = (p.dropWhile (· = sep)).takeWhile (· ≠ sep) ::
      components sep ((p.dropWhile (· = sep)).dropWhile (· ≠ sep)) := by
  have hsep : sep ∉ (p.dropWhile (· = sep)).takeWhile (· ≠ sep) := by
    intro hmem
    simpa using List.mem_takeWhile_imp hmem
  rw [← components_append hw hsep (dropWhile_ne_eq _), List.takeWhile_append_dropWhile,
    components_dropWhile]

/-- A path from which no component can be cut has none. -/
theorem components_eq_nil (hw : (p.dropWhile (· = sep)).takeWhile (· ≠ sep) = []) :
    components sep p = [] := by
  rw [← components_dropWhile]
  cases hq : p.dropWhile (· = sep) with
  | nil => rfl
  | cons c q =>
    -- the first character that is left is not a separator
    have hc : c ≠ sep := by
      have hhead := List.head_dropWhile_not (fun x => decide (x = sep)) (l := p) (by rw [hq]; simp)
      simp only [hq, List.head_cons] at hhead
      simpa using hhead
    rw [hq, List.takeWhile_cons_of_pos (by simpa using hc)] at hw
    cases hw

/-- A path cut at its first component: separators, the component, and what is behind it. -/
theorem components_cut (p : List α) : ∃ gap w back, p = gap ++ (w ++ back) ∧ (∀ c ∈ gap, c = sep) ∧ sep ∉ w ∧
    (back = [] ∨ ∃ r, back = sep :: r) ∧ (w = [] → back = []) ∧
    components sep p = if w = [] then [] else w :: components sep back := by
  refine ⟨p.takeWhile (· = sep), (p.dropWhile (· = sep)).takeWhile (· ≠ sep),
    (p.dropWhile (· = sep)).dropWhile (· ≠ sep), ?_, ?_, ?_, dropWhile_ne_eq _, ?_, ?_⟩
  · rw [List.takeWhile_append_dropWhile, List.takeWhile_append_dropWhile]
  · exact fun c hc => by simpa using List.mem_takeWhile_imp hc
  · exact fun hmem => by simpa using List.mem_takeWhile_imp hmem
  · intro hw
    -- the first character that is left would be in the component
    have hall := List.takeWhile_append_dropWhile (p := fun x => decide (x ≠ sep)) (l := p.dropWhile (· = sep))
    rw [hw, List.nil_append] at hall
    rcases dropWhile_ne_eq (p.dropWhile (· = sep)) with hback | ⟨r, hback⟩
    · exact hback
    · rw [hback] at hall
      have hhead := List.head_dropWhile_not (fun x => decide (x = sep)) (l := p) (by rw [← hall]; simp)
      simp [← hall] at hhead
  · split
    · next hw => exact components_eq_nil hw
    · next hw => exact components_eq_cons hw

/-- Spelling the components of a path takes no more room than the path. -/
theorem spell_components_length_le : (spell sep (components sep p)).length ≤ p.length + 1 := by
  induction hn : p.length using Nat.strong_induction_on generalizing p with
  | _ n ih =>
    by_cases hw : (p.dropWhile (· = sep)).takeWhile (· ≠ sep) = []
    · rw [components_eq_nil hw]
      exact Nat.zero_le _
    · rw [components_eq_cons hw, spell_cons, List.length_append, List.length_cons]
      have hsum := congrArg List.length
        (List.takeWhile_append_dropWhile (p := fun x => decide (x ≠ sep)) (l := p.dropWhile (· = sep)))
      have hle := (List.dropWhile_suffix (fun x => decide (x = sep)) (l := p)).length_le
      have hpos := List.length_pos_of_ne_nil hw
      rw [List.length_append] at hsum
      rcases dropWhile_ne_eq (p.dropWhile (· = sep)) with hrest | ⟨r, hrest⟩
      · rw [hrest, components_nil, spell_nil, List.length_nil]
        omega
      · rw [hrest, List.length_cons] at hsum
        have hr := ih r.length (by omega) rfl
        rw [hrest, components_sep_cons]
        omega

/-- Every component is a piece of the path without separators. -/
theorem mem_components (h : w ∈ components sep p) : w ≠ [] ∧ sep ∉ w ∧ w <:+: p := by
  induction hn : p.length using Nat.strong_induction_on generalizing p with
  | _ n ih =>
    by_cases hw : (p.dropWhile (· = sep)).takeWhile (· ≠ sep) = []
    · rw [components_eq_nil hw] at h
      cases h
    · rw [components_eq_cons hw, List.mem_cons] at h
      have hsuffix := List.dropWhile_suffix (fun x => decide (x = sep)) (l := p)
      rcases h with rfl | h
      · refine ⟨hw, fun hmem => by simpa using List.mem_takeWhile_imp hmem, ?_⟩
        exact (List.takeWhile_prefix _).isInfix.trans hsuffix.isInfix
      · have hlt : ((p.dropWhile (· = sep)).dropWhile (· ≠ sep)).length < n := by
          have hsum := congrArg List.length
            (List.takeWhile_append_dropWhile (p := fun x => decide (x ≠ sep)) (l := p.dropWhile (· = sep)))
          have hpos := List.length_pos_of_ne_nil hw
          have hle := hsuffix.length_le
          rw [List.length_append] at hsum
          omega
        obtain ⟨hne, hsep, hin⟩ := ih _ hlt h rfl
        exact ⟨hne, hsep, hin.trans ((List.dropWhile_suffix _).isInfix.trans hsuffix.isInfix)⟩

/-- Components that are spelled are read back. -/
theorem components_spell (h : ∀ w ∈ cs, w ≠ [] ∧ sep ∉ w) : components sep (spell sep cs) = cs := by
  induction cs with
  | nil => rfl
  | cons w cs ih =>
    have hrest : spell sep cs = [] ∨ ∃ r, spell sep cs = sep :: r := by
      cases cs with
      | nil => exact Or.inl rfl
      | cons v vs => exact Or.inr ⟨_, rfl⟩
    obtain ⟨hne, hsep⟩ := h w List.mem_cons_self
    rw [spell_cons, List.cons_append, components_sep_cons, components_append hne hsep hrest,
      ih fun v hv => h v (List.mem_cons_of_mem _ hv)]

/-- What follows the last separator is a component. -/
theorem mem_components_last {q : List α} (hne : w ≠ []) (hsep : sep ∉ w) : w ∈ components sep (q ++ sep :: w) := by
  induction hn : q.length using Nat.strong_induction_on generalizing q with
  | _ n ih =>
    by_cases hu : q.takeWhile (· ≠ sep) = []
    · cases q with
      | nil =>
        have hword := components_append hne hsep (Or.inl rfl)
        rw [List.append_nil] at hword
        rw [List.nil_append, components_sep_cons, hword]
        exact List.mem_cons_self
      | cons b q =>
        -- the path begins with a separator
        have hb : b = sep := by
          by_contra hb
          rw [List.takeWhile_cons_of_pos (by simpa using hb)] at hu
          cases hu
        rw [hb, List.cons_append, components_sep_cons]
        exact ih q.length (by simp [← hn]) rfl
    · have hclean : sep ∉ q.takeWhile (· ≠ sep) := by
        intro hmem
        simpa using List.mem_takeWhile_imp hmem
      have hsplit := List.takeWhile_append_dropWhile (p := fun x => decide (x ≠ sep)) (l := q)
      have hlen := congrArg List.length hsplit
      have hpos := List.length_pos_of_ne_nil hu
      rw [List.length_append] at hlen
      rw [← hsplit, List.append_assoc]
      rcases dropWhile_ne_eq q with hrest | ⟨r, hrest⟩
      · have hword := components_append hu hclean (Or.inr ⟨w, rfl⟩)
        rw [hrest, List.nil_append, hword]
        exact List.mem_cons_of_mem _ (ih 0 (by omega) (q := []) rfl)
      · have hword := @components_append _ _ _ (sep :: r ++ sep :: w) _ hu hclean (Or.inr ⟨_, rfl⟩)
        rw [hrest, List.length_cons] at hlen
        rw [hrest, hword, List.cons_append, components_sep_cons]
        exact List.mem_cons_of_mem _ (ih r.length (by omega) rfl)

end Components

/-! ## Naming graphs -/

/-- What a name stands for: a directory, in which the walk can go on, or a file. -/
inductive Child (Node : Type) where
  | dir (n : Node)
  | file (n : Node)

/-- What each name stands for in each directory. -/
abbrev Naming (Node Name : Type) := Node → Name → Option (Child Node)

/-- Where a walk ends: in a directory, at a file with names left over, or nowhere. -/
inductive Found (Node Name : Type) where
  | dir (n : Node)
  | file (n : Node) (rest : List Name)
  | absent

/-- Where a walk stops: what it has come to, `none` for a missing name; the directory in which it
    was looked up; the names that have been looked up, and those that have not. -/
structure Arrival (Node Name : Type) where
  found : Option (Child Node)
  above : Node
  seen : List Name
  rest : List Name

section Walk

variable {Node Name : Type} {look : Naming Node Name} {i j n : Node} {c : Name} {cs ds : List Name}

/-- Follow a list of names from a directory. -/
def walk (look : Naming Node Name) : Node → List Name → Found Node Name
  | i, [] => .dir i
  | i, c :: cs =>
    match look i c with
    | none => .absent
    | some (.file n) => .file n cs
    | some (.dir n) => walk look n cs

@[simp] theorem walk_nil : walk look i [] = .dir i := rfl

theorem walk_cons_dir (h : look i c = some (.dir n)) : walk look i (c :: cs) = walk look n cs := by
  rw [walk, h]

theorem walk_cons_file (h : look i c = some (.file n)) : walk look i (c :: cs) = .file n cs := by
  rw [walk, h]

theorem walk_cons_none (h : look i c = none) : walk look i (c :: cs) = .absent := by
  rw [walk, h]

/-- A walk that reaches a directory takes a step at a time. -/
theorem walk_cons_eq_dir : walk look i (c :: cs) = .dir n ↔ ∃ j, look i c = some (.dir j) ∧ walk look j cs = .dir n := by
  rw [walk]
  cases look i c with
  | none => simp
  | some child => cases child <;> simp

theorem walk_append_eq_dir :
    walk look i (cs ++ ds) = .dir n ↔ ∃ j, walk look i cs = .dir j ∧ walk look j ds = .dir n := by
  induction cs generalizing i with
  | nil => simp
  | cons c cs ih =>
    rw [List.cons_append, walk_cons_eq_dir]
    constructor
    · rintro ⟨j, hj, hwalk⟩
      obtain ⟨k, hk, hrest⟩ := ih.mp hwalk
      exact ⟨k, walk_cons_eq_dir.mpr ⟨j, hj, hk⟩, hrest⟩
    · rintro ⟨k, hk, hrest⟩
      obtain ⟨j, hj, hwalk⟩ := walk_cons_eq_dir.mp hk
      exact ⟨j, hj, ih.mpr ⟨k, hwalk, hrest⟩⟩

theorem walk_concat_eq_dir :
    walk look i (cs ++ [c]) = .dir n ↔ ∃ j, walk look i cs = .dir j ∧ look j c = some (.dir n) := by
  rw [walk_append_eq_dir]
  refine exists_congr fun j => and_congr_right fun _ => ?_
  rw [walk_cons_eq_dir]
  simp

/-- Follow a list of names from directory `i`, which was entered from `above` after the names
    `seen`. -/
def arrive (look : Naming Node Name) : Node → Node → List Name → List Name → Arrival Node Name
  | above, i, seen, [] => ⟨some (.dir i), above, seen, []⟩
  | _, i, seen, c :: cs =>
    match look i c with
    | none => ⟨none, i, seen ++ [c], cs⟩
    | some (.file n) => ⟨some (.file n), i, seen ++ [c], cs⟩
    | some (.dir n) => arrive look i n (seen ++ [c]) cs

section Arrive

variable {above : Node} {seen : List Name}

@[simp] theorem arrive_nil : arrive look above i seen [] = ⟨some (.dir i), above, seen, []⟩ := rfl

theorem arrive_cons_none (h : look i c = none) : arrive look above i seen (c :: cs) = ⟨none, i, seen ++ [c], cs⟩ := by
  rw [arrive, h]

theorem arrive_cons_file (h : look i c = some (.file n)) :
    arrive look above i seen (c :: cs) = ⟨some (.file n), i, seen ++ [c], cs⟩ := by
  rw [arrive, h]

theorem arrive_cons_dir (h : look i c = some (.dir n)) :
    arrive look above i seen (c :: cs) = arrive look i n (seen ++ [c]) cs := by
  rw [arrive, h]

/-- A walk adds to the names that have been looked up, and by one at least where it fails. -/
theorem arrive_seen : ∃ more, (arrive look above i seen cs).seen = seen ++ more ∧
    more ++ (arrive look above i seen cs).rest = cs ∧ ((arrive look above i seen cs).found = none → more ≠ []) := by
  induction cs generalizing above i seen with
  | nil => exact ⟨[], (List.append_nil _).symm, rfl, nofun⟩
  | cons c cs ih =>
    cases hlook : look i c with
    | none =>
      rw [arrive_cons_none hlook]
      exact ⟨[c], rfl, rfl, fun _ => by simp⟩
    | some child =>
      cases child with
      | file n =>
        rw [arrive_cons_file hlook]
        exact ⟨[c], rfl, rfl, nofun⟩
      | dir n =>
        rw [arrive_cons_dir hlook]
        obtain ⟨more, hseen, hrest, -⟩ := ih (i := n)
        refine ⟨c :: more, ?_, ?_, fun _ => by simp⟩
        · rw [hseen, List.append_assoc]
          rfl
        · rw [List.cons_append, hrest]

/-- A walk arrives at a directory where following the names ends in it. -/
theorem arrive_found_dir : (arrive look above i seen cs).found = some (.dir n) ↔ walk look i cs = .dir n := by
  induction cs generalizing above i seen with
  | nil => simp
  | cons c cs ih =>
    cases hlook : look i c with
    | none => simp [arrive_cons_none hlook, walk_cons_none hlook]
    | some child =>
      cases child with
      | file m => simp [arrive_cons_file hlook, walk_cons_file hlook]
      | dir m => rw [arrive_cons_dir hlook, walk_cons_dir hlook, ih]

/-- A walk that has used up its names ends with what the last of them stands for. -/
theorem arrive_last (hne : cs ≠ []) (hrest : (arrive look above i seen cs).rest = []) (c : Name) :
    look (arrive look above i seen cs).above (cs.getLastD c) = (arrive look above i seen cs).found := by
  induction cs generalizing above i seen with
  | nil => exact absurd rfl hne
  | cons d cs ih =>
    cases hlook : look i d with
    | none =>
      rw [arrive_cons_none hlook] at hrest ⊢
      obtain rfl : cs = [] := hrest
      exact hlook
    | some child =>
      cases child with
      | file n =>
        rw [arrive_cons_file hlook] at hrest ⊢
        obtain rfl : cs = [] := hrest
        exact hlook
      | dir n =>
        rw [arrive_cons_dir hlook] at hrest ⊢
        cases cs with
        | nil => exact hlook
        | cons d' cs => exact ih (by simp) hrest

end Arrive

/-- What the names that lead downwards (`Down`) form a tree of directories with: no
    directory is entered twice and the root nowhere. -/
structure Tree (look : Naming Node Name) (Dir : Node → Prop) (Down : Name → Prop) (root : Node) : Prop where
  top : Dir root
  closed : ∀ {i c n}, Dir i → look i c = some (.dir n) → Dir n
  once : ∀ {i j c d n}, Dir i → Dir j → Down c → Down d → look i c = some (.dir n) →
    look j d = some (.dir n) → i = j ∧ c = d
  above : ∀ {i c}, Dir i → Down c → look i c ≠ some (.dir root)

namespace Tree

variable {Dir : Node → Prop} {Down : Name → Prop} {root : Node}

theorem dir_walk (h : Tree look Dir Down root) (hi : Dir i) (hwalk : walk look i cs = .dir n) : Dir n := by
  induction cs generalizing i with
  | nil =>
    obtain rfl : i = n := by simpa using hwalk
    exact hi
  | cons c cs ih =>
    obtain ⟨j, hj, hrest⟩ := walk_cons_eq_dir.mp hwalk
    exact ih (h.closed hi hj) hrest

/-- A directory of a tree is reached by one path only. -/
theorem walk_unique (h : Tree look Dir Down root) (hcs : ∀ c ∈ cs, Down c) (hds : ∀ d ∈ ds, Down d)
    (hwalk : walk look root cs = .dir n) (hwalk' : walk look root ds = .dir n) : cs = ds := by
  induction cs using List.reverseRecOn generalizing ds n with
  | nil =>
    obtain rfl : root = n := by simpa using hwalk
    rcases List.eq_nil_or_concat' ds with rfl | ⟨ds, d, rfl⟩
    · rfl
    · -- the root is entered nowhere
      obtain ⟨j, hj, hlook⟩ := walk_concat_eq_dir.mp hwalk'
      exact absurd hlook (h.above (h.dir_walk h.top hj) (hds d (by simp)))
  | append_singleton cs c ih =>
    obtain ⟨i, hi, hlook⟩ := walk_concat_eq_dir.mp hwalk
    have hdown : Down c := hcs c (by simp)
    rcases List.eq_nil_or_concat' ds with rfl | ⟨ds, d, rfl⟩
    · obtain rfl : root = n := by simpa using hwalk'
      exact absurd hlook (h.above (h.dir_walk h.top hi) hdown)
    · obtain ⟨j, hj, hlook'⟩ := walk_concat_eq_dir.mp hwalk'
      obtain ⟨rfl, rfl⟩ := h.once (h.dir_walk h.top hi) (h.dir_walk h.top hj) hdown (hds d (by simp)) hlook hlook'
      rw [ih (fun c hc => hcs c (by simp [hc])) (fun d hd => hds d (by simp [hd])) hi hj]

/-- The directories along a path differ from those it leads to. -/
theorem walk_ne (h : Tree look Dir Down root) (hcs : ∀ c ∈ cs ++ ds, Down c) (hne : ds ≠ [])
    (hi : walk look root cs = .dir i) (hn : walk look root (cs ++ ds) = .dir n) : i ≠ n := by
  rintro rfl
  have heq := h.walk_unique (fun c hc => hcs c (by simp [hc])) hcs hi hn
  have hlen := congrArg List.length heq
  rw [List.length_append] at hlen
  have := List.length_pos_of_ne_nil hne
  omega

end Tree

end Walk

end ZxyOs.Lib
