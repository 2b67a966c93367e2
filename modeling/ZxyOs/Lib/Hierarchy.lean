/-
  ZxyOs.Lib.Hierarchy

  A naming graph seen from its root.

  In a tree of directories the paths of names that lead downwards tell everything: `view` says
  for each of them whether it leads to a directory, to a file and to which, or nowhere.  A new
  directory and a file that goes are one edit of the graph each, and one edit of the view
  (`Adds.view`, `Drops.view`), as the directory that is edited lies on one path only.
-/

import Mathlib.Logic.Function.Basic
import ZxyOs.Lib.Paths

namespace ZxyOs.Lib

/-- What a path leads to. -/
inductive Kind (Node : Type) where
  | dir
  | file (n : Node)

section Hierarchy

variable {Node Name : Type} {look look' : Naming Node Name} {Dir : Node → Prop} {Down : Name → Prop}
  {root i j n d : Node} {c : Name} {cs ds p : List Name}

/-- What a walk has come to, its names used up. -/
def Found.kind : Found Node Name → Option (Kind Node)
  | .dir _ => some .dir
  | .file n [] => some (.file n)
  | .file _ (_ :: _) => none
  | .absent => none

open Classical in
/-- The hierarchy below the root: what each path of downward names leads to. -/
noncomputable def view (look : Naming Node Name) (Down : Name → Prop) (root : Node) (cs : List Name) : Option (Kind Node) :=
  if ∀ c ∈ cs, Down c then (walk look root cs).kind else none

theorem view_of_down (h : ∀ c ∈ cs, Down c) : view look Down root cs = (walk look root cs).kind := if_pos h

theorem view_eq_dir (h : ∀ c ∈ cs, Down c) : view look Down root cs = some .dir ↔ ∃ n, walk look root cs = .dir n := by
  rw [view_of_down h]
  cases walk look root cs with
  | dir n => simp [Found.kind]
  | file n rest => cases rest <;> simp [Found.kind]
  | absent => simp [Found.kind]

theorem view_eq_file (h : ∀ c ∈ cs, Down c) : view look Down root cs = some (.file n) ↔ walk look root cs = .file n [] := by
  rw [view_of_down h]
  cases walk look root cs with
  | dir n => simp [Found.kind]
  | file n rest => cases rest <;> simp [Found.kind]
  | absent => simp [Found.kind]

/-! ## Where a walk ends -/

/-- A walk that does not end in a directory ends at a name that is missing or a file's. -/
theorem arrive_end (look : Naming Node Name) (i : Node) (cs : List Name) (above : Node) (seen : List Name) :
    (∃ n, walk look i cs = .dir n ∧ (arrive look above i seen cs).found = some (.dir n) ∧
      (arrive look above i seen cs).rest = []) ∨
    ∃ p c, cs = p ++ c :: (arrive look above i seen cs).rest ∧ walk look i p = .dir (arrive look above i seen cs).above ∧
      look (arrive look above i seen cs).above c = (arrive look above i seen cs).found ∧
      ∀ n, (arrive look above i seen cs).found ≠ some (.dir n) := by
  induction cs generalizing i above seen with
  | nil => exact Or.inl ⟨i, rfl, rfl, rfl⟩
  | cons c cs ih =>
    cases hlook : look i c with
    | none =>
      rw [arrive_cons_none hlook]
      exact Or.inr ⟨[], c, rfl, rfl, hlook, by simp⟩
    | some child =>
      cases child with
      | file m =>
        rw [arrive_cons_file hlook]
        exact Or.inr ⟨[], c, rfl, rfl, hlook, by simp⟩
      | dir m =>
        rw [arrive_cons_dir hlook, walk_cons_dir hlook]
        rcases ih m i (seen ++ [c]) with hdir | ⟨p, e, hcs, hwalk, hname, hnot⟩
        · exact Or.inl hdir
        · refine Or.inr ⟨c :: p, e, ?_, by rw [walk_cons_dir hlook, hwalk], hname, hnot⟩
          rw [List.cons_append, ← hcs]

theorem walk_append_of_dir (h : walk look i cs = .dir j) (ds : List Name) : walk look i (cs ++ ds) = walk look j ds := by
  induction cs generalizing i with
  | nil =>
    obtain rfl : i = j := by simpa using h
    rfl
  | cons c cs ih =>
    obtain ⟨m, hm, hrest⟩ := walk_cons_eq_dir.mp h
    rw [List.cons_append, walk_cons_dir hm, ih hrest]

theorem found_dir (look : Naming Node Name) (root : Node) (h : ∀ c ∈ cs, Down c) (above : Node) (seen : List Name) :
    (∃ n, (arrive look above root seen cs).found = some (.dir n)) ↔ view look Down root cs = some .dir := by
  rw [view_eq_dir h]
  exact exists_congr fun n => arrive_found_dir

/-- A walk ends at a file that the hierarchy has. -/
theorem found_file (look : Naming Node Name) (root : Node) (h : ∀ c ∈ cs, Down c) (above : Node) (seen : List Name) :
    (arrive look above root seen cs).found = some (.file n) ∧ (arrive look above root seen cs).rest = [] ↔
      view look Down root cs = some (.file n) := by
  rw [view_eq_file h]
  rcases arrive_end look root cs above seen with ⟨m, hwalk, hfound, -⟩ | ⟨p, c, hcs, hwalk, hname, hnot⟩
  · rw [hwalk, hfound]
    simp
  · -- the walk goes on for as long as there are directories
    have hend := walk_append_of_dir hwalk (c :: (arrive look above root seen cs).rest)
    rw [← hcs] at hend
    rw [hend]
    cases hfound : (arrive look above root seen cs).found with
    | none =>
      rw [hfound] at hname
      rw [walk_cons_none hname]
      simp
    | some ch =>
      rw [hfound] at hname
      cases ch with
      | dir m => exact absurd hfound (hnot m)
      | file m =>
        rw [walk_cons_file hname]
        simp

/-- A walk misses its last name where the hierarchy has the directory for it and not the name. -/
theorem found_none (look : Naming Node Name) (root : Node) (h : ∀ c ∈ cs, Down c) (above : Node) (seen : List Name) :
    (arrive look above root seen cs).found = none ∧ (arrive look above root seen cs).rest = [] ↔
      view look Down root cs.dropLast = some .dir ∧ view look Down root cs = none := by
  have hdrop : ∀ c ∈ cs.dropLast, Down c := fun c hc => h c (List.dropLast_subset cs hc)
  rw [view_eq_dir hdrop, view_of_down h]
  rcases arrive_end look root cs above seen with ⟨m, hwalk, hfound, -⟩ | ⟨p, c, hcs, hwalk, hname, hnot⟩
  · rw [hwalk, hfound]
    simp [Found.kind]
  · have hend := walk_append_of_dir hwalk (c :: (arrive look above root seen cs).rest)
    rw [← hcs] at hend
    cases hrest : (arrive look above root seen cs).rest with
    | nil =>
      have hlast : cs.dropLast = p := by
        rw [hcs, hrest]
        exact List.dropLast_concat
      rw [hrest] at hend
      rw [hlast, hwalk, hend]
      cases hfound : (arrive look above root seen cs).found with
      | none =>
        rw [hfound] at hname
        rw [walk_cons_none hname]
        simp [Found.kind]
      | some ch =>
        rw [hfound] at hname
        cases ch with
        | dir m => exact absurd hfound (hnot m)
        | file m =>
          rw [walk_cons_file hname]
          simp [Found.kind]
    | cons e rest =>
      -- what is missing is no directory for the names behind it
      have hlast : cs.dropLast = p ++ c :: (e :: rest).dropLast := by
        rw [hcs, hrest, List.dropLast_append_of_ne_nil (by simp)]
        rfl
      have hstop : ∀ m, walk look root cs.dropLast ≠ .dir m := by
        intro m
        rw [hlast, walk_append_of_dir hwalk, Ne, walk_cons_eq_dir]
        rintro ⟨k, hk, -⟩
        exact hnot k (hname.symm.trans hk)
      simp [hstop]

/-! ## Edits -/

/-- `look'` is `look` with the new directory `i` called `c` in directory `d`. -/
structure Adds (look look' : Naming Node Name) (Dir : Node → Prop) (Down : Name → Prop) (d i : Node) (c : Name) : Prop where
  above : Dir d
  missing : look d c = none
  here : ∀ e, e ≠ c → look' d e = look d e
  new : look' d c = some (.dir i)
  elsewhere : ∀ j, Dir j → j ≠ d → look' j = look j
  empty : ∀ e, Down e → look' i e = none

/-- `look'` is `look` without file `n`, which was called `c` in directory `d`. -/
structure Drops (look look' : Naming Node Name) (Dir : Node → Prop) (d n : Node) (c : Name) : Prop where
  above : Dir d
  was : look d c = some (.file n)
  here : ∀ e, e ≠ c → look' d e = look d e
  gone : look' d c = none
  elsewhere : ∀ j, Dir j → j ≠ d → look' j = look j

/-- Two graphs that differ in what `c` stands for in directory `d` are walked alike, but through that
    name. -/
theorem walk_alike (ht : Tree look Dir Down root) (hi : Dir i) (hhere : ∀ e, e ≠ c → look' d e = look d e)
    (helse : ∀ j, Dir j → j ≠ d → look' j = look j) (cs : List Name) :
    walk look' i cs = walk look i cs ∨ ∃ p rest, cs = p ++ c :: rest ∧ walk look i p = .dir d ∧ walk look' i p = .dir d := by
  induction cs generalizing i with
  | nil => exact Or.inl rfl
  | cons e cs ih =>
    by_cases hthrough : i = d ∧ e = c
    · obtain ⟨rfl, rfl⟩ := hthrough
      exact Or.inr ⟨[], cs, rfl, rfl, rfl⟩
    · have hsame : look' i e = look i e := by
        by_cases hid : i = d
        · subst hid
          exact hhere e fun hec => hthrough ⟨rfl, hec⟩
        · rw [helse i hi hid]
      cases hlook : look i e with
      | none => exact Or.inl (by rw [walk_cons_none hlook, walk_cons_none (hsame.trans hlook)])
      | some child =>
        cases child with
        | file m => exact Or.inl (by rw [walk_cons_file hlook, walk_cons_file (hsame.trans hlook)])
        | dir m =>
          rw [walk_cons_dir hlook, walk_cons_dir (hsame.trans hlook)]
          rcases ih (ht.closed hi hlook) with heq | ⟨p, rest, hcs, hwalk, hwalk'⟩
          · exact Or.inl heq
          · refine Or.inr ⟨e :: p, rest, by rw [hcs, List.cons_append], ?_, ?_⟩
            · rw [walk_cons_dir hlook, hwalk]
            · rw [walk_cons_dir (hsame.trans hlook), hwalk']

/-- A path to the directory that is edited leads there still. -/
theorem walk_alike_to (ht : Tree look Dir Down root) (hp : ∀ e ∈ p, Down e) (hwalk : walk look root p = .dir d)
    (hhere : ∀ e, e ≠ c → look' d e = look d e) (helse : ∀ j, Dir j → j ≠ d → look' j = look j) :
    walk look' root p = .dir d := by
  rcases walk_alike ht ht.top hhere helse p with heq | ⟨q, rest, hq, hwalkq, -⟩
  · rw [heq, hwalk]
  · -- the directory would lie on the path twice
    rw [hq] at hwalk hp
    exact absurd rfl (ht.walk_ne hp (by simp) hwalkq hwalk)

section

variable [DecidableEq Name]

theorem Adds.view (ht : Tree look Dir Down root) (h : Adds look look' Dir Down d i c) (hp : ∀ e ∈ p, Down e) (hc : Down c)
    (hwalk : walk look root p = .dir d) :
    view look' Down root = Function.update (view look Down root) (p ++ [c]) (some .dir) := by
  have hwalk' := walk_alike_to ht hp hwalk h.here h.elsewhere
  have hdown : ∀ e ∈ p ++ [c], Down e := by
    intro e he
    rcases List.mem_append.mp he with he | he
    · exact hp e he
    · rw [List.mem_singleton.mp he]
      exact hc
  funext cs
  by_cases hcs : cs = p ++ [c]
  · subst hcs
    rw [Function.update_self, view_of_down hdown, walk_append_of_dir hwalk', walk_cons_dir h.new]
    rfl
  rw [Function.update_of_ne hcs]
  by_cases hall : ∀ e ∈ cs, Down e
  · rw [view_of_down hall, view_of_down hall]
    rcases walk_alike ht ht.top h.here h.elsewhere cs with heq | ⟨q, rest, rfl, hq, hq'⟩
    · rw [heq]
    · -- behind the new name there is nothing, as there was
      obtain rfl := ht.walk_unique (fun e he => hall e (List.mem_append_left _ he)) hp hq hwalk
      cases rest with
      | nil => exact absurd rfl hcs
      | cons e rest =>
        have he : Down e := hall e (by simp)
        rw [walk_append_of_dir hq, walk_append_of_dir hq', walk_cons_none h.missing, walk_cons_dir h.new,
          walk_cons_none (h.empty e he)]
  · exact (if_neg hall).trans (if_neg hall).symm

theorem Drops.view (ht : Tree look Dir Down root) (h : Drops look look' Dir d n c) (hp : ∀ e ∈ p, Down e)
    (hwalk : walk look root p = .dir d) : view look' Down root = Function.update (view look Down root) (p ++ [c]) none := by
  have hwalk' := walk_alike_to ht hp hwalk h.here h.elsewhere
  funext cs
  by_cases hall : ∀ e ∈ cs, Down e
  · by_cases hcs : cs = p ++ [c]
    · subst hcs
      rw [Function.update_self, view_of_down hall, walk_append_of_dir hwalk', walk_cons_none h.gone]
      rfl
    rw [Function.update_of_ne hcs, view_of_down hall, view_of_down hall]
    rcases walk_alike ht ht.top h.here h.elsewhere cs with heq | ⟨q, rest, rfl, hq, hq'⟩
    · rw [heq]
    · -- no path leads through a file
      obtain rfl := ht.walk_unique (fun e he => hall e (List.mem_append_left _ he)) hp hq hwalk
      cases rest with
      | nil => exact absurd rfl hcs
      | cons e rest =>
        rw [walk_append_of_dir hq, walk_append_of_dir hq', walk_cons_none h.gone, walk_cons_file h.was]
        rfl
  · have hnone : Lib.view look' Down root cs = none := if_neg hall
    have hnone' : Lib.view look Down root cs = none := if_neg hall
    rw [hnone]
    by_cases hcs : cs = p ++ [c]
    · rw [hcs, Function.update_self]
    · rw [Function.update_of_ne hcs, hnone']

end

/-- The directories stay where they are. -/
theorem Adds.walk_dir (ht : Tree look Dir Down root) (h : Adds look look' Dir Down d i c) (hwalk : walk look root cs = .dir n) :
    walk look' root cs = .dir n := by
  rcases walk_alike ht ht.top h.here h.elsewhere cs with heq | ⟨q, rest, rfl, hq, -⟩
  · rw [heq, hwalk]
  · rw [walk_append_of_dir hq, walk_cons_none h.missing] at hwalk
    cases hwalk

theorem Drops.walk_dir {m : Node} (ht : Tree look Dir Down root) (h : Drops look look' Dir d n c)
    (hwalk : walk look root cs = .dir m) : walk look' root cs = .dir m := by
  rcases walk_alike ht ht.top h.here h.elsewhere cs with heq | ⟨q, rest, rfl, hq, -⟩
  · rw [heq, hwalk]
  · rw [walk_append_of_dir hq, walk_cons_file h.was] at hwalk
    cases hwalk

end Hierarchy

end ZxyOs.Lib
