/-
  ZxyOs.Lib.Words

  The words of a text: its maximal runs of characters that are not a separator.

  `wordsAt` reads the text once, from a position on, and remembers whether it is inside a
  word.  Programs that look for the next word skip separators first and then go to the end
  of the word; `wordsAt_eq_cons` is the text cut in this way.
-/

import ZxyOs.Lib.Paths

namespace ZxyOs.Lib

variable {α : Type} [DecidableEq α]

/-- The words of the text, each with the position where it starts; `pos` is the position
    of the first character. -/
def wordsAt (sep : α) : Bool → Nat → List α → List (Nat × List α)
  | _, _, [] => []
  | inside, pos, c :: s =>
    if c = sep then wordsAt sep false (pos + 1) s
    else if inside then wordsAt sep true (pos + 1) s
    else (pos, (c :: s).takeWhile (· ≠ sep)) :: wordsAt sep true (pos + 1) s

variable {sep c : α} {pos : Nat} {s : List α}

theorem wordsAt_sep {inside : Bool} :
    wordsAt sep inside pos (sep :: s) = wordsAt sep false (pos + 1) s :=
  if_pos rfl

theorem wordsAt_word : wordsAt sep true pos s =
    wordsAt sep false (pos + (s.takeWhile (· ≠ sep)).length) (s.dropWhile (· ≠ sep)) := by
  induction s generalizing pos with
  | nil => rfl
  | cons c s ih =>
    by_cases hc : c = sep
    · rw [List.takeWhile_cons_of_neg (by simpa using hc), List.dropWhile_cons_of_neg (by simpa using hc),
        hc, wordsAt_sep]
      exact wordsAt_sep.symm
    · rw [List.takeWhile_cons_of_pos (by simpa using hc), List.dropWhile_cons_of_pos (by simpa using hc),
        wordsAt, if_neg hc, if_pos rfl, ih, List.length_cons]
      congr 1
      omega

/-- The word at the start of a text, and the rest. -/
theorem wordsAt_cons (hc : c ≠ sep) : wordsAt sep false pos (c :: s) =
    (pos, (c :: s).takeWhile (· ≠ sep)) ::
      wordsAt sep false (pos + ((c :: s).takeWhile (· ≠ sep)).length)
        ((c :: s).dropWhile (· ≠ sep)) := by
  rw [wordsAt, if_neg hc, if_neg Bool.false_ne_true, wordsAt_word,
    List.takeWhile_cons_of_pos (by simpa using hc), List.dropWhile_cons_of_pos (by simpa using hc),
    List.length_cons]
  congr 2
  omega

/-- A text with a word: separators, the word, and what is behind it. -/
theorem wordsAt_eq_cons (h : wordsAt sep false pos s ≠ []) : ∃ gap w back, s = gap ++ (w ++ back) ∧
    (∀ c ∈ gap, c = sep) ∧ w ≠ [] ∧ sep ∉ w ∧ (back = [] ∨ ∃ r, back = sep :: r) ∧
    wordsAt sep false pos s =
      (pos + gap.length, w) :: wordsAt sep false (pos + gap.length + w.length) back := by
  induction s generalizing pos with
  | nil => exact absurd rfl h
  | cons c s ih =>
    by_cases hc : c = sep
    · rw [hc, wordsAt_sep] at h ⊢
      obtain ⟨gap, w, back, rfl, hgap, hw, hsep, hback, heq⟩ := ih h
      refine ⟨sep :: gap, w, back, rfl, ?_, hw, hsep, hback, ?_⟩
      · simpa using hgap
      · rw [heq, List.length_cons, show pos + (gap.length + 1) = pos + 1 + gap.length by omega]
    · refine ⟨[], (c :: s).takeWhile (· ≠ sep), (c :: s).dropWhile (· ≠ sep), ?_, by simp, ?_, ?_,
        dropWhile_ne_eq _, wordsAt_cons hc⟩
      · rw [List.nil_append, List.takeWhile_append_dropWhile]
      · rw [List.takeWhile_cons_of_pos (by simpa using hc)]
        exact List.cons_ne_nil _ _
      · intro hmem
        simpa using List.mem_takeWhile_imp hmem

/-- A text without words. -/
theorem wordsAt_eq_nil (h : wordsAt sep false pos s = []) : ∀ c ∈ s, c = sep := by
  induction s generalizing pos with
  | nil => simp
  | cons c s ih =>
    by_cases hc : c = sep
    · rw [hc, wordsAt_sep] at h
      simpa [hc] using ih h
    · rw [wordsAt_cons hc] at h
      cases h

end ZxyOs.Lib
