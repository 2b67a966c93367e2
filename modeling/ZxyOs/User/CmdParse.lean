/-
  ZxyOs.User.CmdParse

  How the shell cuts a command line into words, `cmd_parse` of `user/shell.c`.

  `argv` has 16 entries.  The code stores the pointer of a word first and looks at
  the number of words afterwards, with `>` against 16: a 17th word is stored behind the
  array, and only an 18th one makes the call fail.  With 16 words or fewer the call
  does what it should, and with more it never does (`cmdParse_exact`).
-/

import ZxyOs.Lib.CString
import ZxyOs.Lib.Words

namespace ZxyOs

open Lib

/-- The memory with the command string, the array, and the entries that were stored to. -/
structure Argv where
  mem : Bytes
  argv : Nat → Nat
  touched : List Nat

/-- `MAX_ARG_NR`. -/
def maxArgNr : Nat := 16

namespace Argv

/-- `argv[i] = next`. -/
def setArg (s : Argv) (i next : Nat) : Argv :=
  { s with argv := Function.update s.argv i next, touched := i :: s.touched }

/-- A NUL at `next`. -/
def cut (s : Argv) (next : Nat) : Argv := { s with mem := Function.update s.mem next 0 }

end Argv

/-- `while (arg_idx < MAX_ARG_NR)`: the first `n` entries are `NULL`. -/
def clearArgv (s : Argv) : Nat → Argv
  | 0 => s
  | n + 1 => (clearArgv s n).setArg n 0

/-- `while (*next == token) next++`. -/
def skipToken (mem : Bytes) (token : UInt8) : Nat → Nat → Option Nat
  | 0, _ => none
  | fuel + 1, next => if mem next = token then skipToken mem token fuel (next + 1) else some next

/-- `while (*next && *next != token) next++`. -/
def skipWord (mem : Bytes) (token : UInt8) : Nat → Nat → Option Nat
  | 0, _ => none
  | fuel + 1, next =>
    if mem next ≠ 0 ∧ mem next ≠ token then skipWord mem token fuel (next + 1) else some next

/-- The loop over the words. -/
def cmdParseLoop (token : UInt8) : Nat → Argv → Nat → Nat → Option (Int × Argv)
  | 0, _, _, _ => none
  | fuel + 1, s, next, argc =>
    if s.mem next = 0 then some (argc, s)
    else do
      let next ← skipToken s.mem token (2 ^ 32) next
      if s.mem next = 0 then some (argc, s)
      else do
        let s := s.setArg argc next
        let next ← skipWord s.mem token (2 ^ 32) next
        let s' := if s.mem next ≠ 0 then s.cut next else s
        let next := if s.mem next ≠ 0 then next + 1 else next
        if argc > maxArgNr then some (-1, s') else cmdParseLoop token fuel s' next (argc + 1)

/-- `cmd_parse`. -/
def cmdParse (mem : Bytes) (cmdStr : Nat) (argv : Nat → Nat) (token : UInt8) :
    Option (Int × Argv) :=
  if cmdStr = 0 then none
  else cmdParseLoop token (2 ^ 32) (clearArgv ⟨mem, argv, []⟩ maxArgNr) cmdStr 0

/-! ## Scanning -/

section Scan

variable {mem : Bytes} {token : UInt8} {next fuel : Nat} {str : List UInt8}

theorem skipToken_eq {gap : List UInt8} (h : ∀ k (hk : k < gap.length), mem (next + k) = gap[k])
    (hgap : ∀ c ∈ gap, c = token) (hstop : mem (next + gap.length) ≠ token)
    (hfuel : gap.length < fuel) :
    skipToken mem token fuel next = some (next + gap.length) := by
  induction gap generalizing next fuel with
  | nil =>
    obtain ⟨fuel, rfl⟩ : ∃ n, fuel = n + 1 := ⟨fuel - 1, by simp at hfuel; omega⟩
    exact if_neg hstop
  | cons c gap ih =>
    rw [List.length_cons] at hfuel hstop ⊢
    obtain ⟨fuel, rfl⟩ : ∃ n, fuel = n + 1 := ⟨fuel - 1, by omega⟩
    have hnext : next + (gap.length + 1) = next + 1 + gap.length := by omega
    have hfirst : mem next = token := (h 0 (by simp)).trans (hgap c (by simp))
    rw [hnext] at hstop ⊢
    rw [skipToken, if_pos hfirst]
    apply ih _ (fun c hc => hgap c (List.mem_cons_of_mem _ hc)) hstop (by omega)
    intro k hk
    rw [show next + 1 + k = next + (k + 1) by omega]
    exact h (k + 1) (by simpa using hk)

theorem skipWord_eq {w : List UInt8} (h : ∀ k (hk : k < w.length), mem (next + k) = w[k])
    (hw : ∀ c ∈ w, c ≠ 0 ∧ c ≠ token) (hstop : mem (next + w.length) = 0 ∨ mem (next + w.length) = token)
    (hfuel : w.length < fuel) :
    skipWord mem token fuel next = some (next + w.length) := by
  induction w generalizing next fuel with
  | nil =>
    obtain ⟨fuel, rfl⟩ : ∃ n, fuel = n + 1 := ⟨fuel - 1, by simp at hfuel; omega⟩
    rw [List.length_nil, Nat.add_zero] at hstop ⊢
    exact if_neg (by tauto)
  | cons c w ih =>
    rw [List.length_cons] at hfuel hstop ⊢
    obtain ⟨fuel, rfl⟩ : ∃ n, fuel = n + 1 := ⟨fuel - 1, by omega⟩
    have hnext : next + (w.length + 1) = next + 1 + w.length := by omega
    have hfirst : mem next ≠ 0 ∧ mem next ≠ token := by
      rw [show mem next = c from h 0 (by simp)]
      exact hw c (by simp)
    rw [hnext] at hstop ⊢
    rw [skipWord, if_pos hfirst]
    apply ih _ (fun c hc => hw c (List.mem_cons_of_mem _ hc)) hstop (by omega)
    intro k hk
    rw [show next + 1 + k = next + (k + 1) by omega]
    exact h (k + 1) (by simpa using hk)

end Scan

/-! ## The loop -/

section Loop

variable {token : UInt8} {fuel next argc : Nat} {str : List UInt8} {s : Argv}

/-- A turn that finds no word ends the loop. -/
theorem cmdParseLoop_end (h : s.mem.IsStr next str) (hstr : str.length < 2 ^ 32)
    (hw : wordsAt token false next str = []) :
    cmdParseLoop token (fuel + 1) s next argc = some ((argc : Int), s) := by
  rw [cmdParseLoop]
  by_cases hend : s.mem next = 0
  · rw [if_pos hend]
  · have hall := wordsAt_eq_nil hw
    have hnul : s.mem (next + str.length) = 0 := h.nul
    have htoken : token ≠ 0 := by
      rintro rfl
      rw [show s.mem next = 0 by
        cases str with
        | nil => exact h
        | cons c str => exact h.1.1.trans (hall c (by simp))] at hend
      exact hend rfl
    rw [if_neg hend, skipToken_eq h.get hall (hnul ▸ htoken.symm) hstr, Option.bind_eq_bind,
      Option.bind_some, if_pos hnul]

/-- One turn of the loop takes the first word `w` off the string: its pointer is stored, a
    separator behind it becomes a NUL, and the rest begins at `q`. -/
theorem cmdParseLoop_word (fuel argc : Nat) (h : s.mem.IsStr next str) (hstr : str.length < 2 ^ 32)
    (hw : wordsAt token false next str ≠ []) :
    ∃ (w : Nat × List UInt8) (m : Bytes) (q : Nat) (rest : List UInt8),
      wordsAt token false next str = w :: wordsAt token false q rest ∧
      cmdParseLoop token (fuel + 1) s next argc =
        (if argc > maxArgNr then some (-1, { s.setArg argc w.1 with mem := m })
        else cmdParseLoop token fuel { s.setArg argc w.1 with mem := m } q (argc + 1)) ∧
      m.IsStr w.1 w.2 ∧ m.IsStr q rest ∧ w.1 + w.2.length ≤ q ∧ next ≤ q ∧
      rest.length < str.length ∧ ∀ a, a < next ∨ s.mem a = 0 → m a = s.mem a := by
  obtain ⟨gap, w, back, rfl, hgap, hne, hsep, hback, heq⟩ := wordsAt_eq_cons hw
  have hword : s.mem.IsStr (next + gap.length) (w ++ back) := h.rest
  have hend : s.mem.IsStr (next + gap.length + w.length) back := hword.rest
  have hnonzero : (0 : UInt8) ∉ gap ++ (w ++ back) := h.nonzero
  rw [List.length_append, List.length_append] at hstr
  have hpos : 0 < w.length := List.length_pos_of_ne_nil hne
  have hfirst : s.mem (next + gap.length) ∈ w := by
    have := hword.get 0 (by rw [List.length_append]; omega)
    rw [Nat.add_zero, List.getElem_append_left hpos] at this
    exact this ▸ List.getElem_mem hpos
  have hstart : s.mem next ≠ 0 := by
    have := h.get 0 (by rw [List.length_append, List.length_append]; omega)
    rw [Nat.add_zero] at this
    exact fun hzero => hnonzero (hzero ▸ this ▸ List.getElem_mem _)
  have hseps : skipToken s.mem token (2 ^ 32) next = some (next + gap.length) := by
    apply skipToken_eq _ hgap _ (by omega)
    · intro k hk
      have := h.get k (by rw [List.length_append]; omega)
      rwa [List.getElem_append_left hk] at this
    · exact fun heq => hsep (heq ▸ hfirst)
  have hrun : skipWord s.mem token (2 ^ 32) (next + gap.length) =
      some (next + gap.length + w.length) := by
    apply skipWord_eq _ _ _ (by omega)
    · intro k hk
      have := hword.get k (by rw [List.length_append]; omega)
      rwa [List.getElem_append_left hk] at this
    · intro c hc
      refine ⟨?_, fun heq => hsep (heq ▸ hc)⟩
      rintro rfl
      exact hnonzero (by simp [hc])
    · rcases hback with rfl | ⟨r, rfl⟩
      · exact Or.inl hend
      · exact Or.inr hend.1.1
  have hchar : s.mem (next + gap.length) ≠ 0 := fun hzero => hnonzero (by simp [← hzero, hfirst])
  rw [cmdParseLoop, if_neg hstart, hseps, Option.bind_eq_bind, Option.bind_some, if_neg hchar]
  dsimp only [Argv.setArg]
  rw [hrun, Option.bind_some]
  have hcut {m : Bytes} (hm : ∀ a, a < next + gap.length + w.length → m a = s.mem a)
      (hnul : m (next + gap.length + w.length) = 0) : m.IsStr (next + gap.length) w := by
    apply Bytes.isStr_of_get
    · intro k hk
      have := hword.get k (by rw [List.length_append]; omega)
      rw [List.getElem_append_left hk] at this
      rw [hm _ (by omega), this]
    · exact hnul
    · exact fun hmem => hnonzero (by simp [hmem])
  rcases hback with rfl | ⟨r, rfl⟩
  -- the last word already ends with the string's NUL
  · have hnul : s.mem (next + gap.length + w.length) = 0 := hend
    refine ⟨(next + gap.length, w), s.mem, _, [], heq, ?_, hcut (fun _ _ => rfl) hnul, hend, Nat.le_refl _, by omega, ?_,
      fun _ _ => rfl⟩
    · rw [if_neg (not_not.mpr hnul), if_neg (not_not.mpr hnul)]
    · simp only [List.length_append, List.length_nil]
      omega
  · have htoken : s.mem (next + gap.length + w.length) ≠ 0 := hend.1.1 ▸ hend.1.2
    refine ⟨(next + gap.length, w), Function.update s.mem (next + gap.length + w.length) 0,
      next + gap.length + w.length + 1, r, ?_, ?_, hcut (fun a ha => ?_) (Function.update_self _ _ _),
      hend.2.congr fun a ha _ => Function.update_of_ne (by omega) _ _, Nat.le_succ _, by omega, ?_, ?_⟩
    · rw [heq, wordsAt_sep]
    · rw [if_pos htoken, if_pos htoken]
      rfl
    · exact Function.update_of_ne (by omega) _ _
    · simp only [List.length_append, List.length_cons]
      omega
    · intro a ha
      apply Function.update_of_ne
      rintro rfl
      rcases ha with ha | ha
      · omega
      · exact htoken ha

/-- The entries from `argc` on point to the words, which end with a NUL. -/
def PointsTo (s : Argv) (argc : Nat) (words : List (Nat × List UInt8)) : Prop :=
  ∀ i w, words[i]? = some w → s.argv (argc + i) = w.1 ∧ s.mem.IsStr w.1 w.2

/-- The loop from a word on, when there is an entry for each. -/
theorem cmdParseLoop_fits (h : s.mem.IsStr next str) (hstr : str.length < 2 ^ 32)
    (hfuel : str.length < fuel) (hfits : argc + (wordsAt token false next str).length ≤ maxArgNr) :
    ∃ s', cmdParseLoop token fuel s next argc =
        some (((argc + (wordsAt token false next str).length : Nat) : Int), s') ∧
      PointsTo s' argc (wordsAt token false next str) ∧
      (∀ i, i < argc ∨ argc + (wordsAt token false next str).length ≤ i → s'.argv i = s.argv i) ∧
      (∀ i ∈ s'.touched, i ∈ s.touched ∨ i < maxArgNr) ∧
      ∀ a, a < next ∨ s.mem a = 0 → s'.mem a = s.mem a := by
  induction fuel generalizing s next argc str with
  | zero => omega
  | succ fuel ih =>
    by_cases hw : wordsAt token false next str = []
    · rw [cmdParseLoop_end h hstr hw, hw]
      refine ⟨s, rfl, ?_, fun _ _ => rfl, fun _ h => Or.inl h, fun _ _ => rfl⟩
      intro i w hi
      cases hi
    · obtain ⟨w, m, q, rest, heq, hturn, hword, hrest, hend, hq, hlen, hsame⟩ :=
        cmdParseLoop_word fuel argc h hstr hw
      rw [heq, List.length_cons] at hfits ⊢
      obtain ⟨s', hs', hpoints, hargv, htouched, hmem⟩ :=
        @ih q (argc + 1) rest { s.setArg argc w.1 with mem := m } hrest (by omega) (by omega) (by omega)
      refine ⟨s', ?_, ?_, ?_, ?_, ?_⟩
      · rw [hturn, if_neg (by omega), hs', Nat.add_assoc, Nat.add_comm 1]
      -- the first word keeps its entry and its NUL
      · intro i v hi
        cases i with
        | zero =>
          obtain rfl : w = v := by simpa using hi
          refine ⟨(hargv argc (Or.inl (Nat.lt_succ_self _))).trans (Function.update_self _ _ _), ?_⟩
          apply hword.congr
          intro a _ ha
          rcases Nat.lt_or_eq_of_le ha with ha | rfl
          · exact hmem a (Or.inl (by omega))
          · exact hmem _ (Or.inr hword.nul)
        | succ i =>
          have := hpoints i v (by simpa using hi)
          rwa [Nat.add_assoc, Nat.add_comm 1] at this
      · intro i hi
        rw [hargv i (by omega)]
        exact Function.update_of_ne (by omega) _ _
      · intro i hi
        rcases htouched i hi with hi | hi
        · rcases List.mem_cons.mp hi with rfl | hi
          · exact Or.inr (by omega)
          · exact Or.inl hi
        · exact Or.inr hi
      · intro a ha
        have hm := hsame a ha
        rw [hmem a (by
          show a < q ∨ m a = 0
          rcases ha with ha | ha
          · exact Or.inl (by omega)
          · exact Or.inr (hm.trans ha))]
        exact hm

/-- Entries stay among those that were stored to. -/
theorem cmdParseLoop_touched {r : Int × Argv} (h : s.mem.IsStr next str) (hstr : str.length < 2 ^ 32)
    (hrun : cmdParseLoop token fuel s next argc = some r) : ∀ i ∈ s.touched, i ∈ r.2.touched := by
  induction fuel generalizing s next argc str with
  | zero => cases hrun
  | succ fuel ih =>
    by_cases hw : wordsAt token false next str = []
    · rw [cmdParseLoop_end h hstr hw] at hrun
      cases hrun
      exact fun _ h => h
    · obtain ⟨w, m, q, rest, -, hturn, -, hrest, -, -, hlen, -⟩ :=
        cmdParseLoop_word fuel argc h hstr hw
      rw [hturn] at hrun
      intro i hi
      split_ifs at hrun with hmany
      · cases hrun
        exact List.mem_cons_of_mem _ hi
      · exact ih (s := { s.setArg argc w.1 with mem := m }) hrest (by omega) hrun i
          (List.mem_cons_of_mem _ hi)

/-- With more than 16 words the entry behind the array is stored to. -/
theorem cmdParseLoop_beyond {r : Int × Argv} (h : s.mem.IsStr next str) (hstr : str.length < 2 ^ 32)
    (hargc : argc ≤ maxArgNr) (hmany : maxArgNr < argc + (wordsAt token false next str).length)
    (hrun : cmdParseLoop token fuel s next argc = some r) : maxArgNr ∈ r.2.touched := by
  induction fuel generalizing s next argc str with
  | zero => cases hrun
  | succ fuel ih =>
    have hw : wordsAt token false next str ≠ [] := by
      intro hnil
      rw [hnil] at hmany
      exact absurd hmany (by simpa using hargc)
    obtain ⟨w, m, q, rest, heq, hturn, -, hrest, -, -, hlen, -⟩ :=
      cmdParseLoop_word fuel argc h hstr hw
    rw [hturn, if_neg (by omega)] at hrun
    rw [heq, List.length_cons] at hmany
    rcases Nat.lt_or_eq_of_le hargc with hlt | rfl
    · exact ih hrest (by omega) (by omega) (by omega) hrun
    · exact cmdParseLoop_touched hrest (by omega) hrun _ List.mem_cons_self

end Loop

theorem clearArgv_eq (s : Argv) (n : Nat) : (clearArgv s n).mem = s.mem ∧
    (∀ i < n, (clearArgv s n).argv i = 0) ∧ ∀ i ∈ (clearArgv s n).touched, i ∈ s.touched ∨ i < n := by
  induction n with
  | zero => exact ⟨rfl, by simp, fun _ h => Or.inl h⟩
  | succ n ih =>
    obtain ⟨hmem, hargv, htouched⟩ := ih
    refine ⟨hmem, ?_, ?_⟩
    · intro i hi
      by_cases h : i = n
      · rw [h]
        exact Function.update_self _ _ _
      · rw [← hargv i (by omega)]
        exact Function.update_of_ne h _ _
    · intro i hi
      rcases List.mem_cons.mp hi with rfl | hi
      · exact Or.inr (Nat.lt_succ_self _)
      · exact (htouched i hi).imp_right (by omega)

/-- What a command line with the words `words` should be parsed into: only the array is
    stored to, up to 16 words are found and counted, and more of them are refused. -/
structure ParsedInto (words : List (Nat × List UInt8)) (r : Int × Argv) : Prop where
  inside : ∀ i ∈ r.2.touched, i < maxArgNr
  count : words.length ≤ maxArgNr → r.1 = words.length
  entries : words.length ≤ maxArgNr → PointsTo r.2 0 words
  others : ∀ i, words.length ≤ i → i < maxArgNr → r.2.argv i = 0
  refused : maxArgNr < words.length → r.1 = -1

/-- With more than 16 words `cmd_parse` stores behind the array. -/
theorem cmdParse_beyond {mem : Bytes} {cmdStr : Nat} {argv : Nat → Nat} {token : UInt8}
    {str : List UInt8} {r : Int × Argv} (h : mem.IsStr cmdStr str) (hlen : str.length < 2 ^ 32)
    (hmany : maxArgNr < (wordsAt token false cmdStr str).length)
    (hrun : cmdParse mem cmdStr argv token = some r) : maxArgNr ∈ r.2.touched := by
  rw [cmdParse] at hrun
  split_ifs at hrun
  have hmem := (clearArgv_eq ⟨mem, argv, []⟩ maxArgNr).1
  have hstr : (clearArgv ⟨mem, argv, []⟩ maxArgNr).mem.IsStr cmdStr str := by
    rw [hmem]
    exact h
  exact cmdParseLoop_beyond hstr hlen (Nat.zero_le _) (by omega) hrun

/-- `cmd_parse` does so for the command lines of at most 16 words. -/
theorem cmdParse_exact {mem : Bytes} {cmdStr : Nat} {argv : Nat → Nat} {token : UInt8}
    {str : List UInt8} (h : mem.IsStr cmdStr str) (hnull : cmdStr ≠ 0)
    (hfits : cmdStr + str.length < 2 ^ 32) :
    (∃ r, cmdParse mem cmdStr argv token = some r ∧
      ParsedInto (wordsAt token false cmdStr str) r) ↔
        (wordsAt token false cmdStr str).length ≤ 16 := by
  obtain ⟨hmem, hzero, htouched⟩ := clearArgv_eq ⟨mem, argv, []⟩ maxArgNr
  have hstr : (clearArgv ⟨mem, argv, []⟩ maxArgNr).mem.IsStr cmdStr str := by
    rw [hmem]
    exact h
  have hlen : str.length < 2 ^ 32 := by omega
  constructor
  · rintro ⟨r, hrun, hparsed⟩
    by_contra hmany
    have hbeyond := cmdParse_beyond h hlen (by rw [maxArgNr]; omega) hrun
    exact Nat.lt_irrefl _ (hparsed.inside _ hbeyond)
  · intro hfew
    rw [cmdParse, if_neg hnull]
    have hroom : 0 + (wordsAt token false cmdStr str).length ≤ maxArgNr := by
      rw [maxArgNr]
      omega
    obtain ⟨s', hrun, hpoints, hargv, htouched', -⟩ := cmdParseLoop_fits hstr hlen hlen hroom
    rw [Nat.zero_add] at hrun hargv
    refine ⟨_, hrun, ?_, fun _ => rfl, fun _ => hpoints, ?_, ?_⟩
    · intro i hi
      rcases htouched' i hi with hi | hi
      · exact (htouched i hi).resolve_left (by simp)
      · exact hi
    · intro i hi hi'
      rw [hargv i (Or.inr hi), hzero i hi']
    · intro hmany
      rw [maxArgNr] at hmany
      omega

/-- `ls  a` -/
def lsLine : List UInt8 := [108, 115, 32, 32, 97]

theorem cmdParse_exact_ls :
    (∃ r, cmdParse (Bytes.zero.write 100 lsLine) 100 (fun _ => 7) 32 = some r ∧
      ParsedInto (wordsAt 32 false 100 lsLine) r) ↔ (wordsAt 32 false 100 lsLine).length ≤ 16 :=
  cmdParse_exact (Bytes.isStr_write (by decide) rfl) (by decide) (by decide)

/-- Seventeen words of one letter. -/
def longLine : List UInt8 := (List.replicate 16 [97, 32]).flatten ++ [97]

/-- The command line with 17 words is not refused within the array. -/
theorem cmdParse_seventeen :
    ¬∃ r, cmdParse (Bytes.zero.write 100 longLine) 100 (fun _ => 7) 32 = some r ∧
      ParsedInto (wordsAt 32 false 100 longLine) r := by
  rintro ⟨r, hrun, hparsed⟩
  have hstr : (Bytes.zero.write 100 longLine).IsStr 100 longLine :=
    Bytes.isStr_write (by decide) rfl
  have hbeyond := cmdParse_beyond hstr (by decide) (by decide) hrun
  exact Nat.lt_irrefl _ (hparsed.inside _ hbeyond)

end ZxyOs
