/-
  ZxyOs.Kernel.ListRun

  Any sequence of list operations on any number of lists of one heap.

  A `ListHeap` is the memory the nodes and the `struct list`s occupy.  `ListStep` says
  what an operation does to the sequences the lists stand for, and when it may be
  called: an element that goes in is in no list, one that comes out is in one.
  `Holds` connects sequences and links; every operation keeps it, and from it follow
  both traversals and what `list_empty`, `list_len`, `elem_find`, `list_traversal` and
  `list_pop` answer.
-/

import ZxyOs.Kernel.List
import ZxyOs.Lib.Runs
import Mathlib.Data.List.Perm.Subperm

namespace ZxyOs

open Lib

namespace Mem

/-- `list_push`. -/
def listPush (m : Mem) (plist elem : Nat) : Mem := m.listInsertBefore (m (plist + 4)) elem

/-- `list_pop`, with the element it returns. -/
def listPop (m : Mem) (plist : Nat) : Nat × Mem :=
  let elem := m (plist + 4)
  (elem, m.listRemove elem)

/-- The loop of `list_len` from `elem` on. -/
def listLenFrom (m : Mem) (plist : Nat) : Nat → Nat → Nat → Option Nat
  | 0, _, _ => none
  | fuel + 1, elem, len =>
    if elem = plist + 8 then some len
    else m.listLenFrom plist fuel (m (elem + 4)) ((len + 1) % 2 ^ 32)

/-- `list_len`. -/
def listLen (m : Mem) (plist : Nat) : Option Nat := m.listLenFrom plist (2 ^ 32) (m (plist + 4)) 0

/-- The loop of `list_traversal` from `elem` on; 0 is `NULL`. -/
def listTraversalFrom (m : Mem) (plist : Nat) (func : Nat → Int → Bool) (arg : Int) :
    Nat → Nat → Option Nat
  | 0, _ => none
  | fuel + 1, elem =>
    if elem = plist + 8 then some 0
    else if func elem arg then some elem
    else m.listTraversalFrom plist func arg fuel (m (elem + 4))

/-- `list_traversal`. -/
def listTraversal (m : Mem) (plist : Nat) (func : Nat → Int → Bool) (arg : Int) : Option Nat :=
  if m.listEmpty plist then some 0
  else m.listTraversalFrom plist func arg (2 ^ 32) (m (plist + 4))

/-! ## Traversals -/

/-- The elements between head and tail, along `next`. -/
def forward (m : Mem) (plist : Nat) : Option (List Nat) :=
  Links.walk m.links.next (plist + 8) (2 ^ 32) (m (plist + 4))

/-- The elements between tail and head, along `prev`. -/
def backward (m : Mem) (plist : Nat) : Option (List Nat) :=
  Links.walk m.links.prev plist (2 ^ 32) (m (plist + 8))

section Traversals

variable {m : Mem} {p elem len fuel : Nat} {l : List Nat}

theorem listLenFrom_walk (h : Links.walk m.links.next (p + 8) fuel elem = some l)
    (hlen : len < 2 ^ 32) : m.listLenFrom p fuel elem len = some ((len + l.length) % 2 ^ 32) := by
  induction fuel generalizing elem len l with
  | zero => cases h
  | succ fuel ih =>
    rw [Links.walk] at h
    rw [listLenFrom]
    split_ifs at h ⊢ with hend
    · cases h
      rw [List.length_nil, Nat.add_zero, Nat.mod_eq_of_lt hlen]
    · obtain ⟨rest, hrest, rfl⟩ := Option.map_eq_some_iff.mp h
      rw [show m (elem + 4) = m.links.next elem from rfl, ih hrest (Nat.mod_lt _ (by decide)),
        List.length_cons]
      congr 1
      omega

theorem listTraversalFrom_walk {func : Nat → Int → Bool} {arg : Int}
    (h : Links.walk m.links.next (p + 8) fuel elem = some l) :
    m.listTraversalFrom p func arg fuel elem = some ((l.find? (func · arg)).getD 0) := by
  induction fuel generalizing elem l with
  | zero => cases h
  | succ fuel ih =>
    rw [Links.walk] at h
    rw [listTraversalFrom]
    split_ifs at h ⊢ with hend hfound
    · cases h
      rfl
    · obtain ⟨rest, -, rfl⟩ := Option.map_eq_some_iff.mp h
      simp [hfound]
    · obtain ⟨rest, hrest, rfl⟩ := Option.map_eq_some_iff.mp h
      rw [show m (elem + 4) = m.links.next elem from rfl, ih hrest]
      simp [hfound]

end Traversals

/-- What the code finds out about the list at `p`, whose elements are `l`. -/
structure Answers (m : Mem) (p : Nat) (l : List Nat) : Prop where
  forward : m.forward p = some l
  backward : m.backward p = some l.reverse
  empty : m.listEmpty p = true ↔ l = []
  len : m.listLen p = some l.length
  find : ∀ obj, m.elemFind p obj = some (decide (obj ∈ l))
  traversal : ∀ func arg, m.listTraversal p func arg = some ((l.find? (func · arg)).getD 0)
  pop : ∀ e, l.head? = some e → (m.listPop p).1 = e

/-- A list that fits into memory answers for its elements. -/
theorem IsList.answers {m : Mem} {p : Nat} {l : List Nat} (h : m.IsList p l)
    (hs : Spaced (p :: l ++ [p + 8])) (hlen : l.length < 2 ^ 32) : m.Answers p l := by
  have hnodup := hs.nodup
  have htail : p + 8 ∉ l := fun hmem =>
    (List.nodup_append.mp hnodup).2.2 _ (List.mem_cons_of_mem _ hmem) (p + 8) (by simp) rfl
  have hhead : p ∉ l.reverse := fun hmem =>
    (List.nodup_cons.mp hnodup).1 (List.mem_append_left _ (List.mem_reverse.mp hmem))
  have hforward : m.forward p = some l := Links.Seg.walk h htail hlen
  have hempty := h.listEmpty_iff hs
  constructor
  · exact hforward
  · exact h.flip.walk hhead (by rwa [List.length_reverse])
  · exact hempty
  · rw [listLen, listLenFrom_walk hforward (by decide), Nat.zero_add, Nat.mod_eq_of_lt hlen]
  · exact fun obj => h.elemFind_eq hs hlen
  · intro func arg
    rw [listTraversal]
    split_ifs with hnone
    · rw [hempty.mp hnone]
      rfl
    · exact listTraversalFrom_walk hforward
  · intro e he
    obtain ⟨l, rfl⟩ : ∃ l', l = e :: l' := ⟨l.tail, (List.cons_head?_tail he).symm⟩
    exact h.head

end Mem

/-! ## The heap -/

/-- The nodes and the `struct list`s of one memory: none overlaps another one. -/
structure ListHeap where
  elems : Set Nat
  lists : Set Nat
  elems_apart : ∀ x ∈ elems, ∀ y ∈ elems, x ≠ y → x + 8 ≤ y ∨ y + 8 ≤ x
  lists_apart : ∀ p ∈ lists, ∀ q ∈ lists, p ≠ q → p + 16 ≤ q ∨ q + 16 ≤ p
  elems_lists : ∀ x ∈ elems, ∀ p ∈ lists, x + 8 ≤ p ∨ p + 16 ≤ x
  /-- A pointer has 32 bits. -/
  elems_fit : ∀ x ∈ elems, x + 8 ≤ 2 ^ 32

/-- The sequences of the lists that are initialised. -/
abbrev Seqs : Type := Nat → Option (List Nat)

namespace Seqs

/-- `e` is in none of the lists. -/
def Free (S : Seqs) (e : Nat) : Prop := ∀ p l, S p = some l → e ∉ l

end Seqs

/-- An operation on a list. -/
inductive ListOp
  | init (list : Nat)
  | push (plist elem : Nat)
  | append (plist elem : Nat)
  | insertBefore (before elem : Nat)
  | remove (pelem : Nat)
  | pop (plist : Nat)

/-- What the code does. -/
def ListOp.run (m : Mem) : ListOp → Mem
  | .init list => m.listInit list
  | .push plist elem => m.listPush plist elem
  | .append plist elem => m.listAppend plist elem
  | .insertBefore before elem => m.listInsertBefore before elem
  | .remove pelem => m.listRemove pelem
  | .pop plist => (m.listPop plist).2

/-- What an operation does to the sequences.  It changes the one list it is about. -/
inductive ListStep (H : ListHeap) (S : Seqs) : ListOp → Seqs → Prop
  | init {p : Nat} (hp : p ∈ H.lists) : ListStep H S (.init p) (Function.update S p (some []))
  | push {p e : Nat} {l : List Nat} (hp : S p = some l) (he : e ∈ H.elems) (hfree : S.Free e) :
      ListStep H S (.push p e) (Function.update S p (some (e :: l)))
  | append {p e : Nat} {l : List Nat} (hp : S p = some l) (he : e ∈ H.elems) (hfree : S.Free e) :
      ListStep H S (.append p e) (Function.update S p (some (l ++ [e])))
  | insertBefore {p b e : Nat} {l₁ l₂ : List Nat} (hp : S p = some (l₁ ++ b :: l₂))
      (he : e ∈ H.elems) (hfree : S.Free e) :
      ListStep H S (.insertBefore b e) (Function.update S p (some (l₁ ++ e :: b :: l₂)))
  | insertBeforeTail {p e : Nat} {l : List Nat} (hp : S p = some l) (he : e ∈ H.elems)
      (hfree : S.Free e) :
      ListStep H S (.insertBefore (p + 8) e) (Function.update S p (some (l ++ [e])))
  | remove {p e : Nat} {l₁ l₂ : List Nat} (hp : S p = some (l₁ ++ e :: l₂)) :
      ListStep H S (.remove e) (Function.update S p (some (l₁ ++ l₂)))
  | pop {p e : Nat} {l : List Nat} (hp : S p = some (e :: l)) :
      ListStep H S (.pop p) (Function.update S p (some l))

/-- The code and the sequences take a step together. -/
def ListStep.both (H : ListHeap) (s : Mem × Seqs) (op : ListOp) (s' : Mem × Seqs) : Prop :=
  s'.1 = op.run s.1 ∧ ListStep H s.2 op s'.2

namespace ListHeap

variable {H : ListHeap} {m m' : Mem} {S : Seqs} {p q e w : Nat} {l l' l₁ l₂ : List Nat}

/-- The links of every list spell its sequence, and no element is in two places. -/
structure Holds (H : ListHeap) (m : Mem) (S : Seqs) : Prop where
  mem : ∀ p l, S p = some l → p ∈ H.lists
  isList : ∀ p l, S p = some l → m.IsList p l
  nodup : ∀ p l, S p = some l → l.Nodup
  elems : ∀ p l, S p = some l → ∀ x ∈ l, x ∈ H.elems
  disjoint : ∀ p q l l', S p = some l → S q = some l' → p ≠ q → l.Disjoint l'

theorem spaced_elems (hl : ∀ x ∈ l, x ∈ H.elems) (hnodup : l.Nodup) : Spaced l := by
  refine List.Pairwise.imp_of_mem ?_ hnodup
  intro x y hx hy hne
  exact H.elems_apart x (hl x hx) y (hl y hy) hne

/-- Elements and the two ends of a list do not overlap. -/
theorem spaced_list (hp : p ∈ H.lists) (hl : ∀ x ∈ l, x ∈ H.elems) (hnodup : l.Nodup) :
    Spaced (p :: l ++ [p + 8]) := by
  apply Spaced.ends
  · exact spaced_elems hl hnodup
  · exact fun x hx => H.elems_lists x (hl x hx) p hp

/-- The elements of a list have different numbers `x / 8` below `2 ^ 29`. -/
theorem length_lt (hl : ∀ x ∈ l, x ∈ H.elems) (hnodup : l.Nodup) : l.length < 2 ^ 32 := by
  have hspaced := spaced_elems hl hnodup
  have hnumbers : (l.map (· / 8)).Nodup := by
    apply List.pairwise_map.mpr
    exact hspaced.imp fun {x y} h => by omega
  have hbound : ∀ n ∈ l.map (· / 8), n ∈ List.range (2 ^ 29) := by
    intro n hn
    obtain ⟨x, hx, rfl⟩ := List.mem_map.mp hn
    have := H.elems_fit x (hl x hx)
    rw [List.mem_range]
    omega
  have := (hnumbers.subperm hbound).length_le
  rw [List.length_map, List.length_range] at this
  exact Nat.lt_of_le_of_lt this (by decide)

theorem Holds.answers (h : H.Holds m S) (hp : S p = some l) : m.Answers p l := by
  apply (h.isList p l hp).answers
  · exact spaced_list (h.mem p l hp) (h.elems p l hp) (h.nodup p l hp)
  · exact length_lt (h.elems p l hp) (h.nodup p l hp)

/-- Elements of the heap that are not in a list do not touch it, nor do other lists. -/
theorem outside_of (hq : q ∈ H.lists) (hl : ∀ x ∈ l, x ∈ H.elems)
    (hp : p ∈ H.lists) (hne : q ≠ p) (hx : ∀ x ∈ l', x ∈ H.elems) (hdisj : l.Disjoint l')
    {x : Nat} (hmem : x ∈ q :: l ++ [q + 8]) (hw : w = x ∨ w = x + 4) :
    Outside w (l' ++ [p, p + 8]) := by
  have hlists := H.lists_apart q hq p hp hne
  intro y hy
  simp only [List.mem_cons, List.mem_append, List.not_mem_nil, or_false] at hmem hy
  rcases hmem with (rfl | hmem) | rfl <;> rcases hy with hy | rfl | rfl
  · have := H.elems_lists y (hx y hy) x hq
    omega
  · omega
  · omega
  · have := H.elems_apart x (hl x hmem) y (hx y hy) fun heq => hdisj hmem (heq ▸ hy)
    omega
  · have := H.elems_lists x (hl x hmem) y hp
    omega
  · have := H.elems_lists x (hl x hmem) p hp
    omega
  · have := H.elems_lists y (hx y hy) q hq
    omega
  · omega
  · omega

/-- A list gets a new sequence by writes to its own words and to those of elements
    that are in no other list. -/
theorem Holds.update (h : H.Holds m S) (hp : p ∈ H.lists) (hlist : m'.IsList p l)
    (hnodup : l.Nodup) (hl : ∀ x ∈ l, x ∈ H.elems) (nodes : List Nat)
    (hnodes : ∀ x ∈ nodes, x ∈ H.elems) (hsub : l ⊆ nodes)
    (hfree : ∀ q l', S q = some l' → q ≠ p → l'.Disjoint nodes)
    (hsame : ∀ w, Outside w (nodes ++ [p, p + 8]) → m' w = m w) :
    H.Holds m' (Function.update S p (some l)) := by
  have hcases : ∀ q l', Function.update S p (some l) q = some l' →
      q = p ∧ l' = l ∨ q ≠ p ∧ S q = some l' := by
    intro q l' hq
    by_cases hqp : q = p
    · rw [hqp, Function.update_self] at hq
      exact Or.inl ⟨hqp, (Option.some.inj hq).symm⟩
    · rw [Function.update_of_ne hqp] at hq
      exact Or.inr ⟨hqp, hq⟩
  constructor
  case mem =>
    intro q l' hq
    rcases hcases q l' hq with ⟨rfl, -⟩ | ⟨-, hq⟩
    · exact hp
    · exact h.mem q l' hq
  case isList =>
    intro q l' hq
    rcases hcases q l' hq with ⟨rfl, rfl⟩ | ⟨hqp, hq⟩
    · exact hlist
    · refine (h.isList q l' hq).congr fun x hx => ⟨hsame _ ?_, hsame _ ?_⟩
      · exact outside_of (h.mem q l' hq) (h.elems q l' hq) hp hqp hnodes (hfree q l' hq hqp) hx
          (Or.inl rfl)
      · exact outside_of (h.mem q l' hq) (h.elems q l' hq) hp hqp hnodes (hfree q l' hq hqp) hx
          (Or.inr rfl)
  case nodup =>
    intro q l' hq
    rcases hcases q l' hq with ⟨-, rfl⟩ | ⟨-, hq⟩
    · exact hnodup
    · exact h.nodup q l' hq
  case elems =>
    intro q l' hq
    rcases hcases q l' hq with ⟨-, rfl⟩ | ⟨-, hq⟩
    · exact hl
    · exact h.elems q l' hq
  case disjoint =>
    intro q r l' l'' hq hr hne
    rcases hcases q l' hq with ⟨rfl, rfl⟩ | ⟨hqp, hq'⟩ <;>
      rcases hcases r l'' hr with ⟨rfl, rfl⟩ | ⟨hrp, hr'⟩
    · exact absurd rfl hne
    · exact fun x hx hx' => hfree r l'' hr' hrp hx' (hsub hx)
    · exact fun x hx hx' => hfree q l' hq' hqp hx (hsub hx')
    · exact h.disjoint q r l' l'' hq' hr' hne

/-! ## The operations -/

/-- Before anything is initialised. -/
theorem holds_none (H : ListHeap) (m : Mem) : H.Holds m fun _ => none := by
  constructor <;> intros <;> contradiction

theorem Holds.init (h : H.Holds m S) (hp : p ∈ H.lists) :
    H.Holds (m.listInit p) (Function.update S p (some [])) := by
  apply h.update hp (Mem.isList_listInit m p) List.nodup_nil (by simp) [] (by simp) (by simp)
  · simp
  · intro w hw
    have h₁ := hw p (by simp)
    have h₂ := hw (p + 8) (by simp)
    exact Mem.listInit_outside (by omega)

/-- An element goes in between `l₁` and `l₂`. -/
theorem Holds.insert {b : Nat} (h : H.Holds m S) (hp : S p = some (l₁ ++ l₂)) (he : e ∈ H.elems)
    (hfree : S.Free e) (hb : (l₂ ++ [p + 8]).head? = some b) :
    H.Holds (m.listInsertBefore b e) (Function.update S p (some (l₁ ++ e :: l₂))) := by
  have hlist := h.isList _ _ hp
  have hmem := h.mem _ _ hp
  have hperm : (e :: (l₁ ++ l₂)).Perm (l₁ ++ e :: l₂) := List.perm_middle.symm
  have hnew : (e :: (l₁ ++ l₂)).Nodup := List.nodup_cons.mpr ⟨hfree p _ hp, h.nodup _ _ hp⟩
  have hall : ∀ x ∈ e :: (l₁ ++ l₂), x ∈ H.elems := by
    intro x hx
    rcases List.mem_cons.mp hx with rfl | hx
    · exact he
    · exact h.elems _ _ hp x hx
  have hspaced : Spaced (e :: (p :: (l₁ ++ l₂) ++ [p + 8])) := by
    refine (spaced_list hmem hall hnew).perm ?_
    exact List.Perm.swap _ _ _
  refine h.update hmem (hlist.insertBefore hb hspaced) (hperm.nodup_iff.mp hnew)
    (fun x hx => hall x (hperm.mem_iff.mpr hx)) (e :: (l₁ ++ l₂)) hall
    (fun x hx => hperm.mem_iff.mpr hx) ?_ ?_
  · intro q l' hq hqp x hx hx'
    rcases List.mem_cons.mp hx' with rfl | hx'
    · exact hfree q l' hq hx
    · exact h.disjoint q p l' _ hq hp hqp hx hx'
  · intro w hw
    apply hlist.insertBefore_outside hb
    intro x hx
    apply hw
    simp only [List.mem_cons, List.mem_append, List.not_mem_nil, or_false] at hx ⊢
    tauto

/-- An element comes out from between `l₁` and `l₂`. -/
theorem Holds.remove (h : H.Holds m S) (hp : S p = some (l₁ ++ e :: l₂)) :
    H.Holds (m.listRemove e) (Function.update S p (some (l₁ ++ l₂))) := by
  have hlist := h.isList _ _ hp
  have hmem := h.mem _ _ hp
  have hspaced := spaced_list hmem (h.elems _ _ hp) (h.nodup _ _ hp)
  have hsub : (l₁ ++ l₂).Sublist (l₁ ++ e :: l₂) := (List.sublist_cons_self e l₂).append_left l₁
  refine h.update hmem (hlist.remove hspaced) ((h.nodup _ _ hp).sublist hsub)
    (fun x hx => h.elems _ _ hp x (hsub.subset hx)) (l₁ ++ e :: l₂) (h.elems _ _ hp) hsub.subset
    (fun q l' hq hqp => h.disjoint q p l' _ hq hp hqp) ?_
  intro w hw
  apply hlist.remove_outside hspaced
  intro x hx
  apply hw
  simp only [List.mem_cons, List.mem_append, List.not_mem_nil, or_false] at hx ⊢
  tauto

/-- Every operation keeps links and sequences together. -/
theorem Holds.step {op : ListOp} {S' : Seqs} (h : H.Holds m S) (hstep : ListStep H S op S') :
    H.Holds (op.run m) S' := by
  cases hstep with
  | init hp => exact h.init hp
  | push hp he hfree =>
    rename_i p e l
    have hfront : S p = some ([] ++ l) := hp
    apply h.insert hfront he hfree
    -- the element behind the head, or the tail
    cases l with
    | nil => exact congrArg some (Eq.symm (h.isList _ _ hp).1)
    | cons x l => exact congrArg some (h.isList _ _ hp).head.symm
  | append hp he hfree =>
    rename_i p e l
    rw [← List.append_nil l] at hp
    exact h.insert hp he hfree rfl
  | insertBefore hp he hfree => exact h.insert hp he hfree rfl
  | insertBeforeTail hp he hfree =>
    rename_i p e l
    rw [← List.append_nil l] at hp
    exact h.insert hp he hfree rfl
  | remove hp => exact h.remove hp
  | pop hp =>
    rename_i p e l
    have hhead := (h.isList _ _ hp).head
    have hfront : S p = some ([] ++ e :: l) := hp
    rw [ListOp.run, Mem.listPop, hhead]
    exact h.remove hfront

end ListHeap

/-- After any sequence of operations every list answers for its sequence. -/
theorem lists_refine_sequences (H : ListHeap) (m₀ : Mem) {m : Mem} {S : Seqs} {p : Nat}
    {l : List Nat} (hrun : Run (ListStep.both H) (fun _ _ => True) (m₀, fun _ => none) (m, S))
    (hp : S p = some l) : m.Answers p l := by
  have hholds : H.Holds m S :=
    hrun.invariant (I := fun s => H.Holds s.1 s.2) (H.holds_none m₀) (by
      rintro ⟨m, S⟩ op ⟨m', S'⟩ h - ⟨hm, hstep⟩
      obtain rfl : m' = op.run m := hm
      exact h.step hstep)
  exact hholds.answers hp

/-- One list at 100 and the nodes at 200 and 300. -/
def ListHeap.small : ListHeap where
  elems := {x | x = 200 ∨ x = 300}
  lists := {x | x = 100}
  elems_apart := by
    rintro x (rfl | rfl) y (rfl | rfl) <;> omega
  lists_apart := by
    rintro x rfl y rfl
    omega
  elems_lists := by
    rintro x (rfl | rfl) y rfl <;> omega
  elems_fit := by
    rintro x (rfl | rfl) <;> omega

/-- Only the list at `p` is initialised. -/
def Seqs.single (p : Nat) (l : List Nat) : Seqs := Function.update (fun _ => none) p (some l)

theorem Seqs.single_self {p : Nat} {l : List Nat} : Seqs.single p l p = some l :=
  Function.update_self _ _ _

theorem Seqs.single_update (p : Nat) (l l' : List Nat) :
    Function.update (Seqs.single p l) p (some l') = Seqs.single p l' :=
  Function.update_idem _ _ _

theorem Seqs.single_free {p e : Nat} {l : List Nat} (he : e ∉ l) : (Seqs.single p l).Free e := by
  intro q l' hq
  by_cases h : q = p
  · rw [h, Seqs.single_self] at hq
    exact Option.some.inj hq ▸ he
  · rw [Seqs.single, Function.update_of_ne h] at hq
    cases hq

/-- 300 goes in front of 200 and comes out again. -/
theorem lists_refine_sequences_small :
    ((((Mem.listInit (fun _ => 0) 100).listPush 100 200).listInsertBefore 200 300).listPop 100).2.Answers 100
      [200] := by
  have step {m m' : Mem} {S S' : Seqs} (op : ListOp)
      (h : Run (ListStep.both .small) (fun _ _ => True) (fun _ => 0, fun _ => none) (m, S))
      (hm : m' = op.run m) (hS : ListStep .small S op S') :
      Run (ListStep.both .small) (fun _ _ => True) (fun _ => 0, fun _ => none) (m', S') :=
    .next op h trivial ⟨hm, hS⟩
  have hinit : ListStep .small (fun _ => none) (.init 100) (.single 100 []) := .init rfl
  have hpush : ListStep .small (.single 100 []) (.push 100 200) (.single 100 [200]) := by
    rw [← Seqs.single_update 100 [] [200]]
    exact .push Seqs.single_self (Or.inl rfl) (Seqs.single_free (by simp))
  have hinsert : ListStep .small (.single 100 [200]) (.insertBefore 200 300)
      (.single 100 [300, 200]) := by
    rw [← Seqs.single_update 100 [200] [300, 200]]
    have hfront : Seqs.single 100 [200] 100 = some ([] ++ 200 :: []) := Seqs.single_self
    exact ListStep.insertBefore hfront (Or.inr rfl) (Seqs.single_free (by simp))
  have hpop : ListStep .small (.single 100 [300, 200]) (.pop 100) (.single 100 [200]) := by
    rw [← Seqs.single_update 100 [300, 200] [200]]
    exact .pop Seqs.single_self
  exact lists_refine_sequences .small (fun _ => 0)
    (step _ (step _ (step _ (step _ .start rfl hinit) rfl hpush) rfl hinsert) rfl hpop)
    Seqs.single_self

end ZxyOs
