/-
  ZxyOs.User.HeapLocal

  A call of the allocator on a heap that satisfies the invariant looks at nothing
  but the user memory and the descriptors it is given, and changes nothing else.

  `Agree V m m'` says that two memories agree on the words of `V`.  The memory
  transformers of the calls preserve it as long as the words they look at are in `V`.
-/

import ZxyOs.User.Heap

namespace ZxyOs

open Lib Lib.Exec

/-- Two memories agree on the words of `V`. -/
def Agree (V : Nat → Prop) (m m' : Mem) : Prop := ∀ w, V w → m w = m' w

/-! ## The memory transformers -/

namespace Agree

variable {V : Nat → Prop} {m m' : Mem} {a c desc e p v w : Nat} {l : List Nat}

theorem update (h : Agree V m m') : Agree V (Function.update m a v) (Function.update m' a v) := by
  intro w hw
  by_cases hwa : w = a
  · rw [hwa, Function.update_self, Function.update_self]
  · rw [Function.update_of_ne hwa, Function.update_of_ne hwa]
    exact h w hw

theorem clear (h : Agree V m m') : Agree V (m.clear a c) (m'.clear a c) := by
  intro w hw
  simp only [Mem.clear]
  rw [h w hw]

theorem listInsertBefore (h : Agree V m m') (hp : V p) :
    Agree V (m.listInsertBefore p e) (m'.listInsertBefore p e) := by
  have h₁ : Agree V (Function.update m (m p + 4) e) (Function.update m' (m p + 4) e) := h.update
  simp only [Mem.listInsertBefore, ← h p hp]
  rw [← h₁ p hp]
  exact h₁.update.update.update

theorem listAppend (h : Agree V m m') (hp : V (p + 8)) :
    Agree V (m.listAppend p e) (m'.listAppend p e) :=
  h.listInsertBefore hp

theorem listRemove (h : Agree V m m') (he : V e ∧ V (e + 4)) :
    Agree V (m.listRemove e) (m'.listRemove e) := by
  have h₁ : Agree V (Function.update m (m e + 4) (m (e + 4)))
      (Function.update m' (m e + 4) (m (e + 4))) := h.update
  simp only [Mem.listRemove, ← h e he.1, ← h (e + 4) he.2]
  rw [← h₁ e he.1, ← h₁ (e + 4) he.2]
  exact h₁.update

theorem appendAll (h : Agree V m m') (hp : V (p + 8)) :
    Agree V (m.appendAll p l) (m'.appendAll p l) := by
  induction l generalizing m m' with
  | nil => exact h
  | cons b l ih => exact ih (h.listAppend hp)

theorem removeAll (h : Agree V m m') (hl : ∀ b ∈ l, V b ∧ V (b + 4)) :
    Agree V (m.removeAll l) (m'.removeAll l) := by
  induction l generalizing m m' with
  | nil => exact h
  | cons b l ih =>
    exact ih (h.listRemove (hl b List.mem_cons_self)) fun c hc => hl c (List.mem_cons_of_mem _ hc)

theorem arenaHeader (h : Agree V m m') (hdesc : V (desc + 4)) :
    Agree V (m.arenaHeader a desc) (m'.arenaHeader a desc) := by
  have h₁ : Agree V
      (Function.update (Function.update (m.clear a pgSize) a desc) (a + 8) 0)
      (Function.update (Function.update (m'.clear a pgSize) a desc) (a + 8) 0) :=
    h.clear.update.update
  simp only [Mem.arenaHeader]
  rw [h₁ _ hdesc]
  exact h₁.update

theorem largeHeader (h : Agree V m m') : Agree V (m.largeHeader a c) (m'.largeHeader a c) :=
  h.clear.update.update.update

theorem takeFirst (h : Agree V m m') (hhead : V (desc + 12)) (hdesc : V desc)
    (hb : V (m (desc + 12)) ∧ V (m (desc + 12) + 4))
    (ha : V (block2arena (m (desc + 12)) + 4)) : Agree V (m.takeFirst desc) (m'.takeFirst desc) := by
  have h₁ : Agree V (m.listRemove (m (desc + 12))) (m'.listRemove (m (desc + 12))) := h.listRemove hb
  have h₂ : Agree V ((m.listRemove (m (desc + 12))).clear (m (desc + 12))
        (m.listRemove (m (desc + 12)) desc))
      ((m'.listRemove (m (desc + 12))).clear (m (desc + 12))
        (m.listRemove (m (desc + 12)) desc)) := h₁.clear
  simp only [Mem.takeFirst, ← h _ hhead, ← h₁ _ hdesc]
  rw [← h₂ _ ha]
  exact h₂.update

theorem putBack (h : Agree V m m') (ha : V (block2arena p) ∧ V (block2arena p + 4))
    (hdesc : V (m (block2arena p) + 8 + 8)) : Agree V (m.putBack p) (m'.putBack p) := by
  have h₁ : Agree V (m.listAppend (m (block2arena p) + 8) p)
      (m'.listAppend (m (block2arena p) + 8) p) := h.listAppend hdesc
  simp only [Mem.putBack, ← h _ ha.1]
  rw [← h₁ _ ha.2]
  exact h₁.update

theorem findDesc {descs size n idx : Nat} (h : Agree V m m')
    (hdescs : ∀ j, idx ≤ j → j < idx + n → V (descAt descs j)) :
    ZxyOs.findDesc m descs size n idx = ZxyOs.findDesc m' descs size n idx := by
  induction n generalizing idx with
  | zero => rfl
  | succ n ih =>
    simp only [ZxyOs.findDesc]
    rw [h _ (hdescs idx (le_refl _) (by omega)),
      ih fun j h1 h2 => hdescs j (by omega) (by omega)]

theorem listEmpty (h : Agree V m m') (hp : V (p + 4)) : m.listEmpty p = m'.listEmpty p := by
  simp only [Mem.listEmpty]
  rw [h _ hp]

end Agree

/-! ## The calls -/

section Calls

variable {V : Nat → Prop} {m m' : Mem} {desc descs poolSize size i p w : Nat} {σ : Kernel}
  {free : Nat → List Nat} {page : Option Nat} {x : Nat × Nat} {held : List (Nat × Nat)}

/-- The words a process has for itself: its user memory and its descriptors. -/
def Visible (p w : Nat) : Prop := w < kernelBase ∨ InDescs p w

theorem visible_desc {k : Nat} (hi : i < 7) (hk : k < 24) :
    Visible p (descAt (uBlockDesc p) i + k) := by
  refine Or.inr ?_
  simp only [InDescs, descAt, descCnt]
  omega

/-- The ranges lie in user memory. -/
def UserRanges (held : List (Nat × Nat)) : Prop := ∀ r ∈ held, r.1 + 4096 * r.2 ≤ kernelBase

theorem UserPageOk.pageOk {s : KHeap} (h : UserPageOk s.held size page) (hp : kernelBase ≤ p) :
    PageOk (uBlockDesc p) s size page := by
  intro a ha
  obtain ⟨h1, h2, h3, h4⟩ := h a ha
  simp only [pgSize, kernelBase, uBlockDesc, uBlockDescOffset] at *
  exact ⟨h1, h2, by omega, Or.inr (by omega), h4⟩

/-- The links of a block handed out and the header of its arena lie in one range. -/
theorem ArenaInv.live_words (h : ArenaInv descs σ free none) (hx : x ∈ σ.live) :
    ∃ r ∈ σ.heap.held, r.1 = block2arena x.1 ∧ r.1 + 12 ≤ x.1 ∧ x.1 + 8 ≤ r.1 + 4096 * r.2 := by
  rcases (h.live x hx).2 with ⟨a, i, hb, -⟩ | ⟨a, c, hl, heq, -⟩
  · have hbounds := hb.bounds
    have hsz := blockSize_ge i
    exact ⟨(a, 1), hb.1.held, (h.block2arena_eq hb).symm, hbounds.1, by simp only; omega⟩
  · have hpos := (h.pages.aligned _ hl.held).2.2.1
    rw [heq]
    exact ⟨(a, c), hl.held, (block2arena_large h.pages hl).symm, le_refl _, by
      simp only at hpos ⊢
      omega⟩

theorem refillOutcome_agree (h : Agree V m m') (hV : ∀ k < 24, V (desc + k)) :
    (refillOutcome m desc page = none ∧ refillOutcome m' desc page = none) ∨
      ∃ m₁ m₁' taken, refillOutcome m desc page = some (m₁, taken) ∧
        refillOutcome m' desc page = some (m₁', taken) ∧ Agree V m₁ m₁' := by
  have hempty : m.listEmpty (desc + 8) = m'.listEmpty (desc + 8) := h.listEmpty (hV 12 (by omega))
  simp only [refillOutcome, ← hempty, ← h (desc + 4) (hV 4 (by omega)), ← h desc (hV 0 (by omega))]
  split
  · cases page with
    | none => exact Or.inl ⟨rfl, rfl⟩
    | some a =>
      refine Or.inr ⟨_, _, _, rfl, rfl, ?_⟩
      exact (h.arenaHeader (hV 4 (by omega))).appendAll (hV 16 (by omega))
  · exact Or.inr ⟨m, m', [], rfl, rfl, h⟩

/-- A range taken by `sys_malloc` is the one `malloc_page` would hand out. -/
theorem mallocOutcome_taken {r : Option Nat} {taken : List (Nat × Nat)}
    (ho : mallocOutcome descs poolSize size page m = (r, m', taken)) :
    ∀ q ∈ taken, ∃ a, page = some a ∧ q = (a, pagesFor size) := by
  intro q hq
  unfold mallocOutcome at ho
  split at ho
  · obtain ⟨-, -, rfl⟩ : none = r ∧ m = m' ∧ [] = taken := by simpa using ho
    exact absurd hq List.not_mem_nil
  split at ho
  · cases page with
    | none =>
      obtain ⟨-, -, rfl⟩ : none = r ∧ m = m' ∧ [] = taken := by simpa using ho
      exact absurd hq List.not_mem_nil
    | some a =>
      obtain ⟨-, -, rfl⟩ : some (a + 12) = r ∧ m.largeHeader a (pagesFor size) = m' ∧
          [(a, pagesFor size)] = taken := by simpa using ho
      exact ⟨a, rfl, List.mem_singleton.mp hq⟩
  · next hbig =>
    have hone : pagesFor size = 1 := if_neg hbig
    simp only [refillOutcome] at ho
    split at ho
    · obtain ⟨-, -, rfl⟩ : none = r ∧ m = m' ∧ [] = taken := by simpa using ho
      exact absurd hq List.not_mem_nil
    · next m₁ taken₁ hsome =>
      obtain rfl : taken₁ = taken := by
        have := congrArg (fun o => o.2.2) ho
        exact this
      split at hsome
      · obtain ⟨a, ha, heq⟩ := Option.map_eq_some_iff.mp hsome
        obtain ⟨-, rfl⟩ := Prod.mk.inj heq
        rw [hone]
        exact ⟨a, ha, List.mem_singleton.mp hq⟩
      · obtain ⟨-, rfl⟩ := Prod.mk.inj (Option.some.inj hsome)
        exact absurd hq List.not_mem_nil

theorem UserPageOk.userRanges {r : Option Nat} {taken : List (Nat × Nat)}
    (h : UserPageOk held size page) (huser : UserRanges held)
    (ho : mallocOutcome descs poolSize size page m = (r, m', taken)) : UserRanges (taken ++ held) := by
  intro q hq
  rcases List.mem_append.mp hq with hq | hq
  · obtain ⟨a, ha, rfl⟩ := mallocOutcome_taken ho q hq
    exact (h a ha).2.2.1
  · exact huser q hq

/-- `sys_malloc` depends on visible words only. -/
theorem ArenaInv.mallocOutcome_agree (h : ArenaInv (uBlockDesc p) σ free none)
    (hp : kernelBase ≤ p) (huser : UserRanges σ.heap.held)
    (hpage : UserPageOk σ.heap.held size page) (hagree : Agree (Visible p) σ.heap.mem m)
    {r : Option Nat} {taken : List (Nat × Nat)}
    (ho : mallocOutcome (uBlockDesc p) poolSize size page σ.heap.mem = (r, m', taken)) :
    ∃ m₂, mallocOutcome (uBlockDesc p) poolSize size page m = (r, m₂, taken) ∧
      Agree (Visible p) m' m₂ := by
  by_cases hsize : ¬ (0 < size ∧ size < poolSize)
  · rw [mallocOutcome.eq_def, if_pos hsize] at ho ⊢
    obtain ⟨rfl, rfl, rfl⟩ : none = r ∧ σ.heap.mem = m' ∧ [] = taken := by simpa using ho
    exact ⟨m, rfl, hagree⟩
  by_cases hbig : 1024 < size
  · rw [mallocOutcome.eq_def, if_neg hsize, if_pos hbig] at ho ⊢
    cases page with
    | none =>
      obtain ⟨rfl, rfl, rfl⟩ : none = r ∧ σ.heap.mem = m' ∧ [] = taken := by simpa using ho
      exact ⟨m, rfl, hagree⟩
    | some a =>
      obtain ⟨rfl, rfl, rfl⟩ : some (a + 12) = r ∧
          σ.heap.mem.largeHeader a (pagesFor size) = m' ∧ [(a, pagesFor size)] = taken := by
        simpa using ho
      exact ⟨_, rfl, hagree.largeHeader⟩
  · have hspec := h.kernelMalloc_returns (hpage.pageOk hp) ho
    have hranges := hpage.userRanges huser ho
    rw [mallocOutcome.eq_def, if_neg hsize, if_neg hbig] at ho ⊢
    have hfind : findDesc σ.heap.mem (uBlockDesc p) size descCnt 0 =
        findDesc m (uBlockDesc p) size descCnt 0 :=
      hagree.findDesc fun j _ hj => visible_desc (k := 0) (by simpa using hj) (by omega)
    have hlt := (h.findDesc_fits hbig).1
    rw [← hfind]
    set i := findDesc σ.heap.mem (uBlockDesc p) size descCnt 0
    have hV (k : Nat) (hk : k < 24) : Visible p (descAt (uBlockDesc p) i + k) :=
      visible_desc hlt hk
    rcases @refillOutcome_agree _ _ _ _ page hagree hV with
      ⟨hnone, hnone'⟩ | ⟨m₁, m₁', taken₁, hsome, hsome', hagree₁⟩
    · simp only [hnone, hnone'] at ho ⊢
      obtain ⟨rfl, rfl, rfl⟩ : none = r ∧ σ.heap.mem = m' ∧ [] = taken := by simpa using ho
      exact ⟨m, rfl, hagree⟩
    · simp only [hsome, hsome'] at ho ⊢
      obtain ⟨rfl, rfl, rfl⟩ : some (m₁ (descAt (uBlockDesc p) i + 12)) = r ∧
          m₁.takeFirst (descAt (uBlockDesc p) i) = m' ∧ taken₁ = taken := by simpa using ho
      -- the block taken lies in a range, with the header of its arena in front
      obtain ⟨free', hinv⟩ := hspec.inv
      obtain ⟨q, hq, harena, h1, h2⟩ := hinv.live_words
        (x := (m₁ (descAt (uBlockDesc p) i + 12), size)) List.mem_cons_self
      have hquser := hranges q hq
      simp only at harena h1 h2
      rw [← hagree₁ _ (hV 12 (by omega))]
      refine ⟨_, rfl, hagree₁.takeFirst (hV 12 (by omega)) (hV 0 (by omega))
        ⟨Or.inl (by omega), Or.inl (by omega)⟩ (Or.inl (by omega))⟩

/-- `sys_free` of a block handed out depends on visible words only. -/
theorem ArenaInv.freeOutcome_agree (h : ArenaInv (uBlockDesc p) σ free none)
    (huser : UserRanges σ.heap.held) (hx : x ∈ σ.live)
    (hagree : Agree (Visible p) σ.heap.mem m') :
    (freeOutcome x.1 σ.heap.mem).2 = (freeOutcome x.1 m').2 ∧
      Agree (Visible p) (freeOutcome x.1 σ.heap.mem).1 (freeOutcome x.1 m').1 := by
  rcases (h.live x hx).2 with ⟨a, i, hb, -⟩ | ⟨a, c, hl, hxa, -⟩
  · have hs := hb.1
    have harena := h.block2arena_eq hb
    have hruser := huser _ hs.held
    have hsmall : ¬ (σ.heap.mem (a + 8) = 1 ∧ σ.heap.mem a = 0) := by
      rw [hs.large]
      omega
    have hheader (k : Nat) (hk : k < 12) : Visible p (a + k) := Or.inl (by
      simp only at hruser
      omega)
    have hV (k : Nat) (hk : k < 24) : Visible p (descAt (uBlockDesc p) i + k) :=
      visible_desc hs.lt hk
    have hput : Agree (Visible p) (σ.heap.mem.putBack x.1) (m'.putBack x.1) := by
      refine hagree.putBack ?_ ?_
      · rw [harena]
        exact ⟨hheader 0 (by omega), hheader 4 (by omega)⟩
      · rw [harena, hs.desc]
        exact hV 16 (by omega)
    obtain ⟨htouch, hinv⟩ := h.putBack hx hb
    have hhdr := h.touches_header htouch hs hs.held
    have hdesc₁ : σ.heap.mem.putBack x.1 a = descAt (uBlockDesc p) i := hhdr.1.trans hs.desc
    have hsize₁ : σ.heap.mem.putBack x.1 (descAt (uBlockDesc p) i) = blockSize i :=
      (hinv.desc i hs.lt).1
    have hper₁ : σ.heap.mem.putBack x.1 (descAt (uBlockDesc p) i + 4) = perArena i :=
      (hinv.desc i hs.lt).2
    have hdesc₁' : m'.putBack x.1 a = descAt (uBlockDesc p) i := by
      rw [← hput a (hheader 0 (by omega)), hdesc₁]
    have hsize₁' : m'.putBack x.1 (descAt (uBlockDesc p) i) = blockSize i := by
      rw [← hput (descAt (uBlockDesc p) i) (hV 0 (by omega)), hsize₁]
    have hper₁' : m'.putBack x.1 (descAt (uBlockDesc p) i + 4) = perArena i := by
      rw [← hput _ (hV 4 (by omega)), hper₁]
    have hblocks : arena2block (m'.putBack x.1) a = arena2block (σ.heap.mem.putBack x.1) a := by
      funext k
      rw [arena2block, arena2block, hdesc₁, hdesc₁', hsize₁, hsize₁']
    simp only [freeOutcome, harena, ← hagree _ (hheader 8 (by omega)),
      ← hagree a (hheader 0 (by omega)), if_neg hsmall, hdesc₁, hdesc₁', hper₁,
      hper₁', hblocks, ← hput _ (hheader 4 (by omega))]
    split
    · refine ⟨rfl, hput.removeAll fun b hb => ?_⟩
      obtain ⟨k, hk, rfl⟩ := List.mem_map.mp hb
      have hbk : arena2block (σ.heap.mem.putBack x.1) a k = blockAt a i k := by
        rw [arena2block, hdesc₁, hsize₁, blockAt]
      obtain ⟨h1, h2⟩ := @blockAt_bounds a i k (List.mem_range.mp hk)
      have h3 := blockSize_ge i
      simp only at hruser
      rw [hbk]
      exact ⟨Or.inl (by omega), Or.inl (by omega)⟩
    · exact ⟨rfl, hput⟩
  · have harena : block2arena x.1 = a := by
      rw [hxa]
      exact block2arena_large h.pages hl
    have hruser := huser _ hl.held
    have hpos := (h.pages.aligned _ hl.held).2.2.1
    have hheader (k : Nat) (hk : k < 12) : Visible p (a + k) := Or.inl (by
      simp only at hruser hpos
      omega)
    have hlarge : σ.heap.mem (a + 8) = 1 ∧ σ.heap.mem a = 0 := ⟨hl.large, hl.desc⟩
    simp only [freeOutcome, harena, ← hagree _ (hheader 8 (by omega)),
      ← hagree _ (hheader 4 (by omega)), ← hagree a (hheader 0 (by omega)), if_pos hlarge]
    exact ⟨trivial, hagree⟩

end Calls

end ZxyOs
