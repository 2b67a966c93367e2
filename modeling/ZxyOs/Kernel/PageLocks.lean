/-
  ZxyOs.Kernel.PageLocks

  Where a thread stands with the locks of the pools and in `palloc`, and that every
  function of the page allocator keeps to it.

  A thread takes the semaphore of a lock, becomes the holder, gives the holder up and
  gives the semaphore back (`Phase`).  In `palloc` it looks for a byte that is not
  full, then for a clear bit in it, and sets the bit (`Scan`).  The discipline asks of
  the functions that a palloc of the user pool is made by the holder of its lock; of
  one of the kernel pool it asks nothing, because `page_table_add` does not take the
  lock.
-/

import ZxyOs.Kernel.PageThreads

namespace ZxyOs

open Lib Lib.Prog

/-- Where a thread is with a lock. -/
inductive Phase where
  | out
  | taken
  | owned
  | released
  deriving DecidableEq

/-- Where a thread is in `palloc`. -/
inductive Scan where
  | idle
  | called (pf : PoolFlag)
  /-- byte `k` has a clear bit, at `j` or behind it -/
  | byte (pf : PoolFlag) (k j : Nat)
  /-- bit `i` is clear -/
  | found (pf : PoolFlag) (i : Nat)

/-- The pool of the `palloc` the thread is in. -/
def Scan.pool : Scan → Option PoolFlag
  | .idle => none
  | .called pf => some pf
  | .byte pf _ _ => some pf
  | .found pf _ => some pf

/-- Where a thread stands. -/
structure Stand where
  phase : PoolFlag → Phase
  scan : Scan

namespace Stand

def setPhase (γ : Stand) (pf : PoolFlag) (ph : Phase) : Stand :=
  { γ with phase := Function.update γ.phase pf ph }

@[simp] theorem setPhase_scan (γ : Stand) (pf : PoolFlag) (ph : Phase) :
    (γ.setPhase pf ph).scan = γ.scan := rfl

@[simp] theorem setPhase_phase (γ : Stand) (pf : PoolFlag) (ph : Phase) :
    (γ.setPhase pf ph).phase pf = ph := Function.update_self ..

@[simp] theorem setPhase_setPhase (γ : Stand) (pf : PoolFlag) (ph ph' : Phase) :
    (γ.setPhase pf ph).setPhase pf ph' = γ.setPhase pf ph' := by
  simp [setPhase]

theorem setPhase_phase_ne {γ : Stand} {pf pf' : PoolFlag} {ph : Phase} (h : pf' ≠ pf) :
    (γ.setPhase pf ph).phase pf' = γ.phase pf' := Function.update_of_ne h ..

/-- The thread stands between two calls: in no `palloc`, and it has a lock or not. -/
structure Rest (γ : Stand) : Prop where
  scan : γ.scan = .idle
  phase : ∀ pf, γ.phase pf = .out ∨ γ.phase pf = .owned

theorem Rest.setPhase {γ : Stand} {pf : PoolFlag} {ph : Phase} (h : γ.Rest)
    (hph : ph = .out ∨ ph = .owned) : (γ.setPhase pf ph).Rest := by
  constructor
  · rw [setPhase_scan, h.scan]
  · intro pf'
    by_cases hpf : pf' = pf
    · rw [hpf, setPhase_phase]
      exact hph
    · rw [setPhase_phase_ne hpf]
      exact h.phase pf'

end Stand

/-- Which acts a thread may perform where it stands, and where they lead. -/
def pageDiscipline : Discipline Act Stand where
  allows γ
    | .holderIsSelf pf => γ.phase pf = .out ∨ γ.phase pf = .owned
    | .semaDown pf => γ.phase pf = .out
    | .setHolder pf => γ.phase pf = .taken
    | .clearHolder pf => γ.phase pf = .owned ∧ γ.scan = .idle
    | .semaUp pf => γ.phase pf = .released
    | .palloc pf => γ.scan = .idle ∧ (pf = .user → γ.phase .user = .owned)
    | .byteFull pf _ => γ.scan = .called pf
    | .testBit pf k j => γ.scan = .byte pf k j
    | .setBit pf i => γ.scan = .found pf i
    | _ => True
  next γ a n γ' :=
    match a with
    | .assert p => p = true ∧ γ' = γ
    | .holderIsSelf pf => (n ≠ 0 ↔ γ.phase pf = .owned) ∧ γ' = γ
    | .semaDown pf => γ' = γ.setPhase pf .taken
    | .setHolder pf => γ' = γ.setPhase pf .owned
    | .clearHolder pf => γ' = γ.setPhase pf .released
    | .semaUp pf => γ' = γ.setPhase pf .out
    | .palloc pf => γ' = { γ with scan := .called pf }
    | .byteFull pf k => γ' = if n = 0 then { γ with scan := .byte pf k 0 } else γ
    | .testBit pf k j => j < 8 ∧
        γ' = { γ with scan := if n = 0 then .found pf (k * 8 + j) else .byte pf k (j + 1) }
    | .setBit _ _ => γ' = { γ with scan := .idle }
    | _ => γ' = γ

/-- The code keeps to the discipline from `γ` on and ends where `Q` holds. -/
def Obeys {α : Type} (c : Code α) (γ : Stand) (Q : Stand → α → Prop) : Prop :=
  Follows pageDiscipline c γ Q

/-- Acts the discipline does not look at. -/
def Act.plain : Act → Bool
  | .assert _ | .holderIsSelf _ | .semaDown _ | .setHolder _ | .clearHolder _ | .semaUp _
  | .palloc _ | .byteFull _ _ | .testBit _ _ _ | .setBit _ _ => false
  | _ => true

section Rules

variable {α β : Type} {γ : Stand} {pf : PoolFlag} {c : Code α} {f : α → Code β}
  {P : Stand → α → Prop} {Q : Stand → β → Prop} {k : Nat → Code β}

theorem Obeys.mono {P' : Stand → α → Prop} (h : Obeys c γ P) (hP : ∀ γ' a, P γ' a → P' γ' a) :
    Obeys c γ P' :=
  Follows.mono h hP

theorem Obeys.bind (h : Obeys c γ P) (hf : ∀ γ' a, P γ' a → Obeys (f a) γ' Q) :
    Obeys (c >>= f) γ Q :=
  Follows.bind h hf

theorem obeys_pure {b : β} : Obeys (pure b) γ Q ↔ Q γ b := Iff.rfl

theorem obeys_act {a : Act} : Obeys (perform a >>= k) γ Q ↔ pageDiscipline.allows γ a ∧
    ∀ n γ', pageDiscipline.next γ a n γ' → Obeys (k n) γ' Q :=
  follows_act

theorem obeys_assert {p : Prop} [Decidable p] {f : Unit → Code β} :
    Obeys (Code.assert p >>= f) γ Q ↔ (p → Obeys (f ()) γ Q) := by
  have hflat : (Code.assert p >>= f) = (perform (.assert (decide p)) >>= fun _ => f ()) := rfl
  rw [hflat, obeys_act]
  constructor
  · intro h hp
    exact h.2 0 γ ⟨decide_eq_true hp, rfl⟩
  · intro h
    refine ⟨trivial, ?_⟩
    rintro n γ' ⟨hp, rfl⟩
    exact h (of_decide_eq_true hp)

/-- A failing assertion obeys everything. -/
theorem obeys_assert_false {Q : Stand → Unit → Prop} : Obeys (Code.assert False) γ Q := by
  have hflat : Code.assert False = (perform (.assert (decide False)) >>= fun _ => pure ()) := rfl
  rw [hflat, obeys_act]
  exact ⟨trivial, fun n γ' h => absurd h.1 (by decide)⟩

theorem obeys_plain {a : Act} (ha : a.plain = true) :
    Obeys (perform a >>= k) γ Q ↔ ∀ n, Obeys (k n) γ Q := by
  rw [obeys_act]
  cases a <;> simp_all [Act.plain, pageDiscipline]

theorem obeys_semaDown : Obeys (perform (.semaDown pf) >>= k) γ Q ↔
    γ.phase pf = .out ∧ ∀ n, Obeys (k n) (γ.setPhase pf .taken) Q := by
  rw [obeys_act]
  simp [pageDiscipline]

theorem obeys_setHolder : Obeys (perform (.setHolder pf) >>= k) γ Q ↔
    γ.phase pf = .taken ∧ ∀ n, Obeys (k n) (γ.setPhase pf .owned) Q := by
  rw [obeys_act]
  simp [pageDiscipline]

theorem obeys_clearHolder : Obeys (perform (.clearHolder pf) >>= k) γ Q ↔
    (γ.phase pf = .owned ∧ γ.scan = .idle) ∧ ∀ n, Obeys (k n) (γ.setPhase pf .released) Q := by
  rw [obeys_act]
  simp [pageDiscipline]

theorem obeys_semaUp : Obeys (perform (.semaUp pf) >>= k) γ Q ↔
    γ.phase pf = .released ∧ ∀ n, Obeys (k n) (γ.setPhase pf .out) Q := by
  rw [obeys_act]
  simp [pageDiscipline]

theorem obeys_holderIsSelf : Obeys (perform (.holderIsSelf pf) >>= k) γ Q ↔
    (γ.phase pf = .out ∨ γ.phase pf = .owned) ∧
      ∀ n, (n ≠ 0 ↔ γ.phase pf = .owned) → Obeys (k n) γ Q := by
  rw [obeys_act]
  simp [pageDiscipline]

theorem obeys_palloc : Obeys (perform (.palloc pf) >>= k) γ Q ↔
    (γ.scan = .idle ∧ (pf = .user → γ.phase .user = .owned)) ∧
      ∀ n, Obeys (k n) { γ with scan := .called pf } Q := by
  rw [obeys_act]
  simp [pageDiscipline]

theorem obeys_setBit {i : Nat} : Obeys (perform (.setBit pf i) >>= k) γ Q ↔
    γ.scan = .found pf i ∧ ∀ n, Obeys (k n) { γ with scan := .idle } Q := by
  rw [obeys_act]
  simp [pageDiscipline]

end Rules

namespace Code

variable {γ : Stand} {pf : PoolFlag} {n j k : Nat} {α : Type}

theorem setPhase_self {ph : Phase} (h : γ.phase pf = ph) : γ.setPhase pf ph = γ := by
  simp [Stand.setPhase, ← h]

theorem lockAcquire_obeys (h : γ.phase pf = .out ∨ γ.phase pf = .owned) :
    Obeys (lockAcquire pf) γ fun γ' _ => γ' = γ.setPhase pf .owned := by
  rw [lockAcquire, obeys_holderIsSelf]
  refine ⟨h, fun n hself => ?_⟩
  split
  · next hn =>
    -- the semaphore, the holder, the count
    have hout : γ.phase pf = .out := h.resolve_right fun howned => hself.mpr howned hn
    rw [obeys_semaDown]
    refine ⟨hout, fun _ => ?_⟩
    rw [obeys_setHolder]
    refine ⟨Stand.setPhase_phase .., fun _ => ?_⟩
    rw [obeys_plain rfl]
    intro count
    rw [obeys_assert]
    intro _
    rw [obeys_plain rfl]
    intro _
    rw [obeys_pure, Stand.setPhase_setPhase]
  · next hn =>
    have howned : γ.phase pf = .owned := hself.mp hn
    rw [obeys_plain rfl]
    intro count
    rw [obeys_plain rfl]
    intro _
    rw [obeys_pure, setPhase_self howned]

theorem lockRelease_obeys (h : γ.phase pf = .owned) (hscan : γ.scan = .idle) :
    Obeys (lockRelease pf) γ fun γ' _ => γ' = γ ∨ γ' = γ.setPhase pf .out := by
  rw [lockRelease, obeys_holderIsSelf]
  refine ⟨Or.inr h, fun n _ => ?_⟩
  rw [obeys_assert]
  intro _
  rw [obeys_plain rfl]
  intro m
  split
  · rw [obeys_plain rfl]
    exact fun _ => Or.inl rfl
  · rw [obeys_assert]
    intro _
    rw [obeys_clearHolder]
    refine ⟨⟨h, hscan⟩, fun _ => ?_⟩
    rw [obeys_plain rfl]
    intro _
    rw [obeys_semaUp]
    refine ⟨Stand.setPhase_phase .., fun _ => ?_⟩
    rw [obeys_pure, Stand.setPhase_setPhase]
    exact Or.inr rfl

theorem scanByte_obeys (h : γ.scan = .called pf) :
    Obeys (scanByte pf n k) γ fun γ' b =>
      b = k + n ∧ γ' = γ ∨ b < k + n ∧ γ' = { γ with scan := .byte pf b 0 } := by
  induction n generalizing k with
  | zero => exact Or.inl ⟨rfl, rfl⟩
  | succ n ih =>
    rw [scanByte, obeys_act]
    refine ⟨h, ?_⟩
    rintro m γ' rfl
    by_cases hm : m = 0
    · simp only [if_pos hm]
      exact Or.inr ⟨by omega, rfl⟩
    · simp only [if_neg hm]
      refine (ih (k := k + 1)).mono ?_
      rintro γ' b (⟨rfl, rfl⟩ | ⟨hb, rfl⟩)
      · exact Or.inl ⟨by omega, rfl⟩
      · exact Or.inr ⟨by omega, rfl⟩

/-- The bit loop ends at a clear bit: the byte has one. -/
theorem scanBit_obeys (h : γ.scan = .byte pf k j) (hn : j + n = 9) (hj : j ≤ 8) :
    Obeys (scanBit pf k n j) γ fun γ' b => γ' = { γ with scan := .found pf (k * 8 + b) } := by
  induction n generalizing γ j with
  | zero => omega
  | succ n ih =>
    rw [scanBit, obeys_act]
    refine ⟨h, ?_⟩
    rintro m γ' ⟨hlt, rfl⟩
    by_cases hm : m = 0
    · simp only [if_pos hm]
      exact rfl
    · simp only [if_neg hm]
      exact ih rfl (by omega) (by omega)

/-- A palloc that returns has found a frame. -/
theorem palloc_obeys (h : γ.scan = .idle) (huser : pf = .user → γ.phase .user = .owned) :
    Obeys (palloc pf) γ fun γ' r => γ' = γ ∧ r ≠ none := by
  have hscan : Obeys (bitmapScan pf) { γ with scan := .called pf } fun γ' r =>
      ∃ i, r = some i ∧ γ' = { γ with scan := .found pf i } := by
    rw [bitmapScan, obeys_plain rfl]
    intro len
    refine (scanByte_obeys rfl).bind ?_
    intro γ₁ idxByte hbyte
    rw [obeys_assert]
    intro hlt
    rcases hbyte with ⟨hend, -⟩ | ⟨-, rfl⟩
    · omega
    rw [if_neg (by omega)]
    refine (scanBit_obeys rfl rfl (by omega)).bind ?_
    rintro γ₂ idxBit rfl
    exact ⟨_, rfl, rfl⟩
  rw [palloc, obeys_palloc]
  refine ⟨⟨h, huser⟩, fun _ => hscan.bind ?_⟩
  rintro γ₁ r ⟨i, rfl, rfl⟩
  simp only
  rw [obeys_setBit]
  refine ⟨rfl, fun _ => ?_⟩
  rw [obeys_plain rfl]
  intro start
  rw [obeys_pure, ← h]
  exact ⟨rfl, Option.some_ne_none _⟩

theorem pageTableAdd_obeys {vaddr frame : Nat} (h : γ.scan = .idle) :
    Obeys (pageTableAdd vaddr frame) γ fun γ' _ => γ' = γ := by
  rw [pageTableAdd, obeys_plain rfl]
  intro present
  split
  · rw [obeys_plain rfl]
    intro m
    split
    · rw [obeys_plain rfl]
      exact fun _ => rfl
    · exact obeys_assert_false
  · -- a page table from the kernel pool
    refine (palloc_obeys h fun hpf => by cases hpf).bind ?_
    rintro γ₁ r ⟨rfl, -⟩
    rw [obeys_plain rfl]
    intro _
    rw [obeys_plain rfl]
    intro _
    rw [obeys_plain rfl]
    intro present
    rw [obeys_assert]
    intro _
    rw [obeys_plain rfl]
    exact fun _ => rfl

theorem setVaddrs_obeys : Obeys (setVaddrs pf n k) γ fun γ' _ => γ' = γ := by
  induction n generalizing k with
  | zero => exact rfl
  | succ n ih =>
    rw [setVaddrs, obeys_plain rfl]
    exact fun _ => ih

theorem vaddrGet_obeys : Obeys (vaddrGet pf n) γ fun γ' _ => γ' = γ := by
  rw [vaddrGet, obeys_plain rfl]
  intro scan
  split
  · exact rfl
  · refine setVaddrs_obeys.bind ?_
    rintro γ₁ - rfl
    rw [obeys_plain rfl]
    intro start
    cases pf with
    | kernel => exact rfl
    | user =>
      rw [obeys_assert]
      exact fun _ => rfl

theorem mapPages_obeys {vaddr : Nat} (h : γ.scan = .idle)
    (huser : pf = .user → γ.phase .user = .owned) :
    Obeys (mapPages pf n vaddr) γ fun γ' _ => γ' = γ := by
  induction n generalizing vaddr with
  | zero => exact rfl
  | succ n ih =>
    rw [mapPages]
    refine (palloc_obeys h huser).bind ?_
    rintro γ₁ r ⟨rfl, -⟩
    cases r with
    | none => exact rfl
    | some frame =>
      refine (pageTableAdd_obeys h).bind ?_
      rintro γ₂ - rfl
      exact ih

theorem mallocPage_obeys (h : γ.scan = .idle) (huser : pf = .user → γ.phase .user = .owned) :
    Obeys (mallocPage pf n) γ fun γ' _ => γ' = γ := by
  rw [mallocPage, obeys_assert]
  intro _
  refine vaddrGet_obeys.bind ?_
  rintro γ₁ r rfl
  cases r with
  | none => exact rfl
  | some vaddr =>
    refine (mapPages_obeys h huser).bind ?_
    rintro γ₂ b rfl
    cases b with
    | true => exact rfl
    | false => exact rfl

/-! ## The calls -/

section Calls

variable (h : γ.Rest)
include h

/-- From the lock of the pool to its release. -/
theorem locked_obeys {body : Code Unit}
    (hbody : ∀ γ' : Stand, γ'.Rest → γ'.phase pf = .owned → Obeys body γ' fun γ'' _ => γ''.Rest) :
    Obeys (do lockAcquire pf; body) γ fun γ' _ => γ'.Rest := by
  refine (lockAcquire_obeys (h.phase pf)).bind ?_
  rintro γ₁ - rfl
  exact hbody _ (h.setPhase (Or.inr rfl)) (Stand.setPhase_phase ..)

theorem lockRelease_rest (howned : γ.phase pf = .owned) :
    Obeys (lockRelease pf) γ fun γ' _ => γ'.Rest := by
  refine (lockRelease_obeys howned h.scan).mono ?_
  rintro γ' - (rfl | rfl)
  · exact h
  · exact h.setPhase (Or.inl rfl)

theorem mallocPage_release (howned : γ.phase pf = .owned) :
    Obeys (do let _ ← mallocPage pf n; lockRelease pf) γ fun γ' _ => γ'.Rest := by
  refine (mallocPage_obeys h.scan fun hpf => hpf ▸ howned).bind ?_
  rintro γ₁ - rfl
  exact lockRelease_rest h howned

theorem getPages_obeys : Obeys (getPages pf n) γ fun γ' _ => γ'.Rest := by
  rw [getPages]
  exact locked_obeys h fun γ' hrest howned => mallocPage_release hrest howned

/-- Take a frame, map it and release the lock; the lock is kept where `keep` says so
    and there is no frame, which does not happen. -/
theorem takePage_obeys {vaddr : Nat} {none? : Code Unit} (howned : γ.phase pf = .owned) :
    Obeys (do
      match ← palloc pf with
      | none => none?
      | some frame =>
        pageTableAdd vaddr frame
        lockRelease pf) γ fun γ' _ => γ'.Rest := by
  refine (palloc_obeys h.scan fun hpf => hpf ▸ howned).bind ?_
  rintro γ₁ r ⟨rfl, hsome⟩
  cases r with
  | none => exact absurd rfl hsome
  | some frame =>
    refine (pageTableAdd_obeys h.scan).bind ?_
    rintro γ₂ - rfl
    exact lockRelease_rest h howned

theorem getAPage_obeys {vaddr : Nat} : Obeys (getAPage pf vaddr) γ fun γ' _ => γ'.Rest := by
  rw [getAPage]
  refine locked_obeys h fun γ' hrest howned => ?_
  rw [obeys_plain rfl]
  intro hasPgdir
  rw [obeys_plain rfl]
  intro start
  split
  · rw [obeys_assert]
    intro _
    rw [obeys_plain rfl]
    exact fun _ => takePage_obeys hrest howned
  · split
    · rw [obeys_assert]
      intro _
      rw [obeys_plain rfl]
      exact fun _ => takePage_obeys hrest howned
    · rw [obeys_assert]
      exact fun hfalse => hfalse.elim

theorem getAPageWithoutOpvaddrbitmap_obeys {vaddr : Nat} :
    Obeys (getAPageWithoutOpvaddrbitmap pf vaddr) γ fun γ' _ => γ'.Rest := by
  rw [getAPageWithoutOpvaddrbitmap]
  exact locked_obeys h fun γ' hrest howned => takePage_obeys hrest howned

theorem copyPage_obeys {parentDir childDir vaddr : Nat} :
    Obeys (copyPage parentDir childDir vaddr) γ fun γ' _ => γ'.Rest := by
  rw [copyPage, obeys_plain rfl]
  intro _
  refine (getAPageWithoutOpvaddrbitmap_obeys h).bind ?_
  intro γ₁ _ hrest
  rw [obeys_plain rfl]
  exact fun _ => hrest

theorem sysMalloc_obeys {size : Nat} : Obeys (sysMalloc size) γ fun γ' _ => γ'.Rest := by
  rw [sysMalloc, obeys_plain rfl]
  intro hasPgdir
  rw [obeys_plain rfl]
  intro poolSize
  split
  · exact h
  · refine locked_obeys h fun γ' hrest howned => ?_
    split
    · exact mallocPage_release hrest howned
    · rw [obeys_plain rfl]
      intro empty
      split
      · exact mallocPage_release hrest howned
      · exact lockRelease_rest hrest howned

/-- Every call keeps to the discipline. -/
theorem request_obeys {r : Request} : Obeys r.code γ fun γ' _ => γ'.Rest := by
  cases r with
  | getKernelPages n => exact getPages_obeys h
  | getUserPages n => exact getPages_obeys h
  | sysMalloc size => exact sysMalloc_obeys h
  | getAPage pf vaddr => exact getAPage_obeys h
  | getAPageWithoutOpvaddrbitmap pf vaddr => exact getAPageWithoutOpvaddrbitmap_obeys h
  | copyPage parentDir childDir vaddr => exact copyPage_obeys h

end Calls

end Code

end ZxyOs
