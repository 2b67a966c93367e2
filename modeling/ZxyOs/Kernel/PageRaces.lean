/-
  ZxyOs.Kernel.PageRaces

  No frame is handed out twice, as far as that goes.

  The locks are sound: at most one thread has a lock.  So pallocs of the user pool
  never overlap.  Pallocs of the kernel pool overlap where `page_table_add` takes a
  page table for a user page, with the lock of the user pool at most.  Runs in which
  none does hand no frame out twice (`frames_unique`); a run in which one does hands
  frame 0 out twice (`page_table_frame_twice`).
-/

import ZxyOs.Kernel.PageLocks

namespace ZxyOs

open Lib Lib.Prog

/-! ## Events -/

/-- The frame was taken and has not been given back. -/
def Taken (events : List FrameEvent) (pf : PoolFlag) (i : Nat) : Prop :=
  ∃ t l₁ l₂, events = l₁ ++ .palloc t pf i :: l₂ ∧ .free pf i ∉ l₁

section Events

variable {events : List FrameEvent} {pf pf' : PoolFlag} {i i' t : Nat}

theorem taken_nil : ¬ Taken [] pf i := by
  rintro ⟨t, l₁, l₂, heq, -⟩
  exact absurd heq (by simp)

theorem taken_cons_palloc (h : Taken (.palloc t pf i :: events) pf' i') :
    pf' = pf ∧ i' = i ∨ Taken events pf' i' := by
  obtain ⟨t', l₁, l₂, heq, hfree⟩ := h
  cases l₁ with
  | nil =>
    obtain ⟨hhead, -⟩ := List.cons.inj heq
    injection hhead with _ hpf hi
    exact Or.inl ⟨hpf.symm, hi.symm⟩
  | cons e l₁ =>
    obtain ⟨-, htail⟩ := List.cons.inj heq
    exact Or.inr ⟨t', l₁, l₂, htail, fun hmem => hfree (List.mem_cons_of_mem _ hmem)⟩

theorem taken_cons_free (h : Taken (.free pf i :: events) pf' i') :
    ¬ (pf' = pf ∧ i' = i) ∧ Taken events pf' i' := by
  obtain ⟨t', l₁, l₂, heq, hfree⟩ := h
  cases l₁ with
  | nil =>
    obtain ⟨hhead, -⟩ := List.cons.inj heq
    cases hhead
  | cons e l₁ =>
    obtain ⟨rfl, htail⟩ := List.cons.inj heq
    refine ⟨?_, t', l₁, l₂, htail, fun hmem => hfree (List.mem_cons_of_mem _ hmem)⟩
    rintro ⟨rfl, rfl⟩
    exact hfree List.mem_cons_self

theorem framesUnique_nil : Cpu.FramesUnique [] := by
  intro t t' pf i l₁ l₂ l₃ heq
  exact absurd heq (by simp)

theorem framesUnique_cons_free (h : Cpu.FramesUnique events) :
    Cpu.FramesUnique (.free pf i :: events) := by
  intro t t' pf' i' l₁ l₂ l₃ heq
  cases l₁ with
  | nil =>
    obtain ⟨hhead, -⟩ := List.cons.inj heq
    cases hhead
  | cons e l₁ =>
    obtain ⟨-, htail⟩ := List.cons.inj heq
    exact h t t' pf' i' l₁ l₂ l₃ htail

theorem framesUnique_cons_palloc (h : Cpu.FramesUnique events) (hnot : ¬ Taken events pf i) :
    Cpu.FramesUnique (.palloc t pf i :: events) := by
  intro t₁ t₂ pf' i' l₁ l₂ l₃ heq
  cases l₁ with
  | nil =>
    obtain ⟨hhead, htail⟩ := List.cons.inj heq
    injection hhead with _ hpf hi
    subst hpf hi
    by_contra hfree
    exact hnot ⟨t₁, l₂, l₃, htail, hfree⟩
  | cons e l₁ =>
    obtain ⟨-, htail⟩ := List.cons.inj heq
    exact h t₁ t₂ pf' i' l₁ l₂ l₃ htail

end Events

/-! ## The invariant -/

/-- The lock, with the threads at `ph`: one thread at most has it, the semaphore is
    down as long as one has, and the holder is the thread that owns it. -/
structure LockOk (l : Lock) (ph : Nat → Phase) : Prop where
  unique : ∀ t t', ph t ≠ .out → ph t' ≠ .out → t = t'
  free : 0 < l.value → ∀ t, ph t = .out
  holder : ∀ t, l.holder = some t ↔ ph t = .owned

/-- What a thread in `palloc` knows of the bitmap. -/
def Scan.Holds (bit : PoolFlag → Nat → Bool) : Scan → Prop
  | .byte pf k j => ∃ j', j ≤ j' ∧ j' < 8 ∧ bit pf (k * 8 + j') = false
  | .found pf i => bit pf i = false
  | .idle => True
  | .called _ => True

/-- The bits of the pools. -/
def Shared.bits (s : Shared) (pf : PoolFlag) (i : Nat) : Bool := (s.bitmap pf).bit i

/-- The threads stand at `γ`. -/
structure CpuInv (c : Cpu) (γ : Nat → Stand) : Prop where
  obeys : ∀ t, Obeys (c.threads t).code (γ t) fun γ' _ => γ'.Rest
  locks : ∀ pf, LockOk (c.shared.lock pf) fun t => (γ t).phase pf
  scans : ∀ t, (γ t).scan.Holds c.shared.bits
  inPalloc : ∀ t, (c.threads t).inPalloc.map Prod.fst = (γ t).scan.pool
  locked : ∀ t pf, (c.threads t).inPalloc = some (pf, true) → (γ t).phase pf = .owned
  user : ∀ t b, (c.threads t).inPalloc = some (.user, b) → b = true
  alone : ∀ t t' pf, (γ t).scan.pool = some pf → (γ t').scan.pool = some pf → t = t'
  taken : ∀ pf i, Taken c.events pf i → c.shared.bits pf i = true
  unique : Cpu.FramesUnique c.events

/-- A palloc of the kernel pool made without its lock overlaps no other palloc of the
    kernel pool: the running thread calls none while another is in one, and it calls
    none at all while another thread is in one made without the lock. -/
def KernelPallocsApart (c : Cpu) : Next → Prop
  | .perform _ => ∀ k, c.cur.code = .act (.palloc .kernel) k → ∀ t b, t ≠ c.running →
      (c.threads t).inPalloc = some (.kernel, b) →
      b = true ∧ (c.shared.lock .kernel).holder = some c.running
  | _ => True

section Inv

variable {c d : Cpu} {γ : Nat → Stand} {γt : Stand} {s : Shared} {k : Code Unit} {n : Next}
  {pf : PoolFlag} {a : Act} {oracle : Nat}

theorem LockOk.congr {l l' : Lock} {ph : Nat → Phase} (h : LockOk l ph) (hv : l'.value = l.value)
    (hh : l'.holder = l.holder) : LockOk l' ph where
  unique := h.unique
  free := fun hpos => h.free (hv ▸ hpos)
  holder := fun t => hh ▸ h.holder t

theorem Scan.Holds.anti {bit bit' : PoolFlag → Nat → Bool} {sc : Scan} (h : sc.Holds bit)
    (hbit : ∀ pf i, sc.pool = some pf → bit pf i = false → bit' pf i = false) : sc.Holds bit' := by
  cases sc with
  | idle => trivial
  | called pf => trivial
  | byte pf k j =>
    obtain ⟨j', h1, h2, h3⟩ := h
    exact ⟨j', h1, h2, hbit pf _ rfl h3⟩
  | found pf i => exact hbit pf i rfl h

/-- The state after an act of the running thread. -/
def Cpu.after (c : Cpu) (a : Act) (k : Code Unit) (s : Shared) : Cpu :=
  { c.setCur { c.cur with code := k, inPalloc := c.inPallocAfter a } with
    shared := s
    events := c.eventsOf a ++ c.events }

theorem Cpu.after_cur : (c.after a k s).threads c.running =
    { c.cur with code := k, inPalloc := c.inPallocAfter a } := by
  simp [Cpu.after, Cpu.setCur]

theorem Cpu.after_ne {t : Nat} (ht : t ≠ c.running) : (c.after a k s).threads t = c.threads t := by
  simp [Cpu.after, Cpu.setCur, ht]

/-- What is to be shown of an act that takes the running thread to `γt`. -/
theorem CpuInv.after (h : CpuInv c γ) (hcode : Obeys k γt fun γ' _ => γ'.Rest)
    (hlocks : ∀ pf, LockOk (s.lock pf) fun t => (Function.update γ c.running γt t).phase pf)
    (hscan : γt.scan.Holds s.bits)
    (hscans : ∀ t, t ≠ c.running → (γ t).scan.Holds s.bits)
    (hin : (c.inPallocAfter a).map Prod.fst = γt.scan.pool)
    (hlocked : ∀ pf, c.inPallocAfter a = some (pf, true) → γt.phase pf = .owned)
    (huser : ∀ b, c.inPallocAfter a = some (.user, b) → b = true)
    (halone : ∀ t pf, t ≠ c.running → γt.scan.pool = some pf → (γ t).scan.pool ≠ some pf)
    (htaken : ∀ pf i, Taken (c.eventsOf a ++ c.events) pf i → s.bits pf i = true)
    (hunique : Cpu.FramesUnique (c.eventsOf a ++ c.events)) :
    CpuInv (c.after a k s) (Function.update γ c.running γt) where
  obeys := by
    intro t
    by_cases ht : t = c.running
    · rw [ht, Cpu.after_cur, Function.update_self]
      exact hcode
    · rw [Cpu.after_ne ht, Function.update_of_ne ht]
      exact h.obeys t
  locks := hlocks
  scans := by
    intro t
    by_cases ht : t = c.running
    · rw [ht, Function.update_self]
      exact hscan
    · rw [Function.update_of_ne ht]
      exact hscans t ht
  inPalloc := by
    intro t
    by_cases ht : t = c.running
    · rw [ht, Cpu.after_cur, Function.update_self]
      exact hin
    · rw [Cpu.after_ne ht, Function.update_of_ne ht]
      exact h.inPalloc t
  locked := by
    intro t pf
    by_cases ht : t = c.running
    · rw [ht, Cpu.after_cur, Function.update_self]
      exact hlocked pf
    · rw [Cpu.after_ne ht, Function.update_of_ne ht]
      exact h.locked t pf
  user := by
    intro t b
    by_cases ht : t = c.running
    · rw [ht, Cpu.after_cur]
      exact huser b
    · rw [Cpu.after_ne ht]
      exact h.user t b
  alone := by
    intro t t' pf hpool hpool'
    by_cases ht : t = c.running <;> by_cases ht' : t' = c.running
    · rw [ht, ht']
    · rw [ht, Function.update_self] at hpool
      rw [Function.update_of_ne ht'] at hpool'
      exact absurd hpool' (halone t' pf ht' hpool)
    · rw [Function.update_of_ne ht] at hpool
      rw [ht', Function.update_self] at hpool'
      exact absurd hpool (halone t pf ht hpool')
    · rw [Function.update_of_ne ht] at hpool
      rw [Function.update_of_ne ht'] at hpool'
      exact h.alone t t' pf hpool hpool'
  taken := htaken
  unique := hunique

/-- The locks, but for their counts and waiting threads, and the bitmaps are the same. -/
def SameSync (s s' : Shared) : Prop :=
  ∀ pf, (s'.lock pf).value = (s.lock pf).value ∧ (s'.lock pf).holder = (s.lock pf).holder ∧
    ∀ i, s'.bits pf i = s.bits pf i

theorem SameSync.refl : SameSync s s := fun _ => ⟨rfl, rfl, fun _ => rfl⟩

theorem sameSync_setLock {l : Lock} (hv : l.value = (s.lock pf).value)
    (hh : l.holder = (s.lock pf).holder) : SameSync s (s.setLock pf l) := by
  intro pf'
  by_cases hpf : pf' = pf
  · subst hpf
    simp [Shared.setLock, Shared.setPool, Shared.lock, Shared.bits, Shared.bitmap] at hv hh ⊢
    exact ⟨hv, hh⟩
  · simp [Shared.setLock, Shared.setPool, Shared.lock, Shared.bits, Shared.bitmap, hpf]

/-- An act the locks and the bitmaps do not notice. -/
theorem CpuInv.quiet (h : CpuInv c γ)
    (hcode : Obeys k (γ c.running) fun γ' _ => γ'.Rest) (hs : SameSync c.shared s)
    (hin : c.inPallocAfter a = c.cur.inPalloc) (hev : c.eventsOf a = []) :
    CpuInv (c.after a k s) γ := by
  have hself : Function.update γ c.running (γ c.running) = γ := Function.update_eq_self _ _
  have hscans (t : Nat) : (γ t).scan.Holds s.bits :=
    (h.scans t).anti fun pf i _ hbit => by rw [(hs pf).2.2 i, hbit]
  have hafter : CpuInv (c.after a k s) (Function.update γ c.running (γ c.running)) := by
    apply h.after hcode
    · intro pf
      rw [hself]
      exact (h.locks pf).congr (hs pf).1 (hs pf).2.1
    · exact hscans c.running
    · exact fun t _ => hscans t
    · rw [hin]
      exact h.inPalloc c.running
    · intro pf hpf
      exact h.locked c.running pf (hin ▸ hpf)
    · intro b hb
      exact h.user c.running b (hin ▸ hb)
    · intro t pf ht hpool hpool'
      exact ht (h.alone t c.running pf hpool' hpool)
    · intro pf i htaken
      rw [hev, List.nil_append] at htaken
      rw [(hs pf).2.2 i]
      exact h.taken pf i htaken
    · rw [hev, List.nil_append]
      exact h.unique
  rwa [hself] at hafter

/-- An act on the lock of the pool `pf`. -/
theorem CpuInv.lockAct (h : CpuInv c γ) {l : Lock} {ph : Phase} (blocked : Nat → Bool)
    (hcode : Obeys k ((γ c.running).setPhase pf ph) fun γ' _ => γ'.Rest)
    (hl : LockOk l (Function.update (fun t => (γ t).phase pf) c.running ph))
    (hin : c.inPallocAfter a = c.cur.inPalloc) (hev : c.eventsOf a = [])
    (hlocked : c.cur.inPalloc = some (pf, true) → ph = .owned) :
    CpuInv (c.after a k { c.shared.setLock pf l with blocked := blocked })
      (Function.update γ c.running ((γ c.running).setPhase pf ph)) := by
  have hbits (pf' : PoolFlag) (i : Nat) :
      Shared.bits { c.shared.setLock pf l with blocked := blocked } pf' i = c.shared.bits pf' i := by
    by_cases hpf : pf' = pf
    · subst hpf
      simp [Shared.bits, Shared.bitmap, Shared.setLock, Shared.setPool]
    · simp [Shared.bits, Shared.bitmap, Shared.setLock, Shared.setPool, hpf]
  have hscans (t : Nat) :
      (γ t).scan.Holds (Shared.bits { c.shared.setLock pf l with blocked := blocked }) :=
    (h.scans t).anti fun pf' i _ hbit => by rw [hbits, hbit]
  apply h.after hcode
  · intro pf'
    by_cases hpf : pf' = pf
    · subst hpf
      have hlock : Shared.lock { c.shared.setLock pf' l with blocked := blocked } pf' = l := by
        simp [Shared.lock, Shared.setLock, Shared.setPool]
      have hphase : (fun t => (Function.update γ c.running ((γ c.running).setPhase pf' ph) t).phase
          pf') = Function.update (fun t => (γ t).phase pf') c.running ph := by
        funext t
        by_cases ht : t = c.running
        · rw [ht, Function.update_self, Function.update_self, Stand.setPhase_phase]
        · rw [Function.update_of_ne ht, Function.update_of_ne ht]
      rw [hlock, hphase]
      exact hl
    · have hlock : Shared.lock { c.shared.setLock pf l with blocked := blocked } pf' =
          c.shared.lock pf' := by
        simp [Shared.lock, Shared.setLock, Shared.setPool, hpf]
      have hphase : (fun t => (Function.update γ c.running ((γ c.running).setPhase pf ph) t).phase
          pf') = fun t => (γ t).phase pf' := by
        funext t
        by_cases ht : t = c.running
        · rw [ht, Function.update_self, Stand.setPhase_phase_ne hpf]
        · rw [Function.update_of_ne ht]
      rw [hlock, hphase]
      exact h.locks pf'
  · exact hscans c.running
  · exact fun t _ => hscans t
  · rw [hin]
    exact h.inPalloc c.running
  · intro pf' hpf'
    rw [hin] at hpf'
    by_cases hpf : pf' = pf
    · subst hpf
      rw [Stand.setPhase_phase]
      exact hlocked hpf'
    · rw [Stand.setPhase_phase_ne hpf]
      exact h.locked c.running pf' hpf'
  · intro b hb
    exact h.user c.running b (hin ▸ hb)
  · intro t pf' ht hpool hpool'
    exact ht (h.alone t c.running pf' hpool' hpool)
  · intro pf' i htaken
    rw [hev, List.nil_append] at htaken
    rw [hbits]
    exact h.taken pf' i htaken
  · rw [hev, List.nil_append]
    exact h.unique

theorem phase_update_scan {t₀ : Nat} {sc : Scan} :
    (fun t => (Function.update γ t₀ { γ t₀ with scan := sc } t).phase pf) =
      fun t => (γ t).phase pf := by
  funext t
  by_cases ht : t = t₀
  · rw [ht, Function.update_self]
  · rw [Function.update_of_ne ht]

/-- An act by which a thread in `palloc` learns of the bitmap. -/
theorem CpuInv.scanAct (h : CpuInv c γ) {sc : Scan}
    (hcode : Obeys k { γ c.running with scan := sc } fun γ' _ => γ'.Rest)
    (hsc : sc.Holds c.shared.bits) (hpool : sc.pool = (γ c.running).scan.pool)
    (hin : c.inPallocAfter a = c.cur.inPalloc) (hev : c.eventsOf a = []) :
    CpuInv (c.after a k c.shared) (Function.update γ c.running { γ c.running with scan := sc }) := by
  apply h.after hcode
  · intro pf
    rw [phase_update_scan]
    exact h.locks pf
  · exact hsc
  · exact fun t _ => h.scans t
  · rw [hin]
    exact (h.inPalloc c.running).trans hpool.symm
  · intro pf hpf
    exact h.locked c.running pf (hin ▸ hpf)
  · intro b hb
    exact h.user c.running b (hin ▸ hb)
  · intro t pf ht hself hother
    exact ht (h.alone t c.running pf hother (hpool ▸ hself))
  · intro pf i htaken
    rw [hev, List.nil_append] at htaken
    exact h.taken pf i htaken
  · rw [hev, List.nil_append]
    exact h.unique

/-- The call of `palloc`. -/
theorem CpuInv.callPalloc (h : CpuInv c γ)
    (huser : pf = .user → (γ c.running).phase .user = .owned)
    (hcode : Obeys k { γ c.running with scan := .called pf } fun γ' _ => γ'.Rest)
    (hapart : pf = .kernel → ∀ t b, t ≠ c.running → (c.threads t).inPalloc = some (.kernel, b) →
      b = true ∧ (c.shared.lock .kernel).holder = some c.running) :
    CpuInv (c.after (.palloc pf) k c.shared)
      (Function.update γ c.running { γ c.running with scan := .called pf }) := by
  apply h.after hcode
  · intro pf'
    rw [phase_update_scan]
    exact h.locks pf'
  · trivial
  · exact fun t _ => h.scans t
  · rfl
  · intro pf' hpf'
    obtain ⟨rfl, hholder⟩ : pf = pf' ∧ (c.shared.lock pf).holder = some c.running := by
      simpa [Cpu.inPallocAfter] using hpf'
    exact ((h.locks pf).holder c.running).mp hholder
  · intro b hb
    obtain ⟨rfl, rfl⟩ : pf = .user ∧ decide ((c.shared.lock pf).holder = some c.running) = b := by
      simpa [Cpu.inPallocAfter] using hb
    exact decide_eq_true (((h.locks .user).holder c.running).mpr (huser rfl))
  · -- another thread in the pool had its lock, as the running thread has
    intro t pf' ht hself hother
    obtain rfl : pf = pf' := Option.some.inj hself
    have hin := h.inPalloc t
    rw [hother] at hin
    obtain ⟨⟨pf', b⟩, hpair, rfl⟩ := Option.map_eq_some_iff.mp hin
    have hboth : b = true ∧ (γ c.running).phase pf' = .owned := by
      cases pf' with
      | kernel =>
        obtain ⟨hb, hholder⟩ := hapart rfl t b ht hpair
        exact ⟨hb, ((h.locks .kernel).holder c.running).mp hholder⟩
      | user => exact ⟨h.user t b hpair, huser rfl⟩
    obtain ⟨rfl, howned⟩ := hboth
    have howned' := h.locked t pf' hpair
    refine ht ((h.locks pf').unique t c.running ?_ ?_)
    · rw [howned']
      exact fun heq => nomatch heq
    · rw [howned]
      exact fun heq => nomatch heq
  · exact h.taken
  · exact h.unique

theorem bits_setBitmap {pf' : PoolFlag} {i i' : Nat} {v : Bool} :
    (s.setBitmap pf ((s.bitmap pf).bitmapSet i v)).bits pf' i' =
      if pf' = pf ∧ i' = i then v else s.bits pf' i' := by
  by_cases hpf : pf' = pf
  · subst hpf
    simp [Shared.bits, Shared.bitmap, Shared.setBitmap, Shared.setPool, Bitmap.bitmapSet_bit]
  · simp [Shared.bits, Shared.bitmap, Shared.setBitmap, Shared.setPool, hpf]

theorem lock_setBitmap {pf' : PoolFlag} {b : Bitmap} :
    (s.setBitmap pf b).lock pf' = s.lock pf' := by
  by_cases hpf : pf' = pf
  · subst hpf
    simp [Shared.lock, Shared.setBitmap, Shared.setPool]
  · simp [Shared.lock, Shared.setBitmap, Shared.setPool, hpf]

/-- `bitmap_set` of the frame that was found. -/
theorem CpuInv.takeFrame (h : CpuInv c γ) {i : Nat} (hfound : (γ c.running).scan = .found pf i)
    (hcode : Obeys k { γ c.running with scan := .idle } fun γ' _ => γ'.Rest) :
    CpuInv (c.after (.setBit pf i) k
        (c.shared.setBitmap pf ((c.shared.bitmap pf).bitmapSet i true)))
      (Function.update γ c.running { γ c.running with scan := .idle }) := by
  have hbits (pf' : PoolFlag) (i' : Nat) :
      (c.shared.setBitmap pf ((c.shared.bitmap pf).bitmapSet i true)).bits pf' i' =
        if pf' = pf ∧ i' = i then true else c.shared.bits pf' i' :=
    bits_setBitmap
  have hclear : c.shared.bits pf i = false := by
    have hholds := h.scans c.running
    rw [hfound] at hholds
    exact hholds
  apply h.after hcode
  · intro pf'
    rw [phase_update_scan, lock_setBitmap]
    exact h.locks pf'
  · trivial
  · -- no other thread is in the pool
    intro t ht
    refine (h.scans t).anti fun pf' i' hpool hbit => ?_
    rw [hbits, if_neg]
    · exact hbit
    · rintro ⟨rfl, -⟩
      refine ht (h.alone t c.running pf' hpool ?_)
      rw [hfound]
      rfl
  · rfl
  · intro pf' hpf'
    cases hpf'
  · intro b hb
    cases hb
  · intro t pf' ht hself
    cases hself
  · intro pf' i' htaken
    rw [hbits]
    split
    · rfl
    · next hne => exact h.taken pf' i' ((taken_cons_palloc htaken).resolve_left hne)
  · apply framesUnique_cons_palloc h.unique
    intro htaken
    rw [h.taken pf i htaken] at hclear
    cases hclear

end Inv

/-! ## One step -/

section Locks

variable {l : Lock} {ph : Nat → Phase} {t : Nat}

/-- Nobody else has the lock. -/
theorem LockOk.others (h : LockOk l ph) (ht : ph t ≠ .out) {t' : Nat} (hne : t' ≠ t) :
    ph t' = .out := by
  by_contra hout
  exact hne (h.unique t' t hout ht)

theorem LockOk.semaDown (h : LockOk l ph) (hpos : 0 < l.value) (hzero : l.value - 1 = 0) :
    LockOk { l with value := l.value - 1 } (Function.update ph t .taken) := by
  have hout := h.free hpos
  constructor
  · intro t₁ t₂ h₁ h₂
    have hself {t' : Nat} (h' : Function.update ph t .taken t' ≠ .out) : t' = t := by
      by_contra hne
      rw [Function.update_of_ne hne] at h'
      exact h' (hout t')
    rw [hself h₁, hself h₂]
  · intro hvalue
    simp only [hzero] at hvalue
    omega
  · intro t'
    rw [h.holder t', hout t']
    by_cases ht : t' = t
    · rw [ht, Function.update_self]
      simp
    · rw [Function.update_of_ne ht, hout t']

/-- A thread that has the lock goes on to `p` and is the holder if that owns it. -/
theorem LockOk.move (h : LockOk l ph) (ht : ph t ≠ .out) {p : Phase} {holder : Option Nat}
    (hholder : holder = if p = .owned then some t else none) : LockOk { l with holder := holder } (Function.update ph t p) := by
  have hself {t' : Nat} (h' : Function.update ph t p t' ≠ .out) : t' = t := by
    by_contra hne
    rw [Function.update_of_ne hne] at h'
    exact h' (h.others ht hne)
  constructor
  · intro t₁ t₂ h₁ h₂
    rw [hself h₁, hself h₂]
  · intro hpos
    exact absurd (h.free hpos t) ht
  · intro t'
    by_cases ht' : t' = t
    · rw [ht', Function.update_self, hholder]
      split <;> simp_all
    · rw [Function.update_of_ne ht', h.others ht ht', hholder]
      split <;> simp_all [eq_comm]

theorem LockOk.semaUp (h : LockOk l ph) (ht : ph t = .released) {v : Nat} {ws : List Nat} :
    LockOk { l with value := v, waiters := ws } (Function.update ph t .out) := by
  have hout (t' : Nat) : Function.update ph t .out t' = .out := by
    by_cases ht' : t' = t
    · rw [ht', Function.update_self]
    · rw [Function.update_of_ne ht']
      refine h.others ?_ ht'
      rw [ht]
      exact fun heq => nomatch heq
  constructor
  · intro t₁ t₂ h₁
    exact absurd (hout t₁) h₁
  · exact fun _ => hout
  · intro t'
    rw [hout t', h.holder t']
    by_cases ht' : t' = t
    · rw [ht', ht]
      simp
    · have hne : ph t ≠ .out := by
        rw [ht]
        exact fun heq => nomatch heq
      rw [h.others hne ht']

end Locks

section Step

variable {c d : Cpu} {γ : Nat → Stand} {s : Shared} {k : Nat → Code Unit} {n : Next}
  {a : Act} {oracle m : Nat}

/-- Plain acts touch no holder, no semaphore and no bitmap of a pool. -/
theorem exec_plain (ha : a.plain = true) {t : Nat} {r : Option Nat} {s' : Shared}
    (hexec : a.exec t oracle s = some (r, s')) : SameSync s s' ∧ r ≠ none := by
  cases a with
  | holderRepeatNr pf | btmpBytesLen pf | phyAddrStart pf | poolSize pf | vaddrStart pf | hasPgdir
  | pdePresent vaddr | ptePresent vaddr | freeListEmpty i =>
    obtain ⟨rfl, rfl⟩ := Prod.mk.inj (Option.some.inj hexec)
    exact ⟨SameSync.refl, Option.some_ne_none _⟩
  | setHolderRepeatNr pf n =>
    obtain ⟨rfl, rfl⟩ := Prod.mk.inj (Option.some.inj hexec)
    exact ⟨sameSync_setLock rfl rfl, Option.some_ne_none _⟩
  | vaddrScan pf cnt =>
    simp only [Act.exec] at hexec
    split at hexec
    · cases hexec
    · obtain ⟨rfl, rfl⟩ := Prod.mk.inj (Option.some.inj hexec)
      exact ⟨SameSync.refl, Option.some_ne_none _⟩
    · obtain ⟨rfl, rfl⟩ := Prod.mk.inj (Option.some.inj hexec)
      exact ⟨SameSync.refl, Option.some_ne_none _⟩
  | vaddrSet pf i =>
    obtain ⟨rfl, rfl⟩ := Prod.mk.inj (Option.some.inj hexec)
    refine ⟨?_, Option.some_ne_none _⟩
    cases pf with
    | kernel => exact SameSync.refl
    | user => exact SameSync.refl
  | setPde vaddr w | setPte vaddr w | clearPageTable vaddr | pageDirActivate dir =>
    obtain ⟨rfl, rfl⟩ := Prod.mk.inj (Option.some.inj hexec)
    exact ⟨SameSync.refl, Option.some_ne_none _⟩
  | assert p | holderIsSelf pf | semaDown pf | setHolder pf | clearHolder pf | semaUp pf
  | palloc pf | byteFull pf i | testBit pf i j | setBit pf i => cases ha

/-- Plain acts leave the thread where it stands. -/
theorem plain_stays (ha : a.plain = true) {γt : Stand} : pageDiscipline.next γt a m γt ∧
    c.inPallocAfter a = c.cur.inPalloc ∧ c.eventsOf a = [] := by
  cases a <;> first
    | exact absurd ha Bool.false_ne_true
    | exact ⟨rfl, rfl, rfl⟩

/-- A thread waits for a semaphore only. -/
theorem exec_waits {t : Nat} {s' : Shared} (hexec : a.exec t oracle s = some (none, s')) :
    SameSync s s' := by
  by_cases hplain : a.plain = true
  · exact (exec_plain hplain hexec).1
  cases a with
  | semaDown pf =>
    simp only [Act.exec] at hexec
    split at hexec
    · split at hexec
      · cases hexec
      · obtain ⟨-, rfl⟩ := Prod.mk.inj (Option.some.inj hexec)
        exact sameSync_setLock rfl rfl
    · split at hexec <;> cases hexec
  | assert p =>
    simp only [Act.exec] at hexec
    split at hexec <;> cases hexec
  | semaUp pf =>
    simp only [Act.exec] at hexec
    split at hexec
    · split at hexec
      · cases hexec
      · split at hexec <;> cases hexec
    · cases hexec
  | holderIsSelf pf | setHolder pf | clearHolder pf | palloc pf | byteFull pf k | testBit pf k j
  | setBit pf i => cases hexec
  | _ => exact absurd rfl hplain

/-- A state with the same locks and bitmaps, for a thread that waits. -/
theorem CpuInv.sameSync (h : CpuInv c γ) (hs : SameSync c.shared s) :
    CpuInv { c with shared := s } γ where
  obeys := h.obeys
  locks := fun pf => (h.locks pf).congr (hs pf).1 (hs pf).2.1
  scans := fun t => (h.scans t).anti fun pf i _ hbit => by rw [(hs pf).2.2 i, hbit]
  inPalloc := h.inPalloc
  locked := h.locked
  user := h.user
  alone := h.alone
  taken := fun pf i htaken => by
    rw [(hs pf).2.2 i]
    exact h.taken pf i htaken
  unique := h.unique

/-- An act of the running thread. -/
theorem CpuInv.act (h : CpuInv c γ) (hcode : c.cur.code = .act a k)
    (hok : KernelPallocsApart c (.perform oracle))
    (hexec : a.exec c.running oracle c.shared = some (some m, s)) :
    ∃ γ', CpuInv (c.after a (k m) s) γ' := by
  have hobeys : Obeys (.act a k) (γ c.running) fun γ' _ => γ'.Rest := hcode ▸ h.obeys c.running
  obtain ⟨hallows, hnext⟩ := hobeys
  by_cases hplain : a.plain = true
  · obtain ⟨hstays, hin, hev⟩ := plain_stays (c := c) (m := m) hplain
    exact ⟨γ, h.quiet (hnext m _ hstays) (exec_plain hplain hexec).1 hin hev⟩
  cases a with
  | assert p =>
    simp only [Act.exec] at hexec
    split at hexec
    · next hp =>
      obtain ⟨-, rfl⟩ := Prod.mk.inj (Option.some.inj hexec)
      exact ⟨γ, h.quiet (hnext m _ ⟨hp, rfl⟩) SameSync.refl rfl rfl⟩
    · cases hexec
  | holderIsSelf pf =>
    obtain ⟨hm, rfl⟩ := Prod.mk.inj (Option.some.inj hexec)
    refine ⟨γ, h.quiet (hnext m _ ⟨?_, rfl⟩) SameSync.refl rfl rfl⟩
    have hm' : (if (c.shared.lock pf).holder = some c.running then 1 else 0) = m :=
      Option.some.inj hm
    rw [← (h.locks pf).holder c.running]
    by_cases hself : (c.shared.lock pf).holder = some c.running
    · rw [if_pos hself] at hm'
      exact ⟨fun _ => hself, fun _ => by omega⟩
    · rw [if_neg hself] at hm'
      exact ⟨fun hne => absurd hm'.symm hne, fun hholder => absurd hholder hself⟩
  | semaDown pf =>
    simp only [Act.exec] at hexec
    split at hexec
    · split at hexec
      · cases hexec
      · obtain ⟨hm, -⟩ := Prod.mk.inj (Option.some.inj hexec)
        cases hm
    · next hpos =>
      split at hexec
      · next hzero =>
        obtain ⟨-, rfl⟩ := Prod.mk.inj (Option.some.inj hexec)
        refine ⟨_, h.lockAct c.shared.blocked (hnext m _ rfl)
          ((h.locks pf).semaDown (by omega) hzero) rfl rfl fun hin => ?_⟩
        have howned := h.locked c.running pf hin
        rw [show (γ c.running).phase pf = .out from hallows] at howned
        cases howned
      · cases hexec
  | setHolder pf =>
    obtain ⟨-, rfl⟩ := Prod.mk.inj (Option.some.inj hexec)
    have htaken : (γ c.running).phase pf = .taken := hallows
    refine ⟨_, h.lockAct c.shared.blocked (hnext m _ rfl)
      ((h.locks pf).move ?_ rfl) rfl rfl fun _ => rfl⟩
    rw [htaken]
    exact fun heq => nomatch heq
  | clearHolder pf =>
    obtain ⟨-, rfl⟩ := Prod.mk.inj (Option.some.inj hexec)
    obtain ⟨howned, hidle⟩ := hallows
    refine ⟨_, h.lockAct c.shared.blocked (hnext m _ rfl)
      ((h.locks pf).move ?_ rfl) rfl rfl fun hin => ?_⟩
    · rw [howned]
      exact fun heq => nomatch heq
    · -- a thread in `palloc` does not release the lock
      have hpool := h.inPalloc c.running
      rw [show (c.threads c.running).inPalloc = some (pf, true) from hin, hidle] at hpool
      cases hpool
  | semaUp pf =>
    have hreleased : (γ c.running).phase pf = .released := hallows
    have hnot (hin : c.cur.inPalloc = some (pf, true)) : Phase.out = .owned := by
      have howned := h.locked c.running pf hin
      rw [hreleased] at howned
      cases howned
    simp only [Act.exec] at hexec
    split at hexec
    · split at hexec
      · obtain ⟨-, rfl⟩ := Prod.mk.inj (Option.some.inj hexec)
        exact ⟨_, h.lockAct c.shared.blocked (hnext m _ rfl)
          ((h.locks pf).semaUp hreleased) rfl rfl hnot⟩
      · split at hexec
        · obtain ⟨-, rfl⟩ := Prod.mk.inj (Option.some.inj hexec)
          exact ⟨_, h.lockAct _ (hnext m _ rfl) ((h.locks pf).semaUp hreleased) rfl rfl hnot⟩
        · cases hexec
    · cases hexec
  | palloc pf =>
    obtain ⟨-, rfl⟩ := Prod.mk.inj (Option.some.inj hexec)
    refine ⟨_, h.callPalloc hallows.2 (hnext m _ rfl) ?_⟩
    rintro rfl t b ht hin
    exact hok k hcode t b ht hin
  | byteFull pf idxByte =>
    obtain ⟨hm, rfl⟩ := Prod.mk.inj (Option.some.inj hexec)
    have hm' : (if (c.shared.bitmap pf).byteFull idxByte = true then 1 else 0) = m :=
      Option.some.inj hm
    have hcont := hnext m _ rfl
    have hcalled : (γ c.running).scan = .called pf := hallows
    by_cases hzero : m = 0
    · rw [if_pos hzero] at hcont
      refine ⟨_, h.scanAct hcont ?_ (by rw [hcalled]; rfl) rfl rfl⟩
      have hnotFull : ¬ (c.shared.bitmap pf).byteFull idxByte = true := by
        intro hfull
        rw [if_pos hfull] at hm'
        omega
      simp only [Bitmap.byteFull_eq_true, not_forall] at hnotFull
      obtain ⟨j, hj, hbit⟩ := hnotFull
      refine ⟨j, Nat.zero_le j, hj, ?_⟩
      rw [Nat.mul_comm]
      simpa [Shared.bits] using hbit
    · rw [if_neg hzero] at hcont
      exact ⟨γ, h.quiet hcont SameSync.refl rfl rfl⟩
  | testBit pf idxByte idxBit =>
    obtain ⟨hm, rfl⟩ := Prod.mk.inj (Option.some.inj hexec)
    have hm' : (if idxBit < 8 ∧ (c.shared.bitmap pf).bit (8 * idxByte + idxBit) = true then 1
      else 0) = m := Option.some.inj hm
    have hbyte : (γ c.running).scan = .byte pf idxByte idxBit := hallows
    have hholds := h.scans c.running
    rw [hbyte] at hholds
    obtain ⟨j', h1, h2, h3⟩ := hholds
    have hlt : idxBit < 8 := by omega
    refine ⟨_, h.scanAct (hnext m _ ⟨hlt, rfl⟩) ?_ ?_ rfl rfl⟩
    · by_cases hzero : m = 0
      · rw [if_pos hzero]
        show (c.shared.bitmap pf).bit (idxByte * 8 + idxBit) = false
        rw [Nat.mul_comm]
        by_contra hbit
        rw [if_pos ⟨hlt, by simpa using hbit⟩] at hm'
        omega
      · rw [if_neg hzero]
        refine ⟨j', ?_, h2, h3⟩
        -- the bit tested is set, so the clear bit is behind it
        by_contra hle
        obtain rfl : idxBit = j' := by omega
        have hclear : (c.shared.bitmap pf).bit (8 * idxByte + idxBit) = false := by
          rw [Nat.mul_comm]
          exact h3
        rw [if_neg (by rw [hclear]; simp)] at hm'
        omega
    · rw [hbyte]
      split <;> rfl
  | setBit pf i =>
    obtain ⟨-, rfl⟩ := Prod.mk.inj (Option.some.inj hexec)
    exact ⟨_, h.takeFrame hallows (hnext m _ rfl)⟩
  | _ => exact absurd rfl hplain

/-- A thread with nothing to do makes a call. -/
theorem CpuInv.call (h : CpuInv c γ) (hidle : c.cur.idle = true) {r : Request} {intrOn : Bool} :
    CpuInv (c.setCur { code := r.code, intrOn := intrOn, inPalloc := c.cur.inPalloc }) γ := by
  have hrest : (γ c.running).Rest := by
    have hobeys := h.obeys c.running
    rw [show c.threads c.running = c.cur from rfl] at hobeys
    simp only [Thread.idle] at hidle
    split at hidle
    · next u hcode =>
      rw [hcode] at hobeys
      exact hobeys
    · cases hidle
  have hin (t : Nat) :
      ((c.setCur { code := r.code, intrOn := intrOn, inPalloc := c.cur.inPalloc }).threads
        t).inPalloc = (c.threads t).inPalloc := by
    by_cases ht : t = c.running
    · rw [ht, Cpu.setCur]
      simp [Cpu.cur]
    · simp [Cpu.setCur, ht]
  exact {
    obeys := by
      intro t
      by_cases ht : t = c.running
      · rw [ht]
        simp only [Cpu.setCur, Function.update_self]
        exact Code.request_obeys hrest
      · simp only [Cpu.setCur, Function.update_of_ne ht]
        exact h.obeys t
    locks := h.locks
    scans := h.scans
    inPalloc := fun t => hin t ▸ h.inPalloc t
    locked := fun t => hin t ▸ h.locked t
    user := fun t => hin t ▸ h.user t
    alone := h.alone
    taken := h.taken
    unique := h.unique }

theorem CpuInv.switch (h : CpuInv c γ) {t dir : Nat} :
    CpuInv { c with running := t, shared := { c.shared with cr3 := dir } } γ where
  obeys := h.obeys
  locks := h.locks
  scans := h.scans
  inPalloc := h.inPalloc
  locked := h.locked
  user := h.user
  alone := h.alone
  taken := h.taken
  unique := h.unique

/-- A frame is given back. -/
theorem CpuInv.free (h : CpuInv c γ) {pf : PoolFlag} {i : Nat} :
    CpuInv { c with
      shared := c.shared.setBitmap pf ((c.shared.bitmap pf).bitmapSet i false)
      events := .free pf i :: c.events } γ := by
  have hbits (pf' : PoolFlag) (i' : Nat) :
      (c.shared.setBitmap pf ((c.shared.bitmap pf).bitmapSet i false)).bits pf' i' =
        if pf' = pf ∧ i' = i then false else c.shared.bits pf' i' :=
    bits_setBitmap
  exact {
    obeys := h.obeys
    locks := fun pf' => by
      rw [lock_setBitmap]
      exact h.locks pf'
    scans := fun t => (h.scans t).anti fun pf' i' _ hbit => by
      rw [hbits]
      split
      · rfl
      · exact hbit
    inPalloc := h.inPalloc
    locked := h.locked
    user := h.user
    alone := h.alone
    taken := fun pf' i' htaken => by
      obtain ⟨hne, htaken⟩ := taken_cons_free htaken
      rw [hbits, if_neg hne]
      exact h.taken pf' i' htaken
    unique := framesUnique_cons_free h.unique }

theorem cpuInv_initial (h : c.Initial) :
    CpuInv c fun _ => { phase := fun _ => .out, scan := .idle } where
  obeys := by
    intro t
    rw [(h.threads t).1]
    exact ⟨rfl, fun _ => Or.inl rfl⟩
  locks := by
    intro pf
    obtain ⟨hholder, -⟩ := h.locks pf
    refine ⟨fun t t' ht => absurd rfl ht, fun _ _ => rfl, fun t => ?_⟩
    rw [hholder]
    simp
  scans := fun _ => trivial
  inPalloc := by
    intro t
    rw [(h.threads t).2]
    rfl
  locked := by
    intro t pf hin
    rw [(h.threads t).2] at hin
    cases hin
  user := by
    intro t b hin
    rw [(h.threads t).2] at hin
    cases hin
  alone := by
    intro t t' pf hpool
    cases hpool
  taken := by
    intro pf i htaken
    rw [h.events] at htaken
    exact absurd htaken taken_nil
  unique := by
    rw [h.events]
    exact framesUnique_nil

theorem CpuInv.step (h : CpuInv c γ) (hok : KernelPallocsApart c n) (hstep : c.step n = some d) :
    ∃ γ', CpuInv d γ' := by
  cases n with
  | perform oracle =>
    simp only [Cpu.step, Cpu.perform] at hstep
    split at hstep
    · cases hstep
    · next a k hcode =>
      split at hstep
      · cases hstep
      · split at hstep
        · cases hstep
        · next s hexec =>
          rw [← Option.some.inj hstep]
          exact ⟨γ, h.sameSync (exec_waits hexec)⟩
        · next m s hexec =>
          rw [← Option.some.inj hstep]
          exact h.act hcode hok hexec
  | call r intrOn =>
    simp only [Cpu.step] at hstep
    split at hstep
    · next hidle =>
      rw [← Option.some.inj hstep]
      exact ⟨γ, h.call hidle⟩
    · cases hstep
  | switch t =>
    simp only [Cpu.step] at hstep
    split at hstep
    · rw [← Option.some.inj hstep]
      exact ⟨γ, h.switch⟩
    · cases hstep
  | free pf i =>
    rw [← Option.some.inj hstep]
    exact ⟨γ, h.free⟩

theorem cpuInv_run (hinit : c.Initial) (hrun : Cpu.Run KernelPallocsApart c d) :
    ∃ γ, CpuInv d γ := by
  induction hrun with
  | refl => exact ⟨_, cpuInv_initial hinit⟩
  | step _ hok hstep ih =>
    obtain ⟨γ, hγ⟩ := ih
    exact hγ.step hok hstep

/-- In every state of every run in which no palloc of the kernel pool made without its
    lock overlaps another, no frame has been handed out twice. -/
theorem frames_unique (hinit : c.Initial) (hrun : Cpu.Run KernelPallocsApart c d) :
    Cpu.FramesUnique d.events := by
  obtain ⟨γ, h⟩ := cpuInv_run hinit hrun
  exact h.unique

end Step

/-! ## Runs, computed -/

section Steps

variable {ok : Cpu → Next → Prop} {c d e : Cpu} {ns : List Next} {n : Next}

/-- Only the running thread has done anything yet. -/
def Cpu.Solo (c : Cpu) : Prop := ∀ t, t ≠ c.running → (c.threads t).inPalloc = none

theorem Cpu.Solo.apart (h : c.Solo) : KernelPallocsApart c n := by
  cases n with
  | perform oracle =>
    intro k _ t b ht hin
    rw [h t ht] at hin
    cases hin
  | call r intrOn => trivial
  | switch t => trivial
  | free pf i => trivial

theorem Cpu.Solo.step (h : c.Solo) (hn : ∀ t, n ≠ .switch t) (hstep : c.step n = some d) :
    d.Solo := by
  cases n with
  | perform oracle =>
    simp only [Cpu.step, Cpu.perform] at hstep
    split at hstep
    · cases hstep
    · split at hstep
      · cases hstep
      · split at hstep
        · cases hstep
        · rw [← Option.some.inj hstep]
          exact h
        · rw [← Option.some.inj hstep]
          intro t ht
          have hne : t ≠ c.running := ht
          show (Function.update c.threads c.running _ t).inPalloc = none
          rw [Function.update_of_ne hne]
          exact h t hne
  | call r intrOn =>
    simp only [Cpu.step] at hstep
    split at hstep
    · rw [← Option.some.inj hstep]
      intro t ht
      have hne : t ≠ c.running := ht
      show (Function.update c.threads c.running _ t).inPalloc = none
      rw [Function.update_of_ne hne]
      exact h t hne
    · cases hstep
  | switch t => exact absurd rfl (hn t)
  | free pf i =>
    rw [← Option.some.inj hstep]
    exact h

theorem run_of_steps (h : Cpu.Run (fun _ _ => True) c d) (hsteps : d.steps ns = some e) :
    Cpu.Run (fun _ _ => True) c e := by
  induction ns generalizing d with
  | nil =>
    rw [← Option.some.inj hsteps]
    exact h
  | cons n ns ih =>
    rw [Cpu.steps] at hsteps
    split at hsteps
    · cases hsteps
    · next d' hd' => exact ih (h.step trivial hd') hsteps

/-- A thread on its own overlaps no other. -/
theorem Cpu.Solo.run (hd : d.Solo) (h : Cpu.Run KernelPallocsApart c d)
    (hns : ∀ n ∈ ns, ∀ t, n ≠ .switch t) (hsteps : d.steps ns = some e) :
    Cpu.Run KernelPallocsApart c e := by
  induction ns generalizing d with
  | nil =>
    rw [← Option.some.inj hsteps]
    exact h
  | cons n ns ih =>
    rw [Cpu.steps] at hsteps
    split at hsteps
    · cases hsteps
    · next d' hd' =>
      have hsolo := hd.step (hns n List.mem_cons_self) hd'
      exact ih hsolo (h.step hd.apart hd') (fun m hm => hns m (List.mem_cons_of_mem _ hm)) hsteps

end Steps

/-! ## Two threads -/

/-- A kernel thread, running, and a process with an empty page directory, in a machine
    with 16 MiB in either pool. -/
def twoThreads : Cpu where
  shared :=
    { pool := fun pf =>
        { poolBitmap := { btmpBytesLen := 512, bit := fun _ => false }
          phyAddrStart := if pf = .kernel then 0x200000 else 0x1200000
          poolSize := 0x1000000
          lock := {} }
      kernelVaddr :=
        { vaddrBitmap := { btmpBytesLen := 512, bit := fun _ => false }
          vaddrStart := 0xc0100000 }
      userprogVaddr := fun _ =>
        { vaddrBitmap := { btmpBytesLen := 94199, bit := fun _ => false }
          vaddrStart := 0x8048000 }
      pgdir := fun t => if t = 0xc0101000 then some 0x202000 else none
      cr3 := kernelPageDir
      pde := fun dir i => if dir = kernelPageDir ∧ 768 ≤ i then 7 else 0
      pte := fun _ _ => 0
      blocked := fun _ => false }
  threads := fun _ => { code := .ret (), intrOn := true, inPalloc := none }
  running := 0xc0100000
  events := []

theorem twoThreads_initial : twoThreads.Initial where
  locks := fun _ => ⟨rfl, rfl⟩
  threads := fun _ => ⟨rfl, rfl⟩
  events := rfl

def performs (n : Nat) : List Next := List.replicate n (.perform 0)

/-- A thread that takes a page of the kernel pool and no other. -/
theorem frames_unique_one_page :
    ∃ d, Cpu.Run KernelPallocsApart twoThreads d ∧
      d.events = [.palloc 0xc0100000 .kernel 0] ∧ Cpu.FramesUnique d.events := by
  have hevents : (twoThreads.steps (.call (.getKernelPages 1) true :: performs 27)).map
      Cpu.events = some [.palloc 0xc0100000 .kernel 0] := by decide +kernel
  obtain ⟨d, hsteps, hd⟩ := Option.map_eq_some_iff.mp hevents
  have hsolo : twoThreads.Solo := fun _ _ => rfl
  have hrun := hsolo.run Cpu.Run.refl (by
    intro n hn t
    rcases List.mem_cons.mp hn with rfl | hn
    · exact fun heq => nomatch heq
    · rw [List.eq_of_mem_replicate hn]
      exact fun heq => nomatch heq) hsteps
  exact ⟨d, hrun, hd, frames_unique twoThreads_initial hrun⟩

/-- The kernel thread is preempted in `get_kernel_pages(1)`, with the clear bit found
    and not yet set.  The process takes a page with `sys_malloc`; its page table gets
    the same frame of the kernel pool. -/
theorem page_table_frame_twice :
    ∃ d, Cpu.Run (fun _ _ => True) twoThreads d ∧
      d.events = [.palloc 0xc0100000 .kernel 0, .palloc 0xc0101000 .kernel 0,
        .palloc 0xc0101000 .user 0] ∧ ¬ Cpu.FramesUnique d.events := by
  have hevents : (twoThreads.steps (.call (.getKernelPages 1) true :: performs 15 ++
      [.switch 0xc0101000, .call (.sysMalloc 2000) false] ++ performs 40 ++
      [.switch 0xc0100000, .perform 0])).map Cpu.events =
        some [.palloc 0xc0100000 .kernel 0, .palloc 0xc0101000 .kernel 0,
          .palloc 0xc0101000 .user 0] := by decide +kernel
  obtain ⟨d, hsteps, hd⟩ := Option.map_eq_some_iff.mp hevents
  refine ⟨d, run_of_steps Cpu.Run.refl hsteps, hd, fun hunique => ?_⟩
  have hfree := hunique 0xc0101000 0xc0100000 .kernel 0 [] [] [.palloc 0xc0101000 .user 0] hd
  cases hfree

end ZxyOs
