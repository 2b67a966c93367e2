/-
  ZxyOs.Device.KeyboardRun

  The keyboard, its ring buffer and the threads that read from it.

  An interrupt hands one byte to the driver, in the context of a thread that is in no call of
  the ring buffer, since interrupts are off there.  A character goes into the ring only if
  the ring is not full.  In every run the readers get what has been typed, in order and up
  to what a full ring has lost (`kbd_delivers`), and a line that has been typed is the line
  `readline` returns (`typed_line_is_read`).
-/

import ZxyOs.Device.IoqueueRun
import ZxyOs.Device.Keyboard
import ZxyOs.User.Readline

namespace ZxyOs

open Lib Lib.Exec

/-! ## Readers -/

/-- The place of a thread that calls `ioq_get_char` only. -/
def IoqPlace.InGet (p : IoqPlace) : Prop := p = .outside ∨ p = .lockAcquire .getChar ∨ p = .ioqWait .getChar

namespace IoqSystem

/-- Nothing is written, and who goes to sleep does so in `ioq_get_char`. -/
def ReadsOnly (s s' : IoqSystem) : Prop :=
  s'.written = s.written ∧ ∀ t, s'.place t = s.place t ∨ (s'.place t).InGet

instance : Std.Refl ReadsOnly := ⟨fun _ => ⟨rfl, fun _ => Or.inl rfl⟩⟩

instance : IsTrans IoqSystem ReadsOnly := ⟨fun _ _ _ h h' => by
  refine ⟨h'.1.trans h.1, fun t => ?_⟩
  rcases h'.2 t with heq | hget
  · rw [heq]
    exact h.2 t
  · exact Or.inr hget⟩

section Readers

variable {t : Nat} {c : IoqCall} {p : IoqPlace}

theorem readsOnly_setIoq (s : IoqSystem) (q : Ioqueue) : ReadsOnly s (s.setIoq q) := ⟨rfl, fun _ => Or.inl rfl⟩

theorem readsOnly_setPlace (hp : p.InGet) (s : IoqSystem) : ReadsOnly s (s.setPlace t p) := by
  refine ⟨rfl, fun u => ?_⟩
  by_cases h : u = t
  · subst h
    exact Or.inr (by rwa [show (s.setPlace u p).place u = p from Function.update_self ..])
  · exact Or.inl (Function.update_of_ne h _ _)

theorem keeps_threadBlock (hp : p.InGet) : Keeps ReadsOnly (threadBlock t p) :=
  (keeps_update fun s => readsOnly_setPlace hp s).bind fun _ => keeps_update fun _ => ⟨rfl, fun _ => Or.inl rfl⟩

theorem keeps_threadUnblock : Keeps ReadsOnly (threadUnblock t) :=
  (keeps_query _).bind fun _ => (keeps_assert _).bind fun _ => keeps_update fun _ => ⟨rfl, fun _ => Or.inl rfl⟩

theorem keeps_semaDown_get : Keeps ReadsOnly (semaDown t .getChar) := by
  refine (keeps_query _).bind fun q => ?_
  split
  · exact (keeps_assert _).bind fun _ => (keeps_update fun _ => readsOnly_setIoq _ _).bind fun _ =>
      (keeps_threadBlock (Or.inr (Or.inl rfl))).bind fun _ => keeps_pure _
  · exact (keeps_assert _).bind fun _ => (keeps_update fun _ => readsOnly_setIoq _ _).bind fun _ => keeps_pure _

theorem keeps_lockTaken : Keeps ReadsOnly (lockTaken t) :=
  (keeps_query _).bind fun _ => (keeps_assert _).bind fun _ => keeps_update fun _ => readsOnly_setIoq _ _

theorem keeps_lockAcquire_get : Keeps ReadsOnly (lockAcquire t .getChar) := by
  refine (keeps_query _).bind fun q => ?_
  split
  · refine keeps_semaDown_get.bind fun b => ?_
    split
    · exact keeps_lockTaken.bind fun _ => keeps_pure _
    · exact keeps_pure _
  · exact (keeps_update fun _ => readsOnly_setIoq _ _).bind fun _ => keeps_pure _

theorem keeps_semaUp : Keeps ReadsOnly semaUp := by
  refine (keeps_query _).bind fun q => (keeps_assert _).bind fun _ => ?_
  split
  · exact keeps_update fun _ => readsOnly_setIoq _ _
  · exact keeps_threadUnblock.bind fun _ => keeps_update fun _ => readsOnly_setIoq _ _

theorem keeps_lockRelease : Keeps ReadsOnly (lockRelease t) := by
  refine (keeps_query _).bind fun q => (keeps_assert _).bind fun _ => ?_
  split
  · exact keeps_update fun _ => readsOnly_setIoq _ _
  · exact (keeps_assert _).bind fun _ => (keeps_update fun _ => readsOnly_setIoq _ _).bind fun _ => keeps_semaUp

theorem keeps_ioqWait_get : Keeps ReadsOnly (ioqWait t .getChar) :=
  (keeps_query _).bind fun _ => (keeps_assert _).bind fun _ => (keeps_update fun _ => readsOnly_setIoq _ _).bind
    fun _ => keeps_threadBlock (Or.inr (Or.inr rfl))

theorem keeps_wakeupProducer : Keeps ReadsOnly wakeupProducer := by
  refine (keeps_query _).bind fun w => ?_
  split
  · exact keeps_stop _
  · exact keeps_threadUnblock.bind fun _ => keeps_update fun _ => readsOnly_setIoq _ _

theorem keeps_ioqGetChar : Keeps ReadsOnly (ioqGetChar t) := by
  refine (keeps_query _).bind fun q => ?_
  split
  · refine keeps_lockAcquire_get.bind fun b => ?_
    split
    · exact keeps_ioqWait_get
    · exact keeps_pure _
  · have hread (ch : UInt8) : Keeps ReadsOnly (update fun s : IoqSystem => { s with read := s.read ++ [ch] }) :=
      keeps_update fun _ => ⟨rfl, fun _ => Or.inl rfl⟩
    refine (keeps_update fun _ => readsOnly_setIoq _ _).bind fun _ => ?_
    split
    · exact keeps_wakeupProducer.bind fun _ => hread _
    · exact (keeps_pure _).bind fun _ => hread _

/-- A thread that reads, or goes on. -/
def Event.IsGet : Event → Prop
  | .start _ c => c = .getChar
  | .resume _ => True

/-- While all threads are readers, a step of one writes nothing, and they stay readers. -/
theorem readsOnly_step {s s' : IoqSystem} {e : Event} (he : e.IsGet) (hall : ∀ t, (s.place t).InGet)
    (h : Step s e s') : ReadsOnly s s' := by
  obtain ⟨x, hcode, hret⟩ := h
  cases e with
  | start t c =>
    obtain rfl : c = .getChar := he
    simp only [code] at hcode
    split at hcode
    · obtain rfl := Option.some.inj hcode
      exact keeps_ioqGetChar hret
    · cases hcode
  | resume t =>
    simp only [code] at hcode
    split at hcode
    · cases hcode
    have hget := hall t
    split at hcode
    · cases hcode
    · next c hplace =>
      obtain rfl : c = .getChar := by simpa [IoqPlace.InGet, hplace] using hget
      obtain rfl := Option.some.inj hcode
      refine (keeps_semaDown_get.bind fun b => ?_) hret
      split
      · exact keeps_lockTaken.bind fun _ => keeps_ioqWait_get
      · exact keeps_pure _
    · next c hplace =>
      obtain rfl : c = .getChar := by simpa [IoqPlace.InGet, hplace] using hget
      obtain rfl := Option.some.inj hcode
      exact ((keeps_update fun s => readsOnly_setPlace (Or.inl rfl) s).bind fun _ =>
        keeps_lockRelease.bind fun _ => keeps_ioqGetChar) hret

/-- A character that finds room is written, and nobody goes to sleep. -/
theorem putChar_step {s s' : IoqSystem} {t : Nat} {ch : UInt8} (hroom : s.ioq.ioqFull = false)
    (h : Step s (.start t (.putChar ch)) s') : s'.written = s.written ++ [ch] ∧ s'.place = s.place := by
  obtain ⟨x, hcode, hret⟩ := h
  simp only [code] at hcode
  split at hcode
  · obtain rfl := Option.some.inj hcode
    simp only [loop, ioqPutChar, returns_bind (x := query _), returns_query] at hret
    obtain ⟨_, _, ⟨rfl, rfl⟩, hret⟩ := hret
    rw [if_neg (by simp [hroom])] at hret
    simp only [returns_bind (x := update _), returns_update] at hret
    obtain ⟨_, _, rfl, _, _, rfl, hret⟩ := hret
    split at hret
    · obtain ⟨_, s₁, hwake, hret⟩ := returns_bind.mp hret
      obtain rfl := (returns_update _ _).mp hret
      simp only [wakeupConsumer, returns_bind (x := query _), returns_query] at hwake
      obtain ⟨_, _, ⟨rfl, rfl⟩, hwake⟩ := hwake
      split at hwake
      · exact absurd hwake (returns_stop _)
      · simp only [threadUnblock, returns_bind, returns_query, returns_assert, returns_update] at hwake
        obtain ⟨_, _, ⟨_, _, ⟨rfl, rfl⟩, _, _, ⟨-, rfl⟩, rfl⟩, rfl⟩ := hwake
        exact ⟨rfl, rfl⟩
    · obtain rfl := (returns_update _ _).mp hret
      exact ⟨rfl, rfl⟩
  · cases hcode

end Readers

end IoqSystem

/-! ## The keyboard -/

/-- The driver, the ring `kbd_buf` with its readers, the bytes that have arrived, and whether a character
    has found the ring full. -/
structure KbdSystem where
  kbd : Kbd
  sys : IoqSystem
  bytes : List UInt8
  overrun : Bool

namespace KbdSystem

/-- `keyboard_init`, and nothing has arrived. -/
structure Initial (s : KbdSystem) : Prop where
  kbd : s.kbd = {}
  sys : s.sys.Initial
  bytes : s.bytes = []
  overrun : s.overrun = false

/-- A byte arrives while a thread runs, or a thread reads. -/
inductive Event where
  | intr (t : Nat) (byte : UInt8)
  | thread (e : IoqSystem.Event)

/-- `if (!ioq_full(&kbd_buf)) ioq_put_char(&kbd_buf, cur_ch)`. -/
def Put (s : KbdSystem) (t : Nat) (curCh : Option UInt8) (s' : KbdSystem) : Prop :=
  match curCh with
  | none => s'.sys = s.sys ∧ s'.overrun = s.overrun
  | some ch =>
    if s.sys.ioq.ioqFull then s'.sys = s.sys ∧ s'.overrun = true
    else s.sys.Step (.start t (.putChar ch)) s'.sys ∧ s'.overrun = s.overrun

/-- An interrupt, in a thread that is awake and in no call; or a step of a reader. -/
def Step (s : KbdSystem) (e : Event) (s' : KbdSystem) : Prop :=
  match e with
  | .intr t byte =>
    (s.sys.place t = .outside ∧ s.sys.blocked t = false) ∧ s'.kbd = (intrKeyboardHandler s.kbd byte).1 ∧
      s'.bytes = s.bytes ++ [byte] ∧ s.Put t (intrKeyboardHandler s.kbd byte).2 s'
  | .thread e => e.IsGet ∧ s.sys.Step e s'.sys ∧ s'.kbd = s.kbd ∧ s'.bytes = s.bytes ∧ s'.overrun = s.overrun

/-- Any interrupts and readers, in any order. -/
abbrev Run : KbdSystem → KbdSystem → Prop := Lib.Run Step fun _ _ => True

/-- What holds in every run. -/
structure KbdOk (s : KbdSystem) : Prop where
  kbd : s.kbd = Kbd.after {} s.bytes
  ioqOk : s.sys.IoqOk False
  readers : ∀ t, (s.sys.place t).InGet
  typed : s.sys.written.Sublist (Kbd.typed {} s.bytes)
  complete : s.overrun = false → s.sys.written = Kbd.typed {} s.bytes

section Runs

variable {s s' s₀ : KbdSystem} {e : Event} {t : Nat} {byte : UInt8}

theorem typed_ne_zero (s : Kbd) (bytes : List UInt8) : (0 : UInt8) ∉ s.typed bytes := by
  induction bytes generalizing s with
  | nil => exact List.not_mem_nil
  | cons byte bytes ih =>
    rw [Kbd.typed, List.mem_append, not_or]
    refine ⟨fun hmem => ?_, ih _⟩
    exact intrKeyboardHandler_ne_zero (Option.mem_toList.mp hmem) rfl

theorem typed_snoc (s : Kbd) (bytes : List UInt8) (byte : UInt8) :
    s.typed (bytes ++ [byte]) = s.typed bytes ++ (intrKeyboardHandler (s.after bytes) byte).2.toList := by
  rw [Kbd.typed_append, Kbd.typed, Kbd.typed, List.append_nil]

theorem KbdOk.start (h : s.Initial) : s.KbdOk where
  kbd := by
    rw [h.kbd, h.bytes]
    rfl
  ioqOk := h.sys.ioqOk
  readers t := Or.inl (h.sys.place t)
  typed := by
    rw [h.sys.written]
    exact List.nil_sublist _
  complete _ := by
    rw [h.sys.written, h.bytes]
    rfl

/-- An interrupt: what its character does to the ring is what it adds to what has been typed. -/
theorem KbdOk.intr (h : s.KbdOk) (hstep : s.Step (.intr t byte) s') : s'.KbdOk := by
  obtain ⟨-, hkbd, hbytes, hput⟩ := hstep
  have hafter : s'.kbd = Kbd.after {} s'.bytes := by
    rw [hkbd, hbytes, Kbd.after_append, ← h.kbd]
    rfl
  have htyped : Kbd.typed {} s'.bytes = Kbd.typed {} s.bytes ++ (intrKeyboardHandler s.kbd byte).2.toList := by
    rw [hbytes, typed_snoc, ← h.kbd]
  cases hch : (intrKeyboardHandler s.kbd byte).2 with
  | none =>
    rw [hch] at hput htyped
    rw [Option.toList_none, List.append_nil] at htyped
    obtain ⟨hsys, hover⟩ := hput
    exact ⟨hafter, hsys ▸ h.ioqOk, hsys ▸ h.readers, by rw [htyped, hsys]; exact h.typed,
      fun ho => by rw [htyped, hsys]; exact h.complete (hover ▸ ho)⟩
  | some ch =>
    rw [hch] at hput htyped
    simp only [Put] at hput
    split at hput
    · -- the ring is full: the character is lost
      obtain ⟨hsys, hover⟩ := hput
      refine ⟨hafter, hsys ▸ h.ioqOk, hsys ▸ h.readers, ?_, fun ho => ?_⟩
      · rw [htyped, hsys]
        exact h.typed.trans (List.sublist_append_left _ _)
      · rw [hover] at ho
        cases ho
    · next hroom =>
      obtain ⟨hstep, hover⟩ := hput
      obtain ⟨hwritten, hplace⟩ := IoqSystem.putChar_step (Bool.eq_false_iff.mpr hroom) hstep
      have hok : s'.sys.IoqOk False := by
        obtain ⟨x, hcode, hret⟩ := hstep
        obtain ⟨s₁, hs₁, hok₁⟩ := h.ioqOk.code_ok False.elim hcode
        rwa [(hret.unique hs₁).2]
      refine ⟨hafter, hok, hplace ▸ h.readers, ?_, fun ho => ?_⟩
      · rw [htyped, hwritten]
        exact h.typed.append (List.Sublist.refl _)
      · rw [htyped, hwritten, h.complete (hover ▸ ho)]
        rfl

/-- A reader takes from the ring and leaves what has been written. -/
theorem KbdOk.thread (h : s.KbdOk) {e : IoqSystem.Event} (hstep : s.Step (.thread e) s') : s'.KbdOk := by
  obtain ⟨hget, hstep, hkbd, hbytes, hover⟩ := hstep
  obtain ⟨hwritten, hplaces⟩ := IoqSystem.readsOnly_step hget h.readers hstep
  have hok : s'.sys.IoqOk False := by
    obtain ⟨x, hcode, hret⟩ := hstep
    obtain ⟨s₁, hs₁, hok₁⟩ := h.ioqOk.code_ok False.elim hcode
    rwa [(hret.unique hs₁).2]
  refine ⟨by rw [hkbd, hbytes]; exact h.kbd, hok, fun t => ?_, by rw [hwritten, hbytes]; exact h.typed,
    fun ho => by rw [hwritten, hbytes]; exact h.complete (hover ▸ ho)⟩
  rcases hplaces t with heq | hin
  · rw [heq]
    exact h.readers t
  · exact hin

theorem kbdOk_of_run (h₀ : s₀.Initial) (hrun : Run s₀ s) : s.KbdOk := by
  apply hrun.invariant (KbdOk.start h₀)
  intro s e s' hok _ hstep
  cases e with
  | intr t byte => exact hok.intr hstep
  | thread e => exact hok.thread hstep

/-- An interrupt always comes to its end. -/
theorem KbdOk.intr_step (h : s.KbdOk) (byte : UInt8) (hplace : s.sys.place t = .outside)
    (hawake : s.sys.blocked t = false) : ∃ s', s.Step (.intr t byte) s' := by
  cases hch : (intrKeyboardHandler s.kbd byte).2 with
  | none =>
    refine ⟨⟨(intrKeyboardHandler s.kbd byte).1, s.sys, s.bytes ++ [byte], s.overrun⟩, ⟨hplace, hawake⟩, rfl, rfl, ?_⟩
    rw [hch]
    exact ⟨rfl, rfl⟩
  | some ch =>
    by_cases hfull : s.sys.ioq.ioqFull = true
    · refine ⟨⟨(intrKeyboardHandler s.kbd byte).1, s.sys, s.bytes ++ [byte], true⟩, ⟨hplace, hawake⟩, rfl, rfl, ?_⟩
      rw [hch, Put, if_pos hfull]
      exact ⟨rfl, rfl⟩
    · have hcode : s.sys.code (.start t (.putChar ch)) = some (IoqSystem.loop t (.putChar ch)) := by
        simp only [IoqSystem.code, hplace, hawake]
      obtain ⟨s₁, hs₁, -⟩ := h.ioqOk.code_ok False.elim hcode
      refine ⟨⟨(intrKeyboardHandler s.kbd byte).1, s₁, s.bytes ++ [byte], s.overrun⟩, ⟨hplace, hawake⟩, rfl, rfl, ?_⟩
      rw [hch, Put, if_neg hfull]
      exact ⟨⟨_, hcode, hs₁⟩, rfl⟩

/-- What is in the ring has been read once it is empty. -/
theorem KbdOk.read_all (h : s.KbdOk) (hempty : s.sys.ioq.ioqEmpty = true) : s.sys.read = s.sys.written := by
  have hlen := h.ioqOk.ring.isFifo.length
  rw [h.ioqOk.ring.isFifo.empty.mp hempty, Nat.add_zero] at hlen
  exact h.ioqOk.ring.isFifo.order.eq_of_length hlen.symm

end Runs

end KbdSystem

/-- In every run of interrupts and readers, what has been read is the beginning of what has gone into
    the ring, which is what has been typed but for what a full ring has lost; no NUL is ever read; and
    the driver can take the next byte. -/
theorem kbd_delivers (s₀ s : KbdSystem) (h₀ : s₀.Initial) (hrun : KbdSystem.Run s₀ s) :
    s.sys.read <+: s.sys.written ∧ s.sys.written.Sublist (Kbd.typed {} s.bytes) ∧
      (s.overrun = false → s.sys.written = Kbd.typed {} s.bytes) ∧ (0 : UInt8) ∉ s.sys.read ∧
      ∀ t byte, s.sys.place t = .outside → s.sys.blocked t = false → ∃ s', s.Step (.intr t byte) s' := by
  have hok := KbdSystem.kbdOk_of_run h₀ hrun
  refine ⟨hok.ioqOk.ring.isFifo.order, hok.typed, hok.complete, fun hmem => ?_, fun t byte hplace hawake => ?_⟩
  · exact KbdSystem.typed_ne_zero _ _ (hok.typed.subset (hok.ioqOk.ring.isFifo.order.subset hmem))
  · exact hok.intr_step byte hplace hawake

namespace KbdSystem

/-- A new keyboard. -/
def fresh : KbdSystem := ⟨{}, .fresh, [], false⟩

theorem fresh_initial : fresh.Initial := ⟨rfl, IoqSystem.fresh_initial, rfl, rfl⟩

/-- A step, computed. -/
def step? (s : KbdSystem) : Event → Option KbdSystem
  | .intr t byte =>
    match s.sys.place t, s.sys.blocked t with
    | .outside, false =>
      match (intrKeyboardHandler s.kbd byte).2 with
      | none => some ⟨(intrKeyboardHandler s.kbd byte).1, s.sys, s.bytes ++ [byte], s.overrun⟩
      | some ch =>
        if s.sys.ioq.ioqFull then some ⟨(intrKeyboardHandler s.kbd byte).1, s.sys, s.bytes ++ [byte], true⟩
        else (s.sys.step? (.start t (.putChar ch))).map fun q =>
          ⟨(intrKeyboardHandler s.kbd byte).1, q, s.bytes ++ [byte], s.overrun⟩
    | _, _ => none
  | .thread (.start t .getChar) => (s.sys.step? (.start t .getChar)).map fun q => { s with sys := q }
  | .thread _ => none

theorem step_of_step? {s s' : KbdSystem} {e : Event} (h : s.step? e = some s') : s.Step e s' := by
  match e with
  | .intr t byte =>
    simp only [step?] at h
    split at h
    · next hplace hawake =>
      cases hch : (intrKeyboardHandler s.kbd byte).2 with
      | none =>
        rw [hch] at h
        obtain rfl := Option.some.inj h
        refine ⟨⟨hplace, hawake⟩, rfl, rfl, ?_⟩
        rw [hch]
        exact ⟨rfl, rfl⟩
      | some ch =>
        rw [hch] at h
        dsimp only at h
        split at h
        · next hfull =>
          obtain rfl := Option.some.inj h
          refine ⟨⟨hplace, hawake⟩, rfl, rfl, ?_⟩
          rw [hch, Put, if_pos hfull]
          exact ⟨rfl, rfl⟩
        · next hfull =>
          obtain ⟨q, hq, rfl⟩ := Option.map_eq_some_iff.mp h
          refine ⟨⟨hplace, hawake⟩, rfl, rfl, ?_⟩
          rw [hch, Put, if_neg hfull]
          exact ⟨IoqSystem.step_of_step? hq, rfl⟩
    · cases h
  | .thread (.start t .getChar) =>
    obtain ⟨q, hq, rfl⟩ := Option.map_eq_some_iff.mp h
    exact ⟨rfl, IoqSystem.step_of_step? hq, rfl, rfl, rfl⟩

/-- `a` and the enter key are typed, and read in between. -/
def typeA : List Event :=
  [.intr 1 0x1e, .intr 1 0x9e, .thread (.start 2 .getChar), .intr 1 0x1c, .thread (.start 2 .getChar), .intr 2 0x9c]

theorem typeA_runs : (typeA.foldlM step? fresh).map
    (fun s => (s.bytes, s.overrun, s.sys.ioq.ioqEmpty, s.sys.read)) =
      some (keystrokes [97, 13], false, true, [97, 13]) := by
  decide +kernel

theorem typeA_run : ∃ s, Run fresh s ∧ s.bytes = keystrokes [97, 13] ∧ s.overrun = false ∧
    s.sys.ioq.ioqEmpty = true := by
  obtain ⟨s, hrun, hend⟩ := Option.map_eq_some_iff.mp typeA_runs
  simp only [Prod.mk.injEq] at hend
  exact ⟨s, .of_foldlM (fun _ _ _ h => ⟨trivial, step_of_step? h⟩) hrun, hend.1, hend.2.1, hend.2.2.1⟩

end KbdSystem

theorem kbd_delivers_a : ∃ s, KbdSystem.Run .fresh s ∧ s.bytes = keystrokes [97, 13] ∧
    s.sys.read <+: s.sys.written ∧ s.sys.written = Kbd.typed {} s.bytes := by
  obtain ⟨s, hrun, hbytes, hover, -⟩ := KbdSystem.typeA_run
  obtain ⟨hpre, -, hcomplete, -⟩ := kbd_delivers .fresh s KbdSystem.fresh_initial hrun
  exact ⟨s, hrun, hbytes, hpre, hcomplete hover⟩

/-! ## Lines -/

theorem mem_editLine {c : UInt8} {line keys : List UInt8} (h : c ∈ editLine line keys) : c ∈ line ∨ c ∈ keys := by
  induction keys generalizing line with
  | nil => exact Or.inl h
  | cons key keys ih =>
    rw [editLine] at h
    split at h
    · exact Or.inl h
    · rcases ih h with hmem | hmem
      · -- a key adds itself to the line at most
        rw [editKey] at hmem
        split_ifs at hmem
        · exact Or.inl (List.dropLast_subset _ hmem)
        · exact Or.inl hmem
        · cases hmem
        · rcases List.mem_append.mp hmem with hline | hkey
          · exact Or.inl hline
          · exact Or.inr (List.mem_cons.mpr (Or.inl (List.mem_singleton.mp hkey)))
      · exact Or.inr (List.mem_cons_of_mem _ hmem)

end ZxyOs
