/-
  ZxyOs.User.PipeWrite

  `pipe_write` and the free room of the ring (`user/pipe.c`, `device/ioqueue.c`).

  `pipe_write` offers the ring `bufsize - ioq_length` characters, `ioq_put_char` keeps one
  cell free.  So the call returns what it has stored exactly where `cnt` characters fit,
  and a call that asks for more goes to sleep on the last one it tries to store
  (`pipeWrite_written_iff`).
-/

import ZxyOs.User.FdValidation
import ZxyOs.Lib.Ring

namespace ZxyOs

open Lib Lib.Exec

namespace Ring

/-- Both positions lie in the buffer. -/
def InRange (r : Ring) : Prop := r.head < 2048 ∧ r.tail < 2048

/-- The characters in the ring, the oldest first. -/
def queue (r : Ring) : List UInt8 := ringContents 2048 r.buf r.tail r.length

/-- How many further characters, of `n`, `ioq_put_char` stores before `ioq_full`. -/
def accepts : Nat → Ring → Nat
  | 0, _ => 0
  | n + 1, r => if r.full then 0 else accepts n (r.put 0) + 1

/-- The free capacity; no ring takes more than its cells. -/
def freeCapacity (r : Ring) : Nat := accepts 2048 r

/-- The ring after the `n` bytes of `src` from byte `k` on have been put into it. -/
def putFrom (src : Bytes) : Nat → Nat → Ring → Ring
  | 0, _, r => r
  | n + 1, k, r => putFrom src n (k + 1) (r.put (src k))

section Put

variable {r : Ring} {c : UInt8} {src : Bytes} {n k : Nat}

theorem length_eq (r : Ring) : r.length = ringLength 2048 r.head r.tail := rfl

theorem full_iff : r.full = true ↔ ringNext 2048 r.head = r.tail := by
  simp [full, ringNext]

theorem length_lt (h : r.InRange) : r.length < 2048 := by
  rw [length_eq]
  exact ringLength_lt h.1

/-- One cell of a full ring is free. -/
theorem full_iff_length (h : r.InRange) : r.full = true ↔ r.length = 2047 := by
  rw [full_iff, length_eq]
  exact (ringLength_full h.1 h.2).symm

theorem InRange.put (h : r.InRange) : (r.put c).InRange := ⟨ringNext_lt h.1, h.2⟩

theorem length_put (h : r.InRange) (hroom : r.length < 2047) : (r.put c).length = r.length + 1 := by
  have hnext : ringNext 2048 r.head ≠ r.tail := by
    intro heq
    have := (full_iff_length h).mp (full_iff.mpr heq)
    omega
  exact ringLength_put h.1 h.2 hnext

theorem queue_put (h : r.InRange) (hroom : r.length < 2047) : (r.put c).queue = r.queue ++ [c] := by
  have hhead : (r.tail + r.length) % 2048 = r.head := by
    rw [length_eq]
    exact ringLength_head h.1 h.2
  rw [queue, length_put h hroom]
  show ringContents 2048 (Function.update r.buf r.head c) r.tail (r.length + 1) = _
  rw [← hhead]
  exact ringContents_put (by omega)

theorem accepts_eq (h : r.InRange) : accepts n r = min n (2047 - r.length) := by
  induction n generalizing r with
  | zero => rw [accepts, Nat.zero_min]
  | succ n ih =>
    have hlt := length_lt h
    rw [accepts]
    by_cases hfull : r.full = true
    · rw [if_pos hfull, (full_iff_length h).mp hfull]
      rfl
    · have hroom : r.length < 2047 := by
        rw [full_iff_length h] at hfull
        omega
      rw [if_neg hfull, ih h.put, length_put h hroom]
      omega

/-- `ioq_put_char` fills all cells but one. -/
theorem freeCapacity_eq (h : r.InRange) : r.freeCapacity = 2047 - r.length := by
  rw [freeCapacity, accepts_eq h]
  omega

theorem InRange.putFrom (h : r.InRange) : (putFrom src n k r).InRange := by
  induction n generalizing r k with
  | zero => exact h
  | succ n ih => exact ih h.put

/-- What is put into a ring with room comes last in it. -/
theorem queue_putFrom (h : r.InRange) (hroom : n ≤ 2047 - r.length) :
    (putFrom src n k r).queue = r.queue ++ (List.range n).map fun j => src (k + j) := by
  induction n generalizing r k with
  | zero => exact (List.append_nil _).symm
  | succ n ih =>
    have hone : r.length < 2047 := by omega
    have hrest : n ≤ 2047 - (r.put (src k)).length := by
      rw [length_put h hone]
      omega
    rw [putFrom, ih h.put hrest, queue_put h hone, List.append_assoc, List.range_succ_eq_map,
      List.map_cons, List.map_map, List.singleton_append, Nat.add_zero]
    congr 2
    apply List.map_congr_left
    intro j _
    show src (k + 1 + j) = src (k + (j + 1))
    congr 1
    omega

end Put

end Ring

/-- The ring at `a` is stored. -/
def Fs.setRing (s : Fs) (a : Nat) (r : Ring) : Fs :=
  { s with rings := Function.update s.rings a (some r) }

section Write

variable {s s' : Fs} {a g : Nat} {r : Ring} {buf : Bytes} {n k cnt : Nat} {fd : Int}

theorem Fs.setRing_self : (s.setRing a r).rings a = some r := by
  simp [setRing]

/-- One turn of `pipe_write`: a ring that is full puts the writer to sleep. -/
theorem returns_pipeWriteLoop_succ (hr : s.rings a = some r) :
    Returns (pipeWriteLoop a buf (n + 1) k) s () s' ↔
      r.full = false ∧ Returns (pipeWriteLoop a buf n (k + 1)) (s.setRing a (r.put (buf k))) () s' := by
  simp only [pipeWriteLoop, returns_bind, returns_query, returns_deref]
  constructor
  · rintro ⟨_, _, ⟨rfl, rfl⟩, r', _, ⟨hr', rfl⟩, h⟩
    obtain rfl : r = r' := Option.some.inj (hr.symm.trans hr')
    cases hfull : r.full with
    | true =>
      rw [if_pos hfull] at h
      obtain ⟨_, _, hstop, -⟩ := returns_bind.mp h
      exact absurd hstop (returns_stop _)
    | false =>
      rw [if_neg (by rw [hfull]; simp)] at h
      obtain ⟨_, _, hupdate, hrest⟩ := returns_bind.mp h
      obtain rfl := (returns_update _ _).mp hupdate
      exact ⟨rfl, hrest⟩
  · rintro ⟨hfull, hrest⟩
    refine ⟨_, s, ⟨rfl, rfl⟩, r, s, ⟨hr, rfl⟩, ?_⟩
    rw [if_neg (by rw [hfull]; simp)]
    exact returns_bind.mpr ⟨(), _, (returns_update _ _).mpr rfl, hrest⟩

/-- The loop comes to its end exactly where its characters fit. -/
theorem returns_pipeWriteLoop (hr : s.rings a = some r) (hrange : r.InRange) :
    Returns (pipeWriteLoop a buf n k) s () s' ↔
      n ≤ 2047 - r.length ∧ s' = s.setRing a (Ring.putFrom buf n k r) := by
  induction n generalizing s r k with
  | zero =>
    have hsame : s.setRing a r = s := by
      rw [Fs.setRing, ← hr, Function.update_eq_self]
    rw [pipeWriteLoop, Ring.putFrom, returns_pure, hsame]
    simp [eq_comm]
  | succ n ih =>
    have htwice : (s.setRing a (r.put (buf k))).setRing a (Ring.putFrom buf n (k + 1) (r.put (buf k))) =
        s.setRing a (Ring.putFrom buf (n + 1) k r) := by
      simp only [Fs.setRing, Function.update_idem, Ring.putFrom]
    have hlt := Ring.length_lt hrange
    rw [returns_pipeWriteLoop_succ hr, ih Fs.setRing_self hrange.put, htwice]
    constructor
    · rintro ⟨hfull, hle, hs'⟩
      have hroom : r.length < 2047 := by
        have hne : r.length ≠ 2047 := fun heq => by
          rw [(Ring.full_iff_length hrange).mpr heq] at hfull
          cases hfull
        omega
      rw [Ring.length_put hrange hroom] at hle
      exact ⟨by omega, hs'⟩
    · rintro ⟨hle, hs'⟩
      have hroom : r.length < 2047 := by omega
      refine ⟨?_, ?_, hs'⟩
      · apply Bool.eq_false_iff.mpr
        intro hfull
        have := (Ring.full_iff_length hrange).mp hfull
        omega
      · rw [Ring.length_put hrange hroom]
        omega

theorem returns_pipeWrite {v : Int} (hslot : s.SlotAt fd g) (ha : (s.fileTable g).fdInode = some a)
    (hr : s.rings a = some r) (hrange : r.InRange) :
    Returns (pipeWrite fd buf cnt) s v s' ↔
      min cnt (2048 - r.length) ≤ 2047 - r.length ∧ v = (min cnt (2048 - r.length) : Nat) ∧
        s' = s.setRing a (Ring.putFrom buf (min cnt (2048 - r.length)) 0 r) := by
  have hsize : (if 2048 - r.length > cnt then cnt else 2048 - r.length) = min cnt (2048 - r.length) := by
    split <;> omega
  simp only [pipeWrite, returns_bind, returns_fdLocalToGlobal_iff, returns_query, returns_deref, returns_pure]
  constructor
  · rintro ⟨g', _, ⟨hslot', rfl⟩, _, _, ⟨rfl, rfl⟩, a', _, ⟨ha', rfl⟩, r', _, ⟨hr', rfl⟩, _, _, hloop, rfl, rfl⟩
    obtain rfl := hslot.unique hslot'
    obtain rfl : a = a' := Option.some.inj (ha.symm.trans ha')
    obtain rfl : r = r' := Option.some.inj (hr.symm.trans hr')
    rw [hsize] at hloop ⊢
    obtain ⟨hle, hs'⟩ := (returns_pipeWriteLoop hr hrange).mp hloop
    exact ⟨hle, rfl, hs'⟩
  · rintro ⟨hle, rfl, rfl⟩
    refine ⟨g, s, ⟨hslot, rfl⟩, s, s, ⟨rfl, rfl⟩, a, s, ⟨ha, rfl⟩, r, s, ⟨hr, rfl⟩, ?_⟩
    rw [hsize]
    exact ⟨(), _, (returns_pipeWriteLoop hr hrange).mpr ⟨hle, rfl⟩, rfl, rfl⟩

end Write

/-- `pipe_write` returns, and has appended as many of the `cnt` bytes as the ring at `a` has
    room for, and nothing else has changed. -/
def PipeWritten (s : Fs) (fd : Int) (a : Nat) (r : Ring) (buf : Bytes) (cnt : Nat) : Prop :=
  ∃ s' r', Returns (pipeWrite fd buf cnt) s (min cnt r.freeCapacity : Nat) s' ∧ s' = s.setRing a r' ∧
    r'.InRange ∧ r'.queue = r.queue ++ (List.range (min cnt r.freeCapacity)).map buf

/-- `pipe_write` does not block exactly where all of its bytes fit: it tries to fill the cell
    that the ring keeps free. -/
theorem pipeWrite_written_iff (s : Fs) (fd : Int) (g a : Nat) (r : Ring) (buf : Bytes) (cnt : Nat)
    (hslot : s.SlotAt fd g) (ha : (s.fileTable g).fdInode = some a) (hr : s.rings a = some r)
    (hrange : r.InRange) : PipeWritten s fd a r buf cnt ↔ cnt ≤ r.freeCapacity := by
  have hlt := Ring.length_lt hrange
  rw [PipeWritten, Ring.freeCapacity_eq hrange]
  constructor
  · rintro ⟨s', r', hret, -⟩
    obtain ⟨hle, -⟩ := (returns_pipeWrite hslot ha hr hrange).mp hret
    omega
  · intro hle
    have hmin : min cnt (2048 - r.length) = cnt := by omega
    have hmin' : min cnt (2047 - r.length) = cnt := by omega
    refine ⟨_, Ring.putFrom buf cnt 0 r, (returns_pipeWrite hslot ha hr hrange).mpr ⟨?_, ?_, ?_⟩, rfl,
      hrange.putFrom, ?_⟩
    · omega
    · rw [hmin, hmin']
    · rw [hmin]
    · rw [hmin', Ring.queue_putFrom hrange hle]
      congr 2
      funext j
      rw [Nat.zero_add]

/-! ## A pipe with one free cell -/

namespace SmallPipe

/-- A ring in which one more character fits. -/
def ring : Ring := { head := 2046, tail := 0, buf := fun _ => 97 }

/-- Slot 3 is a pipe, and descriptor 3 refers to it. -/
def fs : Fs :=
  { Fs.boot Bytes.zero fun _ => false with
    fileTable := fun _ => { fdPos := 2, fdFlag := pipeFlag, fdInode := some 0 }
    rings := fun _ => some ring
    tasks := fun _ => some { fdtable := fun k => k.val, cwdInodeNr := 0, userSpace := false } }

theorem slotAt : fs.SlotAt 3 3 := ⟨by decide, by decide, by decide⟩

theorem inRange : ring.InRange := by
  unfold Ring.InRange
  decide

end SmallPipe

theorem pipeWrite_written_one :
    PipeWritten SmallPipe.fs 3 0 SmallPipe.ring Bytes.zero 1 ↔ 1 ≤ SmallPipe.ring.freeCapacity :=
  pipeWrite_written_iff SmallPipe.fs 3 3 0 SmallPipe.ring Bytes.zero 1 SmallPipe.slotAt rfl rfl SmallPipe.inRange

/-- Two characters for one free cell: one should be stored, the writer sleeps. -/
theorem pipe_write_sleeps :
    Stops (pipeWrite 3 Bytes.zero 2) SmallPipe.fs .blocked ∧ SmallPipe.ring.InRange ∧
      SmallPipe.ring.freeCapacity = 1 ∧ ¬ PipeWritten SmallPipe.fs 3 0 SmallPipe.ring Bytes.zero 2 := by
  have hblocked : Stops (pipeWrite 3 Bytes.zero 2) SmallPipe.fs .blocked := by
    rw [← stopsFor_eq_true]
    decide +kernel
  refine ⟨hblocked, SmallPipe.inRange, Ring.freeCapacity_eq SmallPipe.inRange, ?_⟩
  rintro ⟨s', r', hret, -⟩
  cases hblocked.symm.trans hret

end ZxyOs
