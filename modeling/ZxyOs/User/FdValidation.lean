/-
  ZxyOs.User.FdValidation

  What `sys_close`, `sys_lseek`, `sys_read` and `sys_write` make of a descriptor and a
  count that a process passes in.

  `Exec.Safe` is computed along each call down to the functions on one file.  `fdtable`
  has eight entries and -1 in those that are free, and only some of the calls look before
  they use one.
-/

import ZxyOs.Fs.FileSafety
import ZxyOs.User.FileShare
import ZxyOs.User.InodePool

namespace ZxyOs

open Lib Lib.Exec

/-! ## Descriptors -/

/-- Descriptor `fd` of the running process is one of the eight, and refers to slot `g`. -/
def Fs.SlotAt (s : Fs) (fd : Int) (g : Nat) : Prop :=
  ∃ h : 0 ≤ fd ∧ fd < 8, s.fdAt s.cur ⟨fd.toNat, fdtable_lt h⟩ = g ∧ g < maxFilesOpen

/-- Slot `g` belongs to a pipe. -/
def Fs.IsPipe (s : Fs) (g : Nat) : Prop := (s.fileTable g).fdFlag = pipeFlag

instance (s : Fs) (g : Nat) : Decidable (s.IsPipe g) := inferInstanceAs (Decidable (_ = _))

/-- Slot `g` refers to a ring buffer. -/
def Fs.RingAt (s : Fs) (g : Nat) : Prop := ∃ a, (s.fileTable g).fdInode = some a ∧ s.rings a ≠ none

/-- Slot `g` refers to an inode in memory. -/
def Fs.InodeAt (s : Fs) (g : Nat) : Prop := ∃ a, (s.fileTable g).fdInode = some a ∧ s.inodes a ≠ none

section Descriptor

variable {s s' t : Fs} {fd : Int} {g g' : Nat} {α : Type}

theorem Fs.SlotAt.unique (h : s.SlotAt fd g) (h' : s.SlotAt fd g') : g = g' := by
  obtain ⟨_, hat, -⟩ := h
  obtain ⟨_, hat', -⟩ := h'
  rw [hat] at hat'
  omega

/-- A process that has a descriptor is there. -/
theorem Fs.SlotAt.task (h : s.SlotAt fd g) : ∃ k, s.tasks s.cur = some k := by
  obtain ⟨_, hat, -⟩ := h
  apply Option.ne_none_iff_exists'.mp
  intro hnone
  simp only [Fs.fdAt, hnone] at hat
  omega

theorem returns_fdLocalToGlobal_iff : Returns (fdLocalToGlobal fd) s g s' ↔ s.SlotAt fd g ∧ s = s' := by
  constructor
  · intro h
    obtain ⟨heq, hfd, hat⟩ := returns_fdLocalToGlobal h
    exact ⟨⟨hfd, hat, fdLocalToGlobal_lt h⟩, heq⟩
  · rintro ⟨h, rfl⟩
    obtain ⟨k, hk⟩ := h.task
    obtain ⟨hfd, hat, hg⟩ := h
    have hk' : k.fdtable ⟨fd.toNat, by omega⟩ = g := by simpa only [Fs.fdAt, hk] using hat
    have hrange : (0 : Int) ≤ g ∧ (g : Int) < maxFilesOpen := by
      rw [maxFilesOpen] at hg ⊢
      omega
    simp only [fdLocalToGlobal, returns_bind, returns_runningThread]
    refine ⟨k, s, ⟨hk, rfl⟩, ?_⟩
    rw [dif_pos hfd]
    simp only [returns_bind, returns_assert, returns_pure, hk']
    exact ⟨(), s, ⟨hrange, rfl⟩, Int.toNat_natCast g, rfl⟩

/-- `fd_local_to_global` has no result to report a bad descriptor with. -/
theorem safe_fdLocalToGlobal : Safe (fdLocalToGlobal fd) s ↔ ∃ g, s.SlotAt fd g := by
  constructor
  · intro h
    simp only [fdLocalToGlobal, runningThread, safe_bind, safe_query, returns_bind, returns_query, returns_deref,
      safe_deref, true_and] at h
    obtain ⟨hk, h⟩ := h
    obtain ⟨k, hk⟩ := Option.ne_none_iff_exists'.mp (hk _ s ⟨rfl, rfl⟩)
    have h := h k s ⟨_, s, ⟨rfl, rfl⟩, hk, rfl⟩
    split at h
    · next hfd =>
      obtain ⟨hrange, -⟩ := safe_assert_bind.mp h
      have h32 : (maxFilesOpen : Int) = 32 := rfl
      refine ⟨(k.fdtable ⟨fd.toNat, by omega⟩).toNat, hfd, ?_, ?_⟩
      · simp only [Fs.fdAt, hk]
        omega
      · show _ < 32
        omega
    · rw [safe_stop] at h
      cases h
  · rintro ⟨g, hg⟩
    exact safe_of_returns (returns_fdLocalToGlobal_iff.mpr ⟨hg, rfl⟩)

theorem safe_fdLocalToGlobal_bind {f : Nat → FsM α} :
    Safe (fdLocalToGlobal fd >>= f) s ↔ ∃ g, s.SlotAt fd g ∧ Safe (f g) s := by
  constructor
  · intro h
    obtain ⟨g, hg⟩ := safe_fdLocalToGlobal.mp (safe_bind.mp h).1
    exact ⟨g, hg, (safe_bind_of_returns (returns_fdLocalToGlobal_iff.mpr ⟨hg, rfl⟩)).mp h⟩
  · rintro ⟨g, hg, h⟩
    exact (safe_bind_of_returns (returns_fdLocalToGlobal_iff.mpr ⟨hg, rfl⟩)).mpr h

theorem safe_isPipe_bind {f : Bool → FsM α} :
    Safe (isPipe fd >>= f) s ↔ ∃ g, s.SlotAt fd g ∧ Safe (f (decide (s.IsPipe g))) s := by
  have hret {g : Nat} (hg : s.SlotAt fd g) : Returns (isPipe fd) s (decide (s.IsPipe g)) s := by
    simp only [isPipe, returns_bind, returns_query, returns_pure]
    exact ⟨g, s, returns_fdLocalToGlobal_iff.mpr ⟨hg, rfl⟩, s, s, ⟨rfl, rfl⟩, rfl, rfl⟩
  constructor
  · intro h
    obtain ⟨g, hg, -⟩ := safe_fdLocalToGlobal_bind.mp (safe_bind.mp h).1
    exact ⟨g, hg, (safe_bind_of_returns (hret hg)).mp h⟩
  · rintro ⟨g, hg, h⟩
    exact (safe_bind_of_returns (hret hg)).mpr h

/-- Where `is_pipe` follows `fd_local_to_global` it looks at the same slot. -/
theorem safe_isPipe_bind_at {f : Bool → FsM α} (hg : s.SlotAt fd g) :
    Safe (isPipe fd >>= f) s ↔ Safe (f (decide (s.IsPipe g))) s := by
  rw [safe_isPipe_bind]
  constructor
  · rintro ⟨g', hg', h⟩
    rw [hg.unique hg']
    exact h
  · exact fun h => ⟨g, hg, h⟩

/-! ## sys_close -/

/-- `inode_close` of an inode in memory. -/
theorem safe_inodeClose {a : Nat} (ha : s.inodes a ≠ none) : Safe (inodeClose a) s := by
  obtain ⟨v, hv⟩ := Option.ne_none_iff_exists'.mp ha
  rw [inodeClose, safe_getInode_bind]
  refine ⟨v, hv, ?_⟩
  simp only [putInode, safe_update_bind]
  generalize (if v.iOpenCnt = 0 then 2 ^ 32 - 1 else v.iOpenCnt - 1) = cnt
  split
  · rw [safe_update_bind, sysFree, safe_assert_bind]
    exact ⟨Option.some_ne_none a, safe_update _⟩
  · exact safe_pure _

theorem safe_fileClose : Safe (fileClose g) s ↔ s.InodeAt g := by
  rw [fileClose, safe_query_bind, safe_deref_bind]
  constructor
  · rintro ⟨a, ha, h⟩
    obtain ⟨v, hv, -⟩ := safe_getInode_bind.mp h
    exact ⟨a, ha, by rw [hv]; exact Option.some_ne_none v⟩
  · rintro ⟨a, ha, hne⟩
    obtain ⟨v, hv⟩ := Option.ne_none_iff_exists'.mp hne
    refine ⟨a, ha, safe_getInode_bind.mpr ⟨v, hv, ?_⟩⟩
    rw [putInode, safe_update_bind, safe_bind]
    refine ⟨safe_inodeClose ?_, fun u t _ => ?_⟩
    · show Function.update s.inodes a _ a ≠ none
      rw [Function.update_self]
      exact Option.some_ne_none _
    · rw [safe_query_bind, putFile, safe_update_bind]
      exact safe_pure _

/-- The end of `sys_close`. -/
theorem safe_setFd {value : Int} (hg : s.SlotAt fd g) (htasks : t.tasks = s.tasks) (hcur : t.cur = s.cur) :
    Safe (setFd fd value) t := by
  obtain ⟨k, hk⟩ := hg.task
  obtain ⟨hfd, -⟩ := hg
  have hk' : t.tasks t.cur = some k := by rw [htasks, hcur, hk]
  rw [setFd, safe_bind_of_returns (returns_runningThread.mpr ⟨hk', rfl⟩), dif_pos hfd]
  exact safe_update _

/-- The last descriptor of a pipe is closed, and there is no ring to free. -/
def Fs.PipeGone (s : Fs) (g : Nat) : Prop :=
  ((s.fileTable g).fdPos + (2 ^ 32 - 1)) % 2 ^ 32 = 0 ∧ (s.fileTable g).fdInode = none

/-- What `sys_close` relies on. -/
def Fs.ClosesWell (s : Fs) (fd : Int) : Prop :=
  fd ≤ 2 ∨ ∃ g, s.SlotAt fd g ∧ if s.IsPipe g then ¬ s.PipeGone g else s.InodeAt g

theorem safe_sysClose_iff : Safe (sysClose fd) s ↔ s.ClosesWell fd := by
  rw [sysClose, Fs.ClosesWell]
  by_cases hfd : fd > 2
  · rw [if_pos hfd, or_iff_right (by omega), safe_fdLocalToGlobal_bind]
    refine exists_congr fun g => and_congr_right fun hg => ?_
    rw [safe_isPipe_bind_at hg]
    by_cases hpipe : s.IsPipe g
    · have hend {t : Fs} (htasks : t.tasks = s.tasks) (hcur : t.cur = s.cur) : Safe (do
          setFd fd (-1)
          return (0 : Int)) t :=
        safe_bind.mpr ⟨safe_setFd hg htasks hcur, fun _ _ _ => safe_pure _⟩
      simp only [decide_eq_true hpipe, if_true, if_pos hpipe, safe_query_bind, putFile, safe_update_bind, id_eq]
      split
      · next hzero =>
        rw [safe_assert_bind, Fs.PipeGone, not_and]
        constructor
        · exact fun h _ => h.1
        · intro h
          refine ⟨h hzero, ?_⟩
          rw [safe_update_bind, safe_update_bind]
          exact hend rfl rfl
      · next hpos => exact iff_of_true (hend rfl rfl) fun h => hpos h.1
    · simp only [decide_eq_false hpipe, Bool.false_eq_true, if_false, if_neg hpipe]
      rw [safe_bind, safe_fileClose]
      refine and_iff_left_of_imp fun _ r t hclose => safe_bind.mpr ⟨?_, fun _ _ _ => safe_pure _⟩
      obtain ⟨-, -, -, htasks, hcur, -⟩ := fileClose_frame hclose
      exact safe_setFd hg htasks hcur
  · rw [if_neg hfd]
    exact iff_of_true (safe_pure _) (Or.inl (by omega))

/-! ## sys_lseek -/

/-- What `sys_lseek` needs to come to an end; it does not ask whether the descriptor is one
    of a pipe, and takes a ring buffer for an inode. -/
def Fs.SeeksWell (s : Fs) (fd : Int) (whence : Nat) : Prop :=
  (0 < whence ∧ whence < 4) ∧ ∃ g, s.SlotAt fd g ∧
    ∃ a, (s.fileTable g).fdInode = some a ∧ (s.rings a = none → s.inodes a ≠ none)

theorem safe_sysLseek_iff {offset : Int} {whence : Nat} :
    Safe (sysLseek fd offset whence) s ↔ s.SeeksWell fd whence := by
  have hsize (a : Nat) : Safe (fileSize a) s ↔ (s.rings a = none → s.inodes a ≠ none) := by
    rw [fileSize, safe_query_bind, id_eq]
    cases hring : s.rings a with
    | some r => exact iff_of_true (safe_pure _) (fun h => by cases h)
    | none =>
      rw [safe_getInode_bind, imp_iff_right rfl, Option.ne_none_iff_exists']
      exact exists_congr fun v => and_iff_left (safe_pure _)
  have hrest (g : Nat) (f : File) (size : Int) (t : Fs) : Safe (do
      let newPos := lseekPos whence offset f.fdPos size
      if newPos < 0 ∨ newPos > size - 1 then
        return -1
      putFile g { f with fdPos := newPos.toNat }
      return newPos : FsM Int) t := by
    dsimp only
    split
    · exact safe_pure _
    · exact safe_bind.mpr ⟨safe_update _, fun _ _ _ => safe_pure _⟩
  rw [sysLseek, safe_assert_bind, safe_assert_bind, safe_fdLocalToGlobal_bind, Fs.SeeksWell]
  constructor
  · rintro ⟨-, hwhence, g, hg, h⟩
    rw [safe_query_bind, safe_deref_bind] at h
    obtain ⟨a, ha, h⟩ := h
    exact ⟨hwhence, g, hg, a, ha, (hsize a).mp (safe_bind.mp h).1⟩
  · rintro ⟨hwhence, g, hg, a, ha, hinode⟩
    refine ⟨hg.1, hwhence, g, hg, ?_⟩
    rw [safe_query_bind, safe_deref_bind]
    exact ⟨a, ha, safe_bind.mpr ⟨(hsize a).mpr hinode, fun size t _ => hrest g _ size t⟩⟩

/-! ## Pipes -/

/-- The loop of `pipe_read` waits on an empty ring. -/
theorem safe_pipeReadLoop {a n k : Nat} {dst : Bytes} (ha : s.rings a ≠ none) :
    Safe (pipeReadLoop a n k dst) s := by
  induction n generalizing s k dst with
  | zero => exact safe_pure _
  | succ n ih =>
    obtain ⟨r, hr⟩ := Option.ne_none_iff_exists'.mp ha
    rw [pipeReadLoop, safe_query_bind, safe_deref_bind]
    refine ⟨r, hr, ?_⟩
    dsimp only
    split
    · exact safe_bind.mpr ⟨(safe_stop _).mpr rfl, fun _ _ h => absurd h (returns_stop _)⟩
    · rw [safe_update_bind]
      apply ih
      show Function.update s.rings a _ a ≠ none
      rw [Function.update_self]
      exact Option.some_ne_none _

/-- The loop of `pipe_write` waits on a full ring. -/
theorem safe_pipeWriteLoop {a n k : Nat} {buf : Bytes} (ha : s.rings a ≠ none) :
    Safe (pipeWriteLoop a buf n k) s := by
  induction n generalizing s k with
  | zero => exact safe_pure _
  | succ n ih =>
    obtain ⟨r, hr⟩ := Option.ne_none_iff_exists'.mp ha
    rw [pipeWriteLoop, safe_query_bind, safe_deref_bind]
    refine ⟨r, hr, ?_⟩
    dsimp only
    split
    · exact safe_bind.mpr ⟨(safe_stop _).mpr rfl, fun _ _ h => absurd h (returns_stop _)⟩
    · rw [safe_update_bind]
      apply ih
      show Function.update s.rings a _ a ≠ none
      rw [Function.update_self]
      exact Option.some_ne_none _

/-- Both pipe operations follow `fd_inode` to a ring buffer. -/
theorem safe_ring_bind {f : Nat → Ring → FsM α} (hf : ∀ a r, s.rings a = some r → Safe (f a r) s) :
    Safe (do
      let s ← query id
      let a ← deref (s.fileTable g).fdInode
      let r ← deref (s.rings a)
      f a r) s ↔ s.RingAt g := by
  rw [safe_query_bind, safe_deref_bind]
  refine exists_congr fun a => and_congr_right fun _ => ?_
  rw [safe_deref_bind, id_eq, Option.ne_none_iff_exists']
  exact exists_congr fun r => and_iff_left_of_imp fun hr => hf a r hr

theorem safe_pipeRead {cnt : Nat} (hg : s.SlotAt fd g) : Safe (pipeRead fd cnt) s ↔ s.RingAt g := by
  rw [pipeRead, safe_bind_of_returns (returns_fdLocalToGlobal_iff.mpr ⟨hg, rfl⟩)]
  apply safe_ring_bind
  intro a r hr
  have ha : s.rings a ≠ none := by
    rw [hr]
    exact Option.some_ne_none r
  exact safe_bind.mpr ⟨safe_pipeReadLoop ha, fun _ _ _ => safe_pure _⟩

theorem safe_pipeWrite {cnt : Nat} {buf : Bytes} (hg : s.SlotAt fd g) :
    Safe (pipeWrite fd buf cnt) s ↔ s.RingAt g := by
  rw [pipeWrite, safe_bind_of_returns (returns_fdLocalToGlobal_iff.mpr ⟨hg, rfl⟩)]
  apply safe_ring_bind
  intro a r hr
  have ha : s.rings a ≠ none := by
    rw [hr]
    exact Option.some_ne_none r
  exact safe_bind.mpr ⟨safe_pipeWriteLoop ha, fun _ _ _ => safe_pure _⟩

/-! ## sys_read -/

/-- What `sys_read` relies on. -/
def Fs.ReadsOk (s : Fs) (fd : Int) (cnt : Nat) : Prop :=
  (0 ≤ fd ∧ fd < 8) ∧ (fd = 1 ∨ fd = 2 ∨ ∃ g, s.SlotAt fd g ∧
    if s.IsPipe g then s.RingAt g
    else fd = 0 ∨ ∃ a v, (s.fileTable g).fdInode = some a ∧ s.inodes a = some v ∧
      s.ReadsWell v (s.fileTable g).fdPos cnt)

theorem safe_sysRead_iff {cnt : Nat} {kbd : Bytes} : Safe (sysRead fd cnt kbd) s ↔ s.ReadsOk fd cnt := by
  rw [sysRead, safe_assert_bind, Fs.ReadsOk]
  refine and_congr_right fun _ => ?_
  by_cases hout : fd = 1 ∨ fd = 2
  · rw [if_pos hout]
    refine iff_of_true (safe_pure _) ?_
    rcases hout with h | h
    · exact Or.inl h
    · exact Or.inr (Or.inl h)
  rw [if_neg hout, safe_isPipe_bind, ← or_assoc, or_iff_right hout]
  refine exists_congr fun g => and_congr_right fun hg => ?_
  by_cases hpipe : s.IsPipe g
  · rw [if_pos hpipe, decide_eq_true hpipe, if_pos rfl]
    exact safe_pipeRead hg
  · rw [if_neg hpipe, decide_eq_false hpipe, if_neg Bool.false_ne_true]
    by_cases hzero : fd = 0
    · rw [if_pos hzero]
      exact iff_of_true (safe_pure _) (Or.inl hzero)
    · obtain ⟨k, hk⟩ := hg.task
      rw [if_neg hzero, or_iff_right hzero,
        safe_bind_of_returns (returns_fdLocalToGlobal_iff.mpr ⟨hg, rfl⟩), safe_fileRead_iff hk]

/-! ## sys_write -/

/-- The text of `cnt` bytes fits the 1024 bytes `sys_write` stages it in, and ends there. -/
def Staged (buf : Bytes) (cnt : Nat) : Prop :=
  cnt < 1024 ∨ (cnt = 1024 ∧ (List.range 1024).any (fun k => buf k == 0))

/-- What `sys_write` relies on, where `file p` says it of a file in slot `p`. -/
def Fs.WritesWith (s : Fs) (file : Nat → Prop) (fd : Int) (buf : Bytes) (cnt : Nat) : Prop :=
  fd < 0 ∨ ∃ g, s.SlotAt fd g ∧
    if s.IsPipe g then s.RingAt g
    else if fd = 1 then Staged buf cnt
    else writable (s.fileTable g).fdFlag = true → file g

theorem safe_sysWrite_iff {buf : Bytes} {cnt : Nat} :
    Safe (sysWrite fd buf cnt) s ↔ s.WritesWith (fun g => Safe (fileWrite g buf cnt) s) fd buf cnt := by
  rw [sysWrite, Fs.WritesWith]
  by_cases hneg : fd < 0
  · rw [if_pos hneg]
    exact iff_of_true (safe_pure _) (Or.inl hneg)
  rw [if_neg hneg, or_iff_right hneg, safe_isPipe_bind]
  refine exists_congr fun g => and_congr_right fun hg => ?_
  by_cases hpipe : s.IsPipe g
  · simp only [decide_eq_true hpipe, if_true, if_pos hpipe]
    split
    · exact safe_pipeWrite hg
    · exact safe_pipeWrite hg
  · simp only [decide_eq_false hpipe, Bool.false_eq_true, if_false, if_neg hpipe]
    by_cases hout : fd = 1
    · rw [if_pos hout, if_pos hout, safe_require_bind, Staged]
      exact and_iff_left (safe_pure _)
    · rw [if_neg hout, if_neg hout, safe_bind_of_returns (returns_fdLocalToGlobal_iff.mpr ⟨hg, rfl⟩),
        safe_query_bind]
      by_cases hw : writable (s.fileTable g).fdFlag = true
      · rw [id_eq, if_pos hw, imp_iff_right hw]
      · rw [id_eq, if_neg hw]
        exact iff_of_true (safe_pure _) fun h => absurd h hw

theorem Fs.WritesWith.mono {file file' : Nat → Prop} {buf : Bytes} {cnt : Nat} (h : s.WritesWith file fd buf cnt)
    (hfile : ∀ g, s.SlotAt fd g → file g → file' g) : s.WritesWith file' fd buf cnt := by
  rcases h with hneg | ⟨g, hg, h⟩
  · exact Or.inl hneg
  refine Or.inr ⟨g, hg, ?_⟩
  by_cases hpipe : s.IsPipe g
  · rw [if_pos hpipe] at h ⊢
    exact h
  rw [if_neg hpipe] at h ⊢
  by_cases hout : fd = 1
  · rw [if_pos hout] at h ⊢
    exact h
  · rw [if_neg hout] at h ⊢
    exact fun hw => hfile g hg (h hw)

/-- What is enough for `file_write` on slot `g`. -/
def Fs.FileWrites (s : Fs) (cnt g : Nat) : Prop :=
  ∃ a v, (s.fileTable g).fdInode = some a ∧ s.inodes a = some v ∧
    ((v.iSize + cnt) % 2 ^ 32 ≤ 512 * 140 → s.HasMemory 2 → s.Appends v cnt)

/-! ## Which descriptors are acted upon -/

/-- A call that has followed the descriptor had one to follow. -/
theorem slotAt_of_bind {f : Nat → FsM α} {r : α} (h : Returns (fdLocalToGlobal fd >>= f) s r s') :
    ∃ g, s.SlotAt fd g := by
  obtain ⟨g, _, hg, -⟩ := returns_bind.mp h
  exact ⟨g, (returns_fdLocalToGlobal_iff.mp hg).1⟩

theorem slotAt_of_isPipe {f : Bool → FsM α} {r : α} (h : Returns (isPipe fd >>= f) s r s') : ∃ g, s.SlotAt fd g := by
  obtain ⟨b, _, hb, -⟩ := returns_bind.mp h
  exact slotAt_of_bind hb

theorem sysClose_slotAt {r : Int} (h : Returns (sysClose fd) s r s') : r = -1 ∨ ∃ g, s.SlotAt fd g := by
  rw [sysClose] at h
  split at h
  · exact Or.inr (slotAt_of_bind h)
  · exact Or.inl (returns_pure.mp h).1.symm

theorem sysLseek_slotAt {offset r : Int} {whence : Nat} (h : Returns (sysLseek fd offset whence) s r s') :
    r = -1 ∨ ∃ g, s.SlotAt fd g := by
  simp only [sysLseek, returns_bind (x := assert _), returns_assert] at h
  obtain ⟨_, _, ⟨-, rfl⟩, _, _, ⟨-, rfl⟩, h⟩ := h
  exact Or.inr (slotAt_of_bind h)

theorem sysRead_slotAt {cnt : Nat} {kbd : Bytes} {r : Int × Bytes} (h : Returns (sysRead fd cnt kbd) s r s') :
    r.1 = -1 ∨ ∃ g, s.SlotAt fd g := by
  simp only [sysRead, returns_bind (x := assert _), returns_assert] at h
  obtain ⟨_, _, ⟨-, rfl⟩, h⟩ := h
  split at h
  · obtain ⟨rfl, -⟩ := returns_pure.mp h
    exact Or.inl rfl
  · exact Or.inr (slotAt_of_isPipe h)

theorem sysWrite_slotAt {buf : Bytes} {cnt : Nat} {r : Int} (h : Returns (sysWrite fd buf cnt) s r s') :
    r = -1 ∨ ∃ g, s.SlotAt fd g := by
  rw [sysWrite] at h
  split at h
  · exact Or.inl (returns_pure.mp h).1.symm
  · exact Or.inr (slotAt_of_isPipe h)

end Descriptor

/-- The slot `sys_lseek` follows does not refer to a ring buffer. -/
def Fs.SeesInode (s : Fs) (fd : Int) : Prop :=
  ∀ g a, s.SlotAt fd g → (s.fileTable g).fdInode = some a → s.rings a = none

/-- What `sys_lseek` relies on. -/
def Fs.SeeksInode (s : Fs) (fd : Int) (whence : Nat) : Prop :=
  (0 < whence ∧ whence < 4) ∧ ∃ g, s.SlotAt fd g ∧
    ∃ a, (s.fileTable g).fdInode = some a ∧ s.rings a = none ∧ s.inodes a ≠ none

end ZxyOs
