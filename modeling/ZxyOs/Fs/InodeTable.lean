/-
  ZxyOs.Fs.InodeTable

  The inode table as an array of 4096 slots of 76 bytes each.

  `locate_inode`, `inode_sync`, `inode_delete` and the disk path of `inode_open`
  all work on whole sectors; what they amount to is stated here in terms of the
  bytes of one slot: `writeSlot` overwrites slot `i` and no other byte of the
  disk, `readSlot` decodes it.  `inode_sync` reaches its slot through an eight-bit
  variable, so it writes slot `i % 256`.
-/

import ZxyOs.Fs.Format

namespace ZxyOs

open Lib Lib.Exec

/-! ## Slots -/

namespace Fs

/-- The disk address of slot `i` of the inode table. -/
def slotAddr (s : Fs) (i : Nat) : Nat := 512 * s.part.sb.inodeTableLba + 76 * i

/-- The inode stored in slot `i`. -/
def slot (s : Fs) (i : Nat) : Inode := Inode.decode s.disk (s.slotAddr i)

/-- The inode table lies inside the partition and on the disk: its last sector is
    one the drive accepts. -/
structure TableFits (s : Fs) : Prop where
  onDisk : s.part.sb.inodeTableLba + 607 ≤ maxLba
  inPart : s.part.sb.inodeTableLba + 607 ≤ s.part.startLba + s.part.secCnt

end Fs

/-- The position `locate_inode` computes. -/
def Fs.inodePos (s : Fs) (i : Nat) : InodePos where
  twoSecs := 512 - i * 76 % 512 < 76
  secLba := i * 76 / 512 + s.part.sb.inodeTableLba
  offSize := i * 76 % 512

/-- The number of sectors the slot at `pos` touches. -/
def InodePos.secs (pos : InodePos) : Nat := if pos.twoSecs then 2 else 1

theorem Fs.inodePos_addr (s : Fs) (i : Nat) :
    512 * (s.inodePos i).secLba + (s.inodePos i).offSize = s.slotAddr i := by
  simp only [inodePos, slotAddr]
  omega

/-- A slot lies inside the sectors transferred for it. -/
theorem Fs.inodePos_fits (s : Fs) (i : Nat) :
    (s.inodePos i).offSize + 76 ≤ 512 * (s.inodePos i).secs := by
  simp only [inodePos, InodePos.secs, decide_eq_true_eq]
  split <;> omega

theorem InodePos.secs_pos (pos : InodePos) : 0 < pos.secs := by
  simp only [secs]
  split <;> omega

theorem InodePos.secs_le (pos : InodePos) : pos.secs ≤ 2 := by
  simp only [secs]
  split <;> omega

theorem Fs.TableFits.secLba_le {s : Fs} (h : s.TableFits) {i : Nat} (hi : i < 4096) :
    (s.inodePos i).secLba ≤ maxLba ∧ (s.inodePos i).secLba ≤ s.part.startLba + s.part.secCnt := by
  have h1 := h.onDisk
  have h2 := h.inPart
  simp only [inodePos]
  omega

/-! ## The programs, slot by slot -/

section Programs

variable {s s' : Fs} {i : Nat} {u : Unit}

@[simp] theorem returns_locateInode {pos : InodePos} :
    Returns (locateInode i) s pos s' ↔ i < 4096 ∧ pos = s.inodePos i ∧ s = s' := by
  simp only [locateInode, returns_bind, returns_assert, returns_query, returns_pure]
  constructor
  · rintro ⟨-, t, ⟨hi, rfl⟩, _, _, ⟨rfl, rfl⟩, rfl, rfl⟩
    exact ⟨hi, rfl, rfl⟩
  · rintro ⟨hi, rfl, rfl⟩
    exact ⟨(), s, ⟨hi, rfl⟩, s, s, ⟨rfl, rfl⟩, rfl, rfl⟩

/-- Writing a slot through the sectors it touches changes its 76 bytes only. -/
theorem returns_writeSlot {content : Bytes} {ioBuf : Nat} :
    Returns (writeSlot (s.inodePos i) content ioBuf) s u s' ↔
      512 * (s.inodePos i).secs ≤ ioBuf ∧ (s.inodePos i).secLba ≤ maxLba ∧
        { s with disk := s.disk.splice (s.slotAddr i) 76 content } = s' := by
  have hsplice := @Bytes.splice_splice_window s.disk content (512 * (s.inodePos i).secLba) _ _ _
    (s.inodePos_fits i)
  rw [s.inodePos_addr] at hsplice
  have hpos := (s.inodePos i).secs_pos
  unfold writeSlot
  simp only [returns_bind, returns_ideRead, returns_ideWrite]
  constructor
  · rintro ⟨_, _, ⟨hbuf, hlba, -, rfl, rfl⟩, -, -, rfl⟩
    exact ⟨hbuf, hlba, by rw [← hsplice]; rfl⟩
  · rintro ⟨hbuf, hlba, rfl⟩
    exact ⟨_, s, ⟨hbuf, hlba, hpos, rfl, rfl⟩, hlba, hpos, by rw [← hsplice]; rfl⟩

theorem Inode.decode_congr {b c : Bytes} {off off' : Nat}
    (h : ∀ k < 76, b (off + k) = c (off' + k)) : Inode.decode b off = Inode.decode c off' := by
  have hw (k : Nat) (hk : k + 4 ≤ 76) : Bytes.u32At b (off + k) = Bytes.u32At c (off' + k) :=
    Bytes.u32At_congr fun j hj => by
      rw [Nat.add_assoc, Nat.add_assoc]
      exact h _ (by omega)
  have hsec (k : Fin 13) :
      Bytes.u32At b (off + 16 + 4 * k) = Bytes.u32At c (off' + 16 + 4 * k) := by
    rw [Nat.add_assoc, Nat.add_assoc]
    exact hw _ (by omega)
  simp only [Inode.decode, hw 4 (by omega), hw 8 (by omega), hw 12 (by omega), hsec]
  congr 1
  exact hw 0 (by omega)

theorem returns_readSlot {w : Inode} :
    Returns (readSlot (s.inodePos i)) s w s' ↔
      (s.inodePos i).secLba ≤ maxLba ∧ w = s.slot i ∧ s = s' := by
  have hslot : Inode.decode (s.disk.window (512 * (s.inodePos i).secLba)
      (512 * (s.inodePos i).secs)) (s.inodePos i).offSize = s.slot i := by
    refine Inode.decode_congr fun k hk => ?_
    have hfit := s.inodePos_fits i
    rw [Bytes.window_apply (by omega), ← s.inodePos_addr, Nat.add_assoc]
  have hpos := (s.inodePos i).secs_pos
  have hroom : 512 * (s.inodePos i).secs ≤ if (s.inodePos i).twoSecs then 1024 else 512 := by
    unfold InodePos.secs
    split <;> decide
  unfold readSlot
  simp only [returns_bind, returns_ideRead, returns_pure]
  constructor
  · rintro ⟨_, _, ⟨-, hlba, -, rfl, rfl⟩, rfl, rfl⟩
    exact ⟨hlba, hslot, rfl⟩
  · rintro ⟨hlba, rfl, rfl⟩
    exact ⟨_, s, ⟨hroom, hlba, hpos, rfl, rfl⟩, hslot, rfl⟩

theorem returns_readInode {w : Inode} :
    Returns (readInode i) s w s' ↔
      i < 4096 ∧ (s.inodePos i).secLba ≤ maxLba ∧ w = s.slot i ∧ s = s' := by
  simp only [readInode, returns_bind, returns_locateInode]
  constructor
  · rintro ⟨_, _, ⟨hi, rfl, rfl⟩, h⟩
    exact ⟨hi, returns_readSlot.mp h⟩
  · rintro ⟨hi, h⟩
    exact ⟨_, s, ⟨hi, rfl, rfl⟩, returns_readSlot.mpr h⟩

/-- `inode_sync` overwrites slot `i_no % 256`. -/
theorem returns_inodeSync {v : Inode} {ioBuf : Nat} :
    Returns (inodeSync v ioBuf) s u s' ↔
      (s.inodePos (v.iNo % 256)).secLba ≤ s.part.startLba + s.part.secCnt ∧
      512 * (s.inodePos (v.iNo % 256)).secs ≤ ioBuf ∧
      (s.inodePos (v.iNo % 256)).secLba ≤ maxLba ∧
      { s with disk := s.disk.splice (s.slotAddr (v.iNo % 256)) 76 v.pureInode.encode } = s' := by
  have hno : v.iNo % 256 < 4096 := by omega
  simp only [inodeSync, returns_bind, returns_locateInode, returns_query, returns_assert]
  constructor
  · rintro ⟨_, _, ⟨-, rfl, rfl⟩, _, _, ⟨rfl, rfl⟩, -, _, ⟨hpart, rfl⟩, h⟩
    exact ⟨hpart, returns_writeSlot.mp h⟩
  · rintro ⟨hpart, h⟩
    exact ⟨_, s, ⟨hno, rfl, rfl⟩, s, s, ⟨rfl, rfl⟩, (), s, ⟨hpart, rfl⟩,
      returns_writeSlot.mpr h⟩

/-- `inode_delete` zeroes slot `i`. -/
theorem returns_inodeDelete {ioBuf : Nat} :
    Returns (inodeDelete i ioBuf) s u s' ↔
      i < 4096 ∧ (s.inodePos i).secLba ≤ s.part.startLba + s.part.secCnt ∧
      512 * (s.inodePos i).secs ≤ ioBuf ∧ (s.inodePos i).secLba ≤ maxLba ∧
      { s with disk := s.disk.splice (s.slotAddr i) 76 Bytes.zero } = s' := by
  simp only [inodeDelete, returns_bind, returns_locateInode, returns_query, returns_assert]
  constructor
  · rintro ⟨-, _, ⟨hi, rfl⟩, _, _, ⟨-, rfl, rfl⟩, _, _, ⟨rfl, rfl⟩, -, _, ⟨hpart, rfl⟩, h⟩
    exact ⟨hi, hpart, returns_writeSlot.mp h⟩
  · rintro ⟨hi, hpart, h⟩
    exact ⟨(), s, ⟨hi, rfl⟩, _, s, ⟨hi, rfl, rfl⟩, s, s, ⟨rfl, rfl⟩, (), s, ⟨hpart, rfl⟩,
      returns_writeSlot.mpr h⟩

end Programs

/-! ## Values in slots -/

namespace Inode

/-- The fields of a `struct inode` are 32-bit words. -/
structure WordSized (v : Inode) : Prop where
  iNo : v.iNo < 2 ^ 32
  iSize : v.iSize < 2 ^ 32
  iOpenCnt : v.iOpenCnt < 2 ^ 32
  iSectors : ∀ k, v.iSectors k < 2 ^ 32

/-- The inodes agree in every field that means something on disk. -/
def SameOnDisk (v w : Inode) : Prop := v.pureInode = w.pureInode

theorem u32At_encode {b : Bytes} {off : Nat} {v : Inode}
    (hb : ∀ j < 76, b (off + j) = v.encode j) {k : Nat} (hk : k < 19) :
    Bytes.u32At b (off + 4 * k) = v.word k % 2 ^ 32 := by
  refine Bytes.u32At_of_wordByte fun j hj => ?_
  rw [Nat.add_assoc, hb _ (by omega), encode]
  congr 1
  · congr 1
    omega
  · omega

/-- A word-sized inode survives being written and read back. -/
theorem decode_of_encode {b : Bytes} {off : Nat} {v : Inode} (hv : v.WordSized)
    (hb : ∀ j < 76, b (off + j) = v.encode j) : decode b off = v := by
  have hno := u32At_encode hb (k := 0) (by omega)
  have hsize := u32At_encode hb (k := 1) (by omega)
  have hcnt := u32At_encode hb (k := 2) (by omega)
  have hdeny := u32At_encode hb (k := 3) (by omega)
  have hsec (k : Fin 13) : Bytes.u32At b (off + 16 + 4 * k) = v.iSectors k := by
    have h := u32At_encode hb (k := 4 + k) (by omega)
    rw [show off + 4 * (4 + (k : Nat)) = off + 16 + 4 * k by omega] at h
    rw [h, word, if_neg (by omega), if_neg (by omega), if_neg (by omega), if_neg (by omega),
      show 4 + (k : Nat) - 4 = k by omega, sector, dif_pos k.isLt, Nat.mod_eq_of_lt (hv.iSectors k)]
  simp only [word, Nat.mul_zero, Nat.add_zero, if_true] at hno
  simp only [word] at hsize hcnt hdeny
  simp only [decode, hno, Nat.mod_eq_of_lt hv.iNo, show off + 4 = off + 4 * 1 by rfl, hsize,
    show off + 8 = off + 4 * 2 by rfl, hcnt, show off + 12 = off + 4 * 3 by rfl, hdeny, hsec]
  cases v with
  | mk iNo iSize iOpenCnt writeDeny iSectors =>
    have h1 := hv.iSize
    have h2 := hv.iOpenCnt
    cases writeDeny <;> simp_all [Nat.mod_eq_of_lt]

theorem WordSized.pureInode {v : Inode} (hv : v.WordSized) : v.pureInode.WordSized where
  iNo := hv.iNo
  iSize := hv.iSize
  iOpenCnt := by simp [Inode.pureInode]
  iSectors := hv.iSectors

end Inode

namespace Fs

variable {s : Fs} {i j : Nat}

/-- Slots are disjoint: overwriting one leaves every other as it is. -/
theorem slot_splice_ne (hij : i ≠ j) (content : Bytes) :
    slot { s with disk := s.disk.splice (s.slotAddr i) 76 content } j = s.slot j := by
  refine Inode.decode_congr fun k hk => ?_
  simp only [slotAddr]
  rw [Bytes.splice_outside (by omega)]

/-- A slot holds what was written to it last. -/
theorem slot_splice_self {v : Inode} (hv : v.WordSized) :
    slot { s with disk := s.disk.splice (s.slotAddr i) 76 v.encode } i = v := by
  refine Inode.decode_of_encode hv fun k hk => ?_
  simp only [slotAddr]
  rw [Bytes.splice_inside (by omega) (by omega), Nat.add_sub_cancel_left]

end Fs

/-! ## Independence of the slots -/

/-- What `inode_open` hands out for an inode that is not cached: the slot, opened
    once. -/
def uncachedInode (iNo : Nat) : FsM Inode := do
  let v ← readInode iNo
  return { v with iOpenCnt := 1 }

/-- An inode that is not on the list of open inodes is opened from its slot. -/
theorem inodeOpen_uncached {s s' : Fs} {i a : Nat} (h : Returns (inodeOpen i) s a s')
    (hno : Returns (findOpenInode i s.openInodes) s none s) :
    ∃ v, Returns (uncachedInode i) s v s ∧ s'.inodes a = some v := by
  simp only [inodeOpen, returns_bind, returns_query] at h
  obtain ⟨_, _, ⟨rfl, rfl⟩, r, t, hfind, h⟩ := h
  obtain ⟨rfl, rfl⟩ := hno.unique hfind
  simp only [returns_bind, returns_locateInode, returns_fits] at h
  obtain ⟨_, _, ⟨hi, rfl, rfl⟩, inodeFound, t1, h1, inodeBuf, t2, h2, -, _, ⟨-, rfl⟩, w, _,
    hread, h⟩ := h
  -- the two requests to the heap leave partition and disk as they are
  have e1 := (returns_mallocFrom h1).1
  have e2 := (returns_sysMalloc h2).1
  have hpos : s.inodePos i = t2.inodePos i := by rw [e2, e1]; rfl
  rw [hpos, returns_readSlot] at hread
  obtain ⟨hlba, rfl, rfl⟩ := hread
  have hslot : t2.slot i = s.slot i := by rw [e2, e1]; rfl
  refine ⟨{ s.slot i with iOpenCnt := 1 }, ?_, ?_⟩
  · simp only [uncachedInode, returns_bind, returns_readInode, returns_pure]
    exact ⟨_, s, ⟨hi, by rwa [hpos], rfl, rfl⟩, rfl, rfl⟩
  · cases inodeFound with
    | none => simp at h
    | some b =>
      simp only [returns_bind, returns_putInode, returns_update, returns_pure] at h
      obtain ⟨-, _, rfl, -, _, rfl, _, t3, hfree, rfl, rfl⟩ := h
      rw [(returns_sysFree hfree).1, ← hslot]
      simp

/-- Synchronising `v` stores it in its own slot and leaves the others alone. -/
def SyncsOwnSlot (s : Fs) (v : Inode) (ioBuf : Nat) : Prop :=
  ∃ s', Returns (inodeSync v ioBuf) s () s' ∧
    (∃ w, Returns (uncachedInode v.iNo) s' w s' ∧ w.SameOnDisk v) ∧
    ∀ j < 4096, j ≠ v.iNo → ∀ w,
      Returns (uncachedInode j) s' w s' ↔ Returns (uncachedInode j) s w s

/-- Deleting inode `i` zeroes its own slot and leaves the others alone. -/
def DeletesOwnSlot (s : Fs) (i ioBuf : Nat) : Prop :=
  ∃ s', Returns (inodeDelete i ioBuf) s () s' ∧
    (∀ k < 76, s'.disk (s.slotAddr i + k) = 0) ∧
    ∀ j < 4096, j ≠ i → ∀ w,
      Returns (uncachedInode j) s' w s' ↔ Returns (uncachedInode j) s w s

section Independence

variable {s : Fs} {v : Inode} {i ioBuf : Nat}

/-- Slot `i` holds exactly what synchronising `v` would write there. -/
def Fs.SlotHolds (s : Fs) (i : Nat) (v : Inode) : Prop :=
  { s.slot i with iOpenCnt := 0 } = v.pureInode

theorem InodePos.secs_bytes (pos : InodePos) (hbuf : 1024 ≤ ioBuf) : 512 * pos.secs ≤ ioBuf := by
  have := pos.secs_le
  omega

theorem returns_uncachedInode (hs : s.TableFits) (hi : i < 4096) {w : Inode} :
    Returns (uncachedInode i) s w s ↔ w = { s.slot i with iOpenCnt := 1 } := by
  simp only [uncachedInode, returns_bind, returns_readInode, returns_pure]
  constructor
  · rintro ⟨_, _, ⟨-, -, rfl, rfl⟩, rfl, -⟩
    rfl
  · rintro rfl
    exact ⟨_, s, ⟨hi, (hs.secLba_le hi).1, rfl, rfl⟩, rfl, rfl⟩

theorem Fs.TableFits.withDisk (hs : s.TableFits) (d : Bytes) :
    Fs.TableFits { s with disk := d } := ⟨hs.onDisk, hs.inPart⟩

/-- The state `inode_sync` leaves. -/
theorem returns_inodeSync_of_fits (hs : s.TableFits) (hbuf : 1024 ≤ ioBuf) {s' : Fs} :
    Returns (inodeSync v ioBuf) s () s' ↔
      s' = { s with disk :=
        s.disk.splice (s.slotAddr (v.iNo % 256)) 76 v.pureInode.encode } := by
  have hno : v.iNo % 256 < 4096 := by omega
  rw [returns_inodeSync]
  constructor
  · rintro ⟨-, -, -, rfl⟩
    rfl
  · rintro rfl
    exact ⟨(hs.secLba_le hno).2, InodePos.secs_bytes _ hbuf, (hs.secLba_le hno).1, rfl⟩

/-- An inode synchronised to a slot other than its own leaves the table
    independent only if nothing had to change. -/
theorem syncsOwnSlot_iff (hs : s.TableFits) (hv : v.WordSized) (hi : v.iNo < 4096)
    (hbuf : 1024 ≤ ioBuf) :
    SyncsOwnSlot s v ioBuf ↔
      v.iNo < 256 ∨ ((s.slot v.iNo).SameOnDisk v ∧ s.SlotHolds (v.iNo % 256) v) := by
  set k := v.iNo % 256 with hk
  have hk' : k < 4096 := by omega
  set s' : Fs := { s with disk := s.disk.splice (s.slotAddr k) 76 v.pureInode.encode } with hs'
  have hfits : s'.TableFits := hs.withDisk _
  have hself : s'.slot k = v.pureInode := Fs.slot_splice_self hv.pureInode
  have hother {j : Nat} (hj : k ≠ j) : s'.slot j = s.slot j := Fs.slot_splice_ne hj _
  have hunfold : SyncsOwnSlot s v ioBuf ↔ (s'.slot v.iNo).SameOnDisk v ∧
      ∀ j < 4096, j ≠ v.iNo → ({ s'.slot j with iOpenCnt := 1 } : Inode)
        = { s.slot j with iOpenCnt := 1 } := by
    constructor
    · rintro ⟨t, ht, ⟨w, hw, hsame⟩, hrest⟩
      obtain rfl := (returns_inodeSync_of_fits hs hbuf).mp ht
      obtain rfl := (returns_uncachedInode hfits hi).mp hw
      refine ⟨hsame, fun j hj hne => ?_⟩
      have h := (hrest j hj hne _).mp ((returns_uncachedInode hfits hj).mpr rfl)
      exact (returns_uncachedInode hs hj).mp h
    · rintro ⟨hsame, hrest⟩
      refine ⟨s', (returns_inodeSync_of_fits hs hbuf).mpr rfl,
        ⟨_, (returns_uncachedInode hfits hi).mpr rfl, hsame⟩, fun j hj hne w => ?_⟩
      rw [returns_uncachedInode hfits hj, returns_uncachedInode hs hj, hrest j hj hne]
  rw [hunfold]
  by_cases hlt : v.iNo < 256
  · have hkv : k = v.iNo := by omega
    refine ⟨fun _ => Or.inl hlt, fun _ => ⟨?_, fun j _ hne => ?_⟩⟩
    · rw [← hkv, hself]
      rfl
    · rw [hother (by omega)]
  · have hkv : k ≠ v.iNo := by omega
    constructor
    · rintro ⟨hsame, hrest⟩
      rw [hother hkv] at hsame
      have hslot := hrest k hk' hkv
      rw [hself] at hslot
      refine Or.inr ⟨hsame, ?_⟩
      simp only [Inode.pureInode, Inode.mk.injEq, true_and] at hslot
      simp only [Fs.SlotHolds, Inode.pureInode, Inode.mk.injEq, true_and]
      exact ⟨hslot.1.symm, hslot.2.1.symm, hslot.2.2.1.symm, hslot.2.2.2.symm⟩
    · rintro (h | ⟨hsame, hholds⟩)
      · exact absurd h hlt
      · refine ⟨by rwa [hother hkv], fun j _ hne => ?_⟩
        by_cases hj : k = j
        · subst hj
          rw [hself]
          simp only [Fs.SlotHolds, Inode.pureInode, Inode.mk.injEq, true_and] at hholds
          simp only [Inode.pureInode, Inode.mk.injEq, true_and]
          exact ⟨hholds.1.symm, hholds.2.1.symm, hholds.2.2.1.symm, hholds.2.2.2.symm⟩
        · rw [hother hj]

theorem deletesOwnSlot (hs : s.TableFits) (hi : i < 4096) (hbuf : 1024 ≤ ioBuf) :
    DeletesOwnSlot s i ioBuf := by
  have hfits := hs.withDisk (s.disk.splice (s.slotAddr i) 76 Bytes.zero)
  refine ⟨_, returns_inodeDelete.mpr ⟨hi, (hs.secLba_le hi).2, InodePos.secs_bytes _ hbuf,
    (hs.secLba_le hi).1, rfl⟩, fun k hk => ?_, fun j hj hne w => ?_⟩
  · exact Bytes.splice_inside (by omega) (by omega)
  · rw [returns_uncachedInode hfits hj, returns_uncachedInode hs hj, Fs.slot_splice_ne hne.symm]

end Independence

/-- The slots of the inode table are independent of each other exactly for the
    inodes whose number fits the eight-bit variable of `inode_sync`, and where
    synchronising changes nothing on disk. -/
theorem inode_slots_independent_iff (s : Fs) (v : Inode) (ioBuf : Nat) (hs : s.TableFits)
    (hv : v.WordSized) (hi : v.iNo < 4096) (hbuf : 1024 ≤ ioBuf) :
    (SyncsOwnSlot s v ioBuf ∧ DeletesOwnSlot s v.iNo ioBuf) ↔
      v.iNo < 256 ∨ ((s.slot v.iNo).SameOnDisk v ∧ s.SlotHolds (v.iNo % 256) v) := by
  rw [syncsOwnSlot_iff hs hv hi hbuf]
  exact and_iff_left (deletesOwnSlot hs hi hbuf)

/-- A partition of 8192 sectors from sector 2048 on, on a disk of zeros. -/
def sampleFs : Fs :=
  { Fs.boot Bytes.zero fun _ => false with
    part := { startLba := 2048, secCnt := 8192, sb := formatSuperBlock 2048 8192 } }

theorem sampleFs_tableFits : sampleFs.TableFits where
  onDisk := by decide
  inPart := by decide

theorem inodeInit_wordSized {i : Nat} (hi : i < 2 ^ 32) : (inodeInit i).WordSized where
  iNo := hi
  iSize := by simp [inodeInit]
  iOpenCnt := by simp [inodeInit]
  iSectors := by simp [inodeInit]

theorem inode_slots_independent_at_five :
    SyncsOwnSlot sampleFs (inodeInit 5) 1024 ∧ DeletesOwnSlot sampleFs (inodeInit 5).iNo 1024 :=
  (inode_slots_independent_iff sampleFs (inodeInit 5) 1024 sampleFs_tableFits
    (inodeInit_wordSized (by decide)) (by decide) (by decide)).mpr (Or.inl (by decide))

/-- Inode 256 is synchronised to slot 0. -/
theorem inode_sync_misses_slot_256 : ¬ SyncsOwnSlot sampleFs (inodeInit 256) 1024 := by
  rw [syncsOwnSlot_iff sampleFs_tableFits (inodeInit_wordSized (by decide)) (by decide) (by decide)]
  rintro (h | ⟨h, -⟩)
  · exact absurd h (by decide)
  · have hno : (sampleFs.slot 256).iNo = 256 := congrArg Inode.iNo h
    simp [Fs.slot, Inode.decode, sampleFs, Fs.boot] at hno

end ZxyOs
