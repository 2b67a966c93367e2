/-
  ZxyOs.User.FileShare

  What a descriptor of a file needs to stay good.

  `den t fd` records the number of the inode that descriptor `fd` of process `t` was
  opened on.  `FilesOk s den` says that the slot of every such descriptor still holds a
  cached inode of that number, and that an inode has a reference for every slot that
  holds it.  `sys_open` and `sys_fork` only add references; `sys_close` and the loop of
  `sys_exit` clear the slot, so they keep `FilesOk` where no other descriptor is recorded
  that refers to it (`Unshared`).
-/

import ZxyOs.Fs.OpenCases
import ZxyOs.User.PipeCalls

namespace ZxyOs

open Lib Lib.Exec

/-- The slots that hold the inode at `a`. -/
def Fs.slotsOf (s : Fs) (a : Nat) : Finset Nat :=
  (Finset.range maxFilesOpen).filter fun g => (s.fileTable g).fdInode = some a

theorem Fs.mem_slotsOf {s : Fs} {a g : Nat} :
    g ∈ s.slotsOf a ↔ g < maxFilesOpen ∧ (s.fileTable g).fdInode = some a := by
  rw [slotsOf, Finset.mem_filter, Finset.mem_range]

/-- Slot `g` of descriptor `fd` of process `t` holds a cached inode of number `n`. -/
def Fs.Denotes (s : Fs) (t : Nat) (fd : Fin 8) (n : Nat) : Prop :=
  ∃ g a v, g < maxFilesOpen ∧ s.fdAt t fd = (g : Nat) ∧ (s.fileTable g).fdInode = some a ∧
    s.inodes a = some v ∧ v.iNo = n

structure FilesOk (s : Fs) (den : Nat → Fin 8 → Option Nat) : Prop where
  cache : s.CacheOk
  no_pipe : ∀ g, (s.fileTable g).fdFlag ≠ pipeFlag
  counted : ∀ a, (s.slotsOf a).card ≤ s.openCnt a
  file : ∀ t fd n, den t fd = some n → s.Denotes t fd n

/-- No recorded descriptor but `fd` of process `t` refers to its slot. -/
def Fs.Unshared (s : Fs) (den : Nat → Fin 8 → Option Nat) (t : Nat) (fd : Fin 8) : Prop :=
  ∀ g : Nat, s.fdAt t fd = g → ∀ t' fd', den t' fd' ≠ none → s.fdAt t' fd' = g → t' = t ∧ fd' = fd

/-- The record with descriptor `fd` of process `t` set to `o`. -/
def setDen (den : Nat → Fin 8 → Option Nat) (t : Nat) (fd : Fin 8) (o : Option Nat) :
    Nat → Fin 8 → Option Nat :=
  Function.update den t (Function.update (den t) fd o)

section Share

variable {s s' : Fs} {den den' : Nat → Fin 8 → Option Nat} {t g a : Nat} {fd : Fin 8} {d : Nat → Int}

theorem setDen_self {o : Option Nat} : setDen den t fd o t fd = o := by
  simp [setDen]

theorem setDen_of_ne {o : Option Nat} {t' : Nat} {fd' : Fin 8} (h : ¬ (t' = t ∧ fd' = fd)) :
    setDen den t fd o t' fd' = den t' fd' := by
  rw [setDen]
  by_cases ht : t' = t
  · subst ht
    have hfd : fd' ≠ fd := fun heq => h ⟨rfl, heq⟩
    rw [Function.update_self, Function.update_of_ne hfd]
  · rw [Function.update_of_ne ht]

theorem Fs.slotsOf_congr (h : s'.fileTable = s.fileTable) (a : Nat) : s'.slotsOf a = s.slotsOf a := by
  rw [slotsOf, slotsOf, h]

/-- An inode with a slot is in memory. -/
theorem FilesOk.exists_inode (h : FilesOk s den) (hg : g < maxFilesOpen)
    (ha : (s.fileTable g).fdInode = some a) : ∃ v, s.inodes a = some v := by
  have hmem : g ∈ s.slotsOf a := Fs.mem_slotsOf.mpr ⟨hg, ha⟩
  have hpos : 0 < (s.slotsOf a).card := Finset.card_pos.mpr ⟨g, hmem⟩
  have hcnt := h.counted a
  apply Option.ne_none_iff_exists'.mp
  intro hnone
  rw [Fs.openCnt_none hnone] at hcnt
  omega

/-- An inode that has a reference left is still there, with its number. -/
theorem RefsBy.inode_kept (h : RefsBy s s' d) {v : Inode} (hv : s.inodes a = some v)
    (hpos : 0 < s'.openCnt a) : ∃ v', s'.inodes a = some v' ∧ v'.iNo = v.iNo := by
  obtain ⟨v', hv'⟩ : ∃ v', s'.inodes a = some v' := by
    apply Option.ne_none_iff_exists'.mp
    intro hnone
    rw [Fs.openCnt_none hnone] at hpos
    omega
  exact ⟨v', hv', h.number a v v' hv hv'⟩

/-- References are added, and the descriptors and slots recorded stay as they are. -/
theorem FilesOk.grow (h : FilesOk s den) (hrefs : RefsBy s s' d) (hnonneg : ∀ a, 0 ≤ d a)
    (hflag : ∀ g, (s'.fileTable g).fdFlag ≠ pipeFlag)
    (hcounted : ∀ a, ((s'.slotsOf a).card : Int) ≤ (s.slotsOf a).card + d a)
    (hslot : ∀ g a, (s.fileTable g).fdInode = some a → (s'.fileTable g).fdInode = some a)
    (hfile : ∀ t fd n, den' t fd = some n → s'.Denotes t fd n ∨
      ∃ t' fd', den t' fd' = some n ∧ s'.fdAt t fd = s.fdAt t' fd') : FilesOk s' den' where
  cache := hrefs.ok
  no_pipe := hflag
  counted := by
    intro a
    have h1 := h.counted a
    have h2 := hrefs.cnt a
    have h3 := hcounted a
    omega
  file := by
    intro t fd n hn
    rcases hfile t fd n hn with hnew | ⟨t', fd', hn', hat⟩
    · exact hnew
    · obtain ⟨g, a, v, hg, hfd, ha, hv, hno⟩ := h.file t' fd' n hn'
      have hpos : 0 < s'.openCnt a := by
        have h1 := h.cache.pos a v hv
        have h2 := hrefs.cnt a
        have h3 := hnonneg a
        rw [Fs.openCnt_eq hv] at h2
        omega
      obtain ⟨v', hv', hno'⟩ := hrefs.inode_kept hv hpos
      exact ⟨g, a, v', hg, hat.trans hfd, hslot g a ha, hv', hno'.trans hno⟩

/-! ## open -/

/-- The number of the inode in the slot of descriptor `fd` of process `t`. -/
def Fs.numberOf (s : Fs) (t : Nat) (fd : Fin 8) : Option Nat :=
  (s.fileTable (s.fdAt t fd).toNat).fdInode.bind fun a => (s.inodes a).map Inode.iNo

/-- The record after `sys_open` of process `t` has returned `r`. -/
def Fs.denOpened (s' : Fs) (den : Nat → Fin 8 → Option Nat) (t : Nat) (r : Int) :
    Nat → Fin 8 → Option Nat :=
  if h : 0 ≤ r ∧ r < 8 then
    setDen den t ⟨r.toNat, fdtable_lt h⟩ (s'.numberOf t ⟨r.toNat, fdtable_lt h⟩)
  else den

theorem freeSlotFrom_lt {fileTable : Nat → File} {n i j : Nat}
    (h : freeSlotFrom fileTable n i = some j) : j < i + n := by
  induction n generalizing i with
  | zero => cases h
  | succ n ih =>
    rw [freeSlotFrom] at h
    split at h
    · obtain rfl := Option.some.inj h
      omega
    · have := ih h
      omega

theorem FilesOk.sysOpen {path : CStr} {flags : Nat} {r : Int} (h : FilesOk s den)
    (hret : Returns (sysOpen path flags) s r s') : FilesOk s' (s'.denOpened den s.cur r) := by
  rcases sysOpen_opened h.cache hret with ⟨rfl, p, hheld⟩ | ⟨g, a, d, hopened⟩
  · -- no slot is taken
    have hden : s'.denOpened den s.cur (-1) = den := rfl
    rw [hden]
    apply h.grow hheld.toRefsBy (s'.dirRef_nonneg p)
    · rw [hheld.fileTable]
      exact h.no_pipe
    · intro a
      have := s'.dirRef_nonneg p a
      rw [Fs.slotsOf_congr hheld.fileTable]
      omega
    · rw [hheld.fileTable]
      exact fun _ _ ha => ha
    · intro t fd n hn
      refine Or.inr ⟨t, fd, hn, ?_⟩
      rw [Fs.fdAt, Fs.fdAt, hheld.tasks]
  · obtain ⟨-, hgnone⟩ := freeSlotFrom_some hopened.free
    have hglt : g < maxFilesOpen := freeSlotFrom_lt hopened.free
    have hself : s'.fileTable g = { fdPos := 0, fdFlag := flags, fdInode := some a } := by
      rw [hopened.file, Function.update_self]
    have hother (i : Nat) (hi : i ≠ g) : s'.fileTable i = s.fileTable i := by
      rw [hopened.file, Function.update_of_ne hi]
    apply h.grow hopened.refs hopened.nonneg
    · intro i
      by_cases hi : i = g
      · subst hi
        rw [hself]
        have := hopened.small
        show flags ≠ 65535
        omega
      · rw [hother i hi]
        exact h.no_pipe i
    · intro b
      by_cases hb : b = a
      · subst hb
        have hsub : s'.slotsOf b ⊆ insert g (s.slotsOf b) := by
          intro i hi
          obtain ⟨hlt, hib⟩ := Fs.mem_slotsOf.mp hi
          by_cases hig : i = g
          · exact Finset.mem_insert.mpr (Or.inl hig)
          · rw [hother i hig] at hib
            exact Finset.mem_insert_of_mem (Fs.mem_slotsOf.mpr ⟨hlt, hib⟩)
        have h1 := Finset.card_le_card hsub
        have h2 := Finset.card_insert_le g (s.slotsOf b)
        have h3 := hopened.one
        omega
      · have hsub : s'.slotsOf b ⊆ s.slotsOf b := by
          intro i hi
          obtain ⟨hlt, hib⟩ := Fs.mem_slotsOf.mp hi
          have hig : i ≠ g := by
            rintro rfl
            rw [hself] at hib
            exact hb (Option.some.inj hib).symm
          rw [hother i hig] at hib
          exact Fs.mem_slotsOf.mpr ⟨hlt, hib⟩
        have h1 := Finset.card_le_card hsub
        have h2 := hopened.nonneg b
        omega
    · intro i b hib
      have hig : i ≠ g := by
        rintro rfl
        rw [hgnone] at hib
        cases hib
      rw [hother i hig]
      exact hib
    · -- the descriptor that has been handed out, and the others
      rcases hopened.fds with ⟨rfl, htasks⟩ | ⟨k, e, hk, hneg, rfl, htasks⟩
      · intro t fd n hn
        refine Or.inr ⟨t, fd, hn, ?_⟩
        rw [Fs.fdAt, Fs.fdAt, htasks]
      · have hat : s'.fdAt s.cur e = g := by
          rw [Fs.fdAt, htasks, Function.update_self]
          exact Function.update_self ..
        have hfin (hlt : 0 ≤ (e.val : Int) ∧ (e.val : Int) < 8) :
            (⟨(e.val : Int).toNat, by omega⟩ : Fin 8) = e := Fin.ext (by simp)
        have hlt : 0 ≤ (e.val : Int) ∧ (e.val : Int) < 8 := by omega
        intro t fd n hn
        rw [Fs.denOpened, dif_pos hlt, hfin hlt] at hn
        by_cases heq : t = s.cur ∧ fd = e
        · obtain ⟨rfl, rfl⟩ := heq
          left
          rw [setDen_self, Fs.numberOf, hat, Int.toNat_natCast, hself] at hn
          obtain ⟨v, hv, hno⟩ := Option.map_eq_some_iff.mp hn
          exact ⟨g, a, v, hglt, hat, by rw [hself], hv, hno⟩
        · rw [setDen_of_ne heq] at hn
          refine Or.inr ⟨t, fd, hn, ?_⟩
          rw [Fs.fdAt, Fs.fdAt, htasks]
          by_cases ht : t = s.cur
          · subst ht
            have hfd : fd ≠ e := fun heq' => heq ⟨rfl, heq'⟩
            rw [Function.update_self, hk]
            exact Function.update_of_ne hfd ..
          · rw [Function.update_of_ne ht]

/-! ## close -/

/-- `file_close` takes the inode's reference and clears the slot; of the other inodes, the
    write permission is not touched. -/
theorem fileClose_refs {r : Int} (hok : s.CacheOk) (h : Returns (fileClose g) s r s') :
    ∃ a, (s.fileTable g).fdInode = some a ∧ RefsBy s s' (-Pi.single a 1) ∧
      ∀ b ≠ a, ∀ v v', s.inodes b = some v → s'.inodes b = some v' → v'.writeDeny = v.writeDeny := by
  simp only [fileClose, putFile, returns_bind, returns_query, returns_deref, returns_getInode,
    returns_putInode, returns_update, returns_pure] at h
  obtain ⟨_, _, ⟨rfl, rfl⟩, a, _, ⟨ha, rfl⟩, v, _, ⟨hv, rfl⟩, _, _, rfl, _, s₁, hclose, _, _,
    ⟨rfl, rfl⟩, _, _, rfl, -, rfl⟩ := h
  have hput : RefsBy s (s.setInode a { v with writeDeny := false }) _ :=
    .setInode hok hv rfl (hok.pos a v hv)
  obtain ⟨hstep, -⟩ := inodeClose_step hput.ok hclose
  have hset : RefsBy s₁ (s₁.setSlot g { s₁.fileTable g with fdInode := none }) 0 :=
    .setSlot hstep.ok
  have hall := (hput.trans hok hstep.toRefsBy).trans hok hset
  rw [sub_self, Pi.single_zero, zero_add, add_zero] at hall
  refine ⟨a, ha, hall, fun b hb w w' hw hw' => ?_⟩
  exact hstep.deny b w w' ((Fs.setInode_of_ne hb).trans hw) hw'

/-- Slot `g` is cleared with the reference of its inode, and no other descriptor that is
    recorded refers to it. -/
theorem FilesOk.shrink (h : FilesOk s den) (hg : g < maxFilesOpen)
    (ha : (s.fileTable g).fdInode = some a) (hrefs : RefsBy s s' (-Pi.single a 1))
    (hself : (s'.fileTable g).fdInode = none) (hflag : (s'.fileTable g).fdFlag ≠ pipeFlag)
    (hother : ∀ i ≠ g, s'.fileTable i = s.fileTable i)
    (hfile : ∀ t fd n, den' t fd = some n →
      den t fd = some n ∧ s'.fdAt t fd = s.fdAt t fd ∧ s.fdAt t fd ≠ g) : FilesOk s' den' := by
  have hmem : g ∈ s.slotsOf a := Fs.mem_slotsOf.mpr ⟨hg, ha⟩
  have hslots (b : Nat) : s'.slotsOf b ⊆ (s.slotsOf b).erase g := by
    intro i hi
    obtain ⟨hlt, hib⟩ := Fs.mem_slotsOf.mp hi
    have hig : i ≠ g := by
      rintro rfl
      rw [hself] at hib
      cases hib
    rw [hother i hig] at hib
    exact Finset.mem_erase.mpr ⟨hig, Fs.mem_slotsOf.mpr ⟨hlt, hib⟩⟩
  have hcounted (b : Nat) : (s'.slotsOf b).card ≤ s'.openCnt b := by
    have h1 := Finset.card_le_card (hslots b)
    have h2 := h.counted b
    have h3 := hrefs.cnt b
    rw [Pi.neg_apply] at h3
    by_cases hb : b = a
    · subst hb
      rw [Finset.card_erase_of_mem hmem] at h1
      rw [Pi.single_eq_same] at h3
      omega
    · have h4 := Finset.card_le_card (Finset.erase_subset g (s.slotsOf b))
      rw [Pi.single_eq_of_ne hb] at h3
      omega
  refine ⟨hrefs.ok, fun i => ?_, hcounted, fun t fd n hn => ?_⟩
  · by_cases hi : i = g
    · rw [hi]
      exact hflag
    · rw [hother i hi]
      exact h.no_pipe i
  · obtain ⟨hn, hat, hne⟩ := hfile t fd n hn
    obtain ⟨i, b, v, hi, hfd, hb, hv, hno⟩ := h.file t fd n hn
    have hig : i ≠ g := by
      rintro rfl
      exact hne hfd
    have hb' : (s'.fileTable i).fdInode = some b := by
      rw [hother i hig]
      exact hb
    have hpos : 0 < s'.openCnt b :=
      Nat.lt_of_lt_of_le (Finset.card_pos.mpr ⟨i, Fs.mem_slotsOf.mpr ⟨hi, hb'⟩⟩) (hcounted b)
    obtain ⟨v', hv', hno'⟩ := hrefs.inode_kept hv hpos
    exact ⟨i, b, v', hi, hat.trans hfd, hb', hv', hno'.trans hno⟩

theorem setFd_refs {fd v : Int} (hok : s.CacheOk) (h : Returns (setFd fd v) s () s') :
    RefsBy s s' 0 ∧ s'.inodes = s.inodes := by
  simp only [setFd, returns_bind, returns_runningThread] at h
  obtain ⟨k, _, ⟨-, rfl⟩, h⟩ := h
  split at h
  · obtain rfl := returns_putThread.mp h
    exact ⟨.setTask hok, rfl⟩
  · exact absurd h (returns_stop _)

theorem fdLocalToGlobal_lt {fd : Int} (h : Returns (fdLocalToGlobal fd) s g s') : g < maxFilesOpen := by
  simp only [fdLocalToGlobal, returns_bind] at h
  obtain ⟨k, _, -, h⟩ := h
  split at h
  · simp only [returns_bind, returns_assert, returns_pure] at h
    obtain ⟨_, _, ⟨hrange, -⟩, rfl, -⟩ := h
    have h32 : (maxFilesOpen : Int) = 32 := rfl
    show _ < 32
    omega
  · exact absurd h (returns_stop _)

/-- The slot `sys_close` works on is one of the table. -/
theorem sysClose_lt (hfd : 3 ≤ fd) {r : Int} (h : Returns (sysClose fd.val) s r s')
    (hat : s.fdAt s.cur fd = g) : g < maxFilesOpen := by
  have hgt : ((fd.val : Int) > 2) := by
    have : 3 ≤ fd.val := hfd
    omega
  have hfin (hlt : 0 ≤ (fd.val : Int) ∧ (fd.val : Int) < 8) :
      (⟨(fd.val : Int).toNat, by omega⟩ : Fin 8) = fd := Fin.ext (by simp)
  simp only [sysClose, if_pos hgt, returns_bind] at h
  obtain ⟨g', _, hg, -⟩ := h
  obtain ⟨-, hlt, hat'⟩ := returns_fdLocalToGlobal hg
  rw [hfin hlt, hat] at hat'
  obtain rfl : g = g' := by omega
  exact fdLocalToGlobal_lt hg

/-- `sys_close` of a file takes the reference of the descriptor's slot and clears it. -/
theorem sysClose_file (hok : s.CacheOk) (hpipe : ∀ g, (s.fileTable g).fdFlag ≠ pipeFlag) (hfd : 3 ≤ fd)
    {r : Int} (hret : Returns (sysClose fd.val) s r s') :
    ∃ g a, s.fdAt s.cur fd = (g : Nat) ∧ g < maxFilesOpen ∧ (s.fileTable g).fdInode = some a ∧
      RefsBy s s' (-Pi.single a 1) ∧
      (∀ b ≠ a, ∀ v v', s.inodes b = some v → s'.inodes b = some v' → v'.writeDeny = v.writeDeny) ∧
      s'.fileTable = Function.update s.fileTable g { s.fileTable g with fdInode := none } ∧
      s'.cur = s.cur ∧ ∀ y : Nat × Fin 8, y ≠ (s.cur, fd) → s'.fdAt y.1 y.2 = s.fdAt y.1 y.2 := by
  obtain ⟨g, s₁, hat, hset, ⟨hflag, -⟩ | ⟨-, r', hclose⟩⟩ := sysClose_inv hfd hret
  · exact absurd hflag (hpipe g)
  obtain ⟨a, ha, hrefs₁, hdeny⟩ := fileClose_refs hok hclose
  obtain ⟨-, hfile₁, -, htasks₁, hcur₁, -⟩ := fileClose_frame hclose
  obtain ⟨hlt, -, hfds, hfile, -, -, hcur, -⟩ := returns_setFd hset
  obtain ⟨hrefs₂, hinodes⟩ := setFd_refs hrefs₁.ok hset
  have hfin : (⟨(fd.val : Int).toNat, by omega⟩ : Fin 8) = fd := Fin.ext (by simp)
  rw [hfin, hcur₁] at hfds
  have hrefs := hrefs₁.trans hok hrefs₂
  rw [add_zero] at hrefs
  refine ⟨g, a, hat, sysClose_lt hfd hret hat, ha, hrefs, fun b hb v v' hv hv' => ?_,
    hfile.trans hfile₁, hcur.trans hcur₁, fun y hy => ?_⟩
  · rw [hinodes] at hv'
    exact hdeny b hb v v' hv hv'
  · rw [hfds y hy, Fs.fdAt, Fs.fdAt, htasks₁]

/-- `sys_close` of a descriptor whose slot no other one refers to. -/
theorem FilesOk.closeFd (h : FilesOk s den) (hfd : 3 ≤ fd) (hun : s.Unshared den s.cur fd) {r : Int}
    (hret : Returns (sysClose fd.val) s r s') :
    FilesOk s' (setDen den s.cur fd none) ∧ s'.cur = s.cur ∧
      ∀ y : Nat × Fin 8, y ≠ (s.cur, fd) → s'.fdAt y.1 y.2 = s.fdAt y.1 y.2 := by
  obtain ⟨g, a, hat, hg, ha, hrefs, -, hfile, hcur, hother⟩ := sysClose_file h.cache h.no_pipe hfd hret
  have hself : s'.fileTable g = { s.fileTable g with fdInode := none } := by
    rw [hfile, Function.update_self]
  refine ⟨h.shrink hg ha hrefs (by rw [hself]) ?_ ?_ ?_, hcur, hother⟩
  · rw [hself]
    exact h.no_pipe g
  · intro i hi
    rw [hfile, Function.update_of_ne hi]
  · intro t fd' n hn
    by_cases heq : t = s.cur ∧ fd' = fd
    · obtain ⟨rfl, rfl⟩ := heq
      rw [setDen_self] at hn
      cases hn
    · rw [setDen_of_ne heq] at hn
      have hne : (t, fd') ≠ (s.cur, fd) := fun hpair => heq (by simpa using hpair)
      exact ⟨hn, hother (t, fd') hne, fun hshared => heq (hun g hat t fd' (by rw [hn]; simp) hshared)⟩

/-! ## exit -/

/-- A turn of the last loop of `release_prog_resource` does nothing or closes a pipe or a
    file. -/
theorem releaseFd_cases (h : Returns (releaseFd fd) s () s') :
    (s.fdAt s.cur fd = -1 ∧ s = s') ∨ ∃ g : Nat, s.fdAt s.cur fd = g ∧
      ((s.fileTable g).fdFlag = pipeFlag ∧ Returns (pipeClose g) s () s' ∨
        (s.fileTable g).fdFlag ≠ pipeFlag ∧ ∃ r, Returns (sysClose fd.val) s r s') := by
  have hfin (hlt : 0 ≤ (fd.val : Int) ∧ (fd.val : Int) < 8) :
      (⟨(fd.val : Int).toNat, by omega⟩ : Fin 8) = fd := Fin.ext (by simp)
  simp only [releaseFd, returns_bind, returns_runningThread] at h
  obtain ⟨k, _, ⟨hk, rfl⟩, h⟩ := h
  have hat : s.fdAt s.cur fd = k.fdtable fd := by simp only [Fs.fdAt, hk]
  split at h
  · simp only [returns_bind] at h
    obtain ⟨b, _, hb, h⟩ := h
    obtain ⟨rfl, g, ⟨hlt, hg⟩, rfl⟩ := returns_isPipe hb
    rw [hfin hlt] at hg
    refine Or.inr ⟨g, hg, ?_⟩
    by_cases hflag : (s.fileTable g).fdFlag = pipeFlag
    · simp only [hflag, decide_true, if_true, returns_bind] at h
      obtain ⟨g', _, hg', hclose⟩ := h
      obtain ⟨rfl, hlt, hat'⟩ := returns_fdLocalToGlobal hg'
      rw [hfin hlt] at hat'
      obtain rfl : g' = g := by omega
      exact Or.inl ⟨hflag, hclose⟩
    · simp only [hflag, decide_false, Bool.false_eq_true, if_false, returns_bind, returns_pure] at h
      obtain ⟨r, s₁, hclose, -, rfl⟩ := h
      exact Or.inr ⟨hflag, r, hclose⟩
  · next hnone =>
    obtain ⟨-, rfl⟩ := returns_pure.mp h
    exact Or.inl ⟨hat.trans (not_not.mp hnone), rfl⟩

/-- The record without the descriptors `fds` of process `t`. -/
def dropDen (den : Nat → Fin 8 → Option Nat) (t : Nat) (fds : List (Fin 8)) :
    Nat → Fin 8 → Option Nat :=
  fds.foldl (fun den fd => setDen den t fd none) den

theorem FilesOk.releaseFd (h : FilesOk s den) (hfd : 3 ≤ fd) (hun : s.Unshared den s.cur fd)
    (hret : Returns (releaseFd fd) s () s') :
    FilesOk s' (setDen den s.cur fd none) ∧ s'.cur = s.cur ∧
      ∀ y : Nat × Fin 8, y ≠ (s.cur, fd) → s'.fdAt y.1 y.2 = s.fdAt y.1 y.2 := by
  rcases releaseFd_cases hret with ⟨-, rfl⟩ | ⟨g, -, ⟨hpipe, -⟩ | ⟨-, r, hclose⟩⟩
  · refine ⟨⟨h.cache, h.no_pipe, h.counted, fun t fd' n hn => ?_⟩, rfl, fun _ _ => rfl⟩
    by_cases heq : t = s.cur ∧ fd' = fd
    · obtain ⟨rfl, rfl⟩ := heq
      rw [setDen_self] at hn
      cases hn
    · rw [setDen_of_ne heq] at hn
      exact h.file t fd' n hn
  · exact absurd hpipe (h.no_pipe g)
  · exact h.closeFd hfd hun hclose

/-- The loop closes the descriptors of the running process one after the other. -/
theorem FilesOk.releaseFds {fds : List (Fin 8)} (h : FilesOk s den) (hfds : ∀ fd ∈ fds, 3 ≤ fd)
    (hnodup : fds.Nodup) (hun : ∀ fd ∈ fds, s.Unshared den s.cur fd)
    (hret : Returns (releaseFds fds) s () s') :
    FilesOk s' (dropDen den s.cur fds) ∧ s'.cur = s.cur ∧
      ∀ y : Nat × Fin 8, y.1 ≠ s.cur → s'.fdAt y.1 y.2 = s.fdAt y.1 y.2 := by
  induction fds generalizing s den with
  | nil =>
    obtain ⟨-, rfl⟩ := returns_pure.mp hret
    exact ⟨h, rfl, fun _ _ => rfl⟩
  | cons fd rest ih =>
    obtain ⟨hnot, hnodup⟩ := List.nodup_cons.mp hnodup
    simp only [ZxyOs.releaseFds, returns_bind] at hret
    obtain ⟨_, s₁, hturn, hrest⟩ := hret
    obtain ⟨hok, hcur, hkeep⟩ := h.releaseFd (hfds fd List.mem_cons_self)
      (hun fd List.mem_cons_self) hturn
    -- what is left is as little shared as before
    have hun₁ (fd' : Fin 8) (hfd' : fd' ∈ rest) :
        s₁.Unshared (setDen den s.cur fd none) s₁.cur fd' := by
      have hne : fd' ≠ fd := by
        rintro rfl
        exact hnot hfd'
      intro g hat t e hden hat'
      rw [hcur] at hat ⊢
      have hpair : (s.cur, fd') ≠ (s.cur, fd) := fun heq => hne (Prod.mk.inj heq).2
      by_cases heq : t = s.cur ∧ e = fd
      · obtain ⟨rfl, rfl⟩ := heq
        rw [setDen_self] at hden
        exact absurd rfl hden
      · rw [setDen_of_ne heq] at hden
        have hpair' : (t, e) ≠ (s.cur, fd) := fun hpair => heq (by simpa using hpair)
        rw [hkeep _ hpair] at hat
        rw [hkeep _ hpair'] at hat'
        exact hun fd' (List.mem_cons_of_mem _ hfd') g hat t e hden hat'
    obtain ⟨hok', hcur', hkeep'⟩ := ih hok (fun fd' hfd' => hfds fd' (List.mem_cons_of_mem _ hfd')) hnodup
      hun₁ hrest
    rw [hcur] at hok' hkeep'
    refine ⟨hok', hcur'.trans hcur, fun y hy => ?_⟩
    rw [hkeep' y hy, hkeep y fun heq => hy (congrArg Prod.fst heq)]

/-! ## fork -/

/-- The loop of `update_inode_open_cnts` adds references and touches nothing else. -/
theorem updateInodeOpenCnts_refs {child : Nat} {fds : List (Fin 8)} (hok : s.CacheOk)
    (hpipe : ∀ g, (s.fileTable g).fdFlag ≠ pipeFlag)
    (hret : Returns (updateInodeOpenCnts child fds) s () s') :
    ∃ d : Nat → Int, RefsBy s s' d ∧ (∀ a, 0 ≤ d a) ∧ s'.fileTable = s.fileTable ∧
      s'.tasks = s.tasks ∧ s'.cur = s.cur ∧ DenyKept s s' := by
  induction fds generalizing s with
  | nil =>
    obtain ⟨-, rfl⟩ := returns_pure.mp hret
    exact ⟨0, ((refl_of CacheFrame _).step hok).toRefsBy, fun _ => le_rfl, rfl, rfl, rfl, .of_inodes rfl⟩
  | cons fd rest ih =>
    simp only [ZxyOs.updateInodeOpenCnts, returns_bind, returns_query, returns_deref,
      returns_assert] at hret
    obtain ⟨_, _, ⟨rfl, rfl⟩, k, _, ⟨-, rfl⟩, _, _, ⟨-, rfl⟩, hret⟩ := hret
    split at hret
    · simp only [returns_bind, returns_query] at hret
      obtain ⟨b, _, hb, f, _, ⟨rfl, rfl⟩, hret⟩ := hret
      obtain ⟨rfl, g, -, rfl⟩ := returns_isPipe hb
      simp only [hpipe g, decide_false, Bool.false_eq_true, if_false, returns_bind,
        returns_deref, returns_getInode, returns_putInode] at hret
      obtain ⟨a, _, ⟨-, rfl⟩, v, _, ⟨hv, rfl⟩, _, _, rfl, hrest⟩ := hret
      have hrefs : RefsBy s (s.setInode a { v with iOpenCnt := v.iOpenCnt + 1 }) _ :=
        .setInode hok hv rfl (Nat.succ_pos _)
      have hone : ((v.iOpenCnt + 1 : Nat) : Int) - v.iOpenCnt = 1 := by omega
      rw [hone] at hrefs
      obtain ⟨d, hrefs', hnonneg, hfile, htasks, hcur, hkept⟩ := ih hrefs.ok hpipe hrest
      have hput : DenyKept s (s.setInode a { v with iOpenCnt := v.iOpenCnt + 1 }) :=
        .setInode hv fun hdeny => hdeny
      have hkept' := hput.trans hok hrefs hrefs' hkept
      refine ⟨Pi.single a 1 + d, hrefs.trans hok hrefs', fun b => ?_, hfile, htasks, hcur, hkept'⟩
      have := hnonneg b
      rw [Pi.add_apply]
      by_cases hb : b = a
      · rw [hb, Pi.single_eq_same]
        rw [hb] at this
        omega
      · rw [Pi.single_eq_of_ne hb]
        omega
    · exact ih hok hpipe hret

/-- The child of a `sys_fork` has the descriptors of its parent. -/
theorem FilesOk.sysFork {child : Nat} (h : FilesOk s den) (hret : Returns (sysFork child) s () s') :
    FilesOk s' (Function.update den child (den s.cur)) := by
  simp only [ZxyOs.sysFork, returns_bind, returns_runningThread, returns_update] at hret
  obtain ⟨k, _, ⟨hk, rfl⟩, _, _, rfl, hret⟩ := hret
  have hcopy : FilesOk (s.setTask child k) (Function.update den child (den s.cur)) := by
    refine ⟨(RefsBy.setTask h.cache).ok, h.no_pipe, h.counted, fun t fd n hn => ?_⟩
    by_cases ht : t = child
    · subst ht
      rw [Function.update_self] at hn
      obtain ⟨g, a, v, hg, hat, hrest⟩ := h.file s.cur fd n hn
      refine ⟨g, a, v, hg, ?_, hrest⟩
      simp only [Fs.fdAt, hk] at hat
      simp only [Fs.fdAt, Fs.setTask, Function.update_self]
      exact hat
    · rw [Function.update_of_ne ht] at hn
      obtain ⟨g, a, v, hg, hat, hrest⟩ := h.file t fd n hn
      refine ⟨g, a, v, hg, ?_, hrest⟩
      simp only [Fs.fdAt, Fs.setTask, Function.update_of_ne ht]
      exact hat
  obtain ⟨d, hrefs, hnonneg, hfile, htasks, -⟩ := updateInodeOpenCnts_refs hcopy.cache hcopy.no_pipe hret
  apply hcopy.grow hrefs hnonneg
  · rw [hfile]
    exact hcopy.no_pipe
  · intro a
    have := hnonneg a
    rw [Fs.slotsOf_congr hfile]
    omega
  · rw [hfile]
    exact fun _ _ ha => ha
  · intro t fd n hn
    refine Or.inr ⟨t, fd, hn, ?_⟩
    rw [Fs.fdAt, Fs.fdAt, htasks]

end Share

end ZxyOs
