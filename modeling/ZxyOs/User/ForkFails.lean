/-
  ZxyOs.User.ForkFails

  What a `sys_fork` that fails leaves behind (`user/fork.c`).

  A single page is never refused: `bitmap_scan` for one bit returns one or panics.  So the page
  of the control block, that for copying and the one of the page directory are always there, and
  -1 comes from the pages for the bitmap of addresses alone.  By then two pages and a pid have
  been taken, and nothing gives them back (`ForkState.Leaks`).
-/

import ZxyOs.Fs.Format
import ZxyOs.User.Fork

namespace ZxyOs

open Lib Lib.Exec Lib.Prog

/-! ## Bits that stay set -/

/-- No bit of the pools and of the kernel's addresses has been cleared. -/
structure Grows (s s' : Shared) : Prop where
  pool : ∀ q i, (s.bitmap q).bit i = true → (s'.bitmap q).bit i = true
  kernelVaddr : ∀ i, s.kernelVaddr.vaddrBitmap.bit i = true → s'.kernelVaddr.vaddrBitmap.bit i = true

instance : Std.Refl Grows := ⟨fun _ => ⟨fun _ _ h => h, fun _ h => h⟩⟩

instance : IsTrans Shared Grows := ⟨fun _ _ _ h h' =>
  ⟨fun q i hi => h'.pool q i (h.pool q i hi), fun i hi => h'.kernelVaddr i (h.kernelVaddr i hi)⟩⟩

section Acts

variable {s s' : Shared} {t : Nat} {pf : PoolFlag}

theorem bitmapSet_true_bit {b : Bitmap} {i j : Nat} (h : b.bit j = true) : (b.bitmapSet i true).bit j = true := by
  rw [Bitmap.bitmapSet_bit]
  split
  · rfl
  · exact h

/-- An act that leaves the bitmaps as they are. -/
theorem grows_of_eq (hpool : ∀ q, s'.bitmap q = s.bitmap q) (hvaddr : s'.kernelVaddr = s.kernelVaddr) :
    Grows s s' := by
  refine ⟨fun q i hi => ?_, fun i hi => ?_⟩
  · rw [hpool]
    exact hi
  · rw [hvaddr]
    exact hi

theorem grows_setLock {l : Lock} : Grows s (s.setLock pf l) := grows_of_eq bitmap_setLock rfl

theorem keeps_grows (a : Act) : Keeps Grows (a.runs t) := by
  intro s n s' h
  rw [returns_runs] at h
  cases a with
  | setBit pf i =>
    simp only [Act.exec, Option.some.injEq, Prod.mk.injEq] at h
    obtain ⟨-, rfl⟩ := h
    refine ⟨fun q j hj => ?_, fun _ hj => hj⟩
    by_cases hq : q = pf
    · subst hq
      simp only [Shared.setBitmap, Shared.setPool, Shared.bitmap, Function.update_self]
      exact bitmapSet_true_bit hj
    · simp only [Shared.setBitmap, Shared.setPool, Shared.bitmap, Function.update_of_ne hq]
      exact hj
  | vaddrSet pf i =>
    simp only [Act.exec, Option.some.injEq, Prod.mk.injEq] at h
    obtain ⟨-, rfl⟩ := h
    cases pf with
    | kernel => exact ⟨fun _ _ hj => hj, fun j hj => bitmapSet_true_bit hj⟩
    | user => exact ⟨fun _ _ hj => hj, fun _ hj => hj⟩
  | setHolder pf | clearHolder pf | setHolderRepeatNr pf k =>
    simp only [Act.exec, Option.some.injEq, Prod.mk.injEq] at h
    obtain ⟨-, rfl⟩ := h
    exact grows_setLock
  | semaDown pf =>
    simp only [Act.exec] at h
    split at h
    · split at h
      · cases h
      · cases h
    · split at h
      · cases h
        exact grows_setLock
      · cases h
  | semaUp pf =>
    simp only [Act.exec] at h
    split at h
    · split at h
      · cases h
        exact grows_setLock
      · split at h
        · cases h
          exact grows_of_eq (fun q => bitmap_setLock q) rfl
        · cases h
    · cases h
  | _ =>
    simp only [Act.exec] at h
    have hsame : s'.pool = s.pool ∧ s'.kernelVaddr = s.kernelVaddr := by grind
    exact grows_of_eq (fun q => by rw [Shared.bitmap, Shared.bitmap, hsame.1]) hsame.2

theorem grows_alone {α : Type} {code : Code α} {a : α} (h : Returns (alone (Act.runs t) code) s a s') : Grows s s' :=
  keeps_alone keeps_grows code h

/-- A bit that is clear now was clear before. -/
theorem Grows.clear_vaddr (h : Grows s s') {i : Nat} (hi : s'.kernelVaddr.vaddrBitmap.bit i = false) :
    s.kernelVaddr.vaddrBitmap.bit i = false := by
  by_contra hset
  rw [Bool.not_eq_false] at hset
  rw [h.kernelVaddr i hset] at hi
  cases hi

theorem Grows.clear_pool (h : Grows s s') {i : Nat} (hi : (s'.bitmap pf).bit i = false) :
    (s.bitmap pf).bit i = false := by
  by_contra hset
  rw [Bool.not_eq_false] at hset
  rw [h.pool pf i hset] at hi
  cases hi

/-- A bit of the kernel's addresses and one of its pool have been set. -/
def TakesPage (s s' : Shared) : Prop :=
  (∃ i, s.kernelVaddr.vaddrBitmap.bit i = false ∧ s'.kernelVaddr.vaddrBitmap.bit i = true) ∧
    ∃ j, (s.bitmap .kernel).bit j = false ∧ (s'.bitmap .kernel).bit j = true

theorem vaddrGet_one {r : Option Nat} (h : Returns (alone (Act.runs t) (Code.vaddrGet .kernel 1)) s r s') :
    (∃ v, r = some v) ∧ ∃ i, s.kernelVaddr.vaddrBitmap.bit i = false ∧ s'.kernelVaddr.vaddrBitmap.bit i = true := by
  have hclear : ∃ f, (s.vaddrPool t .kernel).vaddrBitmap.IsFirstClear f := by
    have hsafe := safe_of_returns h
    rw [Code.vaddrGet, safe_alone_bind] at hsafe
    exact safe_vaddrScan hsafe.1
  obtain ⟨f, hf⟩ := hclear
  obtain ⟨r', hscan, hr⟩ := returns_vaddrScan Nat.one_pos hf
  have hin := hf.1
  obtain rfl := (hr f).mpr ⟨hf.firstStretch, by omega⟩
  rw [Code.vaddrGet, returns_alone_iff hscan] at h
  simp only [Option.map_some, Option.getD_some, Nat.succ_ne_zero, if_false, Nat.add_sub_cancel] at h
  obtain ⟨_, s₁, hset, h⟩ := returns_alone_bind.mp h
  simp only [Code.setVaddrs, returns_alone_bind, returns_alone_perform, returns_runs, Act.exec, Option.some.injEq,
    Prod.mk.injEq] at hset
  obtain ⟨_, s₂, ⟨-, rfl⟩, hpure⟩ := hset
  obtain ⟨-, rfl⟩ := returns_alone_pure.mp hpure
  obtain ⟨_, s₃, hstart, h⟩ := returns_alone_bind.mp h
  obtain ⟨rfl, rfl⟩ := returns_alone_pure.mp h
  refine ⟨⟨_, rfl⟩, f, hf.2.1, (grows_alone hstart).kernelVaddr f ?_⟩
  exact Bitmap.bitmapSet_bit_self _ _ _

/-- One page is not refused. -/
theorem mallocPage_one {r : Option Nat} (h : Returns (alone (Act.runs t) (Code.mallocPage .kernel 1)) s r s') :
    (∃ v, r = some v) ∧ TakesPage s s' := by
  obtain ⟨_, _, hassert, h⟩ := returns_alone_bind.mp h
  obtain ⟨-, rfl⟩ := returns_assertCode_iff.mp hassert
  obtain ⟨r₁, s₁, hget, h⟩ := returns_alone_bind.mp h
  obtain ⟨⟨v, rfl⟩, i, hclear, hset⟩ := vaddrGet_one hget
  obtain ⟨b, s₂, hmap, h⟩ := returns_alone_bind.mp h
  obtain rfl := mapPages_true hmap
  obtain ⟨rfl, rfl⟩ := returns_alone_pure.mp h
  refine ⟨⟨v, rfl⟩, ⟨i, hclear, (grows_alone hmap).kernelVaddr i hset⟩, ?_⟩
  obtain ⟨frame, s₃, hpalloc, hrest⟩ := returns_alone_bind.mp hmap
  obtain ⟨j, hj⟩ := safe_palloc.mp (safe_of_returns hpalloc)
  obtain ⟨rfl, rfl⟩ := hpalloc.unique (returns_poolPalloc hj)
  refine ⟨j, (grows_alone hget).clear_pool hj.2.1, (grows_alone hrest).pool .kernel j ?_⟩
  simp [Shared.takeBit, Shared.setBitmap, Shared.setPool, Shared.bitmap]

end Acts

namespace ForkState

/-- The bitmaps of the pools have grown, and pids, control blocks, lists and files are the same. -/
structure Grown (s s' : ForkState) : Prop where
  shared : Grows s.shared s'.shared
  pidBitmap : s'.pidBitmap = s.pidBitmap
  pcb : s'.pcb = s.pcb
  readyList : s'.threadReadyList = s.threadReadyList
  allList : s'.threadAllList = s.threadAllList
  fs : s'.fs = s.fs

instance : Std.Refl Grown := ⟨fun s => ⟨refl_of Grows s.shared, rfl, rfl, rfl, rfl, rfl⟩⟩

instance : IsTrans ForkState Grown := ⟨fun _ _ _ h h' =>
  ⟨trans_of Grows h.shared h'.shared, h'.pidBitmap.trans h.pidBitmap, h'.pcb.trans h.pcb,
    h'.readyList.trans h.readyList, h'.allList.trans h.allList, h'.fs.trans h.fs⟩⟩

section Calls

variable {s s' : ForkState} {α : Type} {n dst src : Nat}

theorem returns_onShared {code : Code α} {a : α} : Returns (onShared code) s a s' ↔
    ∃ t, Returns (alone (Act.runs s.fs.cur) code) s.shared a t ∧ s' = { s with shared := t } := by
  simp only [Returns, onShared]
  split
  · next b t h =>
    simp only [Except.ok.injEq, Prod.mk.injEq, h]
    constructor
    · rintro ⟨rfl, rfl⟩
      exact ⟨t, ⟨rfl, rfl⟩, rfl⟩
    · rintro ⟨u, ⟨rfl, rfl⟩, rfl⟩
      exact ⟨rfl, rfl⟩
  · next e h => simp [h]

theorem keeps_onShared {code : Code α} : Keeps Grown (onShared code) := by
  intro s a s' h
  obtain ⟨t, ht, rfl⟩ := returns_onShared.mp h
  exact ⟨grows_alone ht, rfl, rfl, rfl, rfl, rfl⟩

theorem keeps_loadByte {vaddr : Nat} : Keeps Grown (loadByte vaddr) :=
  (keeps_query _).bind fun _ => (keeps_deref _).bind fun _ => keeps_pure _

theorem keeps_storeByte {vaddr : Nat} {v : UInt8} : Keeps Grown (storeByte vaddr v) := by
  refine (keeps_query _).bind fun _ => (keeps_deref _).bind fun f => keeps_update fun s => ?_
  exact ⟨refl_of Grows s.shared, rfl, rfl, rfl, rfl, rfl⟩

theorem keeps_memcpy : Keeps Grown (memcpy dst src n) := by
  refine (keeps_assert _).bind fun _ => ?_
  induction n generalizing dst src with
  | zero => exact keeps_pure _
  | succ n ih => exact keeps_loadByte.bind fun v => keeps_storeByte.bind fun _ => ih

theorem keeps_memsetZero : Keeps Grown (memsetZero dst n) := by
  refine (keeps_assert _).bind fun _ => ?_
  induction n generalizing dst with
  | zero => exact keeps_pure _
  | succ n ih => exact keeps_storeByte.bind fun _ => ih

theorem keeps_getKernelPages : Keeps Grown (getKernelPages n) := by
  refine keeps_onShared.bind fun _ => keeps_onShared.bind fun vaddr => ?_
  cases vaddr with
  | none => exact keeps_onShared.bind fun _ => keeps_pure _
  | some vaddr => exact keeps_memsetZero.bind fun _ => keeps_onShared.bind fun _ => keeps_pure _

theorem keeps_addrV2p {vaddr : Nat} : Keeps Grown (addrV2p vaddr) :=
  (keeps_query _).bind fun _ => (keeps_require _).bind fun _ => keeps_pure _

/-- A change to what is not in the bitmaps. -/
theorem grown_tables {t : Shared} (hpool : t.pool = s.shared.pool) (hvaddr : t.kernelVaddr = s.shared.kernelVaddr) :
    Grown s { s with shared := t } :=
  ⟨grows_of_eq (fun q => by rw [Shared.bitmap, Shared.bitmap, hpool]) hvaddr, rfl, rfl, rfl, rfl, rfl⟩

theorem keeps_pageDirActivate {pthread : Nat} : Keeps Grown (pageDirActivate pthread) := by
  have hload (dir : Nat) : Keeps Grown
      (update fun s : ForkState => { s with shared := { s.shared with cr3 := dir } }) :=
    keeps_update fun _ => grown_tables rfl rfl
  refine (keeps_query _).bind fun s => ?_
  dsimp only
  split
  · exact (keeps_pure _).bind fun _ => hload _
  · exact keeps_addrV2p.bind fun _ => hload _

theorem keeps_createPageDir : Keeps Grown createPageDir := by
  refine keeps_getKernelPages.bind fun vaddr => ?_
  cases vaddr with
  | none => exact keeps_pure _
  | some vaddr =>
    refine keeps_addrV2p.bind fun dir => ?_
    refine Keeps.bind ?_ fun _ => keeps_pure _
    exact keeps_update fun _ => grown_tables rfl rfl

variable {child parent bufPage idxByte idxBit : Nat}

theorem keeps_copyMarked : Keeps Grown (copyMarked child parent bufPage idxByte idxBit) := by
  refine (keeps_query _).bind fun s => ?_
  apply Keeps.ite
  · refine keeps_memcpy.bind fun _ => keeps_pageDirActivate.bind fun _ => ?_
    exact keeps_onShared.bind fun _ => keeps_memcpy.bind fun _ => keeps_pageDirActivate
  · exact keeps_pure _

theorem keeps_copyBits : Keeps Grown (copyBits child parent bufPage idxByte n idxBit) := by
  induction n generalizing idxBit with
  | zero => exact keeps_pure _
  | succ n ih => exact keeps_copyMarked.bind fun _ => ih

theorem keeps_copyBytes : Keeps Grown (copyBytes child parent bufPage n idxByte) := by
  induction n generalizing idxByte with
  | zero => exact keeps_pure _
  | succ n ih =>
    refine (keeps_query _).bind fun s => ?_
    dsimp only
    split
    · exact keeps_copyBits.bind fun _ => ih
    · exact (keeps_pure _).bind fun _ => ih

theorem keeps_copyBlockStack3 : Keeps Grown (copyBlockStack3 child parent bufPage) :=
  (keeps_query _).bind fun _ => keeps_copyBytes

/-! ## The calls of fork that may fail -/

theorem getKernelPages_one {r : Option Nat} (h : Returns (getKernelPages 1) s r s') :
    (∃ v, r = some v) ∧ TakesPage s.shared s'.shared ∧ Grown s s' := by
  have hgrown := keeps_getKernelPages h
  obtain ⟨_, s₁, hacquire, h⟩ := returns_bind.mp h
  obtain ⟨vaddr, s₂, hmalloc, h⟩ := returns_bind.mp h
  have hbefore := (keeps_onShared hacquire).shared
  obtain ⟨t, ht, rfl⟩ := returns_onShared.mp hmalloc
  obtain ⟨⟨v, rfl⟩, ⟨i, hi, hi'⟩, j, hj, hj'⟩ := mallocPage_one ht
  obtain ⟨_, s₃, hmemset, h⟩ := returns_bind.mp h
  obtain ⟨_, s₄, hrelease, h⟩ := returns_bind.mp h
  obtain ⟨rfl, rfl⟩ := returns_pure.mp h
  have hafter : Grows t s₄.shared := trans_of Grows (keeps_memsetZero hmemset).shared (keeps_onShared hrelease).shared
  exact ⟨⟨v, rfl⟩, ⟨⟨i, hbefore.clear_vaddr hi, hafter.kernelVaddr i hi'⟩,
    j, hbefore.clear_pool hj, hafter.pool .kernel j hj'⟩, hgrown⟩

/-- What changes from before the pid is taken to after it is. -/
structure TakesPid (s s' : ForkState) (child : Nat) : Prop where
  shared : Grows s.shared s'.shared
  pid : ∃ k, s.pidBitmap.bit k = false ∧ s'.pidBitmap.bit k = true
  own : 0 < (s'.pcb child).pid
  readyList : s'.threadReadyList = s.threadReadyList
  allList : s'.threadAllList = s.threadAllList
  fileTable : s'.fs.fileTable = s.fs.fileTable
  inodes : s'.fs.inodes = s.fs.inodes

theorem copyPcbVaddrbitmapStack_takes {r : Int} (h : Returns (copyPcbVaddrbitmapStack child parent) s r s') :
    TakesPid s s' child := by
  obtain ⟨_, s₁, hcopy, h⟩ := returns_bind.mp h
  obtain rfl := (returns_update _ _).mp hcopy
  obtain ⟨pid, s₂, hpid, h⟩ := returns_bind.mp h
  obtain ⟨_, s₃, hfields, h⟩ := returns_bind.mp h
  obtain rfl := (returns_update _ _).mp hfields
  obtain ⟨vaddr, s₄, hpages, h⟩ := returns_bind.mp h
  -- the pid is the number of a clear bit and one more
  simp only [forkPid, returns_bind, returns_query, Bitmap.returns_bitmapScan_one] at hpid
  obtain ⟨_, _, ⟨rfl, rfl⟩, _, _, ⟨rfl, k, rfl, -, hclear, -⟩, hpid⟩ := hpid
  simp only [returns_bind, returns_update, returns_pure] at hpid
  obtain ⟨_, _, rfl, rfl, rfl⟩ := hpid
  have hgrown := keeps_getKernelPages hpages
  have hset : s₄.pidBitmap.bit k = true := by
    rw [hgrown.pidBitmap]
    exact Bitmap.bitmapSet_bit_self _ _ _
  have hown : 0 < (s₄.pcb child).pid := by
    rw [hgrown.pcb]
    simp only [setPcb, Function.update_self]
    omega
  have hcopied : Grows s.shared (s.copyPcb child parent).shared := grows_of_eq (fun _ => rfl) rfl
  have hpages : Grows (s.copyPcb child parent).shared s₄.shared := hgrown.shared
  have hfs : s₄.fs = (s.copyPcb child parent).fs := hgrown.fs
  have htakes : TakesPid s s₄ child :=
    { shared := trans_of Grows hcopied hpages
      pid := ⟨k, hclear, hset⟩
      own := hown
      readyList := hgrown.readyList
      allList := hgrown.allList
      fileTable := (congrArg Fs.fileTable hfs).trans rfl
      inodes := (congrArg Fs.inodes hfs).trans rfl }
  cases vaddr with
  | none =>
    obtain ⟨-, rfl⟩ := returns_pure.mp h
    exact htakes
  | some v =>
    simp only [returns_bind, returns_query, returns_assert, returns_update, returns_pure] at h
    obtain ⟨_, _, ⟨rfl, rfl⟩, _, _, ⟨-, rfl⟩, _, _, rfl, -, rfl⟩ := h
    refine { htakes with own := ?_ }
    simp only [setPcb, Function.update_self]
    exact hown

theorem copyPcbVaddrbitmapStack_result {r : Int} (h : Returns (copyPcbVaddrbitmapStack child parent) s r s') :
    r = -1 ∨ r = 0 := by
  simp only [copyPcbVaddrbitmapStack, returns_bind] at h
  obtain ⟨_, _, _, _, _, _, _, _, _, vaddr, _, _, h⟩ := h
  cases vaddr with
  | none => exact Or.inl (returns_pure.mp h).1.symm
  | some v =>
    simp only [returns_bind, returns_pure] at h
    obtain ⟨_, _, _, _, _, _, _, _, _, rfl, -⟩ := h
    exact Or.inr rfl

theorem pcb_onFs {x : FsM α} {a : α} (h : Returns (onFs x) s a s') : s'.pcb = s.pcb := by
  simp only [Returns, onFs] at h
  split at h
  · cases h
    rfl
  · cases h

theorem pcb_mfreeKernelPages {vaddr : Nat} (h : Returns (mfreeKernelPages vaddr n) s () s') : s'.pcb = s.pcb := by
  simp only [Returns, mfreeKernelPages] at h
  split at h
  · cases h
    rfl
  · cases h

/-- A `copy_process` that fails has taken a page and a pid; otherwise the child has its pid. -/
theorem copyProcess_fails {intrExit : Nat} {r : Int} (h : Returns (copyProcess intrExit child parent) s r s') :
    (r = -1 ∧ TakesPage s.shared s'.shared ∧ TakesPid s s' child) ∨ (r = 0 ∧ 0 < (s'.pcb child).pid) := by
  obtain ⟨buf, s₁, hbuf, h⟩ := returns_bind.mp h
  obtain ⟨⟨buf, rfl⟩, ⟨⟨i, hi, hi'⟩, j, hj, hj'⟩, hgrown⟩ := getKernelPages_one hbuf
  obtain ⟨r₁, s₂, hcopy, h⟩ := returns_bind.mp h
  have htakes := copyPcbVaddrbitmapStack_takes hcopy
  rcases copyPcbVaddrbitmapStack_result hcopy with rfl | rfl
  · rw [if_pos rfl] at h
    obtain ⟨rfl, rfl⟩ := returns_pure.mp h
    refine Or.inl ⟨rfl, ⟨⟨i, hi, htakes.shared.kernelVaddr i hi'⟩, j, hj, htakes.shared.pool .kernel j hj'⟩, ?_⟩
    exact
      { shared := trans_of Grows hgrown.shared htakes.shared
        pid := hgrown.pidBitmap ▸ htakes.pid
        own := htakes.own
        readyList := htakes.readyList.trans hgrown.readyList
        allList := htakes.allList.trans hgrown.allList
        fileTable := htakes.fileTable.trans (congrArg Fs.fileTable hgrown.fs)
        inodes := htakes.inodes.trans (congrArg Fs.inodes hgrown.fs) }
  · rw [if_neg (by decide)] at h
    obtain ⟨pgdir, s₃, hdir, h⟩ := returns_bind.mp h
    have hsome : ∃ v, pgdir = some v := by
      obtain ⟨page, s₄, hpage, hrest⟩ := returns_bind.mp hdir
      obtain ⟨⟨v, rfl⟩, -⟩ := getKernelPages_one hpage
      simp only [returns_bind, returns_pure] at hrest
      obtain ⟨_, _, -, _, _, -, hv, -⟩ := hrest
      exact ⟨v, hv.symm⟩
    obtain ⟨v, rfl⟩ := hsome
    obtain ⟨_, s₄, hset, h⟩ := returns_bind.mp h
    obtain rfl := (returns_update _ _).mp hset
    obtain ⟨_, s₅, hblocks, h⟩ := returns_bind.mp h
    obtain ⟨_, s₆, hstack, h⟩ := returns_bind.mp h
    obtain rfl := (returns_update _ _).mp hstack
    obtain ⟨_, s₇, hfiles, h⟩ := returns_bind.mp h
    obtain ⟨_, s₈, hfree, h⟩ := returns_bind.mp h
    obtain ⟨rfl, rfl⟩ := returns_pure.mp h
    refine Or.inr ⟨rfl, ?_⟩
    rw [pcb_mfreeKernelPages hfree, pcb_onFs hfiles]
    simp only [setPcb, Function.update_self]
    rw [(keeps_copyBlockStack3 hblocks).pcb]
    simp only [setPcb, Function.update_self]
    rw [(keeps_createPageDir hdir).pcb]
    exact htakes.own

end Calls

/-! ## sys_fork -/

/-- Pools, pids, lists, open counts and the address space of the parent are as they were. -/
structure NothingLeft (s s' : ForkState) : Prop where
  pool : ∀ q, s'.shared.bitmap q = s.shared.bitmap q
  kernelVaddr : s'.shared.kernelVaddr = s.shared.kernelVaddr
  pidBitmap : s'.pidBitmap = s.pidBitmap
  readyList : s'.threadReadyList = s.threadReadyList
  allList : s'.threadAllList = s.threadAllList
  fileTable : s'.fs.fileTable = s.fs.fileTable
  inodes : s'.fs.inodes = s.fs.inodes
  userprogVaddr : s'.shared.userprogVaddr s.fs.cur = s.shared.userprogVaddr s.fs.cur
  walk : ∀ page < 0xc0000, s'.shared.walk page = s.shared.walk page
  page : ∀ page < 0xc0000, ∀ f, s.shared.walk page = some f → s'.page f = s.page f

/-- Two bits have been set. -/
def TwoMore (b b' : Bitmap) : Prop :=
  ∃ i j, i ≠ j ∧ b.bit i = false ∧ b.bit j = false ∧ b'.bit i = true ∧ b'.bit j = true

theorem TwoMore.ne {b b' : Bitmap} (h : TwoMore b b') : b' ≠ b := by
  rintro rfl
  obtain ⟨i, j, -, hclear, -, hset, -⟩ := h
  rw [hclear] at hset
  cases hset

theorem two_more {s s₁ s₂ : Shared} (h : TakesPage s s₁) (hgrows : Grows s s₁) (h' : TakesPage s₁ s₂)
    (hgrows' : Grows s₁ s₂) : TwoMore s.kernelVaddr.vaddrBitmap s₂.kernelVaddr.vaddrBitmap ∧
      TwoMore (s.bitmap .kernel) (s₂.bitmap .kernel) := by
  obtain ⟨⟨i, hi, hi'⟩, k, hk, hk'⟩ := h
  obtain ⟨⟨j, hj, hj'⟩, l, hl, hl'⟩ := h'
  constructor
  · refine ⟨i, j, ?_, hi, hgrows.clear_vaddr hj, hgrows'.kernelVaddr i hi', hj'⟩
    rintro rfl
    rw [hj] at hi'
    cases hi'
  · refine ⟨k, l, ?_, hk, hgrows.clear_pool hl, hgrows'.pool .kernel k hk', hl'⟩
    rintro rfl
    rw [hl] at hk'
    cases hk'

/-- What is taken by a `sys_fork` that returns -1, and what is as before. -/
structure Leaks (s s' : ForkState) : Prop where
  kernelVaddr : TwoMore s.shared.kernelVaddr.vaddrBitmap s'.shared.kernelVaddr.vaddrBitmap
  kernelPool : TwoMore (s.shared.bitmap .kernel) (s'.shared.bitmap .kernel)
  pid : ∃ k, s.pidBitmap.bit k = false ∧ s'.pidBitmap.bit k = true
  readyList : s'.threadReadyList = s.threadReadyList
  allList : s'.threadAllList = s.threadAllList
  fileTable : s'.fs.fileTable = s.fs.fileTable
  inodes : s'.fs.inodes = s.fs.inodes

theorem Leaks.not_nothingLeft {s s' : ForkState} (h : s.Leaks s') : ¬ s.NothingLeft s' :=
  fun hnothing => h.kernelPool.ne (hnothing.pool .kernel)

theorem sysFork_leaks {intrExit : Nat} {s s' : ForkState} (h : Returns (sysFork intrExit) s (-1) s') : s.Leaks s' := by
  obtain ⟨_, _, hcur, h⟩ := returns_bind.mp h
  obtain ⟨rfl, rfl⟩ := (returns_query _).mp hcur
  obtain ⟨child, s₁, hpage, h⟩ := returns_bind.mp h
  obtain ⟨⟨child, rfl⟩, htakes, hgrown⟩ := getKernelPages_one hpage
  simp only [returns_bind, returns_query, returns_assert] at h
  obtain ⟨_, _, ⟨rfl, rfl⟩, _, _, ⟨-, rfl⟩, r, s₂, hcopy, h⟩ := h
  rcases copyProcess_fails hcopy with ⟨rfl, htakes', hpid⟩ | ⟨rfl, hown⟩
  · rw [if_pos rfl] at h
    obtain ⟨-, rfl⟩ := returns_pure.mp h
    obtain ⟨hvaddr, hpool⟩ := two_more htakes hgrown.shared htakes' hpid.shared
    exact
      { kernelVaddr := hvaddr
        kernelPool := hpool
        pid := hgrown.pidBitmap ▸ hpid.pid
        readyList := hpid.readyList.trans hgrown.readyList
        allList := hpid.allList.trans hgrown.allList
        fileTable := hpid.fileTable.trans (congrArg Fs.fileTable hgrown.fs)
        inodes := hpid.inodes.trans (congrArg Fs.inodes hgrown.fs) }
  · -- with a pid of its own the child is returned
    rw [if_neg (by decide)] at h
    simp only [returns_bind, returns_query, returns_assert, returns_update] at h
    obtain ⟨_, _, ⟨rfl, rfl⟩, _, _, ⟨-, rfl⟩, _, _, rfl, _, _, ⟨-, rfl⟩, _, _, rfl, hret, -⟩ := h
    have hpos : 0 < (s₂.pcb child).pid := hown
    have hneg : (s₂.pcb child).pid = -1 := hret
    omega

/-! ## A fork that fails -/

theorem returns_memsetLoop {s : ForkState} {n dst : Nat}
    (h : ∀ k < n, (s.shared.walk ((dst + k) / pgSize)).isSome = true) :
    ∃ page, Returns (memsetLoop n dst) s () { s with page := page } := by
  induction n generalizing s dst with
  | zero => exact ⟨s.page, returns_pure.mpr ⟨rfl, rfl⟩⟩
  | succ n ih =>
    obtain ⟨f, hf⟩ := Option.isSome_iff_exists.mp (h 0 (Nat.succ_pos n))
    have hstore : Returns (storeByte dst 0) s () (s.setByte f (dst % pgSize) 0) := by
      simp only [storeByte, returns_bind, returns_query, returns_deref, returns_update]
      exact ⟨s, s, ⟨rfl, rfl⟩, f, s, ⟨hf, rfl⟩, rfl⟩
    have hrest : ∀ k < n, ((s.setByte f (dst % pgSize) 0).shared.walk ((dst + 1 + k) / pgSize)).isSome = true := by
      intro k hk
      rw [Nat.add_assoc, Nat.add_comm 1 k]
      exact h (k + 1) (Nat.succ_lt_succ hk)
    obtain ⟨page, hret⟩ := ih hrest
    refine ⟨page, ?_⟩
    rw [memsetLoop, returns_bind_iff hstore]
    exact hret

/-- `get_kernel_pages` on the pools and page tables, computed: the pages are mapped, and `p`
    holds of the result and of what is left. -/
def pagesCheck (t n : Nat) (s : Shared) (p : Option Nat → Shared → Bool) : Bool :=
  (alone (Act.runs t) (Code.lockAcquire .kernel)).checks s fun _ s₁ =>
    (alone (Act.runs t) (Code.mallocPage .kernel n)).checks s₁ fun r s₂ =>
      (r.all fun v => decide (0 < v ∧ v % pgSize = 0) &&
        (List.range n).all fun k => (s₂.walk (v / pgSize + k)).isSome) &&
      (alone (Act.runs t) (Code.lockRelease .kernel)).checks s₂ fun _ s₃ => p r s₃

theorem getKernelPages_of_check {s : ForkState} {n : Nat} {p : Option Nat → Shared → Bool}
    (h : pagesCheck s.fs.cur n s.shared p = true) :
    ∃ r t page, Returns (getKernelPages n) s r { s with shared := t, page := page } ∧ p r t = true := by
  obtain ⟨_, s₁, hacquire, h⟩ := checks_eq_true.mp h
  obtain ⟨r, s₂, hmalloc, h⟩ := checks_eq_true.mp h
  rw [Bool.and_eq_true] at h
  obtain ⟨hmapped, h⟩ := h
  obtain ⟨_, s₃, hrelease, hp⟩ := checks_eq_true.mp h
  have hacquire : Returns (onShared (Code.lockAcquire .kernel)) s () { s with shared := s₁ } :=
    returns_onShared.mpr ⟨s₁, hacquire, rfl⟩
  have hmalloc : Returns (onShared (Code.mallocPage .kernel n)) { s with shared := s₁ } r { s with shared := s₂ } :=
    returns_onShared.mpr ⟨s₂, hmalloc, rfl⟩
  have hrelease (page : Nat → Nat → UInt8) : Returns (onShared (Code.lockRelease .kernel))
      { s with shared := s₂, page := page } () { s with shared := s₃, page := page } :=
    returns_onShared.mpr ⟨s₃, hrelease, rfl⟩
  cases r with
  | none =>
    refine ⟨none, s₃, s.page, ?_, hp⟩
    rw [getKernelPages, returns_bind_iff hacquire, returns_bind_iff hmalloc]
    exact (returns_bind_iff (hrelease s.page)).mpr (returns_pure.mpr ⟨rfl, rfl⟩)
  | some v =>
    simp only [Option.all_some, Bool.and_eq_true, decide_eq_true_eq, List.all_eq_true, List.mem_range] at hmapped
    obtain ⟨⟨hpos, halign⟩, hpages⟩ := hmapped
    have hbytes : ∀ k < n * pgSize, ((({ s with shared := s₂ } : ForkState).shared.walk ((v + k) / pgSize)).isSome = true) := by
      intro k hk
      have hpage := hpages (k / pgSize) (Nat.div_lt_of_lt_mul (by rwa [Nat.mul_comm] at hk))
      simp only [pgSize] at halign hpage ⊢
      rwa [show (v + k) / 4096 = v / 4096 + k / 4096 by omega]
    obtain ⟨page, hmemset⟩ := returns_memsetLoop hbytes
    have hassert : Returns (assert (v ≠ 0)) { s with shared := s₂ } () { s with shared := s₂ } :=
      (returns_assert _ ()).mpr ⟨by omega, rfl⟩
    refine ⟨some v, s₃, page, ?_, hp⟩
    rw [getKernelPages, returns_bind_iff hacquire, returns_bind_iff hmalloc]
    refine returns_bind.mpr ⟨(), { s with shared := s₂, page := page }, ?_, ?_⟩
    · rw [memsetZero, returns_bind_iff hassert]
      exact hmemset
    · exact (returns_bind_iff (hrelease page)).mpr (returns_pure.mpr ⟨rfl, rfl⟩)

/-- A process runs, and the kernel has eight pages left. -/
def eightPages : ForkState where
  shared := freshMmu.shared
  fs := { Fs.boot Bytes.zero (fun _ => false) with cur := 0xc009e000 }
  page := fun _ _ => 0
  pidBitmap := { btmpBytesLen := 128, bit := fun i => i < 2 }
  pcb := fun _ =>
    { selfKstack := 0xc009efa0, pid := 2, status := .running, name := [115, 104], priority := 31, ticks := 20,
      elapsedTicks := 5, pgdir := some 0xc0100000, parentPid := 1, eax := 0, threadStack := [] }
  threadReadyList := []
  threadAllList := [0xc009e000]

/-- Two pages are there, a run of 23 is not. -/
theorem eightPages_pages : pagesCheck 0xc009e000 1 eightPages.shared (fun r₁ s₁ => r₁ = some 0xc0100000 &&
    pagesCheck 0xc009e000 1 s₁ fun r₂ s₂ => r₂.isSome && pagesCheck 0xc009e000 23 { s₂ with
      userprogVaddr := Function.update s₂.userprogVaddr 0xc0100000 (s₂.userprogVaddr 0xc009e000) }
        fun r₃ _ => r₃ = none) = true := by
  decide +kernel

theorem eightPages_fails : ∃ s', Returns (sysFork 0) eightPages (-1) s' := by
  obtain ⟨r₁, t₁, page₁, hchild, h⟩ := getKernelPages_of_check (s := eightPages) eightPages_pages
  rw [Bool.and_eq_true, decide_eq_true_eq] at h
  obtain ⟨rfl, h⟩ := h
  obtain ⟨r₂, t₂, page₂, hbuf, h⟩ :=
    getKernelPages_of_check (s := { eightPages with shared := t₁, page := page₁ }) h
  rw [Bool.and_eq_true, Option.isSome_iff_exists] at h
  obtain ⟨⟨buf, rfl⟩, h⟩ := h
  let s₂ : ForkState := { eightPages with shared := t₂, page := page₂ }
  let s₃ : ForkState := { s₂.copyPcb 0xc0100000 0xc009e000 with
    pidBitmap := s₂.pidBitmap.bitmapSet 2 true }
  have hpid : Returns forkPid (s₂.copyPcb 0xc0100000 0xc009e000) 3 s₃ := by
    have hfirst : eightPages.pidBitmap.IsFirstClear 2 := ⟨by decide, by decide, fun j hj => decide_eq_true hj⟩
    simp only [forkPid, returns_bind, returns_query, Bitmap.returns_bitmapScan_one]
    refine ⟨_, _, ⟨rfl, rfl⟩, some 2, _, ⟨rfl, 2, rfl, hfirst⟩, ?_⟩
    simp only [returns_bind, returns_update, returns_pure]
    exact ⟨(), _, rfl, rfl, rfl⟩
  let child := s₃.pcb 0xc0100000
  let s₄ := s₃.setPcb 0xc0100000 { child with
    pid := 3, status := .ready, elapsedTicks := 0, ticks := child.priority, parentPid := (s₃.pcb 0xc009e000).pid }
  obtain ⟨r₃, t₄, page₄, hbitmap, h⟩ := getKernelPages_of_check (s := s₄) h
  obtain rfl := of_decide_eq_true h
  let s₅ : ForkState := { s₄ with shared := t₄, page := page₄ }
  have hcopy : Returns (copyPcbVaddrbitmapStack 0xc0100000 0xc009e000) s₂ (-1) s₅ := by
    have hfields : Returns (update fun s : ForkState => s.copyPcb 0xc0100000 0xc009e000) s₂ ()
        (s₂.copyPcb 0xc0100000 0xc009e000) := (returns_update _ _).mpr rfl
    rw [copyPcbVaddrbitmapStack, returns_bind_iff hfields, returns_bind_iff hpid]
    refine returns_bind.mpr ⟨(), s₄, (returns_update _ _).mpr rfl, ?_⟩
    exact returns_bind.mpr ⟨none, s₅, hbitmap, returns_pure.mpr ⟨rfl, rfl⟩⟩
  refine ⟨s₅, ?_⟩
  have hcur : Returns (query fun s : ForkState => s.fs.cur) eightPages 0xc009e000 eightPages :=
    (returns_query _).mpr ⟨rfl, rfl⟩
  rw [sysFork, returns_bind_iff hcur, returns_bind_iff hchild]
  simp only [returns_bind, returns_query, returns_assert]
  refine ⟨_, _, ⟨rfl, rfl⟩, (), _, ⟨Option.some_ne_none _, rfl⟩, -1, s₅, ?_, ?_⟩
  · rw [copyProcess, returns_bind_iff hbuf]
    exact returns_bind.mpr ⟨-1, s₅, hcopy, returns_pure.mpr ⟨rfl, rfl⟩⟩
  · exact returns_pure.mpr ⟨rfl, rfl⟩

/-- Whenever `sys_fork` returns -1, two pages of the kernel and a pid stay taken. -/
theorem failed_fork_leaks (intrExit : Nat) (s s' : ForkState) (h : Returns (sysFork intrExit) s (-1) s') :
    ¬ s.NothingLeft s' ∧ s.Leaks s' := by
  have hleaks := sysFork_leaks h
  exact ⟨hleaks.not_nothingLeft, hleaks⟩

/-- Where eight pages are left. -/
theorem failed_fork_leaks_pages : ∃ s', eightPages.Leaks s' := by
  obtain ⟨s', h⟩ := eightPages_fails
  exact ⟨s', (failed_fork_leaks 0 eightPages s' h).2⟩

theorem failed_fork_leaves_pages : ∃ (intrExit : Nat) (s s' : ForkState),
    Returns (sysFork intrExit) s (-1) s' ∧ ¬ s.NothingLeft s' := by
  obtain ⟨s', h⟩ := eightPages_fails
  exact ⟨0, eightPages, s', h, (sysFork_leaks h).not_nothingLeft⟩

end ForkState

end ZxyOs
