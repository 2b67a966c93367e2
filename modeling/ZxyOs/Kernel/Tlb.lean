/-
  ZxyOs.Kernel.Tlb

  The translations the processor keeps.

  A translation is kept once it has been used, `invlpg m` drops that of the page `m`
  is in, and a load of CR3 drops all.  `page_table_pte_remove` invalidates with
  `"m" (vaddr)`: the operand is the variable `vaddr`, so the translation dropped is
  that of the kernel stack, and that of the page taken out of the table stays.

  `malloc_page` and what it calls is the code of `PageThreads`, run alone; threads are
  known by the addresses of their control blocks, which hold their kernel stacks.
-/

import ZxyOs.Lib.Runs
import ZxyOs.Kernel.PageThreads

namespace ZxyOs

open Lib Lib.Exec Lib.Prog

namespace Shared

/-- The frame page `page` is mapped to. -/
def walk (s : Shared) (page : Nat) : Option Nat :=
  if s.pdeAt (page * pgSize) % 2 = 1 ∧ s.pteAt (page * pgSize) % 2 = 1 then
    some (s.pteAt (page * pgSize) / pgSize)
  else none

end Shared

/-- An act of the thread `t` that is not interrupted. -/
def Act.runs (t : Nat) (a : Act) : Exec Shared Nat := fun s =>
  match a.exec t 0 s with
  | none => .error .panic
  | some (none, _) => .error .blocked
  | some (some n, s') => .ok (n, s')

/-- The page tables and pools, the running thread and the translations that are kept. -/
structure Mmu where
  shared : Shared
  cur : Nat
  tlb : Nat → Option Nat

/-- Kernel code of the running thread on the page tables and the processor. -/
abbrev MmuM (α : Type) : Type := Exec Mmu α

namespace Mmu

def setShared (d : Mmu) (s : Shared) : Mmu := { d with shared := s }

/-- Code that leaves the translations kept alone. -/
def onShared {α : Type} (code : Code α) : MmuM α := fun d =>
  match alone (Act.runs d.cur) code d.shared with
  | .ok (a, s) => .ok (a, d.setShared s)
  | .error e => .error e

def mallocPage (pf : PoolFlag) (pageCount : Nat) : MmuM (Option Nat) :=
  onShared (Code.mallocPage pf pageCount)

/-- `*pte_ptr(vaddr)`, which must be mapped itself. -/
def readPte (vaddr : Nat) : MmuM Nat := do
  let d ← query id
  require (d.shared.pdeAt vaddr % 2 = 1)
  return d.shared.pteAt vaddr

/-- `addr_v2p`. -/
def addrV2p (vaddr : Nat) : MmuM Nat := do
  let pte ← readPte vaddr
  return pte / pgSize * pgSize + vaddr % pgSize

def pfree (pgPhyAddr : Nat) : MmuM Unit := do
  let d ← query id
  let pf : PoolFlag := if (d.shared.pool .user).phyAddrStart < pgPhyAddr then .user else .kernel
  let bmIdx := Code.vaddrIdx pgPhyAddr (d.shared.pool pf).phyAddrStart
  update fun d => d.setShared (d.shared.setBitmap pf ((d.shared.bitmap pf).bitmapSet bmIdx false))

/-- `invlpg m` for a variable on the stack of the running thread. -/
def invlpgStack : MmuM Unit :=
  update fun d => { d with tlb := Function.update d.tlb (d.cur / pgSize) none }

def pageTablePteRemove (vaddr : Nat) : MmuM Unit := do
  let pte ← readPte vaddr
  let d ← query id
  let dir := d.shared.dirOf (vaddr / 2 ^ 22)
  let entries := Function.update (d.shared.pte dir) (vaddr / pgSize) (pte / 2 * 2)
  update fun d => d.setShared { d.shared with pte := Function.update d.shared.pte dir entries }
  invlpgStack

/-- The loop of `vaddr_remove`, with `n` bits left from `bitIdx` on. -/
def vaddrRemoveLoop (pf : PoolFlag) : Nat → Nat → MmuM Unit
  | 0, _ => return ()
  | n + 1, bitIdx => do
    let d ← query id
    let v := d.shared.vaddrPool d.cur pf
    let v := { v with vaddrBitmap := v.vaddrBitmap.bitmapSet bitIdx false }
    update fun d => d.setShared (d.shared.setVaddrPool d.cur pf v)
    vaddrRemoveLoop pf n (bitIdx + 1)

def vaddrRemove (pf : PoolFlag) (vaddr pgCnt : Nat) : MmuM Unit := do
  let d ← query id
  vaddrRemoveLoop pf pgCnt (Code.vaddrIdx vaddr (d.shared.vaddrPool d.cur pf).vaddrStart)

/-- The loops of `mfree_page`, one for each pool, with `n` pages left from `vaddr` on. -/
def mfreeLoop (pf : PoolFlag) : Nat → Nat → MmuM Unit
  | 0, _ => return ()
  | n + 1, vaddr => do
    let pgPhyAddr ← addrV2p vaddr
    let d ← query id
    assert (pgPhyAddr % pgSize = 0)
    match pf with
    | .user => assert ((d.shared.pool .user).phyAddrStart ≤ pgPhyAddr)
    | .kernel =>
      assert (pgPhyAddr < (d.shared.pool .user).phyAddrStart ∧
        (d.shared.pool .kernel).phyAddrStart ≤ pgPhyAddr)
    pfree pgPhyAddr
    pageTablePteRemove vaddr
    mfreeLoop pf n (vaddr + pgSize)

def mfreePage (pf : PoolFlag) (vaddr pgCnt : Nat) : MmuM Unit := do
  assert (1 ≤ pgCnt ∧ vaddr % pgSize = 0)
  let pgPhyAddr ← addrV2p vaddr
  assert (pgPhyAddr % pgSize = 0 ∧ 0x102000 < pgPhyAddr)
  let d ← query id
  let pool : PoolFlag := if (d.shared.pool .user).phyAddrStart ≤ pgPhyAddr then .user else .kernel
  assert (pf = pool)
  mfreeLoop pool pgCnt vaddr
  vaddrRemove pf vaddr pgCnt

/-! ## Steps -/

/-- What the processor does next: a call of the page allocator, a use of a page
    through a translation, or a load of CR3, for another thread or for a page directory
    of `copy_block_stack3`. -/
inductive Event where
  | malloc (pf : PoolFlag) (pageCount : Nat)
  | mfree (pf : PoolFlag) (vaddr pgCnt : Nat)
  | access (page frame : Nat) (kept : Bool)
  | switch (t : Nat)
  | activate (dir : Nat)

/-- A page is used through the frame of the translation that is kept, if there is one,
    and of the page table otherwise; that one may then be kept. -/
def Uses (d : Mmu) (page frame : Nat) (kept : Bool) (d' : Mmu) : Prop :=
  d.tlb page = some frame ∧ d' = d ∨
    d.tlb page = none ∧ d.shared.walk page = some frame ∧
      d' = if kept then { d with tlb := Function.update d.tlb page (some frame) } else d

/-- `process_activate` of the thread `t`, or `page_dir_activate`. -/
def loadCr3 (d : Mmu) (t dir : Nat) : Mmu :=
  { d with cur := t, shared := { d.shared with cr3 := dir }, tlb := fun _ => none }

def Step (d : Mmu) : Event → Mmu → Prop
  | .malloc pf pageCount, d' => ∃ r, Returns (mallocPage pf pageCount) d r d'
  | .mfree pf vaddr pgCnt, d' => Returns (mfreePage pf vaddr pgCnt) d () d'
  | .access page frame kept, d' => d.Uses page frame kept d'
  | .switch t, d' => d' = d.loadCr3 t ((d.shared.pgdir t).getD kernelPageDir)
  | .activate dir, d' => d' = d.loadCr3 d.cur dir

abbrev Run (P : Mmu → Event → Prop) : Mmu → Mmu → Prop := Lib.Run Step P

/-- The address of the pages `malloc_page` takes, if `vaddr_get` finds any. -/
def nextPages (d : Mmu) (pf : PoolFlag) (pageCount : Nat) : Option Nat :=
  let v := d.shared.vaddrPool d.cur pf
  match Exec.result? (v.vaddrBitmap.bitmapScan pageCount) () with
  | some (some i) => some (v.vaddrStart + i * pgSize)
  | _ => none

/-- The pages `malloc_page` takes have no translation kept. -/
def TakesForgotten (d : Mmu) : Event → Prop
  | .malloc pf pageCount => ∀ vaddr, d.nextPages pf pageCount = some vaddr →
      ∀ k < pageCount, d.tlb ((vaddr + k * pgSize) / pgSize) = none
  | _ => True

/-- The translations kept are those of the page tables, where these have one. -/
def Coherent (d : Mmu) : Prop :=
  ∀ page frame frame', d.tlb page = some frame → d.shared.walk page = some frame' → frame = frame'

end Mmu

/-! ## Code that leaves the page tables alone -/

/-- The page tables in use are the same, and the pools of addresses start where they did. -/
structure SameTables (s s' : Shared) : Prop where
  pde : s'.pde = s.pde
  pte : s'.pte = s.pte
  cr3 : s'.cr3 = s.cr3
  kernelStart : s'.kernelVaddr.vaddrStart = s.kernelVaddr.vaddrStart
  userStart : ∀ t, (s'.userprogVaddr t).vaddrStart = (s.userprogVaddr t).vaddrStart

instance : Std.Refl SameTables := ⟨fun _ => ⟨rfl, rfl, rfl, rfl, fun _ => rfl⟩⟩

instance : IsTrans Shared SameTables := ⟨fun _ _ _ h h' =>
  ⟨h'.pde.trans h.pde, h'.pte.trans h.pte, h'.cr3.trans h.cr3, h'.kernelStart.trans h.kernelStart,
    fun t => (h'.userStart t).trans (h.userStart t)⟩⟩

/-- The act touches no page table and no CR3. -/
def Act.leavesTables : Act → Bool
  | .setPde _ _ | .setPte _ _ | .clearPageTable _ | .pageDirActivate _ => false
  | _ => true

section Tables

variable {s s' : Shared} {t vaddr page n : Nat} {pf : PoolFlag}

theorem SameTables.pdeAt (h : SameTables s s') (vaddr : Nat) : s'.pdeAt vaddr = s.pdeAt vaddr := by
  rw [Shared.pdeAt, Shared.pdeAt, Shared.dirOf, Shared.dirOf, h.pde, h.cr3]

theorem SameTables.pteAt (h : SameTables s s') (vaddr : Nat) : s'.pteAt vaddr = s.pteAt vaddr := by
  rw [Shared.pteAt, Shared.pteAt, Shared.dirOf, Shared.dirOf, h.pte, h.cr3]

theorem SameTables.start (h : SameTables s s') (t : Nat) (pf : PoolFlag) :
    (s'.vaddrPool t pf).vaddrStart = (s.vaddrPool t pf).vaddrStart := by
  cases pf with
  | kernel => exact h.kernelStart
  | user => exact h.userStart t

theorem SameTables.walk (h : SameTables s s') (page : Nat) : s'.walk page = s.walk page := by
  rw [Shared.walk, Shared.walk, h.pdeAt, h.pteAt]

theorem returns_runs {a : Act} : Returns (a.runs t) s n s' ↔ a.exec t 0 s = some (some n, s') := by
  simp only [Returns, Act.runs]
  split
  · next h => simp [h]
  · next h => simp [h]
  · next m u h => simp [h]

theorem keeps_runs {a : Act} (ha : a.leavesTables = true) : Keeps SameTables (a.runs t) := by
  intro s n s' h
  rw [returns_runs] at h
  cases a with
  | setPde | setPte | clearPageTable | pageDirActivate => cases ha
  | vaddrSet pf i =>
    simp only [Act.exec, Option.some.injEq, Prod.mk.injEq] at h
    obtain ⟨-, rfl⟩ := h
    cases pf with
    | kernel => exact ⟨rfl, rfl, rfl, rfl, fun _ => rfl⟩
    | user =>
      refine ⟨rfl, rfl, rfl, rfl, fun t' => ?_⟩
      show (Function.update s.userprogVaddr t _ t').vaddrStart = _
      by_cases ht : t' = t
      · subst ht
        rw [Function.update_self]
        rfl
      · rw [Function.update_of_ne ht]
  | _ =>
    simp only [Act.exec] at h
    have hsame : s'.pde = s.pde ∧ s'.pte = s.pte ∧ s'.cr3 = s.cr3 ∧
        s'.kernelVaddr = s.kernelVaddr ∧ s'.userprogVaddr = s.userprogVaddr := by
      grind [Shared.setLock, Shared.setPool, Shared.setBitmap]
    obtain ⟨hpde, hpte, hcr3, hkernel, huser⟩ := hsame
    exact ⟨hpde, hpte, hcr3, by rw [hkernel], fun t => by rw [huser]⟩

theorem returns_assertCode {p : Prop} [Decidable p] {u : Unit}
    (h : Returns (alone (Act.runs t) (Code.assert p)) s u s') : s = s' := by
  simp only [Code.assert, returns_alone_bind, returns_alone_perform, returns_runs, Act.exec] at h
  obtain ⟨_, _, h, -, rfl⟩ := h
  split at h
  · exact (Prod.mk.inj (Option.some.inj h)).2
  · cases h

theorem keeps_assertCode {p : Prop} [Decidable p] :
    Keeps SameTables (alone (Act.runs t) (Code.assert p)) := by
  intro s u s' h
  obtain rfl := returns_assertCode h
  exact refl_of SameTables s

theorem keeps_scanByte {k : Nat} : Keeps SameTables (alone (Act.runs t) (Code.scanByte pf n k)) := by
  induction n generalizing k with
  | zero => exact keeps_alone_pure _
  | succ n ih =>
    apply keeps_alone_bind (keeps_alone_perform (keeps_runs rfl))
    intro full
    split
    · exact keeps_alone_pure _
    · exact ih

theorem keeps_scanBit {k j : Nat} : Keeps SameTables (alone (Act.runs t) (Code.scanBit pf k n j)) := by
  induction n generalizing j with
  | zero => exact keeps_alone_pure _
  | succ n ih =>
    apply keeps_alone_bind (keeps_alone_perform (keeps_runs rfl))
    intro set
    split
    · exact keeps_alone_pure _
    · exact ih

theorem keeps_palloc : Keeps SameTables (alone (Act.runs t) (Code.palloc pf)) := by
  apply keeps_alone_bind (keeps_alone_perform (keeps_runs rfl))
  intro _
  have hscan : Keeps SameTables (alone (Act.runs t) (Code.bitmapScan pf)) := by
    refine keeps_alone_bind (keeps_alone_perform (keeps_runs rfl)) fun len => ?_
    refine keeps_alone_bind keeps_scanByte fun idxByte => ?_
    refine keeps_alone_bind keeps_assertCode fun _ => ?_
    split
    · exact keeps_alone_pure _
    · exact keeps_alone_bind keeps_scanBit fun _ => keeps_alone_pure _
  apply keeps_alone_bind hscan
  intro r
  cases r with
  | none => exact keeps_alone_pure _
  | some i =>
    refine keeps_alone_bind (keeps_alone_perform (keeps_runs rfl)) fun _ => ?_
    exact keeps_alone_bind (keeps_alone_perform (keeps_runs rfl)) fun _ => keeps_alone_pure _

theorem keeps_setVaddrs {k : Nat} : Keeps SameTables (alone (Act.runs t) (Code.setVaddrs pf n k)) := by
  induction n generalizing k with
  | zero => exact keeps_alone_pure _
  | succ n ih => exact keeps_alone_bind (keeps_alone_perform (keeps_runs rfl)) fun _ => ih

/-! ## malloc_page -/

/-- Pages outside of `pages` are mapped as before. -/
structure MapsWithin (pages : Nat → Prop) (s s' : Shared) : Prop where
  cr3 : s'.cr3 = s.cr3
  walk : ∀ page, ¬ pages page → s'.walk page = s.walk page

theorem SameTables.mapsWithin {pages : Nat → Prop} (h : SameTables s s') : MapsWithin pages s s' :=
  ⟨h.cr3, fun page _ => h.walk page⟩

theorem MapsWithin.trans {pages : Nat → Prop} {s'' : Shared} (h : MapsWithin pages s s')
    (h' : MapsWithin pages s' s'') : MapsWithin pages s s'' :=
  ⟨h'.cr3.trans h.cr3, fun page hpage => (h'.walk page hpage).trans (h.walk page hpage)⟩

theorem MapsWithin.mono {pages pages' : Nat → Prop} (h : MapsWithin pages s s')
    (hsub : ∀ page, pages page → pages' page) : MapsWithin pages' s s' :=
  ⟨h.cr3, fun page hpage => h.walk page fun hp => hpage (hsub page hp)⟩

/-- An entry of a page table is stored. -/
def Shared.setPte (s : Shared) (vaddr w : Nat) : Shared :=
  let dir := s.dirOf (vaddr / 2 ^ 22)
  { s with pte := Function.update s.pte dir (Function.update (s.pte dir) (vaddr / pgSize) w) }

theorem Shared.pteAt_setPte_of_ne {w vaddr' : Nat} (h : vaddr' / pgSize ≠ vaddr / pgSize) :
    (s.setPte vaddr w).pteAt vaddr' = s.pteAt vaddr' := by
  show Function.update s.pte _ _ (s.dirOf (vaddr' / 2 ^ 22)) (vaddr' / pgSize) = _
  by_cases hdir : s.dirOf (vaddr' / 2 ^ 22) = s.dirOf (vaddr / 2 ^ 22)
  · rw [hdir, Function.update_self, Function.update_of_ne h, Shared.pteAt, hdir]
  · rw [Function.update_of_ne hdir, Shared.pteAt]

/-- The other pages of the page table are not touched. -/
theorem mapsWithin_setPte {w : Nat} : MapsWithin (· = vaddr / pgSize) s (s.setPte vaddr w) where
  cr3 := rfl
  walk := by
    intro page hpage
    have hne : page * pgSize / pgSize ≠ vaddr / pgSize := by
      rw [Nat.mul_div_cancel _ (by decide)]
      exact hpage
    rw [Shared.walk, Shared.walk, Shared.pteAt_setPte_of_ne hne]
    rfl

/-- A new page table is entered and cleared. -/
def Shared.newTable (s : Shared) (vaddr w : Nat) : Shared :=
  let dir := s.dirOf (vaddr / 2 ^ 22)
  let entries := fun page => if page / 1024 = vaddr / 2 ^ 22 then 0 else s.pte dir page
  { s with
    pde := Function.update s.pde dir (Function.update (s.pde dir) (vaddr / 2 ^ 22) w)
    pte := Function.update s.pte dir entries }

/-- The page table a page is in. -/
theorem region_page (page : Nat) : page * pgSize / 2 ^ 22 = page / 1024 := by
  show page * 4096 / 4194304 = page / 1024
  omega

/-- No page of the new page table was mapped before, and none is mapped by it yet. -/
theorem walk_newTable {w : Nat} (habsent : s.pdeAt vaddr % 2 ≠ 1) :
    (s.newTable vaddr w).walk page = s.walk page := by
  have hpage : page * pgSize / pgSize = page := Nat.mul_div_cancel _ (by decide)
  have hregion := region_page page
  have hpte : (s.newTable vaddr w).pteAt (page * pgSize) =
      Function.update s.pte (s.dirOf (vaddr / 2 ^ 22))
        (fun page => if page / 1024 = vaddr / 2 ^ 22 then 0 else s.pte (s.dirOf (vaddr / 2 ^ 22)) page)
        (s.dirOf (page / 1024)) page := by
    rw [Shared.pteAt, hpage, hregion]
    rfl
  have hpde : (s.newTable vaddr w).pdeAt (page * pgSize) =
      Function.update s.pde (s.dirOf (vaddr / 2 ^ 22))
        (Function.update (s.pde (s.dirOf (vaddr / 2 ^ 22))) (vaddr / 2 ^ 22) w)
        (s.dirOf (page / 1024)) (page / 1024) := by
    rw [Shared.pdeAt, hregion]
    rfl
  by_cases hsame : page / 1024 = vaddr / 2 ^ 22
  · have hbefore : s.walk page = none := by
      rw [Shared.walk, if_neg]
      rintro ⟨hpresent, -⟩
      rw [Shared.pdeAt, hregion, hsame] at hpresent
      exact habsent hpresent
    rw [hbefore, Shared.walk, if_neg]
    rintro ⟨-, hpresent⟩
    rw [hpte, hsame, Function.update_self, if_pos hsame] at hpresent
    cases hpresent
  · have h₁ : (s.newTable vaddr w).pdeAt (page * pgSize) = s.pdeAt (page * pgSize) := by
      rw [hpde, Shared.pdeAt, hregion]
      by_cases hdir : s.dirOf (page / 1024) = s.dirOf (vaddr / 2 ^ 22)
      · rw [hdir, Function.update_self, Function.update_of_ne hsame]
      · rw [Function.update_of_ne hdir]
    have h₂ : (s.newTable vaddr w).pteAt (page * pgSize) = s.pteAt (page * pgSize) := by
      rw [hpte, Shared.pteAt, hpage, hregion]
      by_cases hdir : s.dirOf (page / 1024) = s.dirOf (vaddr / 2 ^ 22)
      · rw [hdir, Function.update_self, if_neg hsame]
      · rw [Function.update_of_ne hdir]
    rw [Shared.walk, Shared.walk, h₁, h₂]

/-- `page_table_add` maps its page and no other. -/
theorem pageTableAdd_mapsWithin {frame : Nat}
    (h : Returns (alone (Act.runs t) (Code.pageTableAdd vaddr frame)) s () s') :
    MapsWithin (· = vaddr / pgSize) s s' := by
  simp only [Code.pageTableAdd, returns_alone_bind, returns_alone_perform, returns_runs, Act.exec,
    Option.some.injEq, Prod.mk.injEq] at h
  obtain ⟨_, _, ⟨rfl, rfl⟩, h⟩ := h
  split at h
  · simp only [returns_alone_bind, returns_alone_perform, returns_runs, Act.exec,
      Option.some.injEq, Prod.mk.injEq] at h
    obtain ⟨_, _, ⟨rfl, rfl⟩, h⟩ := h
    split at h
    · simp only [returns_alone_bind, returns_alone_perform, returns_runs, Act.exec,
        Option.some.injEq, Prod.mk.injEq, returns_alone_pure] at h
      obtain ⟨_, _, ⟨-, rfl⟩, -, rfl⟩ := h
      exact mapsWithin_setPte
    · exact (keeps_assertCode h).mapsWithin
  · next habsent =>
    simp only [returns_alone_bind] at h
    obtain ⟨frame', s₁, hpalloc, h⟩ := h
    have hsame := keeps_palloc hpalloc
    simp only [returns_alone_perform, returns_runs, Act.exec, Option.some.injEq, Prod.mk.injEq] at h
    obtain ⟨_, _, ⟨-, rfl⟩, _, _, ⟨-, rfl⟩, _, _, ⟨-, rfl⟩, _, s₂, hassert, _, _, ⟨-, rfl⟩, h⟩ := h
    obtain ⟨-, rfl⟩ := returns_alone_pure.mp h
    have hnew : MapsWithin (· = vaddr / pgSize) s₁
        (s₁.newTable vaddr (Code.entry (frame'.getD 0))) := by
      refine ⟨rfl, fun page _ => walk_newTable ?_⟩
      rw [hsame.pdeAt]
      omega
    exact ((hsame.mapsWithin.trans hnew).trans (keeps_assertCode hassert).mapsWithin).trans
      mapsWithin_setPte

/-- The pages `malloc_page` maps: `n` from `vaddr` on. -/
def PagesFrom (vaddr n page : Nat) : Prop := ∃ k < n, page = (vaddr + k * pgSize) / pgSize

theorem mapPages_mapsWithin {b : Bool} (h : Returns (alone (Act.runs t) (Code.mapPages pf n vaddr)) s b s') :
    MapsWithin (PagesFrom vaddr n) s s' := by
  induction n generalizing s vaddr with
  | zero =>
    obtain ⟨-, rfl⟩ := returns_alone_pure.mp h
    exact SameTables.mapsWithin (refl_of SameTables s)
  | succ n ih =>
    simp only [Code.mapPages, returns_alone_bind] at h
    obtain ⟨frame, s₁, hpalloc, h⟩ := h
    have hsame := keeps_palloc hpalloc
    cases frame with
    | none =>
      obtain ⟨-, rfl⟩ := returns_alone_pure.mp h
      exact hsame.mapsWithin
    | some frame =>
      simp only [returns_alone_bind] at h
      obtain ⟨_, s₂, hadd, hrest⟩ := h
      have hfirst : MapsWithin (PagesFrom vaddr (n + 1)) s₁ s₂ := (pageTableAdd_mapsWithin hadd).mono (by
        rintro page rfl
        exact ⟨0, Nat.succ_pos n, by rw [Nat.zero_mul, Nat.add_zero]⟩)
      have hothers : MapsWithin (PagesFrom vaddr (n + 1)) s₂ s' := (ih hrest).mono (by
        rintro page ⟨k, hk, rfl⟩
        refine ⟨k + 1, Nat.succ_lt_succ hk, ?_⟩
        rw [Nat.succ_mul, Nat.add_assoc, Nat.add_comm pgSize])
      exact (hsame.mapsWithin.trans hfirst).trans hothers

end Tables

namespace Mmu

section Steps

variable {d d' : Mmu} {pf : PoolFlag} {n vaddr : Nat}

theorem returns_onShared {α : Type} {code : Code α} {a : α} :
    Returns (onShared code) d a d' ↔
      ∃ s, Returns (alone (Act.runs d.cur) code) d.shared a s ∧ d' = d.setShared s := by
  simp only [Returns, onShared]
  split
  · next b s h =>
    rw [h]
    simp only [Except.ok.injEq, Prod.mk.injEq]
    constructor
    · rintro ⟨rfl, rfl⟩
      exact ⟨s, ⟨rfl, rfl⟩, rfl⟩
    · rintro ⟨s', ⟨rfl, rfl⟩, rfl⟩
      exact ⟨rfl, rfl⟩
  · next e h =>
    rw [h]
    simp

/-- `malloc_page` maps pages from `nextPages` on and touches no translation. -/
theorem mallocPage_walk {r : Option Nat} (h : Returns (mallocPage pf n) d r d') :
    d'.tlb = d.tlb ∧ ∀ page, d'.shared.walk page = d.shared.walk page ∨
      ∃ vaddr, d.nextPages pf n = some vaddr ∧ PagesFrom vaddr n page := by
  obtain ⟨s, hcode, rfl⟩ := returns_onShared.mp h
  refine ⟨rfl, fun page => ?_⟩
  show s.walk page = _ ∨ _
  simp only [Code.mallocPage, Code.vaddrGet, returns_alone_bind, returns_alone_perform, returns_runs,
    Act.exec] at hcode
  obtain ⟨_, s₁, hassert, vaddr, s₂, ⟨scan, s₃, hscan, hget⟩, hcode⟩ := hcode
  obtain rfl := returns_assertCode hassert
  have hnone (h : s₂ = d.shared) (hv : vaddr = none) : s.walk page = d.shared.walk page := by
    subst hv
    obtain ⟨-, hs⟩ := returns_alone_pure.mp hcode
    rw [← hs, h]
  split at hscan
  · cases hscan
  · -- no run of free addresses is left
    simp only [Option.some.injEq, Prod.mk.injEq] at hscan
    obtain ⟨rfl, rfl⟩ := hscan
    obtain ⟨rfl, rfl⟩ := returns_alone_pure.mp hget
    exact Or.inl (hnone rfl rfl)
  · next i hfree =>
    simp only [Option.some.injEq, Prod.mk.injEq] at hscan
    obtain ⟨rfl, rfl⟩ := hscan
    rw [if_neg (Nat.succ_ne_zero i)] at hget
    simp only [returns_alone_bind, returns_alone_perform, returns_runs, Act.exec, Option.some.injEq,
      Prod.mk.injEq, Nat.add_sub_cancel] at hget
    obtain ⟨_, s₁, hset, start, _, ⟨rfl, rfl⟩, hget⟩ := hget
    have hsame := keeps_setVaddrs hset
    have hnext : d.nextPages pf n =
        some ((s₁.vaddrPool d.cur pf).vaddrStart + i * pgSize) := by
      rw [hsame.start, nextPages, hfree]
    -- the pages that are mapped are those of the run
    have hmapped (hs : s₁ = s₂)
        (hv : vaddr = some ((s₁.vaddrPool d.cur pf).vaddrStart + i * pgSize)) :
        s.walk page = d.shared.walk page ∨
          ∃ vaddr, d.nextPages pf n = some vaddr ∧ PagesFrom vaddr n page := by
      subst hs
      subst hv
      simp only [returns_alone_bind] at hcode
      obtain ⟨b, s₂, hmap, hcode⟩ := hcode
      have hwithin := hsame.mapsWithin.trans (mapPages_mapsWithin hmap)
      have hs₂ : s = s₂ := by
        split at hcode
        · exact (returns_alone_pure.mp hcode).2.symm
        · exact (returns_alone_pure.mp hcode).2.symm
      rw [hs₂]
      by_cases hpage : PagesFrom ((s₁.vaddrPool d.cur pf).vaddrStart + i * pgSize) n page
      · exact Or.inr ⟨_, hnext, hpage⟩
      · exact Or.inl (hwithin.walk page hpage)
    cases pf with
    | kernel =>
      obtain ⟨hv, hs⟩ := returns_alone_pure.mp hget
      exact hmapped hs hv.symm
    | user =>
      simp only [returns_alone_bind] at hget
      obtain ⟨_, s₃, hassert', hget⟩ := hget
      obtain rfl := returns_assertCode hassert'
      obtain ⟨hv, hs⟩ := returns_alone_pure.mp hget
      exact hmapped hs hv.symm

/-- No translation is kept and no page mapped that was not before. -/
structure Forgets (d d' : Mmu) : Prop where
  tlb : ∀ page frame, d'.tlb page = some frame → d.tlb page = some frame
  walk : ∀ page frame, d'.shared.walk page = some frame → d.shared.walk page = some frame

instance : Std.Refl Forgets := ⟨fun _ => ⟨fun _ _ h => h, fun _ _ h => h⟩⟩

instance : IsTrans Mmu Forgets := ⟨fun _ _ _ h h' =>
  ⟨fun page frame hk => h.tlb page frame (h'.tlb page frame hk),
    fun page frame hw => h.walk page frame (h'.walk page frame hw)⟩⟩

theorem forgets_setShared {s : Shared} (h : SameTables d.shared s) : Forgets d (d.setShared s) :=
  ⟨fun _ _ hk => hk, fun page frame hw => by rw [← h.walk page]; exact hw⟩

theorem keeps_readPte : Keeps Forgets (readPte vaddr) :=
  (keeps_query _).bind fun _ => (keeps_require _).bind fun _ => keeps_pure _

theorem keeps_addrV2p : Keeps Forgets (addrV2p vaddr) := keeps_readPte.bind fun _ => keeps_pure _

theorem keeps_pfree {a : Nat} : Keeps Forgets (pfree a) := by
  refine (keeps_query _).bind fun d => keeps_update fun d => forgets_setShared ?_
  exact ⟨rfl, rfl, rfl, rfl, fun _ => rfl⟩

/-- An entry that is not present maps nothing. -/
theorem walk_setPte_even {s : Shared} {w page frame : Nat} (hw : w % 2 = 0)
    (h : (s.setPte vaddr w).walk page = some frame) : s.walk page = some frame := by
  by_cases hpage : page = vaddr / pgSize
  · have hpte : (s.setPte vaddr w).pteAt (page * pgSize) = w := by
      have hself : page * pgSize / pgSize = vaddr / pgSize := by
        rw [Nat.mul_div_cancel _ (by decide), hpage]
      have hregion : page * pgSize / 2 ^ 22 = vaddr / 2 ^ 22 := by
        rw [region_page, hpage, Nat.div_div_eq_div_mul]
        rfl
      show Function.update s.pte _ _ (s.dirOf (page * pgSize / 2 ^ 22)) (page * pgSize / pgSize) = w
      rw [hregion, hself, Function.update_self, Function.update_self]
    rw [Shared.walk, hpte, if_neg (by omega)] at h
    cases h
  · rw [← mapsWithin_setPte.walk page hpage]
    exact h

theorem keeps_pageTablePteRemove : Keeps Forgets (pageTablePteRemove vaddr) := by
  refine keeps_readPte.bind fun pte => ?_
  intro d u d' h
  simp only [invlpgStack, returns_bind, returns_query, returns_update] at h
  obtain ⟨_, _, ⟨rfl, rfl⟩, _, _, rfl, rfl⟩ := h
  constructor
  · intro page frame hk
    by_cases hpage : page = d.cur / pgSize
    · subst hpage
      have hnone : Function.update d.tlb (d.cur / pgSize) none (d.cur / pgSize) = some frame := hk
      rw [Function.update_self] at hnone
      cases hnone
    · have hkept : Function.update d.tlb (d.cur / pgSize) none page = some frame := hk
      rw [Function.update_of_ne hpage] at hkept
      exact hkept
  · exact fun page frame hw => walk_setPte_even (by omega) hw

theorem keeps_vaddrRemoveLoop {k : Nat} : Keeps Forgets (vaddrRemoveLoop pf n k) := by
  induction n generalizing k with
  | zero => exact keeps_pure _
  | succ n ih =>
    refine (keeps_query _).bind fun d => Keeps.bind (keeps_update fun d' => ?_) fun _ => ih
    cases pf with
    | kernel => exact ⟨fun _ _ hk => hk, fun _ _ hw => hw⟩
    | user => exact ⟨fun _ _ hk => hk, fun _ _ hw => hw⟩

theorem keeps_mfreeLoop : Keeps Forgets (mfreeLoop pf n vaddr) := by
  induction n generalizing vaddr with
  | zero => exact keeps_pure _
  | succ n ih =>
    refine keeps_addrV2p.bind fun a => (keeps_query _).bind fun d => (keeps_assert _).bind fun _ => ?_
    cases pf with
    | kernel =>
      exact (keeps_assert _).bind fun _ => keeps_pfree.bind fun _ =>
        keeps_pageTablePteRemove.bind fun _ => ih
    | user =>
      exact (keeps_assert _).bind fun _ => keeps_pfree.bind fun _ =>
        keeps_pageTablePteRemove.bind fun _ => ih

theorem keeps_mfreePage : Keeps Forgets (mfreePage pf vaddr n) := by
  refine (keeps_assert _).bind fun _ => keeps_addrV2p.bind fun a => (keeps_assert _).bind fun _ => ?_
  refine (keeps_query _).bind fun d => (keeps_assert _).bind fun _ => keeps_mfreeLoop.bind fun _ => ?_
  exact (keeps_query _).bind fun d => keeps_vaddrRemoveLoop

/-! ## Runs -/

theorem step_coherent {e : Event} (h : d.Coherent) (htakes : d.TakesForgotten e)
    (hstep : d.Step e d') : d'.Coherent := by
  intro page frame frame' hkept hwalk
  cases e with
  | malloc pf n =>
    obtain ⟨r, hret⟩ := hstep
    obtain ⟨htlb, hpages⟩ := mallocPage_walk hret
    rw [htlb] at hkept
    rcases hpages page with hsame | ⟨vaddr, hnext, k, hk, rfl⟩
    · rw [hsame] at hwalk
      exact h page frame frame' hkept hwalk
    · -- the page has just been mapped
      rw [htakes vaddr hnext k hk] at hkept
      cases hkept
  | mfree pf vaddr n =>
    have hforgets := keeps_mfreePage hstep
    exact h page frame frame' (hforgets.tlb page frame hkept) (hforgets.walk page frame' hwalk)
  | access page' frame'' kept =>
    rcases hstep with ⟨-, rfl⟩ | ⟨hnone, hentry, rfl⟩
    · exact h page frame frame' hkept hwalk
    · cases kept with
      | false => exact h page frame frame' hkept hwalk
      | true =>
        have hkept' : Function.update d.tlb page' (some frame'') page = some frame := hkept
        have hwalk' : d.shared.walk page = some frame' := hwalk
        by_cases hpage : page = page'
        · rw [hpage, Function.update_self] at hkept'
          rw [hpage, hentry] at hwalk'
          exact (Option.some.inj hkept').symm.trans (Option.some.inj hwalk')
        · rw [Function.update_of_ne hpage] at hkept'
          exact h page frame frame' hkept' hwalk'
  | switch t =>
    rw [hstep] at hkept
    cases hkept
  | activate dir =>
    rw [hstep] at hkept
    cases hkept

end Steps

end Mmu

/-- A page that is mapped is used through the frame of its entry, whatever it was mapped
    to before. -/
theorem accesses_current (d₀ d : Mmu) (h₀ : ∀ page, d₀.tlb page = none)
    (hrun : Mmu.Run Mmu.TakesForgotten d₀ d) (page frame frame' : Nat) (kept : Bool) (d' : Mmu)
    (huse : d.Step (.access page frame kept) d') (hmapped : d.shared.walk page = some frame') :
    frame = frame' := by
  have hcoherent : d.Coherent := by
    refine hrun.invariant ?_ fun d e d' h htakes hstep => Mmu.step_coherent h htakes hstep
    intro page frame frame' hkept
    rw [h₀ page] at hkept
    cases hkept
  rcases huse with ⟨hkept, -⟩ | ⟨-, hentry, -⟩
  · exact hcoherent page frame frame' hkept hmapped
  · exact Option.some.inj (hentry.symm.trans hmapped)

/-! ## Runs that are computed -/

namespace Mmu

/-- The event `e`, computed. -/
def after? (d : Mmu) : Event → Option Mmu
  | .malloc pf pageCount => (mallocPage pf pageCount).final? d
  | .mfree pf vaddr pgCnt => (mfreePage pf vaddr pgCnt).final? d
  | .access page frame kept =>
    if d.tlb page = some frame then some d
    else if d.tlb page = none ∧ d.shared.walk page = some frame then
      some (if kept then { d with tlb := Function.update d.tlb page (some frame) } else d)
    else none
  | .switch t => some (d.loadCr3 t ((d.shared.pgdir t).getD kernelPageDir))
  | .activate dir => some (d.loadCr3 d.cur dir)

theorem step_of_after? {d d' : Mmu} {e : Event} (h : d.after? e = some d') : d.Step e d' := by
  cases e with
  | malloc pf n => exact final?_eq_some.mp h
  | mfree pf vaddr n =>
    obtain ⟨_, hret⟩ := final?_eq_some.mp h
    exact hret
  | access page frame kept =>
    simp only [after?] at h
    split at h
    · next hkept => exact Or.inl ⟨hkept, (Option.some.inj h).symm⟩
    · split at h
      · next hentry => exact Or.inr ⟨hentry.1, hentry.2, (Option.some.inj h).symm⟩
      · cases h
  | switch t => exact (Option.some.inj h).symm
  | activate dir => exact (Option.some.inj h).symm

end Mmu

/-- A kernel thread runs; both pools have eight frames, the addresses eight pages each,
    and the kernel's page tables are there. -/
def freshMmu : Mmu where
  shared :=
    { pool := fun pf =>
        { poolBitmap := { btmpBytesLen := 1, bit := fun _ => false }
          phyAddrStart := match pf with
            | .kernel => 0x200000
            | .user => 0x208000
          poolSize := 0x8000
          lock := {} }
      kernelVaddr := { vaddrBitmap := { btmpBytesLen := 1, bit := fun _ => false }, vaddrStart := 0xc0100000 }
      userprogVaddr := fun _ =>
        { vaddrBitmap := { btmpBytesLen := 1, bit := fun _ => false }, vaddrStart := 0x8048000 }
      pgdir := fun _ => none
      cr3 := kernelPageDir
      pde := fun _ i => if 768 ≤ i then 0x101007 else 0
      pte := fun _ _ => 0
      blocked := fun _ => false }
  cur := 0xc009e000
  tlb := fun _ => none

/-- The first page of the kernel's heap is mapped and used. -/
theorem accesses_current_page : ∃ d : Mmu, d.shared.walk 0xc0100 = some 0x200 ∧
    ∀ frame kept d', d.Step (.access 0xc0100 frame kept) d' → frame = 0x200 := by
  have hend : (freshMmu.after? (.malloc .kernel 1)).map (fun d => d.shared.walk 0xc0100) =
      some (some 0x200) := by
    decide +kernel
  obtain ⟨d, hd, hwalk⟩ := Option.map_eq_some_iff.mp hend
  have hrun : Mmu.Run Mmu.TakesForgotten freshMmu d :=
    .next (.malloc .kernel 1) .start (fun _ _ _ _ => rfl) (Mmu.step_of_after? hd)
  exact ⟨d, hwalk, fun frame kept d' huse =>
    accesses_current freshMmu d (fun _ => rfl) hrun 0xc0100 frame 0x200 kept d' huse hwalk⟩

/-- A page is mapped, used and given back; its frame becomes a page table, the page is
    mapped to another one, and used through the old translation. -/
theorem access_through_stale_translation : ∃ d d' : Mmu, Mmu.Run (fun _ _ => True) freshMmu d ∧
    d.Step (.access 0xc0100 0x200 false) d' ∧ d.shared.walk 0xc0100 = some 0x201 := by
  have hend : ([.malloc .kernel 1, .access 0xc0100 0x200 true, .mfree .kernel 0xc0100000 1,
      .malloc .user 1, .malloc .kernel 1].foldlM Mmu.after? freshMmu).map
        (fun d => (d.tlb 0xc0100, d.shared.walk 0xc0100)) = some (some 0x200, some 0x201) := by
    decide +kernel
  obtain ⟨d, hd, hval⟩ := Option.map_eq_some_iff.mp hend
  obtain ⟨hkept, hwalk⟩ := Prod.mk.inj hval
  exact ⟨d, d, .of_foldlM (fun _ _ _ h => ⟨trivial, Mmu.step_of_after? h⟩) hd, Or.inl ⟨hkept, rfl⟩, hwalk⟩

end ZxyOs
