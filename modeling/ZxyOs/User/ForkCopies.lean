/-
  ZxyOs.User.ForkCopies

  `copy_block_stack3` makes the address space of the child a copy of the parent's
  (`user/fork.c`).

  A page goes through a page of the kernel that both directories map.  In between the child's
  directory is the active one, and the frame and the table for the page are installed there
  (`Shared.mapIn`).  `Copied` is what holds after the first `k` bits of the bitmap: both
  directories, the one that is active, and what is still free for the bits that are left.
-/

import ZxyOs.User.ForkFails

namespace ZxyOs

open Lib Lib.Exec Lib.Prog

/-! ## One more page -/

namespace Shared

/-- What page `page` is mapped to in the page directory `dir`. -/
def walkIn (s : Shared) (dir page : Nat) : Option Nat := ({ s with cr3 := dir } : Shared).walk page

/-- The page of `vaddr`, a user's, is mapped in the directory `dir`, with bit `b` of the pool of
    users; the thread `t` still gets the lock of the pool. -/
structure MapsPage (s s' : Shared) (t dir vaddr b : Nat) : Prop where
  cr3 : s'.cr3 = s.cr3
  userprogVaddr : s'.userprogVaddr = s.userprogVaddr
  tables : ∀ d, d ≠ dir → s'.pde d = s.pde d ∧ s'.pte d = s.pte d
  self : s'.walkIn dir (vaddr / pgSize) = some (b + (s.pool .user).phyAddrStart / pgSize)
  others : ∀ page, page ≠ vaddr / pgSize → s'.walkIn dir page = s.walkIn dir page
  missing : ∀ i < 768, s'.pde dir i % 2 = 0 ↔ s.pde dir i % 2 = 0 ∧ i ≠ vaddr / 2 ^ 22
  user : s'.bitmap .user = (s.bitmap .user).bitmapSet b true
  kernel : (s'.bitmap .kernel).free + (if s.pde dir (vaddr / 2 ^ 22) % 2 = 0 then 1 else 0) = (s.bitmap .kernel).free
  start : (s'.pool .user).phyAddrStart = (s.pool .user).phyAddrStart
  gets : s'.Gets t .user
  waiters : (s'.lock .user).waiters.Nodup

end Shared

section MapsPage

variable {s s' : Shared} {t dir vaddr frame page b j : Nat}

theorem entry_frame {w : Nat} : Code.entry w / pgSize = w / pgSize := by
  show (w ||| 7) / 2 ^ 12 = w / 2 ^ 12
  rw [Nat.or_div_two_pow]
  exact Nat.or_zero _

theorem pteAt_setPte {w : Nat} : (s.setPte vaddr w).pteAt vaddr = w := by
  show Function.update s.pte (s.dirOf (vaddr / 2 ^ 22)) (Function.update (s.pte (s.dirOf (vaddr / 2 ^ 22)))
    (vaddr / pgSize) w) (s.dirOf (vaddr / 2 ^ 22)) (vaddr / pgSize) = w
  rw [Function.update_self, Function.update_self]

/-- Only the tables change, and the bitmap of the kernel. -/
theorem addPage_same : (s.addPage vaddr frame j).cr3 = s.cr3 ∧
    (s.addPage vaddr frame j).userprogVaddr = s.userprogVaddr ∧
    (s.addPage vaddr frame j).blocked = s.blocked ∧
    (s.addPage vaddr frame j).pool .user = s.pool .user := by
  rw [Shared.addPage]
  split
  · refine ⟨rfl, rfl, rfl, ?_⟩
    simp [Shared.setPte, Shared.newTable, Shared.takeBit, Shared.setBitmap, Shared.setPool]
  · exact ⟨rfl, rfl, rfl, rfl⟩

theorem dirOf_addPage {i : Nat} : (s.addPage vaddr frame j).dirOf i = s.dirOf i := by
  rw [Shared.dirOf, addPage_same.1, Shared.dirOf]

/-- The page is mapped to its frame. -/
theorem walk_addPage_self : (s.addPage vaddr frame j).walk (vaddr / pgSize) = some (frame / pgSize) := by
  have hentry : (s.addPage vaddr frame j).pteAt vaddr = Code.entry frame := by
    rw [Shared.addPage]
    split <;> exact pteAt_setPte
  have hpresent : (s.addPage vaddr frame j).pdeAt vaddr % 2 = 1 := by
    have hmissing := (@missing_addPage s _ frame j (vaddr / 2 ^ 22)).not.mpr
      fun h => h.2 rfl
    rw [Shared.pdeAt, dirOf_addPage]
    omega
  rw [walk_div, if_pos ⟨hpresent, by rw [hentry, entry_odd]⟩, hentry, entry_frame]

/-- The tables of another directory stay. -/
theorem tables_addPage (hdir : dir ≠ s.dirOf (vaddr / 2 ^ 22)) :
    (s.addPage vaddr frame j).pde dir = s.pde dir ∧ (s.addPage vaddr frame j).pte dir = s.pte dir := by
  rw [Shared.addPage]
  split
  · exact ⟨Function.update_of_ne hdir _ _, (Function.update_of_ne hdir _ _).trans (Function.update_of_ne hdir _ _)⟩
  · exact ⟨rfl, Function.update_of_ne hdir _ _⟩

/-- `get_a_page_without_opvaddrbitmap` for a page that is not mapped, with a frame for it and one
    for its table. -/
theorem returns_getAPage (hgets : s.Gets t .user) (hwaiters : (s.lock .user).waiters.Nodup)
    (hlow : vaddr < 0xc0000000) (hunmapped : s.walk (vaddr / pgSize) = none) (hb : (s.bitmap .user).IsFirstClear b)
    (hj : s.pdeAt vaddr % 2 = 0 → (s.bitmap .kernel).IsFirstClear j) :
    ∃ s', Returns (alone (Act.runs t) (Code.getAPageWithoutOpvaddrbitmap .user vaddr)) s () s' ∧
      s.MapsPage s' t s.cr3 vaddr b := by
  let l := s.lock .user
  let s₁ := s.setLock .user (l.takenBy t)
  have hlock : l.holder = some t ∨ l.holderRepeatNr = 0 ∧ l.value = 1 := by
    rcases hgets with ⟨hself, -⟩ | ⟨-, hnr, hvalue, -⟩
    · exact Or.inl hself
    · exact Or.inr ⟨hnr, hvalue⟩
  have hacquire : Returns (alone (Act.runs t) (Code.lockAcquire .user)) s () s₁ := by
    have h := @returns_lockAcquire s _ .user _ hlock
    rwa [setLock_lock] at h
  have hbitmap (q : PoolFlag) : s₁.bitmap q = s.bitmap q := bitmap_setLock q
  have hstart : (s₁.pool .user).phyAddrStart = (s.pool .user).phyAddrStart := by
    simp [s₁, Shared.setLock, Shared.setPool]
  let frame := b * pgSize + (s.pool .user).phyAddrStart
  let s₂ := s₁.takeBit .user b
  let s₃ := s₂.addPage vaddr frame j
  have hpalloc : Returns (alone (Act.runs t) (Code.palloc .user)) s₁ (some frame) s₂ := by
    have h := returns_poolPalloc (s := s₁) (t := t) (i := b) (by rwa [hbitmap])
    rwa [hstart] at h
  have hkernel : s₂.bitmap .kernel = s.bitmap .kernel := by
    rw [← hbitmap]
    simp [s₂, Shared.takeBit, Shared.setBitmap, Shared.setPool, Shared.bitmap]
  have hadd : Returns (alone (Act.runs t) (Code.pageTableAdd vaddr frame)) s₂ () s₃ :=
    returns_pageTableAdd hunmapped fun habsent => hkernel ▸ hj habsent
  -- the release
  obtain ⟨hcr3, huserprog, hblocked, hpool⟩ := addPage_same (s := s₂) (j := j)
  have hlock₃ : s₃.lock .user = l.takenBy t := by
    rw [Shared.lock, hpool]
    simp [s₂, s₁, Shared.takeBit, Shared.setBitmap, Shared.setLock, Shared.setPool, Shared.bitmap]
  have hgets₃ : l.holder = some t ∧ 0 < l.holderRepeatNr ∨ l.holder = none ∧ l.holderRepeatNr = 0 ∧ l.value = 1 ∧
      ∀ w ∈ l.waiters, s₃.blocked w = true := by
    rw [hblocked]
    exact hgets
  obtain ⟨l', blocked, hrelease, hholder, hnr, hvalue, hleft⟩ := returns_lockRelease hgets₃
  obtain ⟨hnodup, hwait⟩ := hleft hwaiters
  rw [← hlock₃, setLock_lock] at hrelease
  let s₄ : Shared := { s₃.setLock .user l' with blocked := blocked }
  have hlock₄ : s₄.lock .user = l' := lock_setLock
  have hbits (q : PoolFlag) : s₄.bitmap q = s₃.bitmap q := bitmap_setLock q
  refine ⟨s₄, ?_, ?_⟩
  · rw [Code.getAPageWithoutOpvaddrbitmap, returns_alone_iff hacquire, returns_alone_iff hpalloc]
    exact (returns_alone_iff hadd).mpr hrelease
  · have hdir {i : Nat} (hi : i < 768) : s.dirOf i = s.cr3 := if_pos hi
    have hregion : vaddr / 2 ^ 22 < 768 := by omega
    have hwalk (page : Nat) : s₄.walkIn s.cr3 page = s₃.walk page := by
      rw [show s.cr3 = s₃.cr3 from hcr3.symm]
      rfl
    have hframe : frame / pgSize = b + (s.pool .user).phyAddrStart / pgSize := by
      simp only [frame, pgSize]
      omega
    exact
      { cr3 := hcr3
        userprogVaddr := huserprog
        tables := fun d hd => tables_addPage (s := s₂) fun heq => hd (heq.trans (hdir hregion))
        self := by rw [hwalk, walk_addPage_self, hframe]
        others := fun page hpage => (hwalk page).trans (walk_addPage hpage)
        missing := fun i hi => by
          have h := @missing_addPage s₂ vaddr frame j i
          rwa [show s₂.dirOf i = s.cr3 from hdir hi] at h
        user := by
          rw [hbits, Shared.bitmap, hpool, ← hbitmap .user]
          simp [s₂, Shared.takeBit, Shared.setBitmap, Shared.setPool, Shared.bitmap]
        kernel := by
          have h := @free_addPage s₂ _ frame j
            (fun habsent => hkernel ▸ hj habsent) .kernel
          have hpde : s₂.pdeAt vaddr = s.pde s.cr3 (vaddr / 2 ^ 22) := by
            rw [← hdir hregion]
            rfl
          rw [hpde, hkernel] at h
          simpa only [hbits, true_and] using h
        start := by
          have h : (s₄.pool .user).phyAddrStart = (s₃.pool .user).phyAddrStart := by
            simp [s₄, Shared.setLock, Shared.setPool]
          rw [h, hpool, ← hstart]
          simp [s₂, Shared.takeBit, Shared.setBitmap, Shared.setPool]
        gets := by
          rw [Shared.Gets, hlock₄, hholder, hnr, hvalue]
          rcases hgets with hself | ⟨hnone, hzero, hone, -⟩
          · exact Or.inl hself
          · refine Or.inr ⟨hnone, hzero, hone, hwait ?_⟩
            rw [show l.holder = none from hnone]
            rintro ⟨⟩
        waiters := by
          rw [hlock₄]
          exact hnodup }

end MapsPage

namespace ForkState

/-! ## memcpy -/

section Memcpy

variable {s : ForkState} {n o p q f g : Nat}

/-- The bytes from `o` to `o + n` of frame `f` in frame `g`. -/
def copyBytesFrom (s : ForkState) (f g o n : Nat) : ForkState :=
  { s with page := fun h i => if h = g ∧ o ≤ i ∧ i < o + n then s.page f i else s.page h i }

theorem returns_memcpyLoop (hsrc : s.shared.walk p = some f) (hdst : s.shared.walk q = some g) (hne : f ≠ g)
    (hin : o + n ≤ pgSize) :
    Returns (memcpyLoop n (q * pgSize + o) (p * pgSize + o)) s () (s.copyBytesFrom f g o n) := by
  induction n generalizing s o with
  | zero =>
    refine returns_pure.mpr ⟨rfl, ?_⟩
    have hnone (i : Nat) : ¬ (o ≤ i ∧ i < o + 0) := by omega
    simp only [copyBytesFrom, hnone, and_false, if_false]
  | succ n ih =>
    have hpage (x : Nat) : (x * pgSize + o) / pgSize = x ∧ (x * pgSize + o) % pgSize = o := by
      simp only [pgSize] at hin ⊢
      omega
    have hload : Returns (loadByte (p * pgSize + o)) s (s.page f o) s := by
      simp only [loadByte, returns_bind, returns_query, returns_deref, returns_pure, hpage]
      exact ⟨s, s, ⟨rfl, rfl⟩, f, s, ⟨hsrc, rfl⟩, rfl, rfl⟩
    have hstore : Returns (storeByte (q * pgSize + o) (s.page f o)) s () (s.setByte g o (s.page f o)) := by
      simp only [storeByte, returns_bind, returns_query, returns_deref, returns_update, hpage]
      exact ⟨s, s, ⟨rfl, rfl⟩, g, s, ⟨hdst, rfl⟩, rfl⟩
    rw [memcpyLoop, returns_bind_iff hload, returns_bind_iff hstore]
    have hrest := ih (s := s.setByte g o (s.page f o)) (o := o + 1) hsrc hdst (by omega)
    have hall : (s.setByte g o (s.page f o)).copyBytesFrom f g (o + 1) n = s.copyBytesFrom f g o (n + 1) := by
      refine congrArg (fun page => ({ s with page := page } : ForkState)) (funext fun h => funext fun i => ?_)
      simp only [setByte, Function.update_of_ne hne]
      by_cases hg : h = g
      · subst hg
        rw [Function.update_self]
        by_cases hi : i = o
        · subst hi
          rw [Function.update_self, if_neg (by omega), if_pos ⟨rfl, by omega, by omega⟩]
        · rw [Function.update_of_ne hi]
          exact if_congr (by omega) rfl rfl
      · rw [Function.update_of_ne hg, if_neg fun hin => hg hin.1, if_neg fun hin => hg hin.1]
    rw [hall, ← Nat.add_assoc, ← Nat.add_assoc] at hrest
    exact hrest

/-- A page through `memcpy`. -/
theorem returns_memcpyPage {dst src : Nat} (hdst : 0 < dst ∧ dst % pgSize = 0) (hsrc : 0 < src ∧ src % pgSize = 0)
    (hfrom : s.shared.walk (src / pgSize) = some f) (hto : s.shared.walk (dst / pgSize) = some g) (hne : f ≠ g) :
    Returns (memcpy dst src pgSize) s () (s.copyBytesFrom f g 0 pgSize) := by
  have hassert : Returns (assert (dst ≠ 0 ∧ src ≠ 0)) s () s := (returns_assert _ ()).mpr ⟨⟨by omega, by omega⟩, rfl⟩
  have hloop := returns_memcpyLoop (o := 0) hfrom hto hne (Nat.le_of_eq (Nat.zero_add pgSize))
  have haligned {x : Nat} (hx : x % pgSize = 0) : x / pgSize * pgSize + 0 = x :=
    (Nat.add_zero _).trans (Nat.div_mul_cancel (Nat.dvd_of_mod_eq_zero hx))
  rw [haligned hdst.2, haligned hsrc.2] at hloop
  rw [memcpy, returns_bind_iff hassert]
  exact hloop

end Memcpy

/-! ## The page directories -/

section Directories

variable {s s' : ForkState} {t dir : Nat}

/-- The physical address of the page directory of `t` is `dir`. -/
def HasDir (s : ForkState) (t dir : Nat) : Prop :=
  match (s.pcb t).pgdir with
  | none => dir = kernelPageDir
  | some pgdir => 0xc0000000 ≤ pgdir ∧ s.shared.pdeAt pgdir % 2 = 1 ∧
      s.shared.pteAt pgdir / pgSize * pgSize + pgdir % pgSize = dir

/-- Another page directory is active. -/
def withCr3 (s : ForkState) (dir : Nat) : ForkState := { s with shared := { s.shared with cr3 := dir } }

theorem returns_pageDirActivate (h : s.HasDir t dir) : Returns (pageDirActivate t) s () (s.withCr3 dir) := by
  have hquery : Returns (query id) s s s := (returns_query _).mpr ⟨rfl, rfl⟩
  rw [pageDirActivate, returns_bind_iff hquery]
  unfold HasDir at h
  cases hpgdir : (s.pcb t).pgdir with
  | none =>
    rw [hpgdir] at h
    subst h
    exact returns_bind.mpr ⟨kernelPageDir, s, returns_pure.mpr ⟨rfl, rfl⟩, (returns_update _ _).mpr rfl⟩
  | some pgdir =>
    rw [hpgdir] at h
    obtain ⟨-, hpresent, rfl⟩ := h
    have haddr : Returns (addrV2p pgdir) s (s.shared.pteAt pgdir / pgSize * pgSize + pgdir % pgSize) s := by
      rw [addrV2p, returns_bind_iff hquery, returns_bind_iff ((returns_require _ ()).mpr ⟨hpresent, rfl⟩)]
      exact returns_pure.mpr ⟨rfl, rfl⟩
    exact returns_bind.mpr ⟨_, s, haddr, (returns_update _ _).mpr rfl⟩

/-- What is mapped there depends on its tables and, above 3 GB, on the kernel's. -/
theorem walkIn_congr {s s' : Shared} {page : Nat} (hdir : s'.pde dir = s.pde dir ∧ s'.pte dir = s.pte dir)
    (hkernel : s'.pde kernelPageDir = s.pde kernelPageDir ∧ s'.pte kernelPageDir = s.pte kernelPageDir) :
    s'.walkIn dir page = s.walkIn dir page := by
  let u : Shared := { s with cr3 := dir }
  let u' : Shared := { s' with cr3 := dir }
  have hrow (i : Nat) : u'.pde (u'.dirOf i) = u.pde (u.dirOf i) ∧ u'.pte (u'.dirOf i) = u.pte (u.dirOf i) := by
    by_cases hi : i < 768
    · have hlow (v : Shared) : v.dirOf i = v.cr3 := if_pos hi
      rw [hlow, hlow]
      exact hdir
    · have hhigh (v : Shared) : v.dirOf i = kernelPageDir := if_neg hi
      rw [hhigh, hhigh]
      exact hkernel
  show u'.walk page = u.walk page
  rw [Shared.walk, Shared.walk, Shared.pdeAt, Shared.pdeAt, Shared.pteAt, Shared.pteAt, (hrow _).1, (hrow _).2]

/-- The kernel's pages are the same in every directory. -/
theorem walkIn_kernel {s : Shared} {d d' page : Nat} (hpage : 0xc0000 ≤ page) : s.walkIn d page = s.walkIn d' page := by
  have hdir (d : Nat) : ({ s with cr3 := d } : Shared).dirOf (page * pgSize / 2 ^ 22) = kernelPageDir := by
    rw [region_page]
    exact if_neg (by omega)
  show Shared.walk _ page = Shared.walk _ page
  rw [Shared.walk, Shared.walk, Shared.pdeAt, Shared.pdeAt, Shared.pteAt, Shared.pteAt, hdir, hdir]

theorem HasDir.congr (h : s.HasDir t dir) (hpcb : s'.pcb = s.pcb)
    (hkernel : s'.shared.pde kernelPageDir = s.shared.pde kernelPageDir ∧
      s'.shared.pte kernelPageDir = s.shared.pte kernelPageDir) : s'.HasDir t dir := by
  unfold HasDir at h ⊢
  rw [hpcb]
  cases hpgdir : (s.pcb t).pgdir with
  | none =>
    rw [hpgdir] at h
    exact h
  | some pgdir =>
    rw [hpgdir] at h
    obtain ⟨hhigh, hpresent, haddr⟩ := h
    have hdir (u : Shared) : u.dirOf (pgdir / 2 ^ 22) = kernelPageDir := if_neg (by omega)
    refine ⟨hhigh, ?_, ?_⟩
    · rw [Shared.pdeAt, hdir, hkernel.1, ← hdir s.shared]
      exact hpresent
    · rw [Shared.pteAt, hdir, hkernel.2, ← hdir s.shared]
      exact haddr

end Directories

/-! ## One page of the parent -/

section Page

variable {s : ForkState} {child parent bufPage bufFrame dir idxByte idxBit f b : Nat}

/-- The bytes of frame `f` are in frame `b` of the pool of users and in that of the buffer. -/
structure PageCopied (s s' : ForkState) (dir vaddr bufFrame f b : Nat) : Prop where
  shared : s.shared.MapsPage s'.shared s.fs.cur dir vaddr b
  pcb : s'.pcb = s.pcb
  fs : s'.fs = s.fs
  bytes : ∀ i < pgSize, s'.page (b + (s.shared.pool .user).phyAddrStart / pgSize) i = s.page f i
  frames : ∀ h, h ≠ bufFrame → h ≠ b + (s.shared.pool .user).phyAddrStart / pgSize → s'.page h = s.page h

/-- The page of the buffer, in both directories. -/
structure Buffer (s : ForkState) (bufPage bufFrame : Nat) : Prop where
  aligned : bufPage % pgSize = 0
  high : 0xc0000000 ≤ bufPage
  walk : s.shared.walk (bufPage / pgSize) = some bufFrame

theorem returns_copyPage {vaddr j : Nat} (hparent : s.HasDir parent s.shared.cr3) (hchild : s.HasDir child dir)
    (hkernel : dir ≠ kernelPageDir) (hbuf : s.Buffer bufPage bufFrame) (hpos : 0 < vaddr) (halign : vaddr % pgSize = 0)
    (hlow : vaddr < 0xc0000000) (hsrc : s.shared.walk (vaddr / pgSize) = some f) (hne : f ≠ bufFrame)
    (hnew : s.shared.walkIn dir (vaddr / pgSize) = none) (hgets : s.shared.Gets s.fs.cur .user)
    (hwaiters : (s.shared.lock .user).waiters.Nodup) (hb : (s.shared.bitmap .user).IsFirstClear b)
    (hfresh : b + (s.shared.pool .user).phyAddrStart / pgSize ≠ bufFrame)
    (hj : s.shared.pde dir (vaddr / 2 ^ 22) % 2 = 0 → (s.shared.bitmap .kernel).IsFirstClear j) :
    ∃ s', Returns (do
        memcpy bufPage vaddr pgSize
        pageDirActivate child
        onShared (Code.getAPageWithoutOpvaddrbitmap .user vaddr)
        memcpy vaddr bufPage pgSize
        pageDirActivate parent) s () s' ∧ s.PageCopied s' dir vaddr bufFrame f b := by
  let s₁ := s.copyBytesFrom f bufFrame 0 pgSize
  let s₂ := s₁.withCr3 dir
  have hpde : s₂.shared.pdeAt vaddr = s.shared.pde dir (vaddr / 2 ^ 22) := by
    have hdir : s₂.shared.dirOf (vaddr / 2 ^ 22) = dir := if_pos (by omega)
    rw [Shared.pdeAt, hdir]
    rfl
  obtain ⟨t, hpage, hmaps⟩ := returns_getAPage (s := s₂.shared) (t := s.fs.cur) (j := j) hgets hwaiters hlow hnew hb
    (fun habsent => hj (hpde ▸ habsent))
  let s₃ : ForkState := { s₂ with shared := t }
  let g := b + (s.shared.pool .user).phyAddrStart / pgSize
  let s₄ := s₃.copyBytesFrom bufFrame g 0 pgSize
  let s₅ := s₄.withCr3 s.shared.cr3
  have hbufPos : 0 < bufPage ∧ bufPage % pgSize = 0 := ⟨by have := hbuf.high; omega, hbuf.aligned⟩
  have hread : Returns (memcpy bufPage vaddr pgSize) s () s₁ :=
    returns_memcpyPage hbufPos ⟨hpos, halign⟩ hsrc hbuf.walk hne
  have hactivate : Returns (pageDirActivate child) s₁ () s₂ :=
    returns_pageDirActivate (hchild.congr rfl ⟨rfl, rfl⟩)
  have hmap : Returns (onShared (Code.getAPageWithoutOpvaddrbitmap .user vaddr)) s₂ () s₃ :=
    returns_onShared.mpr ⟨t, hpage, rfl⟩
  have hcr3 : t.cr3 = dir := hmaps.cr3
  have hbuf₃ : s₃.shared.walk (bufPage / pgSize) = some bufFrame := by
    have hhigh := hbuf.high
    have hpages : bufPage / pgSize ≠ vaddr / pgSize := by
      simp only [pgSize]
      omega
    have h := hmaps.others _ hpages
    rw [show s₂.shared.cr3 = t.cr3 from hcr3.symm] at h
    rw [show s₃.shared.walk (bufPage / pgSize) = t.walkIn t.cr3 (bufPage / pgSize) from rfl, h]
    have hkernelPage : 0xc0000 ≤ bufPage / pgSize := by
      simp only [pgSize]
      omega
    exact (walkIn_kernel (s := s.shared) hkernelPage).trans hbuf.walk
  have hdst₃ : s₃.shared.walk (vaddr / pgSize) = some g := by
    have h := hmaps.self
    rwa [show s₂.shared.cr3 = t.cr3 from hcr3.symm] at h
  have hwrite : Returns (memcpy vaddr bufPage pgSize) s₃ () s₄ :=
    returns_memcpyPage ⟨hpos, halign⟩ hbufPos hbuf₃ hdst₃ hfresh.symm
  have hback : Returns (pageDirActivate parent) s₄ () s₅ :=
    returns_pageDirActivate (hparent.congr rfl (hmaps.tables kernelPageDir hkernel.symm))
  refine ⟨s₅, ?_, ?_⟩
  · rw [returns_bind_iff hread, returns_bind_iff hactivate, returns_bind_iff hmap, returns_bind_iff hwrite]
    exact hback
  · have hpage₁ (i : Nat) (hi : i < pgSize) : s₁.page bufFrame i = s.page f i :=
      if_pos ⟨rfl, Nat.zero_le i, by rwa [Nat.zero_add]⟩
    exact
      { shared :=
          { cr3 := rfl
            userprogVaddr := hmaps.userprogVaddr
            tables := hmaps.tables
            self := hmaps.self
            others := hmaps.others
            missing := hmaps.missing
            user := hmaps.user
            kernel := hmaps.kernel
            start := hmaps.start
            gets := hmaps.gets
            waiters := hmaps.waiters }
        pcb := rfl
        fs := rfl
        bytes := fun i hi => (if_pos ⟨rfl, Nat.zero_le i, by rwa [Nat.zero_add]⟩).trans (hpage₁ i hi)
        frames := fun h hbufFrame hg => by
          have h₄ : s₄.page h = s₁.page h := funext fun i => if_neg fun hin => hg hin.1
          have h₁ : s₁.page h = s.page h := funext fun i => if_neg fun hin => hbufFrame hin.1
          exact h₄.trans h₁ }

end Page

end ForkState

/-! ## The bits of the bitmap -/

namespace VirtualAddr

/-- The bits from `k` on that are set. -/
def marked (v : VirtualAddr) (k : Nat) : Finset Nat :=
  (Finset.range v.vaddrBitmap.size).filter fun i => k ≤ i ∧ v.vaddrBitmap.bit i = true

/-- The page table the page of bit `i` is in. -/
def region (v : VirtualAddr) (i : Nat) : Nat := (v.vaddrStart + i * pgSize) / 2 ^ 22

/-- The page of one of the first `k` bits, which is set. -/
def Marks (v : VirtualAddr) (k page : Nat) : Prop :=
  ∃ i < k, i < v.vaddrBitmap.size ∧ v.vaddrBitmap.bit i = true ∧ page = v.vaddrStart / pgSize + i

variable {v : VirtualAddr} {k i page : Nat}

theorem mem_marked : i ∈ v.marked k ↔ i < v.vaddrBitmap.size ∧ k ≤ i ∧ v.vaddrBitmap.bit i = true := by
  simp only [marked, Finset.mem_filter, Finset.mem_range]

theorem marked_succ_subset : v.marked (k + 1) ⊆ v.marked k := by
  intro i hi
  obtain ⟨hlt, hle, hset⟩ := mem_marked.mp hi
  exact mem_marked.mpr ⟨hlt, by omega, hset⟩

theorem card_marked (hk : k < v.vaddrBitmap.size) (hset : v.vaddrBitmap.bit k = true) :
    (v.marked k).card = (v.marked (k + 1)).card + 1 := by
  have hinsert : v.marked k = insert k (v.marked (k + 1)) := by
    ext i
    rw [Finset.mem_insert, mem_marked, mem_marked]
    constructor
    · rintro ⟨hlt, hle, hi⟩
      by_cases heq : i = k
      · exact Or.inl heq
      · exact Or.inr ⟨hlt, by omega, hi⟩
    · rintro (rfl | ⟨hlt, hle, hi⟩)
      · exact ⟨hk, Nat.le_refl i, hset⟩
      · exact ⟨hlt, by omega, hi⟩
  have hnot : k ∉ v.marked (k + 1) := by
    rw [mem_marked]
    omega
  rw [hinsert, Finset.card_insert_of_notMem hnot]

theorem marks_succ : v.Marks (k + 1) page ↔
    v.Marks k page ∨ k < v.vaddrBitmap.size ∧ v.vaddrBitmap.bit k = true ∧ page = v.vaddrStart / pgSize + k := by
  simp only [Marks, Nat.exists_lt_succ_right]

end VirtualAddr

namespace Shared

/-- A frame of the pool of users that nobody has. -/
def FreeFrame (s : Shared) (f : Nat) : Prop :=
  ∃ i < (s.bitmap .user).size, (s.bitmap .user).bit i = false ∧ f = i + (s.pool .user).phyAddrStart / pgSize

/-- The page tables that are missing in `dir` for the bits from `k` on. -/
def tablesFor (s : Shared) (dir : Nat) (v : VirtualAddr) (k : Nat) : Finset Nat :=
  ((v.marked k).image v.region).filter fun i => s.pde dir i % 2 = 0

end Shared

namespace ForkState

/-- What `copy_block_stack3` is called with: the parent runs and its bitmap says what it has
    mapped, the directory of the child is empty, and there are frames for all its pages. -/
structure Copyable (s : ForkState) (child parent bufPage dir bufFrame : Nat) : Prop where
  parentDir : s.HasDir parent s.shared.cr3
  childDir : s.HasDir child dir
  ne_parent : dir ≠ s.shared.cr3
  ne_kernel : dir ≠ kernelPageDir
  empty : ∀ i < 768, s.shared.pde dir i % 2 = 0
  buffer : s.Buffer bufPage bufFrame
  positive : 0 < (s.shared.userprogVaddr parent).vaddrStart
  aligned : (s.shared.userprogVaddr parent).vaddrStart % pgSize = 0
  range : (s.shared.userprogVaddr parent).vaddrStart +
    (s.shared.userprogVaddr parent).vaddrBitmap.size * pgSize ≤ 0xc0000000
  marks : ∀ page < 0xc0000, s.shared.walk page ≠ none ↔
    (s.shared.userprogVaddr parent).Marks (s.shared.userprogVaddr parent).vaddrBitmap.size page
  apart : ∀ page < 0xc0000, ∀ f, s.shared.walk page = some f → f ≠ bufFrame ∧ ¬ s.shared.FreeFrame f
  taken : ¬ s.shared.FreeFrame bufFrame
  frames : ((s.shared.userprogVaddr parent).marked 0).card ≤ (s.shared.bitmap .user).free
  tables : (((s.shared.userprogVaddr parent).marked 0).image (s.shared.userprogVaddr parent).region).card ≤
    (s.shared.bitmap .kernel).free
  gets : s.shared.Gets s.fs.cur .user
  waiters : (s.shared.lock .user).waiters.Nodup

/-- After the first `k` bits. -/
structure Copied (s₀ s : ForkState) (parent dir k : Nat) : Prop where
  cr3 : s.shared.cr3 = s₀.shared.cr3
  pcb : s.pcb = s₀.pcb
  fs : s.fs = s₀.fs
  userprogVaddr : s.shared.userprogVaddr = s₀.shared.userprogVaddr
  others : ∀ d, d ≠ dir → s.shared.pde d = s₀.shared.pde d ∧ s.shared.pte d = s₀.shared.pte d
  start : (s.shared.pool .user).phyAddrStart = (s₀.shared.pool .user).phyAddrStart
  gets : s.shared.Gets s.fs.cur .user
  waiters : (s.shared.lock .user).waiters.Nodup
  free : ∀ f, s.shared.FreeFrame f → s₀.shared.FreeFrame f
  frames : ((s₀.shared.userprogVaddr parent).marked k).card ≤ (s.shared.bitmap .user).free
  tables : (s.shared.tablesFor dir (s₀.shared.userprogVaddr parent) k).card ≤ (s.shared.bitmap .kernel).free
  mapped : ∀ page < 0xc0000, s.shared.walkIn dir page ≠ none ↔ (s₀.shared.userprogVaddr parent).Marks k page
  fresh : ∀ page < 0xc0000, ∀ g, s.shared.walkIn dir page = some g →
    s₀.shared.FreeFrame g ∧ ¬ s.shared.FreeFrame g
  bytes : ∀ page < 0xc0000, ∀ f g, s₀.shared.walk page = some f → s.shared.walkIn dir page = some g →
    ∀ i < pgSize, s.page g i = s₀.page f i
  apart : ∀ page < 0xc0000, ∀ page' < 0xc0000, ∀ g, s.shared.walkIn dir page = some g →
    s.shared.walkIn dir page' = some g → page = page'
  contents : ∀ page < 0xc0000, ∀ f, s₀.shared.walk page = some f → s.page f = s₀.page f

section Loop

variable {s₀ s s' : ForkState} {child parent bufPage bufFrame dir k : Nat}

theorem tablesFor_succ_subset {u : Shared} {v : VirtualAddr} : u.tablesFor dir v (k + 1) ⊆ u.tablesFor dir v k :=
  Finset.filter_subset_filter _ (Finset.image_subset_image VirtualAddr.marked_succ_subset)

/-- A bit that is not set is skipped. -/
theorem Copied.skip (h : s₀.Copied s parent dir k) (hclear : (s₀.shared.userprogVaddr parent).vaddrBitmap.bit k = false) :
    s₀.Copied s parent dir (k + 1) :=
  { h with
    frames := (Finset.card_le_card VirtualAddr.marked_succ_subset).trans h.frames
    tables := (Finset.card_le_card tablesFor_succ_subset).trans h.tables
    mapped := fun page hpage => by
      rw [h.mapped page hpage, VirtualAddr.marks_succ, hclear]
      simp }

/-- Nothing is mapped in the directory of the child. -/
theorem Copyable.unmapped (h : s₀.Copyable child parent bufPage dir bufFrame) {page : Nat} (hpage : page < 0xc0000) :
    s₀.shared.walkIn dir page = none := by
  have hdir : ({ s₀.shared with cr3 := dir } : Shared).dirOf (page * pgSize / 2 ^ 22) = dir := by
    rw [region_page]
    exact if_pos (by omega)
  have habsent := h.empty (page * pgSize / 2 ^ 22) (by rw [region_page]; omega)
  show Shared.walk _ page = none
  rw [Shared.walk, Shared.pdeAt, hdir, if_neg]
  rintro ⟨hpresent, -⟩
  rw [habsent] at hpresent
  cases hpresent

theorem copied_zero (h : s₀.Copyable child parent bufPage dir bufFrame) : s₀.Copied s₀ parent dir 0 where
  cr3 := rfl
  pcb := rfl
  fs := rfl
  userprogVaddr := rfl
  others := fun _ _ => ⟨rfl, rfl⟩
  start := rfl
  gets := h.gets
  waiters := h.waiters
  free := fun _ hf => hf
  frames := h.frames
  tables := (Finset.card_le_card (Finset.filter_subset _ _)).trans h.tables
  mapped := fun page hpage => by
    rw [h.unmapped hpage]
    refine iff_of_false (fun hne => hne rfl) ?_
    rintro ⟨i, hi, -⟩
    cases hi
  fresh := fun page hpage g hg => by
    rw [h.unmapped hpage] at hg
    cases hg
  bytes := fun page hpage f g _ hg => by
    rw [h.unmapped hpage] at hg
    cases hg
  apart := fun page hpage page' _ g hg => by
    rw [h.unmapped hpage] at hg
    cases hg
  contents := fun _ _ _ _ => rfl

theorem region_lt {v : VirtualAddr} {i : Nat} (hrange : v.vaddrStart + v.vaddrBitmap.size * pgSize ≤ 0xc0000000)
    (hi : i < v.vaddrBitmap.size) : v.region i < 768 ∧ v.vaddrStart + i * pgSize < 0xc0000000 := by
  have hmul := Nat.mul_le_mul_right pgSize hi
  rw [Nat.succ_mul] at hmul
  simp only [VirtualAddr.region, pgSize] at hmul hrange ⊢
  omega

/-- The table of the page is not missing any more. -/
theorem card_tablesFor {u u' : Shared} {t b : Nat} {v : VirtualAddr}
    (hmaps : u.MapsPage u' t dir (v.vaddrStart + k * pgSize) b)
    (hrange : v.vaddrStart + v.vaddrBitmap.size * pgSize ≤ 0xc0000000) (hk : k ∈ v.marked k) :
    (u'.tablesFor dir v (k + 1)).card + (if u.pde dir (v.region k) % 2 = 0 then 1 else 0) ≤
      (u.tablesFor dir v k).card := by
  have hsub : u'.tablesFor dir v (k + 1) ⊆ (u.tablesFor dir v k).erase (v.region k) := by
    intro i hi
    obtain ⟨himage, hzero⟩ := Finset.mem_filter.mp hi
    obtain ⟨m, hm, rfl⟩ := Finset.mem_image.mp himage
    obtain ⟨hbefore, hne⟩ := (hmaps.missing _ (region_lt hrange (VirtualAddr.mem_marked.mp hm).1).1).mp hzero
    refine Finset.mem_erase.mpr ⟨hne, Finset.mem_filter.mpr ⟨?_, hbefore⟩⟩
    exact Finset.mem_image_of_mem _ (VirtualAddr.marked_succ_subset hm)
  have hle := Finset.card_le_card hsub
  split
  · next habsent =>
    have hmem : v.region k ∈ u.tablesFor dir v k :=
      Finset.mem_filter.mpr ⟨Finset.mem_image_of_mem _ hk, habsent⟩
    have hcard := Finset.card_erase_add_one hmem
    omega
  · exact hle.trans (Finset.card_le_card (Finset.erase_subset _ _))

/-- The page of a bit that is set. -/
theorem Copied.step {f b : Nat} (h₀ : s₀.Copyable child parent bufPage dir bufFrame) (h : s₀.Copied s parent dir k)
    (hk : k < (s₀.shared.userprogVaddr parent).vaddrBitmap.size)
    (hset : (s₀.shared.userprogVaddr parent).vaddrBitmap.bit k = true) (hb : (s.shared.bitmap .user).IsFirstClear b)
    (hcopied : s.PageCopied s' dir ((s₀.shared.userprogVaddr parent).vaddrStart + k * pgSize) bufFrame f b)
    (hf : s₀.shared.walk ((s₀.shared.userprogVaddr parent).vaddrStart / pgSize + k) = some f) :
    s₀.Copied s' parent dir (k + 1) := by
  let v := s₀.shared.userprogVaddr parent
  let vaddr := v.vaddrStart + k * pgSize
  let g := b + (s.shared.pool .user).phyAddrStart / pgSize
  obtain ⟨hmaps, hpcb, hfs, hbytes, hframes⟩ := hcopied
  have hvaddr : vaddr < 0xc0000000 := (region_lt h₀.range hk).2
  have hpageEq : vaddr / pgSize = v.vaddrStart / pgSize + k := Nat.add_mul_div_right _ _ (by decide)
  have hpage : v.vaddrStart / pgSize + k < 0xc0000 := by
    rw [← hpageEq]
    simp only [pgSize]
    omega
  -- the frame was free, and is no longer
  have hfreeG : s.shared.FreeFrame g := ⟨b, hb.1, hb.2.1, rfl⟩
  have hfree {f : Nat} (hf : s'.shared.FreeFrame f) : s.shared.FreeFrame f ∧ f ≠ g := by
    obtain ⟨i, hlt, hbit, rfl⟩ := hf
    rw [hmaps.user] at hlt hbit
    rw [hmaps.start]
    have hib : i ≠ b := by
      rintro rfl
      rw [Bitmap.bitmapSet_bit_self] at hbit
      cases hbit
    rw [Bitmap.bitmapSet_bit_ne hib] at hbit
    refine ⟨⟨i, hlt, hbit, rfl⟩, ?_⟩
    simp only [g]
    omega
  have holds {page f : Nat} (hpage : page < 0xc0000) (hf : s₀.shared.walk page = some f) : s'.page f = s₀.page f := by
    obtain ⟨hbuf, hnot⟩ := h₀.apart page hpage f hf
    rw [hframes f hbuf fun heq => hnot (heq ▸ h.free g hfreeG), h.contents page hpage f hf]
  -- the pages of the child: those from before, and this one
  have hself : s'.shared.walkIn dir (v.vaddrStart / pgSize + k) = some g := hpageEq ▸ hmaps.self
  have hother {page : Nat} (hne : page ≠ v.vaddrStart / pgSize + k) :
      s'.shared.walkIn dir page = s.shared.walkIn dir page := hmaps.others page (hpageEq ▸ hne)
  have hkept {page q : Nat} (hpage : page < 0xc0000) (hq : s.shared.walkIn dir page = some q) :
      q ≠ g ∧ s'.page q = s.page q := by
    obtain ⟨hwasFree, hnotFree⟩ := h.fresh page hpage q hq
    have hqg : q ≠ g := fun heq => hnotFree (heq ▸ hfreeG)
    exact ⟨hqg, hframes q (fun heq => h₀.taken (heq ▸ hwasFree)) hqg⟩
  exact
    { cr3 := hmaps.cr3.trans h.cr3
      pcb := hpcb.trans h.pcb
      fs := hfs.trans h.fs
      userprogVaddr := hmaps.userprogVaddr.trans h.userprogVaddr
      others := fun d hd => ⟨(hmaps.tables d hd).1.trans (h.others d hd).1, (hmaps.tables d hd).2.trans (h.others d hd).2⟩
      start := hmaps.start.trans h.start
      gets := hfs ▸ hmaps.gets
      waiters := hmaps.waiters
      free := fun f hf => h.free f (hfree hf).1
      frames := by
        have hcard := VirtualAddr.card_marked hk hset
        have hless := free_bitmapSet hb
        have hbefore := h.frames
        rw [hmaps.user]
        omega
      tables := by
        have hless := card_tablesFor hmaps h₀.range (VirtualAddr.mem_marked.mpr ⟨hk, Nat.le_refl k, hset⟩)
        have hfrom := hmaps.kernel
        have hbefore := h.tables
        rw [VirtualAddr.region] at hless
        omega
      mapped := fun page hlow => by
        rw [VirtualAddr.marks_succ, ← h.mapped page hlow]
        by_cases heq : page = v.vaddrStart / pgSize + k
        · rw [heq, hself]
          exact iff_of_true (Option.some_ne_none g) (Or.inr ⟨hk, hset, rfl⟩)
        · rw [hother heq]
          exact ⟨Or.inl, fun hor => hor.resolve_right fun hthis => heq hthis.2.2⟩
      fresh := fun page hlow q hq => by
        by_cases heq : page = v.vaddrStart / pgSize + k
        · rw [heq, hself, Option.some.injEq] at hq
          subst hq
          exact ⟨h.free g hfreeG, fun hf => (hfree hf).2 rfl⟩
        · rw [hother heq] at hq
          exact ⟨(h.fresh page hlow q hq).1, fun hf => (h.fresh page hlow q hq).2 (hfree hf).1⟩
      bytes := fun page hlow q₀ q hq₀ hq i hi => by
        by_cases heq : page = v.vaddrStart / pgSize + k
        · rw [heq, hself, Option.some.injEq] at hq
          rw [heq, hf, Option.some.injEq] at hq₀
          rw [← hq, ← hq₀, hbytes i hi, h.contents _ hpage f hf]
        · rw [hother heq] at hq
          rw [(hkept hlow hq).2]
          exact h.bytes page hlow q₀ q hq₀ hq i hi
      apart := fun page hlow page' hlow' q hq hq' => by
        by_cases heq : page = v.vaddrStart / pgSize + k
        · by_cases heq' : page' = v.vaddrStart / pgSize + k
          · rw [heq, heq']
          · rw [heq, hself, Option.some.injEq] at hq
            rw [hother heq'] at hq'
            exact absurd hq.symm (hkept hlow' hq').1
        · rw [hother heq] at hq
          by_cases heq' : page' = v.vaddrStart / pgSize + k
          · rw [heq', hself, Option.some.injEq] at hq'
            exact absurd hq'.symm (hkept hlow hq).1
          · rw [hother heq'] at hq'
            exact h.apart page hlow page' hlow' q hq hq'
      contents := fun page hlow q hq => holds hlow hq }

/-! ## The loops -/

/-- What the parent has mapped stays. -/
theorem Copied.walk (h₀ : s₀.Copyable child parent bufPage dir bufFrame) (h : s₀.Copied s parent dir k) (page : Nat) :
    s.shared.walk page = s₀.shared.walk page := by
  have hsame := @walkIn_congr _ _ _ page (h.others _ h₀.ne_parent.symm) (h.others _ h₀.ne_kernel.symm)
  rw [← h.cr3] at hsame
  exact hsame.trans (congrArg (fun d => s₀.shared.walkIn d page) h.cr3)

theorem Copied.buffer (h₀ : s₀.Copyable child parent bufPage dir bufFrame) (h : s₀.Copied s parent dir k) :
    s.Buffer bufPage bufFrame :=
  { h₀.buffer with walk := (h.walk h₀ _).trans h₀.buffer.walk }

theorem Copied.marked {idxByte idxBit : Nat} (h₀ : s₀.Copyable child parent bufPage dir bufFrame)
    (h : s₀.Copied s parent dir (8 * idxByte + idxBit))
    (hk : 8 * idxByte + idxBit < (s₀.shared.userprogVaddr parent).vaddrBitmap.size) :
    ∃ s', Returns (copyMarked child parent bufPage idxByte idxBit) s () s' ∧
      s₀.Copied s' parent dir (8 * idxByte + (idxBit + 1)) := by
  let v := s₀.shared.userprogVaddr parent
  let k := 8 * idxByte + idxBit
  let vaddr := v.vaddrStart + k * pgSize
  have hquery : Returns (query id) s s s := (returns_query _).mpr ⟨rfl, rfl⟩
  have hv : s.shared.userprogVaddr parent = v := congrFun h.userprogVaddr parent
  by_cases hset : v.vaddrBitmap.bit k = true
  · have hlow : vaddr < 0xc0000000 := (region_lt h₀.range hk).2
    have hpageEq : vaddr / pgSize = v.vaddrStart / pgSize + k := Nat.add_mul_div_right _ _ (by decide)
    have hpage : v.vaddrStart / pgSize + k < 0xc0000 := by
      rw [← hpageEq]
      exact (Nat.div_lt_iff_lt_mul (by decide)).mpr hlow
    have hpos : 0 < vaddr := Nat.lt_of_lt_of_le h₀.positive (Nat.le_add_right _ _)
    have halign : vaddr % pgSize = 0 := (Nat.add_mul_mod_self_right _ _ _).trans h₀.aligned
    -- the parent has the page, the child does not
    obtain ⟨f, hf⟩ := Option.ne_none_iff_exists'.mp ((h₀.marks _ hpage).mpr ⟨k, hk, hk, hset, rfl⟩)
    have hnew : s.shared.walkIn dir (vaddr / pgSize) = none := by
      rw [hpageEq]
      by_contra hne
      obtain ⟨i, hi, -, -, heq⟩ := (h.mapped _ hpage).mp hne
      exact absurd (Nat.add_left_cancel heq) (Nat.ne_of_gt hi)
    -- a frame for it and one for its table
    have hcard := VirtualAddr.card_marked hk hset
    obtain ⟨b, hb⟩ := free_pos_iff.mp (show 0 < (s.shared.bitmap .user).free from by have := h.frames; omega)
    have hfresh : b + (s.shared.pool .user).phyAddrStart / pgSize ≠ bufFrame :=
      fun heq => h₀.taken (heq ▸ h.free _ ⟨b, hb.1, hb.2.1, rfl⟩)
    obtain ⟨j, hj⟩ := exists_of_imp (p := s.shared.pde dir (vaddr / 2 ^ 22) % 2 = 0)
        (q := (s.shared.bitmap .kernel).IsFirstClear) fun habsent => by
      have hmem : v.region k ∈ s.shared.tablesFor dir v k := Finset.mem_filter.mpr
        ⟨Finset.mem_image_of_mem _ (VirtualAddr.mem_marked.mpr ⟨hk, Nat.le_refl k, hset⟩), habsent⟩
      exact free_pos_iff.mp ((Finset.card_pos.mpr ⟨_, hmem⟩).trans_le h.tables)
    have hparent : s.HasDir parent s.shared.cr3 :=
      h.cr3 ▸ h₀.parentDir.congr h.pcb (h.others _ h₀.ne_kernel.symm)
    obtain ⟨s', hret, hcopied⟩ := returns_copyPage hparent (h₀.childDir.congr h.pcb (h.others _ h₀.ne_kernel.symm))
      h₀.ne_kernel (h.buffer h₀) hpos halign hlow ((h.walk h₀ _).trans (hpageEq ▸ hf)) (h₀.apart _ hpage f hf).1
      hnew h.gets h.waiters hb hfresh hj
    refine ⟨s', ?_, h.step h₀ hk hset hb hcopied hf⟩
    rw [copyMarked, returns_bind_iff hquery]
    simp only [hv, Nat.mul_comm idxByte 8]
    rw [if_pos (show v.vaddrBitmap.bit (8 * idxByte + idxBit) = true from hset)]
    exact hret
  · refine ⟨s, ?_, h.skip (Bool.eq_false_iff.mpr hset)⟩
    rw [copyMarked, returns_bind_iff hquery]
    simp only [hv]
    rw [if_neg (show ¬ v.vaddrBitmap.bit (8 * idxByte + idxBit) = true from hset)]
    exact returns_pure.mpr ⟨rfl, rfl⟩

/-- The bits of a byte. -/
theorem Copied.bits {idxByte n idxBit : Nat} (h₀ : s₀.Copyable child parent bufPage dir bufFrame)
    (h : s₀.Copied s parent dir (8 * idxByte + idxBit)) (hn : idxBit + n ≤ 8)
    (hbyte : idxByte < (s₀.shared.userprogVaddr parent).vaddrBitmap.btmpBytesLen) :
    ∃ s', Returns (copyBits child parent bufPage idxByte n idxBit) s () s' ∧
      s₀.Copied s' parent dir (8 * idxByte + (idxBit + n)) := by
  induction n generalizing s idxBit with
  | zero => exact ⟨s, returns_pure.mpr ⟨rfl, rfl⟩, h⟩
  | succ n ih =>
    obtain ⟨s₁, hmarked, h₁⟩ := h.marked h₀ (by rw [Bitmap.size]; omega)
    obtain ⟨s₂, hrest, h₂⟩ := ih h₁ (by omega)
    refine ⟨s₂, ?_, ?_⟩
    · rw [copyBits, returns_bind_iff hmarked]
      exact hrest
    · rwa [Nat.add_assoc idxBit, Nat.add_comm 1 n] at h₂

/-- A byte of zeros is skipped. -/
theorem Copied.zeros {n : Nat} (h : s₀.Copied s parent dir k)
    (hclear : ∀ j < n, (s₀.shared.userprogVaddr parent).vaddrBitmap.bit (k + j) = false) :
    s₀.Copied s parent dir (k + n) := by
  induction n with
  | zero => exact h
  | succ n ih => exact (ih fun j hj => hclear j (by omega)).skip (hclear n (Nat.lt_succ_self n))

theorem Copied.bytesFrom {n idxByte : Nat} (h₀ : s₀.Copyable child parent bufPage dir bufFrame)
    (h : s₀.Copied s parent dir (8 * idxByte))
    (hn : idxByte + n ≤ (s₀.shared.userprogVaddr parent).vaddrBitmap.btmpBytesLen) :
    ∃ s', Returns (copyBytes child parent bufPage n idxByte) s () s' ∧
      s₀.Copied s' parent dir (8 * (idxByte + n)) := by
  induction n generalizing s idxByte with
  | zero => exact ⟨s, returns_pure.mpr ⟨rfl, rfl⟩, h⟩
  | succ n ih =>
    have hquery : Returns (query id) s s s := (returns_query _).mpr ⟨rfl, rfl⟩
    by_cases hany : (List.range 8).any fun j => (s.shared.userprogVaddr parent).vaddrBitmap.bit (8 * idxByte + j)
    · have hfirst : s₀.Copied s parent dir (8 * idxByte + 0) := h
      obtain ⟨s₁, hbits, h₁⟩ := hfirst.bits h₀ (show 0 + 8 ≤ 8 from Nat.le_refl 8) (by omega)
      have hnext : s₀.Copied s₁ parent dir (8 * (idxByte + 1)) := h₁
      obtain ⟨s₂, hrest, h₂⟩ := ih hnext (by omega)
      refine ⟨s₂, ?_, ?_⟩
      · rw [copyBytes, returns_bind_iff hquery]
        dsimp only
        rw [if_pos hany, returns_bind_iff hbits]
        exact hrest
      · rwa [Nat.add_assoc idxByte, Nat.add_comm 1 n] at h₂
    · have hclear : ∀ j < 8, (s₀.shared.userprogVaddr parent).vaddrBitmap.bit (8 * idxByte + j) = false := by
        intro j hj
        rw [← h.userprogVaddr]
        exact Bool.eq_false_iff.mpr fun hset => hany (List.any_eq_true.mpr ⟨j, List.mem_range.mpr hj, hset⟩)
      have hnext : s₀.Copied s parent dir (8 * (idxByte + 1)) := h.zeros hclear
      obtain ⟨s₂, hrest, h₂⟩ := ih hnext (by omega)
      refine ⟨s₂, ?_, ?_⟩
      · rw [copyBytes, returns_bind_iff hquery]
        dsimp only
        rw [if_neg hany]
        exact hrest
      · rwa [Nat.add_assoc idxByte, Nat.add_comm 1 n] at h₂

end Loop

/-! ## copy_block_stack3 -/

/-- The user's pages in the directory `dir` are copies of the active one's, in frames that were
    free; the active one is the same as before, and so are its pages. -/
structure Cloned (s s' : ForkState) (dir : Nat) : Prop where
  active : s'.shared.cr3 = s.shared.cr3
  mapped : ∀ page < 0xc0000, s'.shared.walkIn dir page ≠ none ↔ s.shared.walk page ≠ none
  fresh : ∀ page < 0xc0000, ∀ g, s'.shared.walkIn dir page = some g → s.shared.FreeFrame g
  apart : ∀ page < 0xc0000, ∀ page' < 0xc0000, ∀ g, s'.shared.walkIn dir page = some g →
    s'.shared.walkIn dir page' = some g → page = page'
  bytes : ∀ page < 0xc0000, ∀ f g, s.shared.walk page = some f → s'.shared.walkIn dir page = some g →
    ∀ i < pgSize, s'.page g i = s.page f i
  parent : ∀ page, s'.shared.walk page = s.shared.walk page
  contents : ∀ page < 0xc0000, ∀ f, s.shared.walk page = some f → s'.page f = s.page f

/-- `copy_block_stack3` returns, and the child has its parent's pages. -/
theorem copyBlockStack3_clones (child parent bufPage dir bufFrame : Nat) (s : ForkState)
    (h : s.Copyable child parent bufPage dir bufFrame) :
    ∃ s', Returns (copyBlockStack3 child parent bufPage) s () s' ∧ s.Cloned s' dir := by
  have hquery : Returns (query id) s s s := (returns_query _).mpr ⟨rfl, rfl⟩
  have hzero : s.Copied s parent dir (8 * 0) := copied_zero h
  obtain ⟨s', hret, hall⟩ := hzero.bytesFrom h (Nat.le_of_eq (Nat.zero_add _))
  rw [Nat.zero_add] at hall
  refine ⟨s', ?_, ?_⟩
  · rw [copyBlockStack3, returns_bind_iff hquery]
    exact hret
  · exact
      { active := hall.cr3
        mapped := fun page hpage => (hall.mapped page hpage).trans (h.marks page hpage).symm
        fresh := fun page hpage g hg => (hall.fresh page hpage g hg).1
        apart := hall.apart
        bytes := hall.bytes
        parent := hall.walk h
        contents := hall.contents }

/-! ## A parent with one page -/

/-- A parent with one page, at the first address of its space, and a child with an empty page
    directory; page 0xc0102 is the buffer. -/
def onePage : ForkState :=
  let mmu := freshMmu.shared
  let parent : VirtualAddr := { vaddrBitmap := { btmpBytesLen := 1, bit := fun i => i == 0 }, vaddrStart := 0x8048000 }
  { eightPages with
    shared :=
      { mmu with
        pool := fun pf =>
          { mmu.pool pf with poolBitmap := { btmpBytesLen := 1, bit := fun i => i == 0 || (pf == .kernel && i < 5) } }
        userprogVaddr := fun _ => parent
        cr3 := 0x200000
        pde := fun dir i =>
          if dir = 0x200000 ∧ i = 32 then 0x203007 else if dir = kernelPageDir ∧ i = 768 then 0x101007 else 0
        pte := fun dir page =>
          if dir = 0x200000 ∧ page = 0x8048 then 0x208007
          else if dir = kernelPageDir ∧ 0xc0100 ≤ page ∧ page < 0xc0103 then (page - 0xc0100 + 0x200) * pgSize + 7
          else 0 }
    pcb := fun t => { eightPages.pcb t with pgdir := some (if t = 0xc0103000 then 0xc0101000 else 0xc0100000) } }

theorem onePage_walk {page : Nat} (hpage : page < 0xc0000) :
    onePage.shared.walk page = if page = 0x8048 then some 0x208 else none := by
  have hdir : onePage.shared.dirOf (page * pgSize / 2 ^ 22) = 0x200000 := by
    rw [region_page]
    exact if_pos (by omega)
  have hpte : onePage.shared.pteAt (page * pgSize) = if page = 0x8048 then 0x208007 else 0 := by
    rw [Shared.pteAt, hdir, Nat.mul_div_cancel _ (by decide)]
    simp [onePage, kernelPageDir]
  rw [Shared.walk, hpte]
  by_cases h : page = 0x8048
  · subst h
    decide
  · rw [if_neg h, if_neg (fun hboth => absurd hboth.2 (by decide)), if_neg h]

theorem onePage_free {f : Nat} (h : onePage.shared.FreeFrame f) : 0x208 < f ∧ f < 0x210 := by
  obtain ⟨i, hlt, hclear, rfl⟩ := h
  have hlt : i < 8 := hlt
  have hne : i ≠ 0 := by
    rintro rfl
    cases hclear
  show 0x208 < i + 0x208000 / 4096 ∧ i + 0x208000 / 4096 < 0x210
  omega

theorem onePage_copyable : onePage.Copyable 0xc0103000 0xc009e000 0xc0102000 0x201000 0x202 where
  parentDir := ⟨by decide, by decide, by decide⟩
  childDir := ⟨by decide, by decide, by decide⟩
  ne_parent := by decide
  ne_kernel := by decide
  empty := fun i _ => by simp [onePage, kernelPageDir]
  buffer := ⟨by decide, by decide, by decide⟩
  positive := by decide
  aligned := by decide
  range := by decide
  marks := fun page hpage => by
    rw [onePage_walk hpage]
    constructor
    · intro hmapped
      split at hmapped
      · next h => exact ⟨0, by decide, by decide, rfl, h⟩
      · exact absurd rfl hmapped
    · rintro ⟨i, -, -, hset, rfl⟩
      obtain rfl : i = 0 := eq_of_beq hset
      decide
  apart := fun page hpage f hf => by
    rw [onePage_walk hpage] at hf
    split at hf
    · cases hf
      exact ⟨by decide, fun hfree => absurd (onePage_free hfree).1 (by decide)⟩
    · cases hf
  taken := fun hfree => absurd (onePage_free hfree).1 (by decide)
  frames := by decide
  tables := by decide
  gets := Or.inr ⟨rfl, rfl, rfl, nofun⟩
  waiters := List.nodup_nil

/-- The child has the page in a frame of its own. -/
theorem copyBlockStack3_clones_page : ∃ s', Returns (copyBlockStack3 0xc0103000 0xc009e000 0xc0102000) onePage () s' ∧
    onePage.Cloned s' 0x201000 :=
  copyBlockStack3_clones 0xc0103000 0xc009e000 0xc0102000 0x201000 0x202 onePage onePage_copyable

end ForkState

end ZxyOs
