/-
  ZxyOs.Kernel.PageWalk

  Page tables as the words of physical frames (`kernel/memory.c`).

  The processor translates an address by two words: the directory entry leads to a frame,
  the page table, whose entry leads to the page.  The kernel reads and writes these words
  through addresses that the same tables translate: the last entry of a directory leads to
  the directory itself, so the addresses from 0xffc00000 on show the page tables and those
  from 0xfffff000 on the directory.

  Two pages whose directory entries lead to the same table share their page-table entry;
  the loader enters its first table twice, so that the first 4 MB of both halves do.
-/

import ZxyOs.Lib.Masks
import ZxyOs.Kernel.Arena
import ZxyOs.Kernel.Bitmap

namespace ZxyOs

open Lib Lib.Exec

/-- The words of the frames, CR3, and the bitmap and start of `kernel_pool`. -/
structure Paging where
  word : Nat → Nat → Nat
  cr3 : Nat
  poolBitmap : Bitmap
  phyAddrStart : Nat

/-- Kernel code on the page tables. -/
abbrev PagingM (α : Type) : Type := Exec Paging α

/-- Bit `P` of an entry. -/
def entryPresent (w : Nat) : Bool := w % 2 = 1

/-- The frame an entry leads to. -/
def entryFrame (w : Nat) : Nat := w / 4096 % 2 ^ 20

namespace Paging

/-- The frame of the directory. -/
def dir (m : Paging) : Nat := m.cr3 / 4096

/-- The entry of the directory for an address. -/
def pde (m : Paging) (vaddr : Nat) : Nat := m.word m.dir (vaddr / 2 ^ 22)

/-- Frame and index of the page-table entry for an address. -/
def entryOf (m : Paging) (vaddr : Nat) : Option (Nat × Nat) :=
  if entryPresent (m.pde vaddr) then some (entryFrame (m.pde vaddr), vaddr / 4096 % 1024) else none

/-- The translation of the processor: the frame of the page an address is in. -/
def walk (m : Paging) (vaddr : Nat) : Option Nat :=
  match m.entryOf vaddr with
  | some (f, i) => if entryPresent (m.word f i) then some (entryFrame (m.word f i)) else none
  | none => none

/-- Word `i` of frame `f` is stored. -/
def setWord (m : Paging) (f i w : Nat) : Paging :=
  { m with word := Function.update m.word f (Function.update (m.word f) i w) }

/-- The word at a virtual address; where the page is not mapped, the processor faults. -/
def loadWord (vaddr : Nat) : PagingM Nat := do
  let m ← query id
  let f ← deref (m.walk vaddr)
  return m.word f (vaddr % 4096 / 4)

/-- A word is stored at a virtual address. -/
def storeWord (vaddr w : Nat) : PagingM Unit := do
  let m ← query id
  let f ← deref (m.walk vaddr)
  update fun m => m.setWord f (vaddr % 4096 / 4) w

/-- `memset` with zeros, word by word, with `n` words left. -/
def memsetZero : Nat → Nat → PagingM Unit
  | 0, _ => return ()
  | n + 1, vaddr => do
    storeWord vaddr 0
    memsetZero n (vaddr + 4)

/-- `PDE_INDEX`. -/
def pdeIndex (addr : Nat) : Nat := (addr &&& 0xffc00000) >>> 22

/-- `PTE_INDEX`. -/
def pteIndex (addr : Nat) : Nat := (addr &&& 0x003ff000) >>> 12

/-- `pte_ptr`. -/
def ptePtr (vaddr : Nat) : Nat := 0xffc00000 + ((vaddr &&& 0xffc00000) >>> 10) + pteIndex vaddr * 4

/-- `pde_ptr`. -/
def pdePtr (vaddr : Nat) : Nat := 0xfffff000 + pdeIndex vaddr * 4

/-- `palloc(&kernel_pool)`. -/
def palloc : PagingM (Option Nat) := do
  let m ← query id
  let bitIndex ← m.poolBitmap.bitmapScan 1
  match bitIndex with
  | none => return none
  | some i =>
    update fun m => { m with poolBitmap := m.poolBitmap.bitmapSet i true }
    return some ((i * pgSize + m.phyAddrStart) % 2 ^ 32)

/-- `page_phyaddr | PG_US_U | PG_RW_W | PG_P_1`. -/
def pageEntry (phyaddr : Nat) : Nat := phyaddr ||| 4 ||| 2 ||| 1

/-- `page_table_add`. -/
def pageTableAdd (vaddr pagePhyaddr : Nat) : PagingM Unit := do
  let pde := pdePtr vaddr
  let pte := ptePtr vaddr
  let w ← loadWord pde
  if w &&& 1 ≠ 0 then
    let w ← loadWord pte
    if w &&& 1 = 0 then
      storeWord pte (pageEntry pagePhyaddr)
    else
      stop .panic
  else do
    let pdePhyaddr ← palloc
    -- `NULL` is not looked for
    storeWord pde (pageEntry (pdePhyaddr.getD 0))
    memsetZero 1024 (pte &&& 0xfffff000)
    let w ← loadWord pte
    assert (w &&& 1 = 0)
    storeWord pte (pageEntry pagePhyaddr)

/-- `page_table_pte_remove`, without the invalidation that follows it. -/
def pageTablePteRemove (vaddr : Nat) : PagingM Unit := do
  let pte := ptePtr vaddr
  let w ← loadWord pte
  storeWord pte (w &&& 0xfffffffe)

/-- `addr_v2p`. -/
def addrV2p (vaddr : Nat) : PagingM Nat := do
  let pte := ptePtr vaddr
  let w ← loadWord pte
  return (w &&& 0xfffff000) + (vaddr &&& 0x00000fff)

/-- The last entry of the directory leads to the directory. -/
structure SelfMapped (m : Paging) : Prop where
  present : entryPresent (m.word m.dir 1023) = true
  frame : entryFrame (m.word m.dir 1023) = m.dir

/-- `palloc` hands out frame `t`, and no entry of the directory leads to it. -/
def FreshTable (m : Paging) (t : Nat) : Prop :=
  (∃ i, m.poolBitmap.IsFirstClear i ∧ (i * pgSize + m.phyAddrStart) % 2 ^ 32 = t * pgSize) ∧
    ∀ k < 1024, entryPresent (m.word m.dir k) = true → entryFrame (m.word m.dir k) ≠ t

section Walk

variable {m m' : Paging} {vaddr f i j w t p : Nat} {u : Unit}

/-! ## The entries -/

theorem pageEntry_eq (hp : p % 4096 = 0) : pageEntry p = p + 7 := by
  rw [pageEntry, Nat.or_assoc, Nat.or_assoc]
  exact or_below (k := 12) hp (by decide)

theorem entryPresent_pageEntry (hp : p % 4096 = 0) : entryPresent (pageEntry p) = true := by
  rw [pageEntry_eq hp, entryPresent, decide_eq_true_eq]
  omega

theorem entryFrame_pageEntry (hp : p % 4096 = 0) (hlt : p < 2 ^ 32) : entryFrame (pageEntry p) = p / 4096 := by
  rw [pageEntry_eq hp, entryFrame]
  omega

theorem and_one_iff : w &&& 1 ≠ 0 ↔ entryPresent w = true := by
  rw [and_one_ne_zero, entryPresent, decide_eq_true_eq]

theorem entryPresent_zero : entryPresent 0 = false := rfl

/-- The entry is not present once its lowest bit is cleared. -/
theorem entryPresent_and : entryPresent (w &&& 0xfffffffe) = false := by
  have hmask : 0xfffffffe = (2 ^ 31 - 1) <<< 1 := by decide
  rw [hmask, and_shifted_mask, entryPresent, decide_eq_false_iff_not]
  omega

theorem pdePtr_eq (hv : vaddr < 2 ^ 32) : pdePtr vaddr = 0xfffff000 + 4 * (vaddr / 2 ^ 22) := by
  have hmask : 0xffc00000 = (2 ^ 10 - 1) <<< 22 := by decide
  rw [pdePtr, pdeIndex, hmask, and_shifted_mask_shift]
  omega

theorem ptePtr_eq (hv : vaddr < 2 ^ 32) :
    ptePtr vaddr = 0xffc00000 + 4096 * (vaddr / 2 ^ 22) + 4 * (vaddr / 4096 % 1024) := by
  have hdir : (vaddr &&& 0xffc00000) >>> 10 = 4096 * (vaddr / 2 ^ 22) := by
    have hmask : 0xffc00000 = (2 ^ 10 - 1) <<< 22 := by decide
    rw [hmask, and_shifted_mask, Nat.shiftRight_eq_div_pow]
    omega
  have htable : pteIndex vaddr = vaddr / 4096 % 1024 := by
    have hmask : 0x003ff000 = (2 ^ 10 - 1) <<< 12 := by decide
    rw [pteIndex, hmask, and_shifted_mask_shift]
    rfl
  rw [ptePtr, hdir, htable]
  omega

/-! ## The addresses of the tables -/

theorem walk_of_entry (h : m.entryOf vaddr = some (f, i)) :
    m.walk vaddr = if entryPresent (m.word f i) then some (entryFrame (m.word f i)) else none := by
  rw [walk, h]

theorem entryOf_present (h : entryPresent (m.pde vaddr) = true) :
    m.entryOf vaddr = some (entryFrame (m.pde vaddr), vaddr / 4096 % 1024) := by
  rw [entryOf, if_pos h]

theorem entryOf_absent (h : entryPresent (m.pde vaddr) = false) : m.entryOf vaddr = none := by
  rw [entryOf, h]
  rfl

theorem walk_absent (h : entryPresent (m.pde vaddr) = false) : m.walk vaddr = none := by
  rw [walk, entryOf_absent h]

/-- Behind the self-mapping, the entry of a page is an entry of the directory. -/
theorem SelfMapped.entryOf_window (h : m.SelfMapped) (hi : i < 1024) (hj : j < 4096) :
    m.entryOf (0xffc00000 + 4096 * i + j) = some (m.dir, i) := by
  have hpde : m.pde (0xffc00000 + 4096 * i + j) = m.word m.dir 1023 := by
    rw [pde]
    congr 1
    omega
  rw [entryOf_present (by rw [hpde, h.present]), hpde, h.frame]
  congr 2
  omega

/-- The page table that entry `i` leads to is seen there. -/
theorem SelfMapped.walk_window (h : m.SelfMapped) (hi : i < 1024) (hj : j < 4096)
    (hpresent : entryPresent (m.word m.dir i) = true) :
    m.walk (0xffc00000 + 4096 * i + j) = some (entryFrame (m.word m.dir i)) := by
  rw [walk_of_entry (h.entryOf_window hi hj), hpresent, if_pos rfl]

/-- And the directory at the end. -/
theorem SelfMapped.walk_dir (h : m.SelfMapped) (hi : i < 1024) : m.walk (0xfffff000 + 4 * i) = some m.dir := by
  have haddr : 0xfffff000 + 4 * i = 0xffc00000 + 4096 * 1023 + 4 * i := by omega
  rw [haddr, h.walk_window (by omega) (by omega) h.present, h.frame]

/-! ## Loads and stores -/

theorem returns_loadWord : Returns (loadWord vaddr) m w m' ↔
    ∃ f, m.walk vaddr = some f ∧ m.word f (vaddr % 4096 / 4) = w ∧ m = m' := by
  simp only [loadWord, returns_bind, returns_query, returns_deref, returns_pure]
  constructor
  · rintro ⟨_, _, ⟨rfl, rfl⟩, f, _, ⟨hf, rfl⟩, rfl, rfl⟩
    exact ⟨f, hf, rfl, rfl⟩
  · rintro ⟨f, hf, rfl, rfl⟩
    exact ⟨m, m, ⟨rfl, rfl⟩, f, m, ⟨hf, rfl⟩, rfl, rfl⟩

theorem returns_storeWord : Returns (storeWord vaddr w) m u m' ↔
    ∃ f, m.walk vaddr = some f ∧ m.setWord f (vaddr % 4096 / 4) w = m' := by
  simp only [storeWord, returns_bind, returns_query, returns_deref, returns_update]
  constructor
  · rintro ⟨_, _, ⟨rfl, rfl⟩, f, _, ⟨hf, rfl⟩, rfl⟩
    exact ⟨f, hf, rfl⟩
  · rintro ⟨f, hf, rfl⟩
    exact ⟨m, m, ⟨rfl, rfl⟩, f, m, ⟨hf, rfl⟩, rfl⟩

theorem setWord_word (f' i' : Nat) :
    (m.setWord f i w).word f' i' = if f' = f ∧ i' = i then w else m.word f' i' := by
  show Function.update m.word f (Function.update (m.word f) i w) f' i' = _
  by_cases hf : f' = f
  · subst hf
    rw [Function.update_self]
    by_cases hi : i' = i
    · subst hi
      rw [Function.update_self, if_pos ⟨rfl, rfl⟩]
    · rw [Function.update_of_ne hi, if_neg fun h => hi h.2]
  · rw [Function.update_of_ne hf, if_neg fun h => hf h.1]

/-- Storing outside the directory moves no page table. -/
theorem setWord_entryOf (hf : f ≠ m.dir) : (m.setWord f i w).entryOf vaddr = m.entryOf vaddr := by
  have hpde : (m.setWord f i w).pde vaddr = m.pde vaddr := by
    show (m.setWord f i w).word m.dir _ = _
    rw [setWord_word, if_neg fun h => hf h.1.symm]
    rfl
  rw [entryOf, entryOf, hpde]

/-- A page-table entry is stored: the pages it is the entry of are translated by it. -/
theorem setWord_walk (hf : f ≠ m.dir) : (m.setWord f i w).walk vaddr =
    if m.entryOf vaddr = some (f, i) then (if entryPresent w then some (entryFrame w) else none)
    else m.walk vaddr := by
  rw [walk, walk, setWord_entryOf hf]
  cases h : m.entryOf vaddr with
  | none => rfl
  | some e =>
    obtain ⟨f', i'⟩ := e
    dsimp only
    rw [setWord_word]
    by_cases heq : f' = f ∧ i' = i
    · have hsome : some (f', i') = some (f, i) := by rw [heq.1, heq.2]
      simp only [if_pos heq, if_pos hsome]
    · have hne : some (f', i') ≠ some (f, i) := by
        intro h
        exact heq (Prod.mk.inj (Option.some.inj h))
      simp only [if_neg heq, if_neg hne]

/-! ## page_table_add -/

theorem pde_lt (hv : vaddr < 0xffc00000) : vaddr / 2 ^ 22 < 1023 := by omega

/-- The entry of the directory is read through the self-mapping. -/
theorem SelfMapped.load_pde (h : m.SelfMapped) (hv : vaddr < 0xffc00000) :
    Returns (loadWord (pdePtr vaddr)) m (m.pde vaddr) m := by
  have hlt := pde_lt hv
  rw [pdePtr_eq (by omega), returns_loadWord]
  refine ⟨m.dir, h.walk_dir (by omega), ?_, rfl⟩
  rw [pde]
  congr 1
  omega

/-- So is the page-table entry. -/
theorem SelfMapped.load_pte (h : m.SelfMapped) (hv : vaddr < 2 ^ 32) (hentry : m.entryOf vaddr = some (f, i)) :
    m.walk (ptePtr vaddr) = some f ∧ ptePtr vaddr % 4096 / 4 = i := by
  have hpresent : entryPresent (m.pde vaddr) = true := by
    by_contra hnot
    rw [Bool.not_eq_true] at hnot
    rw [entryOf_absent hnot] at hentry
    cases hentry
  rw [entryOf_present hpresent] at hentry
  obtain ⟨rfl, rfl⟩ := Prod.mk.inj (Option.some.inj hentry)
  rw [ptePtr_eq hv]
  refine ⟨h.walk_window (by omega) (by omega) hpresent, by omega⟩

/-- `page_table_add` where there is a page table. -/
theorem SelfMapped.add_present (h : m.SelfMapped) (hv : vaddr < 0xffc00000)
    (hpresent : entryPresent (m.pde vaddr) = true) (hfree : m.walk vaddr = none) :
    Returns (pageTableAdd vaddr p) m ()
      (m.setWord (entryFrame (m.pde vaddr)) (vaddr / 4096 % 1024) (pageEntry p)) := by
  obtain ⟨hwalk, hindex⟩ := h.load_pte (by omega) (entryOf_present hpresent)
  have hclear : m.word (entryFrame (m.pde vaddr)) (vaddr / 4096 % 1024) &&& 1 = 0 := by
    by_contra hset
    rw [walk_of_entry (entryOf_present hpresent), if_pos (and_one_iff.mp hset)] at hfree
    cases hfree
  simp only [pageTableAdd]
  refine returns_bind.mpr ⟨_, m, h.load_pde hv, ?_⟩
  rw [if_pos (and_one_iff.mpr hpresent)]
  refine returns_bind.mpr ⟨_, m, returns_loadWord.mpr ⟨_, hwalk, rfl, rfl⟩, ?_⟩
  rw [hindex, if_pos hclear]
  refine returns_storeWord.mpr ⟨_, hwalk, ?_⟩
  rw [hindex]

/-- `memset` through the window of the new table, with `n` words left from word `k` on. -/
theorem SelfMapped.memset_window {k n : Nat} (h : m.SelfMapped) (hi : i < 1024) (hkn : k + n ≤ 1024)
    (hpresent : entryPresent (m.word m.dir i) = true) (hne : entryFrame (m.word m.dir i) ≠ m.dir) :
    ∃ m', Returns (memsetZero n (0xffc00000 + 4096 * i + 4 * k)) m () m' ∧ m'.cr3 = m.cr3 ∧
      ∀ f x, m'.word f x = if f = entryFrame (m.word m.dir i) ∧ k ≤ x ∧ x < k + n then 0 else m.word f x := by
  induction n generalizing m k with
  | zero =>
    refine ⟨m, returns_pure.mpr ⟨rfl, rfl⟩, rfl, fun f x => ?_⟩
    rw [if_neg (by omega)]
  | succ n ih =>
    let t := entryFrame (m.word m.dir i)
    let m₁ := m.setWord t k 0
    -- the directory is not written to
    have hdir (x : Nat) : m₁.word m₁.dir x = m.word m.dir x := by
      show (m.setWord t k 0).word m.dir x = _
      rw [setWord_word, if_neg fun heq => hne heq.1.symm]
    have hself : m₁.SelfMapped := ⟨by rw [hdir, h.present], by rw [hdir, h.frame]; rfl⟩
    obtain ⟨m', hret, hcr3, hword⟩ := ih (m := m₁) (k := k + 1) hself (by omega) (by rw [hdir, hpresent])
      (by rw [hdir]; exact hne)
    refine ⟨m', ?_, hcr3, fun f x => ?_⟩
    · refine returns_bind.mpr ⟨(), m₁, returns_storeWord.mpr ⟨t, h.walk_window hi (by omega) hpresent, ?_⟩, ?_⟩
      · have hindex : (0xffc00000 + 4096 * i + 4 * k) % 4096 / 4 = k := by omega
        rw [hindex]
      · exact hret
    · rw [hword, hdir, setWord_word]
      by_cases hf : f = t
      · subst hf
        by_cases hx : x = k
        · simp [hx, t]
        · have hiff : (k + 1 ≤ x ∧ x < k + 1 + n) ↔ (k ≤ x ∧ x < k + (n + 1)) := by omega
          simp only [hx, hiff, and_false, if_false]
      · rw [if_neg fun heq => hf heq.1, if_neg fun heq => hf heq.1, if_neg fun heq => hf heq.1]

/-- The memory once a new table at frame `t` holds the entry for `p`. -/
structure NewTable (m m' : Paging) (vaddr p t : Nat) : Prop where
  cr3 : m'.cr3 = m.cr3
  word : ∀ f i, m'.word f i =
    if f = t then
      if i = vaddr / 4096 % 1024 then pageEntry p else if i < 1024 then 0 else m.word f i
    else if f = m.dir ∧ i = vaddr / 2 ^ 22 then pageEntry (t * pgSize)
    else m.word f i

/-- `page_table_add` where there is no page table. -/
theorem SelfMapped.add_absent (h : m.SelfMapped) (hv : vaddr < 0xffc00000)
    (habsent : entryPresent (m.pde vaddr) = false) (hfresh : m.FreshTable t) :
    ∃ m', Returns (pageTableAdd vaddr p) m () m' ∧ NewTable m m' vaddr p t := by
  obtain ⟨⟨b, hfirst, haddr⟩, hunused⟩ := hfresh
  have hlt := pde_lt hv
  have ht : t * pgSize < 2 ^ 32 := haddr ▸ Nat.mod_lt _ (by decide)
  have halign : t * pgSize % 4096 = 0 := Nat.mul_mod_left t 4096
  have hne : t ≠ m.dir := by
    intro heq
    exact hunused 1023 (by omega) h.present (h.frame.trans heq.symm)
  let i := vaddr / 2 ^ 22
  let j := vaddr / 4096 % 1024
  let m₁ : Paging := { m with poolBitmap := m.poolBitmap.bitmapSet b true }
  let m₂ : Paging := m₁.setWord m.dir i (pageEntry (t * pgSize))
  have hword₂ (f x : Nat) : m₂.word f x = if f = m.dir ∧ x = i then pageEntry (t * pgSize) else m.word f x :=
    setWord_word f x
  have hentry : m₂.word m₂.dir i = pageEntry (t * pgSize) := by
    show m₂.word m.dir i = _
    rw [hword₂, if_pos ⟨rfl, rfl⟩]
  have hframe : entryFrame (m₂.word m₂.dir i) = t := by
    rw [hentry, entryFrame_pageEntry halign ht]
    exact Nat.mul_div_cancel t (by decide)
  have hpresent : entryPresent (m₂.word m₂.dir i) = true := by rw [hentry, entryPresent_pageEntry halign]
  have hself : m₂.SelfMapped := by
    have hlast : m₂.word m₂.dir 1023 = m.word m.dir 1023 := by
      show m₂.word m.dir 1023 = _
      rw [hword₂, if_neg (by omega)]
    exact ⟨by rw [hlast, h.present], by rw [hlast, h.frame]; rfl⟩
  -- the table is cleared through the window that the new entry has opened
  obtain ⟨m₃, hclear, hcr3, hword₃⟩ := hself.memset_window (k := 0) (n := 1024) (i := i) (by omega) (by omega) hpresent
    (by rw [hframe]; exact hne)
  rw [hframe] at hword₃
  have hdir₃ (x : Nat) : m₃.word m₃.dir x = m₂.word m₂.dir x := by
    have hsame : m₃.dir = m₂.dir := by rw [dir, dir, hcr3]
    rw [hsame, hword₃, if_neg fun heq => hne heq.1.symm]
  have hself₃ : m₃.SelfMapped := by
    refine ⟨by rw [hdir₃, hself.present], ?_⟩
    rw [hdir₃, hself.frame, dir, dir, hcr3]
  have hpde₃ : m₃.pde vaddr = m₂.word m₂.dir i := hdir₃ i
  have hentry₃ : m₃.entryOf vaddr = some (t, j) := by
    rw [entryOf_present (by rw [hpde₃, hpresent]), hpde₃, hframe]
  obtain ⟨hwalk, hindex⟩ := hself₃.load_pte (by omega) hentry₃
  have hzero : m₃.word t j = 0 := by rw [hword₃, if_pos ⟨rfl, by omega, by omega⟩]
  refine ⟨m₃.setWord t j (pageEntry p), ?_, hcr3, fun f x => ?_⟩
  · simp only [pageTableAdd]
    refine returns_bind.mpr ⟨_, m, h.load_pde hv, ?_⟩
    rw [if_neg (by rw [and_one_iff, habsent]; simp)]
    refine returns_bind.mpr ⟨some (t * pgSize), m₁, ?_, ?_⟩
    · simp only [palloc, returns_bind, returns_query, Bitmap.returns_bitmapScan_one]
      refine ⟨m, m, ⟨rfl, rfl⟩, some b, m, ⟨rfl, b, rfl, hfirst⟩, ?_⟩
      simp only [returns_bind, returns_update, returns_pure]
      exact ⟨(), m₁, rfl, by rw [haddr], rfl⟩
    refine returns_bind.mpr ⟨(), m₂, ?_, ?_⟩
    · rw [returns_storeWord, pdePtr_eq (by omega)]
      refine ⟨m.dir, (show m₁.SelfMapped from ⟨h.present, h.frame⟩).walk_dir (by omega), ?_⟩
      have hindex : (0xfffff000 + 4 * (vaddr / 2 ^ 22)) % 4096 / 4 = i := by omega
      rw [hindex]
      rfl
    refine returns_bind.mpr ⟨(), m₃, ?_, ?_⟩
    · have hpage : ptePtr vaddr &&& 0xfffff000 = 0xffc00000 + 4096 * i + 4 * 0 := by
        rw [and_page, ptePtr_eq (by omega)]
        omega
      rw [hpage]
      exact hclear
    refine returns_bind.mpr ⟨_, m₃, returns_loadWord.mpr ⟨t, hwalk, rfl, rfl⟩, ?_⟩
    rw [hindex, hzero]
    refine returns_bind.mpr ⟨(), m₃, (returns_assert _ _).mpr ⟨by decide, rfl⟩, ?_⟩
    refine returns_storeWord.mpr ⟨t, hwalk, ?_⟩
    rw [hindex]
  · rw [setWord_word, hword₃, hword₂]
    by_cases hf : f = t
    · subst hf
      by_cases hx : x = j
      · rw [if_pos ⟨rfl, hx⟩, if_pos rfl, if_pos hx]
      · rw [if_neg fun heq => hx heq.2, if_pos rfl, if_neg hx]
        by_cases hlt : x < 1024
        · rw [if_pos ⟨rfl, by omega, by omega⟩, if_pos hlt]
        · rw [if_neg (by omega), if_neg hlt, if_neg fun heq => hne heq.1]
    · rw [if_neg fun heq => hf heq.1, if_neg fun heq => hf heq.1, if_neg hf]

/-- Through a new table `vaddr` is mapped to `p`.  The only other page that is translated
    in a new way is the one at which the table itself is seen. -/
theorem NewTable.walk_eq {m' : Paging} (h : NewTable m m' vaddr p t) (hp : p % 4096 = 0) (hplt : p < 2 ^ 32)
    (ht : t * pgSize < 2 ^ 32) (hv : vaddr < 0xffc00000) (habsent : entryPresent (m.pde vaddr) = false)
    (hunused : ∀ k < 1024, entryPresent (m.word m.dir k) = true → entryFrame (m.word m.dir k) ≠ t)
    (hne : t ≠ m.dir) {x : Nat} (hx : x < 2 ^ 32) :
    m'.walk x = if x / 4096 = vaddr / 4096 then some (p / 4096)
      else if m.entryOf x = some (m.dir, vaddr / 2 ^ 22) then some t else m.walk x := by
  have halign : t * pgSize % 4096 = 0 := Nat.mul_mod_left t 4096
  have hdir : m'.dir = m.dir := by rw [dir, dir, h.cr3]
  have hpde : m'.pde x = if x / 2 ^ 22 = vaddr / 2 ^ 22 then pageEntry (t * pgSize) else m.pde x := by
    rw [pde, hdir, h.word, if_neg (Ne.symm hne)]
    by_cases heq : x / 2 ^ 22 = vaddr / 2 ^ 22
    · rw [if_pos ⟨rfl, heq⟩, if_pos heq]
    · rw [if_neg fun hboth => heq hboth.2, if_neg heq]
      rfl
  by_cases heq : x / 2 ^ 22 = vaddr / 2 ^ 22
  · -- the page has its entry in the new table
    rw [if_pos heq] at hpde
    have hold : entryPresent (m.pde x) = false := by
      rw [pde, heq]
      exact habsent
    have hentry : m'.entryOf x = some (t, x / 4096 % 1024) := by
      rw [entryOf_present (by rw [hpde, entryPresent_pageEntry halign]), hpde, entryFrame_pageEntry halign ht]
      congr 2
      exact Nat.mul_div_cancel t (by decide)
    rw [walk_of_entry hentry, h.word, if_pos rfl, walk_absent hold, entryOf_absent hold]
    by_cases hpage : x / 4096 = vaddr / 4096
    · have hindex : x / 4096 % 1024 = vaddr / 4096 % 1024 := by rw [hpage]
      simp only [if_pos hindex, if_pos hpage, entryPresent_pageEntry hp, entryFrame_pageEntry hp hplt, if_true]
    · have hindex : ¬ x / 4096 % 1024 = vaddr / 4096 % 1024 := by omega
      have hlt : x / 4096 % 1024 < 1024 := Nat.mod_lt _ (by decide)
      simp only [if_neg hindex, if_pos hlt, if_neg hpage, entryPresent_zero]
      rfl
  · rw [if_neg heq] at hpde
    have hpage : x / 4096 ≠ vaddr / 4096 := by omega
    rw [if_neg hpage]
    cases hpresent : entryPresent (m.pde x) with
    | false =>
      rw [walk_absent (by rw [hpde, hpresent]), walk_absent hpresent, entryOf_absent hpresent]
      rfl
    | true =>
      have hsame : m'.entryOf x = m.entryOf x := by
        rw [entryOf_present hpresent, entryOf_present (by rw [hpde, hpresent]), hpde]
      have hold := entryOf_present hpresent
      have hf : entryFrame (m.pde x) ≠ t := hunused _ (by omega) hpresent
      rw [walk_of_entry (hsame.trans hold), walk_of_entry hold, h.word, if_neg hf, hold]
      by_cases hwin : entryFrame (m.pde x) = m.dir ∧ x / 4096 % 1024 = vaddr / 2 ^ 22
      · have hsome : some (entryFrame (m.pde x), x / 4096 % 1024) = some (m.dir, vaddr / 2 ^ 22) := by
          rw [hwin.1, hwin.2]
        rw [if_pos hwin, if_pos hsome, entryPresent_pageEntry halign, if_pos rfl, entryFrame_pageEntry halign ht]
        exact congrArg some (Nat.mul_div_cancel t (by decide))
      · have hnone : some (entryFrame (m.pde x), x / 4096 % 1024) ≠ some (m.dir, vaddr / 2 ^ 22) := by
          intro h
          exact hwin (Prod.mk.inj (Option.some.inj h))
        rw [if_neg hwin, if_neg hnone]

theorem FreshTable.unused_dir (hself : m.SelfMapped) (h : m.FreshTable t) : t ≠ m.dir := by
  intro heq
  exact h.2 1023 (by omega) hself.present (hself.frame.trans heq.symm)

theorem FreshTable.lt (h : m.FreshTable t) : t * pgSize < 2 ^ 32 := by
  obtain ⟨⟨b, -, haddr⟩, -⟩ := h
  exact haddr ▸ Nat.mod_lt _ (by decide)

/-! ## page_table_pte_remove and addr_v2p -/

theorem entryOf_of_walk (h : m.walk vaddr = some f) : ∃ i, m.entryOf vaddr = some (entryFrame (m.pde vaddr), i) ∧
    entryPresent (m.word (entryFrame (m.pde vaddr)) i) = true ∧
    entryFrame (m.word (entryFrame (m.pde vaddr)) i) = f := by
  have hpresent : entryPresent (m.pde vaddr) = true := by
    by_contra hnot
    rw [Bool.not_eq_true] at hnot
    rw [walk_absent hnot] at h
    cases h
  have hentry := entryOf_present hpresent
  rw [walk_of_entry hentry] at h
  split at h
  · next hpte => exact ⟨_, hentry, hpte, Option.some.inj h⟩
  · cases h

/-- The entry of a mapped page is cleared in its lowest bit. -/
theorem SelfMapped.remove (h : m.SelfMapped) (hv : vaddr < 2 ^ 32) (hwalk : m.walk vaddr = some f)
    (htable : entryFrame (m.pde vaddr) ≠ m.dir) :
    ∃ m', Returns (pageTablePteRemove vaddr) m () m' ∧
      ∀ x, m'.walk x = if m.entryOf x = m.entryOf vaddr then none else m.walk x := by
  obtain ⟨i, hentry, -, -⟩ := entryOf_of_walk hwalk
  obtain ⟨hpte, hindex⟩ := h.load_pte hv hentry
  let w := m.word (entryFrame (m.pde vaddr)) (ptePtr vaddr % 4096 / 4)
  refine ⟨m.setWord (entryFrame (m.pde vaddr)) (ptePtr vaddr % 4096 / 4) (w &&& 0xfffffffe), ?_, fun x => ?_⟩
  · refine returns_bind.mpr ⟨w, m, returns_loadWord.mpr ⟨_, hpte, rfl, rfl⟩, ?_⟩
    exact returns_storeWord.mpr ⟨_, hpte, rfl⟩
  · rw [setWord_walk htable, hindex, hentry, entryPresent_and]
    rfl

/-- `addr_v2p` finds what the processor finds. -/
theorem SelfMapped.v2p (h : m.SelfMapped) (hv : vaddr < 2 ^ 32) (hwalk : m.walk vaddr = some f) :
    Returns (addrV2p vaddr) m (f * 4096 + vaddr % 4096) m := by
  obtain ⟨i, hentry, -, hframe⟩ := entryOf_of_walk hwalk
  obtain ⟨hpte, hindex⟩ := h.load_pte hv hentry
  refine returns_bind.mpr ⟨_, m, returns_loadWord.mpr ⟨_, hpte, rfl, rfl⟩, returns_pure.mpr ⟨?_, rfl⟩⟩
  have hoffset : vaddr &&& 0x00000fff = vaddr % 4096 := Nat.and_two_pow_sub_one_eq_mod vaddr 12
  have hpage (w : Nat) : w &&& 0xfffff000 = entryFrame w * 4096 := by
    rw [and_page, entryFrame]
    omega
  rw [hoffset, hpage, hindex, hframe]

/-- Where no other entry leads to its table, a page has its page-table entry for itself. -/
theorem entryOf_eq_iff {x : Nat} (hv : vaddr < 2 ^ 32) (hx : x < 2 ^ 32) (hpresent : entryPresent (m.pde vaddr) = true)
    (hlone : ∀ k < 1024, k ≠ vaddr / 2 ^ 22 → entryPresent (m.word m.dir k) = true →
      entryFrame (m.word m.dir k) ≠ entryFrame (m.pde vaddr)) :
    m.entryOf x = m.entryOf vaddr ↔ x / 4096 = vaddr / 4096 := by
  rw [entryOf_present hpresent]
  constructor
  · intro heq
    have hpresent' : entryPresent (m.pde x) = true := by
      by_contra hnot
      rw [Bool.not_eq_true] at hnot
      rw [entryOf_absent hnot] at heq
      cases heq
    rw [entryOf_present hpresent'] at heq
    obtain ⟨hframe, hindex⟩ := Prod.mk.inj (Option.some.inj heq)
    have hdir : x / 2 ^ 22 = vaddr / 2 ^ 22 := by
      by_contra hne
      exact hlone _ (by omega) hne hpresent' hframe
    omega
  · intro heq
    have hdir : x / 2 ^ 22 = vaddr / 2 ^ 22 := by omega
    have hpde : m.pde x = m.pde vaddr := by rw [pde, pde, hdir]
    rw [entryOf_present (by rw [hpde, hpresent]), hpde, heq]

end Walk

end Paging

open Paging

/-- The page-table functions edit the map that the processor follows.  `page_table_add` maps
    `vaddr`, and with it the pages that share its page-table entry; where it takes a new table,
    it maps `vaddr` and the page at which the table is seen behind the self-mapping.
    `page_table_pte_remove` takes out the pages that share the entry, and `addr_v2p` reads the
    map.  A page whose table no other entry of the directory leads to shares its entry with
    no other page. -/
theorem page_table_edits (m : Paging) (hself : m.SelfMapped) :
    (∀ vaddr p, vaddr < 0xffc00000 → vaddr % 4096 = 0 → p % 4096 = 0 → p < 2 ^ 32 → m.walk vaddr = none →
      entryPresent (m.pde vaddr) = true → entryFrame (m.pde vaddr) ≠ m.dir →
      ∃ m', Returns (pageTableAdd vaddr p) m () m' ∧ ∀ x < 2 ^ 32,
        m'.walk x = if m.entryOf x = m.entryOf vaddr then some (p / 4096) else m.walk x) ∧
    (∀ vaddr p t, vaddr < 0xffc00000 → vaddr % 4096 = 0 → p % 4096 = 0 → p < 2 ^ 32 →
      entryPresent (m.pde vaddr) = false → m.FreshTable t →
      ∃ m', Returns (pageTableAdd vaddr p) m () m' ∧ ∀ x < 2 ^ 32,
        m'.walk x = if x / 4096 = vaddr / 4096 then some (p / 4096)
          else if m.entryOf x = some (m.dir, vaddr / 2 ^ 22) then some t else m.walk x) ∧
    (∀ vaddr f, vaddr < 0xffc00000 → m.walk vaddr = some f → entryFrame (m.pde vaddr) ≠ m.dir →
      ∃ m', Returns (pageTablePteRemove vaddr) m () m' ∧ ∀ x < 2 ^ 32,
        m'.walk x = if m.entryOf x = m.entryOf vaddr then none else m.walk x) ∧
    (∀ vaddr f, vaddr < 2 ^ 32 → m.walk vaddr = some f →
      Returns (addrV2p vaddr) m (f * 4096 + vaddr % 4096) m) ∧
    ∀ vaddr < 2 ^ 32, entryPresent (m.pde vaddr) = true →
      (∀ k < 1024, k ≠ vaddr / 2 ^ 22 → entryPresent (m.word m.dir k) = true →
        entryFrame (m.word m.dir k) ≠ entryFrame (m.pde vaddr)) →
      ∀ x < 2 ^ 32, m.entryOf x = m.entryOf vaddr ↔ x / 4096 = vaddr / 4096 := by
  refine ⟨fun vaddr p hv _ hp hplt hfree hpresent htable => ?_, fun vaddr p t hv _ hp hplt habsent hfresh => ?_,
    fun vaddr f hv hwalk htable => ?_, fun vaddr f hv hwalk => hself.v2p hv hwalk,
    fun vaddr hv hpresent hlone x hx => entryOf_eq_iff hv hx hpresent hlone⟩
  · refine ⟨_, hself.add_present hv hpresent hfree, fun x _ => ?_⟩
    rw [setWord_walk htable, entryPresent_pageEntry hp, entryFrame_pageEntry hp hplt, entryOf_present hpresent]
    rfl
  · obtain ⟨m', hret, hnew⟩ := hself.add_absent (p := p) hv habsent hfresh
    exact ⟨m', hret, fun x hx => hnew.walk_eq hp hplt hfresh.lt hv habsent hfresh.2 (hfresh.unused_dir hself) hx⟩
  · obtain ⟨m', hret, hwalk'⟩ := hself.remove (by omega) hwalk htable
    exact ⟨m', hret, fun x _ => hwalk' x⟩

namespace LoaderTables

/-- The directory at 0x100000, with nothing but the entry for itself. -/
def bare : Paging where
  word := fun f i => if f = 0x100 ∧ i = 1023 then 0x100007 else 0
  cr3 := 0x100000
  poolBitmap := { btmpBytesLen := 1, bit := fun _ => false }
  phyAddrStart := 0x200000

theorem bare_fresh : bare.FreshTable 0x200 := by
  refine ⟨⟨0, ⟨by decide, rfl, nofun⟩, by decide⟩, fun k hk hpresent => ?_⟩
  by_cases hk' : k = 1023
  · subst hk'
    decide
  · have hzero : bare.word bare.dir k = 0 := if_neg fun h => hk' h.2
    rw [hzero] at hpresent
    cases hpresent

/-- The directory of `setup_page`, with the first table, for the lowest megabyte, in its
    entries 0 and 768. -/
def loader : Paging where
  word := fun f i =>
    if f = 0x100 then if i = 0 ∨ i = 768 then 0x101007 else if i = 1023 then 0x100007 else 0
    else if f = 0x101 ∧ i < 256 then 4096 * i + 7 else 0
  cr3 := 0x100000
  poolBitmap := { btmpBytesLen := 1, bit := fun _ => false }
  phyAddrStart := 0x200000

end LoaderTables

/-- A first page of a process. -/
theorem page_table_edits_first : ∃ m', Returns (pageTableAdd 0x8048000 0x300000) LoaderTables.bare () m' ∧
    m'.walk 0x8048000 = some 0x300 := by
  obtain ⟨m', hret, hwalk⟩ := (page_table_edits LoaderTables.bare ⟨by decide, by decide⟩).2.1
    0x8048000 0x300000 0x200 (by decide) (by decide) (by decide) (by decide) (by decide) LoaderTables.bare_fresh
  exact ⟨m', hret, hwalk _ (by decide)⟩

/-- The first page of the kernel's heap is mapped in the lower half, too, and a new table
    is mapped behind the self-mapping. -/
theorem page_table_add_maps_others :
    (∃ (m m' : Paging) (vaddr p x : Nat), m.SelfMapped ∧ vaddr < 0xffc00000 ∧ vaddr % 4096 = 0 ∧ p % 4096 = 0 ∧
      m.walk vaddr = none ∧ entryPresent (m.pde vaddr) = true ∧ Returns (pageTableAdd vaddr p) m () m' ∧
      x / 4096 ≠ vaddr / 4096 ∧ m'.walk x ≠ m.walk x) ∧
    ∃ (m m' : Paging) (vaddr p t x : Nat), m.SelfMapped ∧ vaddr < 0xffc00000 ∧ vaddr % 4096 = 0 ∧ p % 4096 = 0 ∧
      m.walk vaddr = none ∧ m.FreshTable t ∧ Returns (pageTableAdd vaddr p) m () m' ∧
      x / 4096 ≠ vaddr / 4096 ∧ m'.walk x ≠ m.walk x := by
  constructor
  · have hend : (pageTableAdd 0xc0100000 0x300000).checks LoaderTables.loader
        (fun _ m' => m'.walk 0x100000 = some 0x300) = true := by
      decide +kernel
    obtain ⟨u, m', hret, hval⟩ := checks_eq_true.mp hend
    have hwalk := of_decide_eq_true hval
    refine ⟨_, m', 0xc0100000, 0x300000, 0x100000, ⟨by decide, by decide⟩, by decide, by decide, by decide,
      by decide, by decide, hret, by decide, ?_⟩
    rw [hwalk]
    decide
  · have hself : LoaderTables.bare.SelfMapped := ⟨by decide, by decide⟩
    have hfresh := LoaderTables.bare_fresh
    obtain ⟨m', hret, hnew⟩ : ∃ m', Returns (pageTableAdd 0x8048000 0x300000) LoaderTables.bare () m' ∧
        NewTable LoaderTables.bare m' 0x8048000 0x300000 _ :=
      hself.add_absent (by decide) (by decide) hfresh
    have hwalk := hnew.walk_eq (x := 0xffc20000) (by decide) (by decide) hfresh.lt (by decide) (by decide) hfresh.2
      (hfresh.unused_dir hself) (by decide)
    rw [if_neg (by decide), if_pos (by decide)] at hwalk
    refine ⟨_, m', 0x8048000, 0x300000, 0x200, 0xffc20000, hself, by decide, by decide, by decide, by decide, hfresh,
      hret, by decide, ?_⟩
    rw [hwalk]
    decide

end ZxyOs
