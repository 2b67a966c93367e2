/-
  ZxyOs.Fs.OpenCases

  What `sys_open` can do.

  It gives up before anything is created or opened, with every directory closed; or it
  calls `file_create` and closes the directory of the new file; or it calls `file_open`
  and leaves that directory open.  `file_create` and `file_open` in turn give up with
  nothing changed, or take a slot of `file_table` and the inode and then look for a
  descriptor.
-/

import ZxyOs.Fs.OpenCount
import ZxyOs.Fs.FdTable

namespace ZxyOs

open Lib Lib.Exec

/-- A slot of `file_table` is free. -/
def Fs.SlotFree (s : Fs) : Prop := freeSlotFrom s.fileTable (maxFilesOpen - 3) 3 ≠ none

/-- The running process has no descriptor left. -/
def Fs.FdsFull (s : Fs) : Prop := ∀ k, s.tasks s.cur = some k → freeFdFrom k.fdtable 6 2 = none

/-- Inode `n`, cached or read from its slot, does not let a second writer in. -/
def Fs.deniesWrite (s : Fs) (n : Nat) : Bool :=
  match s.cached n with
  | some a => (s.inodes a).any Inode.writeDeny
  | none => (s.slot n).writeDeny

/-- `sys_open` gets as far as creating or opening: the path does not end in a slash, and
    `search_file` follows it to its last component and finds no directory there. -/
structure Fs.Finds (s : Fs) (path : CStr) (iNo : Option Nat) (rec : PathSearchRecord) (s₁ : Fs) :
    Prop where
  noSlash : path.getLast? ≠ some slash
  search : Returns (searchFile (slash :: path.tail)) s (iNo, rec) s₁
  file : rec.fType ≠ ftDir
  depth : ∃ d, Returns (pathDepthCnt path) s d s ∧ Returns (pathDepthCnt rec.searchedPath) s₁ d s₁

section Cases

variable {s s' s₁ s₂ : Fs} {p : DirPtr} {r : Int} {n flags : Nat} {name path : CStr}

/-! ## file_open -/

/-- The inode `inode_open` hands out denies writing if it did so before. -/
theorem inodeOpen_denies {a : Nat} {v : Inode} (h : Returns (inodeOpen n) s a s')
    (hv : s'.inodes a = some v) : v.writeDeny = s.deniesWrite n := by
  rw [Fs.deniesWrite]
  rcases inodeOpen_inv h with ⟨w, hcached, hw, -, rfl⟩ | ⟨h', hcached, -, -, -, -, hs'⟩
  · rw [hcached]
    dsimp only
    rw [hw, Option.any_some]
    rw [← Option.some.inj (Fs.setInode_self.symm.trans hv)]
  · rw [hcached]
    subst hs'
    have hself := Function.update_self a (some { s.slot n with iOpenCnt := 1 }) s.inodes
    rw [← Option.some.inj (hself.symm.trans hv)]

/-- The slot `g` refers to the inode at `a`, and what is left is to find a descriptor. -/
theorem fileOpen_cases (h : Returns (fileOpen n flags) s r s') :
    (¬ s.SlotFree ∧ r = -1 ∧ s = s') ∨
    ∃ g a s₁ v, freeSlotFrom s.fileTable (maxFilesOpen - 3) 3 = some g ∧
      Returns (inodeOpen n) s a s₁ ∧ s₁.inodes a = some v ∧
      (writable flags = true ∧ s.deniesWrite n = true ∧ r = -1 ∧
          s' = s₁.setSlot g { fdPos := 0, fdFlag := flags, fdInode := some a } ∨
        ¬ (writable flags = true ∧ s.deniesWrite n = true) ∧
          Returns (pcbFdInstall g)
            ((s₁.setSlot g { fdPos := 0, fdFlag := flags, fdInode := some a }).setInode a
              { v with writeDeny := v.writeDeny || writable flags }) r s') := by
  simp only [fileOpen, getFreeSlotInGlobal, returns_bind, returns_query, returns_pure] at h
  obtain ⟨slot, _, ⟨_, _, ⟨rfl, rfl⟩, hslot, rfl⟩, h⟩ := h
  cases slot with
  | none =>
    obtain ⟨rfl, rfl⟩ := returns_pure.mp h
    exact Or.inl ⟨fun hfree => hfree hslot, rfl, rfl⟩
  | some g =>
    right
    simp only [putFile, returns_bind, returns_update] at h
    obtain ⟨a, s₁, hopen, _, _, rfl, h⟩ := h
    obtain ⟨v, hv⟩ : ∃ v, s₁.inodes a = some v := by
      rcases inodeOpen_inv hopen with ⟨w, -, -, -, rfl⟩ | ⟨h', -, -, -, -, -, hs₁⟩
      · exact ⟨_, Fs.setInode_self⟩
      · rw [hs₁]
        exact ⟨_, Function.update_self ..⟩
    have hdeny := inodeOpen_denies hopen hv
    refine ⟨g, a, s₁, v, hslot, hopen, hv, ?_⟩
    rw [← hdeny]
    by_cases hwrite : writable flags = true
    · simp only [hwrite, if_true, returns_bind, returns_getInode] at h
      obtain ⟨w, _, ⟨hw, rfl⟩, h⟩ := h
      obtain rfl : v = w := Option.some.inj (hv.symm.trans hw)
      split at h
      · next hden =>
        obtain ⟨rfl, rfl⟩ := returns_pure.mp h
        exact Or.inl ⟨hwrite, hden, rfl, rfl⟩
      · next hden =>
        simp only [returns_bind, returns_putInode] at h
        obtain ⟨_, _, rfl, h⟩ := h
        refine Or.inr ⟨fun hboth => hden hboth.2, ?_⟩
        rw [hwrite, Bool.or_true]
        exact h
    · rw [if_neg hwrite] at h
      refine Or.inr ⟨fun hboth => hwrite hboth.1, ?_⟩
      have hsame : (s₁.setSlot g { fdPos := 0, fdFlag := flags, fdInode := some a }).setInode a
          { v with writeDeny := v.writeDeny || writable flags } =
          s₁.setSlot g { fdPos := 0, fdFlag := flags, fdInode := some a } := by
        have hback : Function.update s₁.inodes a (some v) = s₁.inodes := by
          rw [← hv, Function.update_eq_self]
        rw [Bool.not_eq_true _ |>.mp hwrite, Bool.or_false, Fs.setInode, Fs.setSlot, hback]
      rw [hsame]
      exact h

/-! ## sync_dir_entry does not fail -/

theorem syncDirEntryNewBlock_true {a blockIdx : Nat} {e : DirEntry} {allBlocks : Nat → Nat} {b : Bool}
    (hle : blockIdx ≤ 12) (h : Returns (syncDirEntryNewBlock a e allBlocks blockIdx) s b s') :
    b = true := by
  simp only [syncDirEntryNewBlock, returns_bind, returns_query, returns_blockBitmapAlloc] at h
  obtain ⟨_, _, ⟨rfl, rfl⟩, _, _, ⟨i, rfl, -, rfl⟩, h⟩ := h
  simp only [returns_bind] at h
  obtain ⟨_, _, -, h⟩ := h
  split at h
  · simp only [returns_bind, returns_pure] at h
    obtain ⟨_, _, -, _, _, ⟨rfl, rfl⟩, h⟩ := h
    simp only [returns_bind, returns_pure] at h
    obtain ⟨_, _, -, _, _, -, rfl, -⟩ := h
    rfl
  · simp only [if_pos (show blockIdx = 12 by omega), returns_bind, returns_blockBitmapAlloc] at h
    obtain ⟨_, _, -, _, _, ⟨j, rfl, -, rfl⟩, h⟩ := h
    simp only [returns_bind, returns_pure] at h
    obtain ⟨_, _, -, _, _, -, _, _, ⟨rfl, rfl⟩, h⟩ := h
    simp only [returns_bind, returns_pure] at h
    obtain ⟨_, _, -, _, _, -, rfl, -⟩ := h
    rfl

theorem syncDirEntryLoop_true {a perSec k m : Nat} {e : DirEntry} {allBlocks : Nat → Nat} {b : Bool}
    (hzero : allBlocks 12 = 0) (hk : k ≤ 12) (hm : 12 < k + m)
    (h : Returns (syncDirEntryLoop a e allBlocks perSec m k) s b s') : b = true := by
  induction m generalizing k s with
  | zero => omega
  | succ m ih =>
    simp only [syncDirEntryLoop] at h
    split at h
    · exact syncDirEntryNewBlock_true hk h
    · next hne =>
      have hk12 : k ≠ 12 := by
        rintro rfl
        exact hne hzero
      simp only [returns_bind] at h
      obtain ⟨block, _, -, h⟩ := h
      split at h
      · simp only [returns_bind, returns_pure] at h
        obtain ⟨_, _, -, _, _, -, _, _, -, rfl, -⟩ := h
        rfl
      · exact ih (by omega) (by omega) h

/-- The block after the direct ones always counts as missing, so there is room. -/
theorem syncDirEntry_true {e : DirEntry} {b : Bool} (h : Returns (syncDirEntry p e) s b s') :
    b = true := by
  simp only [syncDirEntry, returns_bind] at h
  obtain ⟨a, _, -, v, _, -, _, _, -, _, _, -, h⟩ := h
  exact syncDirEntryLoop_true (by simp) (by omega) (by omega) h

/-! ## file_create -/

/-- A request that is served. -/
theorem served_of_sysMalloc {a : Nat} (h : Returns sysMalloc s (some a) s') :
    (∃ k, s.tasks s.cur = some k) ∧ s.heap.full s.heap.next = false := by
  simp only [sysMalloc, mallocFrom, returns_bind, returns_runningThread, returns_query] at h
  obtain ⟨k, _, ⟨hk, rfl⟩, _, _, ⟨rfl, rfl⟩, h⟩ := h
  refine ⟨⟨k, hk⟩, ?_⟩
  by_contra hfull
  rw [Bool.not_eq_false] at hfull
  rw [if_pos hfull] at h
  simp only [returns_bind, returns_pure] at h
  obtain ⟨_, _, -, hnone, -⟩ := h
  cases hnone

/-- Two requests that are served, with the heap alone in between. -/
theorem hasMemory_of_two {t : Fs} {a b : Nat} (h : Returns sysMalloc s (some a) s₁)
    (h' : Returns sysMalloc t (some b) s₂) (hheap : t.heap = s₁.heap) : s.HasMemory 2 := by
  obtain ⟨hrun, hfull⟩ := served_of_sysMalloc h
  obtain ⟨-, hfull'⟩ := served_of_sysMalloc h'
  refine ⟨hrun, fun i hi => ?_⟩
  rcases Nat.lt_succ_iff_lt_or_eq.mp hi with hi | rfl
  · obtain rfl : i = 0 := by omega
    exact hfull
  · rw [← (keeps_sysMalloc (R := CacheFrame) h).full, ← (returns_sysMalloc h).2.1, ← hheap]
    exact hfull'

/-- `file_create` gives up with the cache as it was, or the new inode, with one
    reference, is in slot `g` and what is left is to find a descriptor. -/
theorem fileCreate_cases (hok : s.CacheOk) (h : Returns (fileCreate p name flags) s r s') :
    (¬ (s.HasMemory 2 ∧ s.SlotFree) ∧ r = -1 ∧ CacheFrame s s') ∨
    ∃ g a n v s₁, s.HasMemory 2 ∧ freeSlotFrom s.fileTable (maxFilesOpen - 3) 3 = some g ∧
      s.inodeMap.IsFirstClear n ∧ s.heap.next ≤ a ∧ CacheStep s s₁ (Pi.single a 1) ∧
      s₁.dirs = s.dirs ∧ s₁.inodes a = some v ∧ v.iNo = n ∧ v.iOpenCnt = 1 ∧ v.writeDeny = false ∧
      Returns (pcbFdInstall g)
        (s₁.setSlot g { fdPos := 0, fdFlag := flags, fdInode := some a }) r s' := by
  simp only [fileCreate, returns_bind] at h
  obtain ⟨ioBuf, t₁, hmalloc, h⟩ := h
  have hframe₁ := keeps_sysMalloc (R := CacheFrame) hmalloc
  obtain ⟨e₁, hnext₁, -⟩ := returns_sysMalloc hmalloc
  split at h
  · next hnone =>
    subst hnone
    obtain ⟨rfl, rfl⟩ := returns_pure.mp h
    refine Or.inl ⟨?_, rfl, hframe₁⟩
    rintro ⟨⟨-, hfull⟩, -⟩
    have hserved := hfull 0 (by omega)
    rw [Nat.add_zero, full_of_sysMalloc hmalloc] at hserved
    cases hserved
  next hbuf =>
  simp only [returns_bind, returns_inodeBitmapAlloc] at h
  obtain ⟨_, _, ⟨n, rfl, hfirst, rfl⟩, h⟩ := h
  simp only [returns_bind] at h
  obtain ⟨inode, t₃, hmalloc', h⟩ := h
  have hframe₂ : CacheFrame t₁ { t₁ with inodeMap := t₁.inodeMap.bitmapSet n true } :=
    .of_eq ⟨rfl, rfl, rfl, rfl, rfl, rfl⟩ rfl rfl rfl le_rfl
  have hframe₃ := (hframe₁.trans hframe₂).trans (keeps_sysMalloc hmalloc')
  obtain ⟨e₃, hnext₃, haddr⟩ := returns_sysMalloc hmalloc'
  cases inode with
  | none =>
    simp only [returns_bind, returns_pure] at h
    obtain ⟨_, _, hset, _, _, hfree, rfl, rfl⟩ := h
    refine Or.inl ⟨?_, rfl, (hframe₃.trans (keeps_inodeMapSet hset)).trans (keeps_sysFree hfree)⟩
    rintro ⟨⟨-, hfull⟩, -⟩
    have hserved := hfull 1 (by omega)
    rw [← hframe₁.full, ← hnext₁, full_of_sysMalloc hmalloc'] at hserved
    cases hserved
  | some a =>
    obtain rfl := haddr a rfl
    obtain ⟨a, ha⟩ : ∃ a, a = t₁.heap.next := ⟨_, rfl⟩
    have hold : s.heap.next ≤ a := by omega
    have hfresh : t₃.inodes a = none := by
      rw [hframe₃.none_iff a]
      by_contra hsome
      have := hok.inode_lt a hsome
      omega
    have hmemory : s.HasMemory 2 := by
      obtain ⟨ioAddr, rfl⟩ := Option.ne_none_iff_exists'.mp hbuf
      exact hasMemory_of_two hmalloc hmalloc' rfl
    have htable : t₃.fileTable = s.fileTable := hframe₃.fileTable
    simp only [← ha, getFreeSlotInGlobal, returns_bind, returns_putInode, returns_query,
      returns_pure] at h
    obtain ⟨_, _, rfl, slot, _, ⟨_, _, ⟨rfl, rfl⟩, hslot, rfl⟩, h⟩ := h
    have hslot' : freeSlotFrom s.fileTable (maxFilesOpen - 3) 3 = slot := htable ▸ hslot
    cases slot with
    | none =>
      -- the new inode is given back
      simp only [returns_bind, returns_update, returns_pure, Function.update_idem] at h
      obtain ⟨_, _, rfl, _, _, hfree, _, _, hset, _, _, hfree', rfl, rfl⟩ := h
      have hback : Function.update t₃.inodes a none = t₃.inodes := by
        rw [← hfresh, Function.update_eq_self]
      rw [hback] at hfree
      have hframe := ((hframe₃.trans (keeps_sysFree hfree)).trans (keeps_inodeMapSet hset)).trans
        (keeps_sysFree hfree')
      exact Or.inl ⟨fun hboth => hboth.2 hslot', rfl, hframe⟩
    | some g =>
      right
      simp only [putFile, returns_bind, returns_update] at h
      obtain ⟨_, _, rfl, e, t₄, hentry, b, t₅, hinsert, h⟩ := h
      obtain rfl := syncDirEntry_true hinsert
      simp only [Bool.not_true, Bool.false_eq_true, if_false, returns_bind, returns_getInode,
        returns_putInode, returns_update] at h
      obtain ⟨d, t₆, hdir, w, _, ⟨-, rfl⟩, _, t₇, hsync, w', _, ⟨-, rfl⟩, _, t₈, hsync', _, t₉, hbits, _,
        _, rfl, v, _, ⟨hv, rfl⟩, _, _, rfl, _, t₁₀, hfree, h⟩ := h
      have hmid := ((((((keeps_createDirEntry (R := CacheFrame) hentry).trans (keeps_syncDirEntry hinsert)).trans
        (keeps_dirInode hdir)).trans (keeps_inodeSync hsync)).trans (keeps_inodeSync hsync')).trans
        (keeps_bitmapSync hbits))
      have hend := keeps_sysFree hfree
      -- the inode keeps what `inode_init` gave it but for its reference
      have hident : v.ident = (inodeInit n).ident := by
        have hsame : (t₉.inodes a).map Inode.ident =
            (Function.update t₃.inodes a (some (inodeInit n)) a).map Inode.ident := hmid.ident a
        rw [Function.update_self, show t₉.inodes a = some v from hv] at hsame
        exact Option.some.inj hsame
      obtain ⟨u, hu, hidentu⟩ := hend.ident_some (a := a) (Function.update_self ..)
      have hno : u.iNo = n := (congrArg Prod.fst hidentu).trans (congrArg Prod.fst hident)
      have hcnt : u.iOpenCnt = 1 := congrArg (fun i => i.2.1) hidentu
      have hdeny : u.writeDeny = false :=
        (congrArg (fun i => i.2.2) hidentu).trans (congrArg (fun i => i.2.2) hident)
      have hfile : t₁₀.fileTable =
          Function.update s.fileTable g { fdPos := 0, fdFlag := flags, fdInode := some a } := by
        rw [hend.fileTable, ← htable]
        exact hmid.fileTable
      have hdirs : t₁₀.dirs = s.dirs := (hend.dirs.trans hmid.dirs).trans hframe₃.dirs
      let s₁ : Fs := { t₁₀ with fileTable := s.fileTable }
      have houter : Outer s s₁ := by
        refine ⟨(hend.rings.trans hmid.rings).trans hframe₃.rings,
          (hend.rootDir.trans hmid.rootDir).trans hframe₃.rootDir, rfl,
          (hend.tasks.trans hmid.tasks).trans hframe₃.tasks,
          (hend.cur.trans hmid.cur).trans hframe₃.cur,
          (hend.full.trans hmid.full).trans hframe₃.full⟩
      have hopen : s₁.openInodes = a :: s.openInodes := by
        show t₁₀.openInodes = _
        rw [hend.openInodes]
        show a :: t₉.openInodes = _
        rw [hmid.openInodes]
        exact congrArg (a :: ·) hframe₃.openInodes
      have hnew : a < s₁.heap.next := by
        have h1 : t₃.heap.next ≤ t₉.heap.next := hmid.next
        have h2 : t₉.heap.next ≤ t₁₀.heap.next := hend.next
        show a < t₁₀.heap.next
        have h3 : t₃.heap.next = t₁.heap.next + 1 := hnext₃
        omega
      have hother (b : Nat) (hb : b ≠ a) : (s₁.inodes b).map Inode.ident = (s.inodes b).map Inode.ident := by
        rw [← hframe₃.ident b]
        show (t₁₀.inodes b).map Inode.ident = _
        rw [hend.ident b]
        show (Function.update t₉.inodes a _ b).map Inode.ident = _
        rw [Function.update_of_ne hb, hmid.ident b]
        show (Function.update t₃.inodes a _ b).map Inode.ident = _
        rw [Function.update_of_ne hb]
      have hstep : CacheStep s s₁ (Pi.single a 1) :=
        .newInode hok hold hnew hcnt houter hopen hdirs hu hother
      have hfirst' : s.inodeMap.IsFirstClear n := by
        rw [e₁] at hfirst
        exact hfirst
      have hback : s₁.setSlot g { fdPos := 0, fdFlag := flags, fdInode := some a } = t₁₀ := by
        simp only [Fs.setSlot, s₁, ← hfile]
      refine ⟨g, a, n, u, s₁, hmemory, hslot', hfirst', hold, hstep, hdirs, hu, hno, hcnt, hdeny, ?_⟩
      rw [hback]
      exact h

/-! ## sys_open -/

theorem Fs.Finds.unique {path : CStr} {i i' : Option Nat} {rec rec' : PathSearchRecord}
    (h : s.Finds path i rec s₁) (h' : s.Finds path i' rec' s₂) : i = i' ∧ rec = rec' ∧ s₁ = s₂ := by
  obtain ⟨heq, hs⟩ := h.search.unique h'.search
  exact ⟨congrArg Prod.fst heq, congrArg Prod.snd heq, hs⟩

/-- Where `sys_open` gives up before it creates or opens, it closes the directory that
    `search_file` has left open. -/
theorem sysOpen_split (h : Returns (sysOpen path flags) s r s') :
    (r = -1 ∧ (s = s' ∨ ∃ i rec s₁, Returns (searchFile (slash :: path.tail)) s (i, rec) s₁ ∧
        Returns (dirClose rec.parentDir) s₁ () s') ∧
      ∀ i rec s₁, s.Finds path i rec s₁ → i.isSome = creating flags) ∨
    (∃ rec s₁ s₂, s.Finds path none rec s₁ ∧ creating flags = true ∧ flags ≤ 7 ∧
      Returns (fileCreate rec.parentDir (lastName (slash :: path.tail)) flags) s₁ r s₂ ∧
      Returns (dirClose rec.parentDir) s₂ () s') ∨
    ∃ n rec s₁, s.Finds path (some n) rec s₁ ∧ creating flags = false ∧ flags ≤ 7 ∧
      Returns (fileOpen n flags) s₁ r s' := by
  simp only [sysOpen, returns_bind, returns_require] at h
  obtain ⟨_, _, ⟨-, rfl⟩, h⟩ := h
  split at h
  · next hslash =>
    obtain ⟨rfl, rfl⟩ := returns_pure.mp h
    exact Or.inl ⟨rfl, Or.inl rfl, fun i rec s₁ hf => absurd hslash hf.noSlash⟩
  next hslash =>
  simp only [returns_bind, returns_assert] at h
  obtain ⟨_, _, ⟨hflags, rfl⟩, depth, s₀, hdepth, ⟨iNo, rec⟩, s₁, hsearch, h⟩ := h
  obtain rfl := keeps_pathDepthCnt hdepth
  dsimp only at h
  -- the ways out that close the directory
  have hout (hno : ∀ i rec' t, s.Finds path i rec' t → i.isSome = creating flags) (h : Returns (do
      dirClose rec.parentDir
      return (-1 : Int)) s₁ r s') : r = -1 ∧
        (s = s' ∨ ∃ i rec s₁, Returns (searchFile (slash :: path.tail)) s (i, rec) s₁ ∧
          Returns (dirClose rec.parentDir) s₁ () s') ∧
        ∀ i rec' t, s.Finds path i rec' t → i.isSome = creating flags := by
    simp only [returns_bind, returns_pure] at h
    obtain ⟨_, _, hclose, rfl, rfl⟩ := h
    exact ⟨rfl, Or.inr ⟨iNo, rec, s₁, hsearch, hclose⟩, hno⟩
  split at h
  · next hdir =>
    refine Or.inl (hout (fun i rec' t hf => ?_) h)
    obtain ⟨heq, -⟩ := hsearch.unique hf.search
    obtain rfl := congrArg Prod.snd heq
    exact absurd hdir hf.file
  next hdir =>
  simp only [returns_bind] at h
  obtain ⟨depth', t, hdepth', h⟩ := h
  obtain rfl := keeps_pathDepthCnt hdepth'
  split at h
  · next hne =>
    refine Or.inl (hout (fun i rec' t hf => ?_) h)
    obtain ⟨heq, rfl⟩ := hsearch.unique hf.search
    obtain rfl := congrArg Prod.snd heq
    obtain ⟨d, hd, hd'⟩ := hf.depth
    exact absurd ((hdepth.unique hd).1.trans (hd'.unique hdepth').1) hne
  next heq =>
  rw [not_not] at heq
  subst heq
  have hfinds : s.Finds path iNo rec s₁ := ⟨hslash, hsearch, hdir, depth, hdepth, hdepth'⟩
  cases iNo with
  | none =>
    by_cases hcreate : creating flags = true
    · simp only [hcreate, if_true, returns_bind, returns_pure] at h
      obtain ⟨fd, s₂, hnew, _, _, hclose, rfl, rfl⟩ := h
      exact Or.inr (Or.inl ⟨rec, s₁, s₂, hfinds, hcreate, hflags, hnew, hclose⟩)
    · rw [Bool.not_eq_true] at hcreate
      simp only [hcreate, Bool.false_eq_true, if_false] at h
      refine Or.inl (hout (fun i rec' t hf => ?_) h)
      obtain ⟨rfl, -⟩ := hfinds.unique hf
      exact hcreate.symm
  | some n =>
    by_cases hcreate : creating flags = true
    · simp only [hcreate, if_true] at h
      refine Or.inl (hout (fun i rec' t hf => ?_) h)
      obtain ⟨rfl, -⟩ := hfinds.unique hf
      exact hcreate.symm
    · rw [Bool.not_eq_true] at hcreate
      simp only [hcreate, Bool.false_eq_true, if_false] at h
      exact Or.inr (Or.inr ⟨n, rec, s₁, hfinds, hcreate, hflags, h⟩)

/-- Where `sys_open` gives up before it creates or opens, every directory is closed. -/
theorem sysOpen_cases (hok : s.CacheOk) (h : Returns (sysOpen path flags) s r s') :
    (r = -1 ∧ HoldsDir s s' .root ∧
      ∀ i rec s₁, s.Finds path i rec s₁ → i.isSome = creating flags) ∨
    (∃ rec s₁ s₂, s.Finds path none rec s₁ ∧ creating flags = true ∧ flags ≤ 7 ∧
      HoldsDir s s₁ rec.parentDir ∧
      Returns (fileCreate rec.parentDir (lastName (slash :: path.tail)) flags) s₁ r s₂ ∧
      Returns (dirClose rec.parentDir) s₂ () s') ∨
    ∃ n rec s₁, s.Finds path (some n) rec s₁ ∧ creating flags = false ∧ flags ≤ 7 ∧
      HoldsDir s s₁ rec.parentDir ∧ Returns (fileOpen n flags) s₁ r s' := by
  rcases sysOpen_split h with ⟨rfl, hgave, hno⟩ |
    ⟨rec, s₁, s₂, hfinds, hcreate, hflags, hnew, hclose⟩ | ⟨n, rec, s₁, hfinds, hcreate, hflags, hfile⟩
  · refine Or.inl ⟨rfl, ?_, hno⟩
    rcases hgave with rfl | ⟨i, rec, s₁, hsearch, hclose⟩
    · exact (refl_of CacheFrame s).holds hok
    · exact (searchFile_holds hok hsearch).close hok hclose
  · exact Or.inr (Or.inl ⟨rec, s₁, s₂, hfinds, hcreate, hflags, searchFile_holds hok hfinds.search, hnew,
      hclose⟩)
  · exact Or.inr (Or.inr ⟨n, rec, s₁, hfinds, hcreate, hflags, searchFile_holds hok hfinds.search, hfile⟩)

theorem HoldsDir.slotFree_iff (h : HoldsDir s s₁ p) : s₁.SlotFree ↔ s.SlotFree := by
  rw [Fs.SlotFree, Fs.SlotFree, h.fileTable]

theorem HoldsDir.fdsFull_iff (h : HoldsDir s s₁ p) : s₁.FdsFull ↔ s.FdsFull := by
  rw [Fs.FdsFull, Fs.FdsFull, h.tasks, h.cur]

theorem RefsBy.setTask {t : Nat} {k : Task} (hok : s.CacheOk) : RefsBy s (s.setTask t k) 0 where
  ok := ⟨hok.nodup, hok.mem, hok.pos, hok.inode_lt, hok.dir_lt⟩
  next := le_rfl
  cnt := fun _ => (add_zero _).symm
  gone := fun _ _ h => h
  number := fun a v v' hv hv' => by rw [Option.some.inj (hv.symm.trans hv')]

theorem RefsBy.setSlot {g : Nat} {f : File} (hok : s.CacheOk) : RefsBy s (s.setSlot g f) 0 where
  ok := ⟨hok.nodup, hok.mem, hok.pos, hok.inode_lt, hok.dir_lt⟩
  next := le_rfl
  cnt := fun _ => (add_zero _).symm
  gone := fun _ _ h => h
  number := fun a v v' hv hv' => by rw [Option.some.inj (hv.symm.trans hv')]

/-! ## What is left open -/

/-- An inode that denies writing and stays in memory goes on denying it. -/
def DenyKept (s s' : Fs) : Prop :=
  ∀ a v v', s.inodes a = some v → s'.inodes a = some v' → v.writeDeny = true → v'.writeDeny = true

theorem DenyKept.of_inodes (h : s'.inodes = s.inodes) : DenyKept s s' := by
  intro a v v' hv hv' hdeny
  rw [h, hv] at hv'
  rw [← Option.some.inj hv']
  exact hdeny

theorem CacheStep.denyKept {d : Nat → Int} (h : CacheStep s s' d) : DenyKept s s' := by
  intro a v v' hv hv' hdeny
  rw [h.deny a v v' hv hv']
  exact hdeny

theorem DenyKept.setInode {a : Nat} {v v' : Inode} (hv : s.inodes a = some v)
    (hkept : v.writeDeny = true → v'.writeDeny = true) : DenyKept s (s.setInode a v') := by
  intro b w w' hw hw' hdeny
  by_cases hb : b = a
  · subst hb
    obtain rfl : v = w := Option.some.inj (hv.symm.trans hw)
    rw [← Option.some.inj (Fs.setInode_self.symm.trans hw')]
    exact hkept hdeny
  · rw [Fs.setInode_of_ne hb] at hw'
    rw [← Option.some.inj (hw.symm.trans hw')]
    exact hdeny

/-- An inode that is in memory at the end has been there all the time. -/
theorem DenyKept.trans {d d' : Nat → Int} (hok : s.CacheOk) (hrefs : RefsBy s s₁ d)
    (hrefs' : RefsBy s₁ s₂ d') (h : DenyKept s s₁) (h' : DenyKept s₁ s₂) : DenyKept s s₂ := by
  intro a v v' hv hv' hdeny
  have hlt : a < s.heap.next := hok.inode_lt a (by rw [hv]; simp)
  cases hmid : s₁.inodes a with
  | none =>
    rw [hrefs'.gone a (Nat.lt_of_lt_of_le hlt hrefs.next) hmid] at hv'
    cases hv'
  | some w => exact h' a w v' hmid hv' (h a v w hv hmid hdeny)

/-- `sys_open` has taken slot `g` for the inode at `a`, which is new in memory or the cached
    inode of the file found; `r` is the descriptor it returns, or `-1`. -/
structure Opened (s s' : Fs) (path : CStr) (flags g a : Nat) (d : Nat → Int) (r : Int) : Prop where
  refs : RefsBy s s' d
  nonneg : ∀ b, 0 ≤ d b
  one : 1 ≤ d a
  small : flags ≤ 7
  free : freeSlotFrom s.fileTable (maxFilesOpen - 3) 3 = some g
  file : s'.fileTable =
    Function.update s.fileTable g { fdPos := 0, fdFlag := flags, fdInode := some a }
  cur : s'.cur = s.cur
  fds : r = -1 ∧ s'.tasks = s.tasks ∨ ∃ k fd, s.tasks s.cur = some k ∧ k.fdtable fd = -1 ∧ r = fd.val ∧
    s'.tasks =
      Function.update s.tasks s.cur (some { k with fdtable := Function.update k.fdtable fd g })
  origin : s.heap.next ≤ a ∨
    ∃ n rec s₁, s.Finds path (some n) rec s₁ ∧ creating flags = false ∧ s₁.cached n = some a
  created : creating flags = true → ∃ rec s₁, s.Finds path none rec s₁
  kept : DenyKept s s'
  denies : creating flags = false → writable flags = true →
    ∀ v, s'.inodes a = some v → v.writeDeny = true

/-- What `pcb_fd_install` does with the descriptors, the slots and the references. -/
theorem pcbFdInstall_fds {g : Nat} (hok : s.CacheOk) (h : Returns (pcbFdInstall g) s r s') :
    RefsBy s s' 0 ∧ s'.dirs = s.dirs ∧ s'.inodes = s.inodes ∧ s'.fileTable = s.fileTable ∧
      s'.cur = s.cur ∧ (r = -1 ∧ s'.tasks = s.tasks ∨ ∃ k fd, s.tasks s.cur = some k ∧ k.fdtable fd = -1 ∧
        r = fd.val ∧ s'.tasks = Function.update s.tasks s.cur
          (some { k with fdtable := Function.update k.fdtable fd g })) := by
  obtain ⟨k, hk, ⟨hfull, rfl, rfl⟩ | ⟨fd, hfd, rfl, rfl⟩⟩ := pcbFdInstall_cases h
  · exact ⟨((refl_of CacheFrame s).step hok).toRefsBy, rfl, rfl, rfl, rfl, Or.inl ⟨rfl, rfl⟩⟩
  · exact ⟨.setTask hok, rfl, rfl, rfl, rfl, Or.inr ⟨k, fd, hk, (freeFdFrom_some hfd).2, rfl, rfl⟩⟩

theorem sysOpen_opened (hok : s.CacheOk) (h : Returns (sysOpen path flags) s r s') :
    (r = -1 ∧ ∃ p, HoldsDir s s' p) ∨ ∃ g a d, Opened s s' path flags g a d r := by
  rcases sysOpen_cases hok h with ⟨rfl, hclosed, -⟩ |
    ⟨rec, t, t', hfinds, hcreate, hflags, hheld, hnew, hclose⟩ |
    ⟨n, rec, t, hfinds, hcreate, hflags, hheld, hfile⟩
  · exact Or.inl ⟨rfl, .root, hclosed⟩
  · rcases fileCreate_cases hheld.ok hnew with ⟨-, rfl, hframe⟩ |
      ⟨g, a, n, v, t₁, -, hslot, -, hold, hstep, hdirs, -, -, -, -, hinst⟩
    · exact Or.inl ⟨rfl, .root, (hheld.frame hok hframe).close hok hclose⟩
    · right
      let f : File := { fdPos := 0, fdFlag := flags, fdInode := some a }
      have hset : RefsBy t₁ (t₁.setSlot g f) 0 := .setSlot hstep.ok
      obtain ⟨hinst, hdirs', hinodes, hfile, hcur, hfds⟩ := pcbFdInstall_fds hset.ok hinst
      obtain ⟨hclosed, -, -⟩ := dirClose_step hinst.ok hclose
      have hkept : DenyKept s s' := by
        have h₁ : DenyKept s t₁ :=
          .trans hok hheld.toRefsBy hstep.toRefsBy hheld.toCacheStep.denyKept hstep.denyKept
        have h₂ : DenyKept (t₁.setSlot g f) s' :=
          .trans hset.ok hinst hclosed.toRefsBy (.of_inodes hinodes) hclosed.denyKept
        have hrefs₁ := hheld.toRefsBy.trans hok hstep.toRefsBy
        exact .trans hok hrefs₁ (hset.trans hstep.ok (hinst.trans hset.ok hclosed.toRefsBy)) h₁ h₂
      have href : t'.dirRef rec.parentDir = t.dirRef rec.parentDir := by
        cases rec.parentDir with
        | root => rfl
        | heap d =>
          have hsame : t'.dirs = t.dirs := hdirs'.trans hdirs
          simp only [Fs.dirRef, hsame]
      have hall := (((hheld.toRefsBy.trans hok hstep.toRefsBy).trans hok hset).trans hok hinst).trans
        hok hclosed.toRefsBy
      rw [href, add_zero, add_zero, add_neg_cancel_comm] at hall
      have htasks : t₁.tasks = s.tasks := hstep.tasks.trans hheld.tasks
      have hcur₁ : t₁.cur = s.cur := hstep.cur.trans hheld.cur
      refine ⟨g, a, Pi.single a 1, ?_⟩
      refine
        { refs := hall
          nonneg := fun b => ?_
          one := by rw [Pi.single_eq_same]
          small := hflags
          free := by rw [← hheld.fileTable]; exact hslot
          file := ?_
          cur := (hclosed.cur.trans hcur).trans hcur₁
          fds := ?_
          origin := Or.inl (hheld.next.trans hold)
          created := fun _ => ⟨rec, t, hfinds⟩
          kept := hkept
          denies := fun hno => by rw [hcreate] at hno; cases hno }
      · by_cases hb : b = a
        · rw [hb, Pi.single_eq_same]
          omega
        · rw [Pi.single_eq_of_ne hb]
      · rw [hclosed.fileTable, hfile]
        show Function.update t₁.fileTable g f = _
        rw [hstep.fileTable, hheld.fileTable]
      · rw [hclosed.tasks]
        rcases hfds with ⟨hr, hsame⟩ | ⟨k, fd, hk, hneg, hr, hsame⟩
        · exact Or.inl ⟨hr, hsame.trans htasks⟩
        · refine Or.inr ⟨k, fd, ?_, hneg, hr, ?_⟩
          · rw [← htasks, ← hcur₁]
            exact hk
          · rw [hsame]
            show Function.update t₁.tasks t₁.cur _ = _
            rw [htasks, hcur₁]
  · rcases fileOpen_cases hfile with ⟨-, rfl, rfl⟩ | ⟨g, a, t₁, v, hslot, hopen, hv, hend⟩
    · exact Or.inl ⟨rfl, _, hheld⟩
    · right
      obtain ⟨hstep, hdirs, -⟩ := inodeOpen_step hheld.ok hopen
      let f : File := { fdPos := 0, fdFlag := flags, fdInode := some a }
      have hset : RefsBy t₁ (t₁.setSlot g f) 0 := .setSlot hstep.ok
      have hopened := (hheld.toRefsBy.trans hok hstep.toRefsBy).trans hok hset
      rw [add_zero] at hopened
      have htasks : t₁.tasks = s.tasks := hstep.tasks.trans hheld.tasks
      have hcur₁ : t₁.cur = s.cur := hstep.cur.trans hheld.cur
      have hfile₁ : t₁.fileTable = s.fileTable := hstep.fileTable.trans hheld.fileTable
      have hnonneg (b : Nat) : 0 ≤ (t.dirRef rec.parentDir + Pi.single a 1 : Nat → Int) b := by
        have hdir := t.dirRef_nonneg rec.parentDir b
        rw [Pi.add_apply]
        by_cases hb : b = a
        · rw [hb, Pi.single_eq_same]
          rw [hb] at hdir
          omega
        · rw [Pi.single_eq_of_ne hb]
          omega
      have hone : 1 ≤ (t.dirRef rec.parentDir + Pi.single a 1 : Nat → Int) a := by
        have hdir := t.dirRef_nonneg rec.parentDir a
        rw [Pi.add_apply, Pi.single_eq_same]
        omega
      have horigin : s.heap.next ≤ a ∨
          ∃ n rec s₁, s.Finds path (some n) rec s₁ ∧ creating flags = false ∧ s₁.cached n = some a := by
        rcases inodeOpen_inv hopen with ⟨w, hcached, -⟩ | ⟨h', -, -, rfl, -⟩
        · exact Or.inr ⟨n, rec, t, hfinds, hcreate, hcached⟩
        · exact Or.inl hheld.next
      have hfree : freeSlotFrom s.fileTable (maxFilesOpen - 3) 3 = some g := by
        rw [← hheld.fileTable]
        exact hslot
      have hkept₁ : DenyKept s t₁ :=
        .trans hok hheld.toRefsBy hstep.toRefsBy hheld.toCacheStep.denyKept hstep.denyKept
      have hcreated (hyes : creating flags = true) : ∃ rec s₁, s.Finds path none rec s₁ := by
        rw [hcreate] at hyes
        cases hyes
      rcases hend with ⟨-, hdeny, rfl, rfl⟩ | ⟨-, hinst⟩
      · refine ⟨g, a, _, ⟨hopened, hnonneg, hone, hflags, hfree, by rw [← hfile₁]; rfl, hcur₁,
          Or.inl ⟨rfl, htasks⟩, horigin, hcreated, hkept₁, fun _ _ w hw => ?_⟩⟩
        obtain rfl : v = w := Option.some.inj (hv.symm.trans hw)
        rw [inodeOpen_denies hopen hv]
        exact hdeny
      · have hput : RefsBy (t₁.setSlot g f) ((t₁.setSlot g f).setInode a
            { v with writeDeny := v.writeDeny || writable flags }) _ :=
          .setInode hset.ok hv rfl (hstep.ok.pos a v hv)
        obtain ⟨hinst, -, hinodes, hfile', hcur', hfds⟩ := pcbFdInstall_fds hput.ok hinst
        have hkept₂ : DenyKept (t₁.setSlot g f) s' := by
          apply DenyKept.trans hset.ok hput hinst (.setInode hv fun hdeny => ?_) (.of_inodes hinodes)
          show (v.writeDeny || writable flags) = true
          rw [hdeny, Bool.true_or]
        have hkept : DenyKept s s' :=
          .trans hok (hheld.toRefsBy.trans hok hstep.toRefsBy)
            (hset.trans hstep.ok (hput.trans hset.ok hinst)) hkept₁ hkept₂
        have hall := (hopened.trans hok hput).trans hok hinst
        rw [sub_self, Pi.single_zero, add_zero, add_zero] at hall
        refine ⟨g, a, _, ⟨hall, hnonneg, hone, hflags, hfree, ?_, hcur'.trans hcur₁, ?_, horigin, hcreated,
          hkept, fun _ hwrite w hw => ?_⟩⟩
        · rw [hfile', ← hfile₁]
          rfl
        · rcases hfds with ⟨hr, hsame⟩ | ⟨k, fd, hk, hneg, hr, hsame⟩
          · exact Or.inl ⟨hr, hsame.trans htasks⟩
          · refine Or.inr ⟨k, fd, ?_, hneg, hr, ?_⟩
            · rw [← htasks, ← hcur₁]
              exact hk
            · rw [hsame]
              show Function.update t₁.tasks t₁.cur _ = _
              rw [htasks, hcur₁]
        · rw [hinodes, Fs.setInode_self] at hw
          rw [← Option.some.inj hw]
          show (v.writeDeny || writable flags) = true
          rw [hwrite, Bool.or_true]

end Cases

end ZxyOs
