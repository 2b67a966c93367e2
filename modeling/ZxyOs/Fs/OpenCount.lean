/-
  ZxyOs.Fs.OpenCount

  The references to the cached inodes.

  `RefsBy s s' d` says that in `s'` the inode at `a` has `d a` references more than in
  `s`: opening adds one, closing takes one away, and the relation composes by adding.
  `HoldsDir s s' p` says that `s'` is `s` with the handle `p` open on top of it.  A call
  is balanced when every handle it opens is closed on the way out.

  The static handle of the root directory has no reference of its own.
-/

import ZxyOs.Fs.CacheFrame
import ZxyOs.Fs.InodeTable
import Mathlib.Algebra.Group.Pi.Lemmas
import Mathlib.Algebra.Order.Ring.Int
import Mathlib.Tactic.Abel

namespace ZxyOs

open Lib Lib.Exec

/-! ## The cache -/

/-- `i_open_cnt` of the inode at address `a`, 0 where there is none. -/
def Fs.openCnt (s : Fs) (a : Nat) : Nat :=
  match s.inodes a with
  | some v => v.iOpenCnt
  | none => 0

/-- The list of open inodes holds the inodes in memory, once each, and every one of them
    has a reference; the heap hands out addresses that are new. -/
structure Fs.CacheOk (s : Fs) : Prop where
  nodup : s.openInodes.Nodup
  mem : ∀ a, a ∈ s.openInodes ↔ s.inodes a ≠ none
  pos : ∀ a v, s.inodes a = some v → 0 < v.iOpenCnt
  inode_lt : ∀ a, s.inodes a ≠ none → a < s.heap.next
  dir_lt : ∀ d, s.dirs d ≠ none → d < s.heap.next

/-- An inode is on the list as long as it has a reference. -/
theorem Fs.CacheOk.mem_iff_pos {s : Fs} (h : s.CacheOk) (a : Nat) :
    a ∈ s.openInodes ↔ 0 < s.openCnt a := by
  rw [h.mem a, Fs.openCnt]
  cases hv : s.inodes a with
  | none => simp
  | some v =>
    have := h.pos a v hv
    simpa using this

/-- `s'` has `d a` references more to the inode at `a` than `s`.  What has been closed
    stays so, and an inode that stays open keeps its number. -/
structure RefsBy (s s' : Fs) (d : Nat → Int) : Prop where
  ok : s'.CacheOk
  next : s.heap.next ≤ s'.heap.next
  cnt : ∀ a, (s'.openCnt a : Int) = s.openCnt a + d a
  gone : ∀ a < s.heap.next, s.inodes a = none → s'.inodes a = none
  number : ∀ a v v', s.inodes a = some v → s'.inodes a = some v' → v'.iNo = v.iNo

/-- A step in which the inodes that stay open keep their write permission. -/
structure CacheStep (s s' : Fs) (d : Nat → Int) : Prop extends RefsBy s s' d, Outer s s' where
  deny : ∀ a v v', s.inodes a = some v → s'.inodes a = some v' → v'.writeDeny = v.writeDeny

section Steps

variable {s s' s₁ s₂ s₃ : Fs} {a : Nat} {d d' : Nat → Int}

theorem RefsBy.trans (hok : s₁.CacheOk) (h : RefsBy s₁ s₂ d) (h' : RefsBy s₂ s₃ d') :
    RefsBy s₁ s₃ (d + d') where
  ok := h'.ok
  next := h.next.trans h'.next
  cnt := by
    intro a
    rw [h'.cnt a, h.cnt a, Pi.add_apply, add_assoc]
  gone := by
    intro a ha hnone
    exact h'.gone a (Nat.lt_of_lt_of_le ha h.next) (h.gone a ha hnone)
  number := by
    intro a v v' hv hv'
    have hlt : a < s₁.heap.next := hok.inode_lt a (by rw [hv]; simp)
    cases hmid : s₂.inodes a with
    | none =>
      rw [h'.gone a (Nat.lt_of_lt_of_le hlt h.next) hmid] at hv'
      cases hv'
    | some w => rw [h'.number a w v' hmid hv', h.number a v w hv hmid]

theorem CacheStep.trans (hok : s₁.CacheOk) (h : CacheStep s₁ s₂ d) (h' : CacheStep s₂ s₃ d') :
    CacheStep s₁ s₃ (d + d') where
  toRefsBy := h.toRefsBy.trans hok h'.toRefsBy
  toOuter := h.toOuter.trans h'.toOuter
  deny := by
    intro a v v' hv hv'
    have hlt : a < s₁.heap.next := hok.inode_lt a (by rw [hv]; simp)
    cases hmid : s₂.inodes a with
    | none =>
      rw [h'.gone a (Nat.lt_of_lt_of_le hlt h.next) hmid] at hv'
      cases hv'
    | some w => rw [h'.deny a w v' hmid hv', h.deny a v w hv hmid]

theorem CacheFrame.openCnt (h : CacheFrame s s') (a : Nat) : s'.openCnt a = s.openCnt a := by
  simp only [Fs.openCnt]
  cases hv : s.inodes a with
  | none =>
    have hident := h.ident a
    rw [hv, Option.map_none, Option.map_eq_none_iff] at hident
    rw [hident]
  | some v =>
    obtain ⟨v', hv', hident⟩ := h.ident_some hv
    rw [hv']
    exact congrArg (fun i => i.2.1) hident

theorem CacheFrame.none_iff (h : CacheFrame s s') (a : Nat) :
    s'.inodes a = none ↔ s.inodes a = none := by
  rw [← Option.map_eq_none_iff (f := Inode.ident), h.ident a, Option.map_eq_none_iff]

theorem CacheFrame.cacheOk (h : CacheFrame s s') (hok : s.CacheOk) : s'.CacheOk where
  nodup := by
    rw [h.openInodes]
    exact hok.nodup
  mem := by
    intro a
    rw [h.openInodes, hok.mem a, ne_eq, ne_eq, h.none_iff a]
  pos := by
    intro a v' hv'
    have hcnt := h.openCnt a
    have hpos := (hok.mem_iff_pos a).mp ((hok.mem a).mpr fun hnone => by
      rw [(h.none_iff a).mpr hnone] at hv'
      cases hv')
    rw [← hcnt, Fs.openCnt, hv'] at hpos
    exact hpos
  inode_lt := by
    intro a ha
    rw [ne_eq, h.none_iff a] at ha
    exact Nat.lt_of_lt_of_le (hok.inode_lt a ha) h.next
  dir_lt := by
    intro d hd
    rw [h.dirs] at hd
    exact Nat.lt_of_lt_of_le (hok.dir_lt d hd) h.next

theorem CacheFrame.step (h : CacheFrame s s') (hok : s.CacheOk) : CacheStep s s' 0 where
  ok := h.cacheOk hok
  next := h.next
  cnt := by
    intro a
    rw [h.openCnt a, Pi.zero_apply, add_zero]
  gone := fun a _ hnone => (h.none_iff a).mpr hnone
  number := by
    intro a v v' hv hv'
    obtain ⟨w, hw, hident⟩ := h.ident_some hv
    obtain rfl : w = v' := by simpa [hw] using hv'
    exact congrArg Prod.fst hident
  toOuter := h.toOuter
  deny := by
    intro a v v' hv hv'
    obtain ⟨w, hw, hident⟩ := h.ident_some hv
    obtain rfl : w = v' := by simpa [hw] using hv'
    exact congrArg (fun i => i.2.2) hident

/-! ## The edits of the cache -/

theorem Fs.openCnt_eq {v : Inode} (hv : s.inodes a = some v) : s.openCnt a = v.iOpenCnt := by
  rw [openCnt, hv]

theorem Fs.openCnt_none (hv : s.inodes a = none) : s.openCnt a = 0 := by
  rw [openCnt, hv]

/-- The inode at `a` is stored. -/
def Fs.setInode (s : Fs) (a : Nat) (v : Inode) : Fs :=
  { s with inodes := Function.update s.inodes a (some v) }

theorem Fs.setInode_self {v : Inode} : (s.setInode a v).inodes a = some v := by
  simp [setInode]

theorem Fs.setInode_of_ne {v : Inode} {b : Nat} (hb : b ≠ a) :
    (s.setInode a v).inodes b = s.inodes b := by
  simp [setInode, hb]

/-- A cached inode is written and keeps its number and a reference. -/
theorem RefsBy.setInode {v v' : Inode} (hok : s.CacheOk) (hv : s.inodes a = some v)
    (hno : v'.iNo = v.iNo) (hpos : 0 < v'.iOpenCnt) :
    RefsBy s (s.setInode a v') (Pi.single a ((v'.iOpenCnt : Int) - v.iOpenCnt)) where
  ok :=
    { nodup := hok.nodup
      mem := by
        intro b
        by_cases hb : b = a
        · subst hb
          rw [Fs.setInode_self]
          show b ∈ s.openInodes ↔ _
          rw [hok.mem b, hv]
          simp
        · rw [Fs.setInode_of_ne hb]
          exact hok.mem b
      pos := by
        intro b w hw
        by_cases hb : b = a
        · subst hb
          obtain rfl : v' = w := Option.some.inj (Fs.setInode_self.symm.trans hw)
          exact hpos
        · rw [Fs.setInode_of_ne hb] at hw
          exact hok.pos b w hw
      inode_lt := by
        intro b hb
        by_cases hba : b = a
        · subst hba
          exact hok.inode_lt b (by rw [hv]; simp)
        · rw [Fs.setInode_of_ne hba] at hb
          exact hok.inode_lt b hb
      dir_lt := hok.dir_lt }
  next := le_rfl
  cnt := by
    intro b
    by_cases hb : b = a
    · subst hb
      rw [Fs.openCnt_eq Fs.setInode_self, Fs.openCnt_eq hv, Pi.single_eq_same]
      omega
    · rw [Fs.openCnt, Fs.setInode_of_ne hb, Pi.single_eq_of_ne hb, add_zero, Fs.openCnt]
  gone := by
    intro b _ hnone
    have hb : b ≠ a := by
      rintro rfl
      rw [hv] at hnone
      cases hnone
    rw [Fs.setInode_of_ne hb]
    exact hnone
  number := by
    intro b w w' hw hw'
    by_cases hb : b = a
    · subst hb
      obtain rfl : v = w := Option.some.inj (hv.symm.trans hw)
      obtain rfl : v' = w' := Option.some.inj (Fs.setInode_self.symm.trans hw')
      exact hno
    · rw [Fs.setInode_of_ne hb] at hw'
      rw [Option.some.inj (hw.symm.trans hw')]

theorem CacheStep.setInode {v v' : Inode} (hok : s.CacheOk) (hv : s.inodes a = some v)
    (hno : v'.iNo = v.iNo) (hdeny : v'.writeDeny = v.writeDeny) (hpos : 0 < v'.iOpenCnt) :
    CacheStep s (s.setInode a v') (Pi.single a ((v'.iOpenCnt : Int) - v.iOpenCnt)) where
  toRefsBy := .setInode hok hv hno hpos
  toOuter := ⟨rfl, rfl, rfl, rfl, rfl, rfl⟩
  deny := by
    intro b w w' hw hw'
    by_cases hb : b = a
    · subst hb
      obtain rfl : v = w := Option.some.inj (hv.symm.trans hw)
      obtain rfl : v' = w' := Option.some.inj (Fs.setInode_self.symm.trans hw')
      exact hdeny
    · rw [Fs.setInode_of_ne hb] at hw'
      rw [Option.some.inj (hw.symm.trans hw')]

/-- An inode comes into the cache at an address the heap has just handed out. -/
theorem CacheStep.addInode {v : Inode} (hok : s.CacheOk) (hold : s.heap.next ≤ a)
    (hnew : a < s'.heap.next) (hcnt : v.iOpenCnt = 1) (houter : Outer s s')
    (hopen : s'.openInodes = a :: s.openInodes) (hdirs : s'.dirs = s.dirs)
    (hself : s'.inodes a = some v) (hother : ∀ b ≠ a, s'.inodes b = s.inodes b) :
    CacheStep s s' (Pi.single a 1) := by
  have hnone : s.inodes a = none := by
    by_contra hsome
    have := hok.inode_lt a hsome
    omega
  have hnotin : a ∉ s.openInodes := by
    rw [hok.mem a]
    exact fun h => h hnone
  refine ⟨⟨⟨?_, ?_, ?_, ?_, ?_⟩, by omega, ?_, ?_, ?_⟩, houter, ?_⟩
  · rw [hopen]
    exact List.nodup_cons.mpr ⟨hnotin, hok.nodup⟩
  · intro b
    rw [hopen, List.mem_cons]
    by_cases hb : b = a
    · subst hb
      simp [hself]
    · rw [hother b hb, hok.mem b]
      simp [hb]
  · intro b w hw
    by_cases hb : b = a
    · subst hb
      obtain rfl : v = w := Option.some.inj (hself.symm.trans hw)
      omega
    · rw [hother b hb] at hw
      exact hok.pos b w hw
  · intro b hb
    by_cases hba : b = a
    · omega
    · rw [hother b hba] at hb
      have := hok.inode_lt b hb
      omega
  · intro d hd
    rw [hdirs] at hd
    have := hok.dir_lt d hd
    omega
  · intro b
    by_cases hb : b = a
    · subst hb
      rw [Fs.openCnt_eq hself, Fs.openCnt_none hnone, Pi.single_eq_same, hcnt]
      rfl
    · rw [Fs.openCnt, hother b hb, Pi.single_eq_of_ne hb, add_zero, Fs.openCnt]
  · intro b hb hbnone
    rw [hother b (by omega)]
    exact hbnone
  · intro b w w' hw hw'
    have hb : b ≠ a := by
      rintro rfl
      rw [hnone] at hw
      cases hw
    rw [hother b hb] at hw'
    rw [Option.some.inj (hw.symm.trans hw')]
  · intro b w w' hw hw'
    have hb : b ≠ a := by
      rintro rfl
      rw [hnone] at hw
      cases hw
    rw [hother b hb] at hw'
    rw [Option.some.inj (hw.symm.trans hw')]

/-- The same where other inodes have been written meanwhile. -/
theorem CacheStep.newInode {v : Inode} (hok : s.CacheOk) (hold : s.heap.next ≤ a)
    (hnew : a < s'.heap.next) (hcnt : v.iOpenCnt = 1) (houter : Outer s s')
    (hopen : s'.openInodes = a :: s.openInodes) (hdirs : s'.dirs = s.dirs)
    (hself : s'.inodes a = some v)
    (hother : ∀ b ≠ a, (s'.inodes b).map Inode.ident = (s.inodes b).map Inode.ident) :
    CacheStep s s' (Pi.single a 1) := by
  let mid : Fs := { s.setInode a v with openInodes := a :: s.openInodes, heap := s'.heap }
  have hmid : Outer s mid := ⟨rfl, rfl, rfl, rfl, rfl, houter.full⟩
  have hmem : a < mid.heap.next := hnew
  have hadd : CacheStep s mid (Pi.single a 1) := by
    apply CacheStep.addInode hok hold hmem hcnt hmid rfl rfl Fs.setInode_self
    intro b hb
    exact Fs.setInode_of_ne hb
  have hframe : CacheFrame mid s' := by
    refine ⟨⟨houter.rings, houter.rootDir, houter.fileTable, houter.tasks, houter.cur, rfl⟩, hopen,
      fun b => ?_, hdirs, le_rfl⟩
    by_cases hb : b = a
    · subst hb
      rw [hself, show mid.inodes b = some v from Fs.setInode_self]
    · rw [hother b hb, show mid.inodes b = s.inodes b from Fs.setInode_of_ne hb]
  have hall := hadd.trans hok (hframe.step hadd.ok)
  rwa [add_zero] at hall

/-- The last reference goes and the inode leaves the cache. -/
theorem CacheStep.removeInode {v : Inode} (hok : s.CacheOk) (hv : s.inodes a = some v)
    (hcnt : v.iOpenCnt = 1) (houter : Outer s s')
    (hopen : s'.openInodes = s.openInodes.filter (· ≠ a)) (hdirs : s'.dirs = s.dirs)
    (hnext : s'.heap.next = s.heap.next)
    (hself : s'.inodes a = none) (hother : ∀ b ≠ a, s'.inodes b = s.inodes b) :
    CacheStep s s' (-Pi.single a 1) := by
  refine ⟨⟨⟨?_, ?_, ?_, ?_, ?_⟩, hnext.ge, ?_, ?_, ?_⟩, houter, ?_⟩
  · rw [hopen]
    exact hok.nodup.filter _
  · intro b
    rw [hopen, List.mem_filter]
    by_cases hb : b = a
    · subst hb
      simp [hself]
    · rw [hother b hb, hok.mem b]
      simp [hb]
  · intro b w hw
    by_cases hb : b = a
    · subst hb
      rw [hself] at hw
      cases hw
    · rw [hother b hb] at hw
      exact hok.pos b w hw
  · intro b hb
    have hba : b ≠ a := by
      rintro rfl
      exact hb hself
    rw [hother b hba] at hb
    rw [hnext]
    exact hok.inode_lt b hb
  · rw [hdirs, hnext]
    exact hok.dir_lt
  · intro b
    by_cases hb : b = a
    · subst hb
      rw [Fs.openCnt_none hself, Fs.openCnt_eq hv, Pi.neg_apply, Pi.single_eq_same, hcnt]
      rfl
    · rw [Fs.openCnt, hother b hb, Pi.neg_apply, Pi.single_eq_of_ne hb, neg_zero, add_zero, Fs.openCnt]
  · intro b _ hbnone
    by_cases hb : b = a
    · rw [hb]
      exact hself
    · rw [hother b hb]
      exact hbnone
  · intro b w w' hw hw'
    have hb : b ≠ a := by
      rintro rfl
      rw [hself] at hw'
      cases hw'
    rw [hother b hb] at hw'
    rw [Option.some.inj (hw.symm.trans hw')]
  · intro b w w' hw hw'
    have hb : b ≠ a := by
      rintro rfl
      rw [hself] at hw'
      cases hw'
    rw [hother b hb] at hw'
    rw [Option.some.inj (hw.symm.trans hw')]

/-! ## Opening and closing an inode -/

/-- The inode at `a` is number `n`. -/
def Fs.holdsNo (s : Fs) (n a : Nat) : Bool := (s.inodes a).any fun v => v.iNo = n

/-- The first open inode of number `n`. -/
def Fs.cached (s : Fs) (n : Nat) : Option Nat := s.openInodes.find? (s.holdsNo n)

theorem Fs.holdsNo_iff {n : Nat} : s.holdsNo n a = true ↔ ∃ v, s.inodes a = some v ∧ v.iNo = n := by
  rw [holdsNo, Option.any_eq_true]
  simp

theorem Fs.cached_some {n : Nat} (h : s.cached n = some a) :
    a ∈ s.openInodes ∧ ∃ v, s.inodes a = some v ∧ v.iNo = n :=
  ⟨List.mem_of_find?_eq_some h, Fs.holdsNo_iff.mp (List.find?_some h)⟩

theorem Fs.cached_none {n : Nat} (h : s.cached n = none) {v : Inode} (ha : a ∈ s.openInodes)
    (hv : s.inodes a = some v) : v.iNo ≠ n := by
  intro hno
  exact List.find?_eq_none.mp h a ha (Fs.holdsNo_iff.mpr ⟨v, hv, hno⟩)

theorem returns_findOpenInode {n : Nat} {l : List Nat} {r : Option Nat}
    (h : Returns (findOpenInode n l) s r s') : s = s' ∧ r = l.find? (s.holdsNo n) := by
  induction l with
  | nil =>
    obtain ⟨rfl, rfl⟩ := returns_pure.mp h
    exact ⟨rfl, rfl⟩
  | cons b rest ih =>
    simp only [findOpenInode, returns_bind, returns_getInode] at h
    obtain ⟨v, _, ⟨hv, rfl⟩, h⟩ := h
    split at h
    · next hno =>
      obtain ⟨rfl, rfl⟩ := returns_pure.mp h
      have hb : s.holdsNo n b = true := Fs.holdsNo_iff.mpr ⟨v, hv, hno⟩
      exact ⟨rfl, (List.find?_cons_of_pos hb).symm⟩
    · next hno =>
      obtain ⟨rfl, hr⟩ := ih h
      have hb : ¬ s.holdsNo n b = true := by
        rw [Fs.holdsNo_iff]
        rintro ⟨w, hw, hno'⟩
        obtain rfl : v = w := Option.some.inj (hv.symm.trans hw)
        exact hno hno'
      exact ⟨rfl, by rw [List.find?_cons_of_neg hb, hr]⟩

/-- What `inode_open` does: a cached inode has one reference more, and one that is not
    cached is read from its slot to a new address. -/
theorem inodeOpen_inv {n : Nat} (h : Returns (inodeOpen n) s a s') :
    (∃ v, s.cached n = some a ∧ s.inodes a = some v ∧ v.iNo = n ∧
      s' = s.setInode a { v with iOpenCnt := v.iOpenCnt + 1 }) ∨
    (∃ h' : Heap, s.cached n = none ∧ n < 4096 ∧ a = s.heap.next ∧ s.heap.next < h'.next ∧ h'.full = s.heap.full ∧
      s' = { s with inodes := Function.update s.inodes a (some { s.slot n with iOpenCnt := 1 })
                    openInodes := a :: s.openInodes, heap := h' }) := by
  simp only [inodeOpen, returns_bind, returns_query] at h
  obtain ⟨_, _, ⟨rfl, rfl⟩, r, t, hfind, h⟩ := h
  obtain ⟨rfl, hr⟩ := returns_findOpenInode hfind
  have hcached : s.cached n = r := hr.symm
  cases r with
  | some b =>
    simp only [returns_bind, returns_getInode, returns_putInode, returns_pure] at h
    obtain ⟨v, _, ⟨hv, rfl⟩, _, _, rfl, rfl, rfl⟩ := h
    obtain ⟨-, w, hw, hno⟩ := Fs.cached_some hcached
    obtain rfl : w = v := by simpa [hw] using hv
    exact Or.inl ⟨w, hcached, hw, hno, rfl⟩
  | none =>
    right
    simp only [returns_bind, returns_locateInode, returns_fits] at h
    obtain ⟨_, _, ⟨hi, rfl, rfl⟩, inodeFound, t1, h1, inodeBuf, t2, h2, -, _, ⟨-, rfl⟩, w, _,
      hread, h⟩ := h
    obtain ⟨e1, hnext1, haddr⟩ := returns_mallocFrom h1
    obtain ⟨e2, hnext2, -⟩ := returns_sysMalloc h2
    have hfull1 := (keeps_mallocFrom (R := CacheFrame) h1).full
    have hfull2 := (keeps_sysMalloc (R := CacheFrame) h2).full
    have hpos : s.inodePos n = t2.inodePos n := by rw [e2, e1]; rfl
    rw [hpos, returns_readSlot] at hread
    obtain ⟨-, rfl, rfl⟩ := hread
    have hslot : t2.slot n = s.slot n := by rw [e2, e1]; rfl
    cases inodeFound with
    | none => exact absurd h (returns_stop _)
    | some b =>
      simp only [returns_bind, returns_putInode, returns_update, returns_pure] at h
      obtain ⟨-, _, rfl, -, _, rfl, _, t3, hfree, rfl, rfl⟩ := h
      obtain rfl := haddr b rfl
      obtain ⟨e3, hnext3⟩ := returns_sysFree hfree
      have hfull3 := (keeps_sysFree hfree).full
      refine ⟨t3.heap, hcached, hi, rfl, ?_, ?_, ?_⟩
      · rw [hnext3]
        show s.heap.next < t2.heap.next
        omega
      · rw [hfull3]
        exact hfull2.trans hfull1
      · rw [e3, hslot, e2, e1]

/-- `inode_open` adds one reference. -/
theorem inodeOpen_step {n : Nat} (hok : s.CacheOk) (h : Returns (inodeOpen n) s a s') :
    CacheStep s s' (Pi.single a 1) ∧ s'.dirs = s.dirs ∧ a ∈ s'.openInodes := by
  rcases inodeOpen_inv h with ⟨v, hcached, hv, -, rfl⟩ | ⟨h', -, -, rfl, hnext, hfull, hs'⟩
  · have hstep : CacheStep s (s.setInode a { v with iOpenCnt := v.iOpenCnt + 1 }) _ :=
      .setInode hok hv rfl rfl (Nat.succ_pos _)
    have hone : ((v.iOpenCnt + 1 : Nat) : Int) - v.iOpenCnt = 1 := by omega
    rw [hone] at hstep
    exact ⟨hstep, rfl, (Fs.cached_some hcached).1⟩
  · -- it is read from its slot
    have houter : Outer s s' := by
      subst hs'
      exact ⟨rfl, rfl, rfl, rfl, rfl, hfull⟩
    have hself : s'.inodes s.heap.next = some { s.slot n with iOpenCnt := 1 } := by
      subst hs'
      exact Function.update_self ..
    have hother (b : Nat) (hb : b ≠ s.heap.next) : s'.inodes b = s.inodes b := by
      subst hs'
      exact Function.update_of_ne hb ..
    have hopen : s'.openInodes = s.heap.next :: s.openInodes := by rw [hs']
    have hdirs : s'.dirs = s.dirs := by rw [hs']
    refine ⟨.addInode hok le_rfl ?_ rfl houter hopen hdirs hself hother, hdirs, ?_⟩
    · rw [hs']
      exact hnext
    · rw [hopen]
      exact List.mem_cons_self

/-- `inode_close` takes one reference away. -/
theorem inodeClose_step {u : Unit} (hok : s.CacheOk) (h : Returns (inodeClose a) s u s') :
    CacheStep s s' (-Pi.single a 1) ∧ s'.dirs = s.dirs := by
  simp only [inodeClose, returns_bind, returns_getInode, returns_putInode] at h
  obtain ⟨v, _, ⟨hv, rfl⟩, _, _, rfl, h⟩ := h
  have hpos := hok.pos a v hv
  have hcnt : (if v.iOpenCnt = 0 then 2 ^ 32 - 1 else v.iOpenCnt - 1) = v.iOpenCnt - 1 :=
    if_neg (by omega)
  rw [hcnt] at h
  split at h
  · next hzero =>
    simp only [returns_bind, returns_update] at h
    obtain ⟨_, _, rfl, hfree⟩ := h
    have hfull := (keeps_sysFree hfree).full
    obtain ⟨hs', hnext⟩ := returns_sysFree hfree
    have houter : Outer s s' := by
      rw [hs']
      exact ⟨rfl, rfl, rfl, rfl, rfl, hfull⟩
    have hdirs : s'.dirs = s.dirs := by rw [hs']
    refine ⟨.removeInode hok hv (by omega) houter ?_ hdirs hnext ?_ ?_, hdirs⟩
    · rw [hs']
    · rw [hs']
      exact Function.update_self ..
    · intro b hb
      rw [hs']
      show Function.update (Function.update s.inodes a _) a none b = _
      rw [Function.update_of_ne hb, Function.update_of_ne hb]
  · next hzero =>
    obtain ⟨-, rfl⟩ := returns_pure.mp h
    have hstep : CacheStep s (s.setInode a { v with iOpenCnt := v.iOpenCnt - 1 }) _ :=
      .setInode hok hv rfl rfl (show 0 < v.iOpenCnt - 1 by omega)
    have hone : ((v.iOpenCnt - 1 : Nat) : Int) - v.iOpenCnt = -1 := by omega
    rw [hone] at hstep
    rw [← Pi.single_neg]
    exact ⟨hstep, rfl⟩

end Steps

/-! ## Directory handles -/

/-- The reference of a directory handle. -/
def Fs.dirRef (s : Fs) : DirPtr → Nat → Int
  | .root => 0
  | .heap d =>
    match s.dirs d with
    | some dir => Pi.single dir.inode 1
    | none => 0

theorem Fs.dirRef_nonneg (s : Fs) (p : DirPtr) (a : Nat) : 0 ≤ s.dirRef p a := by
  cases p with
  | root => exact le_rfl
  | heap d =>
    rw [dirRef]
    cases s.dirs d with
    | none => exact le_rfl
    | some dir =>
      show 0 ≤ (Pi.single dir.inode 1 : Nat → Int) a
      by_cases ha : a = dir.inode
      · rw [ha, Pi.single_eq_same]
        omega
      · rw [Pi.single_eq_of_ne ha]

/-- `s'` is `s` with the handle `p` open on top of it. -/
structure HoldsDir (s s' : Fs) (p : DirPtr) : Prop extends CacheStep s s' (s'.dirRef p) where
  dirs : ∀ e, p ≠ .heap e → s'.dirs e = s.dirs e
  fresh : ∀ d, p = .heap d → s.heap.next ≤ d ∧ s'.dirs d ≠ none

section Handles

variable {s s' s₁ s₂ s₃ : Fs} {p : DirPtr} {u : Unit}

theorem CacheFrame.holds (h : CacheFrame s s') (hok : s.CacheOk) : HoldsDir s s' .root where
  toCacheStep := h.step hok
  dirs := fun e _ => by rw [h.dirs]
  fresh := by simp

/-- Nothing is held in between. -/
theorem HoldsDir.after (hok : s₁.CacheOk) (h : HoldsDir s₁ s₂ .root) (h' : HoldsDir s₂ s₃ p) :
    HoldsDir s₁ s₃ p where
  toCacheStep := by
    have hstep := h.toCacheStep.trans hok h'.toCacheStep
    rwa [show s₂.dirRef .root = 0 by rfl, zero_add] at hstep
  dirs := by
    intro e he
    rw [h'.dirs e he, h.dirs e (by simp)]
  fresh := by
    intro d hd
    obtain ⟨hle, hsome⟩ := h'.fresh d hd
    exact ⟨h.next.trans hle, hsome⟩

/-- A handle stays open while something balanced is done. -/
theorem HoldsDir.before (hok : s₁.CacheOk) (h : HoldsDir s₁ s₂ p) (h' : HoldsDir s₂ s₃ .root) :
    HoldsDir s₁ s₃ p where
  toCacheStep := by
    have hstep := h.toCacheStep.trans hok h'.toCacheStep
    have href : s₃.dirRef p = s₂.dirRef p := by
      cases p with
      | root => rfl
      | heap d => simp only [Fs.dirRef, h'.dirs d (by simp)]
    rw [show s₃.dirRef .root = 0 by rfl, add_zero, ← href] at hstep
    exact hstep
  dirs := by
    intro e he
    rw [h'.dirs e (by simp), h.dirs e he]
  fresh := by
    intro d hd
    obtain ⟨hle, hsome⟩ := h.fresh d hd
    rw [h'.dirs d (by simp)]
    exact ⟨hle, hsome⟩

theorem HoldsDir.frame (hok : s₁.CacheOk) (h : HoldsDir s₁ s₂ p) (h' : CacheFrame s₂ s₃) :
    HoldsDir s₁ s₃ p :=
  h.before hok (h'.holds h.ok)

/-- A handle is stored or given up. -/
def Fs.setDir (s : Fs) (d : Nat) (o : Option Dir) : Fs :=
  { s with dirs := Function.update s.dirs d o }

theorem Fs.setDir_self {d : Nat} {o : Option Dir} : (s.setDir d o).dirs d = o := by
  simp [setDir]

theorem Fs.setDir_of_ne {d e : Nat} {o : Option Dir} (he : e ≠ d) :
    (s.setDir d o).dirs e = s.dirs e := by
  simp [setDir, he]

theorem CacheStep.setDir {d : Nat} {o : Option Dir} (hok : s.CacheOk)
    (hd : o = none ∨ d < s.heap.next) : CacheStep s (s.setDir d o) 0 where
  ok :=
    { nodup := hok.nodup
      mem := hok.mem
      pos := hok.pos
      inode_lt := hok.inode_lt
      dir_lt := by
        intro e he
        by_cases hed : e = d
        · subst hed
          rw [Fs.setDir_self] at he
          exact hd.resolve_left he
        · rw [Fs.setDir_of_ne hed] at he
          exact hok.dir_lt e he }
  next := le_rfl
  cnt := fun a => (add_zero _).symm
  gone := fun _ _ h => h
  number := fun a v v' hv hv' => by rw [Option.some.inj (hv.symm.trans hv')]
  toOuter := ⟨rfl, rfl, rfl, rfl, rfl, rfl⟩
  deny := fun a v v' hv hv' => by rw [Option.some.inj (hv.symm.trans hv')]

/-- `dir_open` hands out a handle with its reference. -/
theorem dirOpen_holds {n : Nat} (hok : s.CacheOk) (h : Returns (dirOpen n) s p s') :
    HoldsDir s s' p ∧ ∃ d a, p = .heap d ∧ s'.dirs d = some { inode := a, dirPose := 0 } ∧
      ∃ s₁, CacheFrame s s₁ ∧ Returns (inodeOpen n) s₁ a { s' with dirs := s.dirs } := by
  simp only [dirOpen, returns_bind, returns_deref, returns_update, returns_pure] at h
  obtain ⟨r, s₁, hmalloc, a, s₂, hopen, d, _, ⟨rfl, rfl⟩, _, _, rfl, rfl, rfl⟩ := h
  have hframe := keeps_sysMalloc (R := CacheFrame) hmalloc
  obtain ⟨-, hnext, haddr⟩ := returns_sysMalloc hmalloc
  obtain rfl := haddr d rfl
  have hok₁ := hframe.cacheOk hok
  obtain ⟨hstep, hdirs, -⟩ := inodeOpen_step hok₁ hopen
  have hnone : s.dirs s.heap.next = none := by
    by_contra hsome
    exact absurd (hok.dir_lt _ hsome) (Nat.lt_irrefl _)
  have hlt : s.heap.next < s₂.heap.next := Nat.lt_of_lt_of_le (by omega) hstep.next
  have hedit : CacheStep s₂ (s₂.setDir s.heap.next (some { inode := a, dirPose := 0 })) 0 :=
    .setDir hstep.ok (Or.inr hlt)
  have hall := ((hframe.step hok).trans hok hstep).trans hok hedit
  rw [zero_add, add_zero] at hall
  have href : (s₂.setDir s.heap.next (some { inode := a, dirPose := 0 })).dirRef (.heap s.heap.next) =
      Pi.single a 1 := by
    rw [Fs.dirRef, Fs.setDir_self]
  refine ⟨⟨?_, ?_, ?_⟩, s.heap.next, a, rfl, Fs.setDir_self, s₁, hframe, ?_⟩
  · show CacheStep s (s₂.setDir s.heap.next _) ((s₂.setDir s.heap.next _).dirRef _)
    rw [href]
    exact hall
  · intro e he
    have hne : e ≠ s.heap.next := fun heq => he (by rw [heq])
    show (s₂.setDir s.heap.next _).dirs e = _
    rw [Fs.setDir_of_ne hne, hdirs, hframe.dirs]
  · intro d hd
    obtain rfl : s.heap.next = d := by simpa using hd
    refine ⟨le_rfl, ?_⟩
    show (s₂.setDir s.heap.next _).dirs s.heap.next ≠ none
    rw [Fs.setDir_self]
    simp
  · have hback : { s₂ with dirs := s.dirs } = s₂ := by rw [← hframe.dirs, ← hdirs]
    exact hback ▸ hopen

/-- `dir_close` takes the reference of the handle away. -/
theorem dirClose_step (hok : s.CacheOk) (h : Returns (dirClose p) s u s') :
    CacheStep s s' (-s.dirRef p) ∧ (∀ e, p ≠ .heap e → s'.dirs e = s.dirs e) ∧
      ∀ d, p = .heap d → s'.dirs d = none := by
  cases p with
  | root =>
    obtain ⟨-, rfl⟩ := returns_pure.mp h
    have hstep := (refl_of CacheFrame s).step hok
    rw [← neg_zero] at hstep
    exact ⟨hstep, fun _ _ => rfl, by simp⟩
  | heap d =>
    simp only [dirClose, getDir, returns_bind, returns_query, returns_deref, returns_update] at h
    obtain ⟨dir, _, ⟨_, _, ⟨rfl, rfl⟩, hdir, rfl⟩, _, s₁, hclose, _, _, rfl, hfree⟩ := h
    obtain ⟨hstep, hdirs⟩ := inodeClose_step hok hclose
    have hedit : CacheStep s₁ (s₁.setDir d none) 0 := .setDir hstep.ok (Or.inl rfl)
    have hframe : CacheFrame (s₁.setDir d none) s' := keeps_sysFree hfree
    have hall := (hstep.trans hok hedit).trans hok (hframe.step hedit.ok)
    rw [add_zero, add_zero] at hall
    refine ⟨?_, ?_, ?_⟩
    · rw [Fs.dirRef, hdir]
      exact hall
    · intro e he
      have hne : e ≠ d := fun heq => he (by rw [heq])
      rw [hframe.dirs, Fs.setDir_of_ne hne, hdirs]
    · intro e he
      obtain rfl : d = e := by simpa using he
      rw [hframe.dirs, Fs.setDir_self]

theorem HoldsDir.close (hok : s₁.CacheOk) (h : HoldsDir s₁ s₂ p) (hclose : Returns (dirClose p) s₂ u s₃) :
    HoldsDir s₁ s₃ .root := by
  obtain ⟨hstep, hdirs, hnone⟩ := dirClose_step h.ok hclose
  have hall := h.toCacheStep.trans hok hstep
  rw [add_neg_cancel] at hall
  refine ⟨hall, ?_, by simp⟩
  intro e _
  by_cases hp : p = .heap e
  · rw [hnone e hp]
    -- the handle was not there before it was opened
    by_contra hsome
    have hlt := hok.dir_lt e (Ne.symm hsome)
    have := (h.fresh e hp).1
    omega
  · rw [hdirs e hp, h.dirs e hp]

/-! ## Paths -/

/-- Cutting a path into components does not touch the state. -/
theorem keeps_pathParse {p : CStr} : Keeps Eq (pathParse p) := by
  cases p with
  | nil => exact keeps_stop _
  | cons c cs => exact (keeps_require _).bind fun _ => keeps_pure _

theorem keeps_pathNext {p : Option CStr} : Keeps Eq (pathNext p) := by
  cases p with
  | none => exact keeps_pure _
  | some p => exact keeps_pathParse

theorem keeps_pathDepthLoop (fuel : Nat) (p : Option CStr) (depth : Nat) :
    Keeps Eq (pathDepthLoop fuel p depth) := by
  induction fuel generalizing p depth with
  | zero => exact keeps_pure _
  | succ fuel ih =>
    simp only [pathDepthLoop]
    refine keeps_pathNext.bind fun r => ?_
    split
    · exact keeps_pure _
    · exact ih _ _

theorem keeps_pathDepthCnt {p : CStr} : Keeps Eq (pathDepthCnt p) :=
  keeps_pathParse.bind fun _ => (keeps_require _).bind fun _ => keeps_pathDepthLoop _ _ _

/-- The loop of `search_file` closes the directory it leaves and opens the next one, and
    hands one to the caller. -/
theorem searchLoop_holds {fuel : Nat} {st : SearchState} {r : Option Nat × PathSearchRecord}
    (hok : s₁.CacheOk) (hst : HoldsDir s₁ s st.parentDir)
    (h : Returns (searchLoop fuel st) s r s') : HoldsDir s₁ s' r.2.parentDir := by
  induction fuel generalizing s st with
  | zero => exact absurd h (returns_stop _)
  | succ fuel ih =>
    simp only [searchLoop] at h
    split at h
    · -- no component is left
      simp only [returns_bind, returns_deref, returns_pure] at h
      obtain ⟨_, s₂, hclose, parent, s₃, hopen, e, _, ⟨-, rfl⟩, rfl, rfl⟩ := h
      have hclosed := hst.close hok hclose
      exact hclosed.after hok (dirOpen_holds hclosed.ok hopen).1
    · simp only [returns_bind, returns_assert] at h
      obtain ⟨_, _, ⟨-, rfl⟩, found, s₂, hsearch, h⟩ := h
      have hst₂ := hst.frame hok (keeps_searchDirEntry hsearch)
      cases found with
      | none =>
        obtain ⟨rfl, rfl⟩ := returns_pure.mp h
        exact hst₂
      | some e =>
        simp only [returns_bind] at h
        obtain ⟨next, s₃, hnext, h⟩ := h
        obtain rfl := keeps_pathNext hnext
        split at h
        · -- a directory: the walk goes on in it
          simp only [returns_bind, returns_dirInode, returns_getInode] at h
          obtain ⟨a, _, ⟨-, rfl⟩, v, _, ⟨-, rfl⟩, _, s₄, hclose, dir, s₅, hopen, h⟩ := h
          have hclosed := hst₂.close hok hclose
          apply ih _ h
          exact hclosed.after hok (dirOpen_holds hclosed.ok hopen).1
        · split at h
          · obtain ⟨rfl, rfl⟩ := returns_pure.mp h
            exact hst₂
          · -- neither a file nor a directory: the walk stays where it is
            apply ih _ h
            exact hst₂

/-- `search_file` leaves one directory open, the one in its record. -/
theorem searchFile_holds {path : CStr} {r : Option Nat × PathSearchRecord} (hok : s.CacheOk)
    (h : Returns (searchFile path) s r s') : HoldsDir s s' r.2.parentDir := by
  have hrefl := (refl_of CacheFrame s).holds hok
  simp only [searchFile] at h
  split at h
  · obtain ⟨rfl, rfl⟩ := returns_pure.mp h
    exact hrefl
  · simp only [returns_bind, returns_assert] at h
    obtain ⟨_, _, ⟨-, rfl⟩, first, s₂, hparse, h⟩ := h
    obtain rfl := keeps_pathParse hparse
    apply searchLoop_holds hok _ h
    exact hrefl

end Handles

end ZxyOs
