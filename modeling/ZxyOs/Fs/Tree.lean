/-
  ZxyOs.Fs.Tree

  The directory tree of the partition.

  `Fs.content` is an inode as `inode_open` finds it, in the cache or in its slot, without the
  fields that only mean something in memory; `Fs.entries` are the entries of the directory it
  describes, and `Fs.names` reads them as a naming graph.  `Fs.TreeOk` says that every
  directory that can be reached from the root is well formed.

  `Stands s t p i k` says that `t` is `s` with the handle `p` open on directory `i`, `k`
  requests to the heap later.  The calls that walk the tree go from one such state to the
  next.
-/

import ZxyOs.Fs.Release
import ZxyOs.Lib.Paths

namespace ZxyOs

open Lib Lib.Exec

/-! ## The naming graph -/

namespace Fs

/-- Inode `i` as `inode_open` finds it, without what only means something in memory. -/
def content (s : Fs) (i : Nat) : Inode :=
  match (s.cached i).bind s.inodes with
  | some v => v.pureInode
  | none => (s.slot i).pureInode

/-- The entries of directory `i`. -/
def entries (s : Fs) (i : Nat) : Multiset DirEntry := dirEntries s.disk (s.content i)

/-- Inode `i` is a directory that can be reached from the root. -/
inductive IsDir (s : Fs) : Nat → Prop
  | root : IsDir s 0
  | child {i : Nat} {e : DirEntry} : IsDir s i → e ∈ s.entries i → e.fType = ftDir → IsDir s e.iNo

/-- Directory `i` is well formed: its inode has its number, its blocks can be read, the first of
    its entries lie in some block, and what it names are directories and regular files. -/
structure DirNode (s : Fs) (i : Nat) : Prop where
  number : i < 4096
  own : (s.content i).iNo = i
  listed : s.Listed (s.content i)
  block : ∃ k < 140, (s.content i).blockAddr s.disk k ≠ 0
  types : ∀ e ∈ s.entries i, e.fType = ftDir ∨ e.fType = ftRegular

end Fs

/-- What an entry stands for. -/
def DirEntry.child (e : DirEntry) : Child Nat := if e.fType = ftDir then .dir e.iNo else .file e.iNo

open Classical in
/-- What a name stands for in directory `i`. -/
noncomputable def Fs.names (s : Fs) : Naming Nat CStr := fun i name =>
  if h : ∃ e ∈ s.entries i, e.filename = name then some h.choose.child else none

/-- A well-formed directory tree, while some task runs and the root is open.  Every directory has
    an entry for itself, and the root is above itself. -/
structure Fs.TreeOk (s : Fs) : Prop where
  cache : s.CacheOk
  live : s.heap.LiveBelow
  entrySize : s.part.sb.dirEntrySize = 24
  table : s.TableFits
  running : ∃ t, s.tasks s.cur = some t
  root : s.cached 0 = some s.rootDir.inode
  node : ∀ i, s.IsDir i → s.DirNode i
  self : ∀ i, s.IsDir i → s.names i dot = some (.dir i)
  rootUp : s.names 0 dotDot = some (.dir 0)

section Names

variable {s : Fs} {i : Nat} {e : DirEntry} {name : CStr}

theorem Fs.names_eq_none : s.names i name = none ↔ ∀ e ∈ s.entries i, e.filename ≠ name := by
  unfold names
  constructor
  · intro h e he hname
    rw [dif_pos ⟨e, he, hname⟩] at h
    cases h
  · intro h
    rw [dif_neg]
    rintro ⟨e, he, hname⟩
    exact h e he hname

/-- A name stands for what the entry with that name says. -/
theorem Fs.DirNode.names_eq (h : s.DirNode i) (he : e ∈ s.entries i) : s.names i e.filename = some e.child := by
  have hex : ∃ e' ∈ s.entries i, e'.filename = e.filename := ⟨e, he, rfl⟩
  obtain ⟨hmem, hname⟩ := hex.choose_spec
  rw [Fs.names, dif_pos hex, h.listed.unique hmem he hname]

theorem DirEntry.child_dir (h : e.fType = ftDir) : e.child = .dir e.iNo := if_pos h

theorem DirEntry.child_file (h : e.fType = ftRegular) : e.child = .file e.iNo := by
  rw [child, h]
  exact if_neg (by decide)

/-- What a name stands for is said by an entry. -/
theorem Fs.exists_of_names {child : Child Nat} (h : s.names i name = some child) :
    ∃ e ∈ s.entries i, e.filename = name ∧ e.child = child := by
  unfold Fs.names at h
  split at h
  · next hex =>
    obtain ⟨hmem, hname⟩ := hex.choose_spec
    exact ⟨_, hmem, hname, Option.some.inj h⟩
  · cases h

theorem DirEntry.eq_of_child_dir {n : Nat} (h : e.child = .dir n) : e.fType = ftDir ∧ e.iNo = n := by
  unfold child at h
  split at h
  · next hty => exact ⟨hty, by simpa using h⟩
  · cases h

theorem DirEntry.eq_of_child_file {n : Nat} (h : e.child = .file n) : e.fType ≠ ftDir ∧ e.iNo = n := by
  unfold child at h
  split at h
  · cases h
  · next hty => exact ⟨hty, by simpa using h⟩

/-- The names of a directory lead to directories. -/
theorem Fs.IsDir.names {n : Nat} (hi : s.IsDir i) (h : s.names i name = some (.dir n)) : s.IsDir n := by
  obtain ⟨e, he, -, hchild⟩ := Fs.exists_of_names h
  obtain ⟨hty, rfl⟩ := DirEntry.eq_of_child_dir hchild
  exact hi.child he hty

end Names

/-! ## Opening a directory -/

section Opening

variable {s t t' : Fs} {p : DirPtr} {i k n : Nat} {v : Inode} {u : Unit}

theorem Fs.content_cached {a : Nat} (hcached : s.cached i = some a) (hv : s.inodes a = some v) :
    s.content i = v.pureInode := by
  rw [content, hcached, Option.bind_some, hv]

theorem Fs.content_slot (hcached : s.cached i = none) : s.content i = (s.slot i).pureInode := by
  rw [content, hcached]
  rfl

/-- What `inode_open` finds. -/
theorem Fs.opens_content (s : Fs) (i : Nat) : ∃ v, s.Opens i v ∧ v.pureInode = s.content i := by
  cases hcached : s.cached i with
  | some a =>
    obtain ⟨-, v, hv, -⟩ := cached_some hcached
    exact ⟨v, Or.inl ⟨a, hcached, hv⟩, (content_cached hcached hv).symm⟩
  | none => exact ⟨s.slot i, Or.inr ⟨hcached, rfl⟩, (content_slot hcached).symm⟩

/-- The requests from the `k`th on are granted, `n` of them. -/
def Fs.Grants (s : Fs) (k n : Nat) : Prop := ∀ j < n, s.heap.full (s.heap.next + (k + j)) = false

/-- In `t` the handle `p` stands on the inode of directory `i` at address `a`, which is the only one
    that is not as in `s`. -/
structure OnDir (s t : Fs) (p : DirPtr) (i a : Nat) (v : Inode) : Prop where
  handle : t.handle p = some a
  inode : t.inodes a = some v
  content : v.pureInode = s.content i
  others : ∀ b, b ≠ a → t.inodes b = s.inodes b
  was : s.cached i = some a ∨ s.cached i = none ∧ s.inodes a = none

/-- `t` is `s` with the handle `p` open on directory `i`, `k` requests later. -/
structure Stands (s t : Fs) (p : DirPtr) (i k : Nat) : Prop extends SameStore s t where
  held : Held s t p
  next : t.heap.next = s.heap.next + k
  full : t.heap.full = s.heap.full
  tasks : t.tasks = s.tasks
  cur : t.cur = s.cur
  dirOn : ∃ a v, OnDir s t p i a v

theorem Fs.heapAt_self (s : Fs) : s.heapAt s.heap.next = s := rfl

theorem Stands.root (h : s.TreeOk) : Stands s s .root 0 0 where
  toSameStore := ⟨rfl, rfl, rfl, rfl⟩
  held := .refl h.live
  next := rfl
  full := rfl
  tasks := rfl
  cur := rfl
  dirOn := by
    obtain ⟨-, v, hv, -⟩ := Fs.cached_some h.root
    exact ⟨_, v, rfl, hv, (Fs.content_cached h.root hv).symm, fun _ _ => rfl, Or.inl h.root⟩

/-- The inode of the handle has the number of the directory. -/
theorem Stands.inode (hst : Stands s t p i k) (hs : s.TreeOk) (hi : s.IsDir i) :
    ∃ a v, t.handle p = some a ∧ t.inodes a = some v ∧ v.iNo = i := by
  obtain ⟨a, v, hon⟩ := hst.dirOn
  have hown := (hs.node i hi).own
  rw [← hon.content] at hown
  exact ⟨a, v, hon.handle, hon.inode, hown⟩

/-- Some requests to the heap later. -/
theorem Stands.heapAt (h : Stands s t p i k) (m : Nat) : Stands s (t.heapAt (t.heap.next + m)) p i (k + m) where
  toSameStore := ⟨h.part, h.disk, h.blockBitmap, h.inodeMap⟩
  held := h.held.frame ⟨_, Nat.le_add_right _ _, rfl⟩
  next := by
    show t.heap.next + m = _
    rw [h.next, Nat.add_assoc]
  full := h.full
  tasks := h.tasks
  cur := h.cur
  dirOn := by
    obtain ⟨a, v, hon⟩ := h.dirOn
    refine ⟨a, v, ?_, hon.inode, hon.content, hon.others, hon.was⟩
    have ha := hon.handle
    cases p with
    | root => exact ha
    | heap d => exact ha

theorem Fs.hasMemory_of_grants {m : Nat} (h : s.TreeOk) (hg : s.Grants k n) (htasks : t.tasks = s.tasks)
    (hcur : t.cur = s.cur) (hfull : t.heap.full = s.heap.full) (hnext : t.heap.next = s.heap.next + k)
    (hm : m ≤ n) : t.HasMemory m := by
  obtain ⟨k, hk⟩ := h.running
  refine ⟨⟨k, by rw [htasks, hcur, hk]⟩, fun j hj => ?_⟩
  rw [hfull, hnext, Nat.add_assoc]
  exact hg j (by omega)

theorem Stands.hasMemory {m : Nat} (hst : Stands s t p i k) (h : s.TreeOk) (hg : s.Grants k m) : t.HasMemory m :=
  Fs.hasMemory_of_grants h hg hst.tasks hst.cur hst.full hst.next le_rfl

/-- Closing the handle puts everything back. -/
theorem Stands.close (hst : Stands s t p i k) : ∃ t', Returns (dirClose p) t () t' ∧ t' = s.heapAt (s.heap.next + k) := by
  obtain ⟨a, v, hon⟩ := hst.dirOn
  obtain ⟨t', hclose, -⟩ := dirClose_runs hon.handle hon.inode
  obtain ⟨m, hm, rfl⟩ := hst.held.closes () t' hclose
  refine ⟨_, hclose, ?_⟩
  -- the call does not look at the next address of the heap
  have hsame := (hclose.unique (dirClose_heapAt (n := t.heap.next) hclose)).2
  have hnext : m = t.heap.next := congrArg (fun s => s.heap.next) hsame
  rw [hnext, hst.next]

/-- A call that closes the handle and has nothing left to do. -/
theorem Stands.closes {α : Type} (hst : Stands s t p i k) (r : α) : ∃ t', Returns (do dirClose p; return r) t r t' ∧
    Restored s t' := by
  obtain ⟨t', hclose, rfl⟩ := hst.close
  refine ⟨s.heapAt (s.heap.next + k), ?_, s.heap.next + k, Nat.le_add_right _ _, rfl⟩
  rw [returns_bind_iff hclose]
  exact returns_pure.mpr ⟨rfl, rfl⟩

/-- A directory is opened where there is memory for it. -/
theorem dirOpen_runs (hok : s.CacheOk) (htable : s.TableFits) (hi : i < 4096)
    (hmem : s.HasMemory (1 + s.openRequests i)) : ∃ p t, Returns (dirOpen i) s p t := by
  rw [Nat.add_comm] at hmem
  obtain ⟨s₁, hmalloc, hmem₁, hs₁⟩ := sysMalloc_returns hmem
  have hok₁ : s₁.CacheOk := (keeps_sysMalloc (R := CacheFrame) hmalloc).cacheOk hok
  have htable₁ : s₁.TableFits := by
    rw [hs₁]
    exact ⟨htable.onDisk, htable.inPart⟩
  have hreq : s₁.openRequests i = s.openRequests i := by
    rw [hs₁]
    rfl
  obtain ⟨a, t, hopen⟩ := inodeOpen_runs hok₁ htable₁ hi (hreq ▸ hmem₁)
  refine ⟨.heap s.heap.next, { t with dirs := Function.update t.dirs s.heap.next (some { inode := a, dirPose := 0 }) }, ?_⟩
  simp only [dirOpen, returns_bind, returns_deref, returns_update, returns_pure]
  exact ⟨_, s₁, hmalloc, a, t, hopen, s.heap.next, t, ⟨rfl, rfl⟩, (), _, rfl, rfl, rfl⟩

/-- A handle and what `inode_open` asks for have been granted where a directory is open. -/
theorem dirOpen_served (h : Returns (dirOpen n) s p t) : s.HasMemory (1 + s.openRequests n) := by
  simp only [dirOpen, returns_bind, returns_deref, returns_update, returns_pure] at h
  obtain ⟨o, s₁, hmalloc, a, t₁, hin, d, _, ⟨rfl, rfl⟩, _, _, rfl, rfl, rfl⟩ := h
  obtain ⟨hrun, hfirst⟩ := served_of_sysMalloc hmalloc
  obtain ⟨hs₁, hnext₁, -⟩ := returns_sysMalloc hmalloc
  have hfull₁ : s₁.heap.full = s.heap.full := (keeps_sysMalloc (R := CacheFrame) hmalloc).full
  have hcached₁ : s₁.cached n = s.cached n := by
    rw [hs₁]
    rfl
  refine ⟨hrun, fun j hj => ?_⟩
  rcases j with _ | j
  · exact hfirst
  · unfold Fs.openRequests at hj
    cases hcached : s.cached n with
    | some b =>
      rw [hcached] at hj
      exact absurd hj (by simp)
    | none =>
      -- the inode is read from the table
      rw [hcached] at hj hcached₁
      have hgranted := (inodeOpen_served hcached₁ hin).1.2 j (by simp at hj; omega)
      rw [hfull₁, hnext₁] at hgranted
      rw [← hgranted]
      congr 1
      omega

/-- The handle that is handed out, and the inode behind it. -/
theorem dirOpen_at (h : Returns (dirOpen n) s p t) : ∃ d a v, p = .heap d ∧ t.dirs d = some { inode := a, dirPose := 0 } ∧
    t.inodes a = some v ∧ v.pureInode = s.content n := by
  simp only [dirOpen, returns_bind, returns_deref, returns_update, returns_pure] at h
  obtain ⟨o, s₁, hmalloc, a, t₁, hin, d, _, ⟨rfl, rfl⟩, _, _, rfl, rfl, rfl⟩ := h
  obtain ⟨hs₁, -⟩ := returns_sysMalloc hmalloc
  obtain ⟨v, hopens, hcont⟩ := s.opens_content n
  have hopens₁ : s₁.Opens n v := by
    rw [hs₁]
    exact hopens
  obtain ⟨⟨c, hv⟩, -⟩ := inodeOpen_same hopens₁ hin
  exact ⟨d, a, { v with iOpenCnt := c }, rfl, Function.update_self _ _ _, hv, hcont⟩

/-- Opening directory `n` from the bottom: a handle and what `inode_open` asks for are granted. -/
theorem Stands.open (h : s.TreeOk) (hopen : Returns (dirOpen n) (s.heapAt (s.heap.next + k)) p t) :
    s.Grants k (1 + s.openRequests n) ∧ Stands s t p n (k + (1 + s.openRequests n)) := by
  have hrest : Restored s (s.heapAt (s.heap.next + k)) := ⟨_, Nat.le_add_right _ _, rfl⟩
  have hok := hrest.frame.cacheOk h.cache
  have hheld := dirOpen_held hok (hrest.live h.live) hopen
  have hserved := dirOpen_served hopen
  simp only [dirOpen, returns_bind, returns_deref, returns_update, returns_pure] at hopen
  obtain ⟨o, s₁, hmalloc, a, t₁, hin, d, _, ⟨rfl, rfl⟩, _, _, rfl, rfl, rfl⟩ := hopen
  obtain ⟨hs₁, hnext₁, -⟩ := returns_sysMalloc hmalloc
  have hframe := keeps_sysMalloc (R := CacheFrame) hmalloc
  have hfull₁ : s₁.heap.full = s.heap.full := hframe.full
  obtain ⟨v, hopens, hcont⟩ := s.opens_content n
  have hopens₁ : s₁.Opens n v := by
    rw [hs₁]
    exact hopens
  have hreq : s₁.openRequests n = s.openRequests n := by
    rw [hs₁]
    rfl
  obtain ⟨⟨c, hv⟩, hstore, htasks, hcur, hfull, hnext⟩ := inodeOpen_same hopens₁ hin
  have hstore₁ : SameStore s s₁ := by
    rw [hs₁]
    exact ⟨rfl, rfl, rfl, rfl⟩
  constructor
  · intro j hj
    have hgranted : s.heap.full (s.heap.next + k + j) = false := hserved.2 j hj
    rwa [Nat.add_assoc] at hgranted
  · have hstore' := hstore₁.trans hstore
    refine ⟨⟨hstore'.part, hstore'.disk, hstore'.blockBitmap, hstore'.inodeMap⟩, ⟨?_, hheld.live⟩, ?_, ?_, ?_, ?_, ?_⟩
    · exact fun u t' hclose => hrest.trans (hheld.closes u t' hclose)
    · show t₁.heap.next = _
      rw [hnext, hnext₁, hreq]
      show s.heap.next + k + 1 + s.openRequests n = _
      omega
    · exact hfull.trans hfull₁
    · show t₁.tasks = _
      rw [htasks, hs₁]
      rfl
    · show t₁.cur = _
      rw [hcur, hs₁]
      rfl
    · obtain ⟨hothers, hwas⟩ := inodeOpen_at (hframe.cacheOk hok) hin
      refine ⟨a, { v with iOpenCnt := c }, ?_, hv, hcont, fun b hb => ?_, ?_⟩
      · show Option.map Dir.inode (Function.update t₁.dirs d _ d) = some a
        rw [Function.update_self]
        rfl
      · show t₁.inodes b = _
        rw [hothers b hb, hs₁]
        rfl
      · rw [hs₁] at hwas
        exact hwas

/-- Where there is memory for it, directory `n` is opened. -/
theorem Stands.opens (h : s.TreeOk) (hn : n < 4096) (hg : s.Grants k (1 + s.openRequests n)) :
    ∃ p t, Returns (dirOpen n) (s.heapAt (s.heap.next + k)) p t ∧ Stands s t p n (k + (1 + s.openRequests n)) := by
  have hok := (Restored.frame ⟨_, Nat.le_add_right s.heap.next k, rfl⟩).cacheOk h.cache
  have hmem : (s.heapAt (s.heap.next + k)).HasMemory (1 + s.openRequests n) :=
    Fs.hasMemory_of_grants h hg rfl rfl rfl rfl le_rfl
  obtain ⟨p, t, hopen⟩ := dirOpen_runs (s := s.heapAt (s.heap.next + k)) hok ⟨h.table.onDisk, h.table.inPart⟩ hn hmem
  exact ⟨p, t, hopen, (Stands.open h hopen).2⟩

/-! ## Looking a name up -/

theorem searchBlocks_none {allBlocks : Nat → Nat} {name : CStr} {cnt m b : Nat} {r : Option DirEntry}
    (h : Returns (searchBlocks allBlocks name cnt none m b) s r t) : ∀ j, b ≤ j → j < b + m → allBlocks j = 0 := by
  induction m generalizing b with
  | zero => exact fun j hb hj => by omega
  | succ m ih =>
    simp only [searchBlocks] at h
    split at h
    · next hzero =>
      intro j hb hj
      rcases Nat.eq_or_lt_of_le hb with rfl | hlt
      · exact hzero
      · exact ih h j hlt (by omega)
    · simp only [returns_bind, returns_fits] at h
      obtain ⟨-, _, ⟨hne, -⟩, -⟩ := h
      exact absurd rfl hne

/-- Looking a name up asks for two buffers.  Without the first nothing is found; without the
    second nothing is read. -/
theorem searchDirEntry_inv {a : Nat} {name : CStr} {r : Option DirEntry} (hlive : t.heap.LiveBelow)
    (ha : t.handle p = some a) (hv : t.inodes a = some v) (h : Returns (searchDirEntry p name) t r t') :
    t.heap.full t.heap.next = true ∧ r = none ∧ t' = t.heapAt (t.heap.next + 1) ∨
      t.heap.full t.heap.next = false ∧ t' = t.heapAt (t.heap.next + 2) ∧
        (t.heap.full (t.heap.next + 1) = false ∨ ∀ j < 140, v.blockAddr t.disk j = 0) := by
  obtain ⟨m, -, hrest⟩ := searchDirEntry_restored hlive h
  simp only [searchDirEntry, returns_bind (x := sysMalloc)] at h
  obtain ⟨mem, t₁, hmem, h⟩ := h
  rcases sysMalloc_inv hmem with ⟨rfl, rfl⟩ | ⟨w, rfl, rfl⟩
  · rw [if_pos rfl] at h
    obtain ⟨rfl, rfl⟩ := returns_pure.mp h
    exact Or.inl ⟨full_of_sysMalloc hmem, rfl, rfl⟩
  · have hfirst := (served_of_sysMalloc hmem).2
    rw [if_neg (by simp)] at h
    simp only [returns_bind, returns_dirInode, returns_getInode, returns_readAllBlocks, returns_query,
      returns_pure] at h
    obtain ⟨a', _, ⟨ha', rfl⟩, v', _, ⟨hv', rfl⟩, f, _, ⟨-, rfl, rfl⟩, buf, t₂, hbuf, _, _, ⟨rfl, rfl⟩, found,
      t₃, hsearch, _, t₄, hfree, _, t₅, hfree', -, rfl⟩ := h
    have ha₁ : Fs.handle { t with heap := t.heap.alloc w } p = t.handle p := by
      cases p with
      | root => rfl
      | heap d => rfl
    obtain rfl : a = a' := by simpa [ha₁, ha] using ha'
    obtain rfl : v = v' := Option.some.inj (hv.symm.trans hv')
    have hnext : t₅.heap.next = t.heap.next + 2 := by
      rw [(returns_sysFree hfree').2, (returns_sysFree hfree).2,
        ← keeps_searchBlocks (R := Eq) _ _ hsearch, (returns_sysMalloc hbuf).2.1]
      rfl
    have hm : t₅.heap.next = m := by
      rw [hrest]
      rfl
    refine Or.inr ⟨hfirst, by rw [hrest, ← hm, hnext], ?_⟩
    cases buf with
    | none => exact Or.inr fun j hj => searchBlocks_none hsearch j (Nat.zero_le _) (by omega)
    | some b =>
      left
      exact (served_of_sysMalloc hbuf).2

/-- In a directory of the tree a look-up finds the entry with the name, or comes back empty-handed
    for want of the first buffer. -/
theorem Stands.lookup {name : CStr} {r : Option DirEntry} (hst : Stands s t p i k) (hs : s.TreeOk) (hi : s.IsDir i)
    (hname : DirEntry.NameOk name) (h : Returns (searchDirEntry p name) t r t') :
    s.heap.full (s.heap.next + k) = true ∧ r = none ∧ Stands s t' p i (k + 1) ∨
      s.Grants k 2 ∧ Stands s t' p i (k + 2) ∧ ∀ e, r = some e ↔ e ∈ s.entries i ∧ e.filename = name := by
  obtain ⟨a, v, ha, hv, hcont, -⟩ := hst.dirOn
  have hnode := hs.node i hi
  have haddr : v.blockAddr t.disk = (s.content i).blockAddr s.disk := by
    rw [← hcont, hst.disk]
    rfl
  have hentries : dirEntries t.disk v = s.entries i := by
    rw [Fs.entries, ← hcont, hst.disk]
    rfl
  rcases searchDirEntry_inv hst.held.live ha hv h with ⟨hfull, hr, rfl⟩ | ⟨hfirst, rfl, hsecond⟩
  · left
    rw [hst.full, hst.next] at hfull
    exact ⟨hfull, hr, hst.heapAt 1⟩
  · right
    -- the directory has a block, so the second buffer was needed
    have hsecond : t.heap.full (t.heap.next + 1) = false := by
      apply hsecond.resolve_right
      intro hzero
      obtain ⟨j, hj, hne⟩ := hnode.block
      exact hne (haddr ▸ hzero j hj)
    refine ⟨fun j hj => ?_, hst.heapAt 2, ?_⟩
    · rw [← hst.full, ← Nat.add_assoc, ← hst.next]
      rcases j with _ | _ | j
      · exact hfirst
      · exact hsecond
      · omega
    · have hslots : ∀ j < 140, v.blockAddr t.disk j ≠ 0 → SlotsOk (sectorAt t.disk (v.blockAddr t.disk j)) := by
        rw [haddr, hst.disk]
        exact hnode.listed.slots
      have hsize : t.part.sb.dirEntrySize = 24 := by rw [hst.part, hs.entrySize]
      obtain ⟨-, hsome, hnone⟩ := returns_searchDirEntry hsize ha hv hslots hname h
      rw [hentries] at hsome hnone
      intro e
      refine ⟨hsome e, fun ⟨he, hfn⟩ => ?_⟩
      cases r with
      | some e' =>
        obtain ⟨he', hfn'⟩ := hsome e' rfl
        rw [hnode.listed.unique he he' (hfn.trans hfn'.symm)]
      | none =>
        rcases hnone rfl with hfull | hno
        · rw [hfirst] at hfull
          cases hfull
        · exact absurd hfn (hno e he)

/-- A request that is refused. -/
theorem sysMalloc_refused (hrun : ∃ c, s.tasks s.cur = some c) (hfull : s.heap.full s.heap.next = true) :
    Returns sysMalloc s none (s.heapAt (s.heap.next + 1)) := by
  obtain ⟨c, hc⟩ := hrun
  simp only [sysMalloc, mallocFrom, returns_bind, returns_runningThread, returns_query]
  refine ⟨c, s, ⟨hc, rfl⟩, s.heap, s, ⟨rfl, rfl⟩, ?_⟩
  rw [if_pos hfull]
  simp only [returns_bind, returns_update, returns_pure]
  exact ⟨(), _, rfl, trivial, rfl⟩

/-- And it comes back where there is memory for both buffers, or none for the first. -/
theorem Stands.looks {name : CStr} (hst : Stands s t p i k) (hs : s.TreeOk) (hi : s.IsDir i)
    (hname : DirEntry.NameOk name) (hg : s.heap.full (s.heap.next + k) = true ∨ s.Grants k 2) :
    ∃ r t', Returns (searchDirEntry p name) t r t' := by
  rcases hg with hfull | hg
  · have hrun : ∃ c, t.tasks t.cur = some c := by
      rw [hst.tasks, hst.cur]
      exact hs.running
    rw [← hst.full, ← hst.next] at hfull
    refine ⟨none, t.heapAt (t.heap.next + 1), ?_⟩
    simp only [searchDirEntry]
    rw [returns_bind_iff (sysMalloc_refused hrun hfull), if_pos rfl]
    exact returns_pure.mpr ⟨rfl, rfl⟩
  · obtain ⟨a, v, ha, hv, hcont, -⟩ := hst.dirOn
    have hlisted : t.Listed v := by
      have hold := (hs.node i hi).listed
      rw [← hcont] at hold
      refine ⟨?_, hold.table, ?_, ?_⟩
      · rw [hst.disk]
        exact hold.blocks
      · rw [hst.disk]
        exact hold.slots
      · rw [hst.disk]
        exact hold.names
    have hsize : t.part.sb.dirEntrySize = 24 := by rw [hst.part, hs.entrySize]
    obtain ⟨r, t', h, -⟩ := searchDirEntry_listed hsize ha hv hlisted hname (hst.hasMemory hs hg)
    exact ⟨r, t', h⟩

end Opening

/-! ## A small tree -/

namespace SmallTree

theorem entries_root : fs.entries 0 = rootEntries := by decide +kernel

theorem entries_sub : fs.entries 1 = subEntries := by decide +kernel

theorem isDir {i : Nat} (h : fs.IsDir i) : i = 0 ∨ i = 1 := by
  induction h with
  | root => exact Or.inl rfl
  | @child i e _ he hty ih =>
    rcases ih with rfl | rfl
    · rw [entries_root] at he
      have hall : ∀ e ∈ rootEntries, e.fType = ftDir → e.iNo = 0 ∨ e.iNo = 1 := by decide
      exact hall e he hty
    · rw [entries_sub] at he
      have hall : ∀ e ∈ subEntries, e.fType = ftDir → e.iNo = 0 ∨ e.iNo = 1 := by decide
      exact hall e he hty

theorem blockAddr_dir : ∀ i < 2, ∀ k < 140, (fs.content i).blockAddr fs.disk k = if k = 0 then 1000 + i else 0 := by
  decide +kernel

theorem slotsOk_dir : ∀ i < 2, SlotsOk (sectorAt fs.disk (1000 + i)) := by decide +kernel

theorem dirNode {i : Nat} (hi : i = 0 ∨ i = 1) : fs.DirNode i := by
  have hlt : i < 2 := by omega
  have haddr := blockAddr_dir i hlt
  refine ⟨by omega, ?_, ⟨?_, ?_, ?_, ?_⟩, ⟨0, by decide, ?_⟩, ?_⟩
  · rcases hi with rfl | rfl <;> decide +kernel
  · intro k hk
    rw [haddr k hk]
    have hmax : 1001 ≤ maxLba := by decide
    split <;> omega
  · rcases hi with rfl | rfl <;> decide +kernel
  · intro k hk hne
    rw [haddr k hk] at hne ⊢
    split at hne
    · next h0 =>
      rw [if_pos h0]
      exact slotsOk_dir i hlt
    · exact absurd rfl hne
  · show ((fs.entries i).map DirEntry.filename).Nodup
    rcases hi with rfl | rfl
    · rw [entries_root]
      decide
    · rw [entries_sub]
      decide
  · rw [haddr 0 (by decide), if_pos rfl]
    omega
  · rcases hi with rfl | rfl
    · rw [entries_root]
      decide
    · rw [entries_sub]
      decide

/-- What the entries of the root and of `"d"` stand for. -/
theorem names_root {e : DirEntry} (he : e ∈ rootEntries) : fs.names 0 e.filename = some e.child :=
  (dirNode (Or.inl rfl)).names_eq (by rw [entries_root]; exact he)

theorem names_sub {e : DirEntry} (he : e ∈ subEntries) : fs.names 1 e.filename = some e.child :=
  (dirNode (Or.inr rfl)).names_eq (by rw [entries_sub]; exact he)

theorem treeOk : fs.TreeOk where
  cache := cacheOk
  live := by
    intro b hb
    cases hb
  entrySize := rfl
  table := ⟨by decide, by decide⟩
  running := ⟨_, rfl⟩
  root := by decide
  node := fun i hi => dirNode (isDir hi)
  self := by
    intro i hi
    rcases isDir hi with rfl | rfl
    · exact names_root (e := ⟨dot, 0, ftDir⟩) (by decide)
    · exact names_sub (e := ⟨dot, 1, ftDir⟩) (by decide)
  rootUp := names_root (e := ⟨dotDot, 0, ftDir⟩) (by decide)

/-- Every request is granted. -/
theorem grants (k n : Nat) : fs.Grants k n := fun _ _ => rfl

end SmallTree

end ZxyOs
