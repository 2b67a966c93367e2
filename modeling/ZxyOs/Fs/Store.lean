/-
  ZxyOs.Fs.Store

  A file system in order.

  `Fs.StoreOk` adds to a well-formed tree what holds between its parts: every inode of the tree
  has its number and its blocks to itself, a file is named once, the cache holds each inode once
  and as it is in the table, and what `file_table` refers to is there.

  With the cache coherent an inode is its slot, so what a call does to the tree can be read off
  the disk: an inode and a directory stay as they are as long as their slot and their blocks do.
-/

import ZxyOs.Fs.DirDelete
import ZxyOs.Fs.Tree

namespace ZxyOs

open Lib Lib.Exec

namespace Fs

/-- Inode `i` is a regular file that a directory of the tree names. -/
def IsFile (s : Fs) (i : Nat) : Prop := ∃ d, s.IsDir d ∧ ∃ e ∈ s.entries d, e.fType = ftRegular ∧ e.iNo = i

/-- Inode `i` is in the tree. -/
def InTree (s : Fs) (i : Nat) : Prop := s.IsDir i ∨ s.IsFile i

/-- Block `lba` is the index table of inode `i` or one of its blocks. -/
def Owns (s : Fs) (i lba : Nat) : Prop :=
  lba ≠ 0 ∧ (lba = (s.content i).sector 12 ∨ ∃ k < 140, (s.content i).blockAddr s.disk k = lba)

/-- The cache holds inodes as they are in the table. -/
def Coherent (s : Fs) (i : Nat) : Prop := ∀ a v, s.inodes a = some v → v.iNo = i → v.pureInode = (s.slot i).pureInode

/-- A file system in order. -/
structure StoreOk (s : Fs) : Prop extends s.TreeOk where
  layout : s.Layout
  coherent : ∀ i, s.Coherent i
  single : ∀ a b v w, s.inodes a = some v → s.inodes b = some w → v.iNo = w.iNo → a = b
  dirOk : ∀ i, s.IsDir i → s.DirOk (s.content i)
  dotsFirst : ∀ i, s.IsDir i → s.DotsFirst (s.content i)
  up : ∀ i, s.IsDir i → ∃ j, s.names i dotDot = some (.dir j)
  inMap : ∀ i, s.InTree i → i < 4096 ∧ i < s.inodeMap.size
  own : ∀ i, s.InTree i → (s.content i).iNo = i
  blocks : ∀ i, s.InTree i → s.BlocksOk (s.content i)
  apart : ∀ i j lba, s.InTree i → s.InTree j → s.Owns i lba → s.Owns j lba → i = j
  notDir : ∀ i, s.IsFile i → ¬ s.IsDir i
  once : ∀ d d' e e', s.IsDir d → s.IsDir d' → e ∈ s.entries d → e' ∈ s.entries d' → e.fType = ftRegular →
    e'.fType = ftRegular → e.iNo = e'.iNo → d = d' ∧ e = e'
  rootFirst : (s.content 0).sector 0 = s.part.sb.dataStartLba
  slots : ∀ g < 32, ∀ a, (s.fileTable g).fdInode = some a → s.rings a ≠ none ∨ s.inodes a ≠ none

end Fs

section Store

variable {s t : Fs} {i j n d : Nat} {v : Inode} {e : DirEntry}

/-! ## The cache -/

/-- An inode that is coherent is its slot. -/
theorem Fs.Coherent.content (h : s.Coherent i) : s.content i = (s.slot i).pureInode := by
  cases hcached : s.cached i with
  | some a =>
    obtain ⟨-, v, hv, hno⟩ := cached_some hcached
    rw [content_cached hcached hv]
    exact h a v hv hno
  | none => exact content_slot hcached

/-- An inode is cached where some address holds it. -/
theorem Fs.CacheOk.cached_isSome (hok : s.CacheOk) :
    (s.cached i).isSome = true ↔ ∃ a v, s.inodes a = some v ∧ v.iNo = i := by
  rw [Option.isSome_iff_exists]
  constructor
  · rintro ⟨a, ha⟩
    obtain ⟨-, v, hv, hno⟩ := Fs.cached_some ha
    exact ⟨a, v, hv, hno⟩
  · rintro ⟨a, v, hv, hno⟩
    by_contra hnone
    have hnone' : s.cached i = none := by
      rw [Option.eq_none_iff_forall_ne_some]
      exact fun b hb => hnone ⟨b, hb⟩
    exact Fs.cached_none hnone' ((hok.mem a).mpr (by rw [hv]; simp)) hv hno

/-- Two caches that hold the inode, or neither, ask for the same. -/
theorem openRequests_congr (hs : s.CacheOk) (ht : t.CacheOk)
    (h : (∃ a v, t.inodes a = some v ∧ v.iNo = i) ↔ ∃ a v, s.inodes a = some v ∧ v.iNo = i) :
    t.openRequests i = s.openRequests i := by
  rw [← ht.cached_isSome, ← hs.cached_isSome] at h
  unfold Fs.openRequests
  by_cases hc : (s.cached i).isSome = true
  · rw [if_pos hc, if_pos (h.mpr hc)]
  · rw [if_neg hc, if_neg fun h' => hc (h.mp h')]

/-- Every other inode is where it was when a directory handle is open. -/
theorem OnDir.others_iff {p : DirPtr} {a b : Nat} {w : Inode} (h : OnDir s t p d a v) (hv : v.iNo = d)
    (hne : w.iNo ≠ d) : t.inodes b = some w ↔ s.inodes b = some w := by
  by_cases hb : b = a
  · subst hb
    constructor
    · intro hin
      obtain rfl : v = w := Option.some.inj (h.inode.symm.trans hin)
      exact absurd hv hne
    · intro hin
      rcases h.was with hcached | ⟨-, hnone⟩
      · obtain ⟨-, w', hw', hno⟩ := Fs.cached_some hcached
        rw [hin] at hw'
        obtain rfl := Option.some.inj hw'
        exact absurd hno hne
      · rw [hnone] at hin
        cases hin
  · rw [h.others b hb]

/-- And the directory's own inode is nowhere else. -/
theorem OnDir.sole {p : DirPtr} {a b : Nat} {w : Inode} (hs : s.StoreOk) (h : OnDir s t p d a v)
    (hin : t.inodes b = some w) (hw : w.iNo = d) : b = a := by
  by_contra hb
  rw [h.others b hb] at hin
  rcases h.was with hcached | ⟨hnone, -⟩
  · obtain ⟨-, w', hw', hno⟩ := Fs.cached_some hcached
    exact hb (hs.single b a w w' hin hw' (hw.trans hno.symm))
  · have hmem := (hs.cache.mem b).mpr (by rw [hin]; simp)
    exact Fs.cached_none hnone hmem hin hw

/-- With a directory open the cache is coherent still. -/
theorem Stands.coherent {p : DirPtr} {k : Nat} (hst : Stands s t p d k) (hs : s.StoreOk) (hd : s.IsDir d) : t.Coherent i := by
  intro b w hw hno
  obtain ⟨a, v, hon⟩ := hst.dirOn
  have hslot : t.slot i = s.slot i := by
    unfold Fs.slot Fs.slotAddr
    rw [hst.disk, hst.part]
  rw [hslot]
  by_cases hb : b = a
  · -- the directory itself
    subst hb
    obtain rfl := Option.some.inj (hon.inode.symm.trans hw)
    have hown := hs.own d (Or.inl hd)
    rw [← hon.content] at hown
    obtain rfl : i = d := hno.symm.trans hown
    rw [hon.content, (hs.coherent i).content]
  · rw [hon.others b hb] at hw
    exact hs.coherent i b w hw hno

theorem Stands.content_eq {p : DirPtr} {k : Nat} (hst : Stands s t p d k) (hs : s.StoreOk) (hd : s.IsDir d) :
    t.content i = s.content i := by
  rw [(hst.coherent hs hd).content, (hs.coherent i).content]
  unfold Fs.slot Fs.slotAddr
  rw [hst.disk, hst.part]

/-! ## What stays as it is -/

/-- A directory whose table and blocks have not been written. -/
theorem dirEntries_frame {disk disk' : Bytes} (htable : v.sector 12 ≠ 0 → sectorAt disk' (v.sector 12) = sectorAt disk (v.sector 12))
    (hblocks : ∀ k < 140, v.blockAddr disk k ≠ 0 →
      sectorAt disk' (v.blockAddr disk k) = sectorAt disk (v.blockAddr disk k)) :
    v.blockAddr disk' = v.blockAddr disk ∧ dirEntries disk' v = dirEntries disk v := by
  have haddr : v.blockAddr disk' = v.blockAddr disk := by
    unfold Inode.blockAddr
    by_cases h12 : v.sector 12 = 0
    · rw [if_pos h12, if_pos h12]
    · rw [if_neg h12, if_neg h12, htable h12]
  refine ⟨haddr, ?_⟩
  rw [dirEntries, dirEntries, haddr]
  exact contents_congr fun k hk => entriesAt_congr fun hne => hblocks k hk hne

/-- The blocks of inode `i` have not been written, and neither has its slot. -/
structure Spared (s t : Fs) (i : Nat) : Prop where
  slot : t.slot i = s.slot i
  owned : ∀ lba, s.Owns i lba → sectorAt t.disk lba = sectorAt s.disk lba

theorem Spared.content (h : Spared s t i) (hs : s.Coherent i) (ht : t.Coherent i) : t.content i = s.content i := by
  rw [ht.content, hs.content, h.slot]

theorem Spared.frame (h : Spared s t i) (hs : s.Coherent i) (ht : t.Coherent i) :
    (s.content i).blockAddr t.disk = (s.content i).blockAddr s.disk ∧ t.entries i = s.entries i := by
  unfold Fs.entries
  rw [h.content hs ht]
  apply dirEntries_frame
  · exact fun h12 => h.owned _ ⟨h12, Or.inl rfl⟩
  · exact fun k hk hne => h.owned _ ⟨hne, Or.inr ⟨k, hk, rfl⟩⟩

/-- What an inode of the tree owns are data blocks in use. -/
theorem Fs.StoreOk.inUse {lba : Nat} (hs : s.StoreOk) (hi : s.InTree i) (h : s.Owns i lba) : s.InUse lba := by
  obtain ⟨hne, rfl | ⟨k, hk, rfl⟩⟩ := h
  · exact (hs.blocks i hi).table hne
  · exact (hs.blocks i hi).inUse k hk hne

/-- The first data block is the root's. -/
theorem Fs.StoreOk.not_first {lba : Nat} (hs : s.StoreOk) (hi : s.InTree i) (hne : i ≠ 0) (h : s.Owns i lba) :
    lba ≠ s.part.sb.dataStartLba := by
  rintro rfl
  refine hne (hs.apart i 0 _ hi (Or.inl .root) h ⟨h.1, Or.inr ⟨0, by decide, ?_⟩⟩)
  rw [Inode.blockAddr_direct (by decide)]
  exact hs.rootFirst

/-- A slot is read from its bytes in the inode table. -/
theorem slot_congr (hpart : t.part = s.part) (h : ∀ k < 76, t.disk (s.slotAddr i + k) = s.disk (s.slotAddr i + k)) :
    t.slot i = s.slot i := by
  unfold Fs.slot Fs.slotAddr
  rw [hpart]
  exact Inode.decode_congr h

theorem Fs.slot_wordSized (s : Fs) (i : Nat) : (s.slot i).pureInode.WordSized where
  iNo := Bytes.u32At_lt _ _
  iSize := Bytes.u32At_lt _ _
  iOpenCnt := by
    show 0 < 2 ^ 32
    decide
  iSectors := fun _ => Bytes.u32At_lt _ _

/-- Releasing an inode writes no other slot. -/
theorem Releases.slot_ne {I : Nat → Prop} (h : Releases s t i I) (hpart : t.part = s.part)
    (hne : j ≠ i) : t.slot j = s.slot j := by
  refine slot_congr hpart fun k hk => h.elsewhere _ (Or.inr ?_) ?_
  · unfold Fs.slotAddr
    omega
  · unfold Fs.slotAddr
    omega

/-- And no data block. -/
theorem Releases.sectorAt_data {I : Nat → Prop} {lba : Nat} (h : Releases s t i I) (hl : s.Layout) (hi : i < 4096)
    (hdata : s.part.sb.dataStartLba ≤ lba) : sectorAt t.disk lba = sectorAt s.disk lba := by
  have htable := hl.inodeTable
  funext k
  by_cases hk : k < 512
  · rw [sectorAt, sectorAt, Bytes.window_apply hk, Bytes.window_apply hk]
    apply h.elsewhere
    · omega
    · unfold Fs.slotAddr
      omega
  · rw [sectorAt, sectorAt, Bytes.window, Bytes.window, if_neg hk, if_neg hk]

/-- A file is not the root. -/
theorem Fs.IsFile.ne_zero (hn : s.IsFile n) (hs : s.StoreOk) : n ≠ 0 := by
  rintro rfl
  exact hs.notDir 0 hn .root

end Store

/-! ## The small tree is in order -/

namespace SmallTree

theorem mem_entries {i : Nat} {e : DirEntry} (hi : fs.IsDir i) (he : e ∈ fs.entries i) :
    i = 0 ∧ e ∈ rootEntries ∨ i = 1 ∧ e ∈ subEntries := by
  rcases isDir hi with rfl | rfl
  · rw [entries_root] at he
    exact Or.inl ⟨rfl, he⟩
  · rw [entries_sub] at he
    exact Or.inr ⟨rfl, he⟩

theorem isFile {i : Nat} (h : fs.IsFile i) : i = 2 ∨ i = 3 := by
  obtain ⟨d, hd, e, he, hty, rfl⟩ := h
  have hroot : ∀ e ∈ rootEntries, e.fType = ftRegular → e.iNo = 2 ∨ e.iNo = 3 := by decide
  have hsub : ∀ e ∈ subEntries, e.fType = ftRegular → e.iNo = 2 ∨ e.iNo = 3 := by decide
  rcases mem_entries hd he with ⟨-, he⟩ | ⟨-, he⟩
  · exact hroot e he hty
  · exact hsub e he hty

theorem inTree {i : Nat} (h : fs.InTree i) : i < 4 := by
  rcases h with hd | hf
  · have hi := isDir hd
    omega
  · have hi := isFile hf
    omega

theorem blockAddr : ∀ i < 4, ∀ k < 140, (fs.content i).blockAddr fs.disk k = if k = 0 ∧ i < 2 then 1000 + i else 0 := by
  decide +kernel

theorem sector_table : ∀ i < 4, (fs.content i).sector 12 = 0 := by decide +kernel

theorem owns {i lba : Nat} (hi : i < 4) (h : fs.Owns i lba) : i < 2 ∧ lba = 1000 + i := by
  obtain ⟨hne, hlba | ⟨k, hk, hlba⟩⟩ := h
  · rw [sector_table i hi] at hlba
    exact absurd hlba hne
  · rw [blockAddr i hi k hk] at hlba
    split at hlba
    · next hk => exact ⟨hk.2, hlba.symm⟩
    · exact absurd hlba.symm hne

theorem blocksOk {i : Nat} (hi : i < 4) : fs.BlocksOk (fs.content i) where
  inUse := by
    intro k hk hne
    rw [blockAddr i hi k hk] at hne ⊢
    split
    · next h0 =>
      have hmax : 1001 ≤ maxLba := by decide
      exact ⟨by omega, i, show i < 32 by omega, decide_eq_true h0.2, rfl⟩
    · next h0 =>
      rw [if_neg h0] at hne
      exact absurd rfl hne
  table := fun hne => absurd (sector_table i hi) hne
  inj := by
    intro j hj k hk hne heq
    rw [blockAddr i hi j hj] at hne heq
    rw [blockAddr i hi k hk] at heq
    grind
  tableNe := fun k hk hne => absurd (sector_table i hi) hne

theorem storeOk : fs.StoreOk where
  toTreeOk := treeOk
  layout := ⟨rfl, by decide, by decide, by decide, by decide⟩
  coherent := by
    intro i a v hv hno
    by_cases ha : a = 0
    · subst ha
      obtain rfl := Option.some.inj hv
      obtain rfl : i = 0 := hno.symm
      rw [Inode.pureInode, Inode.pureInode, Inode.mk.injEq]
      have hsectors : ∀ k, (inode 0 96 1000).iSectors k = (fs.slot 0).iSectors k := by decide +kernel
      exact ⟨by decide +kernel, by decide +kernel, rfl, rfl, funext hsectors⟩
    · have hnone : fs.inodes a = none := if_neg ha
      rw [hnone] at hv
      cases hv
  single := by
    intro a b v w hv hw _
    have haddr {a : Nat} {v : Inode} (hv : fs.inodes a = some v) : a = 0 := by
      by_contra ha
      have hnone : fs.inodes a = none := if_neg ha
      rw [hnone] at hv
      cases hv
    rw [haddr hv, haddr hw]
  dirOk := by
    intro i hi
    have hdir := isDir hi
    have hnode := (dirNode hdir).listed
    refine ⟨⟨blocksOk (by omega), hnode.slots, hnode.names⟩, ?_⟩
    show _ = 24 * (fs.entries i).card
    rcases hdir with rfl | rfl
    · rw [entries_root]
      decide +kernel
    · rw [entries_sub]
      decide +kernel
  dotsFirst := by
    intro i hi
    rcases isDir hi with rfl | rfl
    · exact ⟨by decide +kernel, by decide +kernel, by decide +kernel, by decide +kernel⟩
    · exact ⟨by decide +kernel, by decide +kernel, by decide +kernel, by decide +kernel⟩
  up := by
    intro i hi
    rcases isDir hi with rfl | rfl
    · exact ⟨0, names_root (e := ⟨dotDot, 0, ftDir⟩) (by decide)⟩
    · exact ⟨0, names_sub (e := ⟨dotDot, 0, ftDir⟩) (by decide)⟩
  inMap := by
    intro i hi
    have hlt := inTree hi
    exact ⟨by omega, show i < 8 by omega⟩
  own := by
    intro i hi
    have hown : ∀ i < 4, (fs.content i).iNo = i := by decide +kernel
    exact hown i (inTree hi)
  blocks := fun i hi => blocksOk (inTree hi)
  apart := by
    intro i j lba hi hj hown hown'
    obtain ⟨-, hlba⟩ := owns (inTree hi) hown
    obtain ⟨-, hlba'⟩ := owns (inTree hj) hown'
    omega
  notDir := by
    intro i hf hd
    have hfile := isFile hf
    have hdir := isDir hd
    omega
  once := by
    intro d d' e e' hd hd' he he' hty hty' heq
    have hboth : (∀ e ∈ rootEntries, ∀ e' ∈ rootEntries, e.fType = ftRegular → e'.fType = ftRegular → e.iNo = e'.iNo →
        e = e') ∧ (∀ e ∈ subEntries, ∀ e' ∈ subEntries, e.fType = ftRegular → e'.fType = ftRegular →
        e.iNo = e'.iNo → e = e') ∧ ∀ e ∈ rootEntries, ∀ e' ∈ subEntries, e.fType = ftRegular →
        e'.fType = ftRegular → e.iNo ≠ e'.iNo := by decide
    obtain ⟨hroot, hsub, hapart⟩ := hboth
    rcases mem_entries hd he with ⟨rfl, hm⟩ | ⟨rfl, hm⟩
    · rcases mem_entries hd' he' with ⟨rfl, hm'⟩ | ⟨rfl, hm'⟩
      · exact ⟨rfl, hroot e hm e' hm' hty hty' heq⟩
      · exact absurd heq (hapart e hm e' hm' hty hty')
    · rcases mem_entries hd' he' with ⟨rfl, hm'⟩ | ⟨rfl, hm'⟩
      · exact absurd heq.symm (hapart e' hm' e hm hty' hty)
      · exact ⟨rfl, hsub e hm e' hm' hty hty' heq⟩
  rootFirst := by decide +kernel
  slots := by
    intro g _ a ha
    cases ha

end SmallTree

end ZxyOs
