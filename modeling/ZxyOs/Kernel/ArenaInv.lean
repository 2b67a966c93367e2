/-
  ZxyOs.Kernel.ArenaInv

  The invariant of the allocator and the layout it implies: which page ranges are
  arenas of small blocks and which are single large blocks, which blocks are on the
  free lists, and that blocks, arena headers and descriptors never overlap.
-/

import ZxyOs.Kernel.Arena
import Mathlib.Data.Finset.Card
import Mathlib.Data.List.Perm.Subperm

namespace ZxyOs

open Lib Lib.Exec

/-! ## Block sizes -/

/-- The block size of descriptor `i`. -/
def blockSize (i : Nat) : Nat := 16 * 2 ^ i

/-- The number of blocks an arena of descriptor `i` is cut into. -/
def perArena (i : Nat) : Nat := 4084 / blockSize i

/-- Block `k` of the arena at `a`. -/
def blockAt (a i k : Nat) : Nat := a + 12 + k * blockSize i

section Sizes

variable {a b i j k : Nat}

theorem blockSize_ge (i : Nat) : 16 ≤ blockSize i := by
  have := Nat.one_le_two_pow (n := i)
  simp only [blockSize]
  omega

theorem blockSize_pos (i : Nat) : 0 < blockSize i :=
  lt_of_lt_of_le (by omega) (blockSize_ge i)

theorem blockSize_le (hi : i < 7) : blockSize i ≤ 1024 := by
  have := Nat.pow_le_pow_right (show 0 < 2 by omega) (show i ≤ 6 by omega)
  simp only [blockSize]
  omega

theorem perArena_pos (hi : i < 7) : 0 < perArena i :=
  Nat.div_pos (le_trans (blockSize_le hi) (by omega)) (blockSize_pos i)

theorem perArena_le (i : Nat) : perArena i ≤ 255 := by
  have h : perArena i ≤ 4084 / 16 := Nat.div_le_div_left (blockSize_ge i) (by omega)
  omega

/-- A block lies behind the header and inside the page of its arena. -/
theorem blockAt_bounds (hk : k < perArena i) :
    a + 12 ≤ blockAt a i k ∧ blockAt a i k + blockSize i ≤ a + 4096 := by
  have h1 : (k + 1) * blockSize i ≤ perArena i * blockSize i :=
    Nat.mul_le_mul_right _ (by omega)
  have h2 : perArena i * blockSize i ≤ 4084 := Nat.div_mul_le_self _ _
  rw [Nat.add_mul, Nat.one_mul] at h1
  simp only [blockAt]
  omega

theorem blockAt_apart (h : j < k) : blockAt a i j + blockSize i ≤ blockAt a i k := by
  have h1 : (j + 1) * blockSize i ≤ k * blockSize i := Nat.mul_le_mul_right _ h
  rw [Nat.add_mul, Nat.one_mul] at h1
  simp only [blockAt]
  omega

theorem blockAt_injective : Function.Injective (blockAt a i) := by
  intro j k h
  have := blockSize_pos i
  by_contra hne
  rcases Nat.lt_or_gt_of_ne hne with hlt | hlt
  · have := @blockAt_apart a i _ _ hlt
    omega
  · have := @blockAt_apart a i _ _ hlt
    omega

theorem block2arena_blockAt (ha : a % 4096 = 0) (hk : k < perArena i) :
    block2arena (blockAt a i k) = a := by
  obtain ⟨h1, h2⟩ := @blockAt_bounds a i k hk
  have := blockSize_pos i
  simp only [block2arena]
  omega

end Sizes

/-! ## Arenas -/

/-- The page at `a` is an arena cut into blocks of descriptor `i`. -/
structure SmallArena (descs : Nat) (s : KHeap) (a i : Nat) : Prop where
  held : (a, 1) ∈ s.held
  lt : i < 7
  desc : s.mem a = descAt descs i
  large : s.mem (a + 8) = 0

/-- The `c` pages at `a` are one large block. -/
structure LargeArena (s : KHeap) (a c : Nat) : Prop where
  held : (a, c) ∈ s.held
  desc : s.mem a = 0
  cnt : s.mem (a + 4) = c
  large : s.mem (a + 8) = 1

/-- `b` is a block of the arena at `a`. -/
def IsBlock (descs : Nat) (s : KHeap) (b a i : Nat) : Prop :=
  SmallArena descs s a i ∧ ∃ k < perArena i, b = blockAt a i k

/-- The blocks of the arena at `a` that are in `l`. -/
def freeBlocks (l : List Nat) (a i : Nat) : Finset Nat :=
  (Finset.range (perArena i)).filter fun k => blockAt a i k ∈ l

/-- The page ranges in use: whole pages below 4 GiB that overlap neither each other
    nor the descriptors. -/
structure PagesOk (descs : Nat) (held : List (Nat × Nat)) : Prop where
  aligned : ∀ r ∈ held, r.1 % 4096 = 0 ∧ 0 < r.1 ∧ 0 < r.2 ∧ r.1 + 4096 * r.2 ≤ 2 ^ 32
  descs : ∀ r ∈ held, descs + 168 ≤ r.1 ∨ r.1 + 4096 * r.2 ≤ descs
  disjoint : held.Pairwise fun r r' => r.1 + 4096 * r.2 ≤ r'.1 ∨ r'.1 + 4096 * r'.2 ≤ r.1

/-- The invariant of the allocator, with the free blocks of descriptor `i` in
    `free i`.  Every arena has a block handed out, except possibly the one at
    `idle`. -/
structure ArenaInv (descs : Nat) (σ : Kernel) (free : Nat → List Nat) (idle : Option Nat) :
    Prop where
  descsPos : 0 < descs
  pages : PagesOk descs σ.heap.held
  desc : ∀ i < 7, σ.heap.mem (descAt descs i) = blockSize i ∧
    σ.heap.mem (descAt descs i + 4) = perArena i
  lists : ∀ i < 7, σ.heap.mem.IsList (descAt descs i + 8) (free i)
  nodup : ∀ i < 7, (free i).Nodup
  freeBlock : ∀ i < 7, ∀ b ∈ free i, ∃ a, IsBlock descs σ.heap b a i
  kinds : ∀ r ∈ σ.heap.held, (∃ i, r.2 = 1 ∧ SmallArena descs σ.heap r.1 i) ∨
    LargeArena σ.heap r.1 r.2
  cnt : ∀ a i, SmallArena descs σ.heap a i → σ.heap.mem (a + 4) = (freeBlocks (free i) a i).card
  live : ∀ x ∈ σ.live, 0 < x.2 ∧
    ((∃ a i, IsBlock descs σ.heap x.1 a i ∧ x.2 ≤ blockSize i ∧ x.1 ∉ free i) ∨
      ∃ a c, LargeArena σ.heap a c ∧ x.1 = a + 12 ∧ x.2 + 12 ≤ 4096 * c)
  liveNodup : (σ.live.map Prod.fst).Nodup
  ownedSmall : ∀ b a i, IsBlock descs σ.heap b a i → b ∉ free i → b ∈ σ.live.map Prod.fst
  ownedLarge : ∀ a c, LargeArena σ.heap a c → a + 12 ∈ σ.live.map Prod.fst
  busy : ∀ a i, SmallArena descs σ.heap a i → idle ≠ some a → ∃ k < perArena i,
    blockAt a i k ∉ free i

section Geometry

variable {descs : Nat} {σ : Kernel} {free : Nat → List Nat} {idle : Option Nat}
  {a a' b b' i i' : Nat} {r : Nat × Nat} {s : KHeap}

theorem SmallArena.desc_unique (h : SmallArena descs s a i) (h' : SmallArena descs s a i') :
    i = i' := by
  have := h.desc.symm.trans h'.desc
  simp only [descAt] at this
  omega

theorem PagesOk.apart (h : PagesOk descs s.held) {r r' : Nat × Nat} (hr : r ∈ s.held)
    (hr' : r' ∈ s.held) (hne : r ≠ r') :
    r.1 + 4096 * r.2 ≤ r'.1 ∨ r'.1 + 4096 * r'.2 ≤ r.1 := by
  have : Std.Symm fun r r' : Nat × Nat =>
      r.1 + 4096 * r.2 ≤ r'.1 ∨ r'.1 + 4096 * r'.2 ≤ r.1 := ⟨fun _ _ h => h.symm⟩
  exact List.Pairwise.forall h.disjoint hr hr' hne

/-- Ranges in use are told apart by where they start. -/
theorem PagesOk.unique (h : PagesOk descs s.held) {r r' : Nat × Nat} (hr : r ∈ s.held)
    (hr' : r' ∈ s.held) (heq : r.1 = r'.1) : r = r' := by
  by_contra hne
  have h1 := h.aligned r hr
  have h2 := h.aligned r' hr'
  rcases h.apart hr hr' hne with h | h <;> omega

theorem IsBlock.bounds (h : IsBlock descs s b a i) :
    a + 12 ≤ b ∧ b + blockSize i ≤ a + 4096 := by
  obtain ⟨-, k, hk, rfl⟩ := h
  exact blockAt_bounds hk

namespace ArenaInv

variable (h : ArenaInv descs σ free idle)
include h

theorem block2arena_eq (hb : IsBlock descs σ.heap b a i) : block2arena b = a := by
  obtain ⟨hs, k, hk, rfl⟩ := hb
  exact block2arena_blockAt (h.pages.aligned _ hs.held).1 hk

/-- A block belongs to one arena. -/
theorem arena_unique (hb : IsBlock descs σ.heap b a i) (hb' : IsBlock descs σ.heap b a' i') :
    a = a' ∧ i = i' := by
  obtain rfl : a = a' := (h.block2arena_eq hb).symm.trans (h.block2arena_eq hb')
  exact ⟨rfl, hb.1.desc_unique hb'.1⟩

/-- Different blocks do not overlap. -/
theorem block_apart (hb : IsBlock descs σ.heap b a i) (hb' : IsBlock descs σ.heap b' a' i')
    (hne : b ≠ b') : b + blockSize i ≤ b' ∨ b' + blockSize i' ≤ b := by
  by_cases haa : a = a'
  · subst haa
    obtain ⟨hs, k, hk, rfl⟩ := hb
    obtain ⟨hs', k', hk', rfl⟩ := hb'
    obtain rfl := hs.desc_unique hs'
    rcases Nat.lt_trichotomy k k' with hlt | rfl | hlt
    · exact Or.inl (blockAt_apart hlt)
    · exact absurd rfl hne
    · exact Or.inr (blockAt_apart hlt)
  · have h1 := hb.bounds
    have h2 := hb'.bounds
    have hpages : (a, 1) ≠ (a', 1) := fun heq => haa (congrArg Prod.fst heq)
    rcases h.pages.apart hb.1.held hb'.1.held hpages with hlt | hlt <;> omega

/-- A block does not overlap the header of a range in use. -/
theorem block_header (hb : IsBlock descs σ.heap b a i) (hr : r ∈ σ.heap.held) :
    b + blockSize i ≤ r.1 ∨ r.1 + 12 ≤ b := by
  have h1 := hb.bounds
  have h2 := (h.pages.aligned r hr).2.2.1
  by_cases heq : (a, 1) = r
  · subst heq
    exact Or.inr h1.1
  · rcases h.pages.apart hb.1.held hr heq with hlt | hlt <;> omega

/-- A block does not overlap the descriptors. -/
theorem block_desc (hb : IsBlock descs σ.heap b a i) :
    b + blockSize i ≤ descs ∨ descs + 168 ≤ b := by
  have h1 := hb.bounds
  rcases h.pages.descs _ hb.1.held with hlt | hlt <;> omega

theorem header_desc (hr : r ∈ σ.heap.held) : r.1 + 12 ≤ descs ∨ descs + 168 ≤ r.1 := by
  have h2 := (h.pages.aligned r hr).2.2.1
  rcases h.pages.descs _ hr with hlt | hlt <;> omega

theorem header_apart {r' : Nat × Nat} (hr : r ∈ σ.heap.held) (hr' : r' ∈ σ.heap.held)
    (hne : r ≠ r') : r.1 + 12 ≤ r'.1 ∨ r'.1 + 12 ≤ r.1 := by
  have h1 := (h.pages.aligned r hr).2.2.1
  have h2 := (h.pages.aligned r' hr').2.2.1
  rcases h.pages.apart hr hr' hne with hlt | hlt <;> omega

/-- Free blocks are blocks of some arena of their descriptor, so a block handed out
    or of another descriptor is none of them. -/
theorem not_mem_free_of_ne (hi : i < 7) (hb : IsBlock descs σ.heap b a i') (hne : i ≠ i') :
    b ∉ free i := by
  intro hmem
  obtain ⟨a', hb'⟩ := h.freeBlock i hi b hmem
  exact hne (h.arena_unique hb' hb).2

/-- A block does not overlap the ends of a free list. -/
theorem block_ends (hb : IsBlock descs σ.heap b a i') (hi : i < 7) :
    b + blockSize i' ≤ descAt descs i + 8 ∨ descAt descs i + 24 ≤ b := by
  have h1 := h.block_desc hb
  simp only [descAt]
  omega

theorem blocks_spaced (hb : IsBlock descs σ.heap b a i) (hb' : IsBlock descs σ.heap b' a' i')
    (hne : b ≠ b') : b + 8 ≤ b' ∨ b' + 8 ≤ b := by
  have h1 := h.block_apart hb hb' hne
  have h2 := blockSize_ge i
  have h3 := blockSize_ge i'
  omega

/-- The elements of a list of blocks do not overlap. -/
theorem spaced_of_blocks {l : List Nat} (hi : i < 7) (hnodup : l.Nodup)
    (hl : ∀ b ∈ l, ∃ a, IsBlock descs σ.heap b a i) :
    Spaced ((descAt descs i + 8) :: l ++ [descAt descs i + 8 + 8]) := by
  apply Spaced.ends
  · refine List.Nodup.pairwise_of_forall_ne hnodup fun x hx y hy hne => ?_
    obtain ⟨ax, hx'⟩ := hl x hx
    obtain ⟨ay, hy'⟩ := hl y hy
    exact h.blocks_spaced hx' hy' hne
  · intro x hx
    obtain ⟨a, hx'⟩ := hl x hx
    have h1 := h.block_ends hx' hi
    have h2 := blockSize_ge i
    omega

theorem spaced (hi : i < 7) :
    Spaced ((descAt descs i + 8) :: free i ++ [descAt descs i + 8 + 8]) :=
  h.spaced_of_blocks hi (h.nodup i hi) (h.freeBlock i hi)

/-- The elements of a free list, together with a block that is not on it, do not
    overlap. -/
theorem spaced_cons (hi : i < 7) (hb : IsBlock descs σ.heap b a i) (hfree : b ∉ free i) :
    Spaced (b :: ((descAt descs i + 8) :: free i ++ [descAt descs i + 8 + 8])) := by
  have hall : Spaced ((descAt descs i + 8) :: (b :: free i) ++ [descAt descs i + 8 + 8]) := by
    refine h.spaced_of_blocks hi (List.nodup_cons.mpr ⟨hfree, h.nodup i hi⟩) fun x hx => ?_
    rcases List.mem_cons.mp hx with rfl | hx
    · exact ⟨a, hb⟩
    · exact h.freeBlock i hi x hx
  exact hall.perm (List.Perm.swap _ _ _)

/-- A free list has fewer elements than there are addresses. -/
theorem length_free_lt (hi : i < 7) : (free i).length < 2 ^ 32 := by
  have hsub : free i ⊆ List.range (2 ^ 32 - 1) := fun x hx => by
    obtain ⟨a, hx'⟩ := h.freeBlock i hi x hx
    have h1 := hx'.bounds
    have h2 := (h.pages.aligned _ hx'.1.held).2.2.2
    have h3 := blockSize_ge i
    exact List.mem_range.mpr (by omega)
  have := (List.subperm_of_subset (h.nodup i hi) hsub).length_le
  rw [List.length_range] at this
  omega

/-- A small block is not the block of a large range. -/
theorem block_ne_large {c : Nat} (hb : IsBlock descs σ.heap b a i)
    (hl : LargeArena σ.heap a' c) : b ≠ a' + 12 := by
  intro heq
  have h1 := hb.bounds
  have h2 := blockSize_ge i
  have hne : (a, 1) ≠ (a', c) := fun he => by
    have haa : a = a' := congrArg Prod.fst he
    have := hb.1.large
    rw [haa, hl.large] at this
    omega
  have h3 := (h.pages.aligned _ hl.held).2.2.1
  rcases h.pages.apart hb.1.held hl.held hne with hlt | hlt <;> omega

/-- What is handed out is not free. -/
theorem live_not_free (hb : b ∈ σ.live.map Prod.fst) (hi : i < 7) : b ∉ free i := by
  intro hmem
  obtain ⟨x, hx, rfl⟩ := List.mem_map.mp hb
  obtain ⟨a', hb'⟩ := h.freeBlock i hi _ hmem
  rcases (h.live x hx).2 with ⟨a, j, hbl, -, hnot⟩ | ⟨a, c, hl, heq, -⟩
  · obtain rfl := (h.arena_unique hbl hb').2
    exact hnot hmem
  · exact h.block_ne_large hb' hl heq

end ArenaInv

end Geometry

/-! ## Changing the blocks of one arena -/

/-- Only the ends of the free list of descriptor `i`, blocks of that descriptor and
    the count of the arena at `a` differ between `s` and the memory `m`. -/
def TouchesOnly (descs : Nat) (s : KHeap) (i a : Nat) (m : Mem) : Prop :=
  ∀ w, (w < descAt descs i + 8 ∨ descAt descs i + 24 ≤ w) →
    (∀ b a', IsBlock descs s b a' i → w < b ∨ b + blockSize i ≤ w) → w ≠ a + 4 → m w = s.mem w

section Update

variable {descs : Nat} {σ : Kernel} {free : Nat → List Nat} {idle : Option Nat}
  {a i : Nat} {m : Mem}

/-- Arenas stay what they are when the words that say so are kept. -/
theorem smallArena_congr {s s' : KHeap} {a i : Nat} (hheld : s'.held = s.held)
    (hhdr : ∀ r ∈ s.held, s'.mem r.1 = s.mem r.1 ∧ s'.mem (r.1 + 8) = s.mem (r.1 + 8)) :
    SmallArena descs s' a i ↔ SmallArena descs s a i := by
  constructor
  · rintro ⟨h1, h2, h3, h4⟩
    rw [hheld] at h1
    obtain ⟨e1, e2⟩ := hhdr _ h1
    exact ⟨h1, h2, e1 ▸ h3, e2 ▸ h4⟩
  · rintro ⟨h1, h2, h3, h4⟩
    obtain ⟨e1, e2⟩ := hhdr _ h1
    exact ⟨hheld ▸ h1, h2, e1.trans h3, e2.trans h4⟩

theorem isBlock_congr {s s' : KHeap} {b a i : Nat} (hheld : s'.held = s.held)
    (hhdr : ∀ r ∈ s.held, s'.mem r.1 = s.mem r.1 ∧ s'.mem (r.1 + 8) = s.mem (r.1 + 8)) :
    IsBlock descs s' b a i ↔ IsBlock descs s b a i :=
  and_congr_left fun _ => smallArena_congr hheld hhdr

namespace ArenaInv

variable (h : ArenaInv descs σ free idle)
include h

/-- The descriptor and `large` words of every header, and the counts of other
    arenas, are out of the way. -/
theorem touches_header (ht : TouchesOnly descs σ.heap i a m) (hs : SmallArena descs σ.heap a i)
    {r : Nat × Nat} (hr : r ∈ σ.heap.held) :
    m r.1 = σ.heap.mem r.1 ∧ m (r.1 + 8) = σ.heap.mem (r.1 + 8) ∧
      (r.1 ≠ a → m (r.1 + 4) = σ.heap.mem (r.1 + 4)) := by
  have hd := h.header_desc hr
  have hlt := hs.lt
  have hdesc (w : Nat) (hw : r.1 ≤ w ∧ w < r.1 + 12) :
      w < descAt descs i + 8 ∨ descAt descs i + 24 ≤ w := by
    simp only [descAt]
    omega
  have hblock (w : Nat) (hw : r.1 ≤ w ∧ w < r.1 + 12) (b a' : Nat)
      (hb : IsBlock descs σ.heap b a' i) : w < b ∨ b + blockSize i ≤ w := by
    have := h.block_header hb hr
    omega
  have hcnt (w : Nat) (hw : w = r.1 ∨ w = r.1 + 8 ∨ w = r.1 + 4 ∧ r.1 ≠ a) : w ≠ a + 4 := by
    by_cases heq : r = (a, 1)
    · rw [heq] at hw
      omega
    · have := h.header_apart hr hs.held heq
      have hra : r.1 ≠ a := fun hra => heq (h.pages.unique hr hs.held hra)
      omega
  have hw (w : Nat) (hin : r.1 ≤ w ∧ w < r.1 + 12)
      (hne : w = r.1 ∨ w = r.1 + 8 ∨ w = r.1 + 4 ∧ r.1 ≠ a) : m w = σ.heap.mem w :=
    ht w (hdesc w hin) (hblock w hin) (hcnt w hne)
  exact ⟨hw _ (by omega) (by omega), hw _ (by omega) (by omega),
    fun hne => hw _ (by omega) (by omega)⟩

/-- The sizes in the descriptors are out of the way. -/
theorem touches_desc (ht : TouchesOnly descs σ.heap i a m) (hs : SmallArena descs σ.heap a i)
    {w : Nat} (hw : descs ≤ w ∧ w < descs + 168)
    (hout : w < descAt descs i + 8 ∨ descAt descs i + 24 ≤ w) : m w = σ.heap.mem w := by
  refine ht w hout (fun b a' hb => ?_) ?_
  · have := h.block_desc hb
    omega
  · have := h.header_desc hs.held
    omega

/-- The other free lists are out of the way. -/
theorem touches_list (ht : TouchesOnly descs σ.heap i a m) (hs : SmallArena descs σ.heap a i)
    {j : Nat} (hj : j < 7) (hne : j ≠ i) : m.IsList (descAt descs j + 8) (free j) := by
  have hlt := hs.lt
  refine (h.lists j hj).congr fun x hx => ?_
  rcases List.mem_append.mp hx with hx | hx
  · rcases List.mem_cons.mp hx with rfl | hx
    · constructor <;> refine h.touches_desc ht hs ?_ ?_ <;> simp only [descAt] <;> omega
    · obtain ⟨ax, hbx⟩ := h.freeBlock j hj x hx
      have hsz := blockSize_ge j
      have hw (w : Nat) (hw : x ≤ w ∧ w < x + 8) : m w = σ.heap.mem w := by
        refine ht w ?_ (fun b a' hb => ?_) ?_
        · have := h.block_ends hbx hlt
          omega
        · have hxb : x ≠ b := fun heq => hne (h.arena_unique hbx (heq ▸ hb)).2
          have := h.block_apart hbx hb hxb
          omega
        · have := h.block_header hbx hs.held
          simp only at this
          omega
      exact ⟨hw x (by omega), hw (x + 4) (by omega)⟩
  · rw [List.mem_singleton] at hx
    subst hx
    constructor <;> refine h.touches_desc ht hs ?_ ?_ <;> simp only [descAt] <;> omega

/-- The invariant after the free blocks of one arena have changed. -/
theorem update {l : List Nat} {live : List (Nat × Nat)} {idle' : Option Nat}
    (hs : SmallArena descs σ.heap a i) (ht : TouchesOnly descs σ.heap i a m)
    (hlist : m.IsList (descAt descs i + 8) l) (hnodup : l.Nodup)
    (hblocks : ∀ b ∈ l, ∃ a', IsBlock descs σ.heap b a' i)
    (hcnt : m (a + 4) = (freeBlocks l a i).card)
    (hother : ∀ a', a' ≠ a → SmallArena descs σ.heap a' i →
      ∀ k < perArena i, blockAt a' i k ∈ l ↔ blockAt a' i k ∈ free i)
    (hlive : ∀ x ∈ live, 0 < x.2 ∧
      ((∃ a' j, IsBlock descs σ.heap x.1 a' j ∧ x.2 ≤ blockSize j ∧
        x.1 ∉ Function.update free i l j) ∨
        ∃ a' c, LargeArena σ.heap a' c ∧ x.1 = a' + 12 ∧ x.2 + 12 ≤ 4096 * c))
    (hliveNodup : (live.map Prod.fst).Nodup)
    (hownedSmall : ∀ b a' j, IsBlock descs σ.heap b a' j → b ∉ Function.update free i l j →
      b ∈ live.map Prod.fst)
    (hownedLarge : ∀ a' c, LargeArena σ.heap a' c → a' + 12 ∈ live.map Prod.fst)
    (hbusy : ∀ a' j, SmallArena descs σ.heap a' j → idle' ≠ some a' → ∃ k < perArena j,
      blockAt a' j k ∉ Function.update free i l j) :
    ArenaInv descs { heap := { σ.heap with mem := m }, live := live }
      (Function.update free i l) idle' := by
  have hlt := hs.lt
  have hhdr (r : Nat × Nat) (hr : r ∈ σ.heap.held) := h.touches_header ht hs hr
  have hhdr' (r : Nat × Nat) (hr : r ∈ σ.heap.held) :
      m r.1 = σ.heap.mem r.1 ∧ m (r.1 + 8) = σ.heap.mem (r.1 + 8) :=
    ⟨(hhdr r hr).1, (hhdr r hr).2.1⟩
  set s' : KHeap := { σ.heap with mem := m } with hs'
  have hsmall {a' j : Nat} : SmallArena descs s' a' j ↔ SmallArena descs σ.heap a' j :=
    smallArena_congr rfl hhdr'
  have hblock {b a' j : Nat} : IsBlock descs s' b a' j ↔ IsBlock descs σ.heap b a' j :=
    isBlock_congr rfl hhdr'
  have hlarge {a' c : Nat} : LargeArena s' a' c ↔ LargeArena σ.heap a' c := by
    have hne (hin : (a', c) ∈ σ.heap.held) (hbig : σ.heap.mem (a' + 8) = 1) : a' ≠ a := by
      rintro rfl
      have := hs.large
      omega
    constructor
    · rintro ⟨h1, h2, h3, h4⟩
      obtain ⟨e1, e2, e3⟩ := hhdr _ h1
      have hbig : σ.heap.mem (a' + 8) = 1 := e2 ▸ h4
      exact ⟨h1, e1 ▸ h2, (e3 (hne h1 hbig)) ▸ h3, hbig⟩
    · rintro ⟨h1, h2, h3, h4⟩
      obtain ⟨e1, e2, e3⟩ := hhdr _ h1
      exact ⟨h1, e1.trans h2, (e3 (hne h1 h4)).trans h3, e2.trans h4⟩
  have hfree {j : Nat} (hj : j ≠ i) : Function.update free i l j = free j :=
    Function.update_of_ne hj _ _
  have hself : Function.update free i l i = l := Function.update_self _ _ _
  constructor
  case descsPos => exact h.descsPos
  case pages => exact h.pages
  case desc =>
    intro j hj
    obtain ⟨e1, e2⟩ := h.desc j hj
    constructor
    · refine (h.touches_desc ht hs ?_ ?_).trans e1 <;> simp only [descAt] <;> omega
    · refine (h.touches_desc ht hs ?_ ?_).trans e2 <;> simp only [descAt] <;> omega
  case lists =>
    intro j hj
    by_cases hji : j = i
    · rw [hji, hself]
      exact hlist
    · rw [hfree hji]
      exact h.touches_list ht hs hj hji
  case nodup =>
    intro j hj
    by_cases hji : j = i
    · rw [hji, hself]
      exact hnodup
    · rw [hfree hji]
      exact h.nodup j hj
  case freeBlock =>
    intro j hj b hb
    by_cases hji : j = i
    · rw [hji, hself] at hb
      obtain ⟨a', hb'⟩ := hblocks b hb
      exact ⟨a', hblock.mpr (hji ▸ hb')⟩
    · rw [hfree hji] at hb
      obtain ⟨a', hb'⟩ := h.freeBlock j hj b hb
      exact ⟨a', hblock.mpr hb'⟩
  case kinds =>
    intro r hr
    rcases h.kinds r hr with ⟨j, hj, hsm⟩ | hlg
    · exact Or.inl ⟨j, hj, hsmall.mpr hsm⟩
    · exact Or.inr (hlarge.mpr hlg)
  case cnt =>
    intro a' j hsm
    rw [hsmall] at hsm
    by_cases haa : a' = a
    · subst haa
      obtain rfl := hsm.desc_unique hs
      rw [hself]
      exact hcnt
    · have hold := h.cnt a' j hsm
      show m (a' + 4) = _
      rw [(hhdr _ hsm.held).2.2 haa, hold]
      by_cases hji : j = i
      · subst hji
        rw [hself]
        congr 1
        refine Finset.filter_congr fun k hk => (hother a' haa hsm k ?_).symm
        exact Finset.mem_range.mp hk
      · rw [hfree hji]
  case live =>
    intro x hx
    obtain ⟨hpos, ⟨a', j, hb, hrest⟩ | ⟨a', c, hlg, hrest⟩⟩ := hlive x hx
    · exact ⟨hpos, Or.inl ⟨a', j, hblock.mpr hb, hrest⟩⟩
    · exact ⟨hpos, Or.inr ⟨a', c, hlarge.mpr hlg, hrest⟩⟩
  case liveNodup => exact hliveNodup
  case ownedSmall => exact fun b a' j hb => hownedSmall b a' j (hblock.mp hb)
  case ownedLarge => exact fun a' c hlg => hownedLarge a' c (hlarge.mp hlg)
  case busy => exact fun a' j hsm => hbusy a' j (hsmall.mp hsm)

end ArenaInv

end Update

end ZxyOs
