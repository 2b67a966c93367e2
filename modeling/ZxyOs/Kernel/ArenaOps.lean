/-
  ZxyOs.Kernel.ArenaOps

  `sys_malloc` and `sys_free` keep the invariant of the allocator: taking a block off
  a free list, putting one back, opening and closing an arena, and the ranges that
  are one large block.  Each program is shown to return, which includes that its
  assertions hold.
-/

import ZxyOs.Kernel.ArenaInv

namespace ZxyOs

open Lib Lib.Exec

section Blocks

variable {descs : Nat} {σ : Kernel} {free : Nat → List Nat} {idle : Option Nat}
  {a b i n : Nat} {m : Mem} {rest : List Nat} {x y : Nat × Nat}

/-! ## The blocks handed out -/

theorem live_eq_of_fst (hnodup : (σ.live.map Prod.fst).Nodup) (hx : x ∈ σ.live) (hy : y ∈ σ.live)
    (heq : x.1 = y.1) : x = y :=
  List.inj_on_of_nodup_map hnodup hx hy heq

theorem mem_live_erase (hnodup : (σ.live.map Prod.fst).Nodup) (hx : x ∈ σ.live)
    (hy : y ∈ σ.live.erase x) : y ∈ σ.live ∧ y.1 ≠ x.1 := by
  have hmem := List.mem_of_mem_erase hy
  refine ⟨hmem, fun heq => ?_⟩
  rw [live_eq_of_fst hnodup hmem hx heq] at hy
  exact (hnodup.of_map Prod.fst).not_mem_erase hy

theorem fst_mem_live_erase (hb : b ∈ σ.live.map Prod.fst) (hne : b ≠ x.1) :
    b ∈ (σ.live.erase x).map Prod.fst := by
  obtain ⟨y, hy, rfl⟩ := List.mem_map.mp hb
  exact List.mem_map_of_mem ((List.mem_erase_of_ne fun heq => hne (congrArg Prod.fst heq)).mpr hy)

theorem live_erase_nodup (hnodup : (σ.live.map Prod.fst).Nodup) :
    ((σ.live.erase x).map Prod.fst).Nodup :=
  hnodup.sublist (List.erase_sublist.map _)

/-! ## Taking a block and putting it back -/

theorem freeBlocks_cons {l : List Nat} {k : Nat} (hk : k < perArena i)
    (hnot : blockAt a i k ∉ l) :
    (freeBlocks (blockAt a i k :: l) a i).card = (freeBlocks l a i).card + 1 := by
  have hins : freeBlocks (blockAt a i k :: l) a i = insert k (freeBlocks l a i) := by
    ext j
    simp only [freeBlocks, Finset.mem_filter, Finset.mem_range, Finset.mem_insert, List.mem_cons]
    constructor
    · rintro ⟨hj, heq | hmem⟩
      · exact Or.inl (blockAt_injective heq)
      · exact Or.inr ⟨hj, hmem⟩
    · rintro (rfl | ⟨hj, hmem⟩)
      · exact ⟨hk, Or.inl rfl⟩
      · exact ⟨hj, Or.inr hmem⟩
  rw [hins, Finset.card_insert_of_notMem]
  simp [freeBlocks, hnot]

theorem freeBlocks_congr {l l' : List Nat} (h : ∀ x, x ∈ l ↔ x ∈ l') :
    freeBlocks l a i = freeBlocks l' a i :=
  Finset.filter_congr fun _ _ => h _

namespace ArenaInv

/-- The first free block is handed out. -/
theorem pop (h : ArenaInv descs σ free idle) (hb : IsBlock descs σ.heap b a i)
    (hfree : free i = b :: rest) (hidle : idle = none ∨ idle = some a)
    (ht : TouchesOnly descs σ.heap i a m) (hlist : m.IsList (descAt descs i + 8) rest)
    (hcnt : m (a + 4) + 1 = σ.heap.mem (a + 4)) (hn : 0 < n ∧ n ≤ blockSize i) :
    ArenaInv descs { heap := { σ.heap with mem := m }, live := (b, n) :: σ.live }
      (Function.update free i rest) none := by
  have hlt := hb.1.lt
  have hnodup := h.nodup i hlt
  rw [hfree, List.nodup_cons] at hnodup
  have hmem : b ∈ free i := by simp [hfree]
  have hself : Function.update free i rest i = rest := Function.update_self _ _ _
  have hne {j : Nat} (hj : j ≠ i) : Function.update free i rest j = free j :=
    Function.update_of_ne hj _ _
  have hmono {j c : Nat} (hc : c ∉ free j) : c ∉ Function.update free i rest j := by
    by_cases hj : j = i
    · subst hj
      rw [hself]
      exact fun hin => hc (by rw [hfree]; exact List.mem_cons_of_mem _ hin)
    · rwa [hne hj]
  refine h.update hb.1 ht hlist hnodup.2 (fun c hc => ?_) ?_ (fun a' haa hsm k hk => ?_)
    (fun x hx => ?_) ?_ (fun c a' j hc hnot => ?_) (fun a' c hlg => ?_) fun a' j hsm _ => ?_
  · exact h.freeBlock i hlt c (by rw [hfree]; exact List.mem_cons_of_mem _ hc)
  · obtain ⟨hs, k, hk, rfl⟩ := hb
    have h1 := h.cnt a i hs
    rw [hfree, freeBlocks_cons hk hnodup.1] at h1
    omega
  · have hblk : blockAt a' i k ≠ b := fun heq =>
      haa (h.arena_unique ⟨hsm, k, hk, heq.symm⟩ hb).1
    simp [hfree, hblk]
  · rcases List.mem_cons.mp hx with rfl | hx
    · exact ⟨hn.1, Or.inl ⟨a, i, hb, hn.2, by rw [hself]; exact hnodup.1⟩⟩
    · obtain ⟨hpos, ⟨a', j, hbl, hle, hnot⟩ | hlg⟩ := h.live x hx
      · exact ⟨hpos, Or.inl ⟨a', j, hbl, hle, hmono hnot⟩⟩
      · exact ⟨hpos, Or.inr hlg⟩
  · rw [List.map_cons, List.nodup_cons]
    exact ⟨fun hin => h.live_not_free hin hlt hmem, h.liveNodup⟩
  · rw [List.map_cons, List.mem_cons]
    by_cases hcb : c = b
    · exact Or.inl hcb
    · refine Or.inr (h.ownedSmall c a' j hc fun hin => hnot ?_)
      by_cases hj : j = i
      · subst hj
        rw [hfree] at hin
        rw [hself]
        exact (List.mem_cons.mp hin).resolve_left hcb
      · rwa [hne hj]
  · exact List.mem_cons_of_mem _ (h.ownedLarge a' c hlg)
  · by_cases haa : a' = a
    · subst haa
      obtain rfl := hsm.desc_unique hb.1
      obtain ⟨-, k, hk, rfl⟩ := hb
      exact ⟨k, hk, by rw [hself]; exact hnodup.1⟩
    · have hother : idle ≠ some a' := by
        rcases hidle with hid | hid
        · simp [hid]
        · rw [hid]
          exact fun heq => haa (Option.some.inj heq).symm
      obtain ⟨k, hk, hnot⟩ := h.busy a' j hsm hother
      exact ⟨k, hk, hmono hnot⟩

/-- A block comes back. -/
theorem push (h : ArenaInv descs σ free none) (hx : x ∈ σ.live)
    (hb : IsBlock descs σ.heap x.1 a i) (ht : TouchesOnly descs σ.heap i a m)
    (hlist : m.IsList (descAt descs i + 8) (free i ++ [x.1]))
    (hcnt : m (a + 4) = σ.heap.mem (a + 4) + 1) :
    ArenaInv descs { heap := { σ.heap with mem := m }, live := σ.live.erase x }
      (Function.update free i (free i ++ [x.1])) (some a) := by
  have hlt := hb.1.lt
  have hfst : x.1 ∈ σ.live.map Prod.fst := List.mem_map_of_mem hx
  have hnot : x.1 ∉ free i := h.live_not_free hfst hlt
  have hself : Function.update free i (free i ++ [x.1]) i = free i ++ [x.1] :=
    Function.update_self _ _ _
  have hne {j : Nat} (hj : j ≠ i) : Function.update free i (free i ++ [x.1]) j = free j :=
    Function.update_of_ne hj _ _
  refine h.update hb.1 ht hlist ?_ (fun c hc => ?_) ?_ (fun a' haa hsm k hk => ?_)
    (fun y hy => ?_) (live_erase_nodup h.liveNodup) (fun c a' j hc hcnot => ?_)
    (fun a' c hlg => ?_) fun a' j hsm hid => ?_
  · refine List.nodup_append.mpr ⟨h.nodup i hlt, List.nodup_singleton _, fun c hc d hd => ?_⟩
    rw [List.mem_singleton] at hd
    exact fun heq => hnot (hd ▸ heq ▸ hc)
  · rcases List.mem_append.mp hc with hc | hc
    · exact h.freeBlock i hlt c hc
    · rw [List.mem_singleton] at hc
      exact ⟨a, hc ▸ hb⟩
  · have hcons : freeBlocks (free i ++ [x.1]) a i = freeBlocks (x.1 :: free i) a i :=
      freeBlocks_congr fun y => by simp [or_comm]
    obtain ⟨hs, k, hk, hxk⟩ := hb
    rw [hxk] at hnot hcons ⊢
    rw [hcons, freeBlocks_cons hk hnot, hcnt, h.cnt a i hs]
  · have hblk : blockAt a' i k ≠ x.1 := fun heq =>
      haa (h.arena_unique ⟨hsm, k, hk, heq.symm⟩ hb).1
    simp [hblk]
  · obtain ⟨hy', hyne⟩ := mem_live_erase h.liveNodup hx hy
    obtain ⟨hpos, ⟨a', j, hbl, hle, hynot⟩ | hlg⟩ := h.live y hy'
    · refine ⟨hpos, Or.inl ⟨a', j, hbl, hle, ?_⟩⟩
      by_cases hj : j = i
      · subst hj
        rw [hself]
        simp [hynot, hyne]
      · rwa [hne hj]
    · exact ⟨hpos, Or.inr hlg⟩
  · have hcne : c ≠ x.1 := by
      rintro rfl
      obtain rfl := (h.arena_unique hc hb).2
      exact hcnot (by rw [hself]; simp)
    refine fst_mem_live_erase (h.ownedSmall c a' j hc fun hin => hcnot ?_) hcne
    by_cases hj : j = i
    · subst hj
      rw [hself]
      exact List.mem_append_left _ hin
    · rwa [hne hj]
  · exact fst_mem_live_erase (h.ownedLarge a' c hlg) fun heq => h.block_ne_large hb hlg heq.symm
  · have haa : a' ≠ a := fun heq => hid (heq ▸ rfl)
    obtain ⟨k, hk, hknot⟩ := h.busy a' j hsm (by simp)
    refine ⟨k, hk, ?_⟩
    by_cases hj : j = i
    · subst hj
      have hblk : blockAt a' j k ≠ x.1 := fun heq =>
        haa (h.arena_unique ⟨hsm, k, hk, heq.symm⟩ hb).1
      rw [hself]
      simp [hknot, hblk]
    · rwa [hne hj]

end ArenaInv

end Blocks

/-! ## Opening and closing ranges -/

section Ranges

variable {descs : Nat} {σ : Kernel} {free : Nat → List Nat} {a c i n : Nat} {m : Mem}
  {l : List Nat} {x : Nat × Nat} {s s' : KHeap}

/-- The blocks of the arena at `a`, in the order they are put on the free list. -/
def blocksOf (a i : Nat) : List Nat := (List.range (perArena i)).map (blockAt a i)

/-- The range of `c` pages at `a` may be handed out. -/
structure FreshRange (descs : Nat) (s : KHeap) (a c : Nat) : Prop where
  aligned : a % 4096 = 0 ∧ 0 < a ∧ 0 < c ∧ a + 4096 * c ≤ 2 ^ 32
  descs : descs + 168 ≤ a ∨ a + 4096 * c ≤ descs
  disjoint : ∀ r ∈ s.held, a + 4096 * c ≤ r.1 ∨ r.1 + 4096 * r.2 ≤ a

theorem FreshRange.pagesOk (hf : FreshRange descs s a c) (h : PagesOk descs s.held) :
    PagesOk descs ((a, c) :: s.held) where
  aligned := by
    intro r hr
    rcases List.mem_cons.mp hr with rfl | hr
    · exact hf.aligned
    · exact h.aligned r hr
  descs := by
    intro r hr
    rcases List.mem_cons.mp hr with rfl | hr
    · exact hf.descs
    · exact h.descs r hr
  disjoint := List.pairwise_cons.mpr ⟨fun r hr => hf.disjoint r hr, h.disjoint⟩

theorem PagesOk.erase (h : PagesOk descs s.held) (r : Nat × Nat) :
    PagesOk descs (s.held.erase r) where
  aligned := fun r' hr' => h.aligned r' (List.mem_of_mem_erase hr')
  descs := fun r' hr' => h.descs r' (List.mem_of_mem_erase hr')
  disjoint := h.disjoint.sublist List.erase_sublist

theorem PagesOk.nodup (h : PagesOk descs s.held) : s.held.Nodup := by
  refine h.disjoint.imp_of_mem fun {r r'} hr _ hrr heq => ?_
  have := (h.aligned r hr).2.2.1
  rw [← heq] at hrr
  omega

/-- After a range has been taken back the other ranges are the arenas they were. -/
theorem smallArena_erase (hp : PagesOk descs s.held) {a' j : Nat} (hin : (a, c) ∈ s.held) :
    SmallArena descs { s with held := s.held.erase (a, c) } a' j ↔
      SmallArena descs s a' j ∧ a' ≠ a := by
  constructor
  · rintro ⟨h1, h2, h3, h4⟩
    obtain ⟨hne, hmem⟩ := (hp.nodup.mem_erase_iff).mp h1
    exact ⟨⟨hmem, h2, h3, h4⟩, fun haa => hne (hp.unique hmem hin haa)⟩
  · rintro ⟨⟨h1, h2, h3, h4⟩, haa⟩
    exact ⟨(hp.nodup.mem_erase_iff).mpr ⟨fun heq => haa (congrArg Prod.fst heq), h1⟩, h2, h3, h4⟩

theorem largeArena_erase (hp : PagesOk descs s.held) {a' d : Nat} (hin : (a, c) ∈ s.held) :
    LargeArena { s with held := s.held.erase (a, c) } a' d ↔ LargeArena s a' d ∧ a' ≠ a := by
  constructor
  · rintro ⟨h1, h2, h3, h4⟩
    obtain ⟨hne, hmem⟩ := (hp.nodup.mem_erase_iff).mp h1
    exact ⟨⟨hmem, h2, h3, h4⟩, fun haa => hne (hp.unique hmem hin haa)⟩
  · rintro ⟨⟨h1, h2, h3, h4⟩, haa⟩
    exact ⟨(hp.nodup.mem_erase_iff).mpr ⟨fun heq => haa (congrArg Prod.fst heq), h1⟩, h2, h3, h4⟩

/-- Opening a range leaves the arenas there are alone. -/
theorem smallArena_cons {a' j : Nat}
    (hheld : s'.held = (a, c) :: s.held)
    (hm : ∀ r ∈ s.held, ∀ w, r.1 ≤ w → w < r.1 + 12 → s'.mem w = s.mem w) (haa : a' ≠ a) :
    SmallArena descs s' a' j ↔ SmallArena descs s a' j := by
  constructor
  · rintro ⟨h1, h2, h3, h4⟩
    rw [hheld] at h1
    have hin := (List.mem_cons.mp h1).resolve_left fun heq => haa (congrArg Prod.fst heq)
    have e1 := hm _ hin a' (le_refl _) (by simp only; omega)
    have e2 := hm _ hin (a' + 8) (by simp only; omega) (by simp only; omega)
    exact ⟨hin, h2, e1 ▸ h3, e2 ▸ h4⟩
  · rintro ⟨h1, h2, h3, h4⟩
    have e1 := hm _ h1 a' (le_refl _) (by simp only; omega)
    have e2 := hm _ h1 (a' + 8) (by simp only; omega) (by simp only; omega)
    exact ⟨hheld ▸ List.mem_cons_of_mem _ h1, h2, e1.trans h3, e2.trans h4⟩

theorem largeArena_cons {a' d : Nat}
    (hheld : s'.held = (a, c) :: s.held)
    (hm : ∀ r ∈ s.held, ∀ w, r.1 ≤ w → w < r.1 + 12 → s'.mem w = s.mem w) (haa : a' ≠ a) :
    LargeArena s' a' d ↔ LargeArena s a' d := by
  constructor
  · rintro ⟨h1, h2, h3, h4⟩
    rw [hheld] at h1
    have hin := (List.mem_cons.mp h1).resolve_left fun heq => haa (congrArg Prod.fst heq)
    have e1 := hm _ hin a' (le_refl _) (by simp only; omega)
    have e2 := hm _ hin (a' + 4) (by simp only; omega) (by simp only; omega)
    have e3 := hm _ hin (a' + 8) (by simp only; omega) (by simp only; omega)
    exact ⟨hin, e1 ▸ h2, e2 ▸ h3, e3 ▸ h4⟩
  · rintro ⟨h1, h2, h3, h4⟩
    have e1 := hm _ h1 a' (le_refl _) (by simp only; omega)
    have e2 := hm _ h1 (a' + 4) (by simp only; omega) (by simp only; omega)
    have e3 := hm _ h1 (a' + 8) (by simp only; omega) (by simp only; omega)
    exact ⟨hheld ▸ List.mem_cons_of_mem _ h1, e1.trans h2, e2.trans h3, e3.trans h4⟩

namespace ArenaInv

/-- An arena all of whose blocks have come back is closed. -/
theorem closeSmall (h : ArenaInv descs σ free (some a)) (hs : SmallArena descs σ.heap a i)
    (hall : ∀ k < perArena i, blockAt a i k ∈ free i) (ht : TouchesOnly descs σ.heap i a m)
    (hlist : m.IsList (descAt descs i + 8) l) (hnodup : l.Nodup)
    (hmem : ∀ b, b ∈ l ↔ b ∈ free i ∧ ∀ k < perArena i, b ≠ blockAt a i k) :
    ArenaInv descs
      { heap := { mem := m, held := σ.heap.held.erase (a, 1) }, live := σ.live }
      (Function.update free i l) none := by
  have hlt := hs.lt
  have hhdr (r : Nat × Nat) (hr : r ∈ σ.heap.held) := h.touches_header ht hs hr
  have hheld : ∀ r, r ∈ σ.heap.held.erase (a, 1) ↔ r ≠ (a, 1) ∧ r ∈ σ.heap.held :=
    fun r => h.pages.nodup.mem_erase_iff
  have hne (r : Nat × Nat) (hr : r ∈ σ.heap.held) (hra : r ≠ (a, 1)) : r.1 ≠ a :=
    fun heq => hra (h.pages.unique hr hs.held heq)
  set s' : KHeap := { mem := m, held := σ.heap.held.erase (a, 1) } with hs'
  have hsmall {a' j : Nat} : SmallArena descs s' a' j ↔ SmallArena descs σ.heap a' j ∧ a' ≠ a := by
    rw [← smallArena_erase h.pages hs.held]
    refine smallArena_congr rfl fun r hr => ?_
    have hr' := (hheld r).mp hr
    exact ⟨(hhdr r hr'.2).1, (hhdr r hr'.2).2.1⟩
  have hlarge {a' c : Nat} : LargeArena s' a' c ↔ LargeArena σ.heap a' c := by
    have hbig {a' c : Nat} (hlg : LargeArena σ.heap a' c) : a' ≠ a := by
      rintro rfl
      have h1 := hlg.large
      have h2 := hs.large
      omega
    constructor
    · rintro ⟨h1, h2, h3, h4⟩
      obtain ⟨hra, hr⟩ := (hheld _).mp h1
      obtain ⟨e1, e2, e3⟩ := hhdr _ hr
      exact ⟨hr, e1 ▸ h2, e3 (hne _ hr hra) ▸ h3, e2 ▸ h4⟩
    · rintro hlg
      obtain ⟨e1, e2, e3⟩ := hhdr _ hlg.held
      refine ⟨(hheld _).mpr ⟨fun heq => hbig hlg (congrArg Prod.fst heq), hlg.held⟩,
        e1.trans hlg.desc, (e3 (hbig hlg)).trans hlg.cnt, e2.trans hlg.large⟩
  have hblock {b a' j : Nat} : IsBlock descs s' b a' j ↔ IsBlock descs σ.heap b a' j ∧ a' ≠ a := by
    simp only [IsBlock, hsmall]
    tauto
  have hself : Function.update free i l i = l := Function.update_self _ _ _
  have hfree {j : Nat} (hj : j ≠ i) : Function.update free i l j = free j :=
    Function.update_of_ne hj _ _
  -- a block that was not free is none of the blocks of the arena closed
  have hnotFree {b a' j : Nat} (hb : IsBlock descs σ.heap b a' j) (hnot : b ∉ free j) :
      a' ≠ a := by
    rintro rfl
    obtain ⟨hsm, k, hk, rfl⟩ := hb
    obtain rfl := hsm.desc_unique hs
    exact hnot (hall k hk)
  -- for blocks of other arenas nothing has changed
  have hsame {b a' j : Nat} (hb : IsBlock descs σ.heap b a' j) (haa : a' ≠ a) :
      b ∈ Function.update free i l j ↔ b ∈ free j := by
    by_cases hj : j = i
    · subst hj
      rw [hself, hmem]
      refine and_iff_left fun k hk heq => ?_
      exact haa (h.arena_unique hb ⟨hs, k, hk, heq⟩).1
    · rw [hfree hj]
  constructor
  case descsPos => exact h.descsPos
  case pages => exact h.pages.erase _
  case desc =>
    intro j hj
    obtain ⟨e1, e2⟩ := h.desc j hj
    constructor
    · refine (h.touches_desc ht hs ?_ ?_).trans e1 <;> simp only [descAt] <;> omega
    · refine (h.touches_desc ht hs ?_ ?_).trans e2 <;> simp only [descAt] <;> omega
  case lists =>
    intro j hj
    by_cases hji : j = i
    · rw [hji, hself]
      exact hlist
    · rw [hfree hji]
      exact h.touches_list ht hs hj hji
  case nodup =>
    intro j hj
    by_cases hji : j = i
    · rw [hji, hself]
      exact hnodup
    · rw [hfree hji]
      exact h.nodup j hj
  case freeBlock =>
    intro j hj b hb
    by_cases hji : j = i
    · subst hji
      rw [hself, hmem] at hb
      obtain ⟨a', hb'⟩ := h.freeBlock j hj b hb.1
      refine ⟨a', hblock.mpr ⟨hb', ?_⟩⟩
      rintro rfl
      obtain ⟨-, k, hk, rfl⟩ := hb'
      exact hb.2 k hk rfl
    · rw [hfree hji] at hb
      obtain ⟨a', hb'⟩ := h.freeBlock j hj b hb
      refine ⟨a', hblock.mpr ⟨hb', ?_⟩⟩
      rintro rfl
      exact hji (hb'.1.desc_unique hs)
  case kinds =>
    intro r hr
    obtain ⟨hra, hr'⟩ := (hheld r).mp hr
    rcases h.kinds r hr' with ⟨j, hj, hsm⟩ | hlg
    · exact Or.inl ⟨j, hj, hsmall.mpr ⟨hsm, hne r hr' hra⟩⟩
    · exact Or.inr (hlarge.mpr hlg)
  case cnt =>
    intro a' j hsm
    obtain ⟨hsm, haa⟩ := hsmall.mp hsm
    show m (a' + 4) = _
    rw [(hhdr _ hsm.held).2.2 haa, h.cnt a' j hsm]
    congr 1
    refine Finset.filter_congr fun k hk => (hsame ⟨hsm, k, ?_, rfl⟩ haa).symm
    exact Finset.mem_range.mp hk
  case live =>
    intro x hx
    obtain ⟨hpos, ⟨a', j, hb, hle, hnot⟩ | ⟨a', c, hlg, hrest⟩⟩ := h.live x hx
    · have haa := hnotFree hb hnot
      exact ⟨hpos, Or.inl ⟨a', j, hblock.mpr ⟨hb, haa⟩, hle, fun hin => hnot ((hsame hb haa).mp hin)⟩⟩
    · exact ⟨hpos, Or.inr ⟨a', c, hlarge.mpr hlg, hrest⟩⟩
  case liveNodup => exact h.liveNodup
  case ownedSmall =>
    intro b a' j hb hnot
    obtain ⟨hb, haa⟩ := hblock.mp hb
    exact h.ownedSmall b a' j hb fun hin => hnot ((hsame hb haa).mpr hin)
  case ownedLarge => exact fun a' c hlg => h.ownedLarge a' c (hlarge.mp hlg)
  case busy =>
    intro a' j hsm _
    obtain ⟨hsm, haa⟩ := hsmall.mp hsm
    obtain ⟨k, hk, hnot⟩ := h.busy a' j hsm fun heq => haa (Option.some.inj heq).symm
    exact ⟨k, hk, fun hin => hnot ((hsame ⟨hsm, k, hk, rfl⟩ haa).mp hin)⟩

/-- A large block is given back together with its pages. -/
theorem closeLarge (h : ArenaInv descs σ free none) (hx : x ∈ σ.live)
    (hl : LargeArena σ.heap a c) (hxa : x.1 = a + 12) :
    ArenaInv descs
      { heap := { σ.heap with held := σ.heap.held.erase (a, c) }, live := σ.live.erase x }
      free none := by
  have hsmall {a' j : Nat} := @smallArena_erase descs a c σ.heap h.pages a' j hl.held
  have hlarge {a' d : Nat} := @largeArena_erase descs a c σ.heap h.pages a' d hl.held
  have hkeep {a' j : Nat} (hsm : SmallArena descs σ.heap a' j) : a' ≠ a := by
    rintro rfl
    have h1 := hsm.large
    have h2 := hl.large
    omega
  have hblock {b a' j : Nat} :
      IsBlock descs { σ.heap with held := σ.heap.held.erase (a, c) } b a' j ↔
        IsBlock descs σ.heap b a' j := by
    simp only [IsBlock, hsmall]
    exact and_congr_left fun _ => ⟨And.left, fun hsm => ⟨hsm, hkeep hsm⟩⟩
  constructor
  case descsPos => exact h.descsPos
  case pages => exact h.pages.erase _
  case desc => exact h.desc
  case lists => exact h.lists
  case nodup => exact h.nodup
  case freeBlock =>
    intro j hj b hb
    obtain ⟨a', hb'⟩ := h.freeBlock j hj b hb
    exact ⟨a', hblock.mpr hb'⟩
  case kinds =>
    intro r hr
    obtain ⟨hra, hr'⟩ := h.pages.nodup.mem_erase_iff.mp hr
    rcases h.kinds r hr' with ⟨j, hj, hsm⟩ | hlg
    · exact Or.inl ⟨j, hj, hsmall.mpr ⟨hsm, hkeep hsm⟩⟩
    · exact Or.inr (hlarge.mpr ⟨hlg, fun heq => hra (h.pages.unique hr' hl.held heq)⟩)
  case cnt => exact fun a' j hsm => h.cnt a' j (hsmall.mp hsm).1
  case live =>
    intro y hy
    obtain ⟨hy', hyne⟩ := mem_live_erase h.liveNodup hx hy
    obtain ⟨hpos, ⟨a', j, hb, hrest⟩ | ⟨a', d, hlg, hya, hrest⟩⟩ := h.live y hy'
    · exact ⟨hpos, Or.inl ⟨a', j, hblock.mpr hb, hrest⟩⟩
    · refine ⟨hpos, Or.inr ⟨a', d, hlarge.mpr ⟨hlg, fun haa => hyne ?_⟩, hya, hrest⟩⟩
      rw [hya, hxa, haa]
  case liveNodup => exact live_erase_nodup h.liveNodup
  case ownedSmall =>
    intro b a' j hb hnot
    have hb' := hblock.mp hb
    exact fst_mem_live_erase (h.ownedSmall b a' j hb' hnot) fun heq =>
      h.block_ne_large hb' hl (heq.trans hxa)
  case ownedLarge =>
    intro a' d hlg
    obtain ⟨hlg, haa⟩ := hlarge.mp hlg
    exact fst_mem_live_erase (h.ownedLarge a' d hlg) fun heq => haa (by omega)
  case busy => exact fun a' j hsm hid => h.busy a' j (hsmall.mp hsm).1 hid

/-- What opening a range leaves alone, seen from the lists. -/
theorem isList_of_fresh (h : ArenaInv descs σ free none) (hf : FreshRange descs σ.heap a c)
    {j : Nat} (hj : j < 7)
    (hm : ∀ w, (w < a ∨ a + 4096 * c ≤ w) →
      (w < descAt descs i + 8 ∨ descAt descs i + 24 ≤ w) → m w = σ.heap.mem w)
    (hne : j ≠ i) (hi : i < 7) : m.IsList (descAt descs j + 8) (free j) := by
  have hd := hf.descs
  refine (h.lists j hj).congr fun x hx => ?_
  rcases List.mem_append.mp hx with hx | hx
  · rcases List.mem_cons.mp hx with rfl | hx
    · constructor <;> refine hm _ ?_ ?_ <;> simp only [descAt] at * <;> omega
    · obtain ⟨ax, hbx⟩ := h.freeBlock j hj x hx
      have h1 := hbx.bounds
      have h2 := blockSize_ge j
      have h3 := hf.disjoint _ hbx.1.held
      have h4 := h.block_ends hbx hi
      constructor <;> refine hm _ ?_ ?_ <;> omega
  · rw [List.mem_singleton] at hx
    subst hx
    constructor <;> refine hm _ ?_ ?_ <;> simp only [descAt] at * <;> omega

theorem header_of_fresh (h : ArenaInv descs σ free none) (hf : FreshRange descs σ.heap a c)
    (hi : i < 7)
    (hm : ∀ w, (w < a ∨ a + 4096 * c ≤ w) →
      (w < descAt descs i + 8 ∨ descAt descs i + 24 ≤ w) → m w = σ.heap.mem w) :
    ∀ r ∈ σ.heap.held, ∀ w, r.1 ≤ w → w < r.1 + 12 → m w = σ.heap.mem w := by
  intro r hr w h1 h2
  have h3 := hf.disjoint r hr
  have h4 := (h.pages.aligned r hr).2.2.1
  have h5 := h.header_desc hr
  refine hm w ?_ ?_
  · omega
  · simp only [descAt]
    omega

/-- A new arena, all of its blocks free. -/
theorem openSmall (h : ArenaInv descs σ free none) (hi : i < 7) (hempty : free i = [])
    (hf : FreshRange descs σ.heap a 1)
    (hm : ∀ w, (w < a ∨ a + 4096 * 1 ≤ w) →
      (w < descAt descs i + 8 ∨ descAt descs i + 24 ≤ w) → m w = σ.heap.mem w)
    (hdesc : m a = descAt descs i) (hcnt : m (a + 4) = perArena i) (hbig : m (a + 8) = 0)
    (hlist : m.IsList (descAt descs i + 8) (blocksOf a i)) :
    ArenaInv descs
      { heap := { mem := m, held := (a, 1) :: σ.heap.held }, live := σ.live }
      (Function.update free i (blocksOf a i)) (some a) := by
  have hhdr := h.header_of_fresh hf hi hm
  set s' : KHeap := { mem := m, held := (a, 1) :: σ.heap.held } with hs'
  have hnew : SmallArena descs s' a i := ⟨List.mem_cons_self, hi, hdesc, hbig⟩
  have hfresh {r : Nat × Nat} (hr : r ∈ σ.heap.held) : r.1 ≠ a := by
    have h1 := hf.disjoint r hr
    have h2 := (h.pages.aligned r hr).2.2.1
    omega
  have hsmall {a' j : Nat} (haa : a' ≠ a) :
      SmallArena descs s' a' j ↔ SmallArena descs σ.heap a' j :=
    smallArena_cons rfl hhdr haa
  have hlarge {a' d : Nat} : LargeArena s' a' d ↔ LargeArena σ.heap a' d := by
    by_cases haa : a' = a
    · subst haa
      refine ⟨fun hlg => ?_, fun hlg => absurd rfl (hfresh hlg.held)⟩
      have hv : m (a' + 8) = 1 := hlg.large
      omega
    · exact largeArena_cons rfl hhdr haa
  have hblock {b a' j : Nat} (haa : a' ≠ a) :
      IsBlock descs s' b a' j ↔ IsBlock descs σ.heap b a' j :=
    and_congr_left fun _ => hsmall haa
  have hself : Function.update free i (blocksOf a i) i = blocksOf a i := Function.update_self _ _ _
  have hfree {j : Nat} (hj : j ≠ i) : Function.update free i (blocksOf a i) j = free j :=
    Function.update_of_ne hj _ _
  have hmem {k : Nat} (hk : k < perArena i) : blockAt a i k ∈ blocksOf a i :=
    List.mem_map_of_mem (List.mem_range.mpr hk)
  -- blocks of the arenas there are do not lie in the new page
  have hout {b a' j : Nat} (hb : IsBlock descs σ.heap b a' j) : b ∉ blocksOf a i := by
    intro hin
    obtain ⟨k, hk, rfl⟩ := List.mem_map.mp hin
    have h1 := hb.bounds
    obtain ⟨h2, h3⟩ := @blockAt_bounds a i k (List.mem_range.mp hk)
    have h4 := hf.disjoint _ hb.1.held
    have h5 := blockSize_ge i
    have h6 := blockSize_ge j
    simp only at h4
    omega
  constructor
  case descsPos => exact h.descsPos
  case pages => exact hf.pagesOk h.pages
  case desc =>
    intro j hj
    obtain ⟨e1, e2⟩ := h.desc j hj
    have hd := hf.descs
    constructor
    · refine (hm _ ?_ ?_).trans e1 <;> simp only [descAt] at * <;> omega
    · refine (hm _ ?_ ?_).trans e2 <;> simp only [descAt] at * <;> omega
  case lists =>
    intro j hj
    by_cases hji : j = i
    · rw [hji, hself]
      exact hlist
    · rw [hfree hji]
      exact h.isList_of_fresh hf hj hm hji hi
  case nodup =>
    intro j hj
    by_cases hji : j = i
    · rw [hji, hself]
      exact List.Nodup.map blockAt_injective List.nodup_range
    · rw [hfree hji]
      exact h.nodup j hj
  case freeBlock =>
    intro j hj b hb
    by_cases hji : j = i
    · subst hji
      rw [hself] at hb
      obtain ⟨k, hk, rfl⟩ := List.mem_map.mp hb
      exact ⟨a, hnew, k, List.mem_range.mp hk, rfl⟩
    · rw [hfree hji] at hb
      obtain ⟨a', hb'⟩ := h.freeBlock j hj b hb
      exact ⟨a', (hblock (hfresh hb'.1.held)).mpr hb'⟩
  case kinds =>
    intro r hr
    rcases List.mem_cons.mp hr with rfl | hr
    · exact Or.inl ⟨i, rfl, hnew⟩
    · rcases h.kinds r hr with ⟨j, hj, hsm⟩ | hlg
      · exact Or.inl ⟨j, hj, (hsmall (hfresh hr)).mpr hsm⟩
      · exact Or.inr (hlarge.mpr hlg)
  case cnt =>
    intro a' j hsm
    by_cases haa : a' = a
    · subst haa
      obtain rfl := hsm.desc_unique hnew
      have hall : freeBlocks (blocksOf a' j) a' j = Finset.range (perArena j) :=
        Finset.filter_true_of_mem fun k hk => hmem (Finset.mem_range.mp hk)
      rw [hself, hall, Finset.card_range]
      exact hcnt
    · have hsm' := (hsmall haa).mp hsm
      show m (a' + 4) = _
      rw [hhdr _ hsm'.held (a' + 4) (by simp only; omega) (by simp only; omega), h.cnt a' j hsm']
      by_cases hji : j = i
      · subst hji
        rw [hself, hempty]
        refine congrArg Finset.card (Finset.filter_congr fun k hk => ?_)
        have := hout ⟨hsm', k, Finset.mem_range.mp hk, rfl⟩
        simp [this]
      · rw [hfree hji]
  case live =>
    intro x hx
    obtain ⟨hpos, ⟨a', j, hb, hle, hnot⟩ | ⟨a', d, hlg, hrest⟩⟩ := h.live x hx
    · refine ⟨hpos, Or.inl ⟨a', j, (hblock (hfresh hb.1.held)).mpr hb, hle, ?_⟩⟩
      by_cases hji : j = i
      · subst hji
        rw [hself]
        exact hout hb
      · rwa [hfree hji]
    · exact ⟨hpos, Or.inr ⟨a', d, hlarge.mpr hlg, hrest⟩⟩
  case liveNodup => exact h.liveNodup
  case ownedSmall =>
    intro b a' j hb hnot
    by_cases haa : a' = a
    · subst haa
      obtain ⟨hsm, k, hk, rfl⟩ := hb
      obtain rfl := hsm.desc_unique hnew
      exact absurd (by rw [hself]; exact hmem hk) hnot
    · have hb' := (hblock haa).mp hb
      refine h.ownedSmall b a' j hb' fun hin => hnot ?_
      by_cases hji : j = i
      · subst hji
        rw [hempty] at hin
        simp at hin
      · rwa [hfree hji]
  case ownedLarge => exact fun a' d hlg => h.ownedLarge a' d (hlarge.mp hlg)
  case busy =>
    intro a' j hsm hid
    have haa : a' ≠ a := fun heq => hid (heq ▸ rfl)
    have hsm' := (hsmall haa).mp hsm
    obtain ⟨k, hk, hnot⟩ := h.busy a' j hsm' (by simp)
    refine ⟨k, hk, ?_⟩
    by_cases hji : j = i
    · subst hji
      rw [hself]
      exact hout ⟨hsm', k, hk, rfl⟩
    · rwa [hfree hji]

/-- A new range that is one large block, handed out at once. -/
theorem openLarge (h : ArenaInv descs σ free none) (hf : FreshRange descs σ.heap a c)
    (hm : ∀ w, (w < a ∨ a + 4096 * c ≤ w) → m w = σ.heap.mem w)
    (hdesc : m a = 0) (hcnt : m (a + 4) = c) (hbig : m (a + 8) = 1)
    (hn : 0 < n ∧ n + 12 ≤ 4096 * c) :
    ArenaInv descs
      { heap := { mem := m, held := (a, c) :: σ.heap.held }, live := (a + 12, n) :: σ.live }
      free none := by
  have hhdr := h.header_of_fresh hf (i := 0) (by omega) fun w hw _ => hm w hw
  set s' : KHeap := { mem := m, held := (a, c) :: σ.heap.held } with hs'
  have hnew : LargeArena s' a c := ⟨List.mem_cons_self, hdesc, hcnt, hbig⟩
  have hfresh {r : Nat × Nat} (hr : r ∈ σ.heap.held) : r.1 ≠ a := by
    have h1 := hf.disjoint r hr
    have h2 := (h.pages.aligned r hr).2.2.1
    have h3 := hf.aligned.2.2.1
    omega
  have hsmall {a' j : Nat} : SmallArena descs s' a' j ↔ SmallArena descs σ.heap a' j := by
    by_cases haa : a' = a
    · subst haa
      refine ⟨fun hsm => ?_, fun hsm => absurd rfl (hfresh hsm.held)⟩
      have hv : m (a' + 8) = 0 := hsm.large
      omega
    · exact smallArena_cons rfl hhdr haa
  have hlarge {a' d : Nat} (haa : a' ≠ a) : LargeArena s' a' d ↔ LargeArena σ.heap a' d :=
    largeArena_cons rfl hhdr haa
  have hblock {b a' j : Nat} : IsBlock descs s' b a' j ↔ IsBlock descs σ.heap b a' j :=
    and_congr_left fun _ => hsmall
  -- no block handed out lies in the new range
  have hout : a + 12 ∉ σ.live.map Prod.fst := by
    intro hin
    obtain ⟨x, hx, hxa⟩ := List.mem_map.mp hin
    have h0 := hf.aligned.2.2.1
    rcases (h.live x hx).2 with ⟨a', j, hb, -, -⟩ | ⟨a', d, hlg, heq, hlen⟩
    · have h1 := hb.bounds
      have h2 := hf.disjoint _ hb.1.held
      have h3 := blockSize_ge j
      simp only at h2
      omega
    · exact hfresh hlg.held (by simp only; omega)
  constructor
  case descsPos => exact h.descsPos
  case pages => exact hf.pagesOk h.pages
  case desc =>
    intro j hj
    obtain ⟨e1, e2⟩ := h.desc j hj
    have hd := hf.descs
    constructor
    · refine (hm _ ?_).trans e1
      simp only [descAt]
      omega
    · refine (hm _ ?_).trans e2
      simp only [descAt]
      omega
  case lists =>
    intro j hj
    have hd := hf.descs
    refine (h.lists j hj).congr fun x hx => ?_
    rcases List.mem_append.mp hx with hx | hx
    · rcases List.mem_cons.mp hx with rfl | hx
      · constructor <;> refine hm _ ?_ <;> simp only [descAt] at * <;> omega
      · obtain ⟨ax, hbx⟩ := h.freeBlock j hj x hx
        have h1 := hbx.bounds
        have h2 := blockSize_ge j
        have h3 := hf.disjoint _ hbx.1.held
        constructor <;> refine hm _ ?_ <;> omega
    · rw [List.mem_singleton] at hx
      subst hx
      constructor <;> refine hm _ ?_ <;> simp only [descAt] at * <;> omega
  case nodup => exact h.nodup
  case freeBlock =>
    intro j hj b hb
    obtain ⟨a', hb'⟩ := h.freeBlock j hj b hb
    exact ⟨a', hblock.mpr hb'⟩
  case kinds =>
    intro r hr
    rcases List.mem_cons.mp hr with rfl | hr
    · exact Or.inr hnew
    · rcases h.kinds r hr with ⟨j, hj, hsm⟩ | hlg
      · exact Or.inl ⟨j, hj, hsmall.mpr hsm⟩
      · exact Or.inr ((hlarge (hfresh hr)).mpr hlg)
  case cnt =>
    intro a' j hsm
    have hsm' := hsmall.mp hsm
    show m (a' + 4) = _
    rw [hhdr _ hsm'.held (a' + 4) (by simp only; omega) (by simp only; omega), h.cnt a' j hsm']
  case live =>
    intro x hx
    rcases List.mem_cons.mp hx with rfl | hx
    · exact ⟨hn.1, Or.inr ⟨a, c, hnew, rfl, hn.2⟩⟩
    · obtain ⟨hpos, ⟨a', j, hb, hrest⟩ | ⟨a', d, hlg, hrest⟩⟩ := h.live x hx
      · exact ⟨hpos, Or.inl ⟨a', j, hblock.mpr hb, hrest⟩⟩
      · exact ⟨hpos, Or.inr ⟨a', d, (hlarge (hfresh hlg.held)).mpr hlg, hrest⟩⟩
  case liveNodup =>
    rw [List.map_cons, List.nodup_cons]
    exact ⟨hout, h.liveNodup⟩
  case ownedSmall =>
    exact fun b a' j hb hnot =>
      List.mem_cons_of_mem _ (h.ownedSmall b a' j (hblock.mp hb) hnot)
  case ownedLarge =>
    intro a' d hlg
    by_cases haa : a' = a
    · rw [haa]
      exact List.mem_cons_self
    · exact List.mem_cons_of_mem _ (h.ownedLarge a' d ((hlarge haa).mp hlg))
  case busy => exact fun a' j hsm hid => h.busy a' j (hsmall.mp hsm) hid

end ArenaInv

end Ranges

end ZxyOs
