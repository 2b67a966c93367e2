/-
  ZxyOs.Kernel.ArenaCalls

  `sys_malloc` and `sys_free` run on a heap that satisfies the invariant: each call is
  shown to return, which includes that its assertions hold, and to keep the
  invariant.

  What a call does when no assertion fails is written out as a function of the memory
  it finds (`mallocOutcome`, `freeOutcome`).  The calls never look at the list of
  ranges in use, so they are run with any list `H` of ranges that has those of the
  invariant.
-/

import ZxyOs.Kernel.ArenaLoops

namespace ZxyOs

open Lib Lib.Exec

/-! ## What the calls do -/

/-- `refill`: the memory it leaves and the range it takes. -/
def refillOutcome (m : Mem) (desc : Nat) (page : Option Nat) :
    Option (Mem × List (Nat × Nat)) :=
  if m.listEmpty (desc + 8) then
    page.map fun a =>
      ((m.arenaHeader a desc).appendAll (desc + 8)
        ((List.range (m (desc + 4))).map fun k => a + 12 + k * m desc), [(a, 1)])
  else
    some (m, [])

/-- `sys_malloc`: its result, the memory it leaves and the ranges it takes. -/
def mallocOutcome (descs poolSize size : Nat) (page : Option Nat) (m : Mem) :
    Option Nat × Mem × List (Nat × Nat) :=
  if ¬ (0 < size ∧ size < poolSize) then
    (none, m, [])
  else if 1024 < size then
    match page with
    | none => (none, m, [])
    | some a => (some (a + 12), m.largeHeader a (pagesFor size), [(a, pagesFor size)])
  else
    let desc := descAt descs (findDesc m descs size descCnt 0)
    match refillOutcome m desc page with
    | none => (none, m, [])
    | some (m, taken) => (some (m (desc + 12)), m.takeFirst desc, taken)

/-- `sys_free`: the memory it leaves and the range it gives back. -/
def freeOutcome (ptr : Nat) (m : Mem) : Mem × Option (Nat × Nat) :=
  let a := block2arena ptr
  if m (a + 8) = 1 ∧ m a = 0 then
    (m, some (a, m (a + 4)))
  else
    let m := m.putBack ptr
    if m (a + 4) = m (m a + 4) then
      (m.removeAll ((List.range (m (m a + 4))).map (arena2block m a)), some (a, 1))
    else
      (m, none)

/-! ## The pieces of `sys_malloc` -/

section Pieces

variable {descs : Nat} {σ : Kernel} {free : Nat → List Nat} {idle : Option Nat}
  {a b c i n w : Nat} {m : Mem} {rest : List Nat} {s s' : KHeap}

@[simp] theorem returns_memsetZero (u : Unit) : Returns (memsetZero a n) s u s' ↔
    a ≠ 0 ∧ { s with mem := s.mem.clear a n } = s' := by
  simp [memsetZero]

@[simp] theorem returns_store (u : Unit) : Returns (store w n) s u s' ↔
    { s with mem := Function.update s.mem w n } = s' := by
  simp [store]

@[simp] theorem returns_mallocPage_some {r : Option Nat} : Returns (mallocPage (some a) n) s r s' ↔
    r = some a ∧ { s with held := (a, n) :: s.held } = s' := by
  simp [mallocPage, eq_comm, and_comm]

@[simp] theorem returns_mallocPage_none {r : Option Nat} : Returns (mallocPage none n) s r s' ↔
    r = none ∧ s = s' := by
  simp [mallocPage, eq_comm]

/-- What lies outside the ends of the list and outside the blocks lies outside its
    elements. -/
theorem ArenaInv.outside (h : ArenaInv descs σ free idle) (hi : i < 7)
    (hends : w < descAt descs i + 8 ∨ descAt descs i + 24 ≤ w)
    (hblocks : ∀ b a', IsBlock descs σ.heap b a' i → w < b ∨ b + blockSize i ≤ w) :
    Outside w ((descAt descs i + 8) :: free i ++ [descAt descs i + 8 + 8]) := by
  intro x hx
  simp only [List.mem_append, List.mem_cons, List.not_mem_nil, or_false] at hx
  rcases hx with (rfl | hx) | rfl
  · omega
  · obtain ⟨ax, hbx⟩ := h.freeBlock i hi x hx
    have h1 := hblocks x ax hbx
    have h2 := blockSize_ge i
    omega
  · omega

/-- The header of an arena and the sizes of a descriptor lie outside its list. -/
theorem ArenaInv.header_outside (h : ArenaInv descs σ free idle) (hs : SmallArena descs σ.heap a i)
    (hw : a ≤ w ∧ w < a + 12 ∨ descAt descs i ≤ w ∧ w < descAt descs i + 8) :
    Outside w ((descAt descs i + 8) :: free i ++ [descAt descs i + 8 + 8]) := by
  have hlt := hs.lt
  have hd := h.header_desc hs.held
  refine h.outside hlt ?_ fun b a' hb => ?_
  · simp only [descAt] at hw ⊢
    omega
  · have h1 := h.block_header hb hs.held
    have h2 := h.block_desc hb
    simp only [descAt] at hw h1
    omega

theorem blocksFrom_eq_blocksOf : blocksFrom a i 0 (perArena i) = blocksOf a i := blocksFrom_zero

theorem length_blocksOf : (blocksOf a i).length = perArena i := by
  rw [blocksOf, List.length_map, List.length_range]

/-- The blocks of a page and a `struct list` outside the page do not overlap. -/
theorem spaced_blocksOf {p : Nat} (hp : p + 16 ≤ a ∨ a + 4096 ≤ p) :
    Spaced (p :: blocksOf a i ++ [p + 8]) := by
  apply Spaced.ends
  · rw [blocksOf, Spaced, List.pairwise_map]
    refine List.nodup_range.pairwise_of_forall_ne fun j _ k _ hne => ?_
    have hge := blockSize_ge i
    rcases Nat.lt_or_gt_of_ne hne with hlt | hlt
    · have := @blockAt_apart a i _ _ hlt
      omega
    · have := @blockAt_apart a i _ _ hlt
      omega
  · intro x hx
    obtain ⟨k, hk, rfl⟩ := List.mem_map.mp hx
    obtain ⟨h1, h2⟩ := @blockAt_bounds a i k (List.mem_range.mp hk)
    have h3 := blockSize_ge i
    omega

/-- A new arena for a descriptor without free blocks. -/
theorem ArenaInv.newArena_returns (h : ArenaInv descs σ free none) (hi : i < 7)
    (hempty : free i = []) (hf : FreshRange descs σ.heap a 1) (hm : m =
      (σ.heap.mem.arenaHeader a (descAt descs i)).appendAll (descAt descs i + 8) (blocksOf a i)) :
    (∀ H, Returns (refill (descAt descs i) (some a)) { mem := σ.heap.mem, held := H } true
        { mem := m, held := (a, 1) :: H }) ∧
      ArenaInv descs { heap := { mem := m, held := (a, 1) :: σ.heap.held }, live := σ.live }
        (Function.update free i (blocksOf a i)) (some a) ∧
      ∀ w, (w < a ∨ a + 4096 ≤ w) → (w < descAt descs i + 8 ∨ descAt descs i + 24 ≤ w) →
        m w = σ.heap.mem w := by
  obtain ⟨hsize, hper⟩ := h.desc i hi
  have hpage := hf.aligned
  have hapart := hf.descs
  have hd : descAt descs i + 24 ≤ a ∨ a + 4096 ≤ descAt descs i := by
    simp only [descAt]
    omega
  set m₁ := σ.heap.mem.arenaHeader a (descAt descs i) with hm₁
  have hout {w : Nat} (hw : w < a ∨ a + 4096 ≤ w) : m₁ w = σ.heap.mem w :=
    arenaHeader_outside hw
  have hcnt₁ : m₁ (a + 4) = perArena i := by
    rw [hm₁, arenaHeader_cnt (by omega), hper]
  have hlist₁ : m₁.IsList (descAt descs i + 8) [] := by
    have hlist := h.lists i hi
    rw [hempty, Mem.isList_nil_iff] at hlist
    rw [Mem.isList_nil_iff, hout (by omega), hout (by omega)]
    exact hlist
  -- cutting the page into blocks
  have hspaced : Spaced ((descAt descs i + 8) :: ([] ++ blocksFrom a i 0 (perArena i)) ++
      [descAt descs i + 8 + 8]) := by
    rw [List.nil_append, blocksFrom_eq_blocksOf]
    exact spaced_blocksOf (by omega)
  have hblock {x : Nat} (hx : x ∈ (descAt descs i + 8) :: ([] ++ blocksFrom a i 0 (perArena i)) ++
      [descAt descs i + 8 + 8]) :
      (descAt descs i + 8 ≤ x ∧ x ≤ descAt descs i + 16) ∨ a + 12 ≤ x ∧ x + 8 ≤ a + 4096 := by
    rw [List.nil_append] at hx
    simp only [List.mem_append, List.mem_cons, List.not_mem_nil, or_false] at hx
    rcases hx with (rfl | hx) | rfl
    · omega
    · obtain ⟨k, -, hk, rfl⟩ := mem_blocksFrom.mp hx
      obtain ⟨h1, h2⟩ := @blockAt_bounds a i k (by omega)
      have h3 := blockSize_ge i
      omega
    · omega
  have hsplit (H : List (Nat × Nat)) := splitArena_returns (n := perArena i) (k := 0)
    (s := { mem := m₁, held := (a, 1) :: H }) (l := []) arenaHeader_desc
    ((hout (by omega)).trans hsize) hlist₁ hspaced
    (by
      rw [List.nil_append, blocksFrom_eq_blocksOf, length_blocksOf]
      have := perArena_le i
      omega)
    (fun x hx => by have := hblock hx; omega) (fun x hx => by have := hblock hx; omega)
  simp only [List.nil_append, blocksFrom_eq_blocksOf, ← hm] at hsplit hblock
  obtain ⟨-, hlist, hkeep⟩ := hsplit []
  have hframe (w : Nat) (h1 : w < a ∨ a + 4096 ≤ w)
      (h2 : w < descAt descs i + 8 ∨ descAt descs i + 24 ≤ w) : m w = σ.heap.mem w := by
    rw [hkeep w fun x hx => by have := hblock hx; omega]
    exact hout h1
  refine ⟨fun H => ?_, h.openSmall hi hempty hf hframe ?_ ?_ ?_ hlist, hframe⟩
  · have hlistEmpty : σ.heap.mem.listEmpty (descAt descs i + 8) = true := by
      rw [(h.lists i hi).listEmpty_iff (h.spaced hi), hempty]
    rw [refill]
    simp only [returns_bind, returns_query]
    refine ⟨{ mem := σ.heap.mem, held := H }, _, ⟨rfl, rfl⟩, ?_⟩
    rw [if_pos hlistEmpty]
    simp only [returns_bind, returns_mallocPage_some]
    refine ⟨some a, _, ⟨rfl, rfl⟩, ?_⟩
    simp only [returns_bind, returns_memsetZero, returns_store, returns_query, returns_pure]
    refine ⟨(), _, ⟨by omega, rfl⟩, (), _, rfl, (), _, rfl, _, _, ⟨rfl, rfl⟩, (),
      { mem := m₁, held := (a, 1) :: H }, ?_, (), _, ?_, trivial, rfl⟩
    · simp only [id, hm₁, Mem.arenaHeader]
    · have hper₁ : Function.update (Function.update (σ.heap.mem.clear a pgSize) a (descAt descs i))
          (a + 8) 0 (descAt descs i + 4) = perArena i := by
        rw [Function.update_of_ne (by omega), Function.update_of_ne (by omega),
          clear_outside (by simp only [pgSize]; omega), hper]
      simp only [id]
      rw [hper₁]
      exact (hsplit H).1
  · rw [hkeep a fun x hx => by have := hblock hx; omega]
    exact arenaHeader_desc
  · rw [hkeep (a + 4) fun x hx => by have := hblock hx; omega]
    exact hcnt₁
  · rw [hkeep (a + 8) fun x hx => by have := hblock hx; omega]
    exact arenaHeader_large

/-- The word at `w` belongs neither to the descriptors nor to a range. -/
def Beyond (descs : Nat) (held : List (Nat × Nat)) (w : Nat) : Prop :=
  (w < descs ∨ descs + 168 ≤ w) ∧ ∀ r ∈ held, w < r.1 ∨ r.1 + 4096 * r.2 ≤ w

theorem Beyond.desc (hw : Beyond descs s.held w) (hi : i < 7) :
    w < descAt descs i + 8 ∨ descAt descs i + 24 ≤ w := by
  have := hw.1
  simp only [descAt]
  omega

/-- After `refill` there is a free block, unless there was no page for it. -/
theorem ArenaInv.refill_returns (h : ArenaInv descs σ free none) (hi : i < 7) {page : Option Nat}
    (hpage : ∀ a, page = some a → FreshRange descs σ.heap a 1) :
    (page = none ∧ refillOutcome σ.heap.mem (descAt descs i) page = none ∧
        ∀ H, Returns (refill (descAt descs i) page) { mem := σ.heap.mem, held := H } false
          { mem := σ.heap.mem, held := H }) ∨
      ∃ m taken free' idle a b rest,
        refillOutcome σ.heap.mem (descAt descs i) page = some (m, taken) ∧
        (∀ H, Returns (refill (descAt descs i) page) { mem := σ.heap.mem, held := H } true
          { mem := m, held := taken ++ H }) ∧
        ArenaInv descs { heap := { mem := m, held := taken ++ σ.heap.held }, live := σ.live }
          free' idle ∧
        free' i = b :: rest ∧ IsBlock descs { mem := m, held := taken ++ σ.heap.held } b a i ∧
        (idle = none ∨ idle = some a) ∧
        ∀ w, Beyond descs (taken ++ σ.heap.held) w → m w = σ.heap.mem w := by
  have hlistEmpty := (h.lists i hi).listEmpty_iff (h.spaced hi)
  cases hfree : free i with
  | nil =>
    have hempty : σ.heap.mem.listEmpty (descAt descs i + 8) = true := hlistEmpty.mpr hfree
    cases page with
    | none =>
      refine Or.inl ⟨rfl, ?_, fun H => ?_⟩
      · rw [refillOutcome, if_pos hempty, Option.map_none]
      · rw [refill]
        simp only [returns_bind, returns_query]
        refine ⟨{ mem := σ.heap.mem, held := H }, _, ⟨rfl, rfl⟩, ?_⟩
        rw [if_pos hempty]
        simp
    | some a =>
      obtain ⟨hret, hinv, hframe⟩ := h.newArena_returns hi hfree (hpage a rfl) rfl
      have hself : Function.update free i (blocksOf a i) i = blocksOf a i :=
        Function.update_self _ _ _
      -- an arena has at least one block
      obtain ⟨b, rest, hcons⟩ := List.exists_cons_of_length_pos
        (show 0 < (blocksOf a i).length by rw [length_blocksOf]; exact perArena_pos hi)
      have hb : b ∈ blocksOf a i := hcons ▸ List.mem_cons_self
      obtain ⟨k, hk, rfl⟩ := List.mem_map.mp hb
      obtain ⟨a', hblk⟩ := hinv.freeBlock i hi (blockAt a i k) (by rw [hself]; exact hb)
      have haa : a' = a := by
        rw [← hinv.block2arena_eq hblk]
        exact block2arena_blockAt (hpage a rfl).aligned.1 (List.mem_range.mp hk)
      refine Or.inr ⟨_, [(a, 1)], _, _, a, _, rest, ?_, hret, hinv, hself.trans hcons, haa ▸ hblk,
        Or.inr rfl, fun w hw => ?_⟩
      · rw [refillOutcome, if_pos hempty, Option.map_some, (h.desc i hi).1, (h.desc i hi).2]
        rfl
      · have hpage' := hw.2 (a, 1) List.mem_cons_self
        exact hframe w (by simpa using hpage')
          (Beyond.desc (s := { mem := σ.heap.mem, held := _ }) hw hi)
  | cons b rest =>
    have hne : ¬ σ.heap.mem.listEmpty (descAt descs i + 8) = true := fun heq => by
      rw [hlistEmpty.mp heq] at hfree
      cases hfree
    obtain ⟨a, hb⟩ := h.freeBlock i hi b (by rw [hfree]; exact List.mem_cons_self)
    refine Or.inr ⟨σ.heap.mem, [], free, none, a, b, rest, ?_, fun H => ?_, h, hfree, hb,
      Or.inl rfl, fun w _ => rfl⟩
    · rw [refillOutcome, if_neg hne]
    · rw [refill]
      simp only [returns_bind, returns_query]
      refine ⟨{ mem := σ.heap.mem, held := H }, _, ⟨rfl, rfl⟩, ?_⟩
      rw [if_neg hne]
      simp

/-- Taking the first free block hands it out filled with zeros. -/
theorem ArenaInv.takeBlock_returns (h : ArenaInv descs σ free idle)
    (hb : IsBlock descs σ.heap b a i) (hfree : free i = b :: rest)
    (hidle : idle = none ∨ idle = some a) (hn : 0 < n ∧ n ≤ blockSize i) :
    (∀ H, Returns (takeBlock (descAt descs i)) { mem := σ.heap.mem, held := H } b
        { mem := σ.heap.mem.takeFirst (descAt descs i), held := H }) ∧
      ArenaInv descs
        { heap := { σ.heap with mem := σ.heap.mem.takeFirst (descAt descs i) },
          live := (b, n) :: σ.live }
        (Function.update free i rest) none ∧
      IsBlock descs { σ.heap with mem := σ.heap.mem.takeFirst (descAt descs i) } b a i ∧
      (∀ w, b ≤ w → w < b + blockSize i → σ.heap.mem.takeFirst (descAt descs i) w = 0) ∧
      TouchesOnly descs σ.heap i a (σ.heap.mem.takeFirst (descAt descs i)) := by
  have hs := hb.1
  have hlt := hs.lt
  have hlist := h.lists i hlt
  have hspaced := h.spaced hlt
  have hbounds := hb.bounds
  have hends := h.block_ends hb hlt
  have harena := h.block2arena_eq hb
  have hdesc := h.block_desc hb
  have hhdr := h.header_desc hs.held
  have hnodup := h.nodup i hlt
  rw [hfree] at hlist hspaced hnodup
  have hrest : Spaced ((descAt descs i + 8) :: ([] ++ rest) ++ [descAt descs i + 8 + 8]) := by
    refine hspaced.sublist ?_
    apply List.Sublist.append_right
    exact List.Sublist.cons_cons _ (List.sublist_cons_self _ _)
  have hkeep {w : Nat} (hw : Outside w ((descAt descs i + 8) :: free i ++
      [descAt descs i + 8 + 8])) : σ.heap.mem.listRemove b w = σ.heap.mem w := by
    rw [hfree] at hw
    exact @Mem.IsList.remove_outside _ _ _ _ [] _ hlist hspaced hw
  set m₁ := σ.heap.mem.listRemove b with hm₁
  have hsize : m₁ (descAt descs i) = blockSize i := by
    rw [hkeep (h.header_outside hs (by omega))]
    exact (h.desc i hlt).1
  set m₂ := m₁.clear b (blockSize i) with hm₂
  -- the count of the arena is positive, for one of its blocks is free
  have hcnt : m₂ (a + 4) = σ.heap.mem (a + 4) := by
    rw [hm₂, clear_outside (by omega), hkeep (h.header_outside hs (by omega))]
  have hpos : σ.heap.mem (a + 4) = (freeBlocks rest a i).card + 1 := by
    obtain ⟨-, k, hk, rfl⟩ := hb
    rw [h.cnt a i hs, hfree, freeBlocks_cons hk (List.nodup_cons.mp hnodup).1]
  have hle : (freeBlocks rest a i).card ≤ 255 := by
    have h1 := Finset.card_filter_le (Finset.range (perArena i)) fun k => blockAt a i k ∈ rest
    rw [Finset.card_range] at h1
    exact h1.trans (perArena_le i)
  have hdec : (m₂ (a + 4) + (2 ^ 32 - 1)) % 2 ^ 32 = (freeBlocks rest a i).card := by
    rw [hcnt, hpos]
    omega
  set m₃ : Mem := Function.update m₂ (a + 4) ((m₂ (a + 4) + (2 ^ 32 - 1)) % 2 ^ 32) with hm₃
  have hzero (w : Nat) (h1 : b ≤ w) (h2 : w < b + blockSize i) : m₃ w = 0 := by
    rw [hm₃, Function.update_of_ne (by omega), hm₂, clear_inside ⟨h1, h2⟩]
  have htouch : TouchesOnly descs σ.heap i a m₃ := by
    intro w h1 h2 h3
    rw [hm₃, Function.update_of_ne h3, hm₂, clear_outside (h2 b a hb), hkeep (h.outside hlt h1 h2)]
  have hlist₃ : m₃.IsList (descAt descs i + 8) rest := by
    refine (@Mem.IsList.remove _ _ _ [] _ hlist hspaced).congr fun x hx => ?_
    -- an element of the rest is neither in the block nor in the header
    have hx' : (x = descAt descs i + 8 ∨ x = descAt descs i + 8 + 8) ∨ x ∈ rest := by
      rw [List.nil_append] at hx
      simp only [List.mem_append, List.mem_cons, List.not_mem_nil, or_false] at hx
      rcases hx with (hx | hx) | hx
      · exact Or.inl (Or.inl hx)
      · exact Or.inr hx
      · exact Or.inl (Or.inr hx)
    have hapart : x + 8 ≤ b ∨ b + blockSize i ≤ x := by
      rcases hx' with hx' | hx'
      · omega
      · obtain ⟨ax, hbx⟩ := h.freeBlock i hlt x (by rw [hfree]; exact List.mem_cons_of_mem _ hx')
        have hne : x ≠ b := fun heq => (List.nodup_cons.mp hnodup).1 (heq ▸ hx')
        have h1 := h.block_apart hbx hb hne
        have h2 := blockSize_ge i
        omega
    have hhead : x + 8 ≤ a ∨ a + 12 ≤ x := by
      rcases hx' with hx' | hx'
      · simp only [descAt] at hx'
        omega
      · obtain ⟨ax, hbx⟩ := h.freeBlock i hlt x (by rw [hfree]; exact List.mem_cons_of_mem _ hx')
        have h1 := h.block_header hbx hs.held
        have h2 := blockSize_ge i
        simp only at h1
        omega
    have hw (w : Nat) (hw : x ≤ w ∧ w < x + 8) : m₃ w = m₁ w := by
      rw [hm₃, Function.update_of_ne (by omega), hm₂, clear_outside (by omega)]
    exact ⟨hw x (by omega), hw (x + 4) (by omega)⟩
  have hblock : IsBlock descs { σ.heap with mem := m₃ } b a i := by
    have hhdr (r : Nat × Nat) (hr : r ∈ σ.heap.held) := h.touches_header htouch hs hr
    exact (@isBlock_congr descs σ.heap { σ.heap with mem := m₃ } b a i rfl
      fun r hr => ⟨(hhdr r hr).1, (hhdr r hr).2.1⟩).mpr hb
  have hhead : σ.heap.mem (descAt descs i + 12) = b := hlist.head
  have hmem : σ.heap.mem.takeFirst (descAt descs i) = m₃ := by
    simp only [Mem.takeFirst, hhead, harena]
    rw [← hm₁, hsize]
  rw [hmem]
  refine ⟨fun H => ?_, h.pop hb hfree hidle htouch hlist₃ ?_ hn, hblock, hzero, htouch⟩
  · rw [takeBlock]
    simp only [returns_bind, returns_query, returns_update, returns_memsetZero, returns_store,
      returns_pure]
    refine ⟨{ mem := σ.heap.mem, held := H }, _, ⟨rfl, rfl⟩, ?_⟩
    rw [hhead]
    refine ⟨(), { mem := m₁, held := H }, rfl, _, _, ⟨rfl, rfl⟩, (),
      { mem := m₂, held := H }, ⟨by omega, ?_⟩, _, _, ⟨rfl, rfl⟩, (), _, rfl, rfl, ?_⟩
    · simp only [id]
      rw [hsize]
    · simp only [id, harena, hm₃]
  · rw [hm₃, Function.update_self, hdec, hpos]

end Pieces

/-! ## The two calls -/

section Calls

variable {descs poolSize : Nat} {σ : Kernel} {free : Nat → List Nat} {a c i size : Nat}
  {x : Nat × Nat} {s : KHeap}

/-- The bytes behind `p` that belong to its block, as `sys_free` reads them off the
    header of the arena. -/
def KHeap.room (s : KHeap) (p : Nat) : Nat :=
  let a := block2arena p
  if s.mem (a + 8) = 1 then 4096 * s.mem (a + 4) - 12 else s.mem (s.mem a)

theorem ArenaInv.room_small {idle : Option Nat} {b : Nat} (h : ArenaInv descs σ free idle)
    (hb : IsBlock descs σ.heap b a i) : σ.heap.room b = blockSize i := by
  have hs := hb.1
  have hlarge : ¬ σ.heap.mem (a + 8) = 1 := by
    rw [hs.large]
    omega
  rw [KHeap.room, h.block2arena_eq hb]
  simp only [if_neg hlarge, hs.desc]
  exact (h.desc i hs.lt).1

theorem block2arena_large (h : PagesOk descs s.held) (hl : LargeArena s a c) :
    block2arena (a + 12) = a := by
  have := (h.aligned _ hl.held).1
  simp only [block2arena]
  omega

theorem room_large (h : PagesOk descs s.held) (hl : LargeArena s a c) :
    s.room (a + 12) = 4096 * c - 12 := by
  rw [KHeap.room, block2arena_large h hl]
  simp only [if_pos hl.large, hl.cnt]

theorem pagesFor_pos (size : Nat) : 0 < pagesFor size := by
  simp only [pagesFor, pgSize]
  split_ifs <;> omega

theorem PageOk.fresh {page : Option Nat} (h : PageOk descs s size page) (ha : page = some a) :
    FreshRange descs s a (pagesFor size) := by
  obtain ⟨h1, h2, h3, h4, h5⟩ := h a ha
  exact ⟨⟨h1, h2, pagesFor_pos size, h3⟩, h4, h5⟩

/-- What lies beyond the descriptors and the ranges in use is left alone. -/
theorem TouchesOnly.beyond {m : Mem} {w : Nat} (ht : TouchesOnly descs σ.heap i a m)
    (hs : SmallArena descs σ.heap a i) (hw : Beyond descs σ.heap.held w) : m w = σ.heap.mem w := by
  refine ht w (hw.desc hs.lt) (fun b a' hb => ?_) ?_
  · have h1 := hw.2 _ hb.1.held
    have h2 := hb.bounds
    simp only at h1
    omega
  · have h1 := hw.2 _ hs.held
    simp only at h1
    omega

/-- What is shown of `sys_malloc` with the outcome `p`, `m`, `taken`. -/
structure MallocSpec (descs poolSize size : Nat) (page : Option Nat) (σ : Kernel)
    (p : Option Nat) (m : Mem) (taken : List (Nat × Nat)) : Prop where
  returns : ∀ H, Returns (kernelMalloc descs poolSize size page)
    { mem := σ.heap.mem, held := H } p { mem := m, held := taken ++ H }
  inv : ∃ free, ArenaInv descs
    { heap := { mem := m, held := taken ++ σ.heap.held },
      live := (p.map fun b => (b, size)).toList ++ σ.live } free none
  zero : ∀ b, p = some b → ∀ w, b ≤ w →
    w < b + KHeap.room { mem := m, held := taken ++ σ.heap.held } b → m w = 0
  null : p = none → size = 0 ∨ poolSize ≤ size ∨ page = none
  frame : ∀ w, Beyond descs (taken ++ σ.heap.held) w → m w = σ.heap.mem w

/-- The search for a descriptor ends at one with large enough blocks. -/
theorem ArenaInv.findDesc_fits {idle : Option Nat} (h : ArenaInv descs σ free idle)
    (hsmall : ¬ 1024 < size) : findDesc σ.heap.mem descs size descCnt 0 < 7 ∧
      size ≤ σ.heap.mem (descAt descs (findDesc σ.heap.mem descs size descCnt 0)) := by
  have hlast : size ≤ σ.heap.mem (descAt descs 6) := by
    rw [(h.desc 6 (by omega)).1]
    have : blockSize 6 = 1024 := rfl
    omega
  obtain ⟨-, hlt, hfits⟩ := @findDesc_spec descs descCnt σ.heap.mem size 0
    ⟨6, by omega, by simp, hlast⟩
  exact ⟨by simpa using hlt, hfits⟩

/-- `sys_malloc` returns.  It hands out a block filled with zeros, or nothing at all
    where the size is out of range or there is no page. -/
theorem ArenaInv.kernelMalloc_returns (h : ArenaInv descs σ free none) {page : Option Nat}
    (hpage : PageOk descs σ.heap size page) {p : Option Nat} {m : Mem}
    {taken : List (Nat × Nat)}
    (ho : mallocOutcome descs poolSize size page σ.heap.mem = (p, m, taken)) :
    MallocSpec descs poolSize size page σ p m taken := by
  -- a call that hands out nothing changes nothing
  have hnothing (hcase : size = 0 ∨ poolSize ≤ size ∨ page = none)
      (ho' : mallocOutcome descs poolSize size page σ.heap.mem = (none, σ.heap.mem, []))
      (hret : ∀ H, Returns (kernelMalloc descs poolSize size page)
        { mem := σ.heap.mem, held := H } none { mem := σ.heap.mem, held := H }) :
      MallocSpec descs poolSize size page σ p m taken := by
    obtain ⟨rfl, rfl, rfl⟩ : none = p ∧ σ.heap.mem = m ∧ [] = taken := by
      rw [ho'] at ho
      simpa using ho
    exact ⟨hret, ⟨free, h⟩, fun b hb => (by cases hb), fun _ => hcase, fun w _ => rfl⟩
  by_cases hsize : 0 < size ∧ size < poolSize
  swap
  · refine hnothing (by omega) ?_ fun H => ?_
    · unfold mallocOutcome
      rw [if_pos hsize]
    · rw [kernelMalloc, if_pos hsize]
      exact returns_pure.mpr ⟨rfl, rfl⟩
  have hin : ¬ ¬ (0 < size ∧ size < poolSize) := not_not.mpr hsize
  by_cases hbig : 1024 < size
  · -- pages of its own
    have hc : pagesFor size = (size + 12 + pgSize - 1) / pgSize := if_pos hbig
    cases page with
    | none =>
      refine hnothing (Or.inr (Or.inr rfl)) ?_ fun H => ?_
      · rw [mallocOutcome, if_neg hin, if_pos hbig]
      · rw [kernelMalloc, if_neg hin, if_pos hbig]
        simp only [returns_bind, returns_mallocPage_none]
        exact ⟨none, _, ⟨rfl, rfl⟩, returns_pure.mpr ⟨rfl, rfl⟩⟩
    | some a =>
      have hf := hpage.fresh rfl
      have hpos := hf.aligned.2.1
      set c := pagesFor size with hcdef
      have hcpos : 0 < c := pagesFor_pos size
      have hfits : size + 12 ≤ 4096 * c := by
        simp only [pgSize] at hc
        omega
      obtain ⟨rfl, rfl, rfl⟩ : some (a + 12) = p ∧ σ.heap.mem.largeHeader a c = m ∧
          [(a, c)] = taken := by
        rw [mallocOutcome, if_neg hin, if_pos hbig, ← hcdef] at ho
        simpa using ho
      have hout (w : Nat) (hw : w < a ∨ a + 4096 * c ≤ w) :
          σ.heap.mem.largeHeader a c w = σ.heap.mem w := largeHeader_outside hcpos hw
      have hinv := h.openLarge hf hout largeHeader_desc largeHeader_cnt largeHeader_large
        ⟨hsize.1, hfits⟩
      refine ⟨fun H => ?_, ⟨free, hinv⟩, ?_, fun hr => (by cases hr), fun w hw => ?_⟩
      · rw [kernelMalloc, if_neg hin, if_pos hbig, ← hc]
        simp only [returns_bind, returns_mallocPage_some]
        refine ⟨some a, _, ⟨rfl, rfl⟩, ?_⟩
        simp only [returns_bind, returns_memsetZero, returns_store, returns_pure]
        exact ⟨(), _, ⟨by omega, rfl⟩, (), _, rfl, (), _, rfl, (), _, rfl, trivial, rfl⟩
      · intro b hb w hw1 hw2
        obtain rfl : a + 12 = b := Option.some.inj hb
        have hl : LargeArena { mem := σ.heap.mem.largeHeader a c, held := (a, c) :: σ.heap.held }
            a c := ⟨List.mem_cons_self, largeHeader_desc, largeHeader_cnt, largeHeader_large⟩
        have hroom := room_large hinv.pages hl
        simp only [List.singleton_append] at hw2
        rw [hroom] at hw2
        exact largeHeader_inside ⟨hw1, by omega⟩
      · have := hw.2 (a, c) (List.mem_append_left _ (List.mem_singleton_self _))
        exact hout w this
  · -- a block of the smallest size that is large enough
    set i := findDesc σ.heap.mem descs size descCnt 0 with hi
    obtain ⟨hlt', hfits⟩ := h.findDesc_fits hbig
    rw [← hi] at hlt' hfits
    rw [(h.desc i hlt').1] at hfits
    have hfresh (a : Nat) (ha : page = some a) : FreshRange descs σ.heap a 1 := by
      have hf := hpage.fresh ha
      rwa [pagesFor, if_neg hbig] at hf
    rcases h.refill_returns hlt' hfresh with ⟨hnone, hout, hret⟩ |
      ⟨m₁, taken₁, free', idle, a, b, rest, hout, hret, hinv, hfree, hb, hidle, hframe⟩
    · refine hnothing (Or.inr (Or.inr hnone)) ?_ fun H => ?_
      · unfold mallocOutcome
        rw [if_neg hin, if_neg hbig]
        simp only [← hi, hout]
      · rw [kernelMalloc, if_neg hin, if_neg hbig]
        simp only [returns_bind, returns_query]
        refine ⟨{ mem := σ.heap.mem, held := H }, _, ⟨rfl, rfl⟩, false, _, hret H, ?_⟩
        exact returns_pure.mpr ⟨rfl, rfl⟩
    · obtain ⟨htake, hinv', hblock, hzero, htouch⟩ :=
        hinv.takeBlock_returns hb hfree hidle ⟨hsize.1, hfits⟩
      have hlist := hinv.lists i hlt'
      rw [hfree] at hlist
      have hhead : m₁ (descAt descs i + 12) = b := hlist.head
      obtain ⟨rfl, rfl, rfl⟩ : some b = p ∧ m₁.takeFirst (descAt descs i) = m ∧
          taken₁ = taken := by
        unfold mallocOutcome at ho
        rw [if_neg hin, if_neg hbig] at ho
        simp only [← hi, hout, hhead] at ho
        simpa using ho
      refine ⟨fun H => ?_, ⟨_, hinv'⟩, ?_, fun hr => (by cases hr), fun w hw => ?_⟩
      · rw [kernelMalloc, if_neg hin, if_neg hbig]
        simp only [returns_bind, returns_query]
        refine ⟨{ mem := σ.heap.mem, held := H }, _, ⟨rfl, rfl⟩, true, _, hret H, ?_⟩
        rw [if_pos rfl]
        simp only [returns_bind]
        exact ⟨b, _, htake _, returns_pure.mpr ⟨rfl, rfl⟩⟩
      · intro b' hb' w hw1 hw2
        obtain rfl : b = b' := Option.some.inj hb'
        have hroom := hinv'.room_small hblock
        rw [hroom] at hw2
        exact hzero w hw1 hw2
      · exact (htouch.beyond hb.1 hw).trans (hframe w hw)

/-- Once every arena has a block handed out none is left idle. -/
theorem ArenaInv.settle (h : ArenaInv descs σ free (some a))
    (hs : ∀ i, SmallArena descs σ.heap a i → ∃ k < perArena i, blockAt a i k ∉ free i) :
    ArenaInv descs σ free none :=
  { h with
    busy := fun a' j hsm _ => by
      by_cases haa : a' = a
      · subst haa
        exact hs j hsm
      · exact h.busy a' j hsm fun heq => haa (Option.some.inj heq).symm }

/-- The last block of an arena takes the arena with it. -/
theorem ArenaInv.dismantle_returns (h : ArenaInv descs σ free (some a))
    (hs : SmallArena descs σ.heap a i) (hall : ∀ k < perArena i, blockAt a i k ∈ free i)
    {m : Mem} (hm : m = σ.heap.mem.removeAll (blocksFrom a i 0 (perArena i))) :
    (∀ H, Returns (dismantle a (perArena i) 0) { mem := σ.heap.mem, held := H } ()
        { mem := m, held := H }) ∧
      (∃ free', ArenaInv descs
        { heap := { mem := m, held := σ.heap.held.erase (a, 1) }, live := σ.live } free' none) ∧
      ∀ w, Beyond descs σ.heap.held w → m w = σ.heap.mem w := by
  have hlt := hs.lt
  have hnodup := h.nodup i hlt
  have hloop (H : List (Nat × Nat)) := ZxyOs.dismantle_returns (n := perArena i) (k := 0)
    (s := { mem := σ.heap.mem, held := H }) hs.desc (h.desc i hlt).1 (h.lists i hlt)
    (h.spaced hlt) (h.length_free_lt hlt) (fun j _ hj => hall j (by omega))
    (h.header_outside hs (by omega)) (h.header_outside hs (by omega))
  simp only [← hm] at hloop
  obtain ⟨l, -, hlist, hsub, hmem, hout⟩ := hloop []
  have htouch : TouchesOnly descs σ.heap i a m := fun w h1 h2 _ => hout w (h.outside hlt h1 h2)
  refine ⟨fun H => ?_, ⟨_, h.closeSmall hs hall htouch hlist (hnodup.sublist hsub) fun b => ?_⟩,
    fun w hw => htouch.beyond hs hw⟩
  · obtain ⟨-, hret, -⟩ := hloop H
    exact hret
  · rw [hmem]
    constructor
    · rintro ⟨hb, hne⟩
      exact ⟨hb, fun k hk => hne k (Nat.zero_le k) (by omega)⟩
    · rintro ⟨hb, hne⟩
      exact ⟨hb, fun k _ hk => hne k (by omega)⟩

/-- A small block comes back. -/
theorem ArenaInv.putBack (h : ArenaInv descs σ free none) (hx : x ∈ σ.live)
    (hb : IsBlock descs σ.heap x.1 a i) :
    TouchesOnly descs σ.heap i a (σ.heap.mem.putBack x.1) ∧
      ArenaInv descs
        { heap := { σ.heap with mem := σ.heap.mem.putBack x.1 }, live := σ.live.erase x }
        (Function.update free i (free i ++ [x.1])) (some a) := by
  have hs := hb.1
  have hlt := hs.lt
  have hnot := h.live_not_free (List.mem_map_of_mem hx) hlt
  have hlist := h.lists i hlt
  have hspaced := h.spaced_cons hlt hb hnot
  have hbounds := hb.bounds
  have hsz := blockSize_ge i
  have hkeep {w : Nat} (hw : Outside w ((descAt descs i + 8) :: free i ++ [descAt descs i + 8 + 8]))
      (hwx : w < x.1 ∨ x.1 + 8 ≤ w) :
      σ.heap.mem.listAppend (descAt descs i + 8) x.1 w = σ.heap.mem w := by
    refine hlist.append_outside fun y hy => ?_
    rcases List.mem_cons.mp hy with rfl | hy
    · exact hwx
    · exact hw y hy
  set m₁ := σ.heap.mem.listAppend (descAt descs i + 8) x.1 with hm₁
  have hcard : (freeBlocks (free i) a i).card ≤ 255 := by
    have h1 := Finset.card_filter_le (Finset.range (perArena i)) fun k => blockAt a i k ∈ free i
    rw [Finset.card_range] at h1
    exact h1.trans (perArena_le i)
  have hcnt : (m₁ (a + 4) + 1) % 2 ^ 32 = σ.heap.mem (a + 4) + 1 := by
    rw [hkeep (h.header_outside hs (by omega)) (by omega), h.cnt a i hs]
    omega
  set m : Mem := Function.update m₁ (a + 4) ((m₁ (a + 4) + 1) % 2 ^ 32) with hm
  have htouch : TouchesOnly descs σ.heap i a m := by
    intro w h1 h2 h3
    have h4 := h2 x.1 a hb
    rw [hm, Function.update_of_ne h3, hkeep (h.outside hlt h1 h2) (by omega)]
  have hlist' : m.IsList (descAt descs i + 8) (free i ++ [x.1]) := by
    refine (hlist.append hspaced).congr fun y hy => ?_
    -- an element of the list is not in the header of the arena
    have hhead : y + 8 ≤ a ∨ a + 12 ≤ y := by
      have hd := h.header_desc hs.held
      have hfree {z : Nat} {az : Nat} (hz : IsBlock descs σ.heap z az i) : z + 8 ≤ a ∨ a + 12 ≤ z := by
        have h1 := h.block_header hz hs.held
        simp only at h1
        omega
      simp only [List.mem_append, List.mem_cons, List.not_mem_nil, or_false] at hy
      rcases hy with (rfl | hy | rfl) | rfl
      · simp only [descAt]
        omega
      · obtain ⟨ay, hby⟩ := h.freeBlock i hlt y hy
        exact hfree hby
      · exact hfree hb
      · simp only [descAt]
        omega
    exact ⟨Function.update_of_ne (by omega) _ _, Function.update_of_ne (by omega) _ _⟩
  have hmem : σ.heap.mem.putBack x.1 = m := by
    simp only [Mem.putBack, h.block2arena_eq hb, hs.desc, hm, hm₁]
  rw [hmem]
  refine ⟨htouch, h.push hx hb htouch hlist' ?_⟩
  rw [hm, Function.update_self, hcnt]

/-- The pages `sys_free x` gives back. -/
def Kernel.heldAfterFree (σ : Kernel) (x : Nat × Nat) : List (Nat × Nat) :=
  if ∃ y ∈ σ.live.erase x, block2arena y.1 = block2arena x.1 then σ.heap.held
  else σ.heap.held.filter fun r => r.1 ≠ block2arena x.1

/-- Taking back a range is dropping the one that starts there. -/
theorem PagesOk.erase_eq (h : PagesOk descs s.held) (hr : (a, c) ∈ s.held) :
    s.held.erase (a, c) = s.held.filter fun r => r.1 ≠ a := by
  rw [h.nodup.erase_eq_filter]
  refine List.filter_congr fun r hr' => ?_
  by_cases hra : r.1 = a
  · rw [h.unique hr' hr hra]
    simp
  · have hne : r ≠ (a, c) := fun heq => hra (congrArg Prod.fst heq)
    simp [hne, hra]

theorem card_freeBlocks_eq_iff {l : List Nat} :
    (freeBlocks l a i).card = perArena i ↔ ∀ k < perArena i, blockAt a i k ∈ l := by
  have hcard : (Finset.range (perArena i)).card = perArena i := Finset.card_range _
  rw [freeBlocks]
  constructor
  · intro heq k hk
    have hall := (Finset.card_filter_eq_iff (p := fun k => blockAt a i k ∈ l)).mp
      (heq.trans hcard.symm)
    exact hall k (Finset.mem_range.mpr hk)
  · intro hall
    rw [Finset.filter_true_of_mem fun k hk => hall k (Finset.mem_range.mp hk), hcard]

/-- An arena has a block handed out if and only if one of its blocks is not free. -/
theorem ArenaInv.arena_live_iff {idle : Option Nat} (h : ArenaInv descs σ free idle)
    (hs : SmallArena descs σ.heap a i) :
    (∃ y ∈ σ.live, block2arena y.1 = a) ↔ ∃ k < perArena i, blockAt a i k ∉ free i := by
  constructor
  · rintro ⟨y, hy, harena⟩
    rcases (h.live y hy).2 with ⟨a', j, hb, -, hnot⟩ | ⟨a', c, hl, heq, -⟩
    · obtain rfl : a' = a := (h.block2arena_eq hb).symm.trans harena
      obtain ⟨hs', k, hk, hyk⟩ := hb
      obtain rfl := hs'.desc_unique hs
      exact ⟨k, hk, hyk ▸ hnot⟩
    · rw [heq, block2arena_large h.pages hl] at harena
      have h1 := hl.large
      rw [harena, hs.large] at h1
      omega
  · rintro ⟨k, hk, hnot⟩
    have hb : IsBlock descs σ.heap (blockAt a i k) a i := ⟨hs, k, hk, rfl⟩
    obtain ⟨y, hy, heq⟩ := List.mem_map.mp (h.ownedSmall _ a i hb hnot)
    exact ⟨y, hy, heq ▸ h.block2arena_eq hb⟩

/-- A large range has no block but its own. -/
theorem ArenaInv.arena_large {idle : Option Nat} (h : ArenaInv descs σ free idle)
    (hl : LargeArena σ.heap a c) {y : Nat × Nat} (hy : y ∈ σ.live) (harena : block2arena y.1 = a) :
    y.1 = a + 12 := by
  rcases (h.live y hy).2 with ⟨a', j, hb, -⟩ | ⟨a', c', hl', heq, -⟩
  · obtain rfl : a' = a := (h.block2arena_eq hb).symm.trans harena
    have h1 := hb.1.large
    rw [hl.large] at h1
    omega
  · rw [heq, block2arena_large h.pages hl'] at harena
    rw [heq, harena]

/-- The ranges in use after one of them may have been given back. -/
def giveBack (held : List (Nat × Nat)) : Option (Nat × Nat) → List (Nat × Nat)
  | none => held
  | some r => held.erase r

/-- What is shown of `sys_free` with the outcome `m`, `back`. -/
structure FreeSpec (descs : Nat) (σ : Kernel) (x : Nat × Nat) (m : Mem)
    (back : Option (Nat × Nat)) : Prop where
  returns : ∀ H, (∀ r ∈ σ.heap.held, r ∈ H) →
    Returns (kernelFree x.1) { mem := σ.heap.mem, held := H } () { mem := m, held := giveBack H back }
  inv : ∃ free, ArenaInv descs
    { heap := { mem := m, held := giveBack σ.heap.held back }, live := σ.live.erase x } free none
  held : giveBack σ.heap.held back = σ.heldAfterFree x
  back_mem : ∀ r, back = some r → r ∈ σ.heap.held
  frame : ∀ w, Beyond descs σ.heap.held w → m w = σ.heap.mem w

/-- `sys_free` of a block handed out returns.  The pages of the arena are given back
    if and only if no other block of the arena is handed out. -/
theorem ArenaInv.kernelFree_returns (h : ArenaInv descs σ free none) (hx : x ∈ σ.live) {m : Mem}
    {back : Option (Nat × Nat)} (ho : freeOutcome x.1 σ.heap.mem = (m, back)) :
    FreeSpec descs σ x m back := by
  rcases (h.live x hx).2 with ⟨a, i, hb, -⟩ | ⟨a, c, hl, hxa, -⟩
  · have hs := hb.1
    have harena := h.block2arena_eq hb
    have hbounds := hb.bounds
    obtain ⟨htouch, hinv⟩ := h.putBack hx hb
    set m₁ := σ.heap.mem.putBack x.1 with hm₁
    set free₁ := Function.update free i (free i ++ [x.1]) with hfree₁
    have hs₁ : SmallArena descs { σ.heap with mem := m₁ } a i := by
      have hhdr := h.touches_header htouch hs hs.held
      exact ⟨hs.held, hs.lt, hhdr.1.trans hs.desc, hhdr.2.1.trans hs.large⟩
    have hcnt : m₁ (a + 4) = (freeBlocks (free₁ i) a i).card := hinv.cnt a i hs₁
    have hdesc₁ : m₁ a = descAt descs i := hs₁.desc
    have hsize₁ : m₁ (descAt descs i) = blockSize i := (hinv.desc i hs.lt).1
    have hper : m₁ (m₁ a + 4) = perArena i := by
      rw [hdesc₁]
      exact (hinv.desc i hs.lt).2
    have hsmall : ¬ (σ.heap.mem (a + 8) = 1 ∧ σ.heap.mem a = 0) := by
      rw [hs.large]
      omega
    -- the part up to the comparison of the count
    have hstart {H H' : List (Nat × Nat)} {m' : Mem}
        (hret : Returns (if m₁ (a + 4) = m₁ (m₁ a + 4) then do
            dismantle a (m₁ (m₁ a + 4)) 0
            mfreePage a 1
          else pure ()) { mem := m₁, held := H } () { mem := m', held := H' }) :
        Returns (kernelFree x.1) { mem := σ.heap.mem, held := H } () { mem := m', held := H' } := by
      rw [kernelFree, harena]
      simp only [returns_bind, returns_assert, returns_query]
      refine ⟨(), _, ⟨by omega, rfl⟩, { mem := σ.heap.mem, held := H }, _, ⟨rfl, rfl⟩, (), _,
        ⟨Or.inl hs.large, rfl⟩, ?_⟩
      rw [if_neg hsmall]
      simp only [returns_bind, returns_update, returns_query, returns_store]
      refine ⟨(), _, rfl, _, _, ⟨rfl, rfl⟩, (), { mem := m₁, held := H }, ?_, _, _, ⟨rfl, rfl⟩,
        hret⟩
      simp only [id, hm₁, Mem.putBack, harena]
    have ho' : (if m₁ (a + 4) = m₁ (m₁ a + 4) then
        (m₁.removeAll ((List.range (m₁ (m₁ a + 4))).map (arena2block m₁ a)), some (a, 1))
        else (m₁, none)) = (m, back) := by
      rw [← ho, freeOutcome, harena]
      simp only [if_neg hsmall, ← hm₁]
    have hblocks : (List.range (m₁ (m₁ a + 4))).map (arena2block m₁ a) =
        blocksFrom a i 0 (perArena i) := by
      rw [hper, blocksFrom_zero]
      refine List.map_congr_left fun k _ => ?_
      exact arena2block_eq (s := { mem := m₁, held := [] }) hdesc₁ hsize₁
    by_cases hall : ∀ k < perArena i, blockAt a i k ∈ free₁ i
    · have hfull : m₁ (a + 4) = m₁ (m₁ a + 4) := by
        rw [hcnt, hper, card_freeBlocks_eq_iff.mpr hall]
      rw [if_pos hfull, hblocks] at ho'
      obtain ⟨rfl, rfl⟩ := Prod.mk.inj ho'
      obtain ⟨hdis, ⟨free', hinv'⟩, hframe⟩ := hinv.dismantle_returns hs₁ hall rfl
      refine ⟨fun H hH => hstart ?_, ⟨free', hinv'⟩, ?_, fun r hr => ?_, fun w hw => ?_⟩
      · rw [if_pos hfull, hper]
        simp only [mfreePage, returns_bind, returns_query, returns_require, returns_update]
        exact ⟨(), _, hdis H, _, _, ⟨rfl, rfl⟩, (), _, ⟨hH _ hs.held, rfl⟩, rfl⟩
      · have hnone : ¬ ∃ y ∈ σ.live.erase x, block2arena y.1 = block2arena x.1 := by
          rw [harena]
          intro hex
          obtain ⟨k, hk, hnot⟩ := (hinv.arena_live_iff hs₁).mp hex
          exact hnot (hall k hk)
        rw [Kernel.heldAfterFree, if_neg hnone, harena]
        exact h.pages.erase_eq hs.held
      · obtain rfl := Option.some.inj hr
        exact hs.held
      · exact (hframe w hw).trans (htouch.beyond hs hw)
    · have hbusy : ∃ k < perArena i, blockAt a i k ∉ free₁ i := by
        by_contra hno
        refine hall fun k hk => ?_
        by_contra hnot
        exact hno ⟨k, hk, hnot⟩
      have hnotFull : ¬ m₁ (a + 4) = m₁ (m₁ a + 4) := by
        rw [hcnt, hper, card_freeBlocks_eq_iff]
        exact hall
      rw [if_neg hnotFull] at ho'
      obtain ⟨rfl, rfl⟩ := Prod.mk.inj ho'
      refine ⟨fun H _ => hstart ?_, ⟨free₁, hinv.settle fun j hsj => ?_⟩, ?_,
        fun r hr => (by cases hr), fun w hw => htouch.beyond hs hw⟩
      · rw [if_neg hnotFull]
        exact returns_pure.mpr ⟨rfl, rfl⟩
      · obtain rfl := hsj.desc_unique hs₁
        exact hbusy
      · have hex := (hinv.arena_live_iff hs₁).mpr hbusy
        rw [Kernel.heldAfterFree, harena, if_pos hex]
        rfl
  · have harena : block2arena x.1 = a := by
      rw [hxa]
      exact block2arena_large h.pages hl
    obtain ⟨rfl, rfl⟩ : σ.heap.mem = m ∧ some (a, c) = back := by
      rw [freeOutcome, harena] at ho
      simp only [if_pos (show σ.heap.mem (a + 8) = 1 ∧ σ.heap.mem a = 0 from ⟨hl.large, hl.desc⟩),
        hl.cnt] at ho
      exact Prod.mk.inj ho
    refine ⟨fun H hH => ?_, ⟨free, h.closeLarge hx hl hxa⟩, ?_, fun r hr => ?_, fun w _ => rfl⟩
    · rw [kernelFree, harena]
      simp only [returns_bind, returns_assert, returns_query]
      refine ⟨(), _, ⟨by omega, rfl⟩, { mem := σ.heap.mem, held := H }, _, ⟨rfl, rfl⟩, (), _,
        ⟨Or.inr hl.large, rfl⟩, ?_⟩
      rw [if_pos (show σ.heap.mem (a + 8) = 1 ∧ σ.heap.mem a = 0 from ⟨hl.large, hl.desc⟩), hl.cnt]
      simp only [mfreePage, returns_bind, returns_query, returns_require, returns_update]
      exact ⟨_, _, ⟨rfl, rfl⟩, (), _, ⟨hH _ hl.held, rfl⟩, rfl⟩
    · have hnone : ¬ ∃ y ∈ σ.live.erase x, block2arena y.1 = block2arena x.1 := by
        rintro ⟨y, hy, heq⟩
        obtain ⟨hy', hne⟩ := mem_live_erase h.liveNodup hx hy
        exact hne ((h.arena_large hl hy' (heq.trans harena)).trans hxa.symm)
      rw [Kernel.heldAfterFree, if_neg hnone, harena]
      exact h.pages.erase_eq hl.held
    · obtain rfl := Option.some.inj hr
      exact hl.held

end Calls

end ZxyOs
