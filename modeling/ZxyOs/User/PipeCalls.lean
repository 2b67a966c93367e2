/-
  ZxyOs.User.PipeCalls

  What the calls on descriptors do to the count of a pipe: `sys_close`, the loops of
  `sys_exit` and `sys_fork` by induction on the descriptors left, and `sys_pipe`,
  `sys_fd_redirect` and `sys_lseek` where they keep the count.
-/

import ZxyOs.User.PipeCount

namespace ZxyOs

open Lib Lib.Exec

section Calls

variable {s s' : Fs} {held : Finset (Nat × Fin 8)} {x : Nat × Fin 8} {g a t child : Nat}

/-! ## Inversion -/

/-- `inode_close` changes the inodes and the heap. -/
theorem inodeClose_frame (h : Returns (inodeClose a) s () s') :
    s'.fileTable = s.fileTable ∧ s'.rings = s.rings ∧ s'.tasks = s.tasks ∧ s'.cur = s.cur ∧
      s'.heap.next = s.heap.next := by
  simp only [inodeClose, returns_bind, returns_getInode, returns_putInode] at h
  obtain ⟨v, _, ⟨-, rfl⟩, _, _, rfl, h⟩ := h
  generalize (if v.iOpenCnt = 0 then 2 ^ 32 - 1 else v.iOpenCnt - 1) = cnt at h
  split at h
  · simp only [returns_bind, returns_update] at h
    obtain ⟨_, _, rfl, hfree⟩ := h
    obtain ⟨heq, hnext⟩ := returns_sysFree hfree
    rw [heq]
    exact ⟨rfl, rfl, rfl, rfl, hnext⟩
  · obtain ⟨-, rfl⟩ := returns_pure.mp h
    exact ⟨rfl, rfl, rfl, rfl, rfl⟩

theorem fileClose_frame {r : Int} (h : Returns (fileClose g) s r s') :
    (s.fileTable g).fdInode ≠ none ∧
      s'.fileTable = Function.update s.fileTable g { s.fileTable g with fdInode := none } ∧
      s'.rings = s.rings ∧ s'.tasks = s.tasks ∧ s'.cur = s.cur ∧ s'.heap.next = s.heap.next := by
  simp only [fileClose, putFile, returns_bind, returns_query, returns_deref, returns_getInode,
    returns_putInode, returns_update, returns_pure] at h
  obtain ⟨_, _, ⟨rfl, rfl⟩, a, _, ⟨ha, rfl⟩, v, _, ⟨-, rfl⟩, _, _, rfl, _, s₁, hclose, _, _,
    ⟨rfl, rfl⟩, _, _, rfl, -, rfl⟩ := h
  obtain ⟨hfile, hrings, htasks, hcur, hnext⟩ := inodeClose_frame hclose
  simp only [id_eq] at ha
  refine ⟨by rw [ha]; simp, ?_, hrings, htasks, hcur, hnext⟩
  show Function.update s₁.fileTable g _ = _
  rw [id_eq, hfile]

/-! ## close -/

/-- The pair `x` refers to a pipe, or nothing else that is held refers to its file. -/
def Fs.Alone (s : Fs) (held : Finset (Nat × Fin 8)) (x : Nat × Fin 8) : Prop :=
  ∀ g : Nat, s.fdAt x.1 x.2 = g →
    (s.fileTable g).fdFlag = pipeFlag ∨ ∀ y ∈ s.refs held g, y = x

/-- What a call that closes the pair `x` leaves alone. -/
structure ClosesPair (s s' : Fs) (x : Nat × Fin 8) : Prop where
  drop : PipesDrop s s'
  fdAt : ∀ y ≠ x, s'.fdAt y.1 y.2 = s.fdAt y.1 y.2
  flag : ∀ i, (s'.fileTable i).fdFlag = (s.fileTable i).fdFlag
  cur : s'.cur = s.cur
  tasks : ∀ t, s'.tasks t = none ↔ s.tasks t = none

theorem sysClose_inv {fd : Fin 8} (hfd : 3 ≤ fd) {r : Int} (h : Returns (sysClose fd.val) s r s') :
    ∃ (g : Nat) (s₁ : Fs), s.fdAt s.cur fd = g ∧ Returns (setFd fd.val (-1)) s₁ () s' ∧
      ((s.fileTable g).fdFlag = pipeFlag ∧ PipeClosed s g s₁ ∨
        (s.fileTable g).fdFlag ≠ pipeFlag ∧ ∃ r, Returns (fileClose g) s r s₁) := by
  have hfin (hlt : 0 ≤ (fd.val : Int) ∧ (fd.val : Int) < 8) :
      (⟨(fd.val : Int).toNat, by omega⟩ : Fin 8) = fd := Fin.ext (by simp)
  have hgt : ((fd.val : Int) > 2) := by
    have : 3 ≤ fd.val := hfd
    omega
  simp only [sysClose, if_pos hgt, returns_bind] at h
  obtain ⟨g, _, hg, b, _, hb, h⟩ := h
  obtain ⟨rfl, hlt, hat⟩ := returns_fdLocalToGlobal hg
  obtain ⟨rfl, g', ⟨_, hat'⟩, rfl⟩ := returns_isPipe hb
  rw [hfin hlt] at hat hat'
  obtain rfl : g' = g := by omega
  by_cases hflag : (s.fileTable g').fdFlag = pipeFlag
  · simp only [hflag, decide_true, if_true, putFile, returns_bind, returns_query, returns_update] at h
    obtain ⟨_, _, ⟨rfl, rfl⟩, _, _, rfl, h⟩ := h
    simp only [id_eq] at h
    split at h
    · next hpos =>
      simp only [returns_bind, returns_assert, returns_update, returns_pure] at h
      obtain ⟨_, _, ⟨-, rfl⟩, _, _, rfl, _, _, rfl, _, _, ⟨rfl, rfl⟩, _, _, hset, rfl, rfl⟩ := h
      refine ⟨g', _, hat, hset, Or.inl ⟨hflag, _, rfl, Or.inr ⟨hpos, ?_⟩⟩⟩
      simp only [Fs.setSlot, Fs.freeRing, Function.update_idem, hflag]
    · next hpos =>
      simp only [returns_bind, returns_pure] at h
      obtain ⟨_, _, ⟨rfl, rfl⟩, _, _, hset, rfl, rfl⟩ := h
      refine ⟨g', _, hat, hset, Or.inl ⟨hflag, _, rfl, Or.inl ⟨hpos, ?_⟩⟩⟩
      simp only [Fs.setSlot, hflag]
  · simp only [hflag, decide_false, Bool.false_eq_true, if_false, returns_bind, returns_pure] at h
    obtain ⟨ret, s₁, hclose, _, _, hset, -, rfl⟩ := h
    exact ⟨g', s₁, hat, hset, Or.inr ⟨hflag, ret, hclose⟩⟩

/-- `sys_close` of a pair that is held. -/
theorem PipesOk.closePair (h : PipesOk s held) {fd : Fin 8} (hfd : 3 ≤ fd)
    (hheld : (s.cur, fd) ∈ held) (halone : s.Alone held (s.cur, fd)) {r : Int}
    (hret : Returns (sysClose fd.val) s r s') :
    PipesOk s' held ∧ PipesOk s' (held.erase (s.cur, fd)) ∧ ClosesPair s s' (s.cur, fd) := by
  obtain ⟨g, s₁, hg, hset, hcase⟩ := sysClose_inv hfd hret
  -- the slot loses the pair first
  have hmid : PipesOk s₁ (held.erase (s.cur, fd)) ∧ PipesDrop s s₁ ∧ s₁.tasks = s.tasks ∧
      s₁.cur = s.cur ∧ ∀ i, (s₁.fileTable i).fdFlag = (s.fileTable i).fdFlag := by
    rcases hcase with ⟨hflag, hclosed⟩ | ⟨hflag, r, hclose⟩
    · obtain ⟨hok, hdrop⟩ := h.dropPipe hheld hg hflag hclosed
      obtain ⟨htasks, hcur, hflags⟩ := hclosed.frame
      exact ⟨hok, hdrop, htasks, hcur, hflags⟩
    · obtain ⟨hsome, hfile, hrings, htasks, hcur, hnext⟩ := fileClose_frame hclose
      obtain ⟨hok, hdrop⟩ := h.dropFile hg hflag ((halone g hg).resolve_left hflag) hsome hfile
        hrings hnext htasks
      refine ⟨hok, hdrop, htasks, hcur, fun i => ?_⟩
      rw [hfile]
      by_cases hig : i = g
      · subst hig
        rw [Function.update_self]
      · rw [Function.update_of_ne hig]
  obtain ⟨hok, hdrop, htasks, hcur, hflags⟩ := hmid
  -- and the descriptor is given back
  obtain ⟨hlt, hat, hother, hfile, hrings, hheap, hcur', htasks'⟩ := returns_setFd hset
  have hfin : (⟨(fd.val : Int).toNat, by omega⟩ : Fin 8) = fd := Fin.ext (by simp)
  rw [hfin, hcur] at hat hother
  have hother' (y : Nat × Fin 8) (hy : y ≠ (s.cur, fd)) : s'.fdAt y.1 y.2 = s.fdAt y.1 y.2 := by
    rw [hother y hy, Fs.fdAt, Fs.fdAt, htasks]
  have hrefs (i : Nat) : s'.refs held i = s₁.refs (held.erase (s.cur, fd)) i :=
    Fs.refs_erase_neg held hat hother i
  have hrefs' (i : Nat) : s'.refs (held.erase (s.cur, fd)) i =
      s₁.refs (held.erase (s.cur, fd)) i := by
    have := Fs.refs_erase_neg (held.erase (s.cur, fd)) hat hother i
    rwa [Finset.erase_idem] at this
  have hnext : s₁.heap.next ≤ s'.heap.next := by rw [hheap]
  refine ⟨hok.congr hfile hrings hnext hrefs h.small, hok.congr hfile hrings hnext hrefs' hok.small,
    hdrop.trans (.of_eq hfile hrings), hother', fun i => ?_, hcur'.trans hcur, fun t => ?_⟩
  · rw [hfile]
    exact hflags i
  · rw [htasks' t, htasks]

/-! ## exit -/

theorem Fs.refs_mono {held' : Finset (Nat × Fin 8)} (hsub : held' ⊆ held)
    (hfd : ∀ y ∈ held', s'.fdAt y.1 y.2 = s.fdAt y.1 y.2) (i : Nat) :
    s'.refs held' i ⊆ s.refs held i := by
  intro y hy
  obtain ⟨hmem, hi⟩ := Fs.mem_refs.mp hy
  rw [hfd y hmem] at hi
  exact Fs.mem_refs.mpr ⟨hsub hmem, hi⟩

/-- One turn of the loop of `release_prog_resource`. -/
theorem PipesOk.releaseFd (h : PipesOk s held) {fd : Fin 8} (hfd : 3 ≤ fd)
    (hheld : (s.cur, fd) ∈ held) (halone : s.Alone held (s.cur, fd))
    (hret : Returns (releaseFd fd) s () s') :
    PipesOk s' (held.erase (s.cur, fd)) ∧ ClosesPair s s' (s.cur, fd) := by
  have hfin (hlt : 0 ≤ (fd.val : Int) ∧ (fd.val : Int) < 8) :
      (⟨(fd.val : Int).toNat, by omega⟩ : Fin 8) = fd := Fin.ext (by simp)
  simp only [ZxyOs.releaseFd, returns_bind, returns_runningThread] at hret
  obtain ⟨k, _, ⟨hk, rfl⟩, hret⟩ := hret
  have hat : s.fdAt s.cur fd = k.fdtable fd := by simp only [Fs.fdAt, hk]
  split at hret
  · simp only [returns_bind] at hret
    obtain ⟨b, _, hb, hret⟩ := hret
    obtain ⟨rfl, g, ⟨hlt, hg⟩, rfl⟩ := returns_isPipe hb
    rw [hfin hlt] at hg
    by_cases hflag : (s.fileTable g).fdFlag = pipeFlag
    · simp only [hflag, decide_true, if_true, returns_bind] at hret
      obtain ⟨g', _, hg', hclose⟩ := hret
      obtain ⟨rfl, hlt, hat'⟩ := returns_fdLocalToGlobal hg'
      rw [hfin hlt] at hat'
      obtain rfl : g' = g := by omega
      have hclosed := pipeClose_inv hclose
      obtain ⟨hok, hdrop⟩ := h.dropPipe hheld hg hflag hclosed
      obtain ⟨htasks, hcur, hflags⟩ := hclosed.frame
      refine ⟨hok, hdrop, fun y _ => ?_, hflags, hcur, fun t => ?_⟩
      · rw [Fs.fdAt, Fs.fdAt, htasks]
      · rw [htasks]
    · simp only [hflag, decide_false, Bool.false_eq_true, if_false, returns_bind, returns_pure] at hret
      obtain ⟨r, s₁, hclose, -, rfl⟩ := hret
      obtain ⟨-, hok, hcloses⟩ := h.closePair hfd hheld halone hclose
      exact ⟨hok, hcloses⟩
  · next hnone =>
    obtain ⟨-, rfl⟩ := returns_pure.mp hret
    have hneg : s.fdAt s.cur fd = -1 := by
      rw [hat]
      exact not_not.mp hnone
    have hless := Nat.lt_of_le_of_lt
      (Finset.card_le_card (Finset.erase_subset (s.cur, fd) held)) h.small
    refine ⟨h.congr rfl rfl le_rfl (fun i => ?_) hless, .refl s, fun _ _ => rfl, fun _ => rfl, rfl,
      fun _ => Iff.rfl⟩
    exact (Fs.refs_erase_neg (x := (s.cur, fd)) held hneg (fun _ _ => rfl) i).symm

/-- The loop drops the pairs of the running process, one after the other. -/
theorem PipesOk.releaseFds {fds : List (Fin 8)} (h : PipesOk s held) (hfds : ∀ fd ∈ fds, 3 ≤ fd)
    (hnodup : fds.Nodup) (hheld : ∀ fd ∈ fds, (s.cur, fd) ∈ held)
    (halone : ∀ fd ∈ fds, s.Alone held (s.cur, fd)) (hret : Returns (releaseFds fds) s () s') :
    PipesOk s' (held.filter fun y => ¬ (y.1 = s.cur ∧ y.2 ∈ fds)) ∧ PipesDrop s s' ∧
      (∀ y : Nat × Fin 8, y.1 ≠ s.cur → s'.fdAt y.1 y.2 = s.fdAt y.1 y.2) ∧ s'.cur = s.cur ∧
      ∀ t, s'.tasks t = none ↔ s.tasks t = none := by
  induction fds generalizing s held with
  | nil =>
    obtain ⟨-, rfl⟩ := returns_pure.mp hret
    refine ⟨?_, .refl _, fun _ _ => rfl, rfl, fun _ => Iff.rfl⟩
    simpa using h
  | cons fd rest ih =>
    obtain ⟨hnot, hnodup⟩ := List.nodup_cons.mp hnodup
    simp only [ZxyOs.releaseFds, returns_bind] at hret
    obtain ⟨_, s₁, hturn, hrest⟩ := hret
    obtain ⟨hok, hcloses⟩ := h.releaseFd (hfds fd List.mem_cons_self)
      (hheld fd List.mem_cons_self) (halone fd List.mem_cons_self) hturn
    have hcur := hcloses.cur
    have hne (fd' : Fin 8) (hfd' : fd' ∈ rest) : (s.cur, fd') ≠ (s.cur, fd) := by
      intro heq
      rw [(Prod.mk.inj heq).2] at hfd'
      exact hnot hfd'
    have hsub (i : Nat) : s₁.refs (held.erase (s.cur, fd)) i ⊆ s.refs held i := by
      apply Fs.refs_mono (Finset.erase_subset _ _)
      intro y hy
      exact hcloses.fdAt y (Finset.ne_of_mem_erase hy)
    obtain ⟨hok', hdrop, hfd, hcur', htasks⟩ := ih hok
      (fun fd' hfd' => hfds fd' (List.mem_cons_of_mem _ hfd')) hnodup
      (fun fd' hfd' => by
        rw [hcur]
        exact Finset.mem_erase.mpr ⟨hne fd' hfd', hheld fd' (List.mem_cons_of_mem _ hfd')⟩)
      (fun fd' hfd' g hg => by
        rw [hcur] at hg ⊢
        rw [hcloses.fdAt (s.cur, fd') (hne fd' hfd')] at hg
        rw [hcloses.flag g]
        rcases halone fd' (List.mem_cons_of_mem _ hfd') g hg with hpipe | hone
        · exact Or.inl hpipe
        · exact Or.inr fun y hy => hone y (hsub g hy))
      hrest
    refine ⟨?_, hcloses.drop.trans hdrop, fun y hy => ?_, hcur'.trans hcur, fun t => ?_⟩
    · have heq : (held.erase (s.cur, fd)).filter (fun y => ¬ (y.1 = s₁.cur ∧ y.2 ∈ rest)) =
          held.filter fun y => ¬ (y.1 = s.cur ∧ y.2 ∈ fd :: rest) := by
        rw [hcur]
        ext y
        obtain ⟨p, e⟩ := y
        simp only [Finset.mem_filter, Finset.mem_erase, List.mem_cons, ne_eq, Prod.mk.injEq]
        tauto
      rw [heq] at hok'
      exact hok'
    · rw [hcur] at hfd
      rw [hfd y hy, hcloses.fdAt y (fun heq => hy (by rw [heq]))]
    · rw [htasks t, hcloses.tasks t]

/-! ## fork -/

/-- A pair is counted that refers to slot `g`. -/
theorem PipesOk.countPair (h : PipesOk s held) (hx : x ∉ held) (hg : s.fdAt x.1 x.2 = g)
    (hg3 : 3 ≤ g) (hsome : (s.fileTable g).fdInode ≠ none)
    (hother : ∀ i ≠ g, s'.fileTable i = s.fileTable i)
    (hinode : (s'.fileTable g).fdInode = (s.fileTable g).fdInode)
    (hflag : (s'.fileTable g).fdFlag = (s.fileTable g).fdFlag)
    (hpos : (s.fileTable g).fdFlag = pipeFlag →
      (s'.fileTable g).fdPos = ((s.fileTable g).fdPos + 1) % 2 ^ 32)
    (hrings : s'.rings = s.rings) (hheap : s'.heap = s.heap) (htasks : s'.tasks = s.tasks)
    (hsmall : held.card + 1 < 2 ^ 32) : PipesOk s' (insert x held) := by
  have hfd : s'.fdAt = s.fdAt := by
    funext t fd
    rw [Fs.fdAt, Fs.fdAt, htasks]
  have hnot : x ∉ s.refs held g := fun hmem => hx (Fs.mem_refs.mp hmem).1
  have hle : (s.refs held g).card ≤ held.card := Finset.card_filter_le ..
  obtain ⟨hrefs, hrefsg⟩ := Fs.refs_insert s' held hg hfd
  have hholds (a : Nat) (ha : s'.HoldsPipe g a) : s.HoldsPipe g a := by
    obtain ⟨h1, h2⟩ := ha
    rw [hflag] at h1
    rw [hinode] at h2
    exact ⟨h1, h2⟩
  apply h.edit g hg3 hother hrefs
  · intro i _ a hi
    rw [hrings]
    exact h.ring i a hi
  · intro a ha
    rw [hrings] at ha
    rw [hheap]
    exact h.ring_lt a ha
  · intro hnone
    rw [hinode] at hnone
    exact absurd hnone hsome
  · intro a ha
    have hpipe := hholds a ha
    rw [hrefsg, hpos hpipe.1, h.count g a hpipe, Finset.card_insert_of_notMem hnot]
    refine ⟨Nat.mod_eq_of_lt (by omega), Finset.insert_nonempty .., ?_, ?_⟩
    · rw [hrings]
      exact h.ring g a hpipe
    · exact fun j hj hja => hj (h.inj j g a hja hpipe)
  · rw [Finset.card_insert_of_notMem hx]
    exact hsmall

/-- The loop counts the descriptors of the child, which are those of its parent. -/
theorem PipesOk.updateInodeOpenCnts {fds : List (Fin 8)} (h : PipesOk s held) (hnodup : fds.Nodup)
    (hnot : ∀ fd ∈ fds, (child, fd) ∉ held) (hheld : ∀ fd ∈ fds, (s.cur, fd) ∈ held)
    (hcopy : ∀ fd, s.fdAt child fd = s.fdAt s.cur fd) (hsmall : held.card + fds.length < 2 ^ 32)
    (hret : Returns (updateInodeOpenCnts child fds) s () s') :
    PipesOk s' (held ∪ fds.toFinset.image fun fd => (child, fd)) ∧
      (∀ i a, s.HoldsPipe i a → s'.HoldsPipe i a) ∧ s'.tasks = s.tasks := by
  induction fds generalizing s held with
  | nil =>
    obtain ⟨-, rfl⟩ := returns_pure.mp hret
    refine ⟨?_, fun _ _ hi => hi, rfl⟩
    simpa using h
  | cons fd rest ih =>
    obtain ⟨hnotin, hnodup⟩ := List.nodup_cons.mp hnodup
    have hfin (hlt : 0 ≤ (fd.val : Int) ∧ (fd.val : Int) < 8) :
        (⟨(fd.val : Int).toNat, by omega⟩ : Fin 8) = fd := Fin.ext (by simp)
    have hx : (child, fd) ∉ held := hnot fd List.mem_cons_self
    rw [List.length_cons] at hsmall
    -- one turn counts the pair
    have hturn : ∃ s₁, PipesOk s₁ (insert (child, fd) held) ∧ s₁.tasks = s.tasks ∧
        s₁.cur = s.cur ∧ (∀ i a, s.HoldsPipe i a → s₁.HoldsPipe i a) ∧
        Returns (ZxyOs.updateInodeOpenCnts child rest) s₁ () s' := by
      simp only [ZxyOs.updateInodeOpenCnts, returns_bind, returns_query, returns_deref,
        returns_assert] at hret
      obtain ⟨_, _, ⟨rfl, rfl⟩, k, _, ⟨hk, rfl⟩, _, _, ⟨-, rfl⟩, hret⟩ := hret
      have hat : s.fdAt child fd = k.fdtable fd := by simp only [Fs.fdAt, hk]
      split at hret
      · simp only [returns_bind, returns_query] at hret
        obtain ⟨b, _, hb, f, _, ⟨rfl, rfl⟩, hret⟩ := hret
        obtain ⟨rfl, g, ⟨hlt, hg⟩, rfl⟩ := returns_isPipe hb
        rw [hfin hlt] at hg
        have hgk : k.fdtable fd = g := by rw [← hat, hcopy fd, hg]
        have hgx : s.fdAt child fd = g := hat.trans hgk
        rw [hgk, Int.toNat_natCast] at hret
        have hself (f : File) : Function.update s.fileTable g f g = f := Function.update_self ..
        have hother (f : File) (i : Nat) (hi : i ≠ g) :
            Function.update s.fileTable g f i = s.fileTable i := Function.update_of_ne hi ..
        by_cases hflag : (s.fileTable g).fdFlag = pipeFlag
        · simp only [hflag, decide_true, if_true, putFile, returns_bind, returns_update] at hret
          obtain ⟨_, _, rfl, hrest⟩ := hret
          have hg3 : 3 ≤ g := by
            by_contra hlow
            exact (h.low g (by omega)).2 hflag
          have hsome : (s.fileTable g).fdInode ≠ none := by
            intro hnone
            have hempty := h.free g hg3 hnone
            have hmem : (s.cur, fd) ∈ s.refs held g :=
              Fs.mem_refs.mpr ⟨hheld fd List.mem_cons_self, hg⟩
            rw [hempty] at hmem
            simp at hmem
          let f : File := { s.fileTable g with
            fdPos := ((s.fileTable g).fdPos + 1) % 2 ^ 32, fdFlag := pipeFlag }
          have hslot : (s.setSlot g f).fileTable g = f := hself f
          refine ⟨s.setSlot g f, h.countPair hx hgx hg3 hsome (hother _) ?_ ?_ (fun _ => ?_) rfl rfl
            rfl (by omega), rfl, rfl, fun i a hi => ?_, hrest⟩
          · rw [hslot]
          · rw [hslot, hflag]
          · rw [hslot]
          · by_cases hig : i = g
            · subst hig
              rw [Fs.HoldsPipe, hslot]
              exact ⟨rfl, hi.2⟩
            · show (Function.update s.fileTable g f i).fdFlag = pipeFlag ∧
                (Function.update s.fileTable g f i).fdInode = some a
              rw [hother _ i hig]
              exact hi
        · simp only [hflag, decide_false, Bool.false_eq_true, if_false, returns_bind, returns_deref,
            returns_getInode, returns_putInode] at hret
          obtain ⟨a, _, ⟨ha, rfl⟩, v, _, ⟨-, rfl⟩, _, _, rfl, hrest⟩ := hret
          have hg3 : 3 ≤ g := by
            by_contra hlow
            rw [(h.low g (by omega)).1] at ha
            cases ha
          refine ⟨{ s with
              inodes := Function.update s.inodes a (some { v with iOpenCnt := v.iOpenCnt + 1 }) },
            h.countPair hx hgx hg3 (by rw [ha]; simp) (fun _ _ => rfl) rfl rfl
              (fun hpipe => absurd hpipe hflag) rfl rfl rfl (by omega),
            rfl, rfl, fun _ _ hi => hi, hrest⟩
      · next hnone =>
        have hneg : s.fdAt child fd = -1 := by
          rw [hat]
          exact not_not.mp hnone
        refine ⟨s, h.congr rfl rfl le_rfl (fun i => ?_) ?_, rfl, rfl, fun _ _ hi => hi, hret⟩
        · rw [Fs.refs_erase_neg (s := s) (x := (child, fd)) _ hneg (fun _ _ => rfl) i,
            Finset.erase_insert hx]
        · rw [Finset.card_insert_of_notMem hx]
          omega
    obtain ⟨s₁, hok, htasks, hcur, hkeep, hrest⟩ := hturn
    have hfd : s₁.fdAt = s.fdAt := by
      funext t fd
      rw [Fs.fdAt, Fs.fdAt, htasks]
    obtain ⟨hok', hkeep', htasks'⟩ := ih hok hnodup
      (fun fd' hfd' hmem => by
        rcases Finset.mem_insert.mp hmem with heq | hmem
        · rw [(Prod.mk.inj heq).2] at hfd'
          exact hnotin hfd'
        · exact hnot fd' (List.mem_cons_of_mem _ hfd') hmem)
      (fun fd' hfd' => by
        rw [hcur]
        exact Finset.mem_insert_of_mem (hheld fd' (List.mem_cons_of_mem _ hfd')))
      (fun fd' => by rw [hfd, hcur, hcopy fd'])
      (by
        rw [Finset.card_insert_of_notMem hx]
        omega)
      hrest
    refine ⟨?_, fun i a hi => hkeep' i a (hkeep i a hi), htasks'.trans htasks⟩
    have heq : insert (child, fd) held ∪ rest.toFinset.image (fun fd => (child, fd)) =
        held ∪ (fd :: rest).toFinset.image fun fd => (child, fd) := by
      ext y
      simp only [Finset.mem_union, Finset.mem_insert, Finset.mem_image, List.mem_toFinset,
        List.mem_cons]
      constructor
      · rintro ((rfl | hy) | ⟨e, he, rfl⟩)
        · exact Or.inr ⟨fd, Or.inl rfl, rfl⟩
        · exact Or.inl hy
        · exact Or.inr ⟨e, Or.inr he, rfl⟩
      · rintro (hy | ⟨e, rfl | he, rfl⟩)
        · exact Or.inl (Or.inr hy)
        · exact Or.inl (Or.inl rfl)
        · exact Or.inr ⟨e, he, rfl⟩
    rw [heq] at hok'
    exact hok'

/-! ## pipe -/

/-- The running process has two descriptors left, and 2 is in use. -/
structure Fs.RoomForPipe (s : Fs) : Prop where
  stderr : s.fdAt s.cur 2 ≠ -1
  two : ∃ e e' : Fin 8, 3 ≤ e.val ∧ e < e' ∧ s.fdAt s.cur e = -1 ∧ s.fdAt s.cur e' = -1

theorem PipesOk.sysPipe (h : PipesOk s held) (hroom : s.RoomForPipe)
    (hheld : ∀ fd : Fin 8, 3 ≤ fd.val → (s.cur, fd) ∈ held) {r : Int × Int}
    (hret : Returns sysPipe s r s') :
    PipesOk s' held ∧ (∀ i a, s.HoldsPipe i a → s'.HoldsPipe i a) ∧
      ∀ t, s'.tasks t = none ↔ s.tasks t = none := by
  simp only [ZxyOs.sysPipe, getFreeSlotInGlobal, getKernelPage, ioqueueInit, putFile, returns_bind,
    returns_query, returns_update, returns_deref, returns_pure] at hret
  obtain ⟨_, _, ⟨_, _, ⟨rfl, rfl⟩, rfl, rfl⟩, g, _, ⟨hslot, rfl⟩, _, _, ⟨_, _, ⟨rfl, rfl⟩, _, _, rfl,
    rfl, rfl⟩, a, _, ⟨hpage, rfl⟩, _, _, rfl, _, _, rfl, fd0, s₁, hinst0, fd1, s₂, hinst1, -, rfl⟩ := hret
  obtain ⟨hg3, hgnone⟩ := freeSlotFrom_some hslot
  simp only [id_eq] at hgnone
  obtain rfl : a = s.heap.next := by
    split at hpage
    · cases hpage
    · exact (Option.some.inj hpage).symm
  obtain ⟨h2, e, e', he3, hee', he, he'⟩ := hroom
  -- the two descriptors
  obtain ⟨x, hx2, hx, hxg, hxo, hfile, hrings, hheap, hcur, htasks⟩ :=
    returns_pcbFdInstall hinst0 ⟨e, by omega, he⟩
  have hx' : s.fdAt s.cur x = -1 := hx
  have hxo' (y : Nat × Fin 8) (hy : y ≠ (s.cur, x)) : s₁.fdAt y.1 y.2 = s.fdAt y.1 y.2 := hxo y hy
  have hxg' : s₁.fdAt s.cur x = g := hxg
  have hcur' : s₁.cur = s.cur := hcur
  have hne2 (f : Fin 8) (hf2 : 2 ≤ f.val) (hf : s.fdAt s.cur f = -1) : 3 ≤ f.val := by
    by_contra hlt
    have hf' : f = 2 := Fin.ext (by
      show f.val = 2
      omega)
    rw [hf'] at hf
    exact h2 hf
  have hroom' : ∃ f : Fin 8, 2 ≤ f.val ∧ s₁.fdAt s₁.cur f = -1 := by
    rw [hcur']
    by_cases hex : e = x
    · refine ⟨e', by omega, ?_⟩
      rw [hxo' (s.cur, e') (fun heq => by
        rw [← (Prod.mk.inj heq).2] at hex
        exact absurd hee' (by rw [hex]; exact lt_irrefl _))]
      exact he'
    · refine ⟨e, by omega, ?_⟩
      rw [hxo' (s.cur, e) (fun heq => hex (Prod.mk.inj heq).2)]
      exact he
  obtain ⟨y, hy2, hy, hyg, hyo, hfile', hrings', hheap', hcur'', htasks'⟩ :=
    returns_pcbFdInstall hinst1 hroom'
  rw [hcur'] at hy hyg hyo
  have hxy : y ≠ x := by
    rintro rfl
    rw [hxg'] at hy
    omega
  have hy' : s.fdAt s.cur y = -1 := by
    rw [hxo' (s.cur, y) (fun heq => hxy (Prod.mk.inj heq).2)] at hy
    exact hy
  have hxs : s₂.fdAt s.cur x = g := by
    rw [hyo (s.cur, x) (fun heq => hxy (Prod.mk.inj heq).2.symm)]
    exact hxg'
  have hrest (z : Nat × Fin 8) (hzx : z ≠ (s.cur, x)) (hzy : z ≠ (s.cur, y)) :
      s₂.fdAt z.1 z.2 = s.fdAt z.1 z.2 := by
    rw [hyo z hzy, hxo' z hzx]
  have hfile₂ : s₂.fileTable = Function.update s.fileTable g
      { fdInode := some s.heap.next, fdFlag := pipeFlag, fdPos := 2 } := by rw [hfile', hfile]
  have hrings₂ : s₂.rings = Function.update s.rings s.heap.next
      (some { head := 0, tail := 0, buf := Bytes.zero }) := by rw [hrings', hrings]
  have hself : s₂.fileTable g = { fdInode := some s.heap.next, fdFlag := pipeFlag, fdPos := 2 } := by
    rw [hfile₂, Function.update_self]
  have hother (i : Nat) (hi : i ≠ g) : s₂.fileTable i = s.fileTable i := by
    rw [hfile₂, Function.update_of_ne hi]
  have hnew (i a : Nat) (hi : s.HoldsPipe i a) : a ≠ s.heap.next := by
    intro heq
    exact absurd (h.ring_lt a (h.ring i a hi)) (by omega)
  have hempty : s.refs held g = ∅ := h.free g hg3 hgnone
  have hrefsg : s₂.refs held g = {(s.cur, x), (s.cur, y)} := by
    ext z
    rw [Fs.mem_refs, Finset.mem_insert, Finset.mem_singleton]
    constructor
    · rintro ⟨hz, hzg⟩
      by_contra hnot
      rw [not_or] at hnot
      rw [hrest z hnot.1 hnot.2] at hzg
      have hmem : z ∈ s.refs held g := Fs.mem_refs.mpr ⟨hz, hzg⟩
      rw [hempty] at hmem
      simp at hmem
    · rintro (rfl | rfl)
      · exact ⟨hheld x (hne2 x hx2 hx'), hxs⟩
      · exact ⟨hheld y (hne2 y hy2 hy'), hyg⟩
  have hrefs (i : Nat) (hi : i ≠ g) : s₂.refs held i = s.refs held i := by
    ext z
    rw [Fs.mem_refs, Fs.mem_refs]
    by_cases hzx : z = (s.cur, x)
    · subst hzx
      rw [hxs, hx']
      constructor
      · rintro ⟨-, hzi⟩
        exact absurd hzi (by omega)
      · rintro ⟨-, hzi⟩
        exact absurd hzi (by omega)
    · by_cases hzy : z = (s.cur, y)
      · subst hzy
        rw [hyg, hy']
        constructor
        · rintro ⟨-, hzi⟩
          exact absurd hzi (by omega)
        · rintro ⟨-, hzi⟩
          exact absurd hzi (by omega)
      · rw [hrest z hzx hzy]
  refine ⟨?_, fun i a hi => ?_, fun t => ?_⟩
  · apply h.edit g hg3 hother hrefs
    · intro i _ a hi
      rw [hrings₂, Function.update_of_ne (hnew i a hi)]
      exact h.ring i a hi
    · intro a ha
      rw [hheap', hheap]
      show a < s.heap.next + 1
      by_cases hap : a = s.heap.next
      · omega
      · rw [hrings₂, Function.update_of_ne hap] at ha
        have := h.ring_lt a ha
        omega
    · intro hnone
      rw [hself] at hnone
      cases hnone
    · rintro a ⟨-, ha⟩
      rw [hself] at ha ⊢
      obtain rfl := Option.some.inj ha
      rw [hrefsg]
      refine ⟨?_, Finset.insert_nonempty .., ?_, fun j _ hj => hnew j _ hj rfl⟩
      · exact (Finset.card_pair (fun heq => hxy (Prod.mk.inj heq).2.symm)).symm
      · rw [hrings₂, Function.update_self]
        simp
    · exact h.small
  · have hig : i ≠ g := by
      rintro rfl
      rw [hi.2] at hgnone
      cases hgnone
    rw [Fs.HoldsPipe, hother i hig]
    exact hi
  · rw [htasks' t, htasks t]

/-! ## Redirection and offsets -/

/-- A descriptor changes its slot, and pipes are not concerned. -/
theorem PipesOk.redirect (h : PipesOk s held) (hfile : s'.fileTable = s.fileTable)
    (hrings : s'.rings = s.rings) (hheap : s'.heap = s.heap)
    (hfd : ∀ y ≠ x, s'.fdAt y.1 y.2 = s.fdAt y.1 y.2)
    (hpipe : ∀ i a, s.HoldsPipe i a → s.fdAt x.1 x.2 ≠ i ∧ s'.fdAt x.1 x.2 ≠ i)
    (hopen : ∀ i : Nat, s'.fdAt x.1 x.2 = i → 3 ≤ i → (s.fileTable i).fdInode ≠ none) :
    PipesOk s' held := by
  have hrefs (i a : Nat) (hi : s.HoldsPipe i a) : s'.refs held i = s.refs held i := by
    ext y
    rw [Fs.mem_refs, Fs.mem_refs]
    by_cases hyx : y = x
    · subst hyx
      constructor
      · rintro ⟨-, hy⟩
        exact absurd hy (hpipe i a hi).2
      · rintro ⟨-, hy⟩
        exact absurd hy (hpipe i a hi).1
    · rw [hfd y hyx]
  have hholds (i a : Nat) (hi : s'.HoldsPipe i a) : s.HoldsPipe i a := by
    rw [Fs.HoldsPipe, hfile] at hi
    exact hi
  constructor
  · rw [hfile]
    exact h.low
  · intro i hi hnone
    rw [hfile] at hnone
    apply Finset.eq_empty_of_forall_notMem
    intro y hy
    obtain ⟨hmem, hyi⟩ := Fs.mem_refs.mp hy
    by_cases hyx : y = x
    · subst hyx
      exact hopen i hyi hi hnone
    · rw [hfd y hyx] at hyi
      have hold : y ∈ s.refs held i := Fs.mem_refs.mpr ⟨hmem, hyi⟩
      rw [h.free i hi hnone] at hold
      simp at hold
  · intro i a hi
    rw [hfile, hrefs i a (hholds i a hi)]
    exact h.count i a (hholds i a hi)
  · intro i a hi
    rw [hrefs i a (hholds i a hi)]
    exact h.referred i a (hholds i a hi)
  · intro i a hi
    rw [hrings]
    exact h.ring i a (hholds i a hi)
  · exact fun i j a hi hj => h.inj i j a (hholds i a hi) (hholds j a hj)
  · rw [hrings, hheap]
    exact h.ring_lt
  · exact h.small

/-- The offset of a file changes. -/
theorem PipesOk.setPos (h : PipesOk s held) (hflag : (s.fileTable g).fdFlag ≠ pipeFlag) {pos : Nat} :
    PipesOk (s.setSlot g { s.fileTable g with fdPos := pos }) held := by
  have hother (i : Nat) (hi : i ≠ g) :
      (s.setSlot g { s.fileTable g with fdPos := pos }).fileTable i = s.fileTable i :=
    Function.update_of_ne hi ..
  have hself : (s.setSlot g { s.fileTable g with fdPos := pos }).fileTable g =
      { s.fileTable g with fdPos := pos } := Function.update_self ..
  have hinode (i : Nat) : ((s.setSlot g { s.fileTable g with fdPos := pos }).fileTable i).fdInode =
      (s.fileTable i).fdInode := by
    by_cases hig : i = g
    · rw [hig, hself]
    · rw [hother i hig]
  have hfl (i : Nat) : ((s.setSlot g { s.fileTable g with fdPos := pos }).fileTable i).fdFlag =
      (s.fileTable i).fdFlag := by
    by_cases hig : i = g
    · rw [hig, hself]
    · rw [hother i hig]
  have hholds (i a : Nat) (hi : (s.setSlot g { s.fileTable g with fdPos := pos }).HoldsPipe i a) :
      s.HoldsPipe i a := by
    rw [Fs.HoldsPipe, hinode, hfl] at hi
    exact hi
  constructor
  · intro i hi
    rw [hinode, hfl]
    exact h.low i hi
  · intro i hi hnone
    rw [hinode] at hnone
    exact h.free i hi hnone
  · intro i a hi
    have hold := hholds i a hi
    have hig : i ≠ g := by
      rintro rfl
      exact hflag hold.1
    rw [hother i hig]
    exact h.count i a hold
  · exact fun i a hi => h.referred i a (hholds i a hi)
  · exact fun i a hi => h.ring i a (hholds i a hi)
  · exact fun i j a hi hj => h.inj i j a (hholds i a hi) (hholds j a hj)
  · exact h.ring_lt
  · exact h.small

end Calls

end ZxyOs
