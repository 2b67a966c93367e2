/-
  ZxyOs.Fs.GetcwdBuf

  `sys_getcwd` and the caller's buffer.

  `Fs.Getcwd` treats the buffer as a string.  Here it is memory: a store at `size` or behind
  it is an overrun.  The call asserts that the path has at most `size` bytes, without its
  NUL, and does not look at `size` at all in the root directory; the array in which it climbs
  has 512 bytes.  So it does what it should exactly if the path and its NUL fit into both.
-/

import ZxyOs.Fs.Getcwd
import ZxyOs.Lib.CString

namespace ZxyOs

open Lib Lib.Exec

/-- What `sys_getcwd` works on: the file system, and memory from `buf` on. -/
structure CwdCall where
  fs : Fs
  buf : Bytes

abbrev CwdM := Exec CwdCall

/-- Run a file-system function. -/
def onFiles {α : Type} (x : FsM α) : CwdM α := fun c =>
  match x c.fs with
  | .ok (a, s) => .ok (a, { c with fs := s })
  | .error e => .error e

/-- Bytes behind each other into the buffer of `size` bytes. -/
def storeBytes (size : Nat) : Nat → List UInt8 → CwdM Unit
  | _, [] => return ()
  | off, v :: vs => do
    fits (off < size)
    update fun c => { c with buf := Function.update c.buf off v }
    storeBytes size (off + 1) vs

/-- The loop that puts the components of `path` into `buf`, the last one first. -/
def copyBack (size : Nat) : Nat → CStr → CwdM Unit
  | 0, _ => return ()
  | fuel + 1, path =>
    if slash ∈ path then do
      let last := slash :: lastName path
      let c ← query id
      let strlen ← deref (c.buf.strEnd (2 ^ 32) 0)
      -- `uint16_t len`
      let len := strlen % 2 ^ 16
      storeBytes size len (last ++ [0])
      copyBack size fuel (path.take (path.length - last.length))
    else
      return ()

/-- `sys_getcwd` into a buffer of `size` bytes: does it return the buffer? -/
def sysGetcwdInto (size : Nat) : CwdM Bool := do
  let ioBuf ← onFiles sysMalloc
  if ioBuf = none then
    return false
  let cur ← onFiles runningThread
  let childINo := cur.cwdInodeNr
  assert (childINo < 4096)
  if childINo = 0 then
    storeBytes size 0 [slash, 0]
    onFiles (sysFree ioBuf)
    return true
  else
    -- `memset(buf, 0, size)`
    update fun c => { c with buf := c.buf.splice 0 size Bytes.zero }
    let path ← onFiles (climbLoop 513 childINo [])
    match path with
    | none =>
      onFiles (sysFree ioBuf)
      return false
    | some path =>
      assert (path.length ≤ size)
      copyBack size path.length path
      onFiles (sysFree ioBuf)
      return true

/-- What the call should do: stay inside the buffer, and put the path there if it fits with
    its NUL and report `NULL` if it does not. -/
def RespectsBuffer (size : Nat) (path : CStr) (c : CwdCall) : Prop :=
  ∃ r c', Returns (sysGetcwdInto size) c r c' ∧
    if r then path.length < size ∧ c'.buf.IsStr 0 path else size ≤ path.length

/-! ## Storing -/

section Storing

variable {c c' : CwdCall} {size off fuel : Nat} {vs done : List UInt8} {cs : List CStr} {u : Unit}

theorem returns_onFiles {α : Type} {x : FsM α} {a : α} :
    Returns (onFiles x) c a c' ↔ ∃ s, Returns x c.fs a s ∧ c' = { c with fs := s } := by
  unfold Returns onFiles
  cases x c.fs with
  | ok r =>
    obtain ⟨b, s⟩ := r
    simp only [Except.ok.injEq, Prod.mk.injEq]
    constructor
    · rintro ⟨rfl, rfl⟩
      exact ⟨s, ⟨rfl, rfl⟩, rfl⟩
    · rintro ⟨s', ⟨rfl, rfl⟩, rfl⟩
      exact ⟨rfl, rfl⟩
  | error e => simp

theorem returns_storeBytes : Returns (storeBytes size off vs) c u c' ↔
    (vs = [] ∨ off + vs.length ≤ size) ∧ c' = { c with buf := c.buf.write off vs } := by
  induction vs generalizing off c with
  | nil =>
    rw [storeBytes, returns_pure]
    exact ⟨fun h => ⟨Or.inl rfl, h.2.symm⟩, fun h => ⟨rfl, h.2.symm⟩⟩
  | cons v vs ih =>
    rw [storeBytes]
    simp only [returns_bind, returns_fits, returns_update]
    constructor
    · rintro ⟨_, _, ⟨hlt, rfl⟩, _, _, rfl, hrest⟩
      obtain ⟨hroom, rfl⟩ := ih.mp hrest
      refine ⟨Or.inr ?_, rfl⟩
      rw [List.length_cons]
      rcases hroom with rfl | hroom
      · rw [List.length_nil]
        omega
      · omega
    · rintro ⟨hroom, rfl⟩
      have hroom : off + (vs.length + 1) ≤ size := hroom.resolve_left (by simp)
      exact ⟨(), c, ⟨by omega, rfl⟩, (), _, rfl, ih.mpr ⟨Or.inr (by omega), rfl⟩⟩

/-- Copying back appends the components in their order, where there is room for them and a NUL. -/
theorem copyBack_runs (hcs : ∀ d ∈ cs, slash ∉ d ∧ (0 : UInt8) ∉ d)
    (hfuel : (spell slash cs.reverse).length ≤ fuel) (hdone : c.buf.IsStr 0 done)
    (hroom : (done ++ spell slash cs).length < size) (hshort : (done ++ spell slash cs).length < 2 ^ 16) :
    ∃ c', Returns (copyBack size fuel (spell slash cs.reverse)) c () c' ∧ c'.fs = c.fs ∧
      c'.buf.IsStr 0 (done ++ spell slash cs) := by
  induction cs generalizing fuel done c with
  | nil =>
    rw [List.reverse_nil, spell_nil, List.append_nil]
    refine ⟨c, ?_, rfl, hdone⟩
    cases fuel with
    | zero => exact returns_pure.mpr ⟨rfl, rfl⟩
    | succ fuel =>
      rw [copyBack, if_neg List.not_mem_nil]
      exact returns_pure.mpr ⟨rfl, rfl⟩
  | cons d cs ih =>
    have hspell : spell slash (d :: cs).reverse = spell slash cs.reverse ++ slash :: d := by
      rw [List.reverse_cons, spell_append, spell_cons, spell_nil, List.append_nil]
    have hshape : done ++ spell slash (d :: cs) = (done ++ slash :: d) ++ spell slash cs := by
      rw [spell_cons, List.append_assoc]
    rw [hshape] at hroom hshort ⊢
    rw [hspell] at hfuel ⊢
    obtain ⟨hsep, hnul⟩ := hcs d List.mem_cons_self
    have hlen : ((done ++ slash :: d) ++ spell slash cs).length =
        done.length + (d.length + 1) + (spell slash cs).length := by
      rw [List.length_append, List.length_append, List.length_cons]
    rw [List.length_append, List.length_cons] at hfuel
    obtain ⟨fuel, rfl⟩ : ∃ m, fuel = m + 1 := ⟨fuel - 1, by omega⟩
    have hin : slash ∈ spell slash cs.reverse ++ slash :: d := by simp
    have hlast : lastName (spell slash cs.reverse ++ slash :: d) = d := lastName_concat hsep
    have hcut : (spell slash cs.reverse ++ slash :: d).take
        ((spell slash cs.reverse ++ slash :: d).length - (slash :: d).length) = spell slash cs.reverse := by
      rw [List.length_append, Nat.add_sub_cancel]
      exact List.take_left
    have hend : c.buf.strEnd (2 ^ 32) 0 = some done.length := by
      rw [hdone.strEnd (by omega), Nat.zero_add]
    have hplain : (0 : UInt8) ∉ done ++ slash :: d := by
      rw [List.mem_append, List.mem_cons, not_or, not_or]
      exact ⟨hdone.nonzero, by decide, hnul⟩
    have hquery : Returns (query id) c c c := (returns_query _).mpr ⟨rfl, rfl⟩
    have hstrlen : Returns (deref (c.buf.strEnd (2 ^ 32) 0)) c done.length c :=
      (returns_deref _).mpr ⟨hend, rfl⟩
    have hmod : done.length % 2 ^ 16 = done.length := Nat.mod_eq_of_lt (by omega)
    have hstore : Returns (storeBytes size (done.length % 2 ^ 16) (slash :: d ++ [0])) c ()
        { c with buf := c.buf.write (done.length % 2 ^ 16) (slash :: d ++ [0]) } := by
      refine returns_storeBytes.mpr ⟨Or.inr ?_, rfl⟩
      rw [hmod]
      simp only [List.length_append, List.length_cons, List.length_nil]
      omega
    rw [hmod] at hstore
    -- what is there now, with the component behind it and its NUL
    have hnow : (c.buf.write done.length (slash :: d ++ [0])).IsStr 0 (done ++ slash :: d) := by
      apply Bytes.isStr_of_get
      · intro k hk
        rw [Nat.zero_add]
        by_cases hold : k < done.length
        · rw [List.getElem_append_left hold, Bytes.write_outside (Or.inl hold)]
          have := hdone.get k hold
          rwa [Nat.zero_add] at this
        · obtain ⟨j, rfl⟩ := Nat.exists_eq_add_of_le (Nat.le_of_not_lt hold)
          rw [List.length_append] at hk
          have hj : j < (slash :: d).length := by omega
          have hj' : j < (slash :: d ++ [0]).length := by
            rw [List.length_append]
            omega
          rw [Bytes.write_inside hj', List.getElem_append_left hj,
            List.getElem_append_right (Nat.le_add_right _ _)]
          simp only [Nat.add_sub_cancel_left]
      · have hk : (slash :: d).length < (slash :: d ++ [0]).length := by simp
        rw [Nat.zero_add, List.length_append, Bytes.write_inside hk,
          List.getElem_append_right (Nat.le_refl _)]
        simp
      · exact hplain
    obtain ⟨c', hrest, hfs, hstr⟩ := @ih { c with buf := c.buf.write done.length (slash :: d ++ [0]) } fuel
      (done ++ slash :: d) (fun e he => hcs e (List.mem_cons_of_mem _ he)) (by omega) hnow hroom hshort
    refine ⟨c', ?_, hfs, hstr⟩
    rw [copyBack, if_pos hin]
    simp only
    rw [returns_bind_iff hquery, returns_bind_iff hstrlen, hlast, hcut, hmod, returns_bind_iff hstore]
    exact hrest

end Storing

/-! ## Paths of directories -/

namespace Fs

/-- The absolute path of directory `i`. -/
def PathOf (s : Fs) (i : Nat) (path : CStr) : Prop :=
  ∃ cs, (∀ c ∈ cs, Downward c) ∧ walk s.names 0 cs = .dir i ∧
    path = if cs = [] then [slash] else spell slash cs

/-- No name in a directory has a slash in it. -/
def SlashFree (s : Fs) : Prop := ∀ i, s.IsDir i → ∀ e ∈ s.entries i, slash ∉ e.filename

variable {s : Fs} {i n : Nat} {cs : List CStr}

/-- Every directory has a path. -/
theorem exists_pathOf (hs : s.ChainOk) (hi : s.IsDir i) : ∃ path, s.PathOf i path := by
  suffices h : ∃ cs, (∀ c ∈ cs, Downward c) ∧ walk s.names 0 cs = .dir i by
    obtain ⟨cs, hcs, hwalk⟩ := h
    exact ⟨_, cs, hcs, hwalk, rfl⟩
  induction hi with
  | root => exact ⟨[], by simp, walk_nil⟩
  | @child i e hi he hty ih =>
    obtain ⟨cs, hcs, hwalk⟩ := ih
    have hname : s.names i e.filename = some (.dir e.iNo) := by
      rw [(hs.node i hi).names_eq he, DirEntry.child_dir hty]
    by_cases hdown : Downward e.filename
    · refine ⟨cs ++ [e.filename], ?_, walk_concat_eq_dir.mpr ⟨i, hwalk, hname⟩⟩
      intro c hc
      rcases List.mem_append.mp hc with hc | hc
      · exact hcs c hc
      · exact List.mem_singleton.mp hc ▸ hdown
    · have hspecial : e.filename = dot ∨ e.filename = dotDot := by
        by_contra h
        exact hdown (not_or.mp h)
      rcases hspecial with hdot | hup
      -- `"."` is the directory itself
      · rw [hdot, hs.self i hi] at hname
        obtain rfl : i = e.iNo := by simpa using hname
        exact ⟨cs, hcs, hwalk⟩
      -- `".."` is the one before it on the way
      · rw [hup] at hname
        rcases List.eq_nil_or_concat' cs with rfl | ⟨ds, d, rfl⟩
        · obtain rfl : 0 = i := by simpa using hwalk
          rw [hs.rootUp] at hname
          obtain hroot : 0 = e.iNo := by simpa using hname
          exact ⟨[], by simp, hroot ▸ walk_nil⟩
        · obtain ⟨j, hj, hnames⟩ := walk_concat_eq_dir.mp hwalk
          have hds : ∀ c ∈ ds, Downward c := fun c hc => hcs c (List.mem_append_left _ hc)
          have hjdir : s.IsDir j := hs.tree.dir_walk .root hj
          rw [hs.parent j d i hjdir (hcs d (by simp)) hnames] at hname
          obtain rfl : j = e.iNo := by simpa using hname
          exact ⟨ds, hds, hj⟩

/-- The names on the way to a directory have no slash and no NUL in them. -/
theorem names_plain (hslash : s.SlashFree) (hi : s.IsDir i)
    (hwalk : walk s.names i cs = .dir n) : ∀ c ∈ cs, slash ∉ c ∧ (0 : UInt8) ∉ c := by
  induction cs generalizing i with
  | nil => simp
  | cons c cs ih =>
    obtain ⟨j, hnames, hrest⟩ := walk_cons_eq_dir.mp hwalk
    obtain ⟨e, he, rfl, hchild⟩ := Fs.exists_of_names hnames
    intro d hd
    rcases List.mem_cons.mp hd with rfl | hd
    · refine ⟨hslash i hi e he, ?_⟩
      obtain ⟨k, -, -, hmem⟩ := mem_dirEntries.mp he
      obtain ⟨q, -, -, rfl⟩ := mem_blockEntries.mp hmem
      intro hzero
      simpa using List.mem_takeWhile_imp hzero
    · exact ih (hi.names hnames) hrest d hd

end Fs

/-! ## The call -/

section Call

variable {s : Fs} {i : Nat} {cs : List CStr} {p : Task}

theorem length_spell_reverse : (spell slash cs.reverse).length = (spell slash cs).length := by
  rw [spell, spell, List.length_flatMap, List.length_flatMap, List.map_reverse, List.sum_reverse]

/-- In the root directory two bytes are stored. -/
theorem sysGetcwdInto_root (buf : Bytes) (size : Nat) (hs : s.ChainOk) (hserved : ∀ j, s.heap.full (s.heap.next + j) = false)
    (hp : s.tasks s.cur = some p) (hcwd : p.cwdInodeNr = 0) :
    ∃ s', ∀ r c', Returns (sysGetcwdInto size) ⟨s, buf⟩ r c' ↔
      2 ≤ size ∧ r = true ∧ c' = ⟨s', buf.write 0 [slash, 0]⟩ := by
  have hbeside : Beside s s := ⟨rfl, Nat.le_refl _, hs.live, hs.running, hserved⟩
  obtain ⟨b, t, hmalloc, ht, htasks⟩ := hbeside.malloc
  have hp' : t.tasks t.cur = some p := by
    rw [ht.rest] at htasks ⊢
    rw [htasks]
    exact hp
  obtain ⟨s', hfree⟩ := sysFree_returns t b
  have h₁ : Returns (onFiles sysMalloc) ⟨s, buf⟩ (some b) ⟨t, buf⟩ := returns_onFiles.mpr ⟨t, hmalloc, rfl⟩
  have h₂ : Returns (onFiles runningThread) ⟨t, buf⟩ p ⟨t, buf⟩ :=
    returns_onFiles.mpr ⟨t, returns_runningThread.mpr ⟨hp', rfl⟩, rfl⟩
  have h₃ : Returns (assert (p.cwdInodeNr < 4096)) (⟨t, buf⟩ : CwdCall) () ⟨t, buf⟩ :=
    (returns_assert _ _).mpr ⟨by rw [hcwd]; decide, rfl⟩
  have h₄ (buf : Bytes) : Returns (onFiles (sysFree (some b))) ⟨t, buf⟩ () ⟨s', buf⟩ :=
    returns_onFiles.mpr ⟨s', hfree, rfl⟩
  refine ⟨s', fun r c' => ?_⟩
  unfold sysGetcwdInto
  rw [returns_bind_iff h₁, if_neg (by simp), returns_bind_iff h₂]
  simp only
  rw [returns_bind_iff h₃, if_pos hcwd, returns_bind]
  constructor
  · rintro ⟨_, c, hstore, hrest⟩
    obtain ⟨hroom, rfl⟩ := returns_storeBytes.mp hstore
    rw [returns_bind_iff (h₄ _)] at hrest
    obtain ⟨rfl, rfl⟩ := returns_pure.mp hrest
    exact ⟨hroom.resolve_left (by simp), rfl, rfl⟩
  · rintro ⟨hroom, rfl, rfl⟩
    refine ⟨(), _, returns_storeBytes.mpr ⟨Or.inr hroom, rfl⟩, ?_⟩
    rw [returns_bind_iff (h₄ _)]
    exact returns_pure.mpr ⟨rfl, rfl⟩

/-- Elsewhere the call returns the buffer with the path if there is room for it; it returns nothing
    else, and only if the path fits into the array of 512 bytes. -/
theorem sysGetcwdInto_path (buf : Bytes) (size : Nat) (hs : s.ChainOk) (hserved : ∀ j, s.heap.full (s.heap.next + j) = false)
    (hp : s.tasks s.cur = some p) (hcwd : p.cwdInodeNr = i) (hcs : ∀ c ∈ cs, Downward c) (hne : cs ≠ [])
    (hplain : ∀ c ∈ cs, slash ∉ c ∧ (0 : UInt8) ∉ c) (hwalk : walk s.names 0 cs = .dir i) :
    ((spell slash cs).length < size → (spell slash cs).length < 512 →
      ∃ c', Returns (sysGetcwdInto size) ⟨s, buf⟩ true c' ∧ c'.buf.IsStr 0 (spell slash cs)) ∧
    ∀ r c', Returns (sysGetcwdInto size) ⟨s, buf⟩ r c' → r = true ∧ (spell slash cs).length < 512 := by
  have hdir : s.IsDir i := hs.tree.dir_walk .root hwalk
  have hi0 : ¬p.cwdInodeNr = 0 := by
    rw [hcwd]
    rintro rfl
    exact hne (hs.tree.walk_unique hcs (by simp) hwalk walk_nil)
  have hbeside : Beside s s := ⟨rfl, Nat.le_refl _, hs.live, hs.running, hserved⟩
  obtain ⟨b, t, hmalloc, ht, htasks⟩ := hbeside.malloc
  have hp' : t.tasks t.cur = some p := by
    rw [ht.rest] at htasks ⊢
    rw [htasks]
    exact hp
  have hempty : ([] : CStr).length < 512 := by decide
  obtain ⟨u, hu, hclimb⟩ := returns_climbLoop hs hcs hwalk 513 (by decide) hempty ht
  simp only [List.nil_append, length_spell_reverse] at hclimb
  have h₁ : Returns (onFiles sysMalloc) ⟨s, buf⟩ (some b) ⟨t, buf⟩ := returns_onFiles.mpr ⟨t, hmalloc, rfl⟩
  have h₂ : Returns (onFiles runningThread) ⟨t, buf⟩ p ⟨t, buf⟩ :=
    returns_onFiles.mpr ⟨t, returns_runningThread.mpr ⟨hp', rfl⟩, rfl⟩
  have h₃ : Returns (assert (p.cwdInodeNr < 4096)) (⟨t, buf⟩ : CwdCall) () ⟨t, buf⟩ := by
    refine (returns_assert _ _).mpr ⟨?_, rfl⟩
    rw [hcwd]
    exact (hs.node i hdir).number
  have h₄ : Returns (update fun c : CwdCall => { c with buf := c.buf.splice 0 size Bytes.zero }) ⟨t, buf⟩ ()
      ⟨t, buf.splice 0 size Bytes.zero⟩ := (returns_update _ _).mpr rfl
  have hrun (r : Bool) (c' : CwdCall) : Returns (sysGetcwdInto size) ⟨s, buf⟩ r c' ↔
      ∃ a c, Returns (onFiles (climbLoop 513 i [])) ⟨t, buf.splice 0 size Bytes.zero⟩ a c ∧
        Returns (match a with
          | none => (do onFiles (sysFree (some b)); return false : CwdM Bool)
          | some path => do
            assert (path.length ≤ size)
            copyBack size path.length path
            onFiles (sysFree (some b))
            return true) c r c' := by
    unfold sysGetcwdInto
    rw [returns_bind_iff h₁, if_neg (by simp), returns_bind_iff h₂]
    simp only
    rw [returns_bind_iff h₃, if_neg hi0, returns_bind_iff h₄, returns_bind, hcwd]
  constructor
  · intro hsize hlen
    have hzero : (buf.splice 0 size Bytes.zero).IsStr 0 [] := Bytes.splice_inside (Nat.le_refl _) (by omega)
    have hpath : ([] ++ spell slash cs).length < size := by rwa [List.nil_append]
    have hshort : ([] ++ spell slash cs).length < 2 ^ 16 := by
      rw [List.nil_append]
      omega
    obtain ⟨c₁, hcopy, hfs, hstr⟩ := @copyBack_runs ⟨u, buf.splice 0 size Bytes.zero⟩ size _ [] cs
      (fun d hd => hplain d hd) (Nat.le_refl _) hzero hpath hshort
    obtain ⟨u', hfree⟩ := sysFree_returns u b
    have hfree' : Returns (onFiles (sysFree (some b))) c₁ () { c₁ with fs := u' } :=
      returns_onFiles.mpr ⟨u', by rw [hfs]; exact hfree, rfl⟩
    refine ⟨{ c₁ with fs := u' }, (hrun _ _).mpr ⟨_, ⟨u, buf.splice 0 size Bytes.zero⟩,
      returns_onFiles.mpr ⟨u, (hclimb _ _).mpr ⟨hlen, rfl, rfl⟩, rfl⟩, ?_⟩, by rwa [List.nil_append] at hstr⟩
    have hassert : Returns (assert ((spell slash cs.reverse).length ≤ size))
        (⟨u, buf.splice 0 size Bytes.zero⟩ : CwdCall) () ⟨u, buf.splice 0 size Bytes.zero⟩ :=
      (returns_assert _ _).mpr ⟨by rw [length_spell_reverse]; omega, rfl⟩
    simp only
    rw [returns_bind_iff hassert, returns_bind_iff hcopy, returns_bind_iff hfree']
    exact returns_pure.mpr ⟨rfl, rfl⟩
  · intro r c' hreturns
    obtain ⟨a, c, hclimbed, hrest⟩ := (hrun r c').mp hreturns
    obtain ⟨v, hv, rfl⟩ := returns_onFiles.mp hclimbed
    obtain ⟨hlen, rfl, rfl⟩ := (hclimb _ _).mp hv
    refine ⟨?_, hlen⟩
    simp only [returns_bind, returns_pure] at hrest
    obtain ⟨_, _, _, _, _, _, _, _, _, rfl, _⟩ := hrest
    rfl

end Call

namespace SmallTree

theorem slashFree : fs.SlashFree := by
  intro i hi e he
  have hroot : ∀ e ∈ rootEntries, slash ∉ e.filename := by decide
  have hsub : ∀ e ∈ subEntries, slash ∉ e.filename := by decide
  rcases mem_entries hi he with ⟨-, hmem⟩ | ⟨-, hmem⟩
  · exact hroot e hmem
  · exact hsub e hmem

theorem cwd_root : ∃ p, fs.tasks fs.cur = some p ∧ p.cwdInodeNr = 0 := ⟨_, rfl, rfl⟩

end SmallTree

end ZxyOs
