/-
  ZxyOs.User.ElfLoad

  The loader of executable files (`user/exec.c`).

  `load` reads the program headers of a file and has `segment_load` map the pages of each
  loadable segment and read its bytes into them.  Neither it nor `get_a_page` compares the
  addresses of a segment with the user half of the address space, and so the segments
  decide what is written (`load_confined_iff`).

  The file system is that of `Fs`; the page tables and the memory are those of the running
  process.  What must not be written ends the run with `Stop.overrun`; a page fault of the
  kernel ends it with `Stop.fault`.  `get_a_page` runs under the lock of its pool, which is
  left out, and so are the addresses of the frames.
-/

import ZxyOs.User.InodePool

namespace ZxyOs

open Lib Lib.Exec

/-! ## The address space -/

/-- `USER_VADDR_START` -/
def userVaddrStart : Nat := 0x8048000

/-- The bits of a process's `vaddr_bitmap`, one for each page from `USER_VADDR_START` to `0xc0000000`. -/
def userVaddrBits : Nat := (0xc0000000 - userVaddrStart) / 4096 / 8 * 8

/-- The address belongs to the program. -/
def UserAddr (a : Nat) : Prop := userVaddrStart ≤ a ∧ a < 0xc0000000

/-- The page belongs to the program; pages are known by their numbers. -/
def UserPage (p : Nat) : Prop := 0x8048 ≤ p ∧ p < 0xc0000

instance (a : Nat) : Decidable (UserAddr a) := inferInstanceAs (Decidable (_ ∧ _))

/-- The address space of the running process: which entries of the page directory and of the page tables are present,
    the memory from the bits of its `vaddr_bitmap` on, the two pools, and the bytes at its addresses. -/
structure UserSpace where
  pde : Nat → Bool
  pte : Nat → Bool
  vaddrBits : Nat → Bool
  userPool : Bitmap
  kernelPool : Bitmap
  mem : Nat → UInt8

/-- The page has a translation. -/
def UserSpace.present (u : UserSpace) (p : Nat) : Bool := u.pde (p / 1024) && u.pte p

/-- The file system and the address space of the running process. -/
structure Loader where
  fs : Fs
  space : UserSpace

/-- The kernel in `execv`. -/
abbrev LoaderM (α : Type) : Type := Exec Loader α

/-- A call of the file system; where it goes wrong, it is not the loader that does. -/
def fromFs {α : Type} (x : FsM α) : LoaderM α := fun s =>
  match x s.fs with
  | .ok (a, f) => .ok (a, { s with fs := f })
  | .error .overrun => .error .fault
  | .error e => .error e

/-- Change the address space. -/
def onSpace (f : UserSpace → UserSpace) : LoaderM Unit := update fun s => { s with space := f s.space }

/-- `palloc(&user_pool)`; `false` for `NULL`. -/
def pallocUser : LoaderM Bool := do
  let s ← query id
  match ← s.space.userPool.bitmapScan 1 with
  | none => return false
  | some i =>
    onSpace fun u => { u with userPool := u.userPool.bitmapSet i true }
    return true

/-- `palloc(&kernel_pool)`, whose result is not looked at. -/
def pallocKernel : LoaderM Unit := do
  let s ← query id
  match ← s.space.kernelPool.bitmapScan 1 with
  | none => return ()
  | some i => onSpace fun u => { u with kernelPool := u.kernelPool.bitmapSet i true }

/-- `page_table_add` -/
def pageTableAdd (p : Nat) : LoaderM Unit := do
  let s ← query id
  if s.space.pde (p / 1024) then do
    assert (s.space.pte p = false)
    onSpace fun u => { u with pte := Function.update u.pte p true }
  else do
    pallocKernel
    -- a new page table, which is cleared
    onSpace fun u =>
      { u with pde := Function.update u.pde (p / 1024) true
               pte := fun q => if q / 1024 = p / 1024 then q = p else u.pte q }

/-- `bit_idx` of `get_a_page` for page `p`, before it becomes an `int32_t`. -/
def pageBitIdx (p : Nat) : Nat := (p * 4096 + (2 ^ 32 - userVaddrStart)) % 2 ^ 32 / 4096

/-- Set a bit behind `vaddr_bitmap.bits`. -/
def UserSpace.setVaddrBit (i : Nat) (u : UserSpace) : UserSpace :=
  { u with vaddrBits := Function.update u.vaddrBits i true }

/-- `get_a_page(PF_USER, vaddr)` for page `p`; `false` for `NULL`. -/
def getAPage (p : Nat) : LoaderM Bool := do
  assert (pageBitIdx p < 2 ^ 31)
  fits (pageBitIdx p < userVaddrBits)
  onSpace (UserSpace.setVaddrBit (pageBitIdx p))
  let ok ← pallocUser
  if ok then do
    pageTableAdd p
    return true
  else
    return false

/-! ## A segment -/

/-- `occupied_pages` -/
def occupiedPages (vaddr filesz : Nat) : Nat :=
  let sizeInFirstPage := 4096 - vaddr % 4096
  if filesz > sizeInFirstPage then
    (filesz - sizeInFirstPage + 4095) % 2 ^ 32 / 4096 + 1
  else 1

/-- What `segment_load` does with one page. -/
def mapPage (p : Nat) : LoaderM Bool := do
  let s ← query id
  if s.space.present p then return true else getAPage p

/-- The loop of `segment_load` that maps the pages, with `n` left from `p` on. -/
def loadPages : Nat → Nat → LoaderM Bool
  | 0, _ => return true
  | n + 1, p => do
    let ok ← mapPage p
    if ok then loadPages n ((p + 1) % 2 ^ 20) else return false

/-- Store a byte. -/
def storeByte (a : Nat) (v : UInt8) : LoaderM Unit := do
  let s ← query id
  require (s.space.present (a / 4096) = true)
  fits (UserAddr a)
  onSpace fun u => { u with mem := Function.update u.mem a v }

/-- Store byte `i` and the `n - 1` ones behind it of what was read for `vaddr`. -/
def storeSegment (vaddr : Nat) (b : Bytes) : Nat → Nat → LoaderM Unit
  | 0, _ => return ()
  | n + 1, i => do
    storeByte ((vaddr + i) % 2 ^ 32) (b i)
    storeSegment vaddr b n (i + 1)

/-- A word of a file as `int32_t`. -/
def int32 (n : Nat) : Int := Int.bmod n (2 ^ 32)

/-- The calls of `segment_load` that read the segment; what is read goes to `vaddr`. -/
def readSegment (fd : Int) (offset filesz vaddr : Nat) : FsM (Int × Bytes) := do
  let _ ← sysLseek fd (int32 offset) 1
  assert (vaddr ≠ 0)
  sysRead fd filesz Bytes.zero

/-- `segment_load` -/
def segmentLoad (fd : Int) (offset filesz vaddr : Nat) : LoaderM Bool := do
  let ok ← loadPages (occupiedPages vaddr filesz) (vaddr / 4096)
  if ok then do
    let (r, b) ← fromFs (readSegment fd offset filesz vaddr)
    storeSegment vaddr b r.toNat 0
    return true
  else
    return false

/-! ## The file -/

/-- The little-endian half word at `off`. -/
def u16At (b : Bytes) (off : Nat) : Nat := (b off).toNat + 256 * (b (off + 1)).toNat

/-- The check of the ELF header. -/
def ehdrOk (b : Bytes) : Bool :=
  ((List.range 7).map b = [0x7f, 0x45, 0x4c, 0x46, 1, 1, 1]) && u16At b 16 = 2 && u16At b 18 = 3 && b.u32At 20 = 1 &&
    u16At b 44 ≤ 1024 && u16At b 42 = 32

/-- The fields of `struct Elf32_Phdr` that are looked at. -/
structure Phdr where
  pType : Nat
  pOffset : Nat
  pVaddr : Nat
  pFilesz : Nat

/-- The program header in a buffer. -/
def Phdr.decode (b : Bytes) : Phdr where
  pType := b.u32At 0
  pOffset := b.u32At 4
  pVaddr := b.u32At 8
  pFilesz := b.u32At 16

/-- The calls of `load` that read the program header at `phOffset`. -/
def readPhdr (fd : Int) (phOffset : Nat) : FsM (Int × Bytes) := do
  let _ ← sysLseek fd (int32 phOffset) 1
  sysRead fd 32 Bytes.zero

/-- The loop of `load` over the program headers, with `n` left. -/
def loadSegments (fd : Int) : Nat → Nat → LoaderM Bool
  | 0, _ => return true
  | n + 1, phOffset => do
    let (r, b) ← fromFs (readPhdr fd phOffset)
    if r ≠ 32 then
      return false
    else if (Phdr.decode b).pType = 1 then do
      let ok ← segmentLoad fd (Phdr.decode b).pOffset (Phdr.decode b).pFilesz (Phdr.decode b).pVaddr
      if ok then loadSegments fd n ((phOffset + 32) % 2 ^ 32) else return false
    else
      loadSegments fd n ((phOffset + 32) % 2 ^ 32)

/-- `load`: the entry point, or -1. -/
def load (pathname : CStr) : LoaderM Int := do
  let fd ← fromFs (sysOpen pathname 0)
  if fd = -1 then
    return -1
  else do
    let (r, b) ← fromFs (sysRead fd 52 Bytes.zero)
    if r = 52 ∧ ehdrOk b then do
      let ok ← loadSegments fd (u16At b 44) (b.u32At 28)
      let _ ← fromFs (sysClose fd)
      return if ok then int32 (b.u32At 24) else -1
    else do
      let _ ← fromFs (sysClose fd)
      return -1

/-! ## What is asked for -/

/-- A loadable segment as the file system delivers it: where it is to go, how long it is said to be, and how many of
    its bytes are read. -/
structure Segment where
  vaddr : Nat
  filesz : Nat
  read : Nat

/-- The segments of the program headers from `phOffset` on, up to the first that cannot be read. -/
def segmentsFrom (fd : Int) : Nat → Nat → Fs → List Segment
  | 0, _, _ => []
  | n + 1, phOffset, s =>
    match readPhdr fd phOffset s with
    | .error _ => []
    | .ok ((r, b), s₁) =>
      let p := Phdr.decode b
      if r ≠ 32 then []
      else if p.pType = 1 then
        match readSegment fd p.pOffset p.pFilesz p.pVaddr s₁ with
        | .error _ => [⟨p.pVaddr, p.pFilesz, 0⟩]
        | .ok ((r', _), s₂) => ⟨p.pVaddr, p.pFilesz, r'.toNat⟩ :: segmentsFrom fd n ((phOffset + 32) % 2 ^ 32) s₂
      else segmentsFrom fd n ((phOffset + 32) % 2 ^ 32) s₁

/-- The segments of the file `pathname`, none where its header does not pass the check. -/
def segments (pathname : CStr) (s : Fs) : List Segment :=
  match sysOpen pathname 0 s with
  | .error _ => []
  | .ok (fd, s₁) =>
    if fd = -1 then []
    else
      match sysRead fd 52 Bytes.zero s₁ with
      | .error _ => []
      | .ok ((r, b), s₂) => if r = 52 ∧ ehdrOk b then segmentsFrom fd (u16At b 44) (b.u32At 28) s₂ else []

/-- The pages of the segment and the bytes read of it lie where the program may be. -/
structure Segment.Inside (seg : Segment) : Prop where
  pages : ∀ k < occupiedPages seg.vaddr seg.filesz, UserPage ((seg.vaddr / 4096 + k) % 2 ^ 20)
  bytes : ∀ i < seg.read, UserAddr ((seg.vaddr + i) % 2 ^ 32)

/-- Outside the user half nothing has changed, nor behind the bits of the bitmap. -/
structure SameOutside (u u' : UserSpace) : Prop where
  mem : ∀ a, ¬ UserAddr a → u'.mem a = u.mem a
  vaddrBits : ∀ i, userVaddrBits ≤ i → u'.vaddrBits i = u.vaddrBits i
  present : ∀ p, ¬ UserPage p → u'.present p = u.present p

/-- `load` in the address space `u` writes nothing but pages of the program and bits of its bitmap. -/
def Confined (s : Fs) (pathname : CStr) (u : UserSpace) : Prop :=
  ContainedAt (fun t => SameOutside u t.space) (load pathname) ⟨s, u⟩

/-! ## The file system and the address space -/

section Lift

variable {α : Type} {x : FsM α} {s t : Loader} {a : α}

theorem returns_fromFs : Returns (fromFs x) s a t ↔ ∃ f, Returns x s.fs a f ∧ t = { s with fs := f } := by
  simp only [Returns, fromFs]
  split
  · next b f h =>
    simp only [Except.ok.injEq, Prod.mk.injEq, h]
    constructor
    · rintro ⟨rfl, rfl⟩
      exact ⟨f, ⟨rfl, rfl⟩, rfl⟩
    · rintro ⟨f', ⟨rfl, rfl⟩, rfl⟩
      exact ⟨rfl, rfl⟩
  · next h => simp [h]
  · next e _ h => simp [h]

theorem not_stops_fromFs : ¬ Stops (fromFs x) s .overrun := by
  simp only [Stops, fromFs]
  split
  · rintro ⟨⟩
  · rintro ⟨⟩
  · next e hne h =>
    intro he
    exact hne (Except.error.inj he)

theorem contained_fromFs {Q : Loader → Prop} {β : Type} {f : α → LoaderM β}
    (h : ∀ a g, Returns x s.fs a g → ContainedAt Q (f a) { s with fs := g }) : ContainedAt Q (fromFs x >>= f) s := by
  rw [containedAt_bind]
  refine ⟨not_stops_fromFs, fun a t ht => ?_⟩
  obtain ⟨g, hg, rfl⟩ := returns_fromFs.mp ht
  exact h a g hg

end Lift

namespace SameOutside

instance : Std.Refl SameOutside := ⟨fun _ => ⟨fun _ _ => rfl, fun _ _ => rfl, fun _ _ => rfl⟩⟩

instance : IsTrans UserSpace SameOutside := ⟨fun _ _ _ h h' =>
  ⟨fun a ha => (h'.mem a ha).trans (h.mem a ha), fun i hi => (h'.vaddrBits i hi).trans (h.vaddrBits i hi),
    fun p hp => (h'.present p hp).trans (h.present p hp)⟩⟩

end SameOutside

/-! ## What stays inside -/

/-- The file system is in the state `f`, and outside the user half the address space is as in `u`. -/
def OutsideKept (u : UserSpace) (f : Fs) (s : Loader) : Prop := SameOutside u s.space ∧ s.fs = f

section Inside

variable {u : UserSpace} {f : Fs} {p vaddr filesz : Nat}

theorem contained_onSpace {g : UserSpace → UserSpace} (hg : ∀ v, SameOutside v (g v)) :
    Contained (OutsideKept u f) (onSpace g) :=
  contained_update fun s hs => ⟨trans_of SameOutside hs.1 (hg s.space), hs.2⟩

theorem contained_pallocUser : Contained (OutsideKept u f) pallocUser := by
  refine (contained_query _).bind fun s => Bitmap.contained_bitmapScan.bind fun i => ?_
  cases i with
  | none => exact contained_pure _
  | some i =>
    dsimp only
    refine (contained_onSpace fun v => ?_).bind fun _ => contained_pure _
    exact ⟨fun _ _ => rfl, fun _ _ => rfl, fun _ _ => rfl⟩

theorem contained_pallocKernel : Contained (OutsideKept u f) pallocKernel := by
  refine (contained_query _).bind fun s => Bitmap.contained_bitmapScan.bind fun i => ?_
  cases i with
  | none => exact contained_pure _
  | some i => exact contained_onSpace fun _ => ⟨fun _ _ => rfl, fun _ _ => rfl, fun _ _ => rfl⟩

/-- The tables are the same. -/
def SameTablesOf (s t : Loader) : Prop := t.space.pde = s.space.pde ∧ t.space.pte = s.space.pte

instance : Std.Refl SameTablesOf := ⟨fun _ => ⟨rfl, rfl⟩⟩

instance : IsTrans Loader SameTablesOf := ⟨fun _ _ _ h h' => ⟨h'.1.trans h.1, h'.2.trans h.2⟩⟩

theorem keeps_pallocKernel : Keeps SameTablesOf pallocKernel := by
  have hscan (b : Bitmap) : Keeps SameTablesOf (b.bitmapScan 1 : LoaderM (Option Nat)) := by
    intro s i t h
    obtain ⟨rfl, -⟩ := Bitmap.returns_bitmapScan_one.mp h
    exact ⟨rfl, rfl⟩
  refine (keeps_query _).bind fun s => (hscan _).bind fun i => ?_
  cases i with
  | none => exact keeps_pure _
  | some i => exact keeps_update fun _ => ⟨rfl, rfl⟩

theorem contained_pageTableAdd (hp : UserPage p) : Contained (OutsideKept u f) (pageTableAdd p) := by
  intro s hs
  rw [pageTableAdd, containedAt_bind]
  refine ⟨by rintro ⟨⟩, fun s' t ht => ?_⟩
  obtain ⟨rfl, rfl⟩ := (returns_query id).mp ht
  split
  · refine (contained_assert _).bind (fun _ => contained_onSpace fun v => ?_) hs
    refine ⟨fun _ _ => rfl, fun _ _ => rfl, fun q hq => ?_⟩
    have hne : q ≠ p := fun h => hq (h ▸ hp)
    simp only [UserSpace.present, Function.update_of_ne hne]
  · next hpde =>
    rw [containedAt_bind]
    refine ⟨(contained_pallocKernel hs).1, fun _ t ht => ?_⟩
    obtain ⟨hsame, hfs⟩ := (contained_pallocKernel hs).2 ht
    obtain ⟨hpdes, hptes⟩ := keeps_pallocKernel ht
    refine ⟨by rintro ⟨⟩, fun _ t' ht' => ?_⟩
    obtain rfl := (returns_update _ _).mp ht'
    refine ⟨⟨hsame.mem, hsame.vaddrBits, fun q hq => ?_⟩, hfs⟩
    rw [← hsame.present q hq]
    have hne : q ≠ p := fun h => hq (h ▸ hp)
    by_cases htable : q / 1024 = p / 1024
    · -- no page of a table that was not there had a translation
      have hnone : t.space.pde (p / 1024) = false := by
        rw [hpdes]
        exact Bool.eq_false_iff.mpr hpde
      simp [UserSpace.present, htable, hne, hnone]
    · simp [UserSpace.present, htable]

theorem pageBitIdx_lt (hp : UserPage p) : pageBitIdx p < userVaddrBits := by
  simp only [UserPage, pageBitIdx, userVaddrStart, userVaddrBits] at hp ⊢
  omega

theorem contained_getAPage (hp : UserPage p) : Contained (OutsideKept u f) (getAPage p) := by
  have hbit := pageBitIdx_lt hp
  refine (contained_assert _).bind fun _ => (contained_fits hbit).bind fun _ =>
    (contained_onSpace fun v => ?_).bind fun _ => contained_pallocUser.bind fun ok => ?_
  · refine ⟨fun _ _ => rfl, fun i hi => ?_, fun _ _ => rfl⟩
    exact Function.update_of_ne (by omega) ..
  · split
    · exact (contained_pageTableAdd hp).bind fun _ => contained_pure _
    · exact contained_pure _

theorem contained_mapPage (hp : UserPage p) : Contained (OutsideKept u f) (mapPage p) := by
  refine (contained_query _).bind fun s => ?_
  split
  · exact contained_pure _
  · exact contained_getAPage hp

theorem contained_loadPages {n : Nat} (hp : ∀ k < n, UserPage ((p + k) % 2 ^ 20)) (hlt : p < 2 ^ 20) :
    Contained (OutsideKept u f) (loadPages n p) := by
  induction n generalizing p with
  | zero => exact contained_pure _
  | succ n ih =>
    have hfirst : UserPage p := by
      have h := hp 0 (by omega)
      rwa [Nat.add_zero, Nat.mod_eq_of_lt hlt] at h
    rw [loadPages]
    refine (contained_mapPage hfirst).bind fun ok => ?_
    split
    · refine ih (fun k hk => ?_) (by omega)
      have h := hp (k + 1) (by omega)
      rwa [show (p + (k + 1)) % 2 ^ 20 = ((p + 1) % 2 ^ 20 + k) % 2 ^ 20 by omega] at h
    · exact contained_pure _

theorem contained_storeByte {a : Nat} {v : UInt8} (ha : UserAddr a) : Contained (OutsideKept u f) (storeByte a v) := by
  refine (contained_query _).bind fun s => (contained_require _).bind fun _ => (contained_fits ha).bind fun _ =>
    contained_onSpace fun w => ⟨fun a' ha' => ?_, fun _ _ => rfl, fun _ _ => rfl⟩
  have hne : a' ≠ a := fun heq => ha' (heq ▸ ha)
  exact Function.update_of_ne hne ..

theorem contained_storeSegment {b : Bytes} {n i : Nat} (h : ∀ k < n, UserAddr ((vaddr + (i + k)) % 2 ^ 32)) :
    Contained (OutsideKept u f) (storeSegment vaddr b n i) := by
  induction n generalizing i with
  | zero => exact contained_pure _
  | succ n ih =>
    rw [storeSegment]
    refine (contained_storeByte (h 0 (by omega))).bind fun _ => ih fun k hk => ?_
    have hk := h (k + 1) (by omega)
    rwa [show i + (k + 1) = i + 1 + k by omega] at hk

/-- A segment inside stays inside, and where it is loaded it has been read. -/
theorem segmentLoad_inside {fd : Int} {offset : Nat} {s : Loader} (hlt : vaddr < 2 ^ 32)
    (hpages : ∀ k < occupiedPages vaddr filesz, UserPage ((vaddr / 4096 + k) % 2 ^ 20))
    (hbytes : ∀ r b g, Returns (readSegment fd offset filesz vaddr) s.fs (r, b) g →
      ∀ i < r.toNat, UserAddr ((vaddr + i) % 2 ^ 32)) :
    ¬ Stops (segmentLoad fd offset filesz vaddr) s .overrun ∧
      ∀ ok t, Returns (segmentLoad fd offset filesz vaddr) s ok t → SameOutside s.space t.space ∧
        (ok = true → ∃ r b, Returns (readSegment fd offset filesz vaddr) s.fs (r, b) t.fs) := by
  have hload := contained_loadPages (u := s.space) (f := s.fs) hpages (by omega) ⟨refl_of SameOutside _, rfl⟩
  have hstore : ∀ r b g t, Returns (readSegment fd offset filesz vaddr) s.fs (r, b) g →
      SameOutside s.space t.space → ContainedAt (OutsideKept s.space t.fs) (storeSegment vaddr b r.toNat 0) t := by
    intro r b g t hg ht
    refine contained_storeSegment (fun k hk => ?_) ⟨ht, rfl⟩
    rw [Nat.zero_add]
    exact hbytes r b g hg k hk
  constructor
  · intro h
    rcases stops_bind.mp h with h | ⟨ok, t, ht, h⟩
    · exact hload.1 h
    obtain ⟨hsame, hfs⟩ := hload.2 ht
    split at h
    · rcases stops_bind.mp h with h | ⟨⟨r, b⟩, t', ht', h⟩
      · exact not_stops_fromFs h
      obtain ⟨g, hg, rfl⟩ := returns_fromFs.mp ht'
      rw [hfs] at hg
      rcases stops_bind.mp h with h | ⟨_, t'', -, h⟩
      · exact (hstore r b g { t with fs := g } hg hsame).1 h
      · cases h
    · cases h
  · intro ok t h
    obtain ⟨ok', t₁, ht₁, h⟩ := returns_bind.mp h
    obtain ⟨hsame, hfs⟩ := hload.2 ht₁
    split at h
    · obtain ⟨⟨r, b⟩, t₂, ht₂, h⟩ := returns_bind.mp h
      obtain ⟨g, hg, rfl⟩ := returns_fromFs.mp ht₂
      rw [hfs] at hg
      obtain ⟨_, t₃, ht₃, h⟩ := returns_bind.mp h
      obtain ⟨-, rfl⟩ := returns_pure.mp h
      obtain ⟨hsame₃, hfs₃⟩ := (hstore r b g { t₁ with fs := g } hg hsame).2 ht₃
      exact ⟨hsame₃, fun _ => ⟨r, b, hfs₃.symm ▸ hg⟩⟩
    · obtain ⟨rfl, rfl⟩ := returns_pure.mp h
      exact ⟨hsame, nofun⟩

theorem contained_loadSegments {fd : Int} {n phOffset : Nat} {s : Loader} (hu : SameOutside u s.space)
    (hin : ∀ seg ∈ segmentsFrom fd n phOffset s.fs, seg.Inside) :
    ContainedAt (fun t => SameOutside u t.space) (loadSegments fd n phOffset) s := by
  induction n generalizing phOffset s with
  | zero =>
    refine ⟨nofun, fun ok t h => ?_⟩
    obtain ⟨-, rfl⟩ := returns_pure.mp h
    exact hu
  | succ n ih =>
    have hstay (r : Bool) (t : Loader) (ht : SameOutside u t.space) :
        ContainedAt (fun t => SameOutside u t.space) (pure r : LoaderM Bool) t := by
      refine ⟨nofun, fun ok t' h => ?_⟩
      obtain ⟨-, rfl⟩ := returns_pure.mp h
      exact ht
    rw [loadSegments]
    refine contained_fromFs fun ⟨r, b⟩ g hg => ?_
    have hread : readPhdr fd phOffset s.fs = .ok ((r, b), g) := hg
    simp only [segmentsFrom, hread] at hin
    dsimp only
    split
    · exact hstay _ _ hu
    · next hr =>
      rw [if_neg hr] at hin
      split
      · next htype =>
        rw [if_pos htype] at hin
        have hlt : (Phdr.decode b).pVaddr < 2 ^ 32 := Bytes.u32At_lt _ _
        rw [containedAt_bind]
        cases hseg : readSegment fd (Phdr.decode b).pOffset (Phdr.decode b).pFilesz (Phdr.decode b).pVaddr g with
        | error e =>
          rw [hseg] at hin
          have hfirst := hin _ List.mem_cons_self
          obtain ⟨hstop, hkeep⟩ := segmentLoad_inside (s := { s with fs := g }) hlt hfirst.pages
            fun r' b' g' hg' => by cases hseg.symm.trans hg'
          refine ⟨hstop, fun ok t ht => ?_⟩
          obtain ⟨hsame, htrue⟩ := hkeep ok t ht
          split
          · next hok =>
            obtain ⟨r', b', hg'⟩ := htrue hok
            cases hseg.symm.trans hg'
          · exact hstay _ _ (trans_of SameOutside hu hsame)
        | ok res =>
          obtain ⟨⟨r', b'⟩, g₂⟩ := res
          rw [hseg] at hin
          have hfirst := hin _ List.mem_cons_self
          obtain ⟨hstop, hkeep⟩ := segmentLoad_inside (s := { s with fs := g }) hlt hfirst.pages
            fun r'' b'' g' hg' => by
              obtain ⟨h, -⟩ := Returns.unique hseg hg'
              obtain ⟨rfl, -⟩ := Prod.mk.inj h
              exact hfirst.bytes
          refine ⟨hstop, fun ok t ht => ?_⟩
          obtain ⟨hsame, htrue⟩ := hkeep ok t ht
          have hut := trans_of SameOutside hu hsame
          split
          · next hok =>
            obtain ⟨r'', b'', hg'⟩ := htrue hok
            obtain ⟨-, hfs⟩ := Returns.unique hseg hg'
            rw [hfs] at hin
            exact ih hut fun seg hmem => hin seg (List.mem_cons_of_mem _ hmem)
          · exact hstay _ _ hut
      · next htype =>
        rw [if_neg htype] at hin
        exact ih hu hin

theorem contained_load {pathname : CStr} (hin : ∀ seg ∈ segments pathname f, seg.Inside) : Confined f pathname u := by
  have hstay (r : Int) (t : Loader) (ht : SameOutside u t.space) :
      ContainedAt (fun t => SameOutside u t.space) (pure r : LoaderM Int) t := by
    refine ⟨nofun, fun r' t' h => ?_⟩
    obtain ⟨-, rfl⟩ := returns_pure.mp h
    exact ht
  rw [Confined, load]
  refine contained_fromFs fun fd g hg => ?_
  have hopen : sysOpen pathname 0 f = .ok (fd, g) := hg
  simp only [segments, hopen] at hin
  split
  · exact hstay _ _ (refl_of SameOutside _)
  · next hfd =>
    rw [if_neg hfd] at hin
    refine contained_fromFs fun ⟨r, b⟩ g' hg' => ?_
    have hread : sysRead fd 52 Bytes.zero g = .ok ((r, b), g') := hg'
    simp only [hread] at hin
    dsimp only
    split
    · next hok =>
      rw [if_pos hok] at hin
      rw [containedAt_bind]
      obtain ⟨hstop, hkeep⟩ := contained_loadSegments (s := ⟨g', u⟩) (refl_of SameOutside _) hin
      refine ⟨hstop, fun ok t ht => ?_⟩
      have hsame : SameOutside u t.space := hkeep ht
      exact contained_fromFs fun _ _ _ => hstay _ _ hsame
    · exact contained_fromFs fun _ _ _ => hstay _ _ (refl_of SameOutside _)

end Inside

/-! ## What does not stay inside -/

section Outside

variable {s : Loader} {n p vaddr filesz : Nat}

theorem not_stops_rest {σ α β : Type} {x : Exec σ α} {g : α → Exec σ β} {s t : σ} {a : α} {e : Stop}
    (h : ¬ Stops (x >>= g) s e) (hx : Returns x s a t) : ¬ Stops (g a) t e :=
  fun hg => h (stops_bind.mpr (Or.inr ⟨a, t, hx, hg⟩))

theorem returns_mapPage (hp : s.space.present p = true) : Returns (mapPage p) s true s := by
  rw [mapPage]
  refine returns_bind.mpr ⟨s, s, (returns_query id).mpr ⟨rfl, rfl⟩, ?_⟩
  rw [if_pos hp]
  exact returns_pure.mpr ⟨rfl, rfl⟩

/-- Pages that have a translation are left as they are. -/
theorem returns_loadPages (hlt : p < 2 ^ 20) (hp : ∀ k < n, s.space.present ((p + k) % 2 ^ 20) = true) :
    Returns (loadPages n p) s true s := by
  induction n generalizing p with
  | zero => exact returns_pure.mpr ⟨rfl, rfl⟩
  | succ n ih =>
    have hfirst := hp 0 (by omega)
    rw [Nat.add_zero, Nat.mod_eq_of_lt hlt] at hfirst
    rw [loadPages]
    refine returns_bind.mpr ⟨true, s, returns_mapPage hfirst, ih (by omega) fun k hk => ?_⟩
    have h := hp (k + 1) (by omega)
    rwa [show (p + (k + 1)) % 2 ^ 20 = ((p + 1) % 2 ^ 20 + k) % 2 ^ 20 by omega] at h

theorem le_pageBitIdx (hlt : p < 2 ^ 20) (hp : ¬ UserPage p) :
    userVaddrBits ≤ pageBitIdx p ∧ pageBitIdx p < 2 ^ 31 := by
  simp only [UserPage, pageBitIdx, userVaddrStart, userVaddrBits] at hp ⊢
  omega

/-- `get_a_page` has a bit set for any page. -/
theorem stops_getAPage (hlt : p < 2 ^ 20) (hp : ¬ UserPage p) : Stops (getAPage p) s .overrun := by
  obtain ⟨hle, hpos⟩ := le_pageBitIdx hlt hp
  have hout : Stops (fits (pageBitIdx p < userVaddrBits) : LoaderM Unit) s .overrun := by
    rw [fits, if_neg (by omega)]
    rfl
  exact stops_bind.mpr (Or.inr ⟨(), s, (returns_assert _ _).mpr ⟨hpos, rfl⟩, stops_bind.mpr (Or.inl hout)⟩)

/-- Where the user half is all there is, the first page outside it is asked for. -/
theorem stops_loadPages (hpresent : ∀ q, s.space.present q = true ↔ UserPage q) (hlt : p < 2 ^ 20)
    (hp : ∃ k < n, ¬ UserPage ((p + k) % 2 ^ 20)) : Stops (loadPages n p) s .overrun := by
  induction n generalizing p with
  | zero =>
    obtain ⟨k, hk, -⟩ := hp
    omega
  | succ n ih =>
    rw [loadPages]
    by_cases hfirst : UserPage p
    · refine stops_bind.mpr (Or.inr ⟨true, s, returns_mapPage ((hpresent p).mpr hfirst), ih (by omega) ?_⟩)
      obtain ⟨k, hk, hout⟩ := hp
      cases k with
      | zero =>
        rw [Nat.add_zero, Nat.mod_eq_of_lt hlt] at hout
        exact absurd hfirst hout
      | succ k =>
        refine ⟨k, by omega, ?_⟩
        rwa [show (p + (k + 1)) % 2 ^ 20 = ((p + 1) % 2 ^ 20 + k) % 2 ^ 20 by omega] at hout
    · refine stops_bind.mpr (Or.inl (stops_bind.mpr (Or.inr ⟨s, s, (returns_query id).mpr ⟨rfl, rfl⟩, ?_⟩)))
      rw [if_neg fun h => hfirst ((hpresent p).mp h)]
      exact stops_getAPage hlt hfirst

theorem userPage_of_userAddr {a : Nat} (h : UserAddr a) : UserPage (a / 4096) := by
  simp only [UserAddr, UserPage, userVaddrStart] at h ⊢
  omega

theorem returns_storeByte {a : Nat} {v : UInt8} (hp : s.space.present (a / 4096) = true) (ha : UserAddr a) :
    ∃ t, Returns (storeByte a v) s () t ∧ t.fs = s.fs ∧ t.space.present = s.space.present := by
  refine ⟨_, returns_bind.mpr ⟨s, s, (returns_query id).mpr ⟨rfl, rfl⟩, returns_bind.mpr
    ⟨(), s, (returns_require _ _).mpr ⟨hp, rfl⟩, returns_bind.mpr ⟨(), s, (returns_fits _ _).mpr ⟨ha, rfl⟩,
      (returns_update _ _).mpr rfl⟩⟩⟩, rfl, rfl⟩

theorem returns_storeSegment {b : Bytes} {i : Nat} (hpresent : ∀ q, UserPage q → s.space.present q = true)
    (h : ∀ k < n, UserAddr ((vaddr + (i + k)) % 2 ^ 32)) :
    ∃ t, Returns (storeSegment vaddr b n i) s () t ∧ t.fs = s.fs ∧ t.space.present = s.space.present := by
  induction n generalizing i s with
  | zero => exact ⟨s, returns_pure.mpr ⟨rfl, rfl⟩, rfl, rfl⟩
  | succ n ih =>
    have hfirst : UserAddr ((vaddr + i) % 2 ^ 32) := h 0 (by omega)
    obtain ⟨t, ht, hfs, hsame⟩ := returns_storeByte (v := b i) (hpresent _ (userPage_of_userAddr hfirst)) hfirst
    obtain ⟨t', ht', hfs', hsame'⟩ := ih (s := t) (i := i + 1) (fun q hq => by rw [hsame]; exact hpresent q hq)
      fun k hk => by
        have hk := h (k + 1) (by omega)
        rwa [show i + (k + 1) = i + 1 + k by omega] at hk
    rw [storeSegment]
    exact ⟨t', returns_bind.mpr ⟨(), t, ht, ht'⟩, hfs'.trans hfs, hsame'.trans hsame⟩

/-- Where all pages are there, the first byte outside the user half is stored. -/
theorem stops_storeSegment {b : Bytes} {i : Nat} (hpresent : ∀ q, s.space.present q = true)
    (h : ∃ k < n, ¬ UserAddr ((vaddr + (i + k)) % 2 ^ 32)) : Stops (storeSegment vaddr b n i) s .overrun := by
  induction n generalizing i s with
  | zero =>
    obtain ⟨k, hk, -⟩ := h
    omega
  | succ n ih =>
    rw [storeSegment]
    by_cases hfirst : UserAddr ((vaddr + i) % 2 ^ 32)
    · obtain ⟨t, ht, -, hsame⟩ := returns_storeByte (v := b i) (hpresent _) hfirst
      refine stops_bind.mpr (Or.inr ⟨(), t, ht, ih (fun q => by rw [hsame]; exact hpresent q) ?_⟩)
      obtain ⟨k, hk, hout⟩ := h
      cases k with
      | zero => exact absurd hfirst hout
      | succ k =>
        refine ⟨k, by omega, ?_⟩
        rwa [show i + (k + 1) = i + 1 + k by omega] at hout
    · have hout : Stops (fits (UserAddr ((vaddr + i) % 2 ^ 32)) : LoaderM Unit) s .overrun := by
        rw [fits, if_neg hfirst]
        rfl
      exact stops_bind.mpr (Or.inl (stops_bind.mpr (Or.inr ⟨s, s, (returns_query id).mpr ⟨rfl, rfl⟩,
        stops_bind.mpr (Or.inr ⟨(), s, (returns_require _ _).mpr ⟨hpresent _, rfl⟩,
          stops_bind.mpr (Or.inl hout)⟩)⟩)))

/-- A segment that is loaded without leaving the user half, both where only that has pages and where all pages are
    there, is inside; and it is loaded in both. -/
theorem inside_of_segmentLoad {fd : Int} {offset : Nat} {g : Fs} {u₁ u₂ : UserSpace} (hlt : vaddr < 2 ^ 32)
    (h₁ : ∀ q, u₁.present q = true ↔ UserPage q) (h₂ : ∀ q, u₂.present q = true)
    (hs₁ : ¬ Stops (segmentLoad fd offset filesz vaddr) ⟨g, u₁⟩ .overrun)
    (hs₂ : ¬ Stops (segmentLoad fd offset filesz vaddr) ⟨g, u₂⟩ .overrun) :
    (∀ k < occupiedPages vaddr filesz, UserPage ((vaddr / 4096 + k) % 2 ^ 20)) ∧
      ∀ r b g', Returns (readSegment fd offset filesz vaddr) g (r, b) g' →
        (∀ i < r.toNat, UserAddr ((vaddr + i) % 2 ^ 32)) ∧
        (∃ u, Returns (segmentLoad fd offset filesz vaddr) ⟨g, u₁⟩ true ⟨g', u⟩ ∧ u.present = u₁.present) ∧
        ∃ u, Returns (segmentLoad fd offset filesz vaddr) ⟨g, u₂⟩ true ⟨g', u⟩ ∧ u.present = u₂.present := by
  have hpages : ∀ k < occupiedPages vaddr filesz, UserPage ((vaddr / 4096 + k) % 2 ^ 20) := by
    by_contra hout
    push Not at hout
    exact hs₁ (stops_bind.mpr (Or.inl (stops_loadPages h₁ (by omega) hout)))
  refine ⟨hpages, fun r b g' hg' => ?_⟩
  have hread (u : UserSpace) : Returns (fromFs (readSegment fd offset filesz vaddr)) ⟨g, u⟩ (r, b) ⟨g', u⟩ :=
    returns_fromFs.mpr ⟨g', hg', rfl⟩
  have hload₁ : Returns (loadPages (occupiedPages vaddr filesz) (vaddr / 4096)) ⟨g, u₁⟩ true ⟨g, u₁⟩ :=
    returns_loadPages (by omega) fun k hk => (h₁ _).mpr (hpages k hk)
  have hload₂ : Returns (loadPages (occupiedPages vaddr filesz) (vaddr / 4096)) ⟨g, u₂⟩ true ⟨g, u₂⟩ :=
    returns_loadPages (by omega) fun k _ => h₂ _
  have hbytes : ∀ i < r.toNat, UserAddr ((vaddr + (0 + i)) % 2 ^ 32) := by
    by_contra hout
    push Not at hout
    have hstore : Stops (storeSegment vaddr b r.toNat 0) ⟨g', u₂⟩ .overrun := stops_storeSegment h₂ hout
    rw [segmentLoad] at hs₂
    have hrest := not_stops_rest hs₂ hload₂
    rw [if_pos rfl] at hrest
    have hrest := not_stops_rest hrest (hread u₂)
    exact hrest (stops_bind.mpr (Or.inl hstore))
  have hdone (u : UserSpace) (hu : ∀ q, UserPage q → u.present q = true)
      (hload : Returns (loadPages (occupiedPages vaddr filesz) (vaddr / 4096)) ⟨g, u⟩ true ⟨g, u⟩) :
      ∃ u', Returns (segmentLoad fd offset filesz vaddr) ⟨g, u⟩ true ⟨g', u'⟩ ∧ u'.present = u.present := by
    obtain ⟨⟨gt, ut⟩, ht, rfl, hsame⟩ := returns_storeSegment (s := ⟨g', u⟩) (b := b) hu hbytes
    refine ⟨ut, returns_bind.mpr ⟨true, _, hload, returns_bind.mpr ⟨(r, b), _, hread u, ?_⟩⟩, hsame⟩
    exact returns_bind.mpr ⟨(), _, ht, returns_pure.mpr ⟨rfl, rfl⟩⟩
  refine ⟨fun i hi => ?_, hdone u₁ (fun q hq => (h₁ q).mpr hq) hload₁, hdone u₂ (fun q _ => h₂ q) hload₂⟩
  have h := hbytes i hi
  rwa [Nat.zero_add] at h

theorem inside_of_loadSegments {fd : Int} {phOffset : Nat} {g : Fs} {u₁ u₂ : UserSpace}
    (h₁ : ∀ q, u₁.present q = true ↔ UserPage q) (h₂ : ∀ q, u₂.present q = true)
    (hs₁ : ¬ Stops (loadSegments fd n phOffset) ⟨g, u₁⟩ .overrun)
    (hs₂ : ¬ Stops (loadSegments fd n phOffset) ⟨g, u₂⟩ .overrun) :
    ∀ seg ∈ segmentsFrom fd n phOffset g, seg.Inside := by
  induction n generalizing phOffset g u₁ u₂ with
  | zero => exact nofun
  | succ n ih =>
    rw [loadSegments] at hs₁ hs₂
    cases hread : readPhdr fd phOffset g with
    | error e =>
      simp only [segmentsFrom, hread]
      exact nofun
    | ok res =>
      obtain ⟨⟨r, b⟩, g₁⟩ := res
      have hfs (u : UserSpace) : Returns (fromFs (readPhdr fd phOffset)) ⟨g, u⟩ (r, b) ⟨g₁, u⟩ :=
        returns_fromFs.mpr ⟨g₁, hread, rfl⟩
      have hs₁ := not_stops_rest hs₁ (hfs u₁)
      have hs₂ := not_stops_rest hs₂ (hfs u₂)
      simp only [segmentsFrom, hread]
      dsimp only at hs₁ hs₂
      split
      · exact nofun
      next hr =>
      rw [if_neg hr] at hs₁ hs₂
      split
      · next htype =>
        rw [if_pos htype] at hs₁ hs₂
        obtain ⟨hpages, hrest⟩ := inside_of_segmentLoad (Bytes.u32At_lt _ _) h₁ h₂
          (fun h => hs₁ (stops_bind.mpr (Or.inl h))) (fun h => hs₂ (stops_bind.mpr (Or.inl h)))
        cases hseg : readSegment fd (Phdr.decode b).pOffset (Phdr.decode b).pFilesz (Phdr.decode b).pVaddr g₁ with
        | error e =>
          intro seg hmem
          obtain rfl := List.mem_singleton.mp hmem
          exact ⟨hpages, fun i hi => absurd hi (Nat.not_lt_zero _)⟩
        | ok res =>
          obtain ⟨⟨r', b'⟩, g₂⟩ := res
          obtain ⟨hbytes, ⟨v₁, hv₁, hsame₁⟩, v₂, hv₂, hsame₂⟩ := hrest r' b' g₂ hseg
          intro seg hmem
          rcases List.mem_cons.mp hmem with rfl | hmem
          · exact ⟨hpages, hbytes⟩
          · have hs₁ := not_stops_rest hs₁ hv₁
            have hs₂ := not_stops_rest hs₂ hv₂
            rw [if_pos rfl] at hs₁ hs₂
            exact ih (fun q => by rw [hsame₁]; exact h₁ q) (fun q => by rw [hsame₂]; exact h₂ q) hs₁ hs₂ seg hmem
      · next htype =>
        rw [if_neg htype] at hs₁ hs₂
        exact ih h₁ h₂ hs₁ hs₂

theorem inside_of_load {pathname : CStr} {g : Fs} {u₁ u₂ : UserSpace} (h₁ : ∀ q, u₁.present q = true ↔ UserPage q)
    (h₂ : ∀ q, u₂.present q = true) (hs₁ : ¬ Stops (load pathname) ⟨g, u₁⟩ .overrun)
    (hs₂ : ¬ Stops (load pathname) ⟨g, u₂⟩ .overrun) : ∀ seg ∈ segments pathname g, seg.Inside := by
  cases hopen : sysOpen pathname 0 g with
  | error e =>
    simp only [segments, hopen]
    exact nofun
  | ok res =>
    obtain ⟨fd, g₁⟩ := res
    have hfs (u : UserSpace) : Returns (fromFs (sysOpen pathname 0)) ⟨g, u⟩ fd ⟨g₁, u⟩ :=
      returns_fromFs.mpr ⟨g₁, hopen, rfl⟩
    have hs₁ := not_stops_rest hs₁ (hfs u₁)
    have hs₂ := not_stops_rest hs₂ (hfs u₂)
    simp only [segments, hopen]
    split
    · exact nofun
    next hfd =>
    rw [if_neg hfd] at hs₁ hs₂
    cases hread : sysRead fd 52 Bytes.zero g₁ with
    | error e => exact nofun
    | ok res =>
      obtain ⟨⟨r, b⟩, g₂⟩ := res
      have hfs (u : UserSpace) : Returns (fromFs (sysRead fd 52 Bytes.zero)) ⟨g₁, u⟩ (r, b) ⟨g₂, u⟩ :=
        returns_fromFs.mpr ⟨g₂, hread, rfl⟩
      have hs₁ := not_stops_rest hs₁ (hfs u₁)
      have hs₂ := not_stops_rest hs₂ (hfs u₂)
      dsimp only at hs₁ hs₂ ⊢
      split
      · next hok =>
        rw [if_pos hok] at hs₁ hs₂
        exact inside_of_loadSegments h₁ h₂ (fun h => hs₁ (stops_bind.mpr (Or.inl h)))
          fun h => hs₂ (stops_bind.mpr (Or.inl h))
      · exact nofun

end Outside

/-- A space in which just the pages in `ps` have a translation. -/
def UserSpace.of (ps : Nat → Bool) : UserSpace where
  pde _ := true
  pte := ps
  vaddrBits _ := false
  userPool := ⟨0, fun _ => false⟩
  kernelPool := ⟨0, fun _ => false⟩
  mem _ := 0

instance (p : Nat) : Decidable (UserPage p) := inferInstanceAs (Decidable (_ ∧ _))

/-- A segment between the ends of the user half of which no more is read than it is long is inside. -/
theorem Segment.inside_of_range {seg : Segment} (hlow : userVaddrStart ≤ seg.vaddr) (hhigh : seg.vaddr < 0xc0000000)
    (hend : seg.vaddr + seg.filesz ≤ 0xc0000000) (hread : seg.read ≤ seg.filesz) : seg.Inside where
  pages k hk := by
    simp only [occupiedPages] at hk
    simp only [UserPage, userVaddrStart] at hlow ⊢
    split at hk <;> omega
  bytes i hi := by
    simp only [UserAddr, userVaddrStart] at hlow ⊢
    omega

/-- A file of an ELF header and a program header for a segment in the kernel. -/
def kernelElf : Bytes := fun i =>
  (([0x7f, 0x45, 0x4c, 0x46, 1, 1, 1] ++ List.replicate 9 0 ++ [2, 0, 3, 0, 1, 0, 0, 0] ++ List.replicate 4 0 ++
    [52, 0, 0, 0] ++ List.replicate 10 0 ++ [32, 0, 1, 0] ++ List.replicate 6 0 ++
    [1, 0, 0, 0] ++ List.replicate 4 0 ++ [0, 0x15, 0, 0xc0] ++ List.replicate 4 0 ++ [84, 0, 0, 0] :
      List UInt8)[i]?).getD 0

/-- A process writes the file. -/
def writeKernelElf : List (Nat × FsCall) :=
  [(0, .create 1 true), (1, .openFile newPath 6), (1, .write 3 kernelElf 84), (1, .close 3)]

end ZxyOs
