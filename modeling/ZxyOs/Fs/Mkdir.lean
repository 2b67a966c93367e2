/-
  ZxyOs.Fs.Mkdir

  What `sys_mkdir` makes.

  A call that fails has taken nothing but its buffer, and gives it back; it fails before it looks for
  a free number, as `bitmap_scan` asserts that there is one.  Past that point every step has to go
  through: what the call leaves then is described by `Made`, and it is what was asked for where the
  numbers fit a byte, the bitmaps have something left and the entry does not push the index table of
  the parent aside (`mkdir_all_or_nothing_iff`).

  The buffer is taken before the path is searched, so the search runs in `Fs.buffered`, one request
  later than the call.
-/

import ZxyOs.Fs.DirCalls
import ZxyOs.Fs.DirGrow

namespace ZxyOs

open Lib Lib.Exec

/-! ## What is asked of the call -/

/-- A file system whose numbers are in order as well: the inodes of the tree and the inodes in the
    cache are in use, and what is in use has its number in its slot. -/
structure Fs.NumbersOk (s : Fs) : Prop extends s.StoreOk where
  used : ∀ i, s.InTree i → s.inodeMap.bit i = true
  held : ∀ a v, s.inodes a = some v → s.inodeMap.bit v.iNo = true
  slotNo : ∀ i < 4096, s.inodeMap.bit i = true → (s.slot i).iNo = i

/-- Directory `d` has got a directory `i` called `name`: the name is new, and the entry and no other
    has joined the directory, on disk as well; the new directory is empty but for its entries for itself
    and for its parent; one number is taken, and the blocks the two directories own; and every other
    inode of the tree is as it was, with what it owns, as is every other slot of the inode table. -/
structure Made (s s' : Fs) (d i : Nat) (name : CStr) : Prop where
  part : s'.part = s.part
  fresh : ∀ e ∈ s.entries d, e.filename ≠ name
  entry : s'.entries d = ⟨name, i, ftDir⟩ ::ₘ s.entries d
  number : (s'.content d).iNo = d
  size : (s'.content d).iSize = (s.content d).iSize + 24
  slot : (s'.slot d).pureInode = s'.content d
  dots : s'.entries i = {⟨dot, i, ftDir⟩, ⟨dotDot, d, ftDir⟩}
  inode : (s'.content i).iNo = i ∧ (s'.content i).iSize = 48 ∧ (s'.slot i).pureInode = s'.content i
  inodes : s.inodeMap.bit i = false ∧ ∀ j, s'.inodeMap.bit j = true ↔ s.inodeMap.bit j = true ∨ j = i
  blocks : ∀ b, s'.blockBitmap.bit b = true ↔ s.blockBitmap.bit b = true ∨
    s'.Owns d (s.part.sb.dataStartLba + b) ∨ s'.Owns i (s.part.sb.dataStartLba + b)
  others : ∀ j, s.InTree j → j ≠ d → Spared s s' j ∧ s'.content j = s.content j ∧ s'.entries j = s.entries j
  table : ∀ j < 4096, j ≠ d → j ≠ i → s'.slot j = s.slot j

/-- `sys_mkdir` makes the directory the path names, and returns 0; or it returns `-1` and everything is
    as it was, but for the addresses the heap has handed out. -/
def MkdirExactly (s : Fs) (path : CStr) : Prop :=
  ∃ r s', Returns (sysMkdir path) s r s' ∧
    (r = 0 ∧ (∃ i, Made s s' (s.walkPath path).above i ((components slash path).getLastD [])) ∨ r = -1 ∧ Restored s s')

/-- All components of a path fit the buffer they are copied into. -/
def AllFit (cs : List CStr) : Prop := ∀ c ∈ cs, c.length < 16

instance (cs : List CStr) : Decidable (AllFit cs) := inferInstanceAs (Decidable (∀ c ∈ cs, _))

/-- A directory can be made in directory `d`: there is a number for it, and the numbers of both fit a
    byte; there is a block for it and whatever the entry for it asks for; and the entry goes to a direct
    block, or nothing lies behind the index table. -/
def Fs.MkdirRoom (s : Fs) (d : Nat) : Prop :=
  d < 256 ∧ (∃ i < 256, s.inodeMap.IsFirstClear i) ∧
    s.blockBitmap.Supplies s.part.sb.dataStartLba (s.wanted (s.content d) 12 0 + 1) ∧
    (s.DirectRoom (s.content d) ∨ indirectEntries s.disk (s.content d) = 0)

/-- The call can deal with the path: it gets no buffer; or the path is short enough and names the root;
    or the search goes through and comes to something, or to a missing name, in the middle of a path of
    fitting components or where there is room for a directory; or the search gives up for want of
    memory before the last component of such a path. -/
def Fs.MkdirFits (s : Fs) (path : CStr) : Prop :=
  s.heap.full s.heap.next = true ∨
    path.length < 512 ∧ (RootAlias path ∨ HeadFits (components slash path) ∧
      (s.Clear 1 0 0 (components slash path) ∧
          ((s.walkPath path).found = none → AllFit (components slash path) ∧
            ((s.walkPath path).rest = [] → s.MkdirRoom (s.walkPath path).above)) ∨
        s.Starved 1 0 (components slash path).dropLast ∧ AllFit (components slash path)))

/-! ## The depth of a path -/

section Depth

variable {s t : Fs} {cs : List CStr} {sub : Option CStr} {path : CStr} {n r : Nat}

theorem allFit_cons {c : CStr} : AllFit (c :: cs) ↔ c.length < 16 ∧ AllFit cs := List.forall_mem_cons

theorem AllFit.head (h : AllFit cs) : HeadFits cs := fun c hc => h c (List.mem_of_mem_head? hc)

/-- Counting the components that are left needs a buffer for each. -/
theorem pathDepthLoop_iff (fuel : Nat) (hrem : Remains cs sub) (hcs : ∀ c ∈ cs, c ≠ []) (hfuel : cs.length < fuel) :
    Returns (pathDepthLoop fuel sub n) s r t ↔ AllFit cs ∧ r = n + cs.length + 1 ∧ s = t := by
  induction fuel generalizing cs sub n with
  | zero => exact absurd hfuel (Nat.not_lt_zero _)
  | succ fuel ih =>
    rw [pathDepthLoop]
    by_cases hfit : HeadFits cs
    · obtain ⟨sub', hnext, hrem'⟩ := pathNext_remains (s := s) hrem hfit
      rw [returns_bind_iff hnext]
      cases cs with
      | nil =>
        simp only [List.headD_nil, if_true, returns_pure]
        constructor
        · rintro ⟨rfl, rfl⟩
          exact ⟨by rintro _ ⟨⟩, rfl, rfl⟩
        · rintro ⟨-, rfl, rfl⟩
          exact ⟨rfl, rfl⟩
      | cons c cs =>
        have hc : (c :: cs).headD [] ≠ [] := hcs c List.mem_cons_self
        rw [List.tail_cons] at hrem'
        simp only
        rw [if_neg hc, ih hrem' (fun d hd => hcs d (List.mem_cons_of_mem _ hd)) (by simpa using hfuel), allFit_cons,
          and_iff_right (hfit c rfl), List.length_cons]
        exact and_congr_right fun _ => and_congr_left fun _ => by omega
    · refine iff_of_false (fun hrun => ?_) fun h => hfit h.1.head
      obtain ⟨_, _, hnext, -⟩ := returns_bind.mp hrun
      exact hfit (headFits_of_pathNext hrem hnext)

/-- The depth of a path is the number of its components. -/
theorem pathDepthCnt_iff (habs : path.head? = some slash) (hne : components slash path ≠ []) :
    Returns (pathDepthCnt path) s r t ↔
      AllFit (components slash path) ∧ r = (components slash path).length ∧ s = t := by
  have hcs : ∀ c ∈ components slash path, c ≠ [] := fun c hc => (mem_components hc).1
  have hlen := components_length_lt habs
  have hrem := remains_restOf (components_tail habs)
  rw [pathDepthCnt]
  cases hcomp : components slash path with
  | nil => exact absurd hcomp hne
  | cons c cs =>
    rw [hcomp] at hcs hlen hrem
    rw [List.tail_cons] at hrem
    have hname : Returns (require (c ≠ [])) s () s := (returns_require _ _).mpr ⟨hcs c List.mem_cons_self, rfl⟩
    have hloop := pathDepthLoop_iff (s := s) (t := t) (n := 0) (r := r) path.length hrem
      (fun d hd => hcs d (List.mem_cons_of_mem _ hd)) (by simpa using hlen)
    simp only [returns_bind (x := pathParse _), returns_pathParse_abs habs, hcomp, List.headD_cons]
    rw [allFit_cons, List.length_cons]
    constructor
    · rintro ⟨_, _, ⟨hfit, rfl, rfl⟩, hrun⟩
      rw [returns_bind_iff hname, hloop] at hrun
      exact ⟨⟨hfit c rfl, hrun.1⟩, by omega, hrun.2.2⟩
    · rintro ⟨⟨hfit, hall⟩, hr, ht⟩
      refine ⟨_, s, ⟨?_, rfl, rfl⟩, ?_⟩
      · rintro d ⟨⟩
        exact hfit
      · rw [returns_bind_iff hname, hloop]
        exact ⟨hall, by omega, ht⟩

end Depth

/-! ## Behind the buffer -/

/-- A block of the heap has been handed out. -/
def Fs.buffered (s : Fs) (user : Bool) : Fs := { s with heap := s.heap.alloc user }

section Buffered

variable {s t : Fs} {user : Bool} {b : Bitmap} {h : Heap} {i k n above : Nat} {cs : List CStr}

theorem isDir_congr (hent : ∀ i, t.entries i = s.entries i) (hi : t.IsDir i) : s.IsDir i := by
  induction hi with
  | root => exact .root
  | child _ he hty ih =>
    rw [hent] at he
    exact ih.child he hty

/-- Neither the heap nor the block bitmap says anything about the tree. -/
theorem isDir_beside : ({ s with heap := h, blockBitmap := b } : Fs).IsDir i ↔ s.IsDir i :=
  ⟨isDir_congr fun _ => rfl, isDir_congr fun _ => rfl⟩

theorem Fs.BlocksOk.beside {v : Inode} (hv : s.BlocksOk v) (hsize : b.size = s.blockBitmap.size)
    (huse : ∀ j, s.blockBitmap.bit j = true → b.bit j = true) : ({ s with heap := h, blockBitmap := b } : Fs).BlocksOk v := by
  have hinUse (lba : Nat) (hlba : s.InUse lba) : ({ s with heap := h, blockBitmap := b } : Fs).InUse lba := by
    obtain ⟨hmax, j, hj, hbit, rfl⟩ := hlba
    refine ⟨hmax, j, ?_, huse j hbit, rfl⟩
    show j < b.size
    rwa [hsize]
  exact ⟨fun k hk hne => hinUse _ (hv.inUse k hk hne), fun hne => hinUse _ (hv.table hne), hv.inj, hv.tableNe⟩

theorem isFile_beside : ({ s with heap := h, blockBitmap := b } : Fs).IsFile i ↔ s.IsFile i := by
  unfold Fs.IsFile
  exact exists_congr fun d => and_congr_left fun _ => isDir_beside

theorem inTree_beside : ({ s with heap := h, blockBitmap := b } : Fs).InTree i ↔ s.InTree i :=
  or_congr isDir_beside isFile_beside

/-- A file system stays in order with another heap, and with a block bitmap in which no block in use
    has become free. -/
theorem Fs.StoreOk.beside (hs : s.StoreOk) (hlive : h.LiveBelow) (hnext : s.heap.next ≤ h.next)
    (hsize : b.size = s.blockBitmap.size) (huse : ∀ j, s.blockBitmap.bit j = true → b.bit j = true) :
    ({ s with heap := h, blockBitmap := b } : Fs).StoreOk where
  cache :=
    { nodup := hs.cache.nodup
      mem := hs.cache.mem
      pos := hs.cache.pos
      inode_lt := fun a ha => Nat.lt_of_lt_of_le (hs.cache.inode_lt a ha) hnext
      dir_lt := fun d hd => Nat.lt_of_lt_of_le (hs.cache.dir_lt d hd) hnext }
  live := hlive
  entrySize := hs.entrySize
  table := ⟨hs.table.onDisk, hs.table.inPart⟩
  running := hs.running
  root := hs.root
  node := by
    intro i hi
    have hnode := hs.node i (isDir_beside.mp hi)
    exact ⟨hnode.number, hnode.own, ⟨hnode.listed.blocks, hnode.listed.table, hnode.listed.slots, hnode.listed.names⟩,
      hnode.block, hnode.types⟩
  self := fun i hi => hs.self i (isDir_beside.mp hi)
  rootUp := hs.rootUp
  layout := by
    have hl := hs.layout
    refine ⟨hl.entrySize, fun i hi => hl.blockBitmap i (hsize ▸ hi), hl.inodeBitmap, hl.inodeTable, ?_, hl.nonempty.2⟩
    show 0 < b.size
    rw [hsize]
    exact hl.nonempty.1
  coherent := hs.coherent
  single := hs.single
  dirOk := by
    intro i hi
    have hd := hs.dirOk i (isDir_beside.mp hi)
    exact ⟨⟨hd.toBlocksOk.beside hsize huse, hd.slots, hd.names⟩, hd.size⟩
  dotsFirst := by
    intro i hi
    have hd := hs.dotsFirst i (isDir_beside.mp hi)
    exact ⟨hd.block, hd.full, hd.dot, hd.dotDot⟩
  up := fun i hi => hs.up i (isDir_beside.mp hi)
  inMap := fun i hi => hs.inMap i (inTree_beside.mp hi)
  own := fun i hi => hs.own i (inTree_beside.mp hi)
  blocks := fun i hi => (hs.blocks i (inTree_beside.mp hi)).beside hsize huse
  apart := fun i j lba hi hj => hs.apart i j lba (inTree_beside.mp hi) (inTree_beside.mp hj)
  notDir := fun i hi hdir => hs.notDir i (isFile_beside.mp hi) (isDir_beside.mp hdir)
  once := fun d d' e e' hd hd' => hs.once d d' e e' (isDir_beside.mp hd) (isDir_beside.mp hd')
  rootFirst := hs.rootFirst
  slots := hs.slots

/-- The requests behind the buffer are those one further on. -/
theorem grants_buffered : (s.buffered user).Grants k n ↔ s.Grants (k + 1) n := by
  unfold Fs.Grants
  refine forall_congr' fun j => imp_congr_right fun _ => ?_
  show s.heap.full (s.heap.next + 1 + (k + j)) = false ↔ _
  rw [show s.heap.next + 1 + (k + j) = s.heap.next + (k + 1 + j) by omega]

theorem full_buffered : (s.buffered user).heap.full ((s.buffered user).heap.next + k) = s.heap.full (s.heap.next + (k + 1)) := by
  show s.heap.full (s.heap.next + 1 + k) = _
  rw [show s.heap.next + 1 + k = s.heap.next + (k + 1) by omega]

theorem clear_buffered : (s.buffered user).Clear k above i cs ↔ s.Clear (k + 1) above i cs := by
  induction cs generalizing k above i with
  | nil => exact grants_buffered
  | cons c cs ih =>
    have hnames : (s.buffered user).names i c = s.names i c := rfl
    have hreq (n : Nat) : (s.buffered user).openRequests n = s.openRequests n := rfl
    simp only [Fs.Clear, hnames, hreq, full_buffered, grants_buffered]
    cases s.names i c with
    | none => exact Iff.rfl
    | some child =>
      cases child with
      | file n => exact Iff.rfl
      | dir n =>
        simp only
        rw [ih, show k + 2 + (1 + s.openRequests n) + 1 = k + 1 + 2 + (1 + s.openRequests n) by omega]

theorem starved_buffered : (s.buffered user).Starved k i cs ↔ s.Starved (k + 1) i cs := by
  induction cs generalizing k i with
  | nil => exact Iff.rfl
  | cons c cs ih =>
    have hnames : (s.buffered user).names i c = s.names i c := rfl
    have hreq (n : Nat) : (s.buffered user).openRequests n = s.openRequests n := rfl
    simp only [Fs.Starved, hnames, hreq, full_buffered, grants_buffered]
    cases s.names i c with
    | none => exact Iff.rfl
    | some child =>
      cases child with
      | file n => exact Iff.rfl
      | dir n =>
        simp only
        rw [ih, show k + 2 + (1 + s.openRequests n) + 1 = k + 1 + 2 + (1 + s.openRequests n) by omega]

/-- A walk that starves before the last name starves. -/
theorem starved_of_dropLast (h : s.Starved k i cs.dropLast) : s.Starved k i cs := by
  induction cs generalizing k i with
  | nil => exact h
  | cons c cs ih =>
    cases cs with
    | nil => exact absurd h id
    | cons d ds =>
      rw [List.dropLast_cons_cons] at h
      cases hnames : s.names i c with
      | none =>
        simp only [Fs.Starved, hnames] at h
      | some child =>
        cases child with
        | file n =>
          simp only [Fs.Starved, hnames] at h ⊢
          exact h
        | dir n =>
          simp only [Fs.Starved, hnames] at h ⊢
          rcases h with hfull | ⟨hg, hfit, hopen, hrest⟩
          · exact Or.inl hfull
          · refine Or.inr ⟨hg, ?_, hopen, ih hrest⟩
            cases ds with
            | nil => exact absurd hrest id
            | cons e es => exact hfit

end Buffered

/-! ## The steps of the call -/

/-- The block of a new directory `i` in directory `d`. -/
def mkdirBlock (i d : Nat) : Bytes :=
  (Bytes.zero.splice 0 24 (⟨dot, i, ftDir⟩ : DirEntry).encode).splice 24 24 (⟨dotDot, d, ftDir⟩ : DirEntry).encode

/-- The inode of a new directory with its block at `lba`. -/
def mkdirInode (i lba : Nat) : Inode := { (inodeInit i).setSector 0 lba with iSize := 48 }

/-- Number `i` and block `b` are taken, and the block is written. -/
def Fs.mkdirTaken (t : Fs) (i b d : Nat) : Fs :=
  { t with
    inodeMap := t.inodeMap.bitmapSet i true
    blockBitmap := t.blockBitmap.bitmapSet b true
    disk := writeSector (t.syncedBlockBitmap t.disk (t.blockBitmap.bitmapSet b true) b)
      (t.part.sb.dataStartLba + b) (mkdirBlock i d) }

/-- The inodes `w` and `x` are synchronised, and the sector of the inode bitmap with bit `i`. -/
def Fs.mkdirStored (u : Fs) (w x : Inode) (i : Nat) : Fs :=
  let disk := u.disk.splice (u.slotAddr (w.iNo % 256)) 76 w.pureInode.encode
  let disk := disk.splice (u.slotAddr (x.iNo % 256)) 76 x.pureInode.encode
  { u with disk := writeSector disk (u.part.sb.inodeBitmapLba + i / 4096) (u.inodeMap.bytesFrom (i / 4096 * 512)) }

/-- The end of the call, with the inode of the parent at `a` and that of the new directory in `x`. -/
def mkdirStore (p : DirPtr) (a : Nat) (x : Inode) (ioBuf : Option Nat) (iNo : Nat) : FsM Int := do
  let parent ← getInode a
  inodeSync parent 1024
  inodeSync x 1024
  bitmapSync iNo .inodeBitmap
  sysFree ioBuf
  dirClose p
  return 0

theorem returns_mkdirStore {u s' : Fs} {p : DirPtr} {a i m : Nat} {x : Inode} {r : Int} (hu : u.TableFits)
    (hmap : u.part.sb.inodeBitmapLba + i / 4096 ≤ maxLba) :
    Returns (mkdirStore p a x (some m) i) u r s' ↔ ∃ w, u.inodes a = some w ∧
      Returns (do sysFree (some m); dirClose p; return (0 : Int)) (u.mkdirStored w x i) r s' := by
  -- once the inode of the parent is read, nothing can fail
  have hstore (w : Inode) : Returns (do inodeSync w 1024; inodeSync x 1024; bitmapSync i .inodeBitmap; sysFree (some m); dirClose p; return (0 : Int)) u r s' ↔
      Returns (do sysFree (some m); dirClose p; return (0 : Int)) (u.mkdirStored w x i) r s' := by
    let u₁ : Fs := { u with disk := u.disk.splice (u.slotAddr (w.iNo % 256)) 76 w.pureInode.encode }
    let u₂ : Fs := { u with disk := u₁.disk.splice (u.slotAddr (x.iNo % 256)) 76 x.pureInode.encode }
    have hparent : Returns (inodeSync w 1024) u () u₁ := (returns_inodeSync_of_fits hu le_rfl).mpr rfl
    have hself : Returns (inodeSync x 1024) u₁ () u₂ := (returns_inodeSync_of_fits (hu.withDisk _) le_rfl).mpr rfl
    have hsync : Returns (bitmapSync i .inodeBitmap) u₂ () (u.mkdirStored w x i) :=
      returns_bitmapSync_inode.mpr ⟨hmap, rfl⟩
    rw [returns_bind_iff hparent, returns_bind_iff hself, returns_bind_iff hsync]
  rw [mkdirStore]
  simp only [returns_bind (x := getInode _), returns_getInode]
  constructor
  · rintro ⟨w, _, ⟨hw, rfl⟩, hrun⟩
    exact ⟨w, hw, (hstore w).mp hrun⟩
  · rintro ⟨w, hw, hrun⟩
    exact ⟨w, u, ⟨hw, rfl⟩, (hstore w).mpr hrun⟩

/-- In `t`, where only the handle `p` on directory `d` is new, a directory called `name` is about to be
    made. -/
structure Making (s t : Fs) (p : DirPtr) (d a : Nat) (v : Inode) (name : CStr) : Prop where
  numbers : s.NumbersOk
  same : SameStore s t
  on : OnDir s t p d a v
  dir : s.IsDir d
  nameOk : DirEntry.NameOk name

/-- The number and the block that are taken: the first ones that are free. -/
structure Takes (s : Fs) (i b : Nat) : Prop where
  inode : s.inodeMap.IsFirstClear i
  block : s.blockBitmap.IsFirstClear b
  lba : s.part.sb.dataStartLba + b ≤ maxLba

namespace Making

variable {s t u : Fs} {p : DirPtr} {d a i b j k lba : Nat} {v w : Inode} {name : CStr} {r : Int} {s' : Fs}

theorem store (h : Making s t p d a v name) : s.StoreOk := h.numbers.toStoreOk

theorem iNo (h : Making s t p d a v name) : v.iNo = d := by
  have hown := h.store.own d (Or.inl h.dir)
  rwa [← h.on.content] at hown

theorem number_lt (h : Making s t p d a v name) : d < 4096 := (h.store.inMap d (Or.inl h.dir)).1

theorem layout (h : Making s t p d a v name) : t.Layout := h.store.layout.same h.same

theorem table (h : Making s t p d a v name) : t.TableFits := by
  refine ⟨?_, ?_⟩
  · rw [h.same.part]
    exact h.store.table.onDisk
  · rw [h.same.part]
    exact h.store.table.inPart

theorem blockAddr (h : Making s t p d a v name) : v.blockAddr t.disk = (s.content d).blockAddr s.disk := by
  rw [← h.on.content, h.same.disk]
  rfl

theorem takes (h : Making s t p d a v name) (hi : t.inodeMap.IsFirstClear i) (hb : t.blockBitmap.IsFirstClear b)
    (hlba : t.part.sb.dataStartLba + b ≤ maxLba) : Takes s i b where
  inode := by rwa [h.same.inodeMap] at hi
  block := by rwa [h.same.blockBitmap] at hb
  lba := by rwa [h.same.part] at hlba

/-- The first data block is the root's, so another one is taken. -/
theorem block_ne_zero (h : Making s t p d a v name) (hb : Takes s i b) : b ≠ 0 := by
  rintro rfl
  have hroot := (h.store.blocks 0 (Or.inl .root)).inUse 0 (by decide)
  rw [Inode.blockAddr_direct (by decide), h.store.rootFirst] at hroot
  have hpos := h.store.layout.data_pos
  exact (hroot (by omega)).ne_of_free hb.block.2.1 rfl

/-- A number that is free is none of the directory's. -/
theorem number_ne (h : Making s t p d a v name) (hb : Takes s i b) : i ≠ d := by
  rintro rfl
  have hused := h.numbers.used i (Or.inl h.dir)
  rw [hb.inode.2.1] at hused
  cases hused

/-- The number of the new directory fits a word. -/
theorem number_word (h : Making s t p d a v name) (hb : Takes s i b) : i < 2 ^ 32 := by
  have hsec := h.store.layout.inodeBitmap i hb.inode.1
  have htable := h.store.table.onDisk
  simp only [maxLba] at htable
  omega

/-- What is in use stays in use. -/
theorem inUse_taken (h : Making s t p d a v name) (hlba : s.InUse lba) : (t.mkdirTaken i b d).InUse lba := by
  obtain ⟨hmax, j, hj, hbit, rfl⟩ := hlba
  refine ⟨hmax, j, ?_, ?_, ?_⟩
  · show j < t.blockBitmap.size
    rwa [h.same.blockBitmap]
  · show (t.blockBitmap.bitmapSet b true).bit j = true
    rw [h.same.blockBitmap]
    exact Bitmap.bit_bitmapSet_of_bit hbit
  · show _ = t.part.sb.dataStartLba + j
    rw [h.same.part]

/-- No block in use is written when the block of the new directory is. -/
theorem sectorAt_taken (h : Making s t p d a v name) (hb : Takes s i b) (hlba : s.InUse lba) :
    sectorAt (t.mkdirTaken i b d).disk lba = sectorAt s.disk lba := by
  have hne : lba ≠ t.part.sb.dataStartLba + b := by
    rw [h.same.part]
    exact hlba.ne_of_free hb.block.2.1
  have hsize : b < t.blockBitmap.size := by
    rw [h.same.blockBitmap]
    exact hb.block.1
  have hge : t.part.sb.dataStartLba ≤ lba := by
    rw [h.same.part]
    exact hlba.ge
  calc _ = _ := sectorAt_writeSector_ne hne
    _ = _ := h.layout.sectorAt_syncedBlockBitmap hsize hge
    _ = _ := by rw [h.same.disk]

/-- Between the block bitmap and the data blocks nothing is written. -/
theorem between_taken (h : Making s t p d a v name) (hb : Takes s i b) {x : Nat}
    (hfrom : 512 * s.part.sb.inodeBitmapLba ≤ x) (hx : x < 512 * s.part.sb.dataStartLba) :
    (t.mkdirTaken i b d).disk x = s.disk x := by
  have hsize : b < t.blockBitmap.size := by
    rw [h.same.blockBitmap]
    exact hb.block.1
  rw [← h.same.part] at hfrom hx
  calc _ = _ := writeSector_between (Nat.le_add_right _ _) hx
    _ = _ := h.layout.syncedBlockBitmap_behind hsize hfrom
    _ = _ := by rw [h.same.disk]

theorem handle_taken (h : Making s t p d a v name) : (t.mkdirTaken i b d).handle p = some a := h.on.handle

theorem inode_taken (h : Making s t p d a v name) : (t.mkdirTaken i b d).inodes a = some v := h.on.inode

theorem layout_taken (h : Making s t p d a v name) : (t.mkdirTaken i b d).Layout := by
  have hl := h.layout
  exact ⟨hl.entrySize, hl.blockBitmap, hl.inodeBitmap, hl.inodeTable, hl.nonempty⟩

/-- The blocks of the directory, as they are in `s`. -/
theorem inUse_block (h : Making s t p d a v name) (hk : k < 140) (hne : (s.content d).blockAddr s.disk k ≠ 0) :
    s.InUse ((s.content d).blockAddr s.disk k) := (h.store.blocks d (Or.inl h.dir)).inUse k hk hne

theorem sector_eq (h : Making s t p d a v name) : v.sector k = (s.content d).sector k := by
  rw [← h.on.content]
  rfl

theorem frame_taken (h : Making s t p d a v name) (hb : Takes s i b) :
    v.blockAddr (t.mkdirTaken i b d).disk = (s.content d).blockAddr s.disk ∧
      dirEntries (t.mkdirTaken i b d).disk v = s.entries d := by
  have hblocks := h.store.blocks d (Or.inl h.dir)
  have hframe := dirEntries_frame (v := s.content d)
    (fun h12 => h.sectorAt_taken hb (hblocks.table h12)) fun k hk hne => h.sectorAt_taken hb (hblocks.inUse k hk hne)
  rw [← h.on.content] at hframe ⊢
  refine ⟨hframe.1, ?_⟩
  rw [Fs.entries, ← h.on.content]
  exact hframe.2

/-- The directory is well formed still. -/
theorem dirOk_taken (h : Making s t p d a v name) (hb : Takes s i b) : (t.mkdirTaken i b d).DirOk v := by
  have hd := h.store.dirOk d h.dir
  obtain ⟨haddr, hentries⟩ := h.frame_taken hb
  refine ⟨⟨⟨?_, ?_, ?_, ?_⟩, ?_, ?_⟩, ?_⟩
  · intro k hk hne
    rw [haddr] at hne ⊢
    exact h.inUse_taken (hd.inUse k hk hne)
  · intro h12
    rw [h.sector_eq] at h12 ⊢
    exact h.inUse_taken (hd.table h12)
  · rw [haddr]
    exact hd.inj
  · rw [haddr, h.sector_eq]
    exact hd.tableNe
  · intro k hk hne
    rw [haddr] at hne ⊢
    rw [h.sectorAt_taken hb (hd.inUse k hk hne)]
    exact hd.slots k hk hne
  · rw [hentries]
    exact hd.names
  · rw [hentries, Fs.entries, ← hd.size, ← h.on.content]
    rfl

/-- The direct blocks of the directory have not been written. -/
theorem direct_taken (h : Making s t p d a v name) (hb : Takes s i b) (hk : k < 12) (hne : v.sector k ≠ 0) :
    sectorAt (t.mkdirTaken i b d).disk (v.sector k) = sectorAt s.disk (v.sector k) := by
  have hblock := h.inUse_block (k := k) (by omega)
  rw [Inode.blockAddr_direct hk, ← h.sector_eq] at hblock
  exact h.sectorAt_taken hb (hblock hne)

theorem wanted_taken (h : Making s t p d a v name) (hb : Takes s i b) :
    (t.mkdirTaken i b d).wanted v 12 0 = s.wanted (s.content d) 12 0 := by
  refine wanted_congr (fun j _ _ => h.sector_eq) fun j _ hj hne => ?_
  rw [← h.sector_eq] at hne ⊢
  exact h.direct_taken hb (by omega) hne

theorem directRoom_taken (h : Making s t p d a v name) (hb : Takes s i b) :
    (t.mkdirTaken i b d).DirectRoom v ↔ s.DirectRoom (s.content d) := by
  unfold Fs.DirectRoom
  refine exists_congr fun k => and_congr_right fun hk => ?_
  rw [← h.sector_eq]
  by_cases h0 : v.sector k = 0
  · exact iff_of_true (Or.inl h0) (Or.inl h0)
  · rw [h.direct_taken hb hk h0]

theorem indirect_taken (h : Making s t p d a v name) (hb : Takes s i b) :
    indirectEntries (t.mkdirTaken i b d).disk v = indirectEntries s.disk (s.content d) := by
  obtain ⟨haddr, -⟩ := h.frame_taken hb
  unfold indirectEntries
  rw [haddr]
  exact contents_congr fun k hk => entriesAt_congr fun hne => h.sectorAt_taken hb (h.inUse_block (by omega) hne)

/-! ## The run -/

/-- A call that gets past the block has found a free one on the disk. -/
theorem block_of_install (h : Making s t p d a v name) {rec : PathSearchRecord} {m : Nat}
    (hi : t.inodeMap.IsFirstClear i)
    (hrun : Returns (mkdirInstall rec (some m) i) { t with inodeMap := t.inodeMap.bitmapSet i true } r s') :
    ∃ b, Takes s i b := by
  unfold mkdirInstall at hrun
  simp only [returns_bind (x := query _), returns_bind (x := blockBitmapAlloc), returns_query, returns_blockBitmapAlloc] at hrun
  obtain ⟨_, _, ⟨rfl, rfl⟩, o, _, ⟨b, rfl, hb, rfl⟩, hrun⟩ := hrun
  simp only [returns_bind (x := assert _), returns_bind (x := bitmapSync _ _), returns_bind (x := dirInode _),
    returns_bind (x := getInode _), returns_bind (x := ideWrite _ _ _), returns_assert, returns_bitmapSync_block,
    returns_dirInode, returns_getInode, returns_ideWrite] at hrun
  obtain ⟨_, _, ⟨-, rfl⟩, _, _, ⟨-, rfl⟩, _, _, ⟨-, rfl⟩, _, _, ⟨-, rfl⟩, _, _, ⟨hlba, -⟩, -⟩ := hrun
  exact ⟨b, h.takes hi hb hlba⟩

/-- What is left of the call once its number and its block are taken: the entry, the two inodes and the
    inode bitmap. -/
theorem returns_install (h : Making s t p d a v name) (hb : Takes s i b) {rec : PathSearchRecord} {m : Nat}
    (hp : rec.parentDir = p) (hname : lastName rec.searchedPath = name) :
    Returns (mkdirInstall rec (some m) i) { t with inodeMap := t.inodeMap.bitmapSet i true } r s' ↔
      ∃ x u, Returns (syncDirEntry p ⟨name, i, ftDir⟩) (t.mkdirTaken i b d) x u ∧ ∃ w, u.inodes a = some w ∧
        Returns (do sysFree (some m); dirClose p; return (0 : Int))
          (u.mkdirStored w (mkdirInode i (s.part.sb.dataStartLba + b)) i) r s' := by
  have hpart := h.same.part
  have hl := h.layout
  have hmax : t.part.sb.dataStartLba + b ≤ maxLba := by
    rw [hpart]
    exact hb.lba
  have hidx := blockBitmapIdx_data hmax
  have hsize : b < t.blockBitmap.size := by
    rw [h.same.blockBitmap]
    exact hb.block.1
  have hclear : t.blockBitmap.IsFirstClear b := by
    rw [h.same.blockBitmap]
    exact hb.block
  let t₀ : Fs := { t with inodeMap := t.inodeMap.bitmapSet i true }
  let t₁ : Fs := { t₀ with blockBitmap := t.blockBitmap.bitmapSet b true }
  have hquery : Returns (query id) t₀ t₀ t₀ := (returns_query _).mpr ⟨rfl, rfl⟩
  have halloc : Returns blockBitmapAlloc t₀ (some (t.part.sb.dataStartLba + b)) t₁ :=
    returns_blockBitmapAlloc.mpr ⟨b, rfl, hclear, rfl⟩
  have hassert : Returns (assert (blockBitmapIdx t.part.sb (t.part.sb.dataStartLba + b) ≠ 0)) t₁ () t₁ := by
    refine (returns_assert _ _).mpr ⟨?_, rfl⟩
    rw [hidx]
    exact h.block_ne_zero hb
  let t₂ : Fs := { t₁ with disk := t.syncedBlockBitmap t.disk (t.blockBitmap.bitmapSet b true) b }
  have hsync : Returns (bitmapSync (blockBitmapIdx t.part.sb (t.part.sb.dataStartLba + b)) .blockBitmap) t₁ () t₂ := by
    rw [hidx]
    exact returns_bitmapSync_block.mpr ⟨hl.bitmapSector_le hsize hmax, rfl⟩
  have hdir : Returns (dirInode p) t₂ a t₂ := returns_dirInode.mpr ⟨h.on.handle, rfl⟩
  have hget : Returns (getInode a) t₂ v t₂ := returns_getInode.mpr ⟨h.on.inode, rfl⟩
  have hwrite : Returns (ideWrite (t.part.sb.dataStartLba + b)
      ((Bytes.zero.splice 0 24 (⟨dot, i, ftDir⟩ : DirEntry).encode).splice 24 24
        (⟨dotDot, v.iNo, ftDir⟩ : DirEntry).encode) 1) t₂ () (t.mkdirTaken i b d) := by
    rw [h.iNo]
    exact returns_ideWrite.mpr ⟨hmax, by decide, rfl⟩
  have hcreate : Returns (createDirEntry (lastName rec.searchedPath) i ftDir) (t.mkdirTaken i b d) ⟨name, i, ftDir⟩
      (t.mkdirTaken i b d) := by
    have hlen : Returns (assert (name.length ≤ 16)) (t.mkdirTaken i b d) () (t.mkdirTaken i b d) :=
      (returns_assert _ _).mpr ⟨Nat.le_of_lt h.nameOk.lt, rfl⟩
    rw [hname, createDirEntry, returns_bind_iff hlen]
    exact returns_pure.mpr ⟨rfl, rfl⟩
  rw [mkdirInstall, returns_bind_iff hquery, returns_bind_iff halloc]
  simp only [hp]
  rw [returns_bind_iff hassert, returns_bind_iff hsync, returns_bind_iff hdir, returns_bind_iff hget,
    returns_bind_iff hwrite, returns_bind_iff hcreate, returns_bind]
  refine exists_congr fun x => exists_congr fun u => and_congr_right fun hentry => ?_
  obtain ⟨-, hsynced⟩ := returns_syncDirEntry h.layout_taken.entrySize h.handle_taken h.inode_taken hentry
  obtain ⟨w, hgrown⟩ := hsynced.grows h.layout_taken (h.dirOk_taken hb).toBlocksOk
  have hdata : u.part = s.part := by
    rw [hgrown.rest]
    exact hpart
  have hu : u.TableFits := by
    refine ⟨?_, ?_⟩
    · rw [hdata]
      exact h.store.table.onDisk
    · rw [hdata]
      exact h.store.table.inPart
  have hmap : u.part.sb.inodeBitmapLba + i / 4096 ≤ maxLba := by
    have hsec := h.store.layout.inodeBitmap i hb.inode.1
    have hdisk := h.store.table.onDisk
    rw [hdata]
    omega
  have hself : { (inodeInit i).setSector 0 (t.part.sb.dataStartLba + b) with iSize := 2 * t₀.part.sb.dirEntrySize } =
      mkdirInode i (s.part.sb.dataStartLba + b) := by
    have hentrySize : t₀.part.sb.dirEntrySize = 24 := hl.entrySize
    rw [hentrySize, hpart]
    rfl
  rw [← returns_mkdirStore hu hmap, ← hself]
  rfl

end Making

/-! ## What the call leaves -/

/-- The buffer is freed and the handle closed. -/
theorem frees_and_closes {u : Fs} {p : DirPtr} {a : Nat} {w : Inode} (ha : u.handle p = some a) (hw : u.inodes a = some w)
    (m : Nat) : ∃ s', Returns (do sysFree (some m); dirClose p; return (0 : Int)) u 0 s' ∧ SameStore u s' ∧
      (∀ c, c ≠ a → s'.inodes c = u.inodes c) ∧ ∀ x, s'.inodes a = some x → x.pureInode = w.pureInode := by
  obtain ⟨u₁, hfree⟩ := sysFree_returns u m
  have hfreed := (returns_sysFree hfree).1
  have ha₁ : u₁.handle p = some a := by
    rw [hfreed]
    exact ha
  have hw₁ : u₁.inodes a = some w := by
    rw [hfreed]
    exact hw
  obtain ⟨s', hclose, hst, hother, hat⟩ := dirClose_runs ha₁ hw₁
  refine ⟨s', ?_, ⟨?_, ?_, ?_, ?_⟩, ?_, ?_⟩
  · rw [returns_bind_iff hfree, returns_bind_iff hclose]
    exact returns_pure.mpr ⟨rfl, rfl⟩
  · rw [hst.part, hfreed]
  · rw [hst.disk, hfreed]
  · rw [hst.blockBitmap, hfreed]
  · rw [hst.inodeMap, hfreed]
  · intro c hc
    rw [hother c hc, hfreed]
  · intro x hx
    rcases hat with hnone | ⟨n, hsome⟩
    · rw [hnone] at hx
      cases hx
    · rw [hsome] at hx
      obtain rfl := Option.some.inj hx
      rfl

/-- The call has made directory `i`, with its block in place `b`: in `u` the entry has been added, and
    `s'` is what is left in the end. -/
structure MkdirRun (s t u s' : Fs) (p : DirPtr) (d a i b : Nat) (v w : Inode) (name : CStr) : Prop where
  making : Making s t p d a v name
  takes : Takes s i b
  synced : Synced (t.mkdirTaken i b d) u a v w
  grown : Grown (t.mkdirTaken i b d) u a v w
  final : SameStore (u.mkdirStored w (mkdirInode i (s.part.sb.dataStartLba + b)) i) s'
  others : ∀ c, c ≠ a → s'.inodes c = s.inodes c
  self : ∀ x, s'.inodes a = some x → x.pureInode = w.pureInode

namespace MkdirRun

variable {s t u s' : Fs} {p : DirPtr} {d a i b j k lba : Nat} {v w : Inode} {name : CStr}

theorem part_u (h : MkdirRun s t u s' p d a i b v w name) : u.part = s.part := by
  rw [h.grown.rest]
  exact h.making.same.part

theorem part (h : MkdirRun s t u s' p d a i b v w name) : s'.part = s.part := h.final.part.trans h.part_u

theorem inodeMap (h : MkdirRun s t u s' p d a i b v w name) : s'.inodeMap = s.inodeMap.bitmapSet i true := by
  rw [h.final.inodeMap]
  show u.inodeMap = _
  rw [h.grown.rest]
  show t.inodeMap.bitmapSet i true = _
  rw [h.making.same.inodeMap]

theorem blockBitmap (h : MkdirRun s t u s' p d a i b v w name) : s'.blockBitmap = u.blockBitmap := h.final.blockBitmap

theorem layout_u (h : MkdirRun s t u s' p d a i b v w name) : u.Layout := by
  have hl := h.making.layout_taken (i := i) (b := b)
  have hpart : u.part = (t.mkdirTaken i b d).part := by rw [h.grown.rest]
  have hmap : u.inodeMap = (t.mkdirTaken i b d).inodeMap := by rw [h.grown.rest]
  refine ⟨?_, ?_, ?_, ?_, ?_, ?_⟩
  · rw [hpart]
    exact hl.entrySize
  · rw [hpart, h.grown.bitmapSize]
    exact hl.blockBitmap
  · rw [hpart, hmap]
    exact hl.inodeBitmap
  · rw [hpart]
    exact hl.inodeTable
  · rw [h.grown.bitmapSize]
    exact hl.nonempty.1
  · rw [hmap]
    exact hl.nonempty.2

theorem number (h : MkdirRun s t u s' p d a i b v w name) : w.iNo = d := h.grown.number.trans h.making.iNo

/-- The sector of the inode bitmap lies before the inode table. -/
theorem mapSector_lt (h : MkdirRun s t u s' p d a i b v w name) :
    s.part.sb.inodeBitmapLba + i / 4096 < s.part.sb.inodeTableLba :=
  h.making.store.layout.inodeBitmap i h.takes.inode.1

/-- What is stored last is no data block. -/
theorem sectorAt_stored (h : MkdirRun s t u s' p d a i b v w name) (hlba : s.part.sb.dataStartLba ≤ lba) :
    sectorAt s'.disk lba = sectorAt u.disk lba := by
  have hmap := h.mapSector_lt
  have htable := h.making.store.layout.inodeTable
  have hne : lba ≠ u.part.sb.inodeBitmapLba + i / 4096 := by
    rw [h.part_u]
    omega
  have hlba' : u.part.sb.dataStartLba ≤ lba := by rwa [h.part_u]
  rw [h.final.disk]
  calc _ = _ := sectorAt_writeSector_ne hne
    _ = _ := h.layout_u.sectorAt_slot (n := i % 256) (by omega) hlba'
    _ = _ := h.layout_u.sectorAt_slot (n := w.iNo % 256) (by omega) hlba'

/-- A block in use that is none of the directory's is as it was. -/
theorem sectorAt_other (h : MkdirRun s t u s' p d a i b v w name) (hlba : s.InUse lba)
    (hnot : ¬ s.Owns d lba) : sectorAt s'.disk lba = sectorAt s.disk lba := by
  have hpos := h.making.store.layout.data_pos
  have hge := hlba.ge
  rw [h.sectorAt_stored hge, h.grown.others lba (h.making.inUse_taken hlba), h.making.sectorAt_taken h.takes hlba]
  rintro k hk rfl
  refine hnot ⟨by omega, Or.inr ⟨k, by omega, ?_⟩⟩
  rw [Inode.blockAddr_direct hk, h.making.sector_eq]

/-- The bytes of the inode table before the inodes are synchronised. -/
theorem between (h : MkdirRun s t u s' p d a i b v w name) {x : Nat} (hfrom : 512 * s.part.sb.inodeBitmapLba ≤ x)
    (hx : x < 512 * s.part.sb.dataStartLba) : u.disk x = s.disk x := by
  have hpart : (t.mkdirTaken i b d).part = s.part := h.making.same.part
  rw [h.grown.between x (by rw [hpart]; exact hfrom) (by rw [hpart]; exact hx), h.making.between_taken h.takes hfrom hx]

theorem slotAddr_eq (h : MkdirRun s t u s' p d a i b v w name) : u.slotAddr j = s.slotAddr j := by
  rw [Fs.slotAddr, Fs.slotAddr, h.part_u]

/-- No slot but the two that are synchronised is written. -/
theorem slot_ne (h : MkdirRun s t u s' p d a i b v w name) (hj : j < 4096) (hd : j ≠ d % 256) (hi : j ≠ i % 256) :
    s'.slot j = s.slot j := by
  have hmap := h.mapSector_lt
  have htable := h.making.store.layout.inodeTable
  refine slot_congr h.part fun k hk => ?_
  have hout : ∀ n, n ≠ j → (s.slotAddr j + k < u.slotAddr n ∨ u.slotAddr n + 76 ≤ s.slotAddr j + k) := by
    intro n hn
    rw [h.slotAddr_eq, Fs.slotAddr, Fs.slotAddr]
    omega
  rw [h.final.disk]
  calc _ = _ := Bytes.splice_outside (by rw [h.part_u, Fs.slotAddr]; omega)
    _ = _ := Bytes.splice_outside (hout (i % 256) hi.symm)
    _ = _ := Bytes.splice_outside (hout (w.iNo % 256) (by rw [h.number]; exact hd.symm))
    _ = _ := h.between (by rw [Fs.slotAddr]; omega) (by rw [Fs.slotAddr]; omega)

/-- A slot is read behind the inode bitmap. -/
theorem slot_stored (h : MkdirRun s t u s' p d a i b v w name) :
    s'.slot j = Inode.decode ((u.disk.splice (u.slotAddr (w.iNo % 256)) 76 w.pureInode.encode).splice
      (u.slotAddr (i % 256)) 76 (mkdirInode i (s.part.sb.dataStartLba + b)).encode) (u.slotAddr j) := by
  have hmap := h.mapSector_lt
  have haddr : s'.slotAddr j = u.slotAddr j := by rw [h.slotAddr_eq, Fs.slotAddr, Fs.slotAddr, h.part]
  rw [Fs.slot, h.final.disk, haddr, h.slotAddr_eq]
  refine Inode.decode_congr fun k hk => ?_
  apply Bytes.splice_outside
  rw [h.part_u, Fs.slotAddr]
  omega

theorem mkdirInode_wordSized (h : MkdirRun s t u s' p d a i b v w name) :
    (mkdirInode i (s.part.sb.dataStartLba + b)).WordSized where
  iNo := h.making.number_word h.takes
  iSize := by
    show 48 < 2 ^ 32
    decide
  iOpenCnt := by
    show 0 < 2 ^ 32
    decide
  iSectors := by
    intro k
    show (if k.val = 0 then s.part.sb.dataStartLba + b else 0) < 2 ^ 32
    split
    · exact lt_of_le_of_lt h.takes.lba (by decide)
    · decide

theorem wordSized (h : MkdirRun s t u s' p d a i b v w name) : w.pureInode.WordSized := by
  apply h.grown.wordSized
  rw [h.making.on.content, (h.making.store.coherent d).content]
  exact s.slot_wordSized d

/-- The new inode is in the slot of its number modulo 256. -/
theorem slot_new (h : MkdirRun s t u s' p d a i b v w name) :
    s'.slot (i % 256) = mkdirInode i (s.part.sb.dataStartLba + b) := by
  rw [h.slot_stored]
  refine Inode.decode_of_encode h.mkdirInode_wordSized fun k hk => ?_
  rw [Bytes.splice_inside (by omega) (by omega), Nat.add_sub_cancel_left]

/-- And so is the inode of the directory, unless it has been overwritten. -/
theorem slot_dir (h : MkdirRun s t u s' p d a i b v w name) (hne : d % 256 ≠ i % 256) :
    s'.slot (d % 256) = w.pureInode := by
  rw [h.slot_stored]
  refine Inode.decode_of_encode h.wordSized fun k hk => ?_
  have hnumber := h.number
  rw [Bytes.splice_outside (by rw [Fs.slotAddr, Fs.slotAddr]; omega), hnumber,
    Bytes.splice_inside (by omega) (by omega), Nat.add_sub_cancel_left]

/-! ## Numbers that fit a byte -/

/-- The inode of the directory is cached as it is in the table. -/
theorem coherent_dir (h : MkdirRun s t u s' p d a i b v w name) (hslot : (s'.slot d).pureInode = w.pureInode) :
    s'.Coherent d := by
  intro c x hx hno
  rw [hslot]
  by_cases hc : c = a
  · subst hc
    exact h.self x hx
  · -- the directory is nowhere else in the cache
    have hin := hx
    rw [h.others c hc, ← h.making.on.others c hc] at hin
    exact absurd (h.making.on.sole h.making.store hin hno) hc

/-- The inode of the new directory is not cached. -/
theorem coherent_new (h : MkdirRun s t u s' p d a i b v w name) : s'.Coherent i := by
  intro c x hx hno
  by_cases hc : c = a
  · subst hc
    have hself := congrArg Inode.iNo (h.self x hx)
    have hnumber : x.iNo = d := hself.trans h.number
    exact absurd (hno.symm.trans hnumber) (h.making.number_ne h.takes)
  · rw [h.others c hc] at hx
    have hused := h.making.numbers.held c x hx
    rw [hno, h.takes.inode.2.1] at hused
    cases hused

theorem coherent_other (h : MkdirRun s t u s' p d a i b v w name) (hd : j ≠ d) (hslot : s'.slot j = s.slot j) :
    s'.Coherent j := by
  intro c x hx hno
  rw [hslot]
  by_cases hc : c = a
  · subst hc
    have hself := congrArg Inode.iNo (h.self x hx)
    have hnumber : x.iNo = d := hself.trans h.number
    exact absurd (hno.symm.trans hnumber) hd
  · rw [h.others c hc] at hx
    exact h.making.store.coherent j c x hx hno

/-- The entries of the directory, as the last steps leave its blocks alone. -/
theorem entries_dir (h : MkdirRun s t u s' p d a i b v w name) :
    w.blockAddr s'.disk = w.blockAddr u.disk ∧ dirEntries s'.disk w = dirEntries u.disk w := by
  have hge (lba : Nat) (hlba : u.InUse lba) : s.part.sb.dataStartLba ≤ lba := by
    rw [← h.part_u]
    exact hlba.ge
  apply dirEntries_frame
  · exact fun h12 => h.sectorAt_stored (hge _ (h.synced.blocks.table h12))
  · exact fun k hk hne => h.sectorAt_stored (hge _ (h.synced.blocks.inUse k hk hne))

/-- The block of the new directory. -/
theorem sectorAt_new (h : MkdirRun s t u s' p d a i b v w name) :
    sectorAt s'.disk (s.part.sb.dataStartLba + b) = (mkdirBlock i d).window 0 512 := by
  have hpart : (t.mkdirTaken i b d).part = s.part := h.making.same.part
  have huse : (t.mkdirTaken i b d).InUse (s.part.sb.dataStartLba + b) := by
    refine ⟨h.takes.lba, b, ?_, Bitmap.bitmapSet_bit_self _ _ _, by rw [hpart]⟩
    show b < t.blockBitmap.size
    rw [h.making.same.blockBitmap]
    exact h.takes.block.1
  rw [h.sectorAt_stored (Nat.le_add_right _ _), h.grown.others _ huse]
  · rw [← h.making.same.part]
    exact sectorAt_writeSector_self
  · intro k hk heq
    have hne : v.sector k ≠ 0 := by
      have hpos := h.making.store.layout.data_pos
      omega
    have hblock := h.making.inUse_block (k := k) (by omega)
    rw [Inode.blockAddr_direct hk, ← h.making.sector_eq] at hblock
    exact (hblock hne).ne_of_free h.takes.block.2.1 heq

theorem blockAddr_new {disk : Bytes} : (mkdirInode i lba).blockAddr disk k = if k = 0 then lba else 0 := by
  have hsec : ∀ k < 13, (mkdirInode i lba).sector k = if k = 0 then lba else 0 := fun k hk => dif_pos hk
  by_cases hk : k < 12
  · rw [Inode.blockAddr_direct hk, hsec k (by omega)]
  · rw [Inode.blockAddr_no_table (by omega) (hsec 12 (by decide)), if_neg (by omega)]

end MkdirRun

/-- The two entries of a new directory. -/
theorem mkdirBlock_entries {i d : Nat} (hi : i < 2 ^ 32) (hd : d < 2 ^ 32) :
    blockEntries (mkdirBlock i d) = {⟨dot, i, ftDir⟩, ⟨dotDot, d, ftDir⟩} := by
  have hself : (⟨dot, i, ftDir⟩ : DirEntry).Valid :=
    ⟨(by decide : DirEntry.NameOk dot), hi, (by decide : ftDir ≠ ftUnkown ∧ ftDir < 2 ^ 32)⟩
  have hup : (⟨dotDot, d, ftDir⟩ : DirEntry).Valid :=
    ⟨(by decide : DirEntry.NameOk dotDot), hd, (by decide : ftDir ≠ ftUnkown ∧ ftDir < 2 ^ 32)⟩
  have hfree : DirEntry.fTypeAt (firstEntryBlock ⟨dot, i, ftDir⟩) 1 = ftUnkown := by
    have hzero : DirEntry.fTypeAt (firstEntryBlock ⟨dot, i, ftDir⟩) 1 = Bytes.u32At Bytes.zero 0 :=
      Bytes.u32At_congr fun j hj => Bytes.splice_outside (by omega)
    rw [hzero, Bytes.u32At_zero]
  have hblock : mkdirBlock i d =
      (firstEntryBlock ⟨dot, i, ftDir⟩).splice (24 * 1) 24 (⟨dotDot, d, ftDir⟩ : DirEntry).encode := rfl
  rw [hblock, blockEntries_splice_encode (by decide) hup hfree, firstEntryBlock_entries hself]
  exact Multiset.cons_swap _ _ _

namespace MkdirRun

variable {s t u s' : Fs} {p : DirPtr} {d a i b j k lba : Nat} {v w : Inode} {name : CStr}

theorem entries_new (h : MkdirRun s t u s' p d a i b v w name) :
    dirEntries s'.disk (mkdirInode i (s.part.sb.dataStartLba + b)) = {⟨dot, i, ftDir⟩, ⟨dotDot, d, ftDir⟩} := by
  have hd := h.making.number_lt
  have hpos := h.making.store.layout.data_pos
  rw [← mkdirBlock_entries (h.making.number_word h.takes) (show d < 2 ^ 32 by omega), dirEntries,
    contents_eq_of_zero (m := 1) (by omega) fun k hk _ => ?_]
  · rw [contents, Finset.sum_range_one, blockAddr_new, if_pos rfl, entriesAt, if_neg (by omega), h.sectorAt_new,
      blockEntries_window]
  · rw [blockAddr_new, if_neg (by omega), entriesAt, if_pos rfl]

theorem size (h : MkdirRun s t u s' p d a i b v w name) : w.iSize = (s.content d).iSize + 24 := by
  have hcard := card_dirEntries_le s.disk (s.content d)
  have hsize := (h.making.store.dirOk d h.making.dir).size
  have hv : v.iSize = (s.content d).iSize := by
    rw [← h.making.on.content]
    rfl
  rw [h.synced.size, hv]
  omega

/-- The number is the one that was free. -/
theorem inode_bits (h : MkdirRun s t u s' p d a i b v w name) :
    s'.inodeMap.bit j = true ↔ s.inodeMap.bit j = true ∨ j = i := by
  rw [h.inodeMap]
  constructor
  · exact Bitmap.bit_of_bitmapSet
  · rintro (hold | rfl)
    · exact Bitmap.bit_bitmapSet_of_bit hold
    · exact Bitmap.bitmapSet_bit_self _ _ _

/-- A block that has been taken is the new directory's, or the parent's now. -/
theorem block_bits (h : MkdirRun s t u s' p d a i b v w name) (hdir : s'.content d = w.pureInode)
    (hnew : s'.content i = mkdirInode i (s.part.sb.dataStartLba + b)) (c : Nat) :
    s'.blockBitmap.bit c = true ↔ s.blockBitmap.bit c = true ∨
      s'.Owns d (s.part.sb.dataStartLba + c) ∨ s'.Owns i (s.part.sb.dataStartLba + c) := by
  have hpos := h.making.store.layout.data_pos
  have hpart : (t.mkdirTaken i b d).part = s.part := h.making.same.part
  have haddr : (s'.content d).blockAddr s'.disk = w.blockAddr u.disk := by
    rw [← h.entries_dir.1, hdir]
    rfl
  have hsec : (s'.content d).sector 12 = w.sector 12 := by
    rw [hdir]
    rfl
  have hold {m : Nat} (hm : s.blockBitmap.bit m = true) : u.blockBitmap.bit m = true := by
    apply h.grown.kept
    show (t.blockBitmap.bitmapSet b true).bit m = true
    rw [h.making.same.blockBitmap]
    exact Bitmap.bit_bitmapSet_of_bit hm
  have huse {m : Nat} (hm : u.InUse (s.part.sb.dataStartLba + m)) : u.blockBitmap.bit m = true := by
    obtain ⟨-, n, -, hbit, hn⟩ := hm
    rw [h.part_u] at hn
    obtain rfl : m = n := by omega
    exact hbit
  rw [h.blockBitmap]
  constructor
  · intro hbit
    have hne : s.part.sb.dataStartLba + c ≠ 0 := by omega
    rcases h.grown.taken c hbit with hbit | h12 | ⟨k, hk, hblock⟩
    · have hbit' : (t.blockBitmap.bitmapSet b true).bit c = true := hbit
      rw [h.making.same.blockBitmap] at hbit'
      rcases Bitmap.bit_of_bitmapSet hbit' with hbit' | rfl
      · exact Or.inl hbit'
      · refine Or.inr (Or.inr ⟨hne, Or.inr ⟨0, by decide, ?_⟩⟩)
        rw [hnew, MkdirRun.blockAddr_new, if_pos rfl]
    · rw [hpart] at h12
      exact Or.inr (Or.inl ⟨hne, Or.inl (by rw [hsec, h12])⟩)
    · rw [hpart] at hblock
      exact Or.inr (Or.inl ⟨hne, Or.inr ⟨k, hk, by rw [haddr, hblock]⟩⟩)
  · rintro (hbit | ⟨hne, hown⟩ | ⟨hne, hown⟩)
    · exact hold hbit
    · apply huse
      rcases hown with h12 | ⟨k, hk, hblock⟩
      · rw [hsec] at h12
        rw [h12] at hne ⊢
        exact h.synced.blocks.table hne
      · rw [haddr] at hblock
        rw [← hblock] at hne ⊢
        exact h.synced.blocks.inUse k hk hne
    · -- the new directory owns the block that was taken for it
      rw [hnew] at hown
      have h12 : (mkdirInode i (s.part.sb.dataStartLba + b)).sector 12 = 0 := rfl
      rcases hown with htable | ⟨k, hk, hblock⟩
      · exact absurd (htable.trans h12) hne
      · rw [MkdirRun.blockAddr_new] at hblock
        split at hblock
        · obtain rfl : b = c := by omega
          apply h.grown.kept
          exact Bitmap.bitmapSet_bit_self _ _ _
        · exact absurd hblock.symm hne

/-- Where both numbers fit a byte and no entry has been lost, the directory is made. -/
theorem made (h : MkdirRun s t u s' p d a i b v w name) (hd : d < 256) (hi : i < 256)
    (hfresh : ∀ e ∈ s.entries d, e.filename ≠ name)
    (hentries : dirEntries u.disk w = ⟨name, i, ftDir⟩ ::ₘ s.entries d) : Made s s' d i name := by
  have hmodd : d % 256 = d := Nat.mod_eq_of_lt hd
  have hmodi : i % 256 = i := Nat.mod_eq_of_lt hi
  have hne := h.making.number_ne h.takes
  have hslotd : s'.slot d = w.pureInode := by
    have hslot := h.slot_dir (by rw [hmodd, hmodi]; exact hne.symm)
    rwa [hmodd] at hslot
  have hslotd' : (s'.slot d).pureInode = w.pureInode := by
    rw [hslotd]
    rfl
  have hsloti : s'.slot i = mkdirInode i (s.part.sb.dataStartLba + b) := by
    have hslot := h.slot_new
    rwa [hmodi] at hslot
  have hcontd : s'.content d = w.pureInode := by rw [(h.coherent_dir hslotd').content, hslotd']
  have hconti : s'.content i = mkdirInode i (s.part.sb.dataStartLba + b) := by
    rw [h.coherent_new.content, hsloti]
    rfl
  refine ⟨h.part, hfresh, ?_, ?_, ?_, ?_, ?_, ?_, ⟨h.takes.inode.2.1, fun j => h.inode_bits⟩, h.block_bits hcontd hconti,
    fun j hj hjd => ?_, fun j hj hjd hji => h.slot_ne hj (by rwa [hmodd]) (by rwa [hmodi])⟩
  · rw [Fs.entries, hcontd, ← hentries, ← h.entries_dir.2]
    rfl
  · rw [hcontd]
    exact h.number
  · rw [hcontd]
    exact h.size
  · rw [hslotd', hcontd]
  · rw [Fs.entries, hconti]
    exact h.entries_new
  · rw [hconti, hsloti]
    exact ⟨rfl, rfl, rfl⟩
  · have hji : j ≠ i := by
      rintro rfl
      have hused := h.making.numbers.used j hj
      rw [h.takes.inode.2.1] at hused
      cases hused
    have hkept := h.slot_ne (h.making.store.inMap j hj).1 (by rwa [hmodd]) (by rwa [hmodi])
    have hspared : Spared s s' j := ⟨hkept, fun lba hown => h.sectorAt_other (h.making.store.inUse hj hown)
      fun hown' => hjd (h.making.store.apart j d lba hj (Or.inl h.making.dir) hown hown')⟩
    have hcoh := h.coherent_other hjd hkept
    exact ⟨hspared, hspared.content (h.making.store.coherent j) hcoh, (hspared.frame (h.making.store.coherent j) hcoh).2⟩

/-- A directory that has been made has numbers that fit a byte. -/
theorem numbers_of_made {i' : Nat} (h : MkdirRun s t u s' p d a i b v w name) (hmade : Made s s' d i' name) :
    i' = i ∧ d < 256 ∧ i < 256 := by
  have hne := h.making.number_ne h.takes
  have hdlt := h.making.number_lt
  obtain rfl : i' = i := by
    have hbit := (hmade.inodes.2 i').mpr (Or.inr rfl)
    rcases h.inode_bits.mp hbit with hold | heq
    · rw [hmade.inodes.1] at hold
      cases hold
    · exact heq
  have hi : i' < 256 := by
    by_contra hge
    -- the slot that is written belongs to a number in use
    have hused := h.takes.inode.2.2 (i' % 256) (by omega)
    by_cases hslot : i' % 256 = d
    · have hnew := h.slot_new
      rw [hslot] at hnew
      have hnumber := hmade.number
      rw [← hmade.slot, hnew] at hnumber
      exact hne hnumber
    · have hkept := hmade.table (i' % 256) (by omega) hslot (by omega)
      have hown := h.making.numbers.slotNo (i' % 256) (by omega) hused
      rw [← hkept, h.slot_new] at hown
      have hnumber : i' = i' % 256 := hown
      omega
  refine ⟨rfl, ?_, hi⟩
  by_contra hge
  -- the slot of the directory has not been written
  have hkept := h.slot_ne hdlt (by omega) (by omega)
  have hsize := hmade.size
  rw [← hmade.slot, hkept, ← (h.making.store.coherent d).content] at hsize
  omega

end MkdirRun

/-! ## Making a directory -/

namespace Making

variable {s t u : Fs} {p : DirPtr} {d a i b m : Nat} {v w : Inode} {name : CStr} {r : Int} {s' : Fs}

/-- The entry for the new directory. -/
theorem entry_valid (h : Making s t p d a v name) (hb : Takes s i b) : (⟨name, i, ftDir⟩ : DirEntry).Valid :=
  ⟨h.nameOk, h.number_word hb, (by decide : ftDir ≠ ftUnkown ∧ ftDir < 2 ^ 32)⟩

/-- Once the entry has been added nothing can fail. -/
theorem runs (h : Making s t p d a v name) (hb : Takes s i b) {x : Bool}
    (hentry : Returns (syncDirEntry p ⟨name, i, ftDir⟩) (t.mkdirTaken i b d) x u) (m : Nat) :
    ∃ w s', u.inodes a = some w ∧
      Returns (do sysFree (some m); dirClose p; return (0 : Int))
        (u.mkdirStored w (mkdirInode i (s.part.sb.dataStartLba + b)) i) 0 s' ∧
      MkdirRun s t u s' p d a i b v w name ∧
      (s.DirectRoom (s.content d) ∧ dirEntries u.disk w = ⟨name, i, ftDir⟩ ::ₘ s.entries d ∨
        ¬ s.DirectRoom (s.content d) ∧
          dirEntries u.disk w = ⟨name, i, ftDir⟩ ::ₘ directEntries (t.mkdirTaken i b d).disk v) := by
  obtain ⟨-, hres⟩ := returns_syncDirEntry h.layout_taken.entrySize h.handle_taken h.inode_taken hentry
  have hd := h.dirOk_taken hb
  obtain ⟨w, hsynced, hcase⟩ := hres.synced h.layout_taken hd.toEntriesOk (h.entry_valid hb)
  obtain ⟨w', hgrown⟩ := hres.grows h.layout_taken hd.toBlocksOk
  obtain rfl : w = w' := by
    have hw : u.inodes a = some w' := by
      rw [hgrown.rest]
      show Function.update (t.mkdirTaken i b d).inodes a (some w') a = _
      exact Function.update_self _ _ _
    exact Option.some.inj (hsynced.inode.symm.trans hw)
  have ha : u.handle p = some a := by
    rw [hsynced.handle]
    exact h.handle_taken
  obtain ⟨s', hend, hst, hother, hself⟩ :=
    frees_and_closes (u := u.mkdirStored w (mkdirInode i (s.part.sb.dataStartLba + b)) i) ha hsynced.inode m
  refine ⟨w, s', hsynced.inode, hend, ⟨h, hb, hsynced, hgrown, hst, fun c hc => ?_, hself⟩, ?_⟩
  · rw [hother c hc]
    show u.inodes c = _
    rw [hgrown.rest]
    exact (Function.update_of_ne hc _ _).trans (h.on.others c hc)
  · obtain ⟨-, hentries⟩ := h.frame_taken hb
    rw [← h.directRoom_taken hb]
    rcases hcase with ⟨hroom, hadd⟩ | ⟨hroom, hadd⟩
    · rw [hentries] at hadd
      exact Or.inl ⟨hroom, hadd⟩
    · exact Or.inr ⟨hroom, hadd⟩

theorem supplies_iff (h : Making s t p d a v name) (hb : Takes s i b) :
    (∃ x u, Returns (syncDirEntry p ⟨name, i, ftDir⟩) (t.mkdirTaken i b d) x u) ↔
      (s.blockBitmap.bitmapSet b true).Supplies s.part.sb.dataStartLba (s.wanted (s.content d) 12 0) := by
  rw [syncDirEntry_runs_iff h.layout_taken h.handle_taken h.inode_taken (h.dirOk_taken hb), h.wanted_taken hb]
  show (t.blockBitmap.bitmapSet b true).Supplies t.part.sb.dataStartLba _ ↔ _
  rw [h.same.blockBitmap, h.same.part]

/-- Where there is room the call goes through, and no entry is lost. -/
theorem installs (h : Making s t p d a v name) (hroom : s.MkdirRoom d) {rec : PathSearchRecord} (hp : rec.parentDir = p)
    (hname : lastName rec.searchedPath = name) :
    ∃ i b w x u s', i < 256 ∧ t.inodeMap.IsFirstClear i ∧
      Returns (mkdirInstall rec (some m) i) { t with inodeMap := t.inodeMap.bitmapSet i true } 0 s' ∧
      Returns (syncDirEntry p ⟨name, i, ftDir⟩) (t.mkdirTaken i b d) x u ∧ MkdirRun s t u s' p d a i b v w name ∧
      dirEntries u.disk w = ⟨name, i, ftDir⟩ ::ₘ s.entries d := by
  obtain ⟨-, ⟨i, hi, hfirst⟩, ⟨b, hblock, hlba, hsupply⟩, hplace⟩ := hroom
  have hb : Takes s i b := ⟨hfirst, hblock, hlba⟩
  obtain ⟨x, u, hentry⟩ := (h.supplies_iff hb).mpr hsupply
  obtain ⟨w, s', hw, hend, hrun, hcase⟩ := h.runs hb hentry m
  refine ⟨i, b, w, x, u, s', hi, by rw [h.same.inodeMap]; exact hfirst,
    (h.returns_install hb hp hname).mpr ⟨x, u, hentry, w, hw, hend⟩, hentry, hrun, ?_⟩
  rcases hcase with ⟨-, hadd⟩ | ⟨hfull, hadd⟩
  · exact hadd
  · -- nothing lies behind the index table
    have hadd' := dirEntries_eq_add (t.mkdirTaken i b d).disk v
    rw [h.indirect_taken hb, hplace.resolve_left hfull, add_zero, (h.frame_taken hb).2] at hadd'
    rw [hadd, ← hadd']

/-- And the directory is made. -/
theorem makes (h : Making s t p d a v name) (hfresh : ∀ e ∈ s.entries d, e.filename ≠ name) (hroom : s.MkdirRoom d)
    {rec : PathSearchRecord} (hp : rec.parentDir = p) (hname : lastName rec.searchedPath = name) :
    ∃ i s', t.inodeMap.IsFirstClear i ∧
      Returns (mkdirInstall rec (some m) i) { t with inodeMap := t.inodeMap.bitmapSet i true } 0 s' ∧ Made s s' d i name := by
  obtain ⟨i, b, w, x, u, s', hi, hfirst, hinstall, -, hrun, hadd⟩ := h.installs (m := m) hroom hp hname
  exact ⟨i, s', hfirst, hinstall, hrun.made hroom.1 hi hfresh hadd⟩

/-- A call that comes back has made something, and the directory that was asked for only where there is
    room. -/
theorem made (h : Making s t p d a v name) {rec : PathSearchRecord} (hp : rec.parentDir = p)
    (hname : lastName rec.searchedPath = name) (hi : t.inodeMap.IsFirstClear i)
    (hrun : Returns (mkdirInstall rec (some m) i) { t with inodeMap := t.inodeMap.bitmapSet i true } r s') :
    r = 0 ∧ ∀ i', Made s s' d i' name → s.MkdirRoom d := by
  obtain ⟨b, hb⟩ := h.block_of_install hi hrun
  obtain ⟨x, u, hentry, w, hw, hend⟩ := (h.returns_install hb hp hname).mp hrun
  obtain ⟨w', s'', hw', hend', hmkdir, hcase⟩ := h.runs hb hentry m
  obtain rfl := Option.some.inj (hw.symm.trans hw')
  obtain ⟨rfl, rfl⟩ := hend.unique hend'
  refine ⟨rfl, fun i' hmade => ?_⟩
  obtain ⟨rfl, hdlt, hilt⟩ := hmkdir.numbers_of_made hmade
  refine ⟨hdlt, ⟨i', hilt, hb.inode⟩, ⟨b, hb.block, hb.lba, (h.supplies_iff hb).mp ⟨x, u, hentry⟩⟩, ?_⟩
  rcases hcase with ⟨hroom, -⟩ | ⟨-, hadd⟩
  · exact Or.inl hroom
  · -- the entries behind the index table would be missing
    right
    have hslot := hmkdir.slot_dir (by
      rw [Nat.mod_eq_of_lt hdlt, Nat.mod_eq_of_lt hilt]
      exact (h.number_ne hb).symm)
    rw [Nat.mod_eq_of_lt hdlt] at hslot
    have hcontent : s'.content d = w.pureInode := by
      rw [← hmade.slot, hslot]
      rfl
    have hentries := hmade.entry
    have hleft : s'.entries d = dirEntries u.disk w := by
      rw [Fs.entries, hcontent, ← hmkdir.entries_dir.2]
      rfl
    have hall := dirEntries_eq_add (t.mkdirTaken i' b d).disk v
    rw [(h.frame_taken hb).2, h.indirect_taken hb] at hall
    rw [hleft, hadd, hall] at hentries
    have hcard := congrArg Multiset.card hentries
    rw [Multiset.card_cons, Multiset.card_cons, Multiset.card_add] at hcard
    exact Multiset.card_eq_zero.mp (by omega)

end Making

section Mkdir

variable {s s₁ s' : Fs} {path : CStr} {user : Bool} {out : Option Nat × PathSearchRecord} {r : Int} {d k m : Nat}

/-- `sys_mkdir` behind the search. -/
def mkdirSearched (path : CStr) (ioBuf : Option Nat) (out : Option Nat × PathSearchRecord) : FsM Int := do
  if out.1 ≠ none then
    dirClose out.2.parentDir
    sysFree ioBuf
    return -1
  let pathnameDepth ← pathDepthCnt path
  let pathSearchedDepth ← pathDepthCnt out.2.searchedPath
  if pathnameDepth ≠ pathSearchedDepth then
    dirClose out.2.parentDir
    sysFree ioBuf
    return -1
  let iNo ← inodeBitmapAlloc
  match iNo with
  | none =>
    dirClose out.2.parentDir
    sysFree ioBuf
    return -1
  | some iNo => mkdirInstall out.2 ioBuf iNo

theorem returns_sysMkdir {s₀ : Fs} (hmalloc : Returns sysMalloc s (some m) s₀) (hsearch : Returns (searchFile path) s₀ out s₁) :
    Returns (sysMkdir path) s r s' ↔ Returns (mkdirSearched path (some m) out) s₁ r s' := by
  have hne : ¬ (some m : Option Nat) = none := by simp
  rw [sysMkdir, returns_bind_iff hmalloc, if_neg hne, returns_bind_iff hsearch]
  rfl

/-- Giving up: the handle is closed, the buffer freed, and everything is as it was. -/
theorem gives_up (hlive : s.heap.LiveBelow) (hst : Stands (s.buffered user) s₁ out.2.parentDir d k) :
    ∃ s', Returns (do dirClose out.2.parentDir; sysFree (some s.heap.next); return (-1 : Int)) s₁ (-1) s' ∧ Restored s s' := by
  obtain ⟨t, hclose, rfl⟩ := hst.close
  obtain ⟨s', hfree⟩ := sysFree_returns ((s.buffered user).heapAt ((s.buffered user).heap.next + k)) s.heap.next
  refine ⟨s', ?_, s.heap.next + 1 + k, by omega, ?_⟩
  · rw [returns_bind_iff hclose, returns_bind_iff hfree]
    exact returns_pure.mpr ⟨rfl, rfl⟩
  · obtain ⟨b, hb, rfl⟩ := sysFree_inv hfree
    obtain rfl := Option.some.inj hb
    have hfreed : (s.heap.alloc user).freed s.heap.next = s.heap.goOn (s.heap.next + 1) := hlive.freed_alloc
    show { s with heap := ((s.heap.alloc user).freed s.heap.next).goOn (s.heap.next + 1 + k) } = _
    rw [hfreed]
    rfl

theorem mkdirSearched_found (hlive : s.heap.LiveBelow) (hst : Stands (s.buffered user) s₁ out.2.parentDir d k)
    (hfound : out.1 ≠ none) : ∃ s', Returns (mkdirSearched path (some s.heap.next) out) s₁ (-1) s' ∧ Restored s s' := by
  obtain ⟨s', hrun, hrest⟩ := gives_up hlive hst
  refine ⟨s', ?_, hrest⟩
  rw [mkdirSearched, if_pos hfound]
  exact hrun

/-- The search has spelled the first components of the path. -/
theorem depth_searched {t : Fs} {n : Nat} {upto more : List CStr} (hsearched : out.2.searchedPath = spell slash upto)
    (hcs : components slash path = upto ++ more) (hupto : upto ≠ []) :
    Returns (pathDepthCnt out.2.searchedPath) s n t ↔ AllFit upto ∧ n = upto.length ∧ s = t := by
  have hclean : ∀ c ∈ upto, c ≠ [] ∧ slash ∉ c := by
    intro c hc
    have hin : c ∈ components slash path := by
      rw [hcs]
      exact List.mem_append_left _ hc
    obtain ⟨hne, hsep, -⟩ := mem_components hin
    exact ⟨hne, hsep⟩
  have hcomp := components_spell hclean
  have hhead : out.2.searchedPath.head? = some slash := by
    rw [hsearched]
    cases upto with
    | nil => exact absurd rfl hupto
    | cons c cs => rfl
  rw [pathDepthCnt_iff hhead (by rw [hsearched, hcomp]; exact hupto), hsearched, hcomp]

/-- Behind a search that has found nothing, the components are counted: where some have not been looked
    up the call gives up, and where all have it goes on. -/
theorem mkdirSearched_missing (habs : path.head? = some slash) (hnone : out.1 = none) {upto more : List CStr}
    (hsearched : out.2.searchedPath = spell slash upto) (hcs : components slash path = upto ++ more) (hupto : upto ≠ []) :
    Returns (mkdirSearched path (some m) out) s₁ r s' ↔ AllFit (components slash path) ∧
      ((more ≠ [] ∧ Returns (do dirClose out.2.parentDir; sysFree (some m); return (-1 : Int)) s₁ r s') ∨
        more = [] ∧ ∃ i, s₁.inodeMap.IsFirstClear i ∧
          Returns (mkdirInstall out.2 (some m) i) { s₁ with inodeMap := s₁.inodeMap.bitmapSet i true } r s') := by
  have hne : components slash path ≠ [] := by
    rw [hcs]
    simp [hupto]
  have hdepth {n : Nat} {t : Fs} := pathDepthCnt_iff (s := s₁) (t := t) (r := n) habs hne
  have hdepth' {n : Nat} {t : Fs} := depth_searched (s := s₁) (t := t) (n := n) hsearched hcs hupto
  have hlen : (components slash path).length = upto.length + more.length := by rw [hcs, List.length_append]
  have hfirst (hfit : AllFit (components slash path)) : AllFit upto := fun c hc => hfit c (by
    rw [hcs]
    exact List.mem_append_left _ hc)
  -- the two counts differ where something is left
  have hdiffer : (components slash path).length ≠ upto.length ↔ more ≠ [] := by
    rw [hlen, ← List.length_pos_iff_ne_nil]
    omega
  have hsome : ¬ (out.1 ≠ none) := not_not.mpr hnone
  have hgo (hfit : AllFit (components slash path)) : Returns (mkdirSearched path (some m) out) s₁ r s' ↔
      (more ≠ [] ∧ Returns (do dirClose out.2.parentDir; sysFree (some m); return (-1 : Int)) s₁ r s') ∨
        more = [] ∧ ∃ i, s₁.inodeMap.IsFirstClear i ∧
          Returns (mkdirInstall out.2 (some m) i) { s₁ with inodeMap := s₁.inodeMap.bitmapSet i true } r s' := by
    rw [mkdirSearched, if_neg hsome, returns_bind_iff (hdepth.mpr ⟨hfit, rfl, rfl⟩),
      returns_bind_iff (hdepth'.mpr ⟨hfirst hfit, rfl, rfl⟩)]
    by_cases hmore : more = []
    · rw [if_neg fun h => hdiffer.mp h hmore]
      simp only [returns_bind (x := inodeBitmapAlloc), returns_inodeBitmapAlloc]
      constructor
      · rintro ⟨_, _, ⟨i, rfl, hi, rfl⟩, hrun⟩
        exact Or.inr ⟨hmore, i, hi, hrun⟩
      · rintro (⟨hne, -⟩ | ⟨-, i, hi, hrun⟩)
        · exact absurd hmore hne
        · exact ⟨_, _, ⟨i, rfl, hi, rfl⟩, hrun⟩
    · rw [if_pos (hdiffer.mpr hmore)]
      constructor
      · exact fun hrun => Or.inl ⟨hmore, hrun⟩
      · rintro (⟨-, hrun⟩ | ⟨hnil, -⟩)
        · exact hrun
        · exact absurd hnil hmore
  constructor
  · intro hrun
    have hfit : AllFit (components slash path) := by
      have hrun' := hrun
      rw [mkdirSearched, if_neg hsome] at hrun'
      obtain ⟨_, _, hcount, -⟩ := returns_bind.mp hrun'
      exact (hdepth.mp hcount).1
    exact ⟨hfit, (hgo hfit).mp hrun⟩
  · rintro ⟨hfit, hrun⟩
    exact (hgo hfit).mpr hrun

theorem Fs.StoreOk.buffered (hs : s.StoreOk) : (s.buffered user).StoreOk :=
  hs.beside (s := s) (h := s.heap.alloc user) (b := s.blockBitmap) hs.live.alloc (Nat.le_succ _) rfl fun _ hj => hj

/-- A missing name has been looked up in directory `d`, on which the handle is open. -/
theorem Fs.NumbersOk.making (hs : s.NumbersOk) {name : CStr} (hst : Stands (s.buffered user) s₁ out.2.parentDir d k)
    (hdir : s.IsDir d) (hname : DirEntry.NameOk name) : ∃ a v, Making s s₁ out.2.parentDir d a v name := by
  obtain ⟨a, v, hon⟩ := hst.dirOn
  refine ⟨a, v, hs, ⟨hst.part, hst.disk, hst.blockBitmap, hst.inodeMap⟩, ?_, hdir, hname⟩
  exact ⟨hon.handle, hon.inode, hon.content, hon.others, hon.was⟩

/-- The last component of a path, as the search has spelled it. -/
theorem lastName_spell {cs : List CStr} (hne : cs ≠ []) (hsep : ∀ c ∈ cs, slash ∉ c) :
    lastName (spell slash cs) = cs.getLastD [] := by
  rcases List.eq_nil_or_concat' cs with rfl | ⟨ds, c, rfl⟩
  · exact absurd rfl hne
  · rw [spell_append, spell_cons, spell_nil, List.append_nil, lastName_concat (hsep c (by simp)), List.getLastD_concat]

theorem getLastD_mem {cs : List CStr} (hne : cs ≠ []) : cs.getLastD [] ∈ cs := by
  rcases List.eq_nil_or_concat' cs with rfl | ⟨ds, c, rfl⟩
  · exact absurd rfl hne
  · rw [List.getLastD_concat]
    simp

theorem lastName_ok (hnul : ∀ b ∈ path, b ≠ 0) (hne : components slash path ≠ []) (hfit : AllFit (components slash path)) :
    DirEntry.NameOk ((components slash path).getLastD []) := by
  have hmem := getLastD_mem hne
  obtain ⟨hpos, -, hin⟩ := mem_components hmem
  exact ⟨List.length_pos_of_ne_nil hpos, hfit _ hmem, fun b hb => hnul b (hin.mem hb)⟩

/-- Where the walk comes to something, there is nothing to be made. -/
theorem not_made {i : Nat} {child : Child Nat} (hne : components slash path ≠ []) (hfound : (s.walkPath path).found = some child)
    (hrest : (s.walkPath path).rest = []) :
    ¬ Made s s' (s.walkPath path).above i ((components slash path).getLastD []) := by
  intro hmade
  have hnames := arrive_last (i := 0) hne hrest []
  have hwalk : (arrive s.names 0 0 [] (components slash path)).found = some child := hfound
  rw [hwalk] at hnames
  obtain ⟨e, he, hname, -⟩ := Fs.exists_of_names hnames
  exact hmade.fresh e he hname

/-- Past the number the call does not fail. -/
theorem mkdirInstall_zero {rec : PathSearchRecord} {ioBuf : Option Nat} {i : Nat}
    (hrun : Returns (mkdirInstall rec ioBuf i) s r s') : r = 0 := by
  unfold mkdirInstall at hrun
  simp only [returns_bind (x := query _), returns_bind (x := blockBitmapAlloc), returns_blockBitmapAlloc] at hrun
  obtain ⟨_, _, -, o, _, ⟨b, rfl, -, -⟩, hrun⟩ := hrun
  simp only [returns_bind, returns_pure] at hrun
  obtain ⟨_, _, -, _, _, -, _, _, -, _, _, -, _, _, -, _, _, -, _, _, -, _, _, -, _, _, -, _, _, -, _, _, -, _, _, -, _, _, -,
    rfl, -⟩ := hrun
  rfl

/-- The end of the call where the search has gone through. -/
theorem mkdirSearched_arrives (hs : s.NumbersOk) (habs : path.head? = some slash) (hnul : ∀ b ∈ path, b ≠ 0)
    (hne : components slash path ≠ []) (harr : Arrives (s.buffered user) s₁ (s.walkPath path) k out) :
    (∃ r s', Returns (mkdirSearched path (some s.heap.next) out) s₁ r s' ∧
      (r = 0 ∧ (∃ i, Made s s' (s.walkPath path).above i ((components slash path).getLastD [])) ∨ r = -1 ∧ Restored s s')) ↔
      ((s.walkPath path).found = none → AllFit (components slash path) ∧
        ((s.walkPath path).rest = [] → s.MkdirRoom (s.walkPath path).above)) := by
  have hnumber := harr.number
  cases hfound : (s.walkPath path).found with
  | some child =>
    rw [hfound] at hnumber
    have hsome : out.1 ≠ none := by
      rw [hnumber]
      simp
    refine iff_of_true ?_ nofun
    obtain ⟨s', hrun, hrest⟩ := mkdirSearched_found hs.live harr.parent hsome
    exact ⟨-1, s', hrun, Or.inr ⟨rfl, hrest⟩⟩
  | none =>
    rw [hfound] at hnumber
    obtain ⟨upto, hseen, hcs, hupto⟩ := arrive_seen (i := 0)
      
    rw [List.nil_append] at hseen
    have hsearched : out.2.searchedPath = spell slash upto := harr.searched.trans (congrArg (spell slash) hseen)
    have hgo {r : Int} {s' : Fs} := @mkdirSearched_missing s₁ s' _ _ r s.heap.next habs hnumber
      _ _ hsearched hcs.symm (hupto hfound)
    obtain ⟨s'', hstop, hrest⟩ := gives_up hs.live harr.parent
    have hdir : s.IsDir (s.walkPath path).above := dir_arrive .root .root
    rw [imp_iff_right rfl]
    by_cases hmore : (s.walkPath path).rest = []
    · -- every component has been looked up
      have hlast : lastName out.2.searchedPath = (components slash path).getLastD [] := by
        have hall : upto = components slash path := by
          rw [← hcs]
          show upto = upto ++ (s.walkPath path).rest
          rw [hmore, List.append_nil]
        rw [hsearched, hall]
        exact lastName_spell hne fun c hc => (mem_components hc).2.1
      have hfresh : ∀ e ∈ s.entries (s.walkPath path).above, e.filename ≠ (components slash path).getLastD [] := by
        have hnames := arrive_last (i := 0) hne hmore []
        exact Fs.names_eq_none.mp (hnames.trans hfound)
      rw [imp_iff_right hmore]
      constructor
      · rintro ⟨r, s', hrun, hout⟩
        obtain ⟨hfit, ⟨hnot, -⟩ | ⟨-, i, hi, hrun⟩⟩ := hgo.mp hrun
        · exact absurd hmore hnot
        · obtain ⟨a, v, hm⟩ := hs.making harr.parent hdir (lastName_ok hnul hne hfit)
          obtain ⟨rfl, hroom⟩ := hm.made rfl hlast hi hrun
          rcases hout with ⟨-, i', hmade⟩ | ⟨hr, -⟩
          · exact ⟨hfit, hroom i' hmade⟩
          · cases hr
      · rintro ⟨hfit, hroom⟩
        obtain ⟨a, v, hm⟩ := hs.making harr.parent hdir (lastName_ok hnul hne hfit)
        obtain ⟨i, s', hi, hrun, hmade⟩ := hm.makes hfresh hroom rfl hlast
        exact ⟨0, s', hgo.mpr ⟨hfit, Or.inr ⟨hmore, i, hi, hrun⟩⟩, Or.inl ⟨rfl, i, hmade⟩⟩
    · constructor
      · rintro ⟨r, s', hrun, -⟩
        exact ⟨(hgo.mp hrun).1, fun hnil => absurd hnil hmore⟩
      · rintro ⟨hfit, -⟩
        exact ⟨-1, s'', hgo.mpr ⟨hfit, Or.inl ⟨hmore, hstop⟩⟩, Or.inr ⟨rfl, hrest⟩⟩

/-- And where it has starved. -/
theorem mkdirSearched_starves (hs : s.NumbersOk) (habs : path.head? = some slash)
    (hne : components slash path ≠ []) (hmiss : Misses (s.buffered user) s₁ (s.walkPath path) out)
    {upto more : List CStr} (hsearched : out.2.searchedPath = spell slash upto) (hcs : components slash path = upto ++ more)
    (hupto : upto ≠ []) :
    (∃ r s', Returns (mkdirSearched path (some s.heap.next) out) s₁ r s' ∧
      (r = 0 ∧ (∃ i, Made s s' (s.walkPath path).above i ((components slash path).getLastD [])) ∨ r = -1 ∧ Restored s s')) ↔
      more ≠ [] ∧ AllFit (components slash path) := by
  obtain ⟨d, k, hst⟩ := hmiss.parent
  have hgo {r : Int} {s' : Fs} := @mkdirSearched_missing s₁ s' _ _ r s.heap.next habs hmiss.number
    _ _ hsearched hcs hupto
  constructor
  · rintro ⟨r, s', hrun, hout⟩
    obtain ⟨hfit, ⟨hmore, -⟩ | ⟨hnil, i, hi, hrun⟩⟩ := hgo.mp hrun
    · exact ⟨hmore, hfit⟩
    · -- the name is there, and the call has gone on all the same
      exfalso
      obtain ⟨seen, beyond, hsearched', hseen, hbeyond⟩ := hmiss.searched
      obtain ⟨all, hall, hall', -⟩ := arrive_seen (i := 0)
        
      have hwalk : (s.walkPath path).seen = all := hall
      have hsplit : seen ++ (beyond ++ (s.walkPath path).rest) = upto := by
        rw [← List.append_assoc, ← (show (s.walkPath path).seen = seen ++ beyond from hseen), hwalk]
        show all ++ (arrive s.names 0 0 [] (components slash path)).rest = _
        rw [hall', hcs, hnil, List.append_nil]
      have hnone : beyond ++ (s.walkPath path).rest = [] := by
        by_contra hleft
        have hlen := @spell_length_append seen _ hleft
        rw [hsplit, ← hsearched, hsearched'] at hlen
        exact absurd hlen (Nat.lt_irrefl _)
      obtain ⟨hempty, hrest⟩ := List.append_eq_nil_iff.mp hnone
      have hfound : (s.walkPath path).found ≠ none := fun hnone => hbeyond hnone hempty
      obtain ⟨child, hchild⟩ := Option.ne_none_iff_exists'.mp hfound
      obtain rfl := mkdirInstall_zero hrun
      rcases hout with ⟨-, i', hmade⟩ | ⟨hr, -⟩
      · exact not_made hne hchild hrest hmade
      · cases hr
  · rintro ⟨hmore, hfit⟩
    obtain ⟨s', hstop, hrest⟩ := gives_up hs.live hst
    exact ⟨-1, s', hgo.mpr ⟨hfit, Or.inl ⟨hmore, hstop⟩⟩, Or.inr ⟨rfl, hrest⟩⟩

end Mkdir

/-- In a file system in order `sys_mkdir` makes the directory or changes nothing exactly where it can
    deal with the path. -/
theorem mkdir_all_or_nothing_iff (s : Fs) (path : CStr) (hs : s.NumbersOk) (habs : path.head? = some slash)
    (hnul : ∀ b ∈ path, b ≠ 0) (hne : components slash path ≠ []) : MkdirExactly s path ↔ s.MkdirFits path := by
  unfold MkdirExactly Fs.MkdirFits
  by_cases hfull : s.heap.full s.heap.next = true
  · -- no buffer
    refine iff_of_true ?_ (Or.inl hfull)
    refine ⟨-1, s.heapAt (s.heap.next + 1), ?_, Or.inr ⟨rfl, _, Nat.le_succ _, rfl⟩⟩
    rw [sysMkdir, returns_bind_iff (sysMalloc_refused hs.running hfull), if_pos rfl]
    exact returns_pure.mpr ⟨rfl, rfl⟩
  rw [or_iff_right hfull]
  obtain ⟨c, hc⟩ := hs.running
  have hmalloc : Returns sysMalloc s (some s.heap.next) (s.buffered c.userSpace) := by
    simp only [sysMalloc, mallocFrom, returns_bind, returns_runningThread, returns_query]
    refine ⟨c, s, ⟨hc, rfl⟩, s.heap, s, ⟨rfl, rfl⟩, ?_⟩
    rw [if_neg hfull]
    simp only [returns_bind, returns_update, returns_pure]
    exact ⟨(), _, rfl, trivial, rfl⟩
  have hs₀ : (s.buffered c.userSpace).StoreOk := hs.toStoreOk.buffered
  have hcall {out : Option Nat × PathSearchRecord} {s₁ s' : Fs} {r : Int}
      (hsearch : Returns (searchFile path) (s.buffered c.userSpace) out s₁) :=
    @returns_sysMkdir _ _ s' _ _ r _ _ hmalloc hsearch
  rw [← clear_buffered, ← starved_buffered]
  by_cases hroot : RootAlias path
  · -- the root is there already
    have hlen : path.length < 512 := by
      rcases hroot with rfl | rfl | rfl <;> decide
    refine iff_of_true ?_ ⟨hlen, Or.inl hroot⟩
    have hsearch : Returns (searchFile path) (s.buffered c.userSpace)
        (some 0, { searchedPath := [], parentDir := .root, fType := ftDir }) (s.buffered c.userSpace) := by
      rw [searchFile_root hroot]
      exact returns_pure.mpr ⟨rfl, rfl⟩
    obtain ⟨s', hrun, hrest⟩ := @mkdirSearched_found _ _ _ _
      (some 0, { searchedPath := [], parentDir := .root, fType := ftDir }) _ _ hs.live (.root hs₀.toTreeOk) (by simp)
    exact ⟨-1, s', (hcall hsearch).mpr hrun, Or.inr ⟨rfl, hrest⟩⟩
  rw [or_iff_right hroot]
  constructor
  · rintro ⟨r, s', hrun, hout⟩
    have hrun' := hrun
    rw [sysMkdir, returns_bind_iff hmalloc, if_neg (by simp)] at hrun'
    obtain ⟨out, s₁, hsearch, -⟩ := returns_bind.mp hrun'
    have hlen : path.length < 512 := by
      have hsearch' := hsearch
      rw [searchFile_walk hroot] at hsearch'
      obtain ⟨_, _, hassert, -⟩ := returns_bind.mp hsearch'
      exact ((returns_assert _ _).mp hassert).1.2.2
    obtain ⟨-, hfit, hloop⟩ := searchFile_loop habs hroot hsearch
    refine ⟨hlen, hfit, ?_⟩
    rcases searchLoop_clear hs₀.toTreeOk _ (.start hs₀.toTreeOk habs hlen hnul hne hfit) hloop with hclear | hstarved
    · obtain ⟨out', t, hsearch', harr⟩ := searchFile_arrives hs₀.toTreeOk habs hlen hnul hroot hne hfit hclear
      obtain ⟨rfl, rfl⟩ := hsearch.unique hsearch'
      exact Or.inl ⟨hclear, (mkdirSearched_arrives hs habs hnul hne harr).mp ⟨r, s', (hcall hsearch).mp hrun, hout⟩⟩
    · obtain ⟨out', t, hsearch', hmiss, upto, more, hsearched, hupto, hcs, hmore⟩ :=
        searchFile_starves hs₀.toTreeOk habs hlen hnul hroot hne hfit hstarved
      obtain ⟨rfl, rfl⟩ := hsearch.unique hsearch'
      obtain ⟨hleft, hall⟩ := (mkdirSearched_starves hs habs hne hmiss hsearched hcs hupto).mp
        ⟨r, s', (hcall hsearch).mp hrun, hout⟩
      exact Or.inr ⟨not_not.mp fun h => hleft (hmore.mpr h), hall⟩
  · rintro ⟨hlen, hfit, ⟨hclear, hroom⟩ | ⟨hstarved, hall⟩⟩
    · obtain ⟨out, s₁, hsearch, harr⟩ := searchFile_arrives hs₀.toTreeOk habs hlen hnul hroot hne hfit hclear
      obtain ⟨r, s', hrun, hout⟩ := (mkdirSearched_arrives hs habs hnul hne harr).mpr hroom
      exact ⟨r, s', (hcall hsearch).mpr hrun, hout⟩
    · obtain ⟨out, s₁, hsearch, hmiss, upto, more, hsearched, hupto, hcs, hmore⟩ :=
        searchFile_starves hs₀.toTreeOk habs hlen hnul hroot hne hfit (starved_of_dropLast hstarved)
      obtain ⟨r, s', hrun, hout⟩ := (mkdirSearched_starves hs habs hne hmiss hsearched hcs hupto).mpr
        ⟨fun hnil => hmore.mp hnil hstarved, hall⟩
      exact ⟨r, s', (hcall hsearch).mpr hrun, hout⟩

/-! ## The small tree -/

namespace SmallTree

theorem numbersOk : fs.NumbersOk where
  toStoreOk := storeOk
  used := by
    intro i hi
    have hlt := inTree hi
    exact decide_eq_true hlt
  held := by
    intro a v hv
    by_cases ha : a = 0
    · subst ha
      obtain rfl := Option.some.inj hv
      decide
    · have hnone : fs.inodes a = none := if_neg ha
      rw [hnone] at hv
      cases hv
  slotNo := by
    intro i _ hi
    have hlt : i < 4 := of_decide_eq_true hi
    have hslots : ∀ i < 4, (fs.slot i).iNo = i := by decide +kernel
    exact hslots i hlt

/-- `"/x"`. -/
def newPath : CStr := [47, 120]

/-- The same file system with no block left. -/
def full : Fs := { fs with blockBitmap := { btmpBytesLen := 4, bit := fun _ => true } }

theorem full_numbersOk : full.NumbersOk where
  toStoreOk := storeOk.beside (h := fs.heap) (b := { btmpBytesLen := 4, bit := fun _ => true }) storeOk.live le_rfl rfl
    fun _ _ => rfl
  used := fun i hi => numbersOk.used i (inTree_beside.mp hi)
  held := numbersOk.held
  slotNo := numbersOk.slotNo

end SmallTree

open SmallTree in
/-- `"/x"` is made. -/
theorem mkdir_all_or_nothing_new : MkdirExactly fs newPath := by
  have hcs : components slash newPath = [[120]] := by decide
  have hnames : fs.names 0 [120] = none := by
    rw [Fs.names_eq_none, entries_root]
    decide
  have hwalk : fs.walkPath newPath = ⟨none, 0, [[120]], []⟩ := by
    rw [Fs.walkPath, hcs, arrive_cons_none hnames]
    rfl
  refine (mkdir_all_or_nothing_iff fs newPath numbersOk rfl (by decide) (by rw [hcs]; simp)).mpr
    (Or.inr ⟨by decide, Or.inr ⟨by decide, Or.inl ⟨?_, fun _ => ⟨by decide, fun _ => ?_⟩⟩⟩⟩)
  · rw [hcs]
    simp only [Fs.Clear, hnames]
    exact Or.inr (grants _ _)
  · rw [hwalk]
    refine ⟨by decide, ⟨4, by decide, by decide, by decide, ?_⟩, ?_, ?_⟩
    · intro j hj
      exact decide_eq_true hj
    · have hwanted : fs.wanted (fs.content 0) 12 0 = 0 := by decide +kernel
      rw [hwanted]
      exact ⟨2, ⟨by decide, by decide, fun j hj => decide_eq_true hj⟩, by decide, trivial⟩
    · left
      refine ⟨0, by decide, Or.inr ⟨4, by decide, ?_⟩⟩
      decide +kernel

open SmallTree in
/-- With no block left the call asserts that there is one. -/
theorem mkdir_no_block : full.NumbersOk ∧ Stops (sysMkdir newPath) full .panic ∧ ¬ MkdirExactly full newPath := by
  have hstop : Stops (sysMkdir newPath) full .panic := by
    rw [← stopsFor_eq_true]
    decide +kernel
  refine ⟨full_numbersOk, hstop, ?_⟩
  rintro ⟨r, s', hrun, -⟩
  cases hstop.symm.trans hrun

end ZxyOs
