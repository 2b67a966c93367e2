/-
  ZxyOs.Fs.Mount

  Starting the file system (`filesys_init`).

  The kernel looks for the number of a file system in the super block of the partition, makes
  a file system if there is none, and reads what it keeps in memory off the disk: it comes to
  the state `Fs.mountedAt`, which depends on nothing but the disk and the addresses the heap
  hands out.

  On a disk that has what a kernel knew in memory (`Fs.Saved`) it finds the tree that was
  there (`mounted_inOrder`).
-/

import ZxyOs.Fs.Saved

namespace ZxyOs

open Lib Lib.Exec

/-- The search for a file system in `filesys_init`: the partition is formatted unless there is one. -/
def searchFileSystem (startLba secCnt : Nat) : FsM Unit := do
  let sbBuf ← ideRead (startLba + 1) 1 512
  if (SuperBlock.decode sbBuf).magic ≠ 0x19590318 then
    partitionFormat startLba secCnt

/-- The part of `filesys_init` that concerns one partition: it is formatted if it has to be, mounted,
    and its root directory opened.  The loop on `file_table` runs from 1 to 32. -/
def filesysStart (startLba secCnt : Nat) : FsM Unit := do
  let sbBuf ← sysMalloc
  assert (sbBuf ≠ none)
  searchFileSystem startLba secCnt
  sysFree sbBuf
  partitionMount startLba secCnt
  openRootDir
  update fun s => { s with
    fileTable := fun k => if 1 ≤ k ∧ k ≤ 32 then { s.fileTable k with fdInode := none } else s.fileTable k }

/-! ## The heap of a kernel that starts -/

/-- The kernel before the file system is initialised, once the heap has been used. -/
def Fs.starting (disk : Bytes) (h : Heap) : Fs := { Fs.boot disk h.full with heap := h }

/-- The heap of a kernel that starts. -/
def Heap.boot (full : Nat → Bool) : Heap := { next := 0, live := [], full := full }

/-- The heap has its blocks below the next address and serves every request. -/
structure Heap.Ready (h : Heap) : Prop where
  live : h.LiveBelow
  serves : ∀ j, h.full (h.next + j) = false

section Heap

variable {h : Heap} {disk buf : Bytes} {a lba n : Nat}

theorem Heap.Ready.alloc (hr : h.Ready) : (h.alloc false).Ready where
  live := hr.live.alloc
  serves := by
    intro j
    show h.full (h.next + 1 + j) = false
    rw [Nat.add_assoc]
    exact hr.serves _

theorem Heap.Ready.freed (hr : h.Ready) : (h.freed a).Ready :=
  ⟨fun b hb => hr.live b (List.mem_of_mem_filter hb), hr.serves⟩

theorem starting_malloc (disk : Bytes) (hr : h.Ready) :
    Returns sysMalloc (Fs.starting disk h) (some h.next) (Fs.starting disk (h.alloc false)) := by
  have hrun : Returns runningThread (Fs.starting disk h) initThread (Fs.starting disk h) := returns_runningThread.mpr ⟨rfl, rfl⟩
  rw [sysMalloc, returns_bind_iff hrun]
  exact mallocFrom_runs (hr.serves 0)

theorem starting_free : Returns (sysFree (some a)) (Fs.starting disk h) () (Fs.starting disk (h.freed a)) := by
  rw [sysFree, returns_bind_iff ((returns_assert _ ()).mpr ⟨by simp, rfl⟩)]
  exact (returns_update _ ()).mpr rfl

theorem starting_write (hlba : lba ≤ maxLba) (hn : 0 < n) :
    Returns (ideWrite lba buf n) (Fs.starting disk h) () (Fs.starting (disk.splice (512 * lba) (512 * n) buf) h) :=
  returns_ideWrite.mpr ⟨hlba, hn, rfl⟩

theorem starting_read (disk : Bytes) (h : Heap) (lba n room : Nat) (hroom : 512 * n ≤ room) (hlba : lba ≤ maxLba) (hn : 0 < n) :
    Returns (ideRead lba n room) (Fs.starting disk h) (disk.window (512 * lba) (512 * n)) (Fs.starting disk h) :=
  returns_ideRead.mpr ⟨hroom, hlba, hn, rfl, rfl⟩

end Heap

/-! ## Mounting -/

/-- The sectors of a bitmap. -/
def bitmapOf (disk : Bytes) (lba secs : Nat) : Bitmap := Bitmap.ofBytes (disk.window (512 * lba) (512 * secs)) (secs * 512)

/-- The partition is mounted. -/
def Fs.mounting (disk : Bytes) (p : Partition) (h : Heap) : Fs :=
  { Fs.starting disk h with
    part := p
    blockBitmap := bitmapOf disk p.sb.blockBitmapLba p.sb.blockBitmapSecs
    inodeMap := bitmapOf disk p.sb.inodeBitmapLba p.sb.inodeBitmapSecs
    openInodes := [] }

/-- And its root directory is open at address `a`. -/
def Fs.mountedAt (disk : Bytes) (p : Partition) (a : Nat) (h : Heap) : Fs :=
  { Fs.mounting disk p h with
    inodes := Function.update (fun _ => none) a (some { (Fs.mounting disk p h).slot p.sb.rootInodeNo with iOpenCnt := 1 })
    openInodes := [a]
    rootDir := { inode := a, dirPose := 0 } }

section Mount

variable {h : Heap} {disk : Bytes} {p : Partition} {startLba secCnt : Nat} {sb : SuperBlock}

/-- What is mounted is what the super block on the disk says. -/
theorem partitionMount_runs (hr : h.Ready) (hsb : SuperBlock.decode (sectorAt disk (startLba + 1)) = sb)
    (hp : Partition.Sound ⟨startLba, secCnt, sb⟩) :
    ∃ h', h'.Ready ∧
      Returns (partitionMount startLba secCnt) (Fs.starting disk h) () (Fs.mounting disk ⟨startLba, secCnt, sb⟩ h') := by
  have hsuper : startLba + 1 < sb.blockBitmapLba := hp.superBlock
  have hinode : sb.inodeBitmapLba = sb.blockBitmapLba + sb.blockBitmapSecs := hp.inodeBitmap
  have htable : sb.inodeTableLba = sb.inodeBitmapLba + sb.inodeBitmapSecs := hp.inodeTable
  have hdisk : sb.inodeTableLba + 607 ≤ maxLba := hp.onDisk
  -- a buffer and a copy of the super block, and then a block for each bitmap, each read behind its request
  have hbuf := starting_malloc disk hr
  have hmem := starting_malloc disk hr.alloc
  have hread := starting_read disk ((h.alloc false).alloc false) (startLba + 1) 1 512 (by decide) (by omega) (by decide)
  have hbits := starting_malloc disk hr.alloc.alloc
  have hblocks := starting_read disk (((h.alloc false).alloc false).alloc false) sb.blockBitmapLba sb.blockBitmapSecs
    (sb.blockBitmapSecs * 512) (by omega) (by omega) hp.nonempty.1
  have hbits' := starting_malloc disk hr.alloc.alloc.alloc
  have hinodes := starting_read disk ((((h.alloc false).alloc false).alloc false).alloc false) sb.inodeBitmapLba
    sb.inodeBitmapSecs (sb.inodeBitmapSecs * 512) (by omega) (by omega) hp.nonempty.2
  refine ⟨_, hr.alloc.alloc.alloc.alloc, ?_⟩
  have hsome {s : Fs} (a : Nat) : Returns (assert (some a ≠ none)) s () s := (returns_assert _ ()).mpr ⟨by simp, rfl⟩
  have hroom {s : Fs} (a : Nat) : Returns (fits (some a ≠ none)) s () s := (returns_fits _ ()).mpr ⟨by simp, rfl⟩
  have hsb' : SuperBlock.decode (disk.window (512 * (startLba + 1)) (512 * 1)) = sb := hsb
  rw [partitionMount, returns_bind_iff hbuf, returns_bind_iff hmem, returns_bind_iff (hsome _), returns_bind_iff (hroom _),
    returns_bind_iff hread]
  dsimp only
  rw [hsb', returns_bind_iff hbits, returns_bind_iff (hsome _), returns_bind_iff hblocks, returns_bind_iff hbits',
    returns_bind_iff (hsome _), returns_bind_iff hinodes]
  exact (returns_update _ ()).mpr rfl

/-- The table of the mounted partition fits. -/
theorem mounting_table (hp : p.Sound) : (Fs.mounting disk p h).TableFits := ⟨hp.onDisk, hp.inPart⟩

/-- The root directory is opened at the next address. -/
theorem openRootDir_runs (disk : Bytes) (hr : h.Ready) (hp : p.Sound) :
    ∃ h' a, h'.Ready ∧ a < h'.next ∧ Returns openRootDir (Fs.mounting disk p h) () (Fs.mountedAt disk p a h') := by
  have hok : (Fs.mounting disk p h).CacheOk :=
    ⟨List.nodup_nil, fun a => ⟨fun ha => absurd ha List.not_mem_nil, fun ha => absurd rfl ha⟩, nofun, fun a ha => absurd rfl ha,
      fun d hd => absurd rfl hd⟩
  -- nothing is cached yet, so the inode comes from its slot
  have hcached : (Fs.mounting disk p h).cached p.sb.rootInodeNo = none := rfl
  have hno : p.sb.rootInodeNo < 4096 := by
    rw [hp.rootNo]
    decide
  obtain ⟨a, t, hopen⟩ := inodeOpen_runs hok (mounting_table hp) hno ⟨⟨initThread, rfl⟩, fun j _ => hr.serves j⟩
  have hlive : t.heap.LiveBelow := keeps_inodeOpen (R := KeepsLive) hopen hr.live
  have hnext := (inodeOpen_served hcached hopen).2
  rcases inodeOpen_inv hopen with ⟨v, hsome, -⟩ | ⟨h', -, -, ha, hlt, hfull, ht⟩
  · rw [hcached] at hsome
    cases hsome
  have hheap : h' = t.heap := by rw [ht]
  rw [hheap] at hlt hfull ht
  have hready : t.heap.Ready := by
    refine ⟨hlive, fun j => ?_⟩
    rw [hfull, hnext, Nat.add_assoc]
    exact hr.serves _
  refine ⟨t.heap, a, hready, by rw [ha]; exact hlt, ?_⟩
  have hquery : Returns (query id) (Fs.mounting disk p h) (Fs.mounting disk p h) (Fs.mounting disk p h) :=
    (returns_query _).mpr ⟨rfl, rfl⟩
  rw [openRootDir, returns_bind_iff hquery]
  rw [show (Fs.mounting disk p h).part.sb.rootInodeNo = p.sb.rootInodeNo from rfl, returns_bind_iff hopen]
  refine (returns_update _ ()).mpr ?_
  rw [ht]
  -- the kernel heap of the thread has not become another
  simp only [Fs.mountedAt, Fs.mounting, Fs.starting, Fs.boot, hfull]
  rfl

/-- `filesys_init` comes to the mounted partition, whether it has had to format it or not. -/
theorem filesysStart_runs {disk' : Bytes} {h₁ : Heap} (hr : h.Ready) (hr₁ : h₁.Ready)
    (hsearch : Returns (searchFileSystem startLba secCnt) (Fs.starting disk (h.alloc false)) () (Fs.starting disk' h₁))
    (hsb : SuperBlock.decode (sectorAt disk' (startLba + 1)) = sb) (hp : Partition.Sound ⟨startLba, secCnt, sb⟩) :
    ∃ h' a, h'.Ready ∧ a < h'.next ∧
      Returns (filesysStart startLba secCnt) (Fs.starting disk h) () (Fs.mountedAt disk' ⟨startLba, secCnt, sb⟩ a h') := by
  obtain ⟨h₂, hr₂, hmount⟩ := partitionMount_runs hr₁.freed hsb hp
  obtain ⟨h', a, hr', ha, hopen⟩ := openRootDir_runs disk' hr₂ hp
  refine ⟨h', a, hr', ha, ?_⟩
  have hsome : Returns (assert (some h.next ≠ none)) (Fs.starting disk (h.alloc false)) () (Fs.starting disk (h.alloc false)) :=
    (returns_assert _ ()).mpr ⟨by simp, rfl⟩
  rw [filesysStart, returns_bind_iff (starting_malloc disk hr), returns_bind_iff hsome, returns_bind_iff hsearch,
    returns_bind_iff starting_free, returns_bind_iff hmount, returns_bind_iff hopen]
  refine (returns_update _ ()).mpr ?_
  -- there was no file in the table
  have hfiles : (Fs.mountedAt disk' ⟨startLba, secCnt, sb⟩ a h').fileTable = fun k =>
      if 1 ≤ k ∧ k ≤ 32 then { (Fs.mountedAt disk' ⟨startLba, secCnt, sb⟩ a h').fileTable k with fdInode := none }
      else (Fs.mountedAt disk' ⟨startLba, secCnt, sb⟩ a h').fileTable k := by
    funext k
    split <;> rfl
  exact (congrArg (fun f => { Fs.mountedAt disk' ⟨startLba, secCnt, sb⟩ a h' with fileTable := f }) hfiles).symm

theorem ready_boot {full : Nat → Bool} (hfull : ∀ j, full j = false) : (Heap.boot full).Ready :=
  ⟨fun _ hb => absurd hb List.not_mem_nil, fun _ => hfull _⟩

end Mount

/-! ## The bitmaps that have been read -/

section Bitmaps

variable {b : Bitmap} {disk buf : Bytes} {i j k len lo secs : Nat}

/-- Eight bits as a number. -/
theorem sum_bits (f : Nat → Bool) :
    ((List.range 8).map fun j => if f j then 2 ^ j else 0).sum = Nat.ofBits fun i : Fin 8 => f i := by
  have hbit (j : Nat) : (if f j then 2 ^ j else 0) = 2 ^ j * (f j).toNat := by
    cases f j <;> simp
  simp [hbit, List.range_succ, Nat.ofBits, Fin.foldr_succ]
  omega

/-- The bits of a byte make it up. -/
theorem Bitmap.byteAt_ofBytes : (Bitmap.ofBytes buf len).byteAt k = buf k := by
  have hbits : (fun i : Fin 8 => (Bitmap.ofBytes buf len).bit (8 * k + i)) =
      fun i : Fin 8 => (buf k).toNat.testBit i := by
    funext i
    show (buf ((8 * k + i) / 8)).toNat.testBit ((8 * k + i) % 8) = _
    rw [show (8 * k + (i : Nat)) / 8 = k by omega, show (8 * k + (i : Nat)) % 8 = i by omega]
  rw [byteAt, sum_bits fun j => (Bitmap.ofBytes buf len).bit (8 * k + j), hbits, Nat.ofBits_testBit,
    Nat.mod_eq_of_lt (buf k).toNat_lt, UInt8.ofNat_toNat]

/-- A byte of a bitmap has its bits. -/
theorem Bitmap.testBit_byteAt (hj : j < 8) : (b.byteAt k).toNat.testBit j = b.bit (8 * k + j) := by
  have hlt : Nat.ofBits (fun i : Fin 8 => b.bit (8 * k + i)) < 2 ^ 8 := Nat.ofBits_lt_two_pow _
  rw [byteAt, sum_bits fun j => b.bit (8 * k + j), UInt8.toNat_ofNat', Nat.mod_eq_of_lt hlt, Nat.testBit_ofBits_lt _ _ hj]

theorem bitmapOf_onDisk : (bitmapOf disk lo secs).OnDisk disk lo (lo + secs) := by
  intro k hk
  rw [bitmapOf, Bitmap.byteAt_ofBytes, Bytes.window_apply (by omega)]

/-- A bitmap that was on the disk is read back. -/
theorem Bitmap.OnDisk.bitmapOf_bit (h : b.OnDisk disk lo (lo + secs)) (hi : i < 4096 * secs) :
    (bitmapOf disk lo secs).bit i = b.bit i := by
  have hwindow : (bitmapOf disk lo secs).bit i = (disk.window (512 * lo) (512 * secs) (i / 8)).toNat.testBit (i % 8) := rfl
  rw [hwindow, Bytes.window_apply (by omega), h (i / 8) (by omega), Bitmap.testBit_byteAt (by omega)]
  congr 1
  omega

theorem bitmapOf_size : (bitmapOf disk lo secs).size = 4096 * secs := by
  show 8 * (secs * 512) = _
  omega

end Bitmaps

/-! ## The state that is reached -/

section Mounted

variable {disk : Bytes} {p : Partition} {a i : Nat} {h : Heap} {v : Inode}

theorem mountedAt_inodes {b : Nat} (hv : (Fs.mountedAt disk p a h).inodes b = some v) :
    b = a ∧ v = { (Fs.mountedAt disk p a h).slot p.sb.rootInodeNo with iOpenCnt := 1 } := by
  by_cases hb : b = a
  · subst hb
    have hself : Function.update (fun _ => none) b (some _) b = some v := hv
    rw [Function.update_self] at hself
    exact ⟨rfl, (Option.some.inj hself).symm⟩
  · have hnone : Function.update (fun _ => none) a (some _) b = some v := hv
    rw [Function.update_of_ne hb] at hnone
    cases hnone

theorem mountedAt_self : (Fs.mountedAt disk p a h).inodes a =
    some { (Fs.mountedAt disk p a h).slot p.sb.rootInodeNo with iOpenCnt := 1 } := by
  show Function.update (fun _ => none) a (some _) a = some _
  rw [Function.update_self]
  rfl

/-- The one process works in the root. -/
theorem mountedAt_cwd {t : Nat} {k : Task} (hk : (Fs.mountedAt disk p a h).tasks t = some k) : k.cwdInodeNr = 0 := by
  by_cases ht : t = 0
  · subst ht
    rw [← Option.some.inj hk]
    rfl
  · have hnone : (Fs.mountedAt disk p a h).tasks t = none := if_neg ht
    rw [hnone] at hk
    cases hk

theorem mountedAt_cacheOk (ha : a < h.next) : (Fs.mountedAt disk p a h).CacheOk where
  nodup := List.nodup_singleton a
  mem := by
    intro b
    show b ∈ [a] ↔ Function.update (fun _ => none) a (some _) b ≠ none
    rw [List.mem_singleton]
    by_cases hb : b = a
    · rw [hb, Function.update_self]
      simp
    · rw [Function.update_of_ne hb]
      simp [hb]
  pos := by
    intro b v hv
    rw [(mountedAt_inodes hv).2]
    exact Nat.one_pos
  inode_lt := by
    intro b hb
    obtain ⟨v, hv⟩ := Option.ne_none_iff_exists'.mp hb
    rw [(mountedAt_inodes hv).1]
    exact ha
  dir_lt := fun d hd => absurd rfl hd

/-- The one inode that is cached is the root. -/
theorem mountedAt_number {b : Nat} (hp : p.Sound) (hno : ((Fs.mountedAt disk p a h).slot 0).iNo = 0)
    (hv : (Fs.mountedAt disk p a h).inodes b = some v) : v.iNo = 0 := by
  rw [(mountedAt_inodes hv).2, hp.rootNo]
  exact hno

theorem mountedAt_root (hp : p.Sound) (hno : ((Fs.mountedAt disk p a h).slot 0).iNo = 0) :
    (Fs.mountedAt disk p a h).cached 0 = some a := by
  have hroot : ∃ v, (Fs.mountedAt disk p a h).inodes a = some v ∧ v.iNo = 0 :=
    ⟨_, mountedAt_self, mountedAt_number hp hno mountedAt_self⟩
  show List.find? _ [a] = some a
  rw [List.find?_cons_of_pos (Fs.holdsNo_iff.mpr hroot)]

theorem mountedAt_single (b c : Nat) (v w : Inode) (hv : (Fs.mountedAt disk p a h).inodes b = some v)
    (hw : (Fs.mountedAt disk p a h).inodes c = some w) : b = c :=
  (mountedAt_inodes hv).1.trans (mountedAt_inodes hw).1.symm

/-- It is as in its slot. -/
theorem mountedAt_coherent (hp : p.Sound) (hno : ((Fs.mountedAt disk p a h).slot 0).iNo = 0) (i : Nat) :
    (Fs.mountedAt disk p a h).Coherent i := by
  intro b v hv hi
  have hi0 : i = 0 := hi.symm.trans (mountedAt_number hp hno hv)
  obtain ⟨-, rfl⟩ := mountedAt_inodes hv
  rw [hi0, hp.rootNo]
  rfl

theorem mountedAt_saved (hp : p.Sound) (hsb : SuperBlock.decode (sectorAt disk (p.startLba + 1)) = p.sb) :
    (Fs.mountedAt disk p a h).Saved where
  toSound := hp
  blockLen := Nat.mul_comm _ _
  inodeLen := Nat.mul_comm _ _
  recorded := by
    refine ⟨hsb, ?_, ?_⟩
    · show (bitmapOf disk p.sb.blockBitmapLba p.sb.blockBitmapSecs).OnDisk disk p.sb.blockBitmapLba p.sb.inodeBitmapLba
      rw [hp.inodeBitmap]
      exact bitmapOf_onDisk
    · show (bitmapOf disk p.sb.inodeBitmapLba p.sb.inodeBitmapSecs).OnDisk disk p.sb.inodeBitmapLba p.sb.inodeTableLba
      rw [hp.inodeTable]
      exact bitmapOf_onDisk

theorem mountedAt_layout (hp : p.Sound) : (Fs.mountedAt disk p a h).Layout := by
  have hblocks : (Fs.mountedAt disk p a h).blockBitmap.size = 4096 * p.sb.blockBitmapSecs := bitmapOf_size
  have hinodes : (Fs.mountedAt disk p a h).inodeMap.size = 4096 * p.sb.inodeBitmapSecs := bitmapOf_size
  have hinode := hp.inodeBitmap
  have htable := hp.inodeTable
  have hblock := hp.nonempty.1
  have hmap := hp.nonempty.2
  refine ⟨hp.entrySize, fun i hi => ?_, fun i hi => ?_, hp.data, by omega, by omega⟩
  · show p.sb.blockBitmapLba + i / 4096 < p.sb.inodeBitmapLba
    omega
  · show p.sb.inodeBitmapLba + i / 4096 < p.sb.inodeTableLba
    omega

end Mounted

/-! ## A disk that has been in use -/

section Again

variable {s : Fs} {a i lba : Nat} {h : Heap} {v : Inode}

/-- Nothing that is known of an inode is lost. -/
theorem mountedAt_content (hs : s.InOrder) (hsaved : s.Saved) :
    (Fs.mountedAt s.disk s.part a h).content i = s.content i := by
  have hslot (i : Nat) : (Fs.mountedAt s.disk s.part a h).slot i = s.slot i := rfl
  have hno : (s.slot 0).iNo = 0 := by
    have hown := hs.own 0 (Or.inl .root)
    rwa [(hs.coherent 0).content] at hown
  rw [(mountedAt_coherent hsaved.toSound hno i).content, (hs.coherent i).content, hslot]

/-- The bitmaps are those the other kernel had in memory. -/
theorem mountedAt_blocks (hsaved : s.Saved) (hi : i < 4096 * s.part.sb.blockBitmapSecs) :
    (Fs.mountedAt s.disk s.part a h).blockBitmap.bit i = s.blockBitmap.bit i := by
  have hdisk := hsaved.recorded.blocks
  rw [hsaved.inodeBitmap] at hdisk
  exact hdisk.bitmapOf_bit hi

theorem mountedAt_numbers (hsaved : s.Saved) (hi : i < 4096 * s.part.sb.inodeBitmapSecs) :
    (Fs.mountedAt s.disk s.part a h).inodeMap.bit i = s.inodeMap.bit i := by
  have hdisk := hsaved.recorded.inodes
  rw [hsaved.inodeTable] at hdisk
  exact hdisk.bitmapOf_bit hi

theorem Fs.Saved.sizes (hsaved : s.Saved) : s.blockBitmap.size = 4096 * s.part.sb.blockBitmapSecs ∧
    s.inodeMap.size = 4096 * s.part.sb.inodeBitmapSecs := by
  have hblocks := hsaved.blockLen
  have hinodes := hsaved.inodeLen
  exact ⟨by rw [Bitmap.size, hblocks]; omega, by rw [Bitmap.size, hinodes]; omega⟩

theorem mountedAt_inUse (hsaved : s.Saved) (hlba : s.InUse lba) : (Fs.mountedAt s.disk s.part a h).InUse lba := by
  obtain ⟨hle, b, hb, hbit, hat⟩ := hlba
  rw [hsaved.sizes.1] at hb
  have hsize : (Fs.mountedAt s.disk s.part a h).blockBitmap.size = 4096 * s.part.sb.blockBitmapSecs := bitmapOf_size
  exact ⟨hle, b, by rwa [hsize], (mountedAt_blocks hsaved hb).trans hbit, hat⟩

theorem mountedAt_blocksOk (hsaved : s.Saved) (hv : s.BlocksOk v) : (Fs.mountedAt s.disk s.part a h).BlocksOk v :=
  ⟨fun k hk hne => mountedAt_inUse hsaved (hv.inUse k hk hne), fun hne => mountedAt_inUse hsaved (hv.table hne), hv.inj,
    hv.tableNe⟩

theorem mountedAt_entries (hs : s.InOrder) (hsaved : s.Saved) : (Fs.mountedAt s.disk s.part a h).entries = s.entries :=
  funext fun _ => congrArg (dirEntries s.disk) (mountedAt_content hs hsaved)

theorem mountedAt_names (hs : s.InOrder) (hsaved : s.Saved) : (Fs.mountedAt s.disk s.part a h).names = s.names := by
  unfold Fs.names
  rw [mountedAt_entries hs hsaved]

theorem mountedAt_owns (hs : s.InOrder) (hsaved : s.Saved) : (Fs.mountedAt s.disk s.part a h).Owns i lba ↔ s.Owns i lba := by
  unfold Fs.Owns
  rw [mountedAt_content hs hsaved]
  rfl

/-- A kernel that starts on the disk of a file system in order finds it in order. -/
theorem mounted_inOrder (hs : s.InOrder) (hsaved : s.Saved) (ha : a < h.next) (hlive : h.LiveBelow) :
    (Fs.mountedAt s.disk s.part a h).InOrder := by
  have hcontent (i : Nat) := mountedAt_content (a := a) (h := h) (i := i) hs hsaved
  have hentries := mountedAt_entries (a := a) (h := h) hs hsaved
  have hnames := mountedAt_names (a := a) (h := h) hs hsaved
  have hdir {i : Nat} : (Fs.mountedAt s.disk s.part a h).IsDir i ↔ s.IsDir i :=
    ⟨isDir_congr fun i => (congrFun hentries i), isDir_congr fun i => (congrFun hentries i).symm⟩
  have hfile {i : Nat} : (Fs.mountedAt s.disk s.part a h).IsFile i ↔ s.IsFile i := by
    unfold Fs.IsFile
    rw [hentries]
    exact exists_congr fun d => and_congr_left fun _ => hdir
  have htree {i : Nat} : (Fs.mountedAt s.disk s.part a h).InTree i ↔ s.InTree i := or_congr hdir hfile
  have hno : (s.slot 0).iNo = 0 := by
    have hown := hs.own 0 (Or.inl .root)
    rwa [(hs.coherent 0).content] at hown
  have hnumber (b : Nat) (v : Inode) (hv : (Fs.mountedAt s.disk s.part a h).inodes b = some v) : v.iNo = 0 :=
    mountedAt_number hsaved.toSound hno hv
  have hcoherent := mountedAt_coherent (a := a) (h := h) hsaved.toSound hno
  have hmapSize : (Fs.mountedAt s.disk s.part a h).inodeMap.size = 4096 * s.part.sb.inodeBitmapSecs := bitmapOf_size
  have hbit {i : Nat} (hi : i < 4096) : (Fs.mountedAt s.disk s.part a h).inodeMap.bit i = s.inodeMap.bit i := by
    have hpos := hsaved.nonempty.2
    exact mountedAt_numbers hsaved (by omega)
  have hused (i : Nat) (hi : s.InTree i) : (Fs.mountedAt s.disk s.part a h).inodeMap.bit i = true := by
    rw [hbit (hs.inMap i hi).1]
    exact hs.used i hi
  exact
    { cache := mountedAt_cacheOk ha
      live := hlive
      entrySize := hs.entrySize
      table := ⟨hs.table.onDisk, hs.table.inPart⟩
      running := ⟨initThread, rfl⟩
      root := mountedAt_root hsaved.toSound hno
      node := by
        intro i hi
        have hnode := hs.node i (hdir.mp hi)
        refine ⟨hnode.number, ?_, ?_, ?_, fun e he => hnode.types e (by rwa [hentries] at he)⟩
        · rw [hcontent]
          exact hnode.own
        · rw [hcontent]
          exact ⟨hnode.listed.blocks, hnode.listed.table, hnode.listed.slots, hnode.listed.names⟩
        · rw [hcontent]
          exact hnode.block
      self := fun i hi => by
        rw [hnames]
        exact hs.self i (hdir.mp hi)
      rootUp := by
        rw [hnames]
        exact hs.rootUp
      layout := mountedAt_layout hsaved.toSound
      coherent := hcoherent
      single := fun b c v w hv hw _ => mountedAt_single b c v w hv hw
      dirOk := by
        intro i hi
        have hd := hs.dirOk i (hdir.mp hi)
        rw [hcontent]
        exact ⟨⟨mountedAt_blocksOk hsaved hd.toBlocksOk, hd.slots, hd.names⟩, hd.size⟩
      dotsFirst := by
        intro i hi
        have hd := hs.dotsFirst i (hdir.mp hi)
        rw [hcontent]
        exact ⟨hd.block, hd.full, hd.dot, hd.dotDot⟩
      up := fun i hi => by
        rw [hnames]
        exact hs.up i (hdir.mp hi)
      inMap := by
        intro i hi
        obtain ⟨hlt, hin⟩ := hs.inMap i (htree.mp hi)
        rw [hsaved.sizes.2] at hin
        exact ⟨hlt, by rwa [hmapSize]⟩
      own := fun i hi => by
        rw [hcontent]
        exact hs.own i (htree.mp hi)
      blocks := fun i hi => by
        rw [hcontent]
        exact mountedAt_blocksOk hsaved (hs.blocks i (htree.mp hi))
      apart := fun i j lba hi hj hown hown' => hs.apart i j lba (htree.mp hi) (htree.mp hj)
        ((mountedAt_owns hs hsaved).mp hown) ((mountedAt_owns hs hsaved).mp hown')
      notDir := fun i hi hd => hs.notDir i (hfile.mp hi) (hdir.mp hd)
      once := fun d d' e e' hd hd' he he' => by
        rw [hentries] at he he'
        exact hs.once d d' e e' (hdir.mp hd) (hdir.mp hd') he he'
      rootFirst := by
        rw [hcontent]
        exact hs.rootFirst
      slots := nofun
      parent := fun i c n hi => by
        rw [hnames]
        exact hs.parent i c n (hdir.mp hi)
      distinct := fun i c d n hi => by
        rw [hnames]
        exact hs.distinct i c d n (hdir.mp hi)
      top := fun i c hi => by
        rw [hnames]
        exact hs.top i c (hdir.mp hi)
      free := fun i hi => by
        rw [hcontent]
        exact hs.free i (hdir.mp hi)
      used := fun i hi => hused i (htree.mp hi)
      held := fun b v hv => by
        rw [hnumber b v hv]
        exact hused 0 (Or.inl .root)
      slotNo := fun i hi hset => hs.slotNo i hi (by rwa [hbit hi] at hset)
      numberLt := fun b v hv => by
        rw [hnumber b v hv]
        decide
      cachedFor := fun b v hv => Or.inl (by
        rw [hnumber b v hv]
        exact .root)
      cwd := fun t k hk => by
        rw [mountedAt_cwd hk]
        exact .root }

/-- A kernel that starts finds the file system and mounts it. -/
theorem filesysStart_again {full : Nat → Bool} (hfull : ∀ j, full j = false) (hsaved : s.Saved) :
    ∃ h a, h.Ready ∧ a < h.next ∧
      Returns (filesysStart s.part.startLba s.part.secCnt) (Fs.boot s.disk full) () (Fs.mountedAt s.disk s.part a h) := by
  have hready := ready_boot hfull
  have hsuper := hsaved.superBlock
  have hinode := hsaved.inodeBitmap
  have htable := hsaved.inodeTable
  have hdisk := hsaved.onDisk
  have hread := starting_read s.disk ((Heap.boot full).alloc false) (s.part.startLba + 1) 1 512 (by decide) (by omega) (by decide)
  have hmagic : (SuperBlock.decode (s.disk.window (512 * (s.part.startLba + 1)) (512 * 1))).magic = 0x19590318 :=
    (congrArg SuperBlock.magic hsaved.recorded.superBlock).trans hsaved.magic
  have hsearch : Returns (searchFileSystem s.part.startLba s.part.secCnt) (Fs.starting s.disk ((Heap.boot full).alloc false)) ()
      (Fs.starting s.disk ((Heap.boot full).alloc false)) := by
    rw [searchFileSystem, returns_bind_iff hread, if_neg (not_not.mpr hmagic)]
    exact returns_pure.mpr ⟨rfl, rfl⟩
  exact filesysStart_runs hready hready.alloc hsearch hsaved.recorded.superBlock hsaved.toSound

end Again

end ZxyOs
