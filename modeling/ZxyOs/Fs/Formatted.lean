/-
  ZxyOs.Fs.Formatted

  The file system `partition_format` makes.

  Formatting overwrites five areas of the disk, one behind the other, and what is read back
  from each is what was written (`Formatted`).  The kernel that mounts the
  partition finds the number of the root taken and its block, and the root is a directory as
  `sys_mkdir` makes them, above itself: nothing else is in the tree (`formatted_inOrder`).
-/

import ZxyOs.Fs.FormatLayout
import ZxyOs.Fs.Mount

namespace ZxyOs

open Lib Lib.Exec

/-! ## A disk that has been formatted -/

/-- What formatting makes of a disk. -/
def formatDisk (startLba secCnt : Nat) (disk : Bytes) : Bytes :=
  let sb := formatSuperBlock startLba secCnt
  let disk := disk.splice (512 * (startLba + 1)) (512 * 1) (wordsOf sb.word)
  let disk := disk.splice (512 * sb.blockBitmapLba) (512 * sb.blockBitmapSecs) (formatBlockBitmap (blockBitmapBitLen secCnt))
  let disk := disk.splice (512 * sb.inodeBitmapLba) (512 * sb.inodeBitmapSecs) firstBitSet
  let disk := disk.splice (512 * sb.inodeTableLba) (512 * sb.inodeTableSecs) (Bytes.zero.splice 0 76 (formatRootInode sb).encode)
  disk.splice (512 * sb.dataStartLba) (512 * 1) formatRootBlock

section Format

variable {startLba secCnt a i : Nat} {disk : Bytes} {h : Heap}

/-- The number of blocks and the size of their bitmap. -/
theorem format_sizes (hmin : 620 ≤ secCnt) (hdisk : startLba + secCnt ≤ maxLba + 1) :
    8 ≤ blockBitmapBitLen secCnt ∧ 0 < divRoundUp (blockBitmapBitLen secCnt) 4096 ∧
      613 + divRoundUp (blockBitmapBitLen secCnt) 4096 ≤ secCnt := by
  have hmax : maxLba = 163839 := by decide
  rw [blockBitmapBitLen, freeSecs_eq (by omega) (by omega)]
  simp only [divRoundUp]
  omega

/-- Where the areas of a formatted partition begin. -/
theorem format_areas : (formatSuperBlock startLba secCnt).blockBitmapLba = startLba + 2 ∧
    (formatSuperBlock startLba secCnt).blockBitmapSecs = divRoundUp (blockBitmapBitLen secCnt) 4096 ∧
    (formatSuperBlock startLba secCnt).inodeBitmapLba = startLba + 2 + divRoundUp (blockBitmapBitLen secCnt) 4096 ∧
    (formatSuperBlock startLba secCnt).inodeBitmapSecs = 1 ∧
    (formatSuperBlock startLba secCnt).inodeTableLba = startLba + 2 + divRoundUp (blockBitmapBitLen secCnt) 4096 + 1 ∧
    (formatSuperBlock startLba secCnt).inodeTableSecs = 608 ∧
    (formatSuperBlock startLba secCnt).dataStartLba = startLba + 2 + divRoundUp (blockBitmapBitLen secCnt) 4096 + 1 + 608 :=
  ⟨rfl, rfl, rfl, rfl, rfl, rfl, rfl⟩

theorem format_sound (hmin : 620 ≤ secCnt) (hdisk : startLba + secCnt ≤ maxLba + 1) :
    Partition.Sound ⟨startLba, secCnt, formatSuperBlock startLba secCnt⟩ := by
  obtain ⟨-, hpos, hroom⟩ := format_sizes hmin hdisk
  obtain ⟨hblock, hblocks, hinode, hinodes, htable, -, hdata⟩ := @format_areas startLba secCnt
  refine ⟨rfl, ?_, ?_, ?_, ?_, ⟨?_, ?_⟩, ?_, ?_, rfl, rfl⟩ <;> dsimp only <;> omega

/-- The fields of the super block are words. -/
structure SuperBlock.WordSized (sb : SuperBlock) : Prop where
  magic : sb.magic < 2 ^ 32
  secCnt : sb.secCnt < 2 ^ 32
  inodeCnt : sb.inodeCnt < 2 ^ 32
  partLbaBase : sb.partLbaBase < 2 ^ 32
  blockBitmapLba : sb.blockBitmapLba < 2 ^ 32
  blockBitmapSecs : sb.blockBitmapSecs < 2 ^ 32
  inodeBitmapLba : sb.inodeBitmapLba < 2 ^ 32
  inodeBitmapSecs : sb.inodeBitmapSecs < 2 ^ 32
  inodeTableLba : sb.inodeTableLba < 2 ^ 32
  inodeTableSecs : sb.inodeTableSecs < 2 ^ 32
  dataStartLba : sb.dataStartLba < 2 ^ 32
  rootInodeNo : sb.rootInodeNo < 2 ^ 32
  dirEntrySize : sb.dirEntrySize < 2 ^ 32

/-- The super block is read as it was written. -/
theorem SuperBlock.decode_words {sb : SuperBlock} (h : sb.WordSized) : SuperBlock.decode ((wordsOf sb.word).window 0 512) = sb := by
  have hword (j : Nat) (hj : j < 128) (hlt : sb.word j < 2 ^ 32) :
      Bytes.u32At ((wordsOf sb.word).window 0 512) (4 * j) = sb.word j := (u32At_wordsOf hj).trans (Nat.mod_eq_of_lt hlt)
  have hmagic := hword 0 (by decide) h.magic
  have hsecCnt := hword 1 (by decide) h.secCnt
  have hinodeCnt := hword 2 (by decide) h.inodeCnt
  have hbase := hword 3 (by decide) h.partLbaBase
  have hblock := hword 4 (by decide) h.blockBitmapLba
  have hblocks := hword 5 (by decide) h.blockBitmapSecs
  have hinode := hword 6 (by decide) h.inodeBitmapLba
  have hinodes := hword 7 (by decide) h.inodeBitmapSecs
  have htable := hword 8 (by decide) h.inodeTableLba
  have htables := hword 9 (by decide) h.inodeTableSecs
  have hdata := hword 10 (by decide) h.dataStartLba
  have hroot := hword 11 (by decide) h.rootInodeNo
  have hentry := hword 12 (by decide) h.dirEntrySize
  obtain ⟨magic, secCnt, inodeCnt, partLbaBase, blockBitmapLba, blockBitmapSecs, inodeBitmapLba, inodeBitmapSecs, inodeTableLba,
    inodeTableSecs, dataStartLba, rootInodeNo, dirEntrySize⟩ := sb
  rw [SuperBlock.decode, SuperBlock.mk.injEq]
  exact ⟨hmagic, hsecCnt, hinodeCnt, hbase, hblock, hblocks, hinode, hinodes, htable, htables, hdata, hroot, hentry⟩

theorem format_wordSized (hmin : 620 ≤ secCnt) (hdisk : startLba + secCnt ≤ maxLba + 1) :
    (formatSuperBlock startLba secCnt).WordSized := by
  obtain ⟨-, hpos, hroom⟩ := format_sizes hmin hdisk
  obtain ⟨hblock, hblocks, hinode, hinodes, htable, htables, hdata⟩ := @format_areas startLba secCnt
  have hmax : maxLba = 163839 := by decide
  have hsec : (formatSuperBlock startLba secCnt).secCnt = secCnt := rfl
  have hbase : (formatSuperBlock startLba secCnt).partLbaBase = startLba := rfl
  have hmagic : 0x19590318 < 2 ^ 32 := by decide
  have hcnt : 4096 < 2 ^ 32 := by decide
  have hroot : 0 < 2 ^ 32 := by decide
  have hentry : 24 < 2 ^ 32 := by decide
  -- the other fields are sectors of the disk, or counts of them
  exact ⟨hmagic, by omega, hcnt, by omega, by omega, by omega, by omega, by omega, by omega, by omega, by omega, hroot, hentry⟩

/-- `partition_format` writes the five areas, and gives its buffer back. -/
theorem partitionFormat_runs (hr : h.Ready) (hmin : 620 ≤ secCnt) (hdisk : startLba + secCnt ≤ maxLba + 1) :
    Returns (partitionFormat startLba secCnt) (Fs.starting disk h) ()
      (Fs.starting (formatDisk startLba secCnt disk) ((h.alloc false).freed h.next)) := by
  obtain ⟨-, hpos, hroom⟩ := format_sizes hmin hdisk
  obtain ⟨hblock, hblocks, hinode, hinodes, htable, htables, hdata⟩ := @format_areas startLba secCnt
  have hsome {s : Fs} : Returns (require (some h.next ≠ none)) s () s := (returns_require _ ()).mpr ⟨by simp, rfl⟩
  rw [partitionFormat, returns_bind_iff (starting_write (by omega) (by omega)), returns_bind_iff (starting_malloc _ hr),
    returns_bind_iff hsome, returns_bind_iff (starting_write (by omega) (by omega)),
    returns_bind_iff (starting_write (by omega) (by omega)), returns_bind_iff (starting_write (by omega) (by omega)),
    returns_bind_iff (starting_write (by omega) (by omega))]
  exact starting_free

end Format

/-! ## What is read back -/

/-- A disk with the areas of a new file system. -/
structure Formatted (startLba secCnt : Nat) (disk : Bytes) : Prop where
  superBlock : ∀ k < 512, disk (512 * (startLba + 1) + k) = wordsOf (formatSuperBlock startLba secCnt).word k
  blocks : ∀ k < 512 * (formatSuperBlock startLba secCnt).blockBitmapSecs,
    disk (512 * (formatSuperBlock startLba secCnt).blockBitmapLba + k) = formatBlockBitmap (blockBitmapBitLen secCnt) k
  inodes : ∀ k < 512, disk (512 * (formatSuperBlock startLba secCnt).inodeBitmapLba + k) = firstBitSet k
  rootInode : ∀ k < 76, disk (512 * (formatSuperBlock startLba secCnt).inodeTableLba + k) =
    (formatRootInode (formatSuperBlock startLba secCnt)).encode k
  rootBlock : ∀ k < 512, disk (512 * (formatSuperBlock startLba secCnt).dataStartLba + k) = formatRootBlock k

/-- No area is written over by one behind it. -/
theorem formatDisk_formatted (startLba secCnt : Nat) (disk : Bytes) :
    Formatted startLba secCnt (formatDisk startLba secCnt disk) := by
  obtain ⟨hblock, hblocks, hinode, hinodes, htable, htables, hdata⟩ := @format_areas startLba secCnt
  unfold formatDisk
  dsimp only
  refine ⟨fun k hk => ?_, fun k hk => ?_, fun k hk => ?_, fun k hk => ?_, fun k hk => ?_⟩
  · -- four areas have been written since, all of them behind it; then three, two and one
    rw [Bytes.splice_outside (Or.inl (by omega)), Bytes.splice_outside (Or.inl (by omega)),
      Bytes.splice_outside (Or.inl (by omega)), Bytes.splice_outside (Or.inl (by omega)),
      Bytes.splice_inside (by omega) (by omega), Nat.add_sub_cancel_left]
  · rw [Bytes.splice_outside (Or.inl (by omega)), Bytes.splice_outside (Or.inl (by omega)),
      Bytes.splice_outside (Or.inl (by omega)), Bytes.splice_inside (by omega) (by omega), Nat.add_sub_cancel_left]
  · rw [Bytes.splice_outside (Or.inl (by omega)), Bytes.splice_outside (Or.inl (by omega)),
      Bytes.splice_inside (by omega) (by omega), Nat.add_sub_cancel_left]
  · rw [Bytes.splice_outside (Or.inl (by omega)), Bytes.splice_inside (by omega) (by omega), Nat.add_sub_cancel_left,
      Bytes.splice_inside (by omega) (by omega), Nat.sub_zero]
  · rw [Bytes.splice_inside (by omega) (by omega), Nat.add_sub_cancel_left]

/-- The partition that is mounted. -/
abbrev Fs.formatted (startLba secCnt : Nat) (disk : Bytes) (a : Nat) (h : Heap) : Fs :=
  Fs.mountedAt disk ⟨startLba, secCnt, formatSuperBlock startLba secCnt⟩ a h

section Read

variable {startLba secCnt a i : Nat} {disk : Bytes} {h : Heap} {e : DirEntry}

theorem Formatted.decode_superBlock (hf : Formatted startLba secCnt disk) (hmin : 620 ≤ secCnt)
    (hdisk : startLba + secCnt ≤ maxLba + 1) :
    SuperBlock.decode (sectorAt disk (startLba + 1)) = formatSuperBlock startLba secCnt := by
  have hread : sectorAt disk (startLba + 1) = (wordsOf (formatSuperBlock startLba secCnt).word).window 0 512 := by
    funext k
    unfold sectorAt Bytes.window
    split
    · next hk => rw [hf.superBlock k hk, Nat.zero_add]
    · rfl
  rw [hread]
  exact SuperBlock.decode_words (format_wordSized hmin hdisk)

/-- The block bitmap, up to the last bit of its first byte. -/
theorem Formatted.block_bit (hf : Formatted startLba secCnt disk) (hmin : 620 ≤ secCnt) (hdisk : startLba + secCnt ≤ maxLba + 1)
    (hi : i < 8) : (Fs.formatted startLba secCnt disk a h).blockBitmap.bit i = decide (i = 0) := by
  obtain ⟨hlong, hpos, -⟩ := format_sizes hmin hdisk
  have hbit := @formatBlockBitmap_bit (blockBitmapBitLen secCnt) 0 i (by omega)
  show (disk.window (512 * (formatSuperBlock startLba secCnt).blockBitmapLba)
    (512 * (formatSuperBlock startLba secCnt).blockBitmapSecs) (i / 8)).toNat.testBit (i % 8) = _
  have hsecs : 0 < (formatSuperBlock startLba secCnt).blockBitmapSecs := hpos
  rw [Bytes.window_apply (by omega), hf.blocks (i / 8) (by omega)]
  refine hbit.trans (decide_eq_decide.mpr ?_)
  omega

/-- Number 0 is in use, and no other. -/
theorem Formatted.number (hf : Formatted startLba secCnt disk) (hi : i < 4096) :
    (Fs.formatted startLba secCnt disk a h).inodeMap.bit i = decide (i = 0) := by
  show (disk.window (512 * (formatSuperBlock startLba secCnt).inodeBitmapLba) 512 (i / 8)).toNat.testBit (i % 8) = _
  rw [Bytes.window_apply (by omega), hf.inodes _ (by omega)]
  -- the first byte is one, the others are zero
  by_cases h0 : i / 8 = 0
  · have hone : ∀ t < 8, (1 : UInt8).toNat.testBit t = decide (t = 0) := by decide
    have hfirst : firstBitSet (i / 8) = 1 := by
      rw [h0]
      rfl
    rw [hfirst, hone _ (by omega)]
    apply decide_eq_decide.mpr
    omega
  · have hzero : firstBitSet (i / 8) = 0 := Function.update_of_ne h0 _ _
    rw [hzero, show (0 : UInt8).toNat = 0 from rfl, Nat.zero_testBit]
    symm
    apply decide_eq_false
    omega

theorem Formatted.slot_zero (hf : Formatted startLba secCnt disk) (hmin : 620 ≤ secCnt) (hdisk : startLba + secCnt ≤ maxLba + 1) :
    (Fs.formatted startLba secCnt disk a h).slot 0 = mkdirInode 0 (formatSuperBlock startLba secCnt).dataStartLba := by
  have hword : (mkdirInode 0 (formatSuperBlock startLba secCnt).dataStartLba).WordSized := by
    have hzero : 0 < 2 ^ 32 := by decide
    have hsize : 48 < 2 ^ 32 := by decide
    refine ⟨hzero, hsize, hzero, fun k => ?_⟩
    show (if k.val = 0 then (formatSuperBlock startLba secCnt).dataStartLba else 0) < 2 ^ 32
    split
    · exact (format_wordSized hmin hdisk).dataStartLba
    · exact hzero
  have hinode : formatRootInode (formatSuperBlock startLba secCnt) =
    mkdirInode 0 (formatSuperBlock startLba secCnt).dataStartLba := rfl
  refine Inode.decode_of_encode hword fun k hk => ?_
  have haddr : (Fs.formatted startLba secCnt disk a h).slotAddr 0 = 512 * (formatSuperBlock startLba secCnt).inodeTableLba := by
    rw [Fs.slotAddr, Nat.mul_zero, Nat.add_zero]
    rfl
  rw [haddr, ← hinode]
  exact hf.rootInode k hk

/-- The root has been made like any other directory, above itself. -/
theorem Formatted.newDir (hf : Formatted startLba secCnt disk) (hmin : 620 ≤ secCnt) (hdisk : startLba + secCnt ≤ maxLba + 1) :
    (Fs.formatted startLba secCnt disk a h).NewDir 0 0 (formatSuperBlock startLba secCnt).dataStartLba := by
  obtain ⟨-, hpos, hroom⟩ := format_sizes hmin hdisk
  obtain ⟨-, -, -, -, -, -, hdata⟩ := @format_areas startLba secCnt
  have hslot : (Fs.formatted startLba secCnt disk a h).slot 0 = _ := hf.slot_zero hmin hdisk
  have hno : ((Fs.formatted startLba secCnt disk a h).slot 0).iNo = 0 := congrArg Inode.iNo hslot
  refine ⟨?_, ?_, ⟨by omega, 0, ?_, hf.block_bit hmin hdisk (by decide), rfl⟩, by omega, by decide, by decide⟩
  · rw [(mountedAt_coherent (format_sound hmin hdisk) hno 0).content, hslot]
    rfl
  · show sectorAt disk (formatSuperBlock startLba secCnt).dataStartLba = _
    funext k
    unfold sectorAt Bytes.window
    split
    · next hk =>
      rw [hf.rootBlock k hk, Nat.zero_add]
      rfl
    · rfl
  · have hsize : (Fs.formatted startLba secCnt disk a h).blockBitmap.size =
      4096 * (formatSuperBlock startLba secCnt).blockBitmapSecs := bitmapOf_size
    have hsecs : 0 < (formatSuperBlock startLba secCnt).blockBitmapSecs := hpos
    omega

/-- There is no other directory. -/
theorem Formatted.isDir (hf : Formatted startLba secCnt disk) (hmin : 620 ≤ secCnt) (hdisk : startLba + secCnt ≤ maxLba + 1)
    (hi : (Fs.formatted startLba secCnt disk a h).IsDir i) : i = 0 := by
  induction hi with
  | root => rfl
  | child hd he hty ih =>
    subst ih
    rw [(hf.newDir hmin hdisk).entries] at he
    simp only [Multiset.insert_eq_cons, Multiset.mem_cons, Multiset.mem_singleton] at he
    rcases he with rfl | rfl <;> rfl

/-- And the root has no file. -/
theorem Formatted.notFile (hf : Formatted startLba secCnt disk) (hmin : 620 ≤ secCnt) (hdisk : startLba + secCnt ≤ maxLba + 1)
    (he : e ∈ (Fs.formatted startLba secCnt disk a h).entries 0) : e.fType ≠ ftRegular := by
  rw [(hf.newDir hmin hdisk).entries] at he
  simp only [Multiset.insert_eq_cons, Multiset.mem_cons, Multiset.mem_singleton] at he
  have hne : ftDir ≠ ftRegular := by decide
  rcases he with rfl | rfl
  · exact hne
  · exact hne

theorem Formatted.inTree (hf : Formatted startLba secCnt disk) (hmin : 620 ≤ secCnt) (hdisk : startLba + secCnt ≤ maxLba + 1)
    (hi : (Fs.formatted startLba secCnt disk a h).InTree i) : i = 0 := by
  rcases hi with hdir | ⟨d, hd, e, he, hty, -⟩
  · exact hf.isDir hmin hdisk hdir
  · rw [hf.isDir hmin hdisk hd] at he
    exact absurd hty (hf.notFile hmin hdisk he)

theorem Formatted.inodeOk (hf : Formatted startLba secCnt disk) (hmin : 620 ≤ secCnt) (hdisk : startLba + secCnt ≤ maxLba + 1) :
    (Fs.formatted startLba secCnt disk a h).InodeOk 0 := by
  have hnew := hf.newDir (a := a) (h := h) hmin hdisk
  refine ⟨⟨by decide, ?_⟩, hf.number (by decide), ?_, hnew.blocksOk⟩
  · have hsize : (Fs.formatted startLba secCnt disk a h).inodeMap.size =
      4096 * (formatSuperBlock startLba secCnt).inodeBitmapSecs := bitmapOf_size
    have hsecs : (formatSuperBlock startLba secCnt).inodeBitmapSecs = 1 := rfl
    omega
  · rw [hnew.content]
    rfl

/-- There is room for a directory. -/
theorem Formatted.mkdirRoom (hf : Formatted startLba secCnt disk) (hmin : 620 ≤ secCnt) (hdisk : startLba + secCnt ≤ maxLba + 1) :
    (Fs.formatted startLba secCnt disk a h).MkdirRoom 0 := by
  obtain ⟨hlong, hpos, hroom⟩ := format_sizes hmin hdisk
  obtain ⟨-, -, -, -, -, -, hdata⟩ := @format_areas startLba secCnt
  have hnew := hf.newDir (a := a) (h := h) hmin hdisk
  have hblocks : (Fs.formatted startLba secCnt disk a h).blockBitmap.size =
    4096 * (formatSuperBlock startLba secCnt).blockBitmapSecs := bitmapOf_size
  have hinodes : (Fs.formatted startLba secCnt disk a h).inodeMap.size =
    4096 * (formatSuperBlock startLba secCnt).inodeBitmapSecs := bitmapOf_size
  have hsecs : 0 < (formatSuperBlock startLba secCnt).blockBitmapSecs := hpos
  have hone : (formatSuperBlock startLba secCnt).inodeBitmapSecs = 1 := rfl
  have hsec : ((Fs.formatted startLba secCnt disk a h).content 0).sector 0 = (formatSuperBlock startLba secCnt).dataStartLba := by
    rw [hnew.content]
    rfl
  have hsector := hnew.sector
  rw [← hsec] at hsector
  -- the third slot of the block is free
  have hslot : DirEntry.fTypeAt ((mkdirBlock 0 0).window 0 512) 2 = ftUnkown := by decide +kernel
  have hscan : (findFreeSlot ((mkdirBlock 0 0).window 0 512) 21 0).isSome = true := by decide +kernel
  have hwanted : (Fs.formatted startLba secCnt disk a h).wanted ((Fs.formatted startLba secCnt disk a h).content 0) 12 0 = 0 := by
    rw [Fs.wanted, if_neg (by rw [hsec]; exact hnew.pos), hsector, if_pos hscan]
  refine ⟨by decide, ⟨1, by decide, by omega, hf.number (by decide), fun j hj => ?_⟩, ?_,
    Or.inl ⟨0, by decide, Or.inr ⟨2, by decide, ?_⟩⟩⟩
  · obtain rfl : j = 0 := by omega
    exact hf.number (by decide)
  · rw [hwanted]
    refine ⟨1, ⟨by omega, hf.block_bit hmin hdisk (by decide), fun j hj => ?_⟩, ?_, trivial⟩
    · obtain rfl : j = 0 := by omega
      exact hf.block_bit hmin hdisk (by decide)
    · show (formatSuperBlock startLba secCnt).dataStartLba + 1 ≤ maxLba
      omega
  · rw [hsector]
    exact hslot

/-- What the names of the root stand for: itself and itself. -/
theorem Formatted.names (hf : Formatted startLba secCnt disk) (hmin : 620 ≤ secCnt) (hdisk : startLba + secCnt ≤ maxLba + 1) :
    (Fs.formatted startLba secCnt disk a h).names 0 dot = some (.dir 0) ∧
      (Fs.formatted startLba secCnt disk a h).names 0 dotDot = some (.dir 0) ∧
        ∀ c, Downward c → (Fs.formatted startLba secCnt disk a h).names 0 c = none :=
  have hnew := hf.newDir (a := a) (h := h) hmin hdisk
  (hnew.dirAt.node (hf.inodeOk hmin hdisk)).names_new hnew.entries

/-- A new file system is in order. -/
theorem formatted_inOrder (hf : Formatted startLba secCnt disk) (hmin : 620 ≤ secCnt) (hdisk : startLba + secCnt ≤ maxLba + 1)
    (ha : a < h.next) (hlive : h.LiveBelow) : (Fs.formatted startLba secCnt disk a h).InOrder := by
  have hsound := format_sound hmin hdisk
  have hnew := hf.newDir (a := a) (h := h) hmin hdisk
  have hinode := hf.inodeOk (a := a) (h := h) hmin hdisk
  have hdir := hnew.dirAt
  have hnode := hdir.node hinode
  obtain ⟨hself, hup, hdown⟩ := hf.names (a := a) (h := h) hmin hdisk
  have hslot := hf.slot_zero (a := a) (h := h) hmin hdisk
  have hno : ((Fs.formatted startLba secCnt disk a h).slot 0).iNo = 0 := congrArg Inode.iNo hslot
  have hroot {i : Nat} (hi : (Fs.formatted startLba secCnt disk a h).IsDir i) : i = 0 := hf.isDir hmin hdisk hi
  have htree {i : Nat} (hi : (Fs.formatted startLba secCnt disk a h).InTree i) : i = 0 := hf.inTree hmin hdisk hi
  have hnumber (b : Nat) (v : Inode) (hv : (Fs.formatted startLba secCnt disk a h).inodes b = some v) : v.iNo = 0 :=
    mountedAt_number hsound hno hv
  -- no name leads down from the root
  have hnone {i n : Nat} {c : CStr} (hi : (Fs.formatted startLba secCnt disk a h).IsDir i) (hc : Downward c)
      (hname : (Fs.formatted startLba secCnt disk a h).names i c = some (.dir n)) : False := by
    rw [hroot hi, hdown c hc] at hname
    cases hname
  exact
    { cache := mountedAt_cacheOk ha
      live := hlive
      entrySize := rfl
      table := ⟨hsound.onDisk, hsound.inPart⟩
      running := ⟨initThread, rfl⟩
      root := mountedAt_root hsound hno
      node := fun i hi => by rwa [hroot hi]
      self := fun i hi => by rwa [hroot hi]
      rootUp := hup
      layout := mountedAt_layout hsound
      coherent := mountedAt_coherent hsound hno
      single := fun b c v w hv hw _ => mountedAt_single b c v w hv hw
      dirOk := fun i hi => by
        rw [hroot hi]
        exact hdir.dirOk
      dotsFirst := fun i hi => by
        rw [hroot hi]
        exact hdir.dots
      up := fun i hi => by
        rw [hroot hi]
        exact ⟨0, hup⟩
      inMap := fun i hi => by
        rw [htree hi]
        exact hinode.inMap
      own := fun i hi => by
        rw [htree hi]
        exact hinode.own
      blocks := fun i hi => by
        rw [htree hi]
        exact hinode.blocks
      apart := fun i j lba hi hj _ _ => (htree hi).trans (htree hj).symm
      notDir := fun i hfile => by
        obtain ⟨d, hd, e, he, hty, -⟩ := hfile
        rw [hroot hd] at he
        exact absurd hty (hf.notFile hmin hdisk he)
      once := fun d d' e e' hd hd' he he' hty => by
        rw [hroot hd] at he
        exact absurd hty (hf.notFile hmin hdisk he)
      rootFirst := by
        rw [hnew.content]
        rfl
      slots := nofun
      parent := fun i c n hi hc hname => (hnone hi hc hname).elim
      distinct := fun i c d n hi hc _ hname => (hnone hi hc hname).elim
      top := fun i c hi hc hname => hnone hi hc hname
      free := fun i hi => by
        rw [hroot hi]
        exact hdir.zero
      used := fun i hi => by
        rw [htree hi]
        exact hinode.used
      held := fun b v hv => by
        rw [hnumber b v hv]
        exact hinode.used
      slotNo := fun i hi hbit => by
        rw [hf.number hi, decide_eq_true_eq] at hbit
        rw [hbit]
        exact hno
      numberLt := fun b v hv => by
        rw [hnumber b v hv]
        decide
      cachedFor := fun b v hv => Or.inl (by
        rw [hnumber b v hv]
        exact .root)
      cwd := fun t k hk => by
        rw [mountedAt_cwd hk]
        exact .root }

/-- A kernel that starts without a file system makes one and mounts it. -/
theorem filesysStart_new {full : Nat → Bool} (hfull : ∀ j, full j = false) (hmin : 620 ≤ secCnt)
    (hdisk : startLba + secCnt ≤ maxLba + 1) (hmagic : (SuperBlock.decode (sectorAt disk (startLba + 1))).magic ≠ 0x19590318) :
    ∃ h a, h.Ready ∧ a < h.next ∧ Returns (filesysStart startLba secCnt) (Fs.boot disk full) ()
      (Fs.formatted startLba secCnt (formatDisk startLba secCnt disk) a h) := by
  have hready := ready_boot hfull
  have hread := starting_read disk ((Heap.boot full).alloc false) (startLba + 1) 1 512 (by decide) (by omega) (by decide)
  have hnone : (SuperBlock.decode (disk.window (512 * (startLba + 1)) (512 * 1))).magic ≠ 0x19590318 := hmagic
  have hsearch : Returns (searchFileSystem startLba secCnt) (Fs.starting disk ((Heap.boot full).alloc false)) ()
      (Fs.starting (formatDisk startLba secCnt disk) ((((Heap.boot full).alloc false).alloc false).freed 1)) := by
    rw [searchFileSystem, returns_bind_iff hread, if_pos hnone]
    exact partitionFormat_runs hready.alloc hmin hdisk
  exact filesysStart_runs hready hready.alloc.alloc.freed hsearch
    ((formatDisk_formatted startLba secCnt disk).decode_superBlock hmin hdisk) (format_sound hmin hdisk)

end Read

end ZxyOs
