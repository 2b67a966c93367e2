/-
  ZxyOs.Fs.Format

  Making and mounting a file system, `partition_format`, `partition_mount` and
  `filesys_init` of `fs/fs.c`: the layout of a partition, what formatting writes
  to it, and the state the kernel starts from.

  A partition holds, in this order, a boot sector, the super block, the block
  bitmap, the inode bitmap, the inode table and the data blocks.
-/

import ZxyOs.Fs.Inode
import ZxyOs.Fs.Dir

namespace ZxyOs

open Lib Lib.Exec

/-- `DIV_ROUND_UP`. -/
def divRoundUp (x step : Nat) : Nat := (x + step - 1) / step

/-! ## Layout -/

/-- `used_secs`: boot sector, super block, inode bitmap and inode table. -/
abbrev usedSecs : Nat := 1 + 1 + divRoundUp 4096 4096 + divRoundUp (76 * 4096) 512

/-- `free_secs` in 32-bit arithmetic. -/
def freeSecs (secCnt : Nat) : Nat := (secCnt + (2 ^ 32 - usedSecs)) % 2 ^ 32

/-- `block_bitmap_bit_len`: the number of data blocks.  It is computed from a first
    estimate of the size of the block bitmap. -/
def blockBitmapBitLen (secCnt : Nat) : Nat := freeSecs secCnt - divRoundUp (freeSecs secCnt) 4096

/-- The super block `partition_format` makes up for a partition. -/
def formatSuperBlock (startLba secCnt : Nat) : SuperBlock :=
  let blockBitmapSecs := divRoundUp (blockBitmapBitLen secCnt) 4096
  { magic := 0x19590318
    secCnt := secCnt
    inodeCnt := 4096
    partLbaBase := startLba
    blockBitmapLba := startLba + 2
    blockBitmapSecs := blockBitmapSecs
    inodeBitmapLba := startLba + 2 + blockBitmapSecs
    inodeBitmapSecs := divRoundUp 4096 4096
    inodeTableLba := startLba + 2 + blockBitmapSecs + divRoundUp 4096 4096
    inodeTableSecs := divRoundUp (76 * 4096) 512
    dataStartLba :=
      startLba + 2 + blockBitmapSecs + divRoundUp 4096 4096 + divRoundUp (76 * 4096) 512
    rootInodeNo := 0
    dirEntrySize := 24 }

namespace SuperBlock

/-- Word `k` of a `struct super_block`; the padding is never read. -/
def word (sb : SuperBlock) : Nat → Nat
  | 0 => sb.magic
  | 1 => sb.secCnt
  | 2 => sb.inodeCnt
  | 3 => sb.partLbaBase
  | 4 => sb.blockBitmapLba
  | 5 => sb.blockBitmapSecs
  | 6 => sb.inodeBitmapLba
  | 7 => sb.inodeBitmapSecs
  | 8 => sb.inodeTableLba
  | 9 => sb.inodeTableSecs
  | 10 => sb.dataStartLba
  | 11 => sb.rootInodeNo
  | 12 => sb.dirEntrySize
  | _ => 0

/-- The `struct super_block` in a buffer. -/
def decode (b : Bytes) : SuperBlock where
  magic := Bytes.u32At b 0
  secCnt := Bytes.u32At b 4
  inodeCnt := Bytes.u32At b 8
  partLbaBase := Bytes.u32At b 12
  blockBitmapLba := Bytes.u32At b 16
  blockBitmapSecs := Bytes.u32At b 20
  inodeBitmapLba := Bytes.u32At b 24
  inodeBitmapSecs := Bytes.u32At b 28
  inodeTableLba := Bytes.u32At b 32
  inodeTableSecs := Bytes.u32At b 36
  dataStartLba := Bytes.u32At b 40
  rootInodeNo := Bytes.u32At b 44
  dirEntrySize := Bytes.u32At b 48

end SuperBlock

/-! ## Formatting -/

/-- `buf[0] |= 0x01` on a zeroed buffer. -/
def firstBitSet : Bytes := Function.update Bytes.zero 0 1

/-- `while (bit_idx <= block_bitmap_last_bit) buf[last] &= ~(1 << bit_idx++)`, with
    `n` rounds left. -/
def clearLastByte (lastByte : Nat) : Nat → Nat → Bytes → Bytes
  | 0, _, buf => buf
  | n + 1, bitIdx, buf =>
    clearLastByte lastByte n (bitIdx + 1)
      (Function.update buf lastByte (buf lastByte &&& ~~~(1 <<< UInt8.ofNat bitIdx)))

/-- The block bitmap of a new file system with `bitLen` blocks: the root directory
    has block 0, and the bits behind the last block are set, except that the loop
    clearing the last byte clears one bit more than it has blocks. -/
def formatBlockBitmap (bitLen : Nat) : Bytes :=
  let lastByte := bitLen / 8
  let lastBit := bitLen % 8
  let lastSize := 512 - lastByte % 512
  clearLastByte lastByte (lastBit + 1) 0 (firstBitSet.splice lastByte lastSize fun _ => 0xff)

/-- The inode of the root directory of a new file system. -/
def formatRootInode (sb : SuperBlock) : Inode :=
  { (inodeInit 0).setSector 0 sb.dataStartLba with iSize := sb.dirEntrySize * 2 }

/-- The first block of the root directory of a new file system. -/
def formatRootBlock : Bytes :=
  let self : DirEntry := { filename := dot, iNo := 0, fType := ftDir }
  let up : DirEntry := { filename := dotDot, iNo := 0, fType := ftDir }
  (Bytes.zero.splice 0 24 self.encode).splice 24 24 up.encode

/-- `partition_format` of the partition at `startLba` with `secCnt` sectors. -/
def partitionFormat (startLba secCnt : Nat) : FsM Unit := do
  let sb := formatSuperBlock startLba secCnt
  ideWrite (startLba + 1) (wordsOf sb.word) 1
  let buf ← sysMalloc
  require (buf ≠ none)
  ideWrite sb.blockBitmapLba (formatBlockBitmap (blockBitmapBitLen secCnt)) sb.blockBitmapSecs
  ideWrite sb.inodeBitmapLba firstBitSet sb.inodeBitmapSecs
  ideWrite sb.inodeTableLba (Bytes.zero.splice 0 76 (formatRootInode sb).encode) sb.inodeTableSecs
  ideWrite sb.dataStartLba formatRootBlock 1
  sysFree buf

/-! ## Mounting -/

/-- `partition_mount` of the partition at `startLba` with `secCnt` sectors. -/
def partitionMount (startLba secCnt : Nat) : FsM Unit := do
  let sbBuf ← sysMalloc
  let sbMem ← sysMalloc
  assert (sbMem ≠ none)
  fits (sbBuf ≠ none)
  let b ← ideRead (startLba + 1) 1 512
  let sb := SuperBlock.decode b
  let blockBits ← sysMalloc
  assert (blockBits ≠ none)
  let blocks ← ideRead sb.blockBitmapLba sb.blockBitmapSecs (sb.blockBitmapSecs * 512)
  let inodeBits ← sysMalloc
  assert (inodeBits ≠ none)
  let inodes ← ideRead sb.inodeBitmapLba sb.inodeBitmapSecs (sb.inodeBitmapSecs * 512)
  update fun s => { s with
    part := { startLba := startLba, secCnt := secCnt, sb := sb }
    blockBitmap := Bitmap.ofBytes blocks (sb.blockBitmapSecs * 512)
    inodeMap := Bitmap.ofBytes inodes (sb.inodeBitmapSecs * 512)
    openInodes := [] }

/-- `open_root_dir`. -/
def openRootDir : FsM Unit := do
  let s ← query id
  let a ← inodeOpen s.part.sb.rootInodeNo
  update fun s => { s with rootDir := { inode := a, dirPose := 0 } }

/-- The part of `filesys_init` that concerns one partition not formatted before:
    format it, mount it and open its root directory. -/
def filesysInit (startLba secCnt : Nat) : FsM Unit := do
  partitionFormat startLba secCnt
  partitionMount startLba secCnt
  openRootDir

/-- The control block of a thread as `init_thread` leaves it. -/
def initThread : Task where
  fdtable := fun k => if k.val < 3 then k.val else -1
  cwdInodeNr := 0
  userSpace := false

/-- The kernel before the file system is initialised: nothing is mounted, no file
    is open, thread 0 runs, and `disk` is whatever the disk holds. -/
def Fs.boot (disk : Bytes) (full : Nat → Bool) : Fs where
  part := { startLba := 0, secCnt := 0, sb := SuperBlock.decode Bytes.zero }
  disk := disk
  blockBitmap := { btmpBytesLen := 0, bit := fun _ => false }
  inodeMap := { btmpBytesLen := 0, bit := fun _ => false }
  openInodes := []
  inodes := fun _ => none
  dirs := fun _ => none
  rings := fun _ => none
  rootDir := { inode := 0, dirPose := 0 }
  fileTable := fun _ => { fdPos := 0, fdFlag := 0, fdInode := none }
  heap := { next := 0, live := [], full := full }
  tasks := fun n => if n = 0 then some initThread else none
  cur := 0

end ZxyOs
