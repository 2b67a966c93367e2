/-
  ZxyOs.Device.Ide

  Reading and writing many sectors (`device/ide.c`): `ide_read` and `ide_write` with the
  functions they are made of, on one channel with its two drives.

  A drive is what the driver sees of it through the registers.  A command written to the
  command register starts a data phase of as many sectors as the sector count register says,
  0 standing for 256, from the 28-bit address in the four address registers on; the data
  register then hands out or takes in one word after the other, and the drive goes on to its
  next sector after every 512 bytes.  It raises an interrupt when a sector is ready to be
  read and when it has stored one.  Before it takes the first word of a write it is busy for
  a number of looks at its status that depends on the drive (`delay`).  Each drive remembers
  the commands it was given and the sectors it stored (`issued`, `stored`); nothing reads
  these.

  A thread that finds the lock of the channel taken waits for it, so the state `ide_read`
  starts from is the one in which it has got it.
-/

import ZxyOs.Lib.Fill
import ZxyOs.Fs.State

namespace ZxyOs

open Lib Lib.Exec

/-! ## The drives -/

/-- What a drive was told to do: the drive, the command, the address, the sectors. -/
structure AtaCommand where
  slave : Bool
  cmd : UInt8
  lba : Nat
  sectors : Nat
  deriving DecidableEq

inductive AtaPhase where
  | idle
  /-- sector `lba` is handed out, `left` sectors with it, and `pos` bytes of it are -/
  | dataIn (slave : Bool) (lba left pos : Nat)
  /-- sector `lba` is taken in, `left` sectors with it, and `pos` bytes of it are -/
  | dataOut (slave : Bool) (lba left pos : Nat)
  deriving DecidableEq

structure Ata where
  sectCnt : UInt8
  lbaL : UInt8
  lbaM : UInt8
  lbaH : UInt8
  dev : UInt8
  phase : AtaPhase
  /-- looks at the status register that still show the drive busy -/
  bsy : Nat
  /-- the bytes of the sector that is taken in -/
  cache : Bytes
  /-- the bytes of both drives, sector after sector -/
  media : Bool → Bytes
  /-- how often the status shows the drive busy after its `k`-th command, a write -/
  delay : Nat → Nat
  issued : List AtaCommand
  stored : List (Bool × Nat)

namespace Ata

/-- The address in the registers. -/
def lba28 (d : Ata) : Nat :=
  d.lbaL.toNat + 2 ^ 8 * d.lbaM.toNat + 2 ^ 16 * d.lbaH.toNat + 2 ^ 24 * (d.dev.toNat % 16)

def slave (d : Ata) : Bool := d.dev.toNat.testBit 4

/-- The sectors a command is for. -/
def sectors (d : Ata) : Nat := if d.sectCnt = 0 then 256 else d.sectCnt.toNat

def command (d : Ata) (cmd : UInt8) : AtaCommand where
  slave := d.slave
  cmd := cmd
  lba := d.lba28
  sectors := d.sectors

end Ata

/-- A channel, its drives and the memory. -/
structure IdeChannel where
  locked : Bool
  expectingIntr : Bool
  diskDone : Nat
  drive : Ata
  mem : Memory

abbrev ChannelM (α : Type) : Type := Exec IdeChannel α

/-- The registers that are written; a channel has them at consecutive ports. -/
inductive AtaReg where
  | sectCnt
  | lbaL
  | lbaM
  | lbaH
  | dev
  deriving DecidableEq

namespace IdeChannel

def setDrive (c : IdeChannel) (d : Ata) : IdeChannel := { c with drive := d }

/-- `intr_hd_handler`. -/
def intr (c : IdeChannel) : IdeChannel :=
  if c.expectingIntr then { c with expectingIntr := false, diskDone := c.diskDone + 1 } else c

end IdeChannel

def Ata.setReg (d : Ata) (r : AtaReg) (v : UInt8) : Ata :=
  match r with
  | .sectCnt => { d with sectCnt := v }
  | .lbaL => { d with lbaL := v }
  | .lbaM => { d with lbaM := v }
  | .lbaH => { d with lbaH := v }
  | .dev => { d with dev := v }

/-- The next phase, once a sector is complete. -/
def AtaPhase.next (start : Nat → Nat → Nat → AtaPhase) (lba left : Nat) : AtaPhase :=
  if left = 1 then .idle else start (lba + 1) (left - 1) 0

/-! ## Ports -/

def outb (r : AtaReg) (v : UInt8) : ChannelM Unit := update fun c => c.setDrive (c.drive.setReg r v)

def cmdReadSector : UInt8 := 0x20

def cmdWriteSector : UInt8 := 0x30

/-- The command register.  A drive that is not done yet, addresses that are not logical ones
    and other commands are not modelled. -/
def outCmd (cmd : UInt8) : ChannelM Unit := do
  let d ← query (·.drive)
  require (d.phase = .idle ∧ d.dev.toNat.testBit 6 = true)
  let issued := d.issued ++ [d.command cmd]
  if cmd = cmdReadSector then
    update fun c => (c.setDrive { d with
      phase := .dataIn d.slave d.lba28 d.sectors 0, bsy := 0, issued := issued }).intr
  else
    require (cmd = cmdWriteSector)
    update fun c => c.setDrive { d with
      phase := .dataOut d.slave d.lba28 d.sectors 0, bsy := d.delay d.issued.length, issued := issued }

/-- The status register: `BIT_STAT_BSY`, or `BIT_STAT_DRDY` and perhaps `BIT_STAT_DRQ`. -/
def inStatus : ChannelM UInt8 := do
  let d ← query (·.drive)
  if d.bsy = 0 then
    return if d.phase = .idle then 0x40 else 0x48
  else
    update fun c => c.setDrive { d with bsy := d.bsy - 1 }
    return 0x80

/-- A word from the data register, its low byte first. -/
def inw : ChannelM (UInt8 × UInt8) := do
  let d ← query (·.drive)
  match d.phase with
  | .dataIn slave lba left pos =>
    if pos + 2 = 512 then
      update fun c => (c.setDrive { d with phase := .next (.dataIn slave) lba left })
      if left ≠ 1 then
        update (·.intr)
    else
      update fun c => c.setDrive { d with phase := .dataIn slave lba left (pos + 2) }
    return (d.media slave (512 * lba + pos), d.media slave (512 * lba + pos + 1))
  | _ => stop .fault

/-- `cache` once the word `w` is taken in at `pos`. -/
def Ata.cached (d : Ata) (pos : Nat) (w : UInt8 × UInt8) : Bytes :=
  fun j => if j = pos then w.1 else if j = pos + 1 then w.2 else d.cache j

/-- The media once `n` sectors are stored from `lba` on. -/
def Ata.put (d : Ata) (slave : Bool) (lba n : Nat) (src : Bytes) : Bool → Bytes :=
  Function.update d.media slave ((d.media slave).splice (512 * lba) (512 * n) src)

/-- A word to the data register. -/
def outw (w : UInt8 × UInt8) : ChannelM Unit := do
  let d ← query (·.drive)
  match d.phase with
  | .dataOut slave lba left pos =>
    let cache := d.cached pos w
    if pos + 2 = 512 then
      update fun c => (c.setDrive { d with
        phase := .next (.dataOut slave) lba left, cache := cache,
        media := d.put slave lba 1 cache, stored := d.stored ++ [(slave, lba)] }).intr
    else
      update fun c => c.setDrive { d with
        phase := .dataOut slave lba left (pos + 2), cache := cache }
  | _ => stop .fault

/-- `rep insw`. -/
def insw (addr : UInt32) : Nat → ChannelM Unit
  | 0 => return ()
  | wordCnt + 1 => do
    let w ← inw
    update fun c => { c with mem := (c.mem.store addr w.1).store (addr + 1) w.2 }
    insw (addr + 2) wordCnt

/-- `rep outsw`. -/
def outsw (addr : UInt32) : Nat → ChannelM Unit
  | 0 => return ()
  | wordCnt + 1 => do
    let mem ← query (·.mem)
    outw (mem addr, mem (addr + 1))
    outsw (addr + 2) wordCnt

/-! ## The driver -/

/-- `BIT_DEV_MBS | BIT_DEV_LBA`, and `BIT_DEV_DEV` for the second drive of the channel. -/
def regDevice (devNo : Nat) : Nat := 0xa0 ||| 0x40 ||| if devNo = 1 then 0x10 else 0

def selectDisk (devNo : Nat) : ChannelM Unit := outb .dev (.ofNat (regDevice devNo))

def selectSector (devNo lba : Nat) (secCnt : UInt8) : ChannelM Unit := do
  assert (lba ≤ maxLba)
  outb .sectCnt secCnt
  outb .lbaL (.ofNat lba)
  outb .lbaM (.ofNat (lba >>> 8))
  outb .lbaH (.ofNat (lba >>> 16))
  outb .dev (.ofNat (regDevice devNo ||| lba >>> 24))

def cmdOut (cmd : UInt8) : ChannelM Unit := do
  update ({ · with expectingIntr := true })
  outCmd cmd

def sizeInByte (sectorCnt : UInt8) : Nat := if sectorCnt = 0 then 256 * 512 else sectorCnt.toNat * 512

def readFromSector (buf : UInt32) (sectorCnt : UInt8) : ChannelM Unit := insw buf (sizeInByte sectorCnt / 2)

def writeToSector (buf : UInt32) (sectorCnt : UInt8) : ChannelM Unit := outsw buf (sizeInByte sectorCnt / 2)

/-- The loop of `busy_wait`, with `timeLimit` turns left. -/
def busyWaitLoop : Nat → ChannelM Bool
  | 0 => return false
  | timeLimit + 1 => do
    let status ← inStatus
    if status &&& 0x80 = 0 then
      let status ← inStatus
      return decide (status &&& 0x08 ≠ 0)
    else
      busyWaitLoop timeLimit

/-- `busy_wait`.  `time_limit -= 10 >= 0` takes 1 off the limit, so that the loop takes one
    turn less than the limit says. -/
def busyWait : ChannelM Bool := busyWaitLoop (30 * 1000 - 1)

/-- `sema_down(&channel->disk_done)`. -/
def semaDownDisk : ChannelM Unit := do
  let diskDone ← query (·.diskDone)
  if diskDone = 0 then
    stop .blocked
  else
    update ({ · with diskDone := diskDone - 1 })

/-- `secs_op`: the sectors of the next command. -/
def secsOp (secCnt secsDone : Nat) : Nat :=
  if (secsDone + 256) % 2 ^ 32 ≤ secCnt then 256 else secCnt - secsDone

/-- A turn of the loop of `ide_read`. -/
def readSome (devNo lba : Nat) (buf : UInt32) (op : Nat) : ChannelM Unit := do
  selectSector devNo lba (.ofNat op)
  cmdOut cmdReadSector
  semaDownDisk
  let ready ← busyWait
  assert (ready = true)
  readFromSector buf (.ofNat op)

/-- The loop of `ide_read`; `fuel` bounds its turns. -/
def ideReadLoop (devNo lba : Nat) (buf : UInt32) (secCnt : Nat) : Nat → Nat → ChannelM Unit
  | 0, _ => stop .blocked
  | fuel + 1, secsDone => do
    if secsDone < secCnt then
      let op := secsOp secCnt secsDone
      readSome devNo ((lba + secsDone) % 2 ^ 32) (buf + .ofNat (secsDone * 512)) op
      ideReadLoop devNo lba buf secCnt fuel ((secsDone + op) % 2 ^ 32)

/-- `ide_read`. -/
def ideReadSectors (fuel devNo lba : Nat) (buf : UInt32) (secCnt : Nat) : ChannelM Unit := do
  assert (lba ≤ maxLba)
  assert (0 < secCnt)
  update ({ · with locked := true })
  selectDisk devNo
  ideReadLoop devNo lba buf secCnt fuel 0
  update ({ · with locked := false })

/-- A turn of the loop of `ide_write`. -/
def writeSome (devNo lba : Nat) (buf : UInt32) (op : Nat) : ChannelM Unit := do
  selectSector devNo lba (.ofNat op)
  cmdOut cmdWriteSector
  let ready ← busyWait
  assert (ready = true)
  writeToSector buf (.ofNat op)
  semaDownDisk

/-- The loop of `ide_write`. -/
def ideWriteLoop (devNo lba : Nat) (buf : UInt32) (secCnt : Nat) : Nat → Nat → ChannelM Unit
  | 0, _ => stop .blocked
  | fuel + 1, secsDone => do
    if secsDone < secCnt then
      let op := secsOp secCnt secsDone
      writeSome devNo ((lba + secsDone) % 2 ^ 32) (buf + .ofNat (secsDone * 512)) op
      ideWriteLoop devNo lba buf secCnt fuel ((secsDone + op) % 2 ^ 32)

/-- `ide_write`. -/
def ideWriteSectors (fuel devNo lba : Nat) (buf : UInt32) (secCnt : Nat) : ChannelM Unit := do
  assert (lba ≤ maxLba)
  assert (0 < secCnt)
  update ({ · with locked := true })
  selectDisk devNo
  ideWriteLoop devNo lba buf secCnt fuel 0
  update ({ · with locked := false })

end ZxyOs
