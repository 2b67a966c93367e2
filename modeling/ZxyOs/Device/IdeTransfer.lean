/-
  ZxyOs.Device.IdeTransfer

  Transfers of many sectors are exact.

  `ide_read` and `ide_write` cut a transfer into commands of at most 256 sectors.  A count of
  256 is 0 in the sector count register and in the parameter of the copy loops; both ends
  take it for 256 again (`addressed_sectors`, `sizeInByte_ofNat`).  `insw_dataIn` and
  `outsw_dataOut` say what one data phase moves, `readSome_returns` and `writeSome_returns`
  what one turn of the loop does; the loops put these together (`ideReadLoop_exact`,
  `ideWriteLoop_exact`).
-/

import ZxyOs.Device.Ide

namespace ZxyOs

open Lib Lib.Exec

/-! ## The registers -/

/-- The drive once `select_sector` has written its registers. -/
def Ata.addressed (d : Ata) (devNo lba : Nat) (secCnt : UInt8) : Ata :=
  { d with
    sectCnt := secCnt
    lbaL := .ofNat lba
    lbaM := .ofNat (lba >>> 8)
    lbaH := .ofNat (lba >>> 16)
    dev := .ofNat (regDevice devNo ||| lba >>> 24) }

theorem selectSector_returns {c : IdeChannel} {devNo lba : Nat} {secCnt : UInt8} (hlba : lba ≤ maxLba) :
    Returns (selectSector devNo lba secCnt) c () (c.setDrive (c.drive.addressed devNo lba secCnt)) := by
  simp only [selectSector, outb, returns_bind, returns_assert, returns_update]
  exact ⟨(), c, ⟨hlba, rfl⟩, (), _, rfl, (), _, rfl, (), _, rfl, (), _, rfl, rfl⟩

section Addressed

variable {d : Ata} {devNo lba : Nat} {secCnt : UInt8}

theorem regDevice_eq : regDevice devNo = if devNo = 1 then 0xf0 else 0xe0 := by
  unfold regDevice
  split <;> rfl

theorem addressed_dev (hlba : lba ≤ maxLba) :
    (d.addressed devNo lba secCnt).dev.toNat = if devNo = 1 then 0xf0 else 0xe0 := by
  have hhigh : lba >>> 24 = 0 := by
    rw [Nat.shiftRight_eq_div_pow]
    exact Nat.div_eq_of_lt (lt_of_le_of_lt hlba (by decide))
  simp only [Ata.addressed, hhigh, Nat.or_zero, regDevice_eq]
  split <;> rfl

/-- The four registers hold the address. -/
theorem addressed_lba28 (hlba : lba ≤ maxLba) : (d.addressed devNo lba secCnt).lba28 = lba := by
  have hlt : lba < 2 ^ 24 := lt_of_le_of_lt hlba (by decide)
  have hdev : (d.addressed devNo lba secCnt).dev.toNat % 16 = 0 := by
    rw [addressed_dev hlba]
    split <;> rfl
  rw [Ata.lba28, hdev]
  simp only [Ata.addressed, UInt8.toNat_ofNat', Nat.shiftRight_eq_div_pow]
  omega

theorem addressed_slave (hlba : lba ≤ maxLba) :
    (d.addressed devNo lba secCnt).slave = decide (devNo = 1) := by
  rw [Ata.slave, addressed_dev hlba]
  by_cases h : devNo = 1
  · simp only [h, if_true]
    rfl
  · simp only [h, if_false]
    rfl

theorem addressed_logical (hlba : lba ≤ maxLba) :
    (d.addressed devNo lba secCnt).dev.toNat.testBit 6 = true := by
  rw [addressed_dev hlba]
  split <;> rfl

theorem ofNat_eq_zero_iff {op : Nat} (hpos : 0 < op) (hle : op ≤ 256) : UInt8.ofNat op = 0 ↔ op = 256 := by
  rw [← UInt8.toNat_inj, UInt8.toNat_ofNat']
  change op % 2 ^ 8 = 0 ↔ op = 256
  omega

theorem toNat_ofNat_of_ne {op : Nat} (hle : op ≤ 256) (hne : op ≠ 256) : (UInt8.ofNat op).toNat = op := by
  rw [UInt8.toNat_ofNat']
  omega

/-- The drive takes the count for the number of sectors it stands for. -/
theorem addressed_sectors {op : Nat} (hpos : 0 < op) (hle : op ≤ 256) :
    (d.addressed devNo lba (.ofNat op)).sectors = op := by
  simp only [Ata.sectors, Ata.addressed, ofNat_eq_zero_iff hpos hle]
  split
  · omega
  · exact toNat_ofNat_of_ne hle ‹_›

/-- So do the copy loops. -/
theorem sizeInByte_ofNat {op : Nat} (hpos : 0 < op) (hle : op ≤ 256) :
    sizeInByte (.ofNat op) / 2 = 256 * op := by
  simp only [sizeInByte, ofNat_eq_zero_iff hpos hle]
  split
  · omega
  · rw [toNat_ofNat_of_ne hle ‹_›]
    omega

theorem secsOp_bounds {secCnt secsDone : Nat} (hlt : secsDone < secCnt) (h32 : secCnt + 256 < 2 ^ 32) :
    secsOp secCnt secsDone = min 256 (secCnt - secsDone) := by
  unfold secsOp
  rw [Nat.mod_eq_of_lt (by omega)]
  split <;> omega

end Addressed

/-! ## A data phase -/

@[simp] theorem setDrive_drive (c : IdeChannel) (d : Ata) : (c.setDrive d).drive = d := rfl
@[simp] theorem setDrive_mem (c : IdeChannel) (d : Ata) : (c.setDrive d).mem = c.mem := rfl
@[simp] theorem setDrive_expectingIntr (c : IdeChannel) (d : Ata) :
    (c.setDrive d).expectingIntr = c.expectingIntr := rfl
@[simp] theorem setDrive_diskDone (c : IdeChannel) (d : Ata) : (c.setDrive d).diskDone = c.diskDone := rfl
@[simp] theorem setDrive_setDrive (c : IdeChannel) (d d' : Ata) : (c.setDrive d).setDrive d' = c.setDrive d' := rfl

/-- An interrupt nobody expects is ignored. -/
theorem intr_of_not {c : IdeChannel} (h : c.expectingIntr = false) : c.intr = c := by
  simp [IdeChannel.intr, h]

@[simp] theorem intr_drive (c : IdeChannel) : c.intr.drive = c.drive := by
  unfold IdeChannel.intr
  split <;> rfl

@[simp] theorem intr_mem (c : IdeChannel) : c.intr.mem = c.mem := by
  unfold IdeChannel.intr
  split <;> rfl

@[simp] theorem intr_expectingIntr (c : IdeChannel) : c.intr.expectingIntr = false := by
  unfold IdeChannel.intr
  split
  · rfl
  · simpa using ‹¬ c.expectingIntr = true›

theorem intr_setDrive (c : IdeChannel) (d : Ata) : (c.setDrive d).intr = c.intr.setDrive d := by
  unfold IdeChannel.intr
  by_cases h : c.expectingIntr = true
  · simp [h, IdeChannel.setDrive]
  · simp [h]

@[simp] theorem intr_intr (c : IdeChannel) : c.intr.intr = c.intr := intr_of_not (by simp)

/-- What the drive is at once it has handed out two more bytes. -/
def phaseIn (slave : Bool) (lba left pos : Nat) : AtaPhase :=
  if pos + 2 = 512 then .next (.dataIn slave) lba left else .dataIn slave lba left (pos + 2)

theorem inw_returns {c : IdeChannel} {slave : Bool} {lba left pos : Nat}
    (hphase : c.drive.phase = .dataIn slave lba left pos) (hintr : c.expectingIntr = false) :
    Returns inw c (c.drive.media slave (512 * lba + pos), c.drive.media slave (512 * lba + pos + 1))
      (c.setDrive { c.drive with phase := phaseIn slave lba left pos }) := by
  rw [inw, returns_bind]
  refine ⟨_, c, (returns_query _).mpr ⟨rfl, rfl⟩, ?_⟩
  rw [hphase]
  simp only [phaseIn]
  by_cases hend : pos + 2 = 512
  · simp only [hend, if_true]
    by_cases hlast : left = 1
    · simp [hlast]
    · simp [hlast, intr_setDrive, intr_of_not hintr]
  · simp [hend]

/-- A data phase of `n` words, the rest of the one that is on, hands out the bytes that follow
    one another on the medium. -/
theorem insw_dataIn {n : Nat} {c : IdeChannel} {slave : Bool} {lba left pos : Nat} {addr : UInt32}
    (hphase : c.drive.phase = .dataIn slave lba left pos) (hintr : c.expectingIntr = false)
    (hleft : 0 < left) (hpos : pos < 512) (hn : 2 * n + pos = 512 * left) (h32 : 2 * n ≤ 2 ^ 32) :
    Returns (insw addr n) c ()
      { c with
        drive := { c.drive with phase := .idle }
        mem := c.mem.fill addr (2 * n) fun k => c.drive.media slave (512 * lba + pos + k) } := by
  induction n generalizing c lba left pos addr with
  | zero => omega
  | succ n ih =>
    rw [insw, returns_bind_iff (inw_returns hphase hintr), returns_bind]
    refine ⟨(), _, (returns_update _ _).mpr rfl, ?_⟩
    have hword : ∀ f : Nat → UInt8,
        ((c.mem.store addr (f 0)).store (addr + 1) (f 1)).fill (addr + 2) (2 * n) (fun k => f (k + 2)) =
          c.mem.fill addr (2 * (n + 1)) f := by
      intro f
      rw [Memory.fill_word (by omega)]
      rfl
    have hfill := hword fun k => c.drive.media slave (512 * lba + pos + k)
    by_cases hend : n = 0
    · -- the last word of the last sector
      subst hend
      obtain rfl : left = 1 := by omega
      have hp : phaseIn slave lba 1 pos = .idle := by
        rw [phaseIn, if_pos (by omega)]
        rfl
      rw [insw, returns_pure, hp, ← hfill]
      simp [IdeChannel.setDrive]
    · -- the phase that is left, in the same sector or in the next one
      obtain ⟨lba', left', pos', hp, hleft', hpos', hn', hoff⟩ : ∃ lba' left' pos',
          phaseIn slave lba left pos = .dataIn slave lba' left' pos' ∧ 0 < left' ∧ pos' < 512 ∧
            2 * n + pos' = 512 * left' ∧ 512 * lba' + pos' = 512 * lba + pos + 2 := by
        by_cases hsector : pos + 2 = 512
        · refine ⟨lba + 1, left - 1, 0, ?_, by omega, by omega, by omega, by omega⟩
          rw [phaseIn, if_pos hsector, AtaPhase.next, if_neg (by omega)]
        · refine ⟨lba, left, pos + 2, ?_, hleft, by omega, by omega, by omega⟩
          rw [phaseIn, if_neg hsector]
      rw [hp]
      have hbytes : (fun k => c.drive.media slave (512 * lba + pos + (k + 2))) =
          fun k => c.drive.media slave (512 * lba' + pos' + k) := by
        funext k
        congr 1
        omega
      rw [← hfill, hbytes]
      exact ih (c := { c with
          drive := { c.drive with phase := .dataIn slave lba' left' pos' }
          mem := (c.mem.store addr _).store (addr + 1) _ })
        rfl hintr hleft' hpos' hn' (by omega)

/-- What the drive is at once it has taken in two more bytes. -/
def Ata.takenIn (d : Ata) (slave : Bool) (lba left pos : Nat) (w : UInt8 × UInt8) : Ata :=
  if pos + 2 = 512 then
    { d with
      phase := .next (.dataOut slave) lba left
      cache := d.cached pos w
      media := d.put slave lba 1 (d.cached pos w)
      stored := d.stored ++ [(slave, lba)] }
  else
    { d with phase := .dataOut slave lba left (pos + 2), cache := d.cached pos w }

/-- The bytes a data phase stores: those in the cache, then those in memory. -/
def pending (cache : Bytes) (pos : Nat) (mem : Memory) (addr : UInt32) : Bytes :=
  fun k => if k < pos then cache k else mem (addr + .ofNat (k - pos))

theorem outw_returns {c : IdeChannel} {slave : Bool} {lba left pos : Nat} {w : UInt8 × UInt8}
    (hphase : c.drive.phase = .dataOut slave lba left pos) :
    Returns (outw w) c ()
      (if pos + 2 = 512 then (c.setDrive (c.drive.takenIn slave lba left pos w)).intr
        else c.setDrive (c.drive.takenIn slave lba left pos w)) := by
  rw [outw, returns_bind]
  refine ⟨_, c, (returns_query _).mpr ⟨rfl, rfl⟩, ?_⟩
  rw [hphase]
  simp only [Ata.takenIn]
  by_cases hend : pos + 2 = 512
  · simp [hend]
  · simp [hend]

/-- A word taken in moves from memory to the cache. -/
theorem pending_cached {d : Ata} {pos : Nat} {mem : Memory} {addr : UInt32} :
    pending (d.cached pos (mem addr, mem (addr + 1))) (pos + 2) mem (addr + 2) =
      pending d.cache pos mem addr := by
  funext k
  simp only [pending, Ata.cached]
  by_cases hlt : k < pos
  · rw [if_pos (by omega), if_neg (by omega), if_neg (by omega), if_pos hlt]
  · rw [if_neg hlt]
    by_cases hword : k < pos + 2
    · rw [if_pos hword]
      by_cases hlow : k = pos
      · rw [if_pos hlow, hlow, Nat.sub_self]
        simp
      · rw [if_neg hlow, if_pos (by omega), show k - pos = 1 by omega]
        rfl
    · rw [if_neg hword]
      obtain ⟨m, rfl⟩ := Nat.exists_eq_add_of_le (Nat.le_of_not_lt hword)
      rw [Nat.add_sub_cancel_left, show pos + 2 + m - pos = 2 + m by omega, UInt32.ofNat_add,
        ← UInt32.add_assoc]
      rfl

theorem put_zero {d : Ata} {slave : Bool} {lba : Nat} {src : Bytes} : d.put slave lba 0 src = d.media := by
  have hsame : (d.media slave).splice (512 * lba) (512 * 0) src = d.media slave := by
    funext a
    rw [Bytes.splice_outside (by omega)]
  rw [Ata.put, hsame, Function.update_eq_self]

/-- Two runs of sectors stored one behind the other. -/
theorem put_append {d d' : Ata} {slave : Bool} {lba n m : Nat} {src src₁ src₂ : Bytes}
    (hmedia : d'.media = d.put slave lba n src₁) (h₁ : ∀ k < 512 * n, src k = src₁ k)
    (h₂ : ∀ k < 512 * m, src (512 * n + k) = src₂ k) :
    d'.put slave (lba + n) m src₂ = d.put slave lba (n + m) src := by
  rw [Ata.put, hmedia, Ata.put, Ata.put, Function.update_self, Function.update_idem, Nat.mul_add,
    Nat.mul_add, Bytes.splice_append h₁ h₂]

/-- A data phase of `n` words, the rest of the one that is on, stores the sectors it is for, each
    once and in order. -/
theorem outsw_dataOut {n : Nat} {c : IdeChannel} {slave : Bool} {lba left pos : Nat} {addr : UInt32}
    (hphase : c.drive.phase = .dataOut slave lba left pos) (hleft : 0 < left) (hpos : pos < 512)
    (hn : 2 * n + pos = 512 * left) :
    ∃ cache, Returns (outsw addr n) c ()
      { c.intr with
        drive := { c.drive with
          phase := .idle
          cache := cache
          media := c.drive.put slave lba left (pending c.drive.cache pos c.mem addr)
          stored := c.drive.stored ++ (List.range' lba left).map fun i => (slave, i) } } := by
  induction n generalizing c lba left pos addr with
  | zero => omega
  | succ n ih =>
    rw [outsw]
    simp only [returns_bind_iff ((returns_query _).mpr ⟨rfl, rfl⟩ : Returns (query (·.mem)) c c.mem c),
      returns_bind_iff (outw_returns hphase)]
    set w := (c.mem addr, c.mem (addr + 1)) with hw
    have hpend := @pending_cached c.drive pos c.mem addr
    rw [← hw] at hpend
    by_cases hsector : pos + 2 = 512
    · -- the sector is complete
      rw [if_pos hsector, Ata.takenIn, if_pos hsector]
      have hfirst : ∀ k < 512, pending c.drive.cache pos c.mem addr k = c.drive.cached pos w k := by
        intro k hk
        rw [← hpend, pending, if_pos (by omega)]
      by_cases hend : n = 0
      · subst hend
        obtain rfl : left = 1 := by omega
        have hput : c.drive.put slave lba 1 (c.drive.cached pos w) =
            c.drive.put slave lba 1 (pending c.drive.cache pos c.mem addr) := by
          rw [Ata.put, Bytes.splice_congr fun k hk => (hfirst k hk).symm]
          rfl
        refine ⟨c.drive.cached pos w, ?_⟩
        rw [outsw, returns_pure, hput, intr_setDrive]
        exact ⟨rfl, rfl⟩
      · obtain ⟨left, rfl⟩ := Nat.exists_eq_succ_of_ne_zero (by omega : left ≠ 0)
        have hput : ∀ d : Ata, d.media = c.drive.put slave lba 1 (c.drive.cached pos w) →
            d.put slave (lba + 1) left (pending (c.drive.cached pos w) 0 c.mem (addr + 2)) =
              c.drive.put slave lba (left + 1) (pending c.drive.cache pos c.mem addr) := by
          intro d hd
          rw [Nat.add_comm left 1]
          apply put_append hd hfirst
          intro k hk
          rw [← hpend, pending, if_neg (by omega), pending, if_neg (by omega)]
          congr 3
          omega
        have hnext : AtaPhase.next (.dataOut slave) lba (left + 1) = .dataOut slave (lba + 1) left 0 := by
          rw [AtaPhase.next, if_neg (by omega)]
          rfl
        rw [hnext]
        obtain ⟨cache, hret⟩ := ih (c := (c.setDrive { c.drive with
            phase := .dataOut slave (lba + 1) left 0
            cache := c.drive.cached pos w
            media := c.drive.put slave lba 1 (c.drive.cached pos w)
            stored := c.drive.stored ++ [(slave, lba)] }).intr)
          (by rw [intr_drive]; rfl) (by omega) (by omega) (by omega)
        refine ⟨cache, ?_⟩
        have hstored : c.drive.stored ++ (List.range' lba (left + 1)).map (fun i => (slave, i)) =
            c.drive.stored ++ [(slave, lba)] ++ (List.range' (lba + 1) left).map fun i => (slave, i) := by
          rw [List.range'_succ, List.map_cons, List.append_assoc]
          rfl
        rw [hstored, intr_setDrive]
        rw [intr_setDrive, intr_setDrive, intr_intr] at hret
        simp only [setDrive_mem, setDrive_drive, intr_mem] at hret ⊢
        rw [hput] at hret
        · exact hret
        · rfl
    · rw [if_neg hsector, Ata.takenIn, if_neg hsector]
      obtain ⟨cache, hret⟩ := ih (c := c.setDrive { c.drive with
          phase := .dataOut slave lba left (pos + 2), cache := c.drive.cached pos w })
        rfl hleft (by omega) (by omega)
      refine ⟨cache, ?_⟩
      rw [← hpend]
      rw [intr_setDrive] at hret
      exact hret

/-! ## A turn of the loop -/

variable {c : IdeChannel} {devNo lba op : Nat} {buf : UInt32}

theorem inStatus_busy (h : c.drive.bsy ≠ 0) :
    Returns inStatus c 0x80 (c.setDrive { c.drive with bsy := c.drive.bsy - 1 }) := by
  simp [inStatus, h]

theorem inStatus_ready (h : c.drive.bsy = 0) (hphase : c.drive.phase ≠ .idle) :
    Returns inStatus c 0x48 c := by
  simp [inStatus, h, hphase]

/-- `busy_wait` sees a drive that gets ready within its turns. -/
theorem busyWaitLoop_ready {timeLimit : Nat} (hbsy : c.drive.bsy < timeLimit)
    (hphase : c.drive.phase ≠ .idle) :
    Returns (busyWaitLoop timeLimit) c true (c.setDrive { c.drive with bsy := 0 }) := by
  induction timeLimit generalizing c with
  | zero => omega
  | succ timeLimit ih =>
    rw [busyWaitLoop]
    by_cases hzero : c.drive.bsy = 0
    · have hsame : c.setDrive { c.drive with bsy := 0 } = c := by
        rw [← hzero]
        rfl
      have hready := inStatus_ready hzero hphase
      rw [returns_bind_iff hready, if_pos (by decide), returns_bind_iff hready, returns_pure, hsame]
      exact ⟨rfl, rfl⟩
    · rw [returns_bind_iff (inStatus_busy hzero), if_neg (by decide)]
      exact ih (by simp only [setDrive_drive]; omega) hphase

/-- The drive with a command it was given. -/
def Ata.given (d : Ata) (phase : AtaPhase) (bsy : Nat) (command : AtaCommand) : Ata :=
  { d with phase := phase, bsy := bsy, issued := d.issued ++ [command] }

/-- The drive `devNo` told to move `op` sectors from `lba` on. -/
theorem addressed_command (hlba : lba ≤ maxLba) (hpos : 0 < op) (hle : op ≤ 256) {d : Ata} {cmd : UInt8} :
    (d.addressed devNo lba (.ofNat op)).command cmd = ⟨decide (devNo = 1), cmd, lba, op⟩ := by
  rw [Ata.command, addressed_slave hlba, addressed_lba28 hlba, addressed_sectors hpos hle]

/-- The drive starts to hand out sectors, and its interrupt lets the driver go on. -/
theorem cmdOut_read (hidle : c.drive.phase = .idle) (hlogical : c.drive.dev.toNat.testBit 6 = true) :
    Returns (cmdOut cmdReadSector) c ()
      { c with
        expectingIntr := false
        diskDone := c.diskDone + 1
        drive := c.drive.given (.dataIn c.drive.slave c.drive.lba28 c.drive.sectors 0) 0
          (c.drive.command cmdReadSector) } := by
  simp [cmdOut, outCmd, hidle, hlogical, IdeChannel.intr, IdeChannel.setDrive, Ata.given]

/-- The drive gets ready to take sectors in. -/
theorem cmdOut_write (hidle : c.drive.phase = .idle) (hlogical : c.drive.dev.toNat.testBit 6 = true) :
    Returns (cmdOut cmdWriteSector) c ()
      { c with
        expectingIntr := true
        drive := c.drive.given (.dataOut c.drive.slave c.drive.lba28 c.drive.sectors 0)
          (c.drive.delay c.drive.issued.length) (c.drive.command cmdWriteSector) } := by
  have hne : cmdWriteSector ≠ cmdReadSector := by decide
  simp [cmdOut, outCmd, hidle, hlogical, hne, IdeChannel.setDrive, Ata.given]

theorem semaDownDisk_returns {k : Nat} (h : c.diskDone = k + 1) :
    Returns semaDownDisk c () { c with diskDone := k } := by
  simp [semaDownDisk, h]

/-- The drive at the end of a command. -/
def Ata.served (d : Ata) (devNo lba op : Nat) (cmd : UInt8) : Ata :=
  (d.addressed devNo lba (.ofNat op)).given .idle 0 ⟨decide (devNo = 1), cmd, lba, op⟩

theorem readSome_returns (hidle : c.drive.phase = .idle) (hlba : lba ≤ maxLba) (hpos : 0 < op)
    (hle : op ≤ 256) :
    Returns (readSome devNo lba buf op) c ()
      { c with
        expectingIntr := false
        drive := c.drive.served devNo lba op cmdReadSector
        mem := c.mem.fill buf (512 * op) fun k => c.drive.media (decide (devNo = 1)) (512 * lba + k) } := by
  set d := c.drive.addressed devNo lba (.ofNat op) with hd
  have hcmd := cmdOut_read (c := c.setDrive d) hidle (addressed_logical hlba)
  simp only [setDrive_drive, hd, addressed_command hlba hpos hle, addressed_slave hlba,
    addressed_lba28 hlba, addressed_sectors hpos hle] at hcmd
  rw [readSome, returns_bind_iff (selectSector_returns hlba), returns_bind_iff hcmd,
    returns_bind_iff (semaDownDisk_returns rfl), busyWait,
    returns_bind_iff (busyWaitLoop_ready (by simp [Ata.given]) (by simp [Ata.given])),
    returns_bind_iff ((returns_assert _ ()).mpr ⟨rfl, rfl⟩), readFromSector, sizeInByte_ofNat hpos hle]
  have hcopy := @insw_dataIn (256 * op) { c with
      expectingIntr := false
      drive := d.given (.dataIn (decide (devNo = 1)) lba op 0) 0 ⟨decide (devNo = 1), cmdReadSector, lba, op⟩ }
    _ _ _ _ buf rfl rfl hpos (by omega) (by omega) (by omega)
  rw [← Nat.mul_assoc] at hcopy
  exact hcopy

/-- A write leaves the bytes of its last sector in the cache. -/
theorem writeSome_returns (hidle : c.drive.phase = .idle) (hlba : lba ≤ maxLba) (hpos : 0 < op)
    (hle : op ≤ 256) (hdelay : c.drive.delay c.drive.issued.length < 30 * 1000 - 1) :
    ∃ cache, Returns (writeSome devNo lba buf op) c ()
      { c with
        expectingIntr := false
        drive := { c.drive.served devNo lba op cmdWriteSector with
          cache := cache
          media := c.drive.put (decide (devNo = 1)) lba op fun k => c.mem (buf + .ofNat k)
          stored := c.drive.stored ++ (List.range' lba op).map fun i => (decide (devNo = 1), i) } } := by
  set d := c.drive.addressed devNo lba (.ofNat op) with hd
  have hcmd := cmdOut_write (c := c.setDrive d) hidle (addressed_logical hlba)
  simp only [setDrive_drive, hd, addressed_command hlba hpos hle, addressed_slave hlba,
    addressed_lba28 hlba, addressed_sectors hpos hle] at hcmd
  have hcopy := @outsw_dataOut (256 * op) { c with
      expectingIntr := true
      drive := d.given (.dataOut (decide (devNo = 1)) lba op 0) 0 ⟨decide (devNo = 1), cmdWriteSector, lba, op⟩ }
    _ _ _ _ buf rfl hpos (by omega) (by omega)
  obtain ⟨cache, hcopy⟩ := hcopy
  refine ⟨cache, ?_⟩
  rw [writeSome, returns_bind_iff (selectSector_returns hlba), returns_bind_iff hcmd, busyWait,
    returns_bind_iff (busyWaitLoop_ready hdelay (by simp [Ata.given])),
    returns_bind_iff ((returns_assert _ ()).mpr ⟨rfl, rfl⟩), writeToSector, sizeInByte_ofNat hpos hle]
  exact (returns_bind_iff hcopy).mpr (semaDownDisk_returns rfl)

/-! ## The loops -/

variable {secCnt : Nat}

/-- The `i`-th command of a transfer: 256 sectors, or what is left. -/
def chunk (slave : Bool) (cmd : UInt8) (lba secCnt i : Nat) : AtaCommand where
  slave := slave
  cmd := cmd
  lba := lba + 256 * i
  sectors := min 256 (secCnt - 256 * i)

/-- The commands of a transfer. -/
def chunks (slave : Bool) (cmd : UInt8) (lba secCnt : Nat) : List AtaCommand :=
  (List.range ((secCnt + 255) / 256)).map (chunk slave cmd lba secCnt)

/-- What a transfer to memory has done. -/
structure ReadExactly (devNo lba : Nat) (buf : UInt32) (secCnt : Nat) (c c' : IdeChannel) : Prop where
  mem : c'.mem =
    c.mem.fill buf (512 * secCnt) fun k => c.drive.media (decide (devNo = 1)) (512 * lba + k)
  media : c'.drive.media = c.drive.media
  stored : c'.drive.stored = c.drive.stored
  issued : c'.drive.issued =
    c.drive.issued ++ chunks (decide (devNo = 1)) cmdReadSector lba secCnt
  idle : c'.drive.phase = .idle

/-- What a transfer from memory has done. -/
structure WrittenExactly (devNo lba : Nat) (buf : UInt32) (secCnt : Nat) (c c' : IdeChannel) : Prop where
  mem : c'.mem = c.mem
  media : c'.drive.media =
    c.drive.put (decide (devNo = 1)) lba secCnt fun k => c.mem (buf + .ofNat k)
  stored : c'.drive.stored =
    c.drive.stored ++ (List.range' lba secCnt).map fun i => (decide (devNo = 1), i)
  issued : c'.drive.issued =
    c.drive.issued ++ chunks (decide (devNo = 1)) cmdWriteSector lba secCnt
  idle : c'.drive.phase = .idle

/-- A turn of the loop of `ide_read`, and the rest of it. -/
theorem ideReadLoop_turn (hend : lba + secCnt ≤ maxLba + 1) {i fuel : Nat} (hlt : 256 * i < secCnt)
    {c' c'' : IdeChannel}
    (hturn : Returns (readSome devNo (lba + 256 * i) (buf + .ofNat (512 * (256 * i)))
      (min 256 (secCnt - 256 * i))) c () c') :
    Returns (ideReadLoop devNo lba buf secCnt (fuel + 1) (min (256 * i) secCnt)) c () c'' ↔
      Returns (ideReadLoop devNo lba buf secCnt fuel (min (256 * (i + 1)) secCnt)) c' () c'' := by
  have hmax : maxLba + 1 = 163840 := by decide
  have hop : secsOp secCnt (256 * i) = min 256 (secCnt - 256 * i) := secsOp_bounds hlt (by omega)
  have hnext : (256 * i + min 256 (secCnt - 256 * i)) % 2 ^ 32 = min (256 * (i + 1)) secCnt := by omega
  have hstart : (lba + 256 * i) % 2 ^ 32 = lba + 256 * i := Nat.mod_eq_of_lt (by omega)
  rw [Nat.min_eq_left (by omega : 256 * i ≤ secCnt), ideReadLoop, if_pos hlt]
  simp only [hop, hnext, hstart, Nat.mul_comm _ 512]
  exact returns_bind_iff hturn

/-- A turn of the loop of `ide_write`, and the rest of it. -/
theorem ideWriteLoop_turn (hend : lba + secCnt ≤ maxLba + 1) {i fuel : Nat} (hlt : 256 * i < secCnt)
    {c' c'' : IdeChannel}
    (hturn : Returns (writeSome devNo (lba + 256 * i) (buf + .ofNat (512 * (256 * i)))
      (min 256 (secCnt - 256 * i))) c () c') :
    Returns (ideWriteLoop devNo lba buf secCnt (fuel + 1) (min (256 * i) secCnt)) c () c'' ↔
      Returns (ideWriteLoop devNo lba buf secCnt fuel (min (256 * (i + 1)) secCnt)) c' () c'' := by
  have hmax : maxLba + 1 = 163840 := by decide
  have hop : secsOp secCnt (256 * i) = min 256 (secCnt - 256 * i) := secsOp_bounds hlt (by omega)
  have hnext : (256 * i + min 256 (secCnt - 256 * i)) % 2 ^ 32 = min (256 * (i + 1)) secCnt := by omega
  have hstart : (lba + 256 * i) % 2 ^ 32 = lba + 256 * i := Nat.mod_eq_of_lt (by omega)
  rw [Nat.min_eq_left (by omega : 256 * i ≤ secCnt), ideWriteLoop, if_pos hlt]
  simp only [hop, hnext, hstart, Nat.mul_comm _ 512]
  exact returns_bind_iff hturn

/-- The address behind what a turn has moved. -/
theorem add_moved {i op : Nat} (h : 256 * i + op = min (256 * (i + 1)) secCnt) :
    buf + .ofNat (512 * (256 * i)) + .ofNat (512 * op) = buf + .ofNat (512 * min (256 * (i + 1)) secCnt) := by
  rw [UInt32.add_assoc, ← UInt32.ofNat_add, ← Nat.mul_add, h]

/-- The loop of `ide_read` from its `i`-th turn on, `m` turns before its end. -/
theorem ideReadLoop_exact (hend : lba + secCnt ≤ maxLba + 1) {m i fuel : Nat}
    (hm : i + m = (secCnt + 255) / 256) (hfuel : m < fuel) (hidle : c.drive.phase = .idle) :
    ∃ c', Returns (ideReadLoop devNo lba buf secCnt fuel (min (256 * i) secCnt)) c () c' ∧
      c'.mem = c.mem.fill (buf + .ofNat (512 * min (256 * i) secCnt)) (512 * (secCnt - 256 * i))
        (fun k => c.drive.media (decide (devNo = 1)) (512 * (lba + 256 * i) + k)) ∧
      c'.drive.media = c.drive.media ∧ c'.drive.stored = c.drive.stored ∧
      c'.drive.issued = c.drive.issued ++
        (List.range' i m).map (chunk (decide (devNo = 1)) cmdReadSector lba secCnt) ∧
      c'.drive.phase = .idle := by
  have hmax : maxLba + 1 = 163840 := by decide
  induction m generalizing c i fuel with
  | zero =>
    obtain ⟨fuel, rfl⟩ := Nat.exists_eq_add_of_lt hfuel
    refine ⟨c, ?_, ?_, rfl, rfl, by simp, hidle⟩
    · rw [Nat.zero_add, ideReadLoop, if_neg (by omega), returns_pure]
      exact ⟨rfl, rfl⟩
    · rw [show secCnt - 256 * i = 0 by omega, Nat.mul_zero, Memory.fill_zero]
  | succ m ih =>
    obtain ⟨fuel, rfl⟩ := Nat.exists_eq_add_of_lt hfuel
    obtain ⟨op, hop⟩ : ∃ op, op = min 256 (secCnt - 256 * i) := ⟨_, rfl⟩
    have hturn := @readSome_returns c devNo (lba + 256 * i) op (buf + .ofNat (512 * (256 * i))) hidle (by omega) (by omega) (by omega)
    obtain ⟨c', hret, hmem, hmedia, hstored, hissued, hphase⟩ := @ih { c with
        expectingIntr := false
        drive := c.drive.served devNo (lba + 256 * i) op cmdReadSector
        mem := c.mem.fill (buf + .ofNat (512 * (256 * i))) (512 * op) fun k =>
          c.drive.media (decide (devNo = 1)) (512 * (lba + 256 * i) + k) }
      (i + 1) (m + 1 + fuel) (by omega) (by omega) rfl
    refine ⟨c', ?_, ?_, hmedia, hstored, ?_, hphase⟩
    · subst hop
      exact (ideReadLoop_turn hend (by omega) hturn).mpr hret
    · -- what the turn has filled in, and what the rest of the loop fills in behind it
      rw [hmem, ← @add_moved _ _ i op (by omega), Nat.min_eq_left (by omega : 256 * i ≤ secCnt)]
      by_cases hfull : op = 256
      · have hsum : 512 * (secCnt - 256 * i) = 512 * op + 512 * (secCnt - 256 * (i + 1)) := by omega
        have hbytes : (fun k => c.drive.media (decide (devNo = 1)) (512 * (lba + 256 * (i + 1)) + k)) =
            fun k => c.drive.media (decide (devNo = 1)) (512 * (lba + 256 * i) + (512 * op + k)) := by
          funext k
          exact congrArg (c.drive.media _) (by omega)
        rw [hsum, ← Memory.fill_append (by omega), ← hbytes]
        rfl
      · have hrest : secCnt - 256 * (i + 1) = 0 := by omega
        have hall : secCnt - 256 * i = op := by omega
        rw [hrest, Nat.mul_zero, Memory.fill_zero, hall]
    · rw [hissued, List.range'_succ, List.map_cons]
      simp [Ata.served, Ata.given, Ata.addressed, chunk, hop]

/-- The loop of `ide_write` from its `i`-th turn on, `m` turns before its end. -/
theorem ideWriteLoop_exact (hend : lba + secCnt ≤ maxLba + 1) {m i fuel : Nat}
    (hm : i + m = (secCnt + 255) / 256) (hfuel : m < fuel) (hidle : c.drive.phase = .idle)
    (hdelay : ∀ k, c.drive.delay k < 30 * 1000 - 1) :
    ∃ c', Returns (ideWriteLoop devNo lba buf secCnt fuel (min (256 * i) secCnt)) c () c' ∧
      c'.mem = c.mem ∧
      c'.drive.media = c.drive.put (decide (devNo = 1)) (lba + 256 * i) (secCnt - 256 * i)
        (fun k => c.mem (buf + .ofNat (512 * (256 * i)) + .ofNat k)) ∧
      c'.drive.stored = c.drive.stored ++
        (List.range' (lba + 256 * i) (secCnt - 256 * i)).map (fun i => (decide (devNo = 1), i)) ∧
      c'.drive.issued = c.drive.issued ++
        (List.range' i m).map (chunk (decide (devNo = 1)) cmdWriteSector lba secCnt) ∧
      c'.drive.phase = .idle := by
  have hmax : maxLba + 1 = 163840 := by decide
  induction m generalizing c i fuel with
  | zero =>
    obtain ⟨fuel, rfl⟩ := Nat.exists_eq_add_of_lt hfuel
    have hrest : secCnt - 256 * i = 0 := by omega
    refine ⟨c, ?_, rfl, ?_, by simp [hrest], by simp, hidle⟩
    · rw [Nat.zero_add, ideWriteLoop, if_neg (by omega), returns_pure]
      exact ⟨rfl, rfl⟩
    · rw [hrest, put_zero]
  | succ m ih =>
    obtain ⟨fuel, rfl⟩ := Nat.exists_eq_add_of_lt hfuel
    obtain ⟨op, hop⟩ : ∃ op, op = min 256 (secCnt - 256 * i) := ⟨_, rfl⟩
    obtain ⟨cache, hturn⟩ := @writeSome_returns c _ (lba + 256 * i) op _ hidle (by omega) (by omega) (by omega)
      (hdelay _)
    obtain ⟨c', hret, hmem, hmedia, hstored, hissued, hphase⟩ := @ih { c with
        expectingIntr := false
        drive := { c.drive.served devNo (lba + 256 * i) op cmdWriteSector with
          cache := cache
          media := c.drive.put (decide (devNo = 1)) (lba + 256 * i) op
            fun k => c.mem (buf + .ofNat (512 * (256 * i)) + .ofNat k)
          stored := c.drive.stored ++
            (List.range' (lba + 256 * i) op).map fun i => (decide (devNo = 1), i) } }
      (i + 1) (m + 1 + fuel) (by omega) (by omega) rfl hdelay
    have hsum : secCnt - 256 * i = op + (secCnt - 256 * (i + 1)) := by omega
    refine ⟨c', ?_, hmem, ?_, ?_, ?_, hphase⟩
    · subst hop
      exact (ideWriteLoop_turn hend (by omega) hturn).mpr hret
    · rw [hmedia, hsum]
      by_cases hfull : op = 256
      · rw [show lba + 256 * (i + 1) = lba + 256 * i + op by omega]
        apply put_append rfl
        · intro k hk
          rfl
        · intro k hk
          have hmoved : 512 * (256 * i) + 512 * op = 512 * (256 * (i + 1)) := by omega
          rw [UInt32.ofNat_add, ← UInt32.add_assoc, UInt32.add_assoc buf, ← UInt32.ofNat_add, hmoved]
      · have hrest : secCnt - 256 * (i + 1) = 0 := by omega
        rw [hrest, put_zero]
        rfl
    · rw [hstored, hsum, List.append_assoc, ← List.map_append]
      by_cases hfull : op = 256
      · rw [show lba + 256 * (i + 1) = lba + 256 * i + op by omega, List.range'_append_1]
      · have hrest : secCnt - 256 * (i + 1) = 0 := by omega
        rw [hrest, List.range'_zero, List.append_nil]
        rfl
    · rw [hissued, List.range'_succ, List.map_cons]
      simp [Ata.served, Ata.given, Ata.addressed, chunk, hop]

/-! ## Whole transfers -/

/-- The channel once it is locked and the drive selected. -/
def IdeChannel.selected (c : IdeChannel) (devNo : Nat) : IdeChannel :=
  { c with locked := true, drive := { c.drive with dev := .ofNat (regDevice devNo) } }

theorem ideReadSectors_exact (hpos : 0 < secCnt) (hend : lba + secCnt ≤ maxLba + 1) {fuel : Nat}
    (hfuel : (secCnt + 255) / 256 < fuel) (hidle : c.drive.phase = .idle) :
    ∃ c', Returns (ideReadSectors fuel devNo lba buf secCnt) c () c' ∧
      ReadExactly devNo lba buf secCnt c c' := by
  obtain ⟨c', hret, hmem, hmedia, hstored, hissued, hphase⟩ :=
    ideReadLoop_exact (c := c.selected devNo) (i := 0) hend
      (Nat.zero_add _) hfuel hidle
  refine ⟨{ c' with locked := false }, ?_, ⟨?_, hmedia, hstored, ?_, hphase⟩⟩
  · simp only [ideReadSectors, returns_bind, returns_assert, returns_update]
    exact ⟨(), c, ⟨by omega, rfl⟩, (), c, ⟨hpos, rfl⟩, (), _, rfl, (), c.selected devNo,
      (returns_update _ _).mpr rfl, (), c', by simpa using hret, rfl⟩
  · simpa [IdeChannel.selected] using hmem
  · rw [chunks, List.range_eq_range']
    exact hissued

theorem ideWriteSectors_exact (hpos : 0 < secCnt) (hend : lba + secCnt ≤ maxLba + 1) {fuel : Nat}
    (hfuel : (secCnt + 255) / 256 < fuel) (hidle : c.drive.phase = .idle)
    (hdelay : ∀ k, c.drive.delay k < 30 * 1000 - 1) :
    ∃ c', Returns (ideWriteSectors fuel devNo lba buf secCnt) c () c' ∧
      WrittenExactly devNo lba buf secCnt c c' := by
  obtain ⟨c', hret, hmem, hmedia, hstored, hissued, hphase⟩ :=
    ideWriteLoop_exact (c := c.selected devNo) (i := 0) hend
      (Nat.zero_add _) hfuel hidle hdelay
  refine ⟨{ c' with locked := false }, ?_, ⟨hmem, ?_, ?_, ?_, hphase⟩⟩
  · simp only [ideWriteSectors, returns_bind, returns_assert, returns_update]
    exact ⟨(), c, ⟨by omega, rfl⟩, (), c, ⟨hpos, rfl⟩, (), _, rfl, (), c.selected devNo,
      (returns_update _ _).mpr rfl, (), c', by simpa using hret, rfl⟩
  · simpa [IdeChannel.selected, Ata.put] using hmedia
  · simpa [IdeChannel.selected] using hstored
  · rw [chunks, List.range_eq_range']
    exact hissued

/-- A sector of the disk is at its place in the buffer. -/
theorem ReadExactly.byte {c' : IdeChannel} (h : ReadExactly devNo lba buf secCnt c c')
    (hsize : secCnt ≤ maxLba + 1) {k : Nat} (hk : k < 512 * secCnt) :
    c'.mem (buf + .ofNat k) = c.drive.media (decide (devNo = 1)) (512 * lba + k) := by
  have hmax : maxLba + 1 = 163840 := by decide
  rw [h.mem, Memory.fill_inside hk (by omega)]

/-- The file system's reading of a disk is what the driver does to its buffer. -/
theorem ReadExactly.refines {c' : IdeChannel} {s s' : Fs} {room : Nat} {data : Bytes}
    (h : ReadExactly devNo lba buf secCnt c c') (hsize : secCnt ≤ maxLba + 1)
    (hdisk : s.disk = c.drive.media (decide (devNo = 1)))
    (hread : Returns (ideRead lba secCnt room) s data s') {k : Nat} (hk : k < 512 * secCnt) :
    c'.mem (buf + .ofNat k) = data k := by
  simp only [ideRead, returns_bind, returns_fits, returns_assert, returns_query] at hread
  obtain ⟨-, _, ⟨-, rfl⟩, -, _, ⟨-, rfl⟩, -, _, ⟨-, rfl⟩, rfl, -⟩ := hread
  rw [h.byte hsize hk, Bytes.window_apply hk, hdisk]

/-- So is its writing. -/
theorem WrittenExactly.refines {c' : IdeChannel} {s s' : Fs} {data : Bytes}
    (h : WrittenExactly devNo lba buf secCnt c c')
    (hdisk : s.disk = c.drive.media (decide (devNo = 1)))
    (hdata : ∀ k < 512 * secCnt, data k = c.mem (buf + .ofNat k))
    (hwrite : Returns (ideWrite lba data secCnt) s () s') :
    s'.disk = c'.drive.media (decide (devNo = 1)) := by
  simp only [ideWrite, returns_bind, returns_assert, returns_update] at hwrite
  obtain ⟨-, _, ⟨-, rfl⟩, -, _, ⟨-, rfl⟩, rfl⟩ := hwrite
  rw [h.media, Ata.put, Function.update_self, ← hdisk]
  exact Bytes.splice_congr hdata

/-- A transfer of any number of sectors up to the last one of the disk, by a driver whose
    drive is at rest and asks for the data of a write before the driver gives up, comes to its end.
    A read fills the buffer with the sectors in order; a write stores the pieces of the buffer to
    the sectors, each once and in order; and the commands are given the addresses and counts
    of the pieces of 256 sectors. -/
theorem ide_transfers_exact (c : IdeChannel) (devNo lba secCnt : Nat) (buf : UInt32) (hpos : 0 < secCnt)
    (hend : lba + secCnt - 1 ≤ maxLba) (hidle : c.drive.phase = .idle)
    (hdelay : ∀ k, c.drive.delay k < 30 * 1000 - 1) :
    ∃ n, ∀ fuel ≥ n,
      (∃ c', Returns (ideReadSectors fuel devNo lba buf secCnt) c () c' ∧
        ReadExactly devNo lba buf secCnt c c') ∧
      ∃ c', Returns (ideWriteSectors fuel devNo lba buf secCnt) c () c' ∧
        WrittenExactly devNo lba buf secCnt c c' := by
  refine ⟨(secCnt + 255) / 256 + 1, fun fuel hfuel => ⟨?_, ?_⟩⟩
  · exact ideReadSectors_exact hpos (by omega) (by omega) hidle
  · exact ideWriteSectors_exact hpos (by omega) (by omega) hidle hdelay

/-- Two blank drives, at rest. -/
def restingChannel : IdeChannel where
  locked := false
  expectingIntr := false
  diskDone := 0
  mem := fun _ => 0
  drive := {
    sectCnt := 0, lbaL := 0, lbaM := 0, lbaH := 0, dev := 0, phase := .idle, bsy := 0
    cache := Bytes.zero, media := fun _ => Bytes.zero, delay := fun _ => 3, issued := [], stored := [] }

/-- One sector more than a command is for, up to the last sector of the disk. -/
theorem ide_transfers_exact_resting :
    ∃ n, ∀ fuel ≥ n,
      (∃ c', Returns (ideReadSectors fuel 1 163583 0xfffff000 257) restingChannel () c' ∧
        ReadExactly 1 163583 0xfffff000 257 restingChannel c') ∧
      ∃ c', Returns (ideWriteSectors fuel 1 163583 0xfffff000 257) restingChannel () c' ∧
        WrittenExactly 1 163583 0xfffff000 257 restingChannel c' :=
  ide_transfers_exact restingChannel 1 163583 257 0xfffff000 (by decide) (by decide) rfl
    (fun k => by change 3 < 30 * 1000 - 1; decide)

end ZxyOs
