/-
  ZxyOs.Device.PartitionScan

  How the partitions are found when the system starts (`device/ide.c`).

  `ide_init` goes through the channels and has `partition_scan` read the tables of the
  second disk of each.  The scan follows the links from one boot sector to the next by
  calling itself; `fuel` bounds the depth of these calls.  What it knows between two calls,
  and between two disks, is in global variables: the counters are reset after every disk,
  the sector the extended partition begins at is not (`discovery_iff`).

  A disk is a byte store as in `Fs.State`, and all reads succeed.  A drive that is not there
  never raises the interrupt `identify_disk` waits for.  The buffer a boot sector is read
  into is left out.
-/

import ZxyOs.Fs.State

namespace ZxyOs

open Lib Lib.Exec

/-! ## The tables on a disk -/

/-- The fields of `struct partition_table_entry` that are read. -/
structure PartitionTableEntry where
  fsType : Nat
  startLba : Nat
  secCnt : Nat

/-- Entry `idx` of `partition_table` in `struct boot_sector`. -/
def partitionTableEntry (bs : Bytes) (idx : Nat) : PartitionTableEntry where
  fsType := (bs (446 + 16 * idx + 4)).toNat
  startLba := bs.u32At (446 + 16 * idx + 8)
  secCnt := bs.u32At (446 + 16 * idx + 12)

/-- The four entries, in order. -/
def partitionTable (bs : Bytes) : List PartitionTableEntry := (List.range 4).map (partitionTableEntry bs)

/-- The boot sector at `lba`. -/
def bootSector (disk : Bytes) (lba : Nat) : Bytes := disk.window (512 * lba) 512

/-! ## The state of the driver -/

/-- The two arrays of `struct disk`. -/
inductive PartKind where
  /-- `prim_parts` -/
  | prim
  /-- `logic_parts` -/
  | logic
  deriving DecidableEq

namespace PartKind

/-- The length of the array. -/
def size : PartKind → Nat
  | prim => 4
  | logic => 8

/-- The number in the name of the first partition. -/
def firstNo : PartKind → Nat
  | prim => 1
  | logic => 5

end PartKind

/-- The fields of `struct partition` that are filled in. -/
structure PartRecord where
  startLba : Nat
  secCnt : Nat
  myDisk : Nat
  name : String

/-- The `part_tag` of entry `idx` of an array of disk `hd`. -/
structure PartTag where
  hd : Nat
  kind : PartKind
  idx : Nat
  deriving DecidableEq

/-- The globals of `ide.c`: `ext_lba_base`, the counters `p_no` and `l_no`, the arrays of every
    disk and `partition_list`. -/
structure Ide where
  extLbaBase : Nat
  no : PartKind → Nat
  parts : PartKind → Nat → Nat → PartRecord
  partitionList : List PartTag

/-- The driver at work. -/
abbrev IdeM (α : Type) : Type := Exec Ide α

/-- The name of disk `hd`, "sd%c". -/
def diskName (hd : Nat) : String := "sd" ++ (Char.ofNat (97 + hd)).toString

/-- What is recorded of a partition: "%s%d" is its name. -/
def partRecord (kind : PartKind) (hd idx startLba secCnt : Nat) : PartRecord where
  startLba := startLba
  secCnt := secCnt
  myDisk := hd
  name := diskName hd ++ toString (idx + kind.firstNo)

/-- An entry of the zeroed arrays. -/
def PartRecord.zero : PartRecord := ⟨0, 0, 0, ""⟩

/-- The driver before `ide_init`. -/
def Ide.boot : Ide where
  extLbaBase := 0
  no := fun _ => 0
  parts := fun _ _ _ => .zero
  partitionList := []

/-- Fill in the next entry of an array, append it to the list and count it. -/
def Ide.record (kind : PartKind) (hd startLba secCnt : Nat) (s : Ide) : Ide where
  extLbaBase := s.extLbaBase
  no := Function.update s.no kind (s.no kind + 1)
  parts := fun k h i =>
    if k = kind ∧ h = hd ∧ i = s.no kind then partRecord kind hd i startLba secCnt else s.parts k h i
  partitionList := s.partitionList ++ [⟨hd, kind, s.no kind⟩]

/-- Set `ext_lba_base`. -/
def Ide.setBase (base : Nat) (s : Ide) : Ide := { s with extLbaBase := base }

/-- `p_no = 0, l_no = 0`. -/
def Ide.resetCounters (s : Ide) : Ide := { s with no := fun _ => 0 }

/-! ## The scan -/

/-- Record a partition where the array has room, and return how many it has then. -/
def recordPart (kind : PartKind) (hd startLba secCnt : Nat) : IdeM Nat := do
  let no ← query fun s => s.no kind
  require (no < kind.size)
  update (Ide.record kind hd startLba secCnt)
  pure (no + 1)

/-- What an extended partition leads to; the first one found is what all links are relative to. -/
def scanExtended (scan : Nat → IdeM Unit) (startLba : Nat) : IdeM Unit := do
  let base ← query Ide.extLbaBase
  if base ≠ 0 then
    scan ((startLba + base) % 2 ^ 32)
  else do
    update (Ide.setBase startLba)
    scan startLba

/-- The loop over the table of the sector `extLba`; `scan` is the recursive call. -/
def scanEntries (scan : Nat → IdeM Unit) (hd extLba : Nat) : List PartitionTableEntry → IdeM Unit
  | [] => pure ()
  | p :: ps => do
    if p.fsType = 5 then do
      scanExtended scan p.startLba
      scanEntries scan hd extLba ps
    else if p.fsType ≠ 0 then do
      if extLba = 0 then do
        let pNo ← recordPart .prim hd ((extLba + p.startLba) % 2 ^ 32) p.secCnt
        assert (pNo < 4)
        scanEntries scan hd extLba ps
      else do
        let lNo ← recordPart .logic hd ((extLba + p.startLba) % 2 ^ 32) p.secCnt
        -- the function returns here, the rest of the table is not looked at
        if 8 ≤ lNo then pure () else scanEntries scan hd extLba ps
    else
      scanEntries scan hd extLba ps

/-- `partition_scan`. -/
def partitionScan (hd : Nat) (disk : Bytes) : Nat → Nat → IdeM Unit
  | 0, _ => stop .fault
  | fuel + 1, extLba => do
    -- `ide_read` of one sector
    assert (extLba ≤ maxLba)
    scanEntries (partitionScan hd disk fuel) hd extLba (partitionTable (bootSector disk extLba))

/-! ## The machine -/

/-- The drives of a machine: drive `2 * ch + dev` is device `dev` of channel `ch`. -/
structure Machine where
  drive : Nat → Option Bytes
  atMostFour : ∀ hd, 4 ≤ hd → drive hd = none

namespace Machine

/-- The byte at `0x475`. -/
def hdCnt (m : Machine) : Nat := ((List.range 4).filter fun hd => (m.drive hd).isSome).length

/-- `channel_cnt`. -/
def channelCnt (m : Machine) : Nat := (m.hdCnt + 1) / 2

/-- `identify_disk`, which waits for the drive to answer. -/
def identifyDisk (m : Machine) (hd : Nat) : IdeM Bytes :=
  match m.drive hd with
  | some disk => pure disk
  | none => stop .blocked

/-- What `ide_init` does with one device. -/
def initDevice (m : Machine) (fuel channelNo devNo : Nat) : IdeM Unit := do
  let disk ← m.identifyDisk (channelNo * 2 + devNo)
  if devNo ≠ 0 then do
    partitionScan (channelNo * 2 + devNo) disk fuel 0
    update Ide.resetCounters
  else
    update Ide.resetCounters

/-- The loop over the channels, with `n` left. -/
def initChannels (m : Machine) (fuel : Nat) : Nat → Nat → IdeM Unit
  | 0, _ => pure ()
  | n + 1, channelNo => do
    m.initDevice fuel channelNo 0
    m.initDevice fuel channelNo 1
    m.initChannels fuel n (channelNo + 1)

/-- `ide_init`. -/
def ideInit (m : Machine) (fuel : Nat) : IdeM Unit := do
  assert (0 < m.hdCnt)
  update fun s => { s with partitionList := [] }
  m.initChannels fuel m.channelCnt 0

/-- Disk `hd` with contents `d` is one of those whose tables are read. -/
def Scanned (m : Machine) (hd : Nat) (d : Bytes) : Prop :=
  hd < 2 * m.channelCnt ∧ hd % 2 = 1 ∧ m.drive hd = some d

end Machine

/-! ## What the tables say -/

/-- Where a partition lies on its disk. -/
structure Extent where
  startLba : Nat
  secCnt : Nat

/-- The primary partitions of a table. -/
def primaries : List PartitionTableEntry → List Extent
  | [] => []
  | p :: ps => if p.fsType = 0 ∨ p.fsType = 5 then primaries ps else ⟨p.startLba, p.secCnt⟩ :: primaries ps

/-- The extended partitions of a table. -/
def extendeds : List PartitionTableEntry → List Nat
  | [] => []
  | p :: ps => if p.fsType = 5 then p.startLba :: extendeds ps else extendeds ps

/-- The sector `lba` holds the table of an extended boot record: a logical partition or none, then a link
    or none. -/
structure Ebr (disk : Bytes) (lba : Nat) (ls : List Extent) (link : Option Nat) : Prop where
  lba_le : lba ≤ maxLba
  first : let p := partitionTableEntry (bootSector disk lba) 0
    p.fsType = 0 ∧ ls = [] ∨
      p.fsType ≠ 0 ∧ p.fsType ≠ 5 ∧ lba + p.startLba ≤ maxLba ∧ ls = [⟨lba + p.startLba, p.secCnt⟩]
  second : let p := partitionTableEntry (bootSector disk lba) 1
    p.fsType = 0 ∧ link = none ∨ p.fsType = 5 ∧ link = some p.startLba
  rest : (partitionTableEntry (bootSector disk lba) 2).fsType = 0 ∧
    (partitionTableEntry (bootSector disk lba) 3).fsType = 0

/-- A chain of `n` extended boot records from the sector `lba` on, with its logical partitions; links count
    from `base`. -/
inductive EbrChain (disk : Bytes) (base : Nat) : Nat → List Extent → Nat → Prop where
  | last {lba : Nat} {ls : List Extent} (ebr : Ebr disk lba ls none) : EbrChain disk base lba ls 1
  | link {lba next n : Nat} {ls rest : List Extent} (ebr : Ebr disk lba ls (some next))
      (tail : EbrChain disk base (base + next) rest n) : EbrChain disk base lba (ls ++ rest) (n + 1)

/-- The table in the first sector. -/
def mbr (disk : Bytes) : List PartitionTableEntry := partitionTable (bootSector disk 0)

/-- The tables of a disk are well formed: `ls` are its logical partitions, and `n` boot records hold them. -/
inductive Tables (disk : Bytes) : List Extent → Nat → Prop where
  | primaryOnly (none : extendeds (mbr disk) = []) : Tables disk [] 0
  | withExtended {base n : Nat} {ls : List Extent} (one : extendeds (mbr disk) = [base]) (pos : 0 < base)
      (chain : EbrChain disk base base ls n) (few : ls.length ≤ 8) : Tables disk ls n

/-- The tables of every disk that is scanned are well formed. -/
def Machine.WellFormed (m : Machine) : Prop := ∀ hd d, m.Scanned hd d → ∃ ls n, Tables d ls n

/-- The partitions of a disk by the array they belong in. -/
def byKind (prims logics : List Extent) : PartKind → List Extent
  | .prim => prims
  | .logic => logics

/-- The arrays of disk `hd` hold these partitions and nothing more, and all of them are in the list. -/
structure Ide.Records (s : Ide) (hd : Nat) (ps : PartKind → List Extent) : Prop where
  held : ∀ k i x, (ps k)[i]? = some x → s.parts k hd i = partRecord k hd i x.startLba x.secCnt
  empty : ∀ k i, (ps k).length ≤ i → s.parts k hd i = .zero
  listed : ∀ k i, ⟨hd, k, i⟩ ∈ s.partitionList ↔ i < (ps k).length

/-- With stack enough, `ide_init` returns and has recorded exactly the partitions of the disks it scans. -/
def Machine.RecordsExactly (m : Machine) : Prop :=
  ∃ depth, ∀ fuel ≥ depth, ∃ s, Returns (m.ideInit fuel) .boot () s ∧
    s.partitionList.Nodup ∧ (∀ tag ∈ s.partitionList, ∃ d, m.Scanned tag.hd d) ∧
    ∀ hd d, m.Scanned hd d → ∃ ls n, Tables d ls n ∧ s.Records hd (byKind (primaries (mbr d)) ls)

/-! ## One entry at a time -/

section Entries

variable {scan : Nat → IdeM Unit} {hd extLba : Nat} {p : PartitionTableEntry} {ps : List PartitionTableEntry}
  {s t : Ide}

/-- The state and the sector the recursive call is made with. -/
def Ide.enter (startLba : Nat) (s : Ide) : Ide × Nat :=
  if s.extLbaBase ≠ 0 then (s, (startLba + s.extLbaBase) % 2 ^ 32) else (s.setBase startLba, startLba)

theorem returns_recordPart {kind : PartKind} {startLba secCnt n : Nat} :
    Returns (recordPart kind hd startLba secCnt) s n t ↔
      s.no kind < kind.size ∧ n = s.no kind + 1 ∧ t = s.record kind hd startLba secCnt := by
  simp only [recordPart, returns_bind, returns_query, returns_require, returns_update, returns_pure]
  constructor
  · rintro ⟨no, u, ⟨rfl, rfl⟩, -, v, ⟨hno, rfl⟩, -, w, rfl, rfl, rfl⟩
    exact ⟨hno, rfl, rfl⟩
  · rintro ⟨hno, rfl, rfl⟩
    exact ⟨_, _, ⟨rfl, rfl⟩, (), _, ⟨hno, rfl⟩, (), _, rfl, rfl, rfl⟩

theorem returns_scanExtended {startLba : Nat} :
    Returns (scanExtended scan startLba) s () t ↔
      Returns (scan (s.enter startLba).2) (s.enter startLba).1 () t := by
  simp only [scanExtended, returns_bind, returns_query, Ide.enter]
  constructor
  · rintro ⟨base, u, ⟨rfl, rfl⟩, h⟩
    split at h
    · next hbase => rwa [if_pos hbase]
    · next hbase =>
      obtain ⟨_, v, hv, h⟩ := returns_bind.mp h
      obtain rfl := (returns_update _ _).mp hv
      rwa [if_neg hbase]
  · intro h
    refine ⟨_, _, ⟨rfl, rfl⟩, ?_⟩
    split at h
    · next hbase => rwa [if_pos hbase]
    · next hbase =>
      rw [if_neg hbase]
      exact returns_bind.mpr ⟨(), _, (returns_update _ _).mpr rfl, h⟩

theorem returns_empty (hp : p.fsType = 0) :
    Returns (scanEntries scan hd extLba (p :: ps)) s () t ↔ Returns (scanEntries scan hd extLba ps) s () t := by
  rw [scanEntries, if_neg (by omega), if_neg (by omega)]

theorem returns_extended (hp : p.fsType = 5) :
    Returns (scanEntries scan hd extLba (p :: ps)) s () t ↔
      ∃ u, Returns (scan (s.enter p.startLba).2) (s.enter p.startLba).1 () u ∧
        Returns (scanEntries scan hd extLba ps) u () t := by
  rw [scanEntries, if_pos hp, returns_bind]
  constructor
  · rintro ⟨_, u, hu, h⟩
    exact ⟨u, returns_scanExtended.mp hu, h⟩
  · rintro ⟨u, hu, h⟩
    exact ⟨(), u, returns_scanExtended.mpr hu, h⟩

/-- A primary partition is recorded, and the next one has a place in the array as well. -/
theorem returns_primary (h0 : p.fsType ≠ 0) (h5 : p.fsType ≠ 5) :
    Returns (scanEntries scan hd 0 (p :: ps)) s () t ↔
      s.no .prim < 3 ∧
        Returns (scanEntries scan hd 0 ps) (s.record .prim hd (p.startLba % 2 ^ 32) p.secCnt) () t := by
  rw [scanEntries, if_neg h5, if_pos h0, if_pos rfl, Nat.zero_add]
  simp only [returns_bind, returns_recordPart, returns_assert]
  constructor
  · rintro ⟨n, u, ⟨-, rfl, rfl⟩, -, v, ⟨hn, rfl⟩, h⟩
    exact ⟨by omega, h⟩
  · rintro ⟨hn, h⟩
    exact ⟨_, _, ⟨by simp only [PartKind.size]; omega, rfl, rfl⟩, (), _, ⟨by omega, rfl⟩, h⟩

/-- A logical partition is recorded; with the eighth the scan of this sector ends. -/
theorem returns_logical (h0 : p.fsType ≠ 0) (h5 : p.fsType ≠ 5) (hlba : extLba ≠ 0) :
    Returns (scanEntries scan hd extLba (p :: ps)) s () t ↔
      s.no .logic < 8 ∧
        let u := s.record .logic hd ((extLba + p.startLba) % 2 ^ 32) p.secCnt
        if s.no .logic = 7 then t = u else Returns (scanEntries scan hd extLba ps) u () t := by
  rw [scanEntries, if_neg h5, if_pos h0, if_neg hlba]
  simp only [returns_bind, returns_recordPart]
  constructor
  · rintro ⟨n, u, ⟨hn, rfl, rfl⟩, h⟩
    refine ⟨hn, ?_⟩
    split at h
    · next hfull =>
      rw [if_pos (by simp only [PartKind.size] at hn; omega)]
      exact (returns_pure.mp h).2.symm
    · next hfull => rwa [if_neg (by omega)]
  · rintro ⟨hn, h⟩
    refine ⟨_, _, ⟨hn, rfl, rfl⟩, ?_⟩
    split at h
    · next hfull =>
      rw [if_pos (by omega)]
      exact returns_pure.mpr ⟨rfl, h.symm⟩
    · next hfull => rwa [if_neg (by omega)]

theorem returns_partitionScan {disk : Bytes} {fuel : Nat} :
    Returns (partitionScan hd disk (fuel + 1) extLba) s () t ↔
      extLba ≤ maxLba ∧ Returns (scanEntries (partitionScan hd disk fuel) hd extLba
        (partitionTable (bootSector disk extLba))) s () t := by
  simp only [partitionScan, returns_bind, returns_assert]
  constructor
  · rintro ⟨-, u, ⟨hlba, rfl⟩, h⟩
    exact ⟨hlba, h⟩
  · rintro ⟨hlba, h⟩
    exact ⟨(), s, ⟨hlba, rfl⟩, h⟩

end Entries

/-! ## What is added -/

/-- Between `s` and `t` the partitions `ps` of disk `hd` were recorded, behind those that were there. -/
structure Ide.Adds (hd : Nat) (ps : PartKind → List Extent) (s t : Ide) : Prop where
  no : ∀ k, t.no k = s.no k + (ps k).length
  held : ∀ k i x, (ps k)[i]? = some x →
    t.parts k hd (s.no k + i) = partRecord k hd (s.no k + i) x.startLba x.secCnt
  others : ∀ k h i, h ≠ hd ∨ i < s.no k ∨ t.no k ≤ i → t.parts k h i = s.parts k h i
  listed : ∃ new, t.partitionList = s.partitionList ++ new ∧ new.Nodup ∧
    ∀ tag, tag ∈ new ↔ tag.hd = hd ∧ s.no tag.kind ≤ tag.idx ∧ tag.idx < t.no tag.kind

namespace Ide.Adds

variable {hd : Nat} {ps qs : PartKind → List Extent} {s t u : Ide}

theorem refl (hd : Nat) (h : ∀ k, ps k = []) (s : Ide) : s.Adds hd ps s where
  no := by simp [h]
  held := by simp [h]
  others _ _ _ _ := rfl
  listed := by
    refine ⟨[], by simp, List.nodup_nil, fun tag => ?_⟩
    constructor
    · exact fun hmem => absurd hmem (List.not_mem_nil)
    · omega

theorem trans (h : s.Adds hd ps t) (h' : t.Adds hd qs u) : s.Adds hd (fun k => ps k ++ qs k) u where
  no k := by
    rw [h'.no, h.no, List.length_append, Nat.add_assoc]
  held k i x hx := by
    rcases Nat.lt_or_ge i (ps k).length with hi | hi
    · rw [List.getElem?_append_left hi] at hx
      have hlt : s.no k + i < t.no k := by rw [h.no]; omega
      rw [h'.others k hd _ (Or.inr (Or.inl hlt)), h.held k i x hx]
    · rw [List.getElem?_append_right hi] at hx
      have hsum : s.no k + i = t.no k + (i - (ps k).length) := by rw [h.no]; omega
      rw [hsum]
      exact h'.held k _ x hx
  others k hd' i hi := by
    have hno := h.no k
    have hno' := h'.no k
    rw [h'.others k hd' i (by omega), h.others k hd' i (by omega)]
  listed := by
    obtain ⟨new, hlist, hnodup, hmem⟩ := h.listed
    obtain ⟨new', hlist', hnodup', hmem'⟩ := h'.listed
    refine ⟨new ++ new', by rw [hlist', hlist, List.append_assoc], ?_, fun tag => ?_⟩
    · rw [List.nodup_append]
      refine ⟨hnodup, hnodup', fun a ha b hb hab => ?_⟩
      -- what is recorded later has the larger numbers
      obtain ⟨-, -, hlt⟩ := (hmem a).mp ha
      obtain ⟨-, hle, -⟩ := (hmem' b).mp hb
      rw [hab] at hlt
      omega
    · have hno := h.no tag.kind
      have hno' := h'.no tag.kind
      rw [List.mem_append, hmem, hmem']
      constructor
      · rintro (⟨hhd, h1, h2⟩ | ⟨hhd, h1, h2⟩)
        · exact ⟨hhd, by omega, by omega⟩
        · exact ⟨hhd, by omega, by omega⟩
      · rintro ⟨hhd, h1, h2⟩
        rcases Nat.lt_or_ge tag.idx (t.no tag.kind) with hlt | hge
        · exact Or.inl ⟨hhd, h1, hlt⟩
        · exact Or.inr ⟨hhd, hge, h2⟩

/-- Which base the links count from plays no role. -/
theorem setBase {base : Nat} (h : (s.setBase base).Adds hd ps t) : s.Adds hd ps t :=
  ⟨h.no, h.held, h.others, h.listed⟩

end Ide.Adds

/-- Recording one partition. -/
theorem Ide.adds_record (kind : PartKind) (hd startLba secCnt : Nat) (s : Ide) :
    s.Adds hd (fun k => if k = kind then [⟨startLba, secCnt⟩] else []) (s.record kind hd startLba secCnt) where
  no k := by
    by_cases hk : k = kind
    · subst hk
      simp [Ide.record]
    · simp [Ide.record, hk]
  held k i x hx := by
    by_cases hk : k = kind
    · subst hk
      rw [if_pos rfl] at hx
      obtain ⟨rfl, rfl⟩ : i = 0 ∧ x = ⟨startLba, secCnt⟩ := by
        cases i with
        | zero => exact ⟨rfl, (Option.some.inj hx).symm⟩
        | succ i => simp at hx
      simp [Ide.record]
    · simp [hk] at hx
  others k h i hi := by
    have hne : ¬ (k = kind ∧ h = hd ∧ i = s.no kind) := by
      rintro ⟨rfl, rfl, rfl⟩
      simp only [Ide.record, Function.update_self] at hi
      omega
    simp only [Ide.record, if_neg hne]
  listed := by
    refine ⟨[⟨hd, kind, s.no kind⟩], rfl, List.pairwise_singleton _ _, fun tag => ?_⟩
    rw [List.mem_singleton]
    constructor
    · rintro rfl
      simp [Ide.record]
    · rintro ⟨hhd, hle, hlt⟩
      by_cases hk : tag.kind = kind
      · rw [hk] at hle hlt
        simp only [Ide.record, Function.update_self] at hlt
        obtain ⟨h, k, i⟩ := tag
        simp only at hhd hk hle hlt
        rw [hhd, hk, show i = s.no kind by omega]
      · simp only [Ide.record, Function.update_of_ne hk] at hlt
        omega

theorem byKind_append (ps ps' ls ls' : List Extent) :
    (fun k => byKind ps ls k ++ byKind ps' ls' k) = byKind (ps ++ ps') (ls ++ ls') := by
  funext k
  cases k with
  | prim => rfl
  | logic => rfl

theorem Ide.adds_prim (hd startLba secCnt : Nat) (s : Ide) :
    s.Adds hd (byKind [⟨startLba, secCnt⟩] []) (s.record .prim hd startLba secCnt) := by
  have h := s.adds_record .prim hd startLba secCnt
  rwa [show (fun k => if k = PartKind.prim then [Extent.mk startLba secCnt] else []) = byKind [⟨startLba, secCnt⟩] []
    from funext fun k => by cases k <;> rfl] at h

theorem Ide.adds_logic (hd startLba secCnt : Nat) (s : Ide) :
    s.Adds hd (byKind [] [⟨startLba, secCnt⟩]) (s.record .logic hd startLba secCnt) := by
  have h := s.adds_record .logic hd startLba secCnt
  rwa [show (fun k => if k = PartKind.logic then [Extent.mk startLba secCnt] else []) = byKind [] [⟨startLba, secCnt⟩]
    from funext fun k => by cases k <;> rfl] at h

theorem Ide.Adds.none (hd : Nat) (s : Ide) : s.Adds hd (byKind [] []) s :=
  Ide.Adds.refl hd (fun k => by cases k <;> rfl) s

/-! ## The chain of an extended partition -/

theorem maxLba_lt : maxLba < 2 ^ 32 := by decide

theorem partitionTable_eq (bs : Bytes) : partitionTable bs =
    [partitionTableEntry bs 0, partitionTableEntry bs 1, partitionTableEntry bs 2, partitionTableEntry bs 3] := rfl

section Chain

variable {hd lba fuel : Nat} {disk : Bytes} {ls : List Extent} {s : Ide}

/-- One boot record of the chain: its partition is recorded, and then its link is followed unless there is no place left. -/
theorem Ebr.returns {link : Option Nat} {Q : Ide → Prop} (h : Ebr disk lba ls link) (hlba : lba ≠ 0)
    (hbase : s.extLbaBase ≠ 0) (hlow : s.no .logic < 8)
    (hfull : ∀ u, s.Adds hd (byKind [] ls) u → u.extLbaBase = s.extLbaBase → u.no .logic = 8 → Q u)
    (hrest : ∀ u, s.Adds hd (byKind [] ls) u → u.extLbaBase = s.extLbaBase → u.no .logic < 8 →
      link = none ∧ Q u ∨ ∃ next t, link = some next ∧
        Returns (partitionScan hd disk fuel ((next + s.extLbaBase) % 2 ^ 32)) u () t ∧ Q t) :
    ∃ t, Returns (partitionScan hd disk (fuel + 1) lba) s () t ∧ Q t := by
  obtain ⟨h2, h3⟩ := h.rest
  have htail : ∀ u, s.Adds hd (byKind [] ls) u → u.extLbaBase = s.extLbaBase → u.no .logic < 8 →
      ∃ t, Returns (scanEntries (partitionScan hd disk fuel) hd lba
        [partitionTableEntry (bootSector disk lba) 1, partitionTableEntry (bootSector disk lba) 2,
          partitionTableEntry (bootSector disk lba) 3]) u () t ∧ Q t := by
    intro u hu hub hulow
    have hend : ∀ t, Returns (scanEntries (partitionScan hd disk fuel) hd lba
        [partitionTableEntry (bootSector disk lba) 2, partitionTableEntry (bootSector disk lba) 3]) t () t :=
      fun t => (returns_empty h2).mpr ((returns_empty h3).mpr (returns_pure.mpr ⟨rfl, rfl⟩))
    rcases h.second with ⟨h1, hlink⟩ | ⟨h1, hlink⟩
    · rcases hrest u hu hub hulow with ⟨-, hQ⟩ | ⟨next, t, hnext, -, -⟩
      · exact ⟨u, (returns_empty h1).mpr (hend u), hQ⟩
      · rw [hlink] at hnext
        cases hnext
    · rcases hrest u hu hub hulow with ⟨hnone, -⟩ | ⟨next, t, hnext, ht, hQ⟩
      · rw [hlink] at hnone
        cases hnone
      · obtain rfl := Option.some.inj (hlink.symm.trans hnext)
        refine ⟨t, (returns_extended h1).mpr ⟨t, ?_, hend t⟩, hQ⟩
        rw [Ide.enter, if_pos (by rw [hub]; exact hbase), hub]
        exact ht
  rcases h.first with ⟨h0, rfl⟩ | ⟨h0, h5, hle, rfl⟩
  · obtain ⟨t, ht, hQ⟩ := htail s (Ide.Adds.none hd s) rfl hlow
    refine ⟨t, returns_partitionScan.mpr ⟨h.lba_le, ?_⟩, hQ⟩
    rw [partitionTable_eq]
    exact (returns_empty h0).mpr ht
  · have hmax := maxLba_lt
    have hu := s.adds_logic hd (lba + (partitionTableEntry (bootSector disk lba) 0).startLba)
      (partitionTableEntry (bootSector disk lba) 0).secCnt
    have hno : _ = s.no .logic + 1 := hu.no .logic
    by_cases hseven : s.no .logic = 7
    · refine ⟨_, returns_partitionScan.mpr ⟨h.lba_le, ?_⟩, hfull _ hu rfl (by omega)⟩
      rw [partitionTable_eq, returns_logical h0 h5 hlba, if_pos hseven, Nat.mod_eq_of_lt (by omega)]
      exact ⟨hlow, rfl⟩
    · obtain ⟨t, ht, hQ⟩ := htail _ hu rfl (by omega)
      refine ⟨t, returns_partitionScan.mpr ⟨h.lba_le, ?_⟩, hQ⟩
      rw [partitionTable_eq, returns_logical h0 h5 hlba, if_neg hseven, Nat.mod_eq_of_lt (by omega)]
      exact ⟨hlow, ht⟩

theorem EbrChain.le_maxLba {base n : Nat} (h : EbrChain disk base lba ls n) : lba ≤ maxLba := by
  cases h with
  | last ebr => exact ebr.lba_le
  | link ebr tail => exact ebr.lba_le

/-- All logical partitions of a chain are recorded. -/
theorem EbrChain.returns {base n : Nat} (hd fuel : Nat) (h : EbrChain disk base lba ls n) (hpos : 0 < base) (hle : base ≤ lba)
    (hbase : s.extLbaBase = base) (hlow : s.no .logic < 8) (hfew : s.no .logic + ls.length ≤ 8) (hfuel : n ≤ fuel) :
    ∃ t, Returns (partitionScan hd disk fuel lba) s () t ∧ s.Adds hd (byKind [] ls) t ∧ t.extLbaBase = base := by
  induction h generalizing s fuel with
  | last ebr =>
    obtain ⟨fuel, rfl⟩ : ∃ f, fuel = f + 1 := ⟨fuel - 1, by omega⟩
    refine ebr.returns (by omega) (by omega) hlow (fun u hu hub _ => ⟨hu, by omega⟩) ?_
    exact fun u hu hub _ => Or.inl ⟨rfl, hu, by omega⟩
  | @link lba next n ls rest ebr tail ih =>
    obtain ⟨fuel, rfl⟩ : ∃ f, fuel = f + 1 := ⟨fuel - 1, by omega⟩
    have hmax := maxLba_lt
    have hnext := tail.le_maxLba
    rw [List.length_append] at hfew
    refine ebr.returns (by omega) (by omega) hlow ?_ ?_
    · -- the array is full, so there is nothing left further down the chain
      intro u hu hub hfull
      have hno : u.no .logic = s.no .logic + ls.length := hu.no .logic
      obtain rfl : rest = [] := List.length_eq_zero_iff.mp (by omega)
      rw [List.append_nil]
      exact ⟨hu, by omega⟩
    · intro u hu hub hulow
      have hno : u.no .logic = s.no .logic + ls.length := hu.no .logic
      obtain ⟨t, ht, hadds, htb⟩ := ih fuel (s := u) (by omega) (by omega) hulow (by omega) (by omega)
      refine Or.inr ⟨next, t, rfl, ?_, ?_, htb⟩
      · rwa [show (next + s.extLbaBase) % 2 ^ 32 = base + next by omega]
      · have htrans := hu.trans hadds
        rwa [byKind_append] at htrans

end Chain

/-! ## The table of a disk -/

section Table

variable {hd fuel : Nat} {disk : Bytes} {s t : Ide}

theorem primaries_of_empty {p : PartitionTableEntry} {ps : List PartitionTableEntry} (h : p.fsType = 0) :
    primaries (p :: ps) = primaries ps ∧ extendeds (p :: ps) = extendeds ps := by
  simp [primaries, extendeds, h]

theorem primaries_of_extended {p : PartitionTableEntry} {ps : List PartitionTableEntry} (h : p.fsType = 5) :
    primaries (p :: ps) = primaries ps ∧ extendeds (p :: ps) = p.startLba :: extendeds ps := by
  simp [primaries, extendeds, h]

theorem primaries_of_primary {p : PartitionTableEntry} {ps : List PartitionTableEntry} (h0 : p.fsType ≠ 0)
    (h5 : p.fsType ≠ 5) :
    primaries (p :: ps) = ⟨p.startLba, p.secCnt⟩ :: primaries ps ∧ extendeds (p :: ps) = extendeds ps := by
  simp [primaries, extendeds, h0, h5]

/-- A table with at most three primary partitions is recorded, and the chain it leads to with it. -/
theorem returns_table (hd fuel : Nat) (disk : Bytes) (es : List PartitionTableEntry) (ls : List Extent) (hes : ∀ p ∈ es, p.startLba < 2 ^ 32)
    (hfew : s.no .prim + (primaries es).length ≤ 3)
    (hext : extendeds es = [] ∧ ls = [] ∨ ∃ base n, extendeds es = [base] ∧ 0 < base ∧ s.extLbaBase = 0 ∧
      s.no .logic = 0 ∧ EbrChain disk base base ls n ∧ ls.length ≤ 8 ∧ n ≤ fuel) :
    ∃ t, Returns (scanEntries (partitionScan hd disk fuel) hd 0 es) s () t ∧
      s.Adds hd (byKind (primaries es) ls) t ∧ t.extLbaBase = (extendeds es).headD s.extLbaBase := by
  induction es generalizing s ls with
  | nil =>
    rcases hext with ⟨-, rfl⟩ | ⟨base, n, hbase, -⟩
    · exact ⟨s, returns_pure.mpr ⟨rfl, rfl⟩, Ide.Adds.none hd s, rfl⟩
    · simp [extendeds] at hbase
  | cons p es ih =>
    have hes' : ∀ q ∈ es, q.startLba < 2 ^ 32 := fun q hq => hes q (List.mem_cons_of_mem _ hq)
    by_cases h0 : p.fsType = 0
    · obtain ⟨hp, he⟩ := primaries_of_empty h0
      rw [hp] at hfew ⊢
      rw [he] at hext ⊢
      obtain ⟨t, ht, h⟩ := ih ls hes' hfew hext
      exact ⟨t, (returns_empty h0).mpr ht, h⟩
    by_cases h5 : p.fsType = 5
    · obtain ⟨hp, he⟩ := primaries_of_extended h5
      rw [hp] at hfew ⊢
      rw [he] at hext ⊢
      rcases hext with ⟨hnil, -⟩ | ⟨base, n, hone, hpos, hzero, hlogic, hchain, hls, hn⟩
      · cases hnil
      obtain ⟨rfl, hrest⟩ := List.cons.inj hone
      -- the chain first, then the rest of the table with the base set
      obtain ⟨u, hu, hadds, hub⟩ := hchain.returns hd fuel (s := s.setBase p.startLba) hpos
        (Nat.le_refl _) rfl (by show s.no .logic < 8; omega) (by show s.no .logic + _ ≤ 8; omega) hn
      have hadds := hadds.setBase
      have hno : u.no .prim = s.no .prim := hadds.no .prim
      obtain ⟨t, ht, hadds', htb⟩ := ih (s := u) [] hes' (by omega) (Or.inl ⟨hrest, rfl⟩)
      refine ⟨t, (returns_extended h5).mpr ⟨u, ?_, ht⟩, ?_, ?_⟩
      · rw [Ide.enter, if_neg (by omega)]
        exact hu
      · have htrans := hadds.trans hadds'
        rwa [byKind_append, List.nil_append, List.append_nil] at htrans
      · rw [htb, hrest]
        exact hub
    · obtain ⟨hp, he⟩ := primaries_of_primary h0 h5
      rw [hp, List.length_cons] at hfew
      rw [hp]
      rw [he] at hext ⊢
      have hu := s.adds_prim hd p.startLba p.secCnt
      have hno : _ = s.no .prim + 1 := hu.no .prim
      obtain ⟨t, ht, hadds, hb⟩ := ih (s := s.record .prim hd p.startLba p.secCnt) ls hes' (by omega) hext
      refine ⟨t, (returns_primary h0 h5).mpr ⟨by omega, ?_⟩, ?_, hb⟩
      · rwa [Nat.mod_eq_of_lt (hes p List.mem_cons_self)]
      · have htrans := hu.trans hadds
        rwa [byKind_append] at htrans

/-- A scan that ends has found no fourth primary partition. -/
theorem primaries_le {scan : Nat → IdeM Unit} {es : List PartitionTableEntry} (hnone : extendeds es = [])
    (h : Returns (scanEntries scan hd 0 es) s () t) : primaries es = [] ∨ s.no .prim + (primaries es).length ≤ 3 := by
  induction es generalizing s with
  | nil => exact Or.inl rfl
  | cons p es ih =>
    by_cases h0 : p.fsType = 0
    · obtain ⟨hp, he⟩ := primaries_of_empty h0
      rw [hp]
      exact ih (he.symm.trans hnone) ((returns_empty h0).mp h)
    by_cases h5 : p.fsType = 5
    · rw [(primaries_of_extended h5).2] at hnone
      cases hnone
    · obtain ⟨hp, he⟩ := primaries_of_primary h0 h5
      obtain ⟨hlt, h⟩ := (returns_primary h0 h5).mp h
      have hno : _ = s.no .prim + 1 := (s.adds_prim hd (p.startLba % 2 ^ 32) p.secCnt).no .prim
      rw [hp, List.length_cons]
      rcases ih (he.symm.trans hnone) h with hnil | hle
      · rw [hnil]
        exact Or.inr hlt
      · exact Or.inr (by omega)

/-- With a base left over, the first extended partition of a table is looked for at the sum of the two addresses,
    which must be on the disk. -/
theorem extended_on_disk {es : List PartitionTableEntry} {start : Nat} {ss : List Nat} (hbase : s.extLbaBase ≠ 0)
    (hext : extendeds es = start :: ss) (h : Returns (scanEntries (partitionScan hd disk fuel) hd 0 es) s () t) :
    (start + s.extLbaBase) % 2 ^ 32 ≤ maxLba := by
  induction es generalizing s with
  | nil => cases hext
  | cons p es ih =>
    by_cases h0 : p.fsType = 0
    · rw [(primaries_of_empty h0).2] at hext
      exact ih hbase hext ((returns_empty h0).mp h)
    by_cases h5 : p.fsType = 5
    · rw [(primaries_of_extended h5).2] at hext
      obtain ⟨rfl, -⟩ := List.cons.inj hext
      obtain ⟨u, hu, -⟩ := (returns_extended h5).mp h
      rw [Ide.enter, if_pos hbase] at hu
      cases fuel with
      | zero => exact absurd hu (returns_stop _)
      | succ fuel => exact (returns_partitionScan.mp hu).1
    · rw [(primaries_of_primary h0 h5).2] at hext
      obtain ⟨-, h⟩ := (returns_primary h0 h5).mp h
      exact ih (s := s.record .prim hd (p.startLba % 2 ^ 32) p.secCnt) hbase hext h

theorem mbr_startLba {d : Bytes} : ∀ p ∈ mbr d, p.startLba < 2 ^ 32 := by
  intro p hp
  obtain ⟨i, -, rfl⟩ := List.mem_map.mp hp
  exact Bytes.u32At_lt _ _

/-- A table has four entries. -/
theorem primaries_add_extendeds (es : List PartitionTableEntry) :
    (primaries es).length + (extendeds es).length ≤ es.length := by
  induction es with
  | nil => exact Nat.le_refl _
  | cons p es ih =>
    by_cases h0 : p.fsType = 0
    · rw [(primaries_of_empty h0).1, (primaries_of_empty h0).2, List.length_cons]
      omega
    by_cases h5 : p.fsType = 5
    · rw [(primaries_of_extended h5).1, (primaries_of_extended h5).2, List.length_cons, List.length_cons]
      omega
    · rw [(primaries_of_primary h0 h5).1, (primaries_of_primary h0 h5).2, List.length_cons, List.length_cons]
      omega

/-- A disk is recorded when there is no base left over that its extended partition would be looked for from. -/
theorem Tables.returns {ls : List Extent} {n : Nat} (hd fuel : Nat) (s : Ide) (h : Tables disk ls n) (hno : ∀ k, s.no k = 0)
    (hfew : (primaries (mbr disk)).length ≤ 3) (hbase : extendeds (mbr disk) = [] ∨ s.extLbaBase = 0) (hfuel : n < fuel) :
    ∃ t, Returns (partitionScan hd disk fuel 0) s () t ∧ s.Adds hd (byKind (primaries (mbr disk)) ls) t ∧
      t.extLbaBase = (extendeds (mbr disk)).headD s.extLbaBase := by
  obtain ⟨fuel, rfl⟩ : ∃ f, fuel = f + 1 := ⟨fuel - 1, by omega⟩
  have hprim := hno .prim
  obtain ⟨t, ht, h⟩ := returns_table (s := s) hd fuel disk (mbr disk) ls mbr_startLba (by omega) (by
      cases h with
      | primaryOnly hnone => exact Or.inl ⟨hnone, rfl⟩
      | withExtended hone hpos hchain hls =>
        rcases hbase with hnil | hzero
        · rw [hone] at hnil
          cases hnil
        · exact Or.inr ⟨_, _, hone, hpos, hzero, hno .logic, hchain, hls, by omega⟩)
  exact ⟨t, returns_partitionScan.mpr ⟨Nat.zero_le _, ht⟩, h⟩

/-- A disk whose scan ends has at most three primary partitions. -/
theorem Tables.primaries_le {ls : List Extent} {n : Nat} (h : Tables disk ls n) (hno : ∀ k, s.no k = 0)
    (hret : Returns (partitionScan hd disk fuel 0) s () t) : (primaries (mbr disk)).length ≤ 3 := by
  have hfour := primaries_add_extendeds (mbr disk)
  rw [show (mbr disk).length = 4 from rfl] at hfour
  cases fuel with
  | zero => exact absurd hret (returns_stop _)
  | succ fuel =>
    obtain ⟨-, hret⟩ := returns_partitionScan.mp hret
    cases h with
    | primaryOnly hnone =>
      rcases ZxyOs.primaries_le hnone hret with hnil | hle
      · rw [hnil]
        exact Nat.zero_le _
      · rwa [hno, Nat.zero_add] at hle
    | withExtended hone =>
      rw [hone, List.length_singleton] at hfour
      omega

end Table

end ZxyOs
