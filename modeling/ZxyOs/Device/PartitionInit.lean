/-
  ZxyOs.Device.PartitionInit

  What `ide_init` has recorded when it is done (`device/ide.c`).

  A disk is recorded exactly when its scan begins with the counters at zero and without a
  base to count from (`Tables.returns`).  The counters are always reset; the base is not, and
  so what the second disk that is scanned has recorded depends on the first (`discovery_iff`).
-/

import ZxyOs.Device.PartitionScan

namespace ZxyOs

open Lib Lib.Exec

/-! ## From what is added to what is recorded -/

namespace Ide.Adds

variable {hd h : Nat} {ps qs : PartKind → List Extent} {s t : Ide}

theorem mem_list (hadds : s.Adds hd ps t) {tag : PartTag} (hmem : tag ∈ t.partitionList) :
    tag ∈ s.partitionList ∨ tag.hd = hd := by
  obtain ⟨new, hlist, -, hnew⟩ := hadds.listed
  rw [hlist, List.mem_append] at hmem
  rcases hmem with hmem | hmem
  · exact Or.inl hmem
  · exact Or.inr ((hnew tag).mp hmem).1

theorem nodup (hadds : s.Adds hd ps t) (hnone : ∀ tag ∈ s.partitionList, tag.hd ≠ hd)
    (hs : s.partitionList.Nodup) : t.partitionList.Nodup := by
  obtain ⟨new, hlist, hnodup, hnew⟩ := hadds.listed
  rw [hlist, List.nodup_append]
  refine ⟨hs, hnodup, fun a ha b hb hab => ?_⟩
  apply hnone a ha
  rw [hab]
  exact ((hnew b).mp hb).1

/-- What is added to a disk of which nothing was recorded is all that is recorded of it. -/
theorem records (hadds : s.Adds hd ps t) (hno : ∀ k, s.no k = 0) (hparts : ∀ k i, s.parts k hd i = .zero)
    (hnone : ∀ tag ∈ s.partitionList, tag.hd ≠ hd) : t.Records hd ps where
  held k i x hx := by
    have hheld := hadds.held k i x hx
    rwa [hno, Nat.zero_add] at hheld
  empty k i hi := by
    have hk := hadds.no k
    rw [hno, Nat.zero_add] at hk
    rw [hadds.others k hd i (Or.inr (Or.inr (by omega))), hparts]
  listed k i := by
    obtain ⟨new, hlist, -, hnew⟩ := hadds.listed
    have hk := hadds.no k
    rw [hno, Nat.zero_add] at hk
    rw [hlist, List.mem_append, hnew]
    constructor
    · rintro (hmem | ⟨-, -, hlt⟩)
      · exact absurd rfl (hnone _ hmem)
      · exact hk ▸ hlt
    · intro hi
      refine Or.inr ⟨rfl, ?_, ?_⟩
      · rw [hno]
        exact Nat.zero_le _
      · rw [hk]
        exact hi

/-- What was recorded of another disk stays as it is. -/
theorem keepsRecords (hadds : s.Adds hd ps t) (hne : h ≠ hd) (hs : s.Records h qs) : t.Records h qs where
  held k i x hx := by
    rw [hadds.others k h i (Or.inl hne)]
    exact hs.held k i x hx
  empty k i hi := by
    rw [hadds.others k h i (Or.inl hne)]
    exact hs.empty k i hi
  listed k i := by
    rw [← hs.listed k i]
    obtain ⟨new, hlist, -, hnew⟩ := hadds.listed
    rw [hlist, List.mem_append, hnew]
    constructor
    · rintro (hmem | ⟨heq, -⟩)
      · exact hmem
      · exact absurd heq hne
    · exact Or.inl

end Ide.Adds

theorem Ide.Records.resetCounters {hd : Nat} {ps : PartKind → List Extent} {s : Ide} (h : s.Records hd ps) :
    s.resetCounters.Records hd ps :=
  ⟨h.held, h.empty, h.listed⟩

/-! ## The channels -/

namespace Machine

variable {m : Machine} {fuel ch : Nat} {s t : Ide}

theorem returns_identifyDisk {hd : Nat} {d : Bytes} :
    Returns (m.identifyDisk hd) s d t ↔ m.drive hd = some d ∧ s = t := by
  simp only [identifyDisk]
  cases m.drive hd with
  | none => simp
  | some disk => simp

theorem returns_device_zero :
    Returns (m.initDevice fuel ch 0) s () t ↔ (∃ d, m.drive (ch * 2) = some d) ∧ s.resetCounters = t := by
  simp only [initDevice, returns_bind, returns_identifyDisk, Nat.add_zero, ne_eq, not_true_eq_false, if_false,
    returns_update]
  constructor
  · rintro ⟨d, u, ⟨hd, rfl⟩, rfl⟩
    exact ⟨⟨d, hd⟩, rfl⟩
  · rintro ⟨⟨d, hd⟩, rfl⟩
    exact ⟨d, s, ⟨hd, rfl⟩, rfl⟩

theorem returns_device_one :
    Returns (m.initDevice fuel ch 1) s () t ↔ ∃ d u, m.drive (ch * 2 + 1) = some d ∧
      Returns (partitionScan (ch * 2 + 1) d fuel 0) s () u ∧ u.resetCounters = t := by
  simp only [initDevice, returns_bind, returns_identifyDisk, ne_eq, one_ne_zero, not_false_eq_true, if_true,
    returns_update]
  constructor
  · rintro ⟨d, u, ⟨hd, rfl⟩, _, v, hv, rfl⟩
    exact ⟨d, v, hd, hv, rfl⟩
  · rintro ⟨d, u, hd, hu, rfl⟩
    exact ⟨d, s, ⟨hd, rfl⟩, (), u, hu, rfl⟩

/-- A channel has both its drives, and the second is scanned with the counters at zero. -/
theorem returns_channel {n : Nat} :
    Returns (m.initChannels fuel (n + 1) ch) s () t ↔ (∃ d, m.drive (ch * 2) = some d) ∧
      ∃ d u, m.drive (ch * 2 + 1) = some d ∧ Returns (partitionScan (ch * 2 + 1) d fuel 0) s.resetCounters () u ∧
        Returns (m.initChannels fuel n (ch + 1)) u.resetCounters () t := by
  simp only [initChannels, returns_bind]
  constructor
  · rintro ⟨_, v, hzero, _, w, hone, h⟩
    obtain ⟨hfirst, rfl⟩ := returns_device_zero.mp hzero
    obtain ⟨d, u, hd, hu, rfl⟩ := returns_device_one.mp hone
    exact ⟨hfirst, d, u, hd, hu, h⟩
  · rintro ⟨hfirst, d, u, hd, hu, h⟩
    exact ⟨(), _, returns_device_zero.mpr ⟨hfirst, rfl⟩, (), _, returns_device_one.mpr ⟨d, u, hd, hu, rfl⟩, h⟩

theorem returns_ideInit :
    Returns (m.ideInit fuel) .boot () t ↔ 0 < m.hdCnt ∧ Returns (m.initChannels fuel m.channelCnt 0) .boot () t := by
  simp only [ideInit, returns_bind, returns_assert, returns_update]
  constructor
  · rintro ⟨_, u, ⟨hpos, rfl⟩, _, v, rfl, h⟩
    exact ⟨hpos, h⟩
  · rintro ⟨hpos, h⟩
    exact ⟨(), _, ⟨hpos, rfl⟩, (), _, rfl, h⟩

theorem hdCnt_le (m : Machine) : m.hdCnt ≤ 4 := List.length_filter_le _ _

/-- One or two channels are in use. -/
theorem channelCnt_cases (hpos : 0 < m.hdCnt) : m.channelCnt = 1 ∨ m.channelCnt = 2 := by
  have hle := m.hdCnt_le
  simp only [channelCnt]
  omega

/-- There are disks, and none of the drives that are asked is missing. -/
def Full (m : Machine) : Prop := 0 < m.hdCnt ∧ ∀ hd < 2 * m.channelCnt, ∃ d, m.drive hd = some d

/-- No disk that is scanned has four primary partitions. -/
def Few (m : Machine) : Prop := ∀ hd d, m.Scanned hd d → (primaries (mbr d)).length ≤ 3

/-- The same machine with another disk in place of drive `hd`. -/
def setDrive (m : Machine) (hd : Fin 4) (d : Bytes) : Machine where
  drive := Function.update m.drive hd (some d)
  atMostFour i hi := by
    rw [Function.update_of_ne (by omega)]
    exact m.atMostFour i hi

/-- Whatever well-formed disk the first one scanned is replaced by, the partitions are recorded. -/
def Independent (m : Machine) : Prop :=
  ∀ d₁ d ls n, m.Scanned 1 d₁ → Tables d ls n → (primaries (mbr d)).length ≤ 3 → (m.setDrive 1 d).RecordsExactly

theorem Full.scanned (h : m.Full) (hd : Nat) (hlt : hd < 2 * m.channelCnt) (hodd : hd % 2 = 1) :
    ∃ d, m.Scanned hd d := by
  obtain ⟨d, hd⟩ := h.2 hd hlt
  exact ⟨d, hlt, hodd, hd⟩

/-- A disk is scanned only once. -/
theorem Scanned.unique {hd : Nat} {d d' : Bytes} (h : m.Scanned hd d) (h' : m.Scanned hd d') : d = d' :=
  Option.some.inj (h.2.2.symm.trans h'.2.2)

theorem recordsExactly_of_one (hm : m.WellFormed) (hfull : m.Full) (hfew : m.Few) (hcnt : m.channelCnt = 1) :
    m.RecordsExactly := by
  obtain ⟨d₁, h₁⟩ := hfull.scanned 1 (by omega) rfl
  obtain ⟨ls, n, htab⟩ := hm 1 d₁ h₁
  refine ⟨n + 1, fun fuel hfuel => ?_⟩
  obtain ⟨u, hu, hadds, -⟩ := htab.returns 1 fuel Ide.boot (fun _ => rfl) (hfew 1 d₁ h₁) (Or.inr rfl) (by omega)
  have hempty : ∀ tag ∈ Ide.boot.partitionList, tag.hd ≠ 1 := nofun
  refine ⟨u.resetCounters, returns_ideInit.mpr ⟨hfull.1, ?_⟩, hadds.nodup hempty List.nodup_nil, ?_, ?_⟩
  · rw [hcnt]
    exact returns_channel.mpr ⟨hfull.2 0 (by omega), d₁, u, h₁.2.2, hu, returns_pure.mpr ⟨rfl, rfl⟩⟩
  · intro tag htag
    rcases hadds.mem_list htag with hmem | heq
    · cases hmem
    · exact ⟨d₁, heq ▸ h₁⟩
  · intro hd d hs
    obtain rfl : hd = 1 := by
      obtain ⟨hlt, hodd, -⟩ := hs
      omega
    obtain rfl := hs.unique h₁
    exact ⟨ls, n, htab, (hadds.records (fun _ => rfl) (fun _ _ => rfl) hempty).resetCounters⟩

theorem recordsExactly_of_two (hm : m.WellFormed) (hfull : m.Full) (hfew : m.Few) (hcnt : m.channelCnt = 2)
    (hbase : ∀ d₁ d₃, m.Scanned 1 d₁ → m.Scanned 3 d₃ → extendeds (mbr d₁) = [] ∨ extendeds (mbr d₃) = []) :
    m.RecordsExactly := by
  obtain ⟨d₁, h₁⟩ := hfull.scanned 1 (by omega) rfl
  obtain ⟨d₃, h₃⟩ := hfull.scanned 3 (by omega) rfl
  obtain ⟨ls₁, n₁, htab₁⟩ := hm 1 d₁ h₁
  obtain ⟨ls₃, n₃, htab₃⟩ := hm 3 d₃ h₃
  refine ⟨n₁ + n₃ + 1, fun fuel hfuel => ?_⟩
  obtain ⟨u, hu, hadds, hub⟩ :=
    htab₁.returns 1 fuel Ide.boot (fun _ => rfl) (hfew 1 d₁ h₁) (Or.inr rfl) (by omega)
  -- no base is left over where the second disk needs one of its own
  have hleft : extendeds (mbr d₃) = [] ∨ u.resetCounters.extLbaBase = 0 := by
    rcases hbase d₁ d₃ h₁ h₃ with hnil | hnil
    · rw [hnil] at hub
      exact Or.inr hub
    · exact Or.inl hnil
  obtain ⟨v, hv, hadds', -⟩ :=
    htab₃.returns 3 fuel u.resetCounters (fun _ => rfl) (hfew 3 d₃ h₃) hleft (by omega)
  have hempty : ∀ tag ∈ Ide.boot.partitionList, tag.hd ≠ 1 := nofun
  have hfirst : ∀ tag ∈ u.resetCounters.partitionList, tag.hd = 1 := by
    intro tag htag
    rcases hadds.mem_list htag with hmem | heq
    · cases hmem
    · exact heq
  have hnone : ∀ tag ∈ u.resetCounters.partitionList, tag.hd ≠ 3 := by
    intro tag htag
    rw [hfirst tag htag]
    decide
  have hzero : ∀ k i, u.resetCounters.parts k 3 i = .zero :=
    fun k i => hadds.others k 3 i (Or.inl (by decide))
  have hnodup : u.resetCounters.partitionList.Nodup := hadds.nodup hempty List.nodup_nil
  refine ⟨v.resetCounters, returns_ideInit.mpr ⟨hfull.1, ?_⟩, hadds'.nodup hnone hnodup, ?_, ?_⟩
  · rw [hcnt]
    exact returns_channel.mpr ⟨hfull.2 0 (by omega), d₁, u, h₁.2.2, hu,
      returns_channel.mpr ⟨hfull.2 2 (by omega), d₃, v, h₃.2.2, hv, returns_pure.mpr ⟨rfl, rfl⟩⟩⟩
  · intro tag htag
    rcases hadds'.mem_list htag with hmem | heq
    · exact ⟨d₁, hfirst tag hmem ▸ h₁⟩
    · exact ⟨d₃, heq ▸ h₃⟩
  · intro hd d hs
    have hrec₁ := (hadds.records (fun _ => rfl) (fun _ _ => rfl) hempty).resetCounters
    have hrec₃ := (hadds'.records (fun _ => rfl) hzero hnone).resetCounters
    obtain rfl | rfl : hd = 1 ∨ hd = 3 := by
      obtain ⟨hlt, hodd, -⟩ := hs
      omega
    · obtain rfl := hs.unique h₁
      exact ⟨ls₁, n₁, htab₁, (hadds'.keepsRecords (by decide) hrec₁).resetCounters⟩
    · obtain rfl := hs.unique h₃
      exact ⟨ls₃, n₃, htab₃, hrec₃⟩

theorem recordsExactly_of (hm : m.WellFormed) (hfull : m.Full) (hfew : m.Few)
    (hbase : ∀ d₁ d₃, m.Scanned 1 d₁ → m.Scanned 3 d₃ → extendeds (mbr d₁) = [] ∨ extendeds (mbr d₃) = []) :
    m.RecordsExactly := by
  rcases channelCnt_cases hfull.1 with hcnt | hcnt
  · exact recordsExactly_of_one hm hfull hfew hcnt
  · exact recordsExactly_of_two hm hfull hfew hcnt hbase

/-- What it takes for `ide_init` to return. -/
theorem full_and_few (hm : m.WellFormed) (h : Returns (m.ideInit fuel) .boot () t) : m.Full ∧ m.Few := by
  obtain ⟨hpos, h⟩ := returns_ideInit.mp h
  rcases channelCnt_cases hpos with hcnt | hcnt
  · rw [hcnt] at h
    obtain ⟨⟨d₀, h₀⟩, d₁, u, h₁, hu, -⟩ := returns_channel.mp h
    refine ⟨⟨hpos, fun hd hlt => ?_⟩, fun hd d hs => ?_⟩
    · obtain rfl | rfl : hd = 0 ∨ hd = 1 := by omega
      · exact ⟨d₀, h₀⟩
      · exact ⟨d₁, h₁⟩
    · obtain ⟨ls, n, htab⟩ := hm hd d hs
      obtain ⟨hlt, hodd, hdrive⟩ := hs
      obtain rfl : hd = 1 := by omega
      obtain rfl := Option.some.inj (h₁.symm.trans hdrive)
      exact htab.primaries_le (fun _ => rfl) hu
  · rw [hcnt] at h
    obtain ⟨⟨d₀, h₀⟩, d₁, u, h₁, hu, h⟩ := returns_channel.mp h
    obtain ⟨⟨d₂, h₂⟩, d₃, v, h₃, hv, -⟩ := returns_channel.mp h
    refine ⟨⟨hpos, fun hd hlt => ?_⟩, fun hd d hs => ?_⟩
    · obtain rfl | rfl | rfl | rfl : hd = 0 ∨ hd = 1 ∨ hd = 2 ∨ hd = 3 := by omega
      · exact ⟨d₀, h₀⟩
      · exact ⟨d₁, h₁⟩
      · exact ⟨d₂, h₂⟩
      · exact ⟨d₃, h₃⟩
    · obtain ⟨ls, n, htab⟩ := hm hd d hs
      obtain ⟨hlt, hodd, hdrive⟩ := hs
      obtain rfl | rfl : hd = 1 ∨ hd = 3 := by omega
      · obtain rfl := Option.some.inj (h₁.symm.trans hdrive)
        exact htab.primaries_le (fun _ => rfl) hu
      · obtain rfl := Option.some.inj (h₃.symm.trans hdrive)
        exact htab.primaries_le (fun _ => rfl) hv

theorem RecordsExactly.full_and_few (hm : m.WellFormed) (h : m.RecordsExactly) : m.Full ∧ m.Few := by
  obtain ⟨depth, h⟩ := h
  obtain ⟨s, hs, -⟩ := h depth (Nat.le_refl _)
  exact Machine.full_and_few hm hs

/-! ## Another disk in the first place -/

section SetDrive

variable {d d₁ d₃ : Bytes}

theorem setDrive_self (hd : Fin 4) : (m.setDrive hd d).drive hd = some d := Function.update_self ..

theorem setDrive_of_ne {hd : Fin 4} {i : Nat} (h : i ≠ hd) : (m.setDrive hd d).drive i = m.drive i :=
  Function.update_of_ne h ..

theorem hdCnt_setDrive (hd : Fin 4) (h : m.drive hd = some d₁) : (m.setDrive hd d).hdCnt = m.hdCnt := by
  have hsome : ∀ i, ((m.setDrive hd d).drive i).isSome = (m.drive i).isSome := by
    intro i
    by_cases hi : i = hd
    · rw [hi, h, setDrive_self]
      rfl
    · rw [setDrive_of_ne hi]
  simp only [hdCnt, hsome]

theorem channelCnt_setDrive (hd : Fin 4) (h : m.drive hd = some d₁) :
    (m.setDrive hd d).channelCnt = m.channelCnt := by
  rw [channelCnt, hdCnt_setDrive hd h, channelCnt]

theorem scanned_setDrive (h₁ : m.Scanned 1 d₁) {hd : Nat} {d' : Bytes} :
    (m.setDrive 1 d).Scanned hd d' ↔ hd = 1 ∧ d' = d ∨ hd ≠ 1 ∧ m.Scanned hd d' := by
  have hcnt : (m.setDrive 1 d).channelCnt = m.channelCnt := channelCnt_setDrive 1 h₁.2.2
  have hpos := h₁.1
  by_cases hhd : hd = 1
  · have hself : (m.setDrive 1 d).drive 1 = some d := setDrive_self 1
    subst hhd
    simp only [Scanned, hcnt, hself, hpos, Option.some.injEq, true_and, ne_eq, not_true_eq_false, false_and, or_false]
    exact eq_comm
  · have hne : (m.setDrive 1 d).drive hd = m.drive hd := setDrive_of_ne hhd
    simp only [Scanned, hcnt, hne, hhd, false_and, false_or, ne_eq, not_false_eq_true, true_and]

theorem Full.setDrive (h : m.Full) (h₁ : m.Scanned 1 d₁) : (m.setDrive 1 d).Full := by
  obtain ⟨hpos, hall⟩ := h
  refine ⟨by rw [hdCnt_setDrive 1 h₁.2.2]; exact hpos, fun hd hlt => ?_⟩
  rw [channelCnt_setDrive 1 h₁.2.2] at hlt
  by_cases hhd : hd = 1
  · rw [hhd]
    exact ⟨d, setDrive_self 1⟩
  · obtain ⟨d', hd'⟩ := hall hd hlt
    exact ⟨d', (setDrive_of_ne hhd).trans hd'⟩

/-- A disk with nothing on it but an empty extended partition, which is its last sector. -/
def strayDisk : Bytes := fun a =>
  if a = 450 then 5 else if 454 ≤ a ∧ a < 458 then Bytes.wordByte maxLba (a - 454) else 0

theorem strayDisk_mbr : extendeds (mbr strayDisk) = [maxLba] := by decide +kernel

theorem strayDisk_tables : Tables strayDisk [] 1 :=
  .withExtended strayDisk_mbr (by decide)
    (.last ⟨Nat.le_refl _, Or.inl ⟨by decide +kernel, rfl⟩, Or.inl ⟨by decide +kernel, rfl⟩,
      by decide +kernel, by decide +kernel⟩) (by decide)

theorem strayDisk_few : (primaries (mbr strayDisk)).length ≤ 3 := by decide +kernel

/-- After such a disk an extended partition is not found: it is looked for beyond the end of its disk. -/
theorem not_recordsExactly_of_stray (h₁ : m.Scanned 1 strayDisk) (h₃ : m.Scanned 3 d₃) {ls : List Extent} {n : Nat}
    (htab : Tables d₃ ls n) (hext : extendeds (mbr d₃) ≠ []) : ¬ m.RecordsExactly := by
  rintro ⟨depth, h⟩
  obtain ⟨s, hs, -⟩ := h (depth + 2) (by omega)
  obtain ⟨-, hs⟩ := returns_ideInit.mp hs
  obtain ⟨k, hk⟩ : ∃ k, m.channelCnt = k + 2 := ⟨m.channelCnt - 2, by have := h₃.1; omega⟩
  rw [hk] at hs
  obtain ⟨-, d₁, u, hd₁, hu, hs⟩ := returns_channel.mp hs
  obtain ⟨-, d, v, hd, hv, -⟩ := returns_channel.mp hs
  obtain rfl := Option.some.inj (hd₁.symm.trans h₁.2.2)
  obtain rfl := Option.some.inj (hd.symm.trans h₃.2.2)
  -- the first scan leaves its base
  obtain ⟨u', hu', -, hbase⟩ := strayDisk_tables.returns 1 (depth + 2) Ide.boot.resetCounters (fun _ => rfl)
    strayDisk_few (Or.inr rfl) (by omega)
  obtain ⟨-, rfl⟩ := hu.unique hu'
  rw [strayDisk_mbr] at hbase
  have hbase : u.resetCounters.resetCounters.extLbaBase = maxLba := hbase
  cases htab with
  | primaryOnly hnone => exact hext hnone
  | @withExtended base n ls hone hpos hchain hfew =>
    obtain ⟨-, hv⟩ := returns_partitionScan.mp hv
    have hle := extended_on_disk (by rw [hbase]; decide) hone hv
    have hmax := hchain.le_maxLba
    rw [hbase, Nat.mod_eq_of_lt (by simp only [maxLba] at hmax ⊢; omega)] at hle
    omega

end SetDrive

/-! ## Two machines -/

/-- The machine with these disks. -/
def ofDisks (d₀ d₁ d₂ d₃ : Option Bytes) : Machine where
  drive
    | 0 => d₀
    | 1 => d₁
    | 2 => d₂
    | 3 => d₃
    | _ => none
  atMostFour
    | _ + 4, _ => rfl

/-- A disk with a primary partition and an extended partition with a logical one. -/
def sampleDisk : Bytes := fun a =>
  match a with
  | 450 => 0x83
  | 454 => 63
  | 458 => 100
  | 466 => 5
  | 470 => 200
  | 474 => 120
  | 102850 => 0x66
  | 102854 => 1
  | 102858 => 50
  | _ => 0

theorem sampleDisk_tables : Tables sampleDisk [⟨201, 50⟩] 1 :=
  .withExtended (show extendeds (mbr sampleDisk) = [200] by decide +kernel) (by decide)
    (.last ⟨by decide, Or.inr ⟨by decide +kernel, by decide +kernel, by decide +kernel, rfl⟩,
      Or.inl ⟨by decide +kernel, rfl⟩, by decide +kernel, by decide +kernel⟩) (by decide)

/-- The machine the kernel is developed on: the disk it starts from and one with partitions. -/
def twoDisks : Machine := ofDisks (some .zero) (some sampleDisk) none none

theorem twoDisks_scanned {hd : Nat} {d : Bytes} (h : twoDisks.Scanned hd d) : hd = 1 ∧ sampleDisk = d := by
  obtain ⟨hlt, hodd, hdrive⟩ := h
  have hcnt : twoDisks.channelCnt = 1 := rfl
  obtain rfl : hd = 1 := by omega
  exact ⟨rfl, Option.some.inj hdrive⟩

/-- The same with two more disks, both with an extended partition behind the first. -/
def fourDisks : Machine := ofDisks (some .zero) (some strayDisk) (some .zero) (some sampleDisk)

theorem fourDisks_wellFormed : fourDisks.WellFormed := by
  rintro hd d ⟨hlt, hodd, hdrive⟩
  have hcnt : fourDisks.channelCnt = 2 := rfl
  obtain rfl | rfl : hd = 1 ∨ hd = 3 := by omega
  · obtain rfl := Option.some.inj hdrive
    exact ⟨_, _, strayDisk_tables⟩
  · obtain rfl := Option.some.inj hdrive
    exact ⟨_, _, sampleDisk_tables⟩

end Machine

/-- Where no two disks that are scanned have extended partitions, the partitions are recorded exactly when no drive is
    missing and no disk has four primary partitions.  They are recorded whatever is on the first disk exactly when
    besides the second disk has no extended partition. -/
theorem discovery_iff (m : Machine) (hm : m.WellFormed) :
    ((∀ d₁ d₃, m.Scanned 1 d₁ → m.Scanned 3 d₃ → extendeds (mbr d₁) = [] ∨ extendeds (mbr d₃) = []) →
      (m.RecordsExactly ↔ m.Full ∧ m.Few)) ∧
    (m.RecordsExactly ∧ m.Independent ↔
      m.Full ∧ m.Few ∧ ∀ d₃, m.Scanned 3 d₃ → extendeds (mbr d₃) = []) := by
  refine ⟨fun hbase => ?_, ?_⟩
  · constructor
    · exact fun h => h.full_and_few hm
    · exact fun h => Machine.recordsExactly_of hm h.1 h.2 hbase
  constructor
  · rintro ⟨hrec, hind⟩
    obtain ⟨hfull, hfew⟩ := hrec.full_and_few hm
    refine ⟨hfull, hfew, fun d₃ h₃ => ?_⟩
    by_contra hext
    obtain ⟨d₁, h₁⟩ := hfull.scanned 1 (by have := h₃.1; omega) rfl
    obtain ⟨ls, n, htab⟩ := hm 3 d₃ h₃
    refine Machine.not_recordsExactly_of_stray ?_ ?_ htab hext
      (hind d₁ Machine.strayDisk [] 1 h₁ Machine.strayDisk_tables Machine.strayDisk_few)
    · exact (Machine.scanned_setDrive h₁).mpr (Or.inl ⟨rfl, rfl⟩)
    · exact (Machine.scanned_setDrive h₁).mpr (Or.inr ⟨by decide, h₃⟩)
  · rintro ⟨hfull, hfew, hnone⟩
    refine ⟨Machine.recordsExactly_of hm hfull hfew fun _ d₃ _ h₃ => Or.inr (hnone d₃ h₃), ?_⟩
    intro d₁ d ls n h₁ htab hd
    apply Machine.recordsExactly_of
    · intro hd' d' hs
      rcases (Machine.scanned_setDrive h₁).mp hs with ⟨-, rfl⟩ | ⟨-, hs⟩
      · exact ⟨ls, n, htab⟩
      · exact hm hd' d' hs
    · exact hfull.setDrive h₁
    · intro hd' d' hs
      rcases (Machine.scanned_setDrive h₁).mp hs with ⟨-, rfl⟩ | ⟨-, hs⟩
      · exact hd
      · exact hfew hd' d' hs
    · intro _ d₃ _ h₃
      rcases (Machine.scanned_setDrive h₁).mp h₃ with ⟨habs, -⟩ | ⟨-, hs⟩
      · cases habs
      · exact Or.inr (hnone d₃ hs)

theorem discovery_two : Machine.twoDisks.RecordsExactly ∧ Machine.twoDisks.Independent := by
  refine (discovery_iff Machine.twoDisks ?_).2.mpr ⟨⟨by decide, ?_⟩, ?_, ?_⟩
  · intro hd d h
    obtain ⟨-, rfl⟩ := Machine.twoDisks_scanned h
    exact ⟨_, _, Machine.sampleDisk_tables⟩
  · intro hd hlt
    have hcnt : Machine.twoDisks.channelCnt = 1 := rfl
    obtain rfl | rfl : hd = 0 ∨ hd = 1 := by omega
    · exact ⟨_, rfl⟩
    · exact ⟨_, rfl⟩
  · intro hd d h
    obtain ⟨-, rfl⟩ := Machine.twoDisks_scanned h
    decide +kernel
  · intro d₃ h
    obtain ⟨habs, -⟩ := Machine.twoDisks_scanned h
    cases habs

/-- The extended partition of the second disk is looked for at the sum of the two addresses. -/
theorem discovery_lost : Machine.fourDisks.WellFormed ∧ ¬ Machine.fourDisks.RecordsExactly := by
  refine ⟨Machine.fourDisks_wellFormed, ?_⟩
  apply Machine.not_recordsExactly_of_stray ⟨by decide, rfl, rfl⟩ ⟨by decide, rfl, rfl⟩
    Machine.sampleDisk_tables
  decide +kernel

end ZxyOs
