/-
  ZxyOs.Device.ScanSafety

  On which disks a scan of the partition tables is safe.

  `partition_scan` follows whatever addresses it reads.  `Walks` says what a disk has to hold
  for the way through its tables to come to an end: every table on the way is on the disk, no
  table leads back to itself for ever, and the partitions on the way have their places in the
  two arrays.  It speaks of the disk and of the three numbers the scan carries along
  (`Marks`), not of the arrays or the list.  `Walks.returns` and `walks_of_returns` connect it
  with the function.
-/

import ZxyOs.Device.PartitionInit

namespace ZxyOs

open Lib Lib.Exec

/-! ## The way through the tables -/

/-- The base of the links, and how many partitions of each kind were met. -/
structure Marks where
  base : Nat
  prim : Nat
  logic : Nat

/-- Where an extended partition is.  The first one met becomes the base, all later ones count
    from it. -/
def Marks.follow (σ : Marks) (startLba : Nat) : Marks × Nat :=
  if σ.base ≠ 0 then (σ, (startLba + σ.base) % 2 ^ 32) else ({ σ with base := startLba }, startLba)

/-- The way through the entries of the table at `lba`, and through all tables they lead to.  What
    stands behind the eighth logical partition in its own table is not on the way. -/
inductive Walks (disk : Bytes) : Nat → List PartitionTableEntry → Marks → Marks → Prop
  | done {lba : Nat} {σ : Marks} : Walks disk lba [] σ σ
  | empty {lba : Nat} {p : PartitionTableEntry} {ps : List PartitionTableEntry} {σ τ : Marks}
      (h0 : p.fsType = 0) (rest : Walks disk lba ps σ τ) : Walks disk lba (p :: ps) σ τ
  | extended {lba : Nat} {p : PartitionTableEntry} {ps : List PartitionTableEntry} {σ υ τ : Marks}
      (h5 : p.fsType = 5) (onDisk : (σ.follow p.startLba).2 ≤ maxLba)
      (table : Walks disk (σ.follow p.startLba).2
        (partitionTable (bootSector disk (σ.follow p.startLba).2)) (σ.follow p.startLba).1 υ)
      (rest : Walks disk lba ps υ τ) : Walks disk lba (p :: ps) σ τ
  | primary {p : PartitionTableEntry} {ps : List PartitionTableEntry} {σ τ : Marks}
      (h0 : p.fsType ≠ 0) (h5 : p.fsType ≠ 5) (few : σ.prim < 3)
      (rest : Walks disk 0 ps { σ with prim := σ.prim + 1 } τ) : Walks disk 0 (p :: ps) σ τ
  | logical {lba : Nat} {p : PartitionTableEntry} {ps : List PartitionTableEntry} {σ τ : Marks}
      (hlba : lba ≠ 0) (h0 : p.fsType ≠ 0) (h5 : p.fsType ≠ 5) (few : σ.logic < 7)
      (rest : Walks disk lba ps { σ with logic := σ.logic + 1 } τ) : Walks disk lba (p :: ps) σ τ
  | eighth {lba : Nat} {p : PartitionTableEntry} {ps : List PartitionTableEntry} {σ : Marks}
      (hlba : lba ≠ 0) (h0 : p.fsType ≠ 0) (h5 : p.fsType ≠ 5) (seven : σ.logic = 7) :
      Walks disk lba (p :: ps) σ { σ with logic := 8 }

/-- The way from the first sector of a disk comes to an end. -/
def Walkable (disk : Bytes) (base : Nat) : Prop := ∃ τ, Walks disk 0 (mbr disk) ⟨base, 0, 0⟩ τ

/-- The scan of a disk ends, having put partitions of this disk in their places of the two arrays
    and each of them once in the list. -/
def ScanSafe (hd : Nat) (disk : Bytes) (s : Ide) : Prop :=
  ∃ depth, ∀ fuel ≥ depth, ∃ t ps, Returns (partitionScan hd disk fuel 0) s () t ∧
    s.Adds hd ps t ∧ ∀ k, (ps k).length ≤ k.size

/-! ## The scan along the way -/

def Ide.marks (s : Ide) : Marks := ⟨s.extLbaBase, s.no .prim, s.no .logic⟩

section Walk

variable {hd lba fuel : Nat} {disk : Bytes} {es : List PartitionTableEntry} {σ τ : Marks} {s t : Ide}

theorem enter_marks {startLba : Nat} :
    (s.enter startLba).1.marks = (s.marks.follow startLba).1 ∧
      (s.enter startLba).2 = (s.marks.follow startLba).2 := by
  unfold Ide.enter Marks.follow
  by_cases h : s.extLbaBase ≠ 0
  · have h' : s.marks.base ≠ 0 := h
    rw [if_pos h, if_pos h']
    exact ⟨rfl, rfl⟩
  · have h' : ¬ s.marks.base ≠ 0 := h
    rw [if_neg h, if_neg h']
    exact ⟨rfl, rfl⟩

theorem marks_record_prim {startLba secCnt : Nat} :
    (s.record .prim hd startLba secCnt).marks = { s.marks with prim := s.marks.prim + 1 } := rfl

theorem marks_record_logic {startLba secCnt : Nat} :
    (s.record .logic hd startLba secCnt).marks = { s.marks with logic := s.marks.logic + 1 } := rfl

/-- The partitions on the way fit the arrays. -/
theorem Walks.bounds (h : Walks disk lba es σ τ) :
    (σ.prim ≤ 3 → τ.prim ≤ 3) ∧ (σ.logic ≤ 8 → τ.logic ≤ 8) := by
  induction h with
  | done => exact ⟨id, id⟩
  | empty h0 rest ih => exact ih
  | @extended lba p ps σ υ τ h5 onDisk table rest ihTable ihRest =>
    have hfollow : (σ.follow p.startLba).1.prim = σ.prim ∧ (σ.follow p.startLba).1.logic = σ.logic := by
      unfold Marks.follow
      split <;> exact ⟨rfl, rfl⟩
    rw [hfollow.1, hfollow.2] at ihTable
    exact ⟨fun hp => ihRest.1 (ihTable.1 hp), fun hl => ihRest.2 (ihTable.2 hl)⟩
  | primary h0 h5 few rest ih => exact ⟨fun _ => ih.1 (by simp only; omega), ih.2⟩
  | logical hlba h0 h5 few rest ih => exact ⟨ih.1, fun _ => ih.2 (by simp only; omega)⟩
  | eighth hlba h0 h5 seven => exact ⟨id, fun _ => Nat.le_refl _⟩

/-- On a disk with a way through its tables the scan takes it. -/
theorem Walks.returns (h : Walks disk lba es σ τ) (hd : Nat) :
    ∃ depth, ∀ fuel ≥ depth, ∀ s : Ide, s.marks = σ →
      ∃ t ps, Returns (scanEntries (partitionScan hd disk fuel) hd lba es) s () t ∧ t.marks = τ ∧
        s.Adds hd ps t := by
  induction h with
  | done => exact ⟨0, fun fuel _ s hs => ⟨s, _, returns_pure.mpr ⟨rfl, rfl⟩, hs, Ide.Adds.none hd s⟩⟩
  | empty h0 rest ih =>
    obtain ⟨depth, ih⟩ := ih
    refine ⟨depth, fun fuel hfuel s hs => ?_⟩
    obtain ⟨t, ps, hret, ht, hadds⟩ := ih fuel hfuel s hs
    exact ⟨t, ps, (returns_empty h0).mpr hret, ht, hadds⟩
  | @extended lba p ps σ υ τ h5 onDisk table rest ihTable ihRest =>
    obtain ⟨d₁, ih₁⟩ := ihTable
    obtain ⟨d₂, ih₂⟩ := ihRest
    refine ⟨max (d₁ + 1) d₂, fun fuel hfuel s hs => ?_⟩
    obtain ⟨fuel, rfl⟩ : ∃ f, fuel = f + 1 := ⟨fuel - 1, by omega⟩
    obtain ⟨hmarks, haddr⟩ := enter_marks (s := s)
    rw [hs] at hmarks haddr
    obtain ⟨u, ps₁, hret₁, hu, hadds₁⟩ := ih₁ fuel (by omega) _ hmarks
    obtain ⟨t, ps₂, hret₂, ht, hadds₂⟩ := ih₂ (fuel + 1) (by omega) u hu
    have hadds : s.Adds hd ps₁ u := by
      -- the base may have been set, which nothing that is recorded depends on
      unfold Ide.enter at hadds₁
      split at hadds₁
      · exact hadds₁
      · exact hadds₁.setBase
    refine ⟨t, _, (returns_extended h5).mpr ⟨u, ?_, hret₂⟩, ht, hadds.trans hadds₂⟩
    rw [haddr]
    exact returns_partitionScan.mpr ⟨onDisk, hret₁⟩
  | primary h0 h5 few rest ih =>
    obtain ⟨depth, ih⟩ := ih
    refine ⟨depth, fun fuel hfuel s hs => ?_⟩
    subst hs
    obtain ⟨t, ps, hret, ht, hadds⟩ := ih fuel hfuel _ marks_record_prim
    exact ⟨t, _, (returns_primary h0 h5).mpr ⟨few, hret⟩, ht, (s.adds_prim hd _ _).trans hadds⟩
  | logical hlba h0 h5 few rest ih =>
    obtain ⟨depth, ih⟩ := ih
    refine ⟨depth, fun fuel hfuel s hs => ?_⟩
    subst hs
    have hno : s.no .logic < 7 := few
    obtain ⟨t, ps, hret, ht, hadds⟩ := ih fuel hfuel _ marks_record_logic
    refine ⟨t, _, (returns_logical h0 h5 hlba).mpr ⟨by omega, ?_⟩, ht, (s.adds_logic hd _ _).trans hadds⟩
    rw [if_neg (by omega)]
    exact hret
  | eighth hlba h0 h5 seven =>
    refine ⟨0, fun fuel _ s hs => ?_⟩
    subst hs
    have hno : s.no .logic = 7 := seven
    refine ⟨_, _, (returns_logical h0 h5 hlba).mpr ⟨by omega, by rw [if_pos hno]⟩, ?_, s.adds_logic hd _ _⟩
    rw [marks_record_logic, seven]

/-- Where the scan of the entries returns, it has taken a way through the tables. -/
theorem walks_entries {scan : Nat → IdeM Unit}
    (hscan : ∀ lba s t, Returns (scan lba) s () t →
      lba ≤ maxLba ∧ Walks disk lba (partitionTable (bootSector disk lba)) s.marks t.marks)
    (hret : Returns (scanEntries scan hd lba es) s () t) : Walks disk lba es s.marks t.marks := by
  induction es generalizing s with
  | nil =>
    obtain ⟨-, rfl⟩ := returns_pure.mp hret
    exact .done
  | cons p ps ih =>
    by_cases h0 : p.fsType = 0
    · exact .empty h0 (ih ((returns_empty h0).mp hret))
    by_cases h5 : p.fsType = 5
    · obtain ⟨u, hu, hrest⟩ := (returns_extended h5).mp hret
      obtain ⟨hle, htable⟩ := hscan _ _ _ hu
      obtain ⟨hmarks, haddr⟩ := enter_marks (s := s)
      rw [hmarks, haddr] at htable
      rw [haddr] at hle
      exact .extended h5 hle htable (ih hrest)
    · by_cases hlba : lba = 0
      · subst hlba
        obtain ⟨hlt, hrest⟩ := (returns_primary h0 h5).mp hret
        exact .primary h0 h5 hlt (ih hrest)
      · obtain ⟨hlt, hrest⟩ := (returns_logical h0 h5 hlba).mp hret
        by_cases hseven : s.no .logic = 7
        · have hmarks : (s.record .logic hd ((lba + p.startLba) % 2 ^ 32) p.secCnt).marks =
              { s.marks with logic := 8 } := by
            rw [marks_record_logic, show s.marks.logic = 7 from hseven]
          simp only [hseven, if_true] at hrest
          rw [hrest, hmarks]
          exact .eighth hlba h0 h5 hseven
        · simp only [hseven, if_false] at hrest
          exact .logical hlba h0 h5 (show s.no .logic < 7 by omega) (ih hrest)

theorem walks_of_returns (hret : Returns (partitionScan hd disk fuel lba) s () t) :
    lba ≤ maxLba ∧ Walks disk lba (partitionTable (bootSector disk lba)) s.marks t.marks := by
  induction fuel generalizing lba s t with
  | zero => exact absurd hret (returns_stop _)
  | succ fuel ih =>
    obtain ⟨hle, hret⟩ := returns_partitionScan.mp hret
    exact ⟨hle, walks_entries (fun lba s t h => ih h) hret⟩

end Walk

/-! ## Which disks are safe to scan -/

/-- Well-formed tables have a way through them, if there are at most three primary partitions. -/
theorem Tables.walkable {disk : Bytes} {ls : List Extent} {n : Nat} (h : Tables disk ls n)
    (hfew : (primaries (mbr disk)).length ≤ 3) : Walkable disk 0 := by
  obtain ⟨t, hret, -, -⟩ := h.returns 0 (n + 1) .boot (fun _ => rfl) hfew (Or.inr rfl) (Nat.lt_succ_self n)
  exact ⟨_, (walks_of_returns hret).2⟩

/-- A disk with four primary partitions. -/
def fullDisk : Bytes := fun a => if a = 450 ∨ a = 466 ∨ a = 482 ∨ a = 498 then 0x83 else 0

/-- A disk whose extended partition links to itself. -/
def loopDisk : Bytes := fun a => if a = 450 ∨ a = 512 + 450 then 5 else if a = 454 then 1 else 0

theorem loopDisk_entry : (partitionTableEntry (bootSector loopDisk 1) 0).fsType = 5 ∧
    (partitionTableEntry (bootSector loopDisk 1) 0).startLba = 0 := by
  decide +kernel

/-- No way leads through the table that links to itself. -/
theorem loopDisk_endless {lba : Nat} {es : List PartitionTableEntry} {σ τ : Marks} (h : Walks loopDisk lba es σ τ)
    (hbase : σ.base = 1) : es ≠ partitionTable (bootSector loopDisk 1) := by
  obtain ⟨htype, hstart⟩ := loopDisk_entry
  have hfirst : ∀ {p : PartitionTableEntry} {ps : List PartitionTableEntry},
      p :: ps = partitionTable (bootSector loopDisk 1) → p.fsType = 5 ∧ p.startLba = 0 := by
    intro p ps heq
    rw [partitionTable_eq] at heq
    rw [(List.cons.inj heq).1]
    exact ⟨htype, hstart⟩
  induction h with
  | done =>
    intro heq
    rw [partitionTable_eq] at heq
    cases heq
  | empty h0 rest ih =>
    intro heq
    have := (hfirst heq).1
    omega
  | @extended lba p ps σ υ τ h5 onDisk table rest ihTable ihRest =>
    intro heq
    have hfollow : σ.follow p.startLba = (σ, 1) := by
      rw [Marks.follow, if_pos (by omega), (hfirst heq).2, hbase]
      rfl
    rw [hfollow] at ihTable
    exact ihTable hbase rfl
  | primary h0 h5 few rest ih => exact fun heq => h5 (hfirst heq).1
  | logical hlba h0 h5 few rest ih => exact fun heq => h5 (hfirst heq).1
  | eighth hlba h0 h5 seven => exact fun heq => h5 (hfirst heq).1

end ZxyOs
