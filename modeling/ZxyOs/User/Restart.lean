/-
  ZxyOs.User.Restart

  The directory tree across restarts.

  When the machine is switched off only the disk is left; the kernel that starts has one
  process, in the root, and no open file.  On a disk without a file system it shows a root with
  nothing below it (`boot_shows`).  On a disk that is up to date it shows the tree that was
  there: so the hierarchy lasts through any number of sessions (`sessions_refine`), each a
  start of the kernel and the calls made before the machine is switched off.
-/

import ZxyOs.Fs.Formatted
import ZxyOs.User.TreeRun

namespace ZxyOs

open Lib Lib.Exec

/-! ## Sessions -/

/-- The machine is switched off and on again. -/
def restart (startLba secCnt : Nat) (full : Nat → Bool) : FsM Unit := do
  update fun s => Fs.boot s.disk full
  filesysStart startLba secCnt

/-- One session after the other: the kernel starts, and the calls are made. -/
def executeSessions (startLba secCnt : Nat) (full : Nat → Bool) : List (List (Nat × TreeCall)) → FsM (List (List TreeAnswer))
  | [] => return []
  | calls :: sessions => do
    restart startLba secCnt full
    let answers ← executeCalls calls
    let rest ← executeSessions startLba secCnt full sessions
    return answers :: rest

/-- The calls of every session fit the states they find. -/
def SessionsFit (startLba secCnt : Nat) (full : Nat → Bool) : Fs → List (List (Nat × TreeCall)) → Prop
  | _, [] => True
  | s, calls :: sessions => ∀ s₁, Returns (restart startLba secCnt full) s () s₁ → CallsFit s₁ calls ∧
    ∀ answers s', Returns (executeCalls calls) s₁ answers s' → SessionsFit startLba secCnt full s' sessions

/-! ## The hierarchy -/

/-- After a restart there is one process, in the root, and no file is open. -/
def Hierarchy.restarted (h : Hierarchy) : Hierarchy :=
  { h with cwd := fun t => if t = 0 then some [] else none, opened := fun _ => False }

/-- The root with nothing below it, on a kernel that has started. -/
def Hierarchy.empty : Hierarchy where
  kind := fun cs => if cs = [] then some .dir else none
  cwd := fun t => if t = 0 then some [] else none
  opened := fun _ => False

/-- The answers to the calls of the sessions, and the hierarchy in the end. -/
noncomputable def specSessions : Hierarchy → List (List (Nat × TreeCall)) → List (List TreeAnswer) × Hierarchy
  | h, [] => ([], h)
  | h, calls :: sessions =>
    ((specCalls h.restarted calls).1 :: (specSessions (specCalls h.restarted calls).2 sessions).1,
      (specSessions (specCalls h.restarted calls).2 sessions).2)

section Start

variable {disk : Bytes} {full : Nat → Bool} {p : Partition} {a startLba secCnt : Nat} {h : Heap} {s : Fs} {t : Hierarchy}

/-- What a kernel shows that has mounted a partition in order. -/
theorem mountedAt_shows (horder : (Fs.mountedAt disk p a h).InOrder) (hr : h.Ready)
    (hkind : t.kind = view (Fs.mountedAt disk p a h).names Downward 0) : Shows (Fs.mountedAt disk p a h) t.restarted where
  order := horder
  serves := hr.serves
  kind := hkind
  opened := by
    intro n
    refine ⟨False.elim, ?_⟩
    rintro ⟨g, -, b, v, hb, -⟩
    cases hb
  cwd := by
    intro n
    show Option.Rel _ (if n = 0 then some initThread else none) (if n = 0 then some [] else none)
    split
    · exact .some ⟨rfl, fun c hc => absurd hc List.not_mem_nil, by decide⟩
    · exact .none

theorem Formatted.kind (hf : Formatted startLba secCnt disk) (hmin : 620 ≤ secCnt) (hdisk : startLba + secCnt ≤ maxLba + 1) :
    Hierarchy.empty.kind = view (Fs.formatted startLba secCnt disk a h).names Downward 0 := by
  obtain ⟨-, -, hdown⟩ := hf.names (a := a) (h := h) hmin hdisk
  funext cs
  cases cs with
  | nil => exact (view_of_down fun c hc => absurd hc List.not_mem_nil).symm
  | cons c cs =>
    have hnone : Hierarchy.empty.kind (c :: cs) = none := by simp [Hierarchy.empty]
    rw [hnone]
    by_cases hall : ∀ d ∈ c :: cs, Downward d
    · rw [view_of_down hall, walk_cons_none (hdown c (hall c List.mem_cons_self))]
      rfl
    · exact (if_neg hall).symm

/-- A new file system shows an empty tree. -/
theorem Formatted.shows (hf : Formatted startLba secCnt disk) (hmin : 620 ≤ secCnt) (hdisk : startLba + secCnt ≤ maxLba + 1)
    (hr : h.Ready) (ha : a < h.next) : Shows (Fs.formatted startLba secCnt disk a h) Hierarchy.empty :=
  @mountedAt_shows _ _ _ _ Hierarchy.empty (formatted_inOrder hf hmin hdisk ha hr.live) hr (hf.kind hmin hdisk)

theorem Formatted.saved (hf : Formatted startLba secCnt disk) (hmin : 620 ≤ secCnt) (hdisk : startLba + secCnt ≤ maxLba + 1) :
    (Fs.formatted startLba secCnt disk a h).Saved :=
  mountedAt_saved (format_sound hmin hdisk) (hf.decode_superBlock hmin hdisk)

/-- A restart, on a disk that is up to date. -/
theorem restart_runs (hsaved : s.Saved) (hfull : ∀ j, full j = false) :
    ∃ h a, h.Ready ∧ a < h.next ∧
      Returns (restart s.part.startLba s.part.secCnt full) s () (Fs.mountedAt s.disk s.part a h) := by
  obtain ⟨h, a, hr, ha, hrun⟩ := filesysStart_again hfull hsaved
  have hboot : Returns (update fun s => Fs.boot s.disk full) s () (Fs.boot s.disk full) := (returns_update _ ()).mpr rfl
  refine ⟨h, a, hr, ha, ?_⟩
  rw [restart, returns_bind_iff hboot]
  exact hrun

/-- It shows what was there. -/
theorem restart_shows (hs : Shows s t) (hsaved : s.Saved) (hfull : ∀ j, full j = false) :
    ∃ s', Returns (restart s.part.startLba s.part.secCnt full) s () s' ∧ Shows s' t.restarted ∧ s'.Saved ∧
      s'.part = s.part := by
  obtain ⟨h, a, hr, ha, hrun⟩ := restart_runs hsaved hfull
  refine ⟨_, hrun, mountedAt_shows (mounted_inOrder hs.order hsaved ha hr.live) hr ?_,
    mountedAt_saved hsaved.toSound hsaved.recorded.superBlock, rfl⟩
  rw [mountedAt_names hs.order hsaved]
  exact hs.kind

end Start

/-- Where the disk has no file system the kernel makes one and shows an empty tree, which is on the disk. -/
theorem boot_shows (disk : Bytes) (full : Nat → Bool) (startLba secCnt : Nat) (hfull : ∀ j, full j = false) (hmin : 620 ≤ secCnt)
    (hdisk : startLba + secCnt ≤ maxLba + 1)
    (hmagic : (SuperBlock.decode (sectorAt disk (startLba + 1))).magic ≠ 0x19590318) :
    ∃ s, Returns (filesysStart startLba secCnt) (Fs.boot disk full) () s ∧ Shows s Hierarchy.empty ∧ s.Saved := by
  obtain ⟨h, a, hr, ha, hrun⟩ := filesysStart_new hfull hmin hdisk hmagic
  have hf := formatDisk_formatted startLba secCnt disk
  exact ⟨_, hrun, hf.shows hmin hdisk hr ha, hf.saved hmin hdisk⟩

/-- On a disk full of zeros. -/
theorem boot_shows_zero : ∃ s, Returns (filesysStart 2048 4708) (Fs.boot Bytes.zero fun _ => false) () s ∧
    Shows s Hierarchy.empty ∧ s.Saved := by
  refine boot_shows Bytes.zero (fun _ => false) 2048 4708 (fun _ => rfl) (by decide) (by decide) ?_
  have hzero : (SuperBlock.decode (sectorAt Bytes.zero 2049)).magic = 0 := by decide
  rw [hzero]
  decide

/-- The tree lasts through any number of restarts: whatever the one process does in each session, the answers are
    those of the hierarchy, and in the end the kernel shows what the hierarchy has become, and has it on the disk. -/
theorem sessions_refine (s : Fs) (h : Hierarchy) (full : Nat → Bool) (sessions : List (List (Nat × TreeCall))) (hs : Shows s h)
    (hsaved : s.Saved) (hfull : ∀ j, full j = false) (hfirst : ∀ calls ∈ sessions, ∀ entry ∈ calls, entry.1 = 0)
    (hfit : SessionsFit s.part.startLba s.part.secCnt full s sessions) :
    ∃ s', Returns (executeSessions s.part.startLba s.part.secCnt full sessions) s (specSessions h sessions).1 s' ∧
      Shows s' (specSessions h sessions).2 ∧ s'.Saved := by
  induction sessions generalizing s h with
  | nil => exact ⟨s, returns_pure.mpr ⟨rfl, rfl⟩, hs, hsaved⟩
  | cons calls sessions ih =>
    obtain ⟨s₁, hstart, hs₁, hsaved₁, hpart₁⟩ := restart_shows hs hsaved hfull
    obtain ⟨hcalls, hrest⟩ := hfit s₁ hstart
    -- the process that starts makes the calls
    have hlives : ∀ entry ∈ calls, h.restarted.cwd entry.1 ≠ none := by
      intro entry he
      rw [hfirst calls List.mem_cons_self entry he]
      simp [Hierarchy.restarted]
    obtain ⟨s₂, hrun, hs₂, hsaves⟩ := executeCalls_shows hs₁ hlives hcalls
    -- the partition is the same, so the next session starts from it
    have hpart₂ : s₂.part = s.part := hsaves.part.trans hpart₁
    have hfit₂ := hrest _ _ hrun
    rw [← hpart₂] at hfit₂ hstart ⊢
    obtain ⟨s', hmore, hs', hsaved'⟩ := ih s₂ _ hs₂ (hsaves.saved hsaved₁)
      (fun calls hc => hfirst calls (List.mem_cons_of_mem _ hc)) hfit₂
    refine ⟨s', ?_, hs', hsaved'⟩
    rw [executeSessions, returns_bind_iff hstart, returns_bind_iff hrun, returns_bind_iff hmore]
    exact returns_pure.mpr ⟨rfl, rfl⟩

namespace NewDisk

/-- `mkdir /d`; and after a restart `cd /d`, `pwd`. -/
def twoSessions : List (List (Nat × TreeCall)) := [[(0, .mkdir [47, 100])], [(0, .chdir [47, 100]), (0, .getcwd)]]

/-- The hierarchy when the machine is switched off. -/
def made : Hierarchy :=
  { Hierarchy.empty.restarted with kind := Function.update Hierarchy.empty.kind [[100]] (some .dir) }

/-- The directory is found again. -/
theorem answers : (specSessions Hierarchy.empty twoSessions).1 = [[.code 0], [.code 0, .path (some [47, 100])]] := by
  have hcs : components slash [47, 100] = [[100]] := by decide
  have hroom : Hierarchy.empty.restarted.kind (components slash [47, 100]).dropLast = some .dir ∧
      Hierarchy.empty.restarted.kind (components slash [47, 100]) = none := by
    rw [hcs]
    exact ⟨rfl, rfl⟩
  have hmkdir : (TreeCall.mkdir [47, 100]).spec Hierarchy.empty.restarted 0 = (.code 0, made) := by
    rw [TreeCall.spec, if_pos hroom, hcs]
    rfl
  have hkind : made.restarted.kind (components slash [47, 100]) = some .dir := by
    rw [hcs]
    show Function.update Hierarchy.empty.kind [[100]] (some .dir) [[100]] = _
    rw [Function.update_self]
  have hchdir : (TreeCall.chdir [47, 100]).spec made.restarted 0 =
      (.code 0, { made.restarted with cwd := Function.update made.restarted.cwd 0 (some [[100]]) }) := by
    rw [TreeCall.spec, if_pos hkind, hcs]
  rw [twoSessions, specSessions, specCalls, hmkdir, specCalls, specSessions, specCalls, hchdir, specCalls, specCalls, specSessions]
  show [[_], [_, TreeAnswer.path ((Function.update made.restarted.cwd 0 (some [[100]]) 0).map (rooted slash))]] = _
  rw [Function.update_self]
  rfl

section Fits

variable {a : Nat} {h : Heap} {disk : Bytes} {full : Nat → Bool}

theorem sessionsFit (hf : Formatted 2048 4708 disk) (hfull : ∀ j, full j = false) :
    SessionsFit 2048 4708 full (Fs.formatted 2048 4708 disk a h) twoSessions := by
  have hwash : WashFits [47, 100] := ⟨washed_dir, by decide, by decide, by decide⟩
  have hmin : 620 ≤ 4708 := by decide
  have hdisk : 2048 + 4708 ≤ maxLba + 1 := by decide
  intro s₁ hstart
  obtain ⟨h₁, a₁, -, -, hrun⟩ := restart_runs (hf.saved (a := a) (h := h) hmin hdisk) hfull
  obtain ⟨-, rfl⟩ := hstart.unique hrun
  have hsecond (s : Fs) : CallsFit s [(0, .chdir [47, 100]), (0, .getcwd)] :=
    ⟨hwash, fun _ _ _ => ⟨trivial, fun _ _ _ => trivial⟩⟩
  refine ⟨⟨⟨hwash, fun _ _ => ?_⟩, fun _ _ _ => trivial⟩, fun _ _ _ s₂ _ => ⟨hsecond s₂, fun _ _ _ => trivial⟩⟩
  -- the path ends in the root
  have hcs : components slash [47, 100] = [[100]] := by decide
  have hnone : (Fs.formatted 2048 4708 disk a₁ h₁).names 0 [100] = none := (hf.names hmin hdisk).2.2 _ (by decide)
  have habove : ((Fs.formatted 2048 4708 disk a₁ h₁).walkPath [47, 100]).above = 0 := by
    rw [Fs.walkPath, hcs, arrive_cons_none hnone]
  show (Fs.formatted 2048 4708 disk a₁ h₁).MkdirRoom ((Fs.formatted 2048 4708 disk a₁ h₁).walkPath [47, 100]).above
  rw [habove]
  exact hf.mkdirRoom hmin hdisk

end Fits

end NewDisk

open NewDisk in
/-- On a new file system the directory that is made outlives the restart. -/
theorem sessions_refine_kept : ∃ s s', Shows s Hierarchy.empty ∧
    Returns (executeSessions 2048 4708 (fun _ => false) twoSessions) s [[.code 0], [.code 0, .path (some [47, 100])]] s' ∧
    Shows s' (specSessions Hierarchy.empty twoSessions).2 ∧ s'.Saved := by
  have hmin : 620 ≤ 4708 := by decide
  have hdisk : 2048 + 4708 ≤ maxLba + 1 := by decide
  have hfull : ∀ j, (fun _ : Nat => false) j = false := fun _ => rfl
  have hf := formatDisk_formatted 2048 4708 Bytes.zero
  obtain ⟨h₁, hr₁, hlt⟩ : ∃ h : Heap, h.Ready ∧ 0 < h.next := ⟨_, (ready_boot hfull).alloc, by decide⟩
  have hshows := hf.shows hmin hdisk hr₁ hlt
  have hzero : ∀ calls ∈ twoSessions, ∀ entry ∈ calls, entry.1 = 0 := by
    simp [twoSessions, or_imp, forall_and]
  have hrun := sessions_refine _ _ (fun _ => false) twoSessions hshows (hf.saved hmin hdisk) hfull hzero (sessionsFit hf hfull)
  rw [answers] at hrun
  obtain ⟨s', hcalls, hs', hsaved⟩ := hrun
  exact ⟨_, s', hshows, hcalls, hs', hsaved⟩

end ZxyOs
