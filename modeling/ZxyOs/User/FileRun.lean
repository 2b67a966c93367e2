/-
  ZxyOs.User.FileRun

  Runs of `sys_open`, `sys_fork`, `sys_close` and `sys_exit` by any processes, one call
  after the other, with a record of the files their descriptors were opened on.

  A descriptor keeps its file as long as no process closes a descriptor, or exits with
  one, that another recorded descriptor shares its slot with (`descriptors_survive`).
  A file has one slot that writes, and turns other writers away, as long as no file is
  created for writing, none that is written is opened for it, and nobody closes a file
  that another slot writes to (`single_writer`): `file_create` does not set `write_deny`,
  an open that is turned down keeps its slot, and `file_close` clears `write_deny` for
  whoever closes.
-/

import ZxyOs.Lib.Runs
import ZxyOs.User.FileShare
import ZxyOs.Fs.OpenBalance

namespace ZxyOs

open Lib Lib.Exec

/-- The file system, the processes that live, and the record of what their descriptors
    were opened on. -/
structure FileWorld where
  fs : Fs
  live : Finset Nat
  den : Nat → Fin 8 → Option Nat

/-- A call that opens, copies or closes descriptors of files. -/
inductive FileCall where
  | openFile (path : CStr) (flags : Nat)
  | fork (child : Nat)
  | close (fd : Int)
  | exit

namespace FileCall

def code : FileCall → FsM Int
  | openFile path flags => sysOpen path flags
  | fork child => do
    sysFork child
    return child
  | close fd => sysClose fd
  | exit => do
    sysExit
    return 0

/-- The processes that live after the call of `t`. -/
def lives (live : Finset Nat) (t : Nat) : FileCall → Finset Nat
  | fork child => insert child live
  | exit => live.erase t
  | _ => live

/-- A child is new, and there are 1024 pids. -/
def Grants (live : Finset Nat) : FileCall → Prop
  | fork child => child ∉ live ∧ live.card < 1024
  | _ => True

/-- The record after the call of `t` has returned `r` and left `s'`: an open enters the
    descriptor, a fork copies those of the parent, a close takes it out. -/
def record (s' : Fs) (den : Nat → Fin 8 → Option Nat) (t : Nat) (r : Int) :
    FileCall → Nat → Fin 8 → Option Nat
  | openFile _ _ => s'.denOpened den t r
  | fork child => Function.update den child (den t)
  | close fd => if h : 3 ≤ fd ∧ fd < 8 then setDen den t ⟨fd.toNat, by omega⟩ none else den
  | exit => Function.update den t fun _ => none

end FileCall

namespace FileWorld

/-- The process `e.1` makes the call `e.2`, and it returns. -/
def Step (d : FileWorld) (e : Nat × FileCall) (d' : FileWorld) : Prop :=
  e.1 ∈ d.live ∧ e.2.Grants d.live ∧
    ∃ r, Returns e.2.code { d.fs with cur := e.1 } r d'.fs ∧ d'.live = e.2.lives d.live e.1 ∧
      d'.den = e.2.record d'.fs d.den e.1 r

/-- No file is open. -/
structure Initial (d : FileWorld) : Prop where
  cache : d.fs.CacheOk
  free : ∀ g, (d.fs.fileTable g).fdInode = none ∧ (d.fs.fileTable g).fdFlag ≠ pipeFlag
  den : ∀ t fd, d.den t fd = none

abbrev Run (P : FileWorld → Nat × FileCall → Prop) : FileWorld → FileWorld → Prop := Lib.Run Step P

/-- A descriptor that is closed shares its slot with no other one that is recorded. -/
def ClosesUnshared (d : FileWorld) (e : Nat × FileCall) : Prop :=
  match e.2 with
  | .close fd => ∀ f : Fin 8, f.val = fd → 3 ≤ f → d.fs.Unshared d.den e.1 f
  | .exit => ∀ f ∈ localFds, d.fs.Unshared d.den e.1 f
  | _ => True

section Survival

variable {d d' : FileWorld} {e : Nat × FileCall} {s : Fs} {den : Nat → Fin 8 → Option Nat}

/-- The running process is not looked at. -/
theorem filesOk_withCur (h : FilesOk s den) (t : Nat) : FilesOk { s with cur := t } den :=
  ⟨⟨h.cache.nodup, h.cache.mem, h.cache.pos, h.cache.inode_lt, h.cache.dir_lt⟩, h.no_pipe, h.counted,
    h.file⟩

theorem dropDen_some {fds : List (Fin 8)} {t t' n : Nat} {fd : Fin 8}
    (hne : t' ≠ t) (h : den t' fd = some n) : dropDen den t fds t' fd = some n := by
  induction fds generalizing den with
  | nil => exact h
  | cons e rest ih =>
    apply ih
    show setDen den t e none t' fd = some n
    rw [setDen_of_ne fun heq => hne heq.1]
    exact h

theorem Initial.filesOk (h : d.Initial) : FilesOk d.fs d.den where
  cache := h.cache
  no_pipe := fun g => (h.free g).2
  counted := by
    intro a
    have hempty : d.fs.slotsOf a = ∅ := by
      apply Finset.eq_empty_of_forall_notMem
      intro g hg
      have ha := (Fs.mem_slotsOf.mp hg).2
      rw [(h.free g).1] at ha
      cases ha
    rw [hempty]
    exact Nat.zero_le _
  file := by
    intro t fd n hn
    rw [h.den t fd] at hn
    cases hn

/-- A descriptor that is closed is one of the eight. -/
theorem fin_of_sysClose {fd r : Int} {s' : Fs} (hfd : fd > 2) (h : Returns (sysClose fd) s r s') :
    ∃ f : Fin 8, 3 ≤ f ∧ fd = f.val := by
  simp only [sysClose, if_pos hfd, returns_bind] at h
  obtain ⟨g, _, hg, -⟩ := h
  obtain ⟨-, hlt, -⟩ := returns_fdLocalToGlobal hg
  refine ⟨⟨fd.toNat, by omega⟩, ?_, (Int.toNat_of_nonneg hlt.1).symm⟩
  show 3 ≤ fd.toNat
  omega

theorem step_filesOk (h : FilesOk d.fs d.den) (hkept : d.ClosesUnshared e) (hstep : d.Step e d') :
    FilesOk d'.fs d'.den := by
  obtain ⟨t, call⟩ := e
  obtain ⟨ht, -, r, hret, -, hden⟩ := hstep
  have hcur := filesOk_withCur h t
  rw [hden]
  cases call with
  | openFile path flags => exact hcur.sysOpen hret
  | fork child =>
    simp only [FileCall.code, returns_bind, returns_pure] at hret
    obtain ⟨_, _, hret, -, rfl⟩ := hret
    exact hcur.sysFork hret
  | close fd =>
    simp only [FileCall.code] at hret
    simp only [FileCall.record]
    by_cases hfd : fd > 2
    · obtain ⟨f, h3, rfl⟩ := fin_of_sysClose hfd hret
      have hlt : 3 ≤ (f.val : Int) ∧ (f.val : Int) < 8 := by omega
      have hfin : (⟨(f.val : Int).toNat, by omega⟩ : Fin 8) = f := Fin.ext (by simp)
      rw [dif_pos hlt, hfin]
      exact (hcur.closeFd h3 (hkept f rfl h3) hret).1
    · rw [dif_neg (by omega)]
      rw [sysClose, if_neg hfd] at hret
      obtain ⟨-, hs⟩ := returns_pure.mp hret
      rw [← hs]
      exact hcur
  | exit =>
    simp only [FileCall.code, sysExit, returns_bind, returns_update, returns_pure] at hret
    obtain ⟨_, _, ⟨_, s₁, hloop, hgone⟩, -, hs⟩ := hret
    obtain ⟨hok, hcur₁, -⟩ := hcur.releaseFds (fun fd hfd => (mem_localFds fd).mp hfd) (by decide)
      hkept hloop
    rw [← hs, ← hgone]
    simp only [FileCall.record]
    have hcur₁' : s₁.cur = t := hcur₁
    refine ⟨⟨hok.cache.nodup, hok.cache.mem, hok.cache.pos, hok.cache.inode_lt, hok.cache.dir_lt⟩,
      hok.no_pipe, hok.counted, fun t' fd n hn => ?_⟩
    have hne : t' ≠ t := by
      rintro rfl
      rw [Function.update_self] at hn
      cases hn
    rw [Function.update_of_ne hne] at hn
    obtain ⟨g, a, v, hg, hat, hrest⟩ := hok.file t' fd n (dropDen_some hne hn)
    refine ⟨g, a, v, hg, ?_, hrest⟩
    simp only [Fs.fdAt, hcur₁', Function.update_of_ne hne]
    exact hat

end Survival

end FileWorld

/-- A descriptor that was opened on a file, or inherited, keeps its slot and the file's
    inode, whatever the other processes open, fork, close and exit with. -/
theorem descriptors_survive (d₀ d : FileWorld) (h₀ : d₀.Initial)
    (hrun : FileWorld.Run FileWorld.ClosesUnshared d₀ d) :
    ∀ t fd n, d.den t fd = some n →
      ∃ g a v, d.fs.fdAt t fd = (g : Nat) ∧ (d.fs.fileTable g).fdInode = some a ∧
        a ∈ d.fs.openInodes ∧ d.fs.inodes a = some v ∧ v.iNo = n ∧
        ∀ r s', Returns getFreeSlotInGlobal d.fs r s' → r ≠ some g := by
  have hok : FilesOk d.fs d.den :=
    hrun.invariant h₀.filesOk fun d e d' h hkept hstep => FileWorld.step_filesOk h hkept hstep
  intro t fd n hn
  obtain ⟨g, a, v, -, hat, ha, hv, hno⟩ := hok.file t fd n hn
  refine ⟨g, a, v, hat, ha, ?_, hv, hno, fun r s' hret hr => ?_⟩
  · rw [hok.cache.mem a, hv]
    simp
  · simp only [getFreeSlotInGlobal, returns_bind, returns_query, returns_pure] at hret
    obtain ⟨_, _, ⟨rfl, rfl⟩, hslot, -⟩ := hret
    have hnone := (freeSlotFrom_some (hslot.trans hr)).2
    simp only [id_eq] at hnone
    rw [ha] at hnone
    cases hnone

/-! ## Runs that are computed -/

instance FileCall.decidableGrants (live : Finset Nat) : (c : FileCall) → Decidable (c.Grants live)
  | .fork child => inferInstanceAs (Decidable (child ∉ live ∧ live.card < 1024))
  | .openFile _ _ | .close _ | .exit => isTrue trivial

namespace FileWorld

/-- The call `e.2` of process `e.1`, computed. -/
def after? (d : FileWorld) (e : Nat × FileCall) : Option FileWorld :=
  if e.1 ∈ d.live ∧ e.2.Grants d.live then
    match e.2.code { d.fs with cur := e.1 } with
    | .ok (r, s') => some ⟨s', e.2.lives d.live e.1, e.2.record s' d.den e.1 r⟩
    | .error _ => none
  else none

theorem step_of_after? {d d' : FileWorld} {e : Nat × FileCall} (h : d.after? e = some d') :
    d.Step e d' := by
  simp only [after?] at h
  split at h
  · next hmay =>
    split at h
    · next r s' hret =>
      obtain rfl := Option.some.inj h
      exact ⟨hmay.1, hmay.2, r, hret, rfl, rfl⟩
    · cases h
  · cases h

end FileWorld

/-- The small tree, and process 0. -/
def smallWorld : FileWorld := { fs := SmallTree.fs, live := {0}, den := fun _ _ => none }

theorem smallWorld_initial : smallWorld.Initial where
  cache := SmallTree.cacheOk
  free := fun _ => ⟨rfl, (by decide : (0 : Nat) ≠ pipeFlag)⟩
  den := fun _ _ => rfl

/-- Process 0 opens the file and forks: the child has it too. -/
theorem descriptors_survive_fork : ∃ d : FileWorld, d.den 1 3 = some 3 ∧
    ∃ g a v, d.fs.fdAt 1 3 = (g : Nat) ∧ (d.fs.fileTable g).fdInode = some a ∧
      a ∈ d.fs.openInodes ∧ d.fs.inodes a = some v ∧ v.iNo = 3 ∧
      ∀ r s', Returns getFreeSlotInGlobal d.fs r s' → r ≠ some g := by
  have hend : ((smallWorld.after? (0, .openFile SmallTree.flatPath 0)).bind fun d =>
      d.after? (0, .fork 1)).map (fun d => d.den 1 3) = some (some 3) := by
    decide +kernel
  obtain ⟨d₂, hd₂, hden⟩ := Option.map_eq_some_iff.mp hend
  obtain ⟨d₁, hd₁, hd₂⟩ := Option.bind_eq_some_iff.mp hd₂
  have hrun : FileWorld.Run FileWorld.ClosesUnshared smallWorld d₂ :=
    .next (0, .fork 1) (.next (0, .openFile SmallTree.flatPath 0) .start trivial
      (FileWorld.step_of_after? hd₁)) trivial (FileWorld.step_of_after? hd₂)
  exact ⟨d₂, hden, descriptors_survive smallWorld d₂ smallWorld_initial hrun 1 3 3 hden⟩

/-- Process 0 opens the file and forks, and the child closes it. -/
theorem close_of_child_clears_slot : ∃ d : FileWorld, smallWorld.Initial ∧
    FileWorld.Run (fun _ _ => True) smallWorld d ∧ d.den 0 3 = some 3 ∧ d.fs.fdAt 0 3 = 3 ∧
      (d.fs.fileTable 3).fdInode = none := by
  have hend : ([(0, .openFile SmallTree.flatPath 0), (0, .fork 1), (1, .close 3)].foldlM
      FileWorld.after? smallWorld).map
        (fun d => (d.den 0 3, d.fs.fdAt 0 3, (d.fs.fileTable 3).fdInode)) =
      some (some 3, 3, none) := by
    decide +kernel
  obtain ⟨d, hd, hval⟩ := Option.map_eq_some_iff.mp hend
  simp only [Prod.mk.injEq] at hval
  obtain ⟨hden, hat, hnone⟩ := hval
  exact ⟨d, smallWorld_initial,
    .of_foldlM (fun _ _ _ h => ⟨trivial, FileWorld.step_of_after? h⟩) hd, hden, hat, hnone⟩

/-! ## Slots that write -/

/-- Slot `g` holds the inode at `a` and has been opened for writing. -/
def Fs.Writer (s : Fs) (g a : Nat) : Prop :=
  (s.fileTable g).fdInode = some a ∧ writable (s.fileTable g).fdFlag = true

/-- The path leads to an existing file that is cached at `a`. -/
def Fs.LeadsTo (s : Fs) (path : CStr) (a : Nat) : Prop :=
  ∃ n rec s₁, s.Finds path (some n) rec s₁ ∧ s₁.cached n = some a

/-- What the slots need for a file to have one writer: the inode in a slot is one the
    heap has handed out, and no two slots write to one inode. -/
structure WritersOk (s : Fs) : Prop where
  cache : s.CacheOk
  no_pipe : ∀ g, (s.fileTable g).fdFlag ≠ pipeFlag
  old : ∀ g a, (s.fileTable g).fdInode = some a → a < s.heap.next
  one : ∀ g g' a, s.Writer g a → s.Writer g' a → g = g'

section Writers

variable {s s' : Fs} {den : Nat → Fin 8 → Option Nat} {g a t : Nat} {path : CStr} {flags : Nat} {r : Int}

/-- Slots are cleared, or only what is not about files changes. -/
theorem WritersOk.drop (h : WritersOk s) (hcache : s'.CacheOk) (hnext : s.heap.next ≤ s'.heap.next)
    (hslot : ∀ g, (s'.fileTable g).fdFlag = (s.fileTable g).fdFlag ∧
      ((s'.fileTable g).fdInode = none ∨ (s'.fileTable g).fdInode = (s.fileTable g).fdInode)) :
    WritersOk s' where
  cache := hcache
  no_pipe := by
    intro g
    rw [(hslot g).1]
    exact h.no_pipe g
  old := by
    intro g a ha
    rcases (hslot g).2 with hnone | hsame
    · rw [hnone] at ha
      cases ha
    · rw [hsame] at ha
      exact Nat.lt_of_lt_of_le (h.old g a ha) hnext
  one := by
    have hback (g a : Nat) (hw : s'.Writer g a) : s.Writer g a := by
      obtain ⟨ha, hflag⟩ := hw
      rw [(hslot g).1] at hflag
      rcases (hslot g).2 with hnone | hsame
      · rw [hnone] at ha
        cases ha
      · rw [hsame] at ha
        exact ⟨ha, hflag⟩
    exact fun g g' a hg hg' => h.one g g' a (hback g a hg) (hback g' a hg')

/-- An open takes a slot; if it writes, its inode is new in memory or has no writer. -/
theorem WritersOk.sysOpen (h : WritersOk s)
    (hfree : ∀ g a, s.Writer g a → s.LeadsTo path a → creating flags = false →
      writable flags = true → ¬ s.SlotFree)
    (hret : Returns (sysOpen path flags) s r s') : WritersOk s' := by
  rcases sysOpen_opened h.cache hret with ⟨-, p, hheld⟩ | ⟨g, a, d, hopened⟩
  · apply h.drop hheld.ok hheld.next
    intro g
    rw [hheld.fileTable]
    exact ⟨rfl, Or.inr rfl⟩
  have hself : s'.fileTable g = { fdPos := 0, fdFlag := flags, fdInode := some a } := by
    rw [hopened.file, Function.update_self]
  have hother (i : Nat) (hi : i ≠ g) : s'.fileTable i = s.fileTable i := by
    rw [hopened.file, Function.update_of_ne hi]
  have hslot : s.SlotFree := by
    rw [Fs.SlotFree, hopened.free]
    simp
  -- where the new slot writes, no other one writes to its inode
  have halone (hwrite : writable flags = true) (i : Nat) (hi : i ≠ g) : ¬ s'.Writer i a := by
    rintro ⟨hia, hflag⟩
    rw [hother i hi] at hia hflag
    rcases hopened.origin with hnew | ⟨n, rec, s₁, hfinds, hcreate, hcached⟩
    · have := h.old i a hia
      omega
    · exact hfree i a ⟨hia, hflag⟩ ⟨n, rec, s₁, hfinds, hcached⟩ hcreate hwrite hslot
  have hback (i b : Nat) (hi : i ≠ g) (hw : s'.Writer i b) : s.Writer i b := by
    rw [Fs.Writer, hother i hi] at hw
    exact hw
  refine ⟨hopened.refs.ok, fun i => ?_, fun i b hb => ?_, fun i j b hi hj => ?_⟩
  · by_cases hi : i = g
    · have := hopened.small
      rw [hi, hself]
      show flags ≠ 65535
      omega
    · rw [hother i hi]
      exact h.no_pipe i
  · by_cases hi : i = g
    · -- the inode in the new slot has a reference, so it is in memory
      rw [hi, hself] at hb
      obtain rfl := Option.some.inj hb
      have h1 := hopened.refs.cnt a
      have h2 := hopened.one
      apply hopened.refs.ok.inode_lt a
      intro hnone
      rw [Fs.openCnt_none hnone] at h1
      omega
    · rw [hother i hi] at hb
      exact Nat.lt_of_lt_of_le (h.old i b hb) hopened.refs.next
  · by_cases hig : i = g
    · by_cases hjg : j = g
      · rw [hig, hjg]
      · have hw : writable flags = true := by
          have := hi.2
          rw [hig, hself] at this
          exact this
        have hb : a = b := by
          have := hi.1
          rw [hig, hself] at this
          exact Option.some.inj this
        rw [← hb] at hj
        exact absurd hj (halone hw j hjg)
    · by_cases hjg : j = g
      · have hw : writable flags = true := by
          have := hj.2
          rw [hjg, hself] at this
          exact this
        have hb : a = b := by
          have := hj.1
          rw [hjg, hself] at this
          exact Option.some.inj this
        rw [← hb] at hi
        exact absurd hi (halone hw i hig)
      · exact h.one i j b (hback i b hig hi) (hback j b hjg hj)

theorem WritersOk.sysClose (h : WritersOk s) {fd : Fin 8} (hfd : 3 ≤ fd)
    (hret : Returns (sysClose fd.val) s r s') : WritersOk s' := by
  obtain ⟨g, a, -, -, -, hrefs, -, hfile, -, -⟩ := sysClose_file h.cache h.no_pipe hfd hret
  apply h.drop hrefs.ok hrefs.next
  intro i
  rw [hfile]
  by_cases hi : i = g
  · subst hi
    rw [Function.update_self]
    exact ⟨rfl, Or.inl rfl⟩
  · rw [Function.update_of_ne hi]
    exact ⟨rfl, Or.inr rfl⟩

theorem WritersOk.releaseFds {fds : List (Fin 8)} (h : WritersOk s) (hfds : ∀ fd ∈ fds, 3 ≤ fd)
    (hret : Returns (releaseFds fds) s () s') : WritersOk s' := by
  induction fds generalizing s with
  | nil =>
    obtain ⟨-, rfl⟩ := returns_pure.mp hret
    exact h
  | cons fd rest ih =>
    simp only [ZxyOs.releaseFds, returns_bind] at hret
    obtain ⟨_, s₁, hturn, hrest⟩ := hret
    apply ih _ (fun fd' hfd' => hfds fd' (List.mem_cons_of_mem _ hfd')) hrest
    rcases releaseFd_cases hturn with ⟨-, rfl⟩ | ⟨g, -, ⟨hpipe, -⟩ | ⟨-, r, hclose⟩⟩
    · exact h
    · exact absurd hpipe (h.no_pipe g)
    · exact h.sysClose (hfds fd List.mem_cons_self) hclose

theorem WritersOk.sysFork {child : Nat} (h : WritersOk s) (hret : Returns (sysFork child) s () s') :
    WritersOk s' := by
  simp only [ZxyOs.sysFork, returns_bind, returns_runningThread, returns_update] at hret
  obtain ⟨k, _, ⟨-, rfl⟩, _, _, rfl, hret⟩ := hret
  have hcache : (s.setTask child k).CacheOk := (RefsBy.setTask h.cache).ok
  obtain ⟨d, hrefs, -, hfile, -, -, -⟩ := updateInodeOpenCnts_refs hcache h.no_pipe hret
  apply h.drop hrefs.ok hrefs.next
  intro g
  rw [hfile]
  exact ⟨rfl, Or.inr rfl⟩

/-! ### What keeps a second writer out -/

/-- A slot that writes, one of `but` apart, holds an inode that denies writing. -/
def Denying (s : Fs) (but : Nat → Prop) : Prop :=
  ∀ g a v, s.Writer g a → s.inodes a = some v → ¬ but g → v.writeDeny = true

variable {but : Nat → Prop} {d : Nat → Int}

/-- The inode of a slot that has been there before goes on denying writing. -/
theorem Denying.carry (h : Denying s but) (hok : WritersOk s) (hrefs : RefsBy s s' d)
    (hkept : DenyKept s s') {v : Inode} (hw : s.Writer g a) (hv : s'.inodes a = some v)
    (hbut : ¬ but g) : v.writeDeny = true := by
  have hlt := hok.old g a hw.1
  cases hmid : s.inodes a with
  | none =>
    rw [hrefs.gone a hlt hmid] at hv
    cases hv
  | some w => exact hkept a w v hmid hv (h g a w hw hmid hbut)

/-- A file that is opened for writing denies it from then on; one that is created does not. -/
theorem Denying.sysOpen (h : Denying s fun _ => False) (hok : WritersOk s)
    (hnew : creating flags = true → writable flags = true →
      (∃ rec s₁, s.Finds path none rec s₁) → ¬ s.SlotFree)
    (hret : Returns (sysOpen path flags) s r s') : Denying s' fun _ => False := by
  intro i b v hw hv hbut
  rcases sysOpen_opened hok.cache hret with ⟨-, p, hheld⟩ | ⟨g, a, d, hopened⟩
  · rw [Fs.Writer, hheld.fileTable] at hw
    exact h.carry hok hheld.toRefsBy hheld.toCacheStep.denyKept hw hv hbut
  · by_cases hi : i = g
    · -- the slot that has been taken
      rw [Fs.Writer, hopened.file, hi, Function.update_self] at hw
      obtain ⟨hb, hwrite⟩ := hw
      obtain rfl := Option.some.inj hb
      have hslot : s.SlotFree := by
        rw [Fs.SlotFree, hopened.free]
        simp
      by_cases hcreate : creating flags = true
      · exact absurd hslot (hnew hcreate hwrite (hopened.created hcreate))
      · rw [Bool.not_eq_true] at hcreate
        exact hopened.denies hcreate hwrite v hv
    · rw [Fs.Writer, hopened.file, Function.update_of_ne hi] at hw
      exact h.carry hok hopened.refs hopened.kept hw hv hbut

/-- `sys_close` makes the inode of the descriptor writable again, and its slot is cleared. -/
theorem Denying.sysClose {but' : Nat → Prop} (h : Denying s but) (hok : WritersOk s) {fd : Fin 8}
    (hfd : 3 ≤ fd) (halone : ∀ g a g' : Nat, s.fdAt s.cur fd = g → (s.fileTable g).fdInode = some a →
      s.Writer g' a → g' ≠ g → but' g')
    (hbut : ∀ g' : Nat, but g' → s.fdAt s.cur fd ≠ g' → but' g')
    (hret : Returns (sysClose fd.val) s r s') : Denying s' but' := by
  intro g' b v hw hv hnot
  obtain ⟨g, a, hat, -, ha, hrefs, hdeny, hfile, -, -⟩ := sysClose_file hok.cache hok.no_pipe hfd hret
  rw [Fs.Writer, hfile] at hw
  by_cases hg : g' = g
  · rw [hg, Function.update_self] at hw
    cases hw.1
  · rw [Function.update_of_ne hg] at hw
    by_cases hb : b = a
    · rw [hb] at hw
      exact absurd (halone g a g' hat ha hw hg) hnot
    · have hlt := hok.old g' b hw.1
      cases hmid : s.inodes b with
      | none =>
        rw [hrefs.gone b hlt hmid] at hv
        cases hv
      | some w =>
        rw [hdeny b hb w v hmid hv]
        have hstill : ¬ but g' := by
          intro hyes
          refine hnot (hbut g' hyes fun hsame => hg ?_)
          omega
        exact h g' b w hw hmid hstill

/-- The slots of the descriptors `fds` of the running process. -/
def Fs.SlotOf (s : Fs) (fds : List (Fin 8)) (g : Nat) : Prop := ∃ fd ∈ fds, s.fdAt s.cur fd = g

/-- Who writes to the file of a descriptor in `fds` has its slot from one of `fds`. -/
def Fs.WritesOwn (s : Fs) (fds : List (Fin 8)) : Prop :=
  ∀ fd ∈ fds, ∀ g a g' : Nat, s.fdAt s.cur fd = g → (s.fileTable g).fdInode = some a →
    s.Writer g' a → s.SlotOf fds g'

/-- The loop of `sys_exit`: the slots that are still to be closed need not deny writing. -/
theorem Denying.releaseFds {fds : List (Fin 8)} (h : Denying s (s.SlotOf fds)) (hok : WritersOk s)
    (hfds : ∀ fd ∈ fds, 3 ≤ fd) (hnodup : fds.Nodup) (hown : s.WritesOwn fds)
    (hret : Returns (releaseFds fds) s () s') : Denying s' fun _ => False := by
  induction fds generalizing s with
  | nil =>
    obtain ⟨-, rfl⟩ := returns_pure.mp hret
    intro g a v hw hv hbut
    exact h g a v hw hv (by simp [Fs.SlotOf])
  | cons fd rest ih =>
    obtain ⟨hnot, hnodup⟩ := List.nodup_cons.mp hnodup
    simp only [ZxyOs.releaseFds, returns_bind] at hret
    obtain ⟨_, s₁, hturn, hrest⟩ := hret
    have h3 : 3 ≤ fd := hfds fd List.mem_cons_self
    have hfds' (e : Fin 8) (he : e ∈ rest) : 3 ≤ e := hfds e (List.mem_cons_of_mem _ he)
    rcases releaseFd_cases hturn with ⟨hnone, rfl⟩ | ⟨g, hat, ⟨hpipe, -⟩ | ⟨-, r, hclose⟩⟩
    · -- the descriptor is not in use, and no slot is at its number
      have hslots (g : Nat) (hg : s.SlotOf (fd :: rest) g) : s.SlotOf rest g := by
        obtain ⟨e, he, hat⟩ := hg
        rcases List.mem_cons.mp he with rfl | he
        · omega
        · exact ⟨e, he, hat⟩
      refine ih (fun g a v hw hv hbut => h g a v hw hv fun hg => hbut (hslots g hg)) hok hfds' hnodup
        (fun e he g a g' hat ha hw => ?_) hrest
      exact hslots g' (hown e (List.mem_cons_of_mem _ he) g a g' hat ha hw)
    · exact absurd hpipe (hok.no_pipe g)
    · obtain ⟨g₁, -, hat₁, -, -, -, -, hslot, hcur, hkeep⟩ :=
        sysClose_file hok.cache hok.no_pipe h3 hclose
      obtain rfl : g = g₁ := by omega
      -- what is left of the slots once `g` is closed
      have hslots (g' : Nat) (hg' : s.SlotOf (fd :: rest) g') (hne : g' ≠ g) : s₁.SlotOf rest g' := by
        obtain ⟨e, he, hat'⟩ := hg'
        rcases List.mem_cons.mp he with rfl | he
        · omega
        · refine ⟨e, he, ?_⟩
          rw [hcur, hkeep (s.cur, e) fun heq => hnot ((Prod.mk.inj heq).2 ▸ he)]
          exact hat'
      have hback (g' b : Nat) (hw : s₁.Writer g' b) : g' ≠ g ∧ s.Writer g' b := by
        rw [Fs.Writer, hslot] at hw
        by_cases hg : g' = g
        · rw [hg, Function.update_self] at hw
          cases hw.1
        · rw [Function.update_of_ne hg] at hw
          exact ⟨hg, hw⟩
      refine ih ?_ (hok.sysClose h3 hclose) hfds' hnodup ?_ hrest
      · apply h.sysClose hok h3 _ _ hclose
        · intro g₀ b g' hat₀ hb hw hne
          exact hslots g' (hown fd List.mem_cons_self g₀ b g' hat₀ hb hw) (by omega)
        · intro g' hg' hne
          exact hslots g' hg' fun heq => hne (by omega)
      · intro e he g₀ b g' hat₀ hb hw
        obtain ⟨hne, hw⟩ := hback g' b hw
        rw [hcur, hkeep (s.cur, e) fun heq => hnot ((Prod.mk.inj heq).2 ▸ he)] at hat₀
        have hg₀ : g₀ ≠ g := by
          rintro rfl
          rw [hslot, Function.update_self] at hb
          cases hb
        rw [hslot, Function.update_of_ne hg₀] at hb
        exact hslots g' (hown e (List.mem_cons_of_mem _ he) g₀ b g' hat₀ hb hw) hne

theorem Denying.sysFork {child : Nat} (h : Denying s but) (hok : WritersOk s)
    (hret : Returns (sysFork child) s () s') : Denying s' but := by
  simp only [ZxyOs.sysFork, returns_bind, returns_runningThread, returns_update] at hret
  obtain ⟨k, _, ⟨-, rfl⟩, _, _, rfl, hret⟩ := hret
  have hcopy : RefsBy s (s.setTask child k) 0 := RefsBy.setTask hok.cache
  obtain ⟨d, hrefs, -, hfile, -, -, hkept⟩ := updateInodeOpenCnts_refs hcopy.ok hok.no_pipe hret
  intro g a v hw hv hbut
  rw [Fs.Writer, hfile] at hw
  have hkept' : DenyKept s s' := DenyKept.trans hok.cache hcopy hrefs (.of_inodes rfl) hkept
  exact h.carry hok (hcopy.trans hok.cache hrefs) hkept' hw hv hbut

end Writers

namespace FileWorld

/-- No file is created for writing, none that has a slot which writes is opened for it
    (unless every slot is taken), and nobody closes a descriptor of a file while another
    slot writes to it, `sys_exit` all of its own. -/
def WritesOnce (d : FileWorld) (e : Nat × FileCall) : Prop :=
  let s : Fs := { d.fs with cur := e.1 }
  match e.2 with
  | .openFile path flags => writable flags = true → s.SlotFree →
      (creating flags = true → ¬ ∃ rec s₁, s.Finds path none rec s₁) ∧
      (creating flags = false → ∀ g a, s.Writer g a → ¬ s.LeadsTo path a)
  | .fork _ => True
  | .close fd => ∀ f : Fin 8, f.val = fd → 3 ≤ f → ∀ g a g' : Nat, s.fdAt e.1 f = g →
      (s.fileTable g).fdInode = some a → s.Writer g' a → g' = g
  | .exit => s.WritesOwn localFds

section Writers

variable {d d' : FileWorld} {e : Nat × FileCall}

theorem Initial.writersOk (h : d.Initial) : WritersOk d.fs where
  cache := h.cache
  no_pipe := fun g => (h.free g).2
  old := by
    intro g a ha
    rw [(h.free g).1] at ha
    cases ha
  one := by
    intro g g' a hg
    have ha := hg.1
    rw [(h.free g).1] at ha
    cases ha

theorem Initial.denying (h : d.Initial) : Denying d.fs fun _ => False := by
  intro g a v hw
  have ha := hw.1
  rw [(h.free g).1] at ha
  cases ha

theorem writersOk_withCur {s : Fs} (h : WritersOk s) (t : Nat) : WritersOk { s with cur := t } :=
  ⟨⟨h.cache.nodup, h.cache.mem, h.cache.pos, h.cache.inode_lt, h.cache.dir_lt⟩, h.no_pipe, h.old, h.one⟩

theorem step_writersOk (h : WritersOk d.fs) (hdeny : Denying d.fs fun _ => False)
    (hkept : d.WritesOnce e) (hstep : d.Step e d') :
    WritersOk d'.fs ∧ Denying d'.fs fun _ => False := by
  obtain ⟨t, call⟩ := e
  obtain ⟨-, -, r, hret, -⟩ := hstep
  have hcur := writersOk_withCur h t
  have hdeny' : Denying { d.fs with cur := t } fun _ => False := hdeny
  cases call with
  | openFile path flags =>
    constructor
    · exact hcur.sysOpen (fun g a hw hleads hno hwrite hfree => (hkept hwrite hfree).2 hno g a hw hleads)
        hret
    · exact hdeny'.sysOpen hcur (fun hyes hwrite hfinds hfree => (hkept hwrite hfree).1 hyes hfinds) hret
  | fork child =>
    simp only [FileCall.code, returns_bind, returns_pure] at hret
    obtain ⟨_, _, hret, -, rfl⟩ := hret
    exact ⟨hcur.sysFork hret, hdeny'.sysFork hcur hret⟩
  | close fd =>
    simp only [FileCall.code] at hret
    by_cases hfd : fd > 2
    · obtain ⟨f, h3, rfl⟩ := fin_of_sysClose hfd hret
      refine ⟨hcur.sysClose h3 hret, hdeny'.sysClose hcur h3 (fun g a g' hat ha hw hne => ?_)
        (fun _ hno _ => hno) hret⟩
      exact hne (hkept f rfl h3 g a g' hat ha hw)
    · rw [sysClose, if_neg hfd] at hret
      obtain ⟨-, hs⟩ := returns_pure.mp hret
      rw [← hs]
      exact ⟨hcur, hdeny'⟩
  | exit =>
    simp only [FileCall.code, sysExit, returns_bind, returns_update, returns_pure] at hret
    obtain ⟨_, _, ⟨_, s₁, hloop, hgone⟩, -, hs⟩ := hret
    have h3 (fd : Fin 8) (hfd : fd ∈ localFds) : 3 ≤ fd := (mem_localFds fd).mp hfd
    have hok := hcur.releaseFds h3 hloop
    have hall : Denying { d.fs with cur := t } (Fs.SlotOf { d.fs with cur := t } localFds) :=
      fun g a v hw hv _ => hdeny' g a v hw hv id
    have hdeny₁ := hall.releaseFds hcur h3 (by decide) hkept hloop
    rw [← hs, ← hgone]
    exact ⟨⟨⟨hok.cache.nodup, hok.cache.mem, hok.cache.pos, hok.cache.inode_lt, hok.cache.dir_lt⟩,
      hok.no_pipe, hok.old, hok.one⟩, hdeny₁⟩

end Writers

end FileWorld

/-- No file has two slots that write, and who opens a file that has one for writing is
    turned away. -/
theorem single_writer (d₀ d : FileWorld) (h₀ : d₀.Initial)
    (hrun : FileWorld.Run FileWorld.WritesOnce d₀ d) :
    (∀ g g' a, d.fs.Writer g a → d.fs.Writer g' a → g = g') ∧
    ∀ t path flags r s' g a, Returns (sysOpen path flags) { d.fs with cur := t } r s' →
      d.fs.Writer g a → Fs.LeadsTo { d.fs with cur := t } path a → writable flags = true → r = -1 := by
  obtain ⟨hok, hdeny⟩ : WritersOk d.fs ∧ Denying d.fs fun _ => False :=
    hrun.invariant ⟨h₀.writersOk, h₀.denying⟩ fun d e d' h hkept hstep =>
      FileWorld.step_writersOk h.1 h.2 hkept hstep
  refine ⟨hok.one, fun t path flags r s' g a hret hw hleads hwrite => ?_⟩
  obtain ⟨n, rec, s₁, hfinds, hcached⟩ := hleads
  have hcur := FileWorld.writersOk_withCur hok t
  have hdeny' : Denying { d.fs with cur := t } fun _ => False := hdeny
  rcases sysOpen_cases hcur.cache hret with ⟨rfl, -⟩ | ⟨rec', s₁', s₂, hfinds', -⟩ |
    ⟨n', rec', s₁', hfinds', -, -, hheld, hopen⟩
  · rfl
  · cases (hfinds.unique hfinds').1
  · obtain ⟨hn, -, rfl⟩ := hfinds.unique hfinds'
    obtain rfl := Option.some.inj hn
    rcases fileOpen_cases hopen with ⟨-, rfl, -⟩ | ⟨g', a', t', v, -, -, -, ⟨-, -, rfl, -⟩ | ⟨hnot, -⟩⟩
    · rfl
    · rfl
    · -- the cached inode denies writing
      obtain ⟨-, v', hv', -⟩ := Fs.cached_some hcached
      have hdenied : s₁.deniesWrite n = true := by
        rw [Fs.deniesWrite, hcached]
        show (s₁.inodes a).any Inode.writeDeny = true
        rw [hv', Option.any_some]
        exact hdeny'.carry hcur hheld.toRefsBy hheld.toCacheStep.denyKept hw hv' id
      exact absurd ⟨hwrite, hdenied⟩ hnot

/-- Process 0 opens the file for writing; no second slot writes to it, and it is not opened
    for writing again. -/
theorem single_writer_open : ∃ d : FileWorld, d.fs.Writer 3 3 ∧
    (∀ g g' a, d.fs.Writer g a → d.fs.Writer g' a → g = g') ∧
    ∀ t path flags r s' g a, Returns (sysOpen path flags) { d.fs with cur := t } r s' →
      d.fs.Writer g a → Fs.LeadsTo { d.fs with cur := t } path a → writable flags = true → r = -1 := by
  have hend : (smallWorld.after? (0, .openFile SmallTree.flatPath 2)).map
      (fun d => ((d.fs.fileTable 3).fdInode, writable (d.fs.fileTable 3).fdFlag)) =
      some (some 3, true) := by
    decide +kernel
  obtain ⟨d, hd, hval⟩ := Option.map_eq_some_iff.mp hend
  simp only [Prod.mk.injEq] at hval
  have honce : smallWorld.WritesOnce (0, .openFile SmallTree.flatPath 2) := by
    intro _ _
    refine ⟨fun hcreate => absurd hcreate (by decide), fun _ g a hw => ?_⟩
    cases hw.1
  have hrun : FileWorld.Run FileWorld.WritesOnce smallWorld d :=
    .next (0, .openFile SmallTree.flatPath 2) .start honce (FileWorld.step_of_after? hd)
  exact ⟨d, hval, single_writer smallWorld d smallWorld_initial hrun⟩

/-- Process 0 creates a file for reading and writing and opens it again. -/
theorem created_file_has_two_writers : ∃ d : FileWorld, smallWorld.Initial ∧
    FileWorld.Run (fun _ _ => True) smallWorld d ∧ d.fs.Writer 3 4 ∧ d.fs.Writer 4 4 := by
  have hend : ([(0, .openFile [slash, 104] 6), (0, .openFile [slash, 104] 2)].foldlM
      FileWorld.after? smallWorld).map (fun d =>
        (((d.fs.fileTable 3).fdInode, writable (d.fs.fileTable 3).fdFlag),
          ((d.fs.fileTable 4).fdInode, writable (d.fs.fileTable 4).fdFlag))) =
      some ((some 4, true), (some 4, true)) := by
    decide +kernel
  obtain ⟨d, hd, hval⟩ := Option.map_eq_some_iff.mp hend
  simp only [Prod.mk.injEq] at hval
  exact ⟨d, smallWorld_initial,
    .of_foldlM (fun _ _ _ h => ⟨trivial, FileWorld.step_of_after? h⟩) hd, hval.1, hval.2⟩

end ZxyOs
