/-
  ZxyOs.Fs.OpenBalance

  Which calls on paths leave the references to the inodes as they found them.

  `sys_unlink`, `sys_mkdir`, `sys_rmdir`, `sys_chdir`, `sys_stat` and `sys_opendir` close
  on every way out what they have opened on the way in.  `sys_open` does so except where
  it hands the file to `file_open`, which has nobody close the directory the file is in,
  and where `file_open` or `file_create` fails after the inode has been taken.
-/

import ZxyOs.Fs.OpenCases

namespace ZxyOs

open Lib Lib.Exec

section Balance

variable {s s' s₁ s₂ s₃ s₄ : Fs} {p q : DirPtr} {u : Unit} {path : CStr}

/-! ## Releasing an inode -/

/-- `inode_release` opens and closes the inode it releases. -/
theorem inodeRelease_holds {n : Nat} (hok : s.CacheOk) (h : Returns (inodeRelease n) s u s') :
    HoldsDir s s' .root := by
  simp only [inodeRelease, returns_bind, returns_getInode, returns_assert] at h
  obtain ⟨a, s₁, hopen, v, _, ⟨-, rfl⟩, _, _, ⟨-, rfl⟩, h⟩ := h
  obtain ⟨hstep, hdirs, -⟩ := inodeOpen_step hok hopen
  -- what follows the reading of the index table
  have hlast (t : Fs) (allBlocks : Nat → Nat) (ht : CacheFrame s₁ t) (h : Returns (do
      releaseBlocks allBlocks 139 0
      inodeMapSet n false
      bitmapSync n .inodeBitmap
      let ioBuf ← sysMalloc
      fits (ioBuf ≠ none)
      inodeDelete n 1024
      sysFree ioBuf
      inodeClose a) t u s') : HoldsDir s s' .root := by
    simp only [returns_bind, returns_fits] at h
    obtain ⟨_, s₃, hblocks, _, s₄, hset, _, s₅, hsync, r, s₆, hmalloc, _, _, ⟨-, rfl⟩, _, s₇, hdelete,
      _, s₈, hfree, hclose⟩ := h
    have hframe : CacheFrame s₁ s₈ :=
      ((((((ht.trans (keeps_releaseBlocks _ _ hblocks)).trans (keeps_inodeMapSet hset)).trans
        (keeps_bitmapSync hsync)).trans (keeps_sysMalloc hmalloc)).trans
          (keeps_inodeDelete hdelete)).trans (keeps_sysFree hfree))
    have hstep₈ := hframe.step hstep.ok
    obtain ⟨hclosed, hdirs'⟩ := inodeClose_step hstep₈.ok hclose
    have hall := (hstep.trans hok hstep₈).trans hok hclosed
    rw [add_zero, add_neg_cancel] at hall
    refine ⟨hall, fun e _ => ?_, by simp⟩
    rw [hdirs', hframe.dirs, hdirs]
  split at h
  · simp only [returns_bind (x := ideRead _ _ _), returns_bind (x := releaseBlock _)] at h
    obtain ⟨tbl, t, hread, _, t', hrelease, h⟩ := h
    exact hlast t' _ ((keeps_ideRead (R := CacheFrame) hread).trans (keeps_releaseBlock hrelease)) h
  · exact hlast s₁ _ (refl_of CacheFrame s₁) h

theorem keeps_findOpenFile {iNo : Nat} (n fd : Nat) : Keeps CacheFrame (findOpenFile iNo n fd) := by
  induction n generalizing fd with
  | zero => exact keeps_pure _
  | succ n ih =>
    simp only [findOpenFile]
    refine (keeps_query _).bind fun s => ?_
    split
    · exact ih _
    · split
      · exact ih _
      · refine keeps_getInode.bind fun v => ?_
        split
        · exact keeps_pure _
        · exact ih _

/-! ## The calls that are balanced -/

theorem sysUnlink_holds {r : Int} (hok : s.CacheOk) (h : Returns (sysUnlink path) s r s') :
    HoldsDir s s' .root := by
  simp only [sysUnlink, returns_bind, returns_assert] at h
  obtain ⟨_, _, ⟨-, rfl⟩, ⟨iNo, rec⟩, s₁, hsearch, _, _, ⟨-, rfl⟩, h⟩ := h
  have hheld := searchFile_holds hok hsearch
  cases iNo with
  | none =>
    simp only [returns_bind, returns_pure] at h
    obtain ⟨_, _, hclose, -, rfl⟩ := h
    exact hheld.close hok hclose
  | some n =>
    dsimp only at h hheld
    split at h
    · simp only [returns_bind, returns_pure] at h
      obtain ⟨_, _, hclose, -, rfl⟩ := h
      exact hheld.close hok hclose
    · simp only [returns_bind] at h
      obtain ⟨fd, s₂, hfind, h⟩ := h
      have hheld₂ := hheld.frame hok (keeps_findOpenFile _ _ hfind)
      split at h
      · simp only [returns_bind, returns_pure] at h
        obtain ⟨_, _, hclose, -, rfl⟩ := h
        exact hheld₂.close hok hclose
      · simp only [returns_bind] at h
        obtain ⟨ioBuf, s₃, hmalloc, h⟩ := h
        have hheld₃ := hheld₂.frame hok (keeps_sysMalloc hmalloc)
        split at h
        · simp only [returns_bind, returns_pure] at h
          obtain ⟨_, _, hclose, -, rfl⟩ := h
          exact hheld₃.close hok hclose
        · -- the entry and the inode are removed under the open directory
          simp only [returns_bind, returns_pure] at h
          obtain ⟨_, s₄, hdelete, _, s₅, hrelease, _, s₆, hfree, _, _, hclose, -, rfl⟩ := h
          have hheld₄ := hheld₃.frame hok (keeps_deleteDirEntry hdelete)
          have hheld₅ := hheld₄.before hok (inodeRelease_holds hheld₄.ok hrelease)
          exact (hheld₅.frame hok (keeps_sysFree hfree)).close hok hclose

/-- `sys_mkdir` once it has a number: the parent is closed at the end. -/
theorem mkdirInstall_holds {rec : PathSearchRecord} {ioBuf : Option Nat} {iNo : Nat} {r : Int}
    (hok : s.CacheOk) (hheld : HoldsDir s s₁ rec.parentDir)
    (h : Returns (mkdirInstall rec ioBuf iNo) s₁ r s') : HoldsDir s s' .root := by
  simp only [mkdirInstall, returns_bind, returns_query] at h
  obtain ⟨_, _, ⟨rfl, rfl⟩, blockLba, s₂, halloc, h⟩ := h
  have hheld₂ := hheld.frame hok (keeps_blockBitmapAlloc halloc)
  cases blockLba with
  | none =>
    simp only [returns_bind, returns_pure] at h
    obtain ⟨_, s₃, hset, _, s₄, hclose, _, s₅, hfree, -, rfl⟩ := h
    have hclosed := (hheld₂.frame hok (keeps_inodeMapSet hset)).close hok hclose
    exact hclosed.frame hok (keeps_sysFree hfree)
  | some lba =>
    simp only [returns_bind, returns_assert, returns_pure] at h
    obtain ⟨_, _, ⟨-, rfl⟩, _, s₃, hsync, a, s₄, hinode, parent, s₅, hget, _, s₆, hwrite, e, s₇, hentry,
      _, s₈, hinsert, parent', s₉, hget', _, s₁₀, hsync', _, s₁₁, hsync'', _, s₁₂, hbits, _, s₁₃, hfree,
      _, s₁₄, hclose, -, rfl⟩ := h
    have hframe : CacheFrame s₂ s₁₃ :=
      ((((((((((keeps_bitmapSync (R := CacheFrame) hsync).trans (keeps_dirInode hinode)).trans
        (keeps_getInode hget)).trans (keeps_ideWrite hwrite)).trans (keeps_createDirEntry hentry)).trans
        (keeps_syncDirEntry hinsert)).trans (keeps_getInode hget')).trans (keeps_inodeSync hsync')).trans
        (keeps_inodeSync hsync'')).trans (keeps_bitmapSync hbits)).trans (keeps_sysFree hfree)
    exact (hheld₂.frame hok hframe).close hok hclose

theorem sysMkdir_holds {r : Int} (hok : s.CacheOk) (h : Returns (sysMkdir path) s r s') :
    HoldsDir s s' .root := by
  simp only [sysMkdir, returns_bind] at h
  obtain ⟨ioBuf, s₁, hmalloc, h⟩ := h
  have hstart := (keeps_sysMalloc (R := CacheFrame) hmalloc).holds hok
  split at h
  · obtain ⟨-, rfl⟩ := returns_pure.mp h
    exact hstart
  · simp only [returns_bind] at h
    obtain ⟨⟨iNo, rec⟩, s₂, hsearch, h⟩ := h
    have hheld : HoldsDir s s₂ rec.parentDir := hstart.after hok (searchFile_holds hstart.ok hsearch)
    dsimp only at h
    -- the ways out before there is a number
    have hout (t : Fs) (ht : HoldsDir s t rec.parentDir) (h : Returns (do
        dirClose rec.parentDir
        sysFree ioBuf
        return (-1 : Int)) t r s') : HoldsDir s s' .root := by
      simp only [returns_bind, returns_pure] at h
      obtain ⟨_, _, hclose, _, _, hfree, -, rfl⟩ := h
      exact (ht.close hok hclose).frame hok (keeps_sysFree hfree)
    split at h
    · exact hout s₂ hheld h
    · simp only [returns_bind] at h
      obtain ⟨depth, s₃, hdepth, depth', s₄, hdepth', h⟩ := h
      obtain rfl := keeps_pathDepthCnt hdepth
      obtain rfl := keeps_pathDepthCnt hdepth'
      split at h
      · exact hout s₂ hheld h
      · simp only [returns_bind] at h
        obtain ⟨iNo, s₅, halloc, h⟩ := h
        have hheld₅ := hheld.frame hok (keeps_inodeBitmapAlloc halloc)
        cases iNo with
        | none => exact hout s₅ hheld₅ h
        | some iNo => exact mkdirInstall_holds hok hheld₅ h

theorem dirIsEmpty_frame {b : Bool} (h : Returns (dirIsEmpty p) s b s') : CacheFrame s s' :=
  (keeps_dirInode.bind fun _ => keeps_getInode.bind fun _ => (keeps_query _).bind fun _ =>
    keeps_pure _ : Keeps CacheFrame (dirIsEmpty p)) h

theorem dirRemove_holds {b : Bool} (hok : s.CacheOk) (h : Returns (dirRemove p q) s b s') :
    HoldsDir s s' .root := by
  simp only [dirRemove, returns_bind, returns_dirInode, returns_getInode, returns_assert,
    returns_query] at h
  obtain ⟨a, _, ⟨-, rfl⟩, v, _, ⟨-, rfl⟩, _, _, ⟨-, rfl⟩, _, _, ⟨rfl, rfl⟩, _, _, ⟨-, rfl⟩, ioBuf, s₁,
    hmalloc, h⟩ := h
  have hstart := (keeps_sysMalloc (R := CacheFrame) hmalloc).holds hok
  split at h
  · obtain ⟨-, rfl⟩ := returns_pure.mp h
    exact hstart
  · simp only [returns_bind, returns_getInode, returns_pure] at h
    obtain ⟨_, s₂, hdelete, v', _, ⟨-, rfl⟩, _, s₃, hrelease, _, s₄, hfree, -, rfl⟩ := h
    have hstart₂ := hstart.frame hok (keeps_deleteDirEntry hdelete)
    have hstart₃ := hstart₂.after hok (inodeRelease_holds hstart₂.ok hrelease)
    exact hstart₃.frame hok (keeps_sysFree hfree)

theorem sysRmdir_holds {r : Int} (hok : s.CacheOk) (h : Returns (sysRmdir path) s r s') :
    HoldsDir s s' .root := by
  simp only [sysRmdir, returns_bind, returns_assert] at h
  obtain ⟨⟨iNo, rec⟩, s₁, hsearch, _, _, ⟨-, rfl⟩, h⟩ := h
  have hheld : HoldsDir s s₁ rec.parentDir := searchFile_holds hok hsearch
  cases iNo with
  | none =>
    simp only [returns_bind, returns_pure] at h
    obtain ⟨_, _, ⟨-, rfl⟩, _, _, hclose, -, rfl⟩ := h
    exact hheld.close hok hclose
  | some n =>
    dsimp only at h
    split at h
    · simp only [returns_bind, returns_pure] at h
      obtain ⟨_, _, ⟨-, rfl⟩, _, _, hclose, -, rfl⟩ := h
      exact hheld.close hok hclose
    · -- the directory is opened, removed if it is empty, and closed
      simp only [returns_bind] at h
      obtain ⟨dir, t₁, hopen, empty, t₂, hempty, h⟩ := h
      have hdir := (dirOpen_holds hheld.ok hopen).1.frame hheld.ok (dirIsEmpty_frame hempty)
      cases empty with
      | false =>
        simp only [Bool.not_false, if_true, returns_bind, returns_pure] at h
        obtain ⟨_, _, ⟨-, rfl⟩, _, t₃, hclosed, _, _, ⟨-, rfl⟩, _, _, hclose, -, rfl⟩ := h
        exact (hheld.before hok (hdir.close hheld.ok hclosed)).close hok hclose
      | true =>
        simp only [Bool.not_true, Bool.false_eq_true, if_false, returns_bind, returns_pure] at h
        obtain ⟨done, t₃, hremove, _, _, ⟨-, rfl⟩, _, t₄, hclosed, _, _, ⟨-, rfl⟩, _, _, hclose, -,
          rfl⟩ := h
        have hremoved := (hdir.before hheld.ok (dirRemove_holds hdir.ok hremove)).close hheld.ok hclosed
        exact (hheld.before hok hremoved).close hok hclose

theorem sysStat_holds {r : Option Stat} (hok : s.CacheOk) (h : Returns (sysStat path) s r s') :
    HoldsDir s s' .root := by
  simp only [sysStat] at h
  split at h
  · simp only [returns_bind, returns_dirInode, returns_getInode, returns_pure] at h
    obtain ⟨a, _, ⟨-, rfl⟩, v, _, ⟨-, rfl⟩, -, rfl⟩ := h
    exact (refl_of CacheFrame s).holds hok
  · simp only [returns_bind] at h
    obtain ⟨⟨iNo, rec⟩, s₁, hsearch, h⟩ := h
    have hheld : HoldsDir s s₁ rec.parentDir := searchFile_holds hok hsearch
    cases iNo with
    | none =>
      simp only [returns_bind, returns_pure] at h
      obtain ⟨_, _, ⟨-, rfl⟩, _, _, hclose, -, rfl⟩ := h
      exact hheld.close hok hclose
    | some n =>
      simp only [returns_bind, returns_getInode, returns_pure] at h
      obtain ⟨a, t₁, hopen, v, _, ⟨-, rfl⟩, _, t₂, hclosed, _, _, ⟨-, rfl⟩, _, _, hclose, -, rfl⟩ := h
      obtain ⟨hstep, hdirs, -⟩ := inodeOpen_step hheld.ok hopen
      obtain ⟨hstep', hdirs'⟩ := inodeClose_step hstep.ok hclosed
      have hall := hstep.trans hheld.ok hstep'
      rw [add_neg_cancel] at hall
      have hbalanced : HoldsDir s₁ t₂ .root := by
        refine ⟨hall, fun e _ => ?_, by simp⟩
        rw [hdirs', hdirs]
      exact (hheld.before hok hbalanced).close hok hclose

/-- A handle is closed under another one. -/
theorem HoldsDir.closeUnder (hok : s₁.CacheOk) (hp : HoldsDir s₁ s₂ p) (hq : HoldsDir s₂ s₃ q)
    (hclose : Returns (dirClose p) s₃ u s₄) : HoldsDir s₁ s₄ q := by
  obtain ⟨hstep, hdirs, hnone⟩ := dirClose_step hq.ok hclose
  have hne (e : Nat) (he : q = .heap e) : p ≠ .heap e := by
    rintro rfl
    have hlt := hp.ok.dir_lt e (hp.fresh e rfl).2
    have := (hq.fresh e he).1
    omega
  have hrefp : s₃.dirRef p = s₂.dirRef p := by
    cases p with
    | root => rfl
    | heap d => simp only [Fs.dirRef, hq.dirs d fun hd => hne d hd rfl]
  have hrefq : s₄.dirRef q = s₃.dirRef q := by
    cases q with
    | root => rfl
    | heap e => simp only [Fs.dirRef, hdirs e (hne e rfl)]
  have hall := (hp.toCacheStep.trans hok hq.toCacheStep).trans hok hstep
  rw [hrefp, add_neg_cancel_comm, ← hrefq] at hall
  refine ⟨hall, fun e he => ?_, fun d hd => ?_⟩
  · by_cases hpe : p = .heap e
    · rw [hnone e hpe]
      by_contra hsome
      have hlt := hok.dir_lt e (Ne.symm hsome)
      have := (hp.fresh e hpe).1
      omega
    · rw [hdirs e hpe, hq.dirs e he, hp.dirs e hpe]
  · obtain ⟨hle, hsome⟩ := hq.fresh d hd
    rw [hdirs d (hne d hd)]
    exact ⟨hp.next.trans hle, hsome⟩

/-- `sys_opendir` leaves the handle open that it returns. -/
theorem sysOpendir_holds {r : Option DirPtr} (hok : s.CacheOk)
    (h : Returns (sysOpendir path) s r s') : HoldsDir s s' (r.getD .root) := by
  simp only [sysOpendir, returns_bind, returns_assert] at h
  obtain ⟨_, _, ⟨-, rfl⟩, h⟩ := h
  split at h
  · obtain ⟨rfl, rfl⟩ := returns_pure.mp h
    exact (refl_of CacheFrame s).holds hok
  · simp only [returns_bind] at h
    obtain ⟨⟨iNo, rec⟩, s₁, hsearch, h⟩ := h
    have hheld : HoldsDir s s₁ rec.parentDir := searchFile_holds hok hsearch
    have hnull (h : Returns (do
        let ret ← pure none
        dirClose rec.parentDir
        return ret : FsM (Option DirPtr)) s₁ r s') : HoldsDir s s' (r.getD .root) := by
      simp only [returns_bind, returns_pure] at h
      obtain ⟨_, _, ⟨rfl, rfl⟩, _, _, hclose, rfl, rfl⟩ := h
      exact hheld.close hok hclose
    cases iNo with
    | none => exact hnull h
    | some n =>
      dsimp only at h
      split at h
      · exact hnull h
      · split at h
        · simp only [returns_bind, returns_pure] at h
          obtain ⟨d, s₂, hopen, _, _, ⟨rfl, rfl⟩, _, _, hclose, rfl, rfl⟩ := h
          exact hheld.closeUnder hok (dirOpen_holds hheld.ok hopen).1 hclose
        · exact hnull h

theorem sysChdir_refs {r : Int} (hok : s.CacheOk) (h : Returns (sysChdir path) s r s') :
    RefsBy s s' 0 := by
  simp only [sysChdir, returns_bind] at h
  obtain ⟨⟨iNo, rec⟩, s₁, hsearch, h⟩ := h
  have hheld : HoldsDir s s₁ rec.parentDir := searchFile_holds hok hsearch
  have hfail (h : Returns (do
      let ret ← pure (-1 : Int)
      dirClose rec.parentDir
      return ret) s₁ r s') : RefsBy s s' 0 := by
    simp only [returns_bind, returns_pure] at h
    obtain ⟨_, _, ⟨-, rfl⟩, _, _, hclose, -, rfl⟩ := h
    exact (hheld.close hok hclose).toRefsBy
  cases iNo with
  | none => exact hfail h
  | some n =>
    dsimp only at h
    split at h
    · -- the control block of the running process is written while the directory is open
      simp only [returns_bind, returns_runningThread, returns_putThread, returns_pure] at h
      obtain ⟨k, _, ⟨-, rfl⟩, _, _, rfl, _, _, ⟨-, rfl⟩, _, _, hclose, -, rfl⟩ := h
      have hmid : RefsBy s₁ (s₁.setTask s₁.cur { k with cwdInodeNr := n }) 0 := .setTask hheld.ok
      obtain ⟨hstep, -, -⟩ := dirClose_step hmid.ok hclose
      have href : (s₁.setTask s₁.cur { k with cwdInodeNr := n }).dirRef rec.parentDir =
          s₁.dirRef rec.parentDir := by
        cases rec.parentDir <;> rfl
      have hall := (hheld.toRefsBy.trans hok hmid).trans hok hstep.toRefsBy
      rwa [href, add_zero, add_neg_cancel] at hall
    · exact hfail h

end Balance

/-! ## The calls on paths -/

/-- What a call hands out: a descriptor or a directory handle. -/
inductive Handle where
  | fd (n : Int)
  | dir (p : DirPtr)

/-- A call on a path. -/
inductive PathCall where
  | openFile (path : CStr) (flags : Nat)
  | unlink (path : CStr)
  | mkdir (path : CStr)
  | rmdir (path : CStr)
  | chdir (path : CStr)
  | stat (path : CStr)
  | opendir (path : CStr)

/-- The call, and what it hands out where it succeeds. -/
def PathCall.code : PathCall → FsM (Option Handle)
  | .openFile path flags => do
    let fd ← sysOpen path flags
    return if fd = -1 then none else some (.fd fd)
  | .unlink path => do
    let _ ← sysUnlink path
    return none
  | .mkdir path => do
    let _ ← sysMkdir path
    return none
  | .rmdir path => do
    let _ ← sysRmdir path
    return none
  | .chdir path => do
    let _ ← sysChdir path
    return none
  | .stat path => do
    let _ ← sysStat path
    return none
  | .opendir path => do
    let d ← sysOpendir path
    return d.map .dir

/-- The inode a handle has a reference to: the one in the slot of a descriptor of the
    running process, and that of a directory handle other than the static one. -/
def Fs.handleInode (s : Fs) : Handle → Option Nat
  | .fd n =>
    if h : 0 ≤ n ∧ n < 8 then
      (s.fileTable (s.fdAt s.cur ⟨n.toNat, fdtable_lt h⟩).toNat).fdInode
    else none
  | .dir .root => none
  | .dir (.heap d) => (s.dirs d).map Dir.inode

/-- The references and the list of open inodes are as they were, but for one reference
    more to the inode at `r`. -/
structure Balanced (s s' : Fs) (r : Option Nat) : Prop where
  cnt : ∀ a, s'.openCnt a = s.openCnt a + if r = some a then 1 else 0
  mem : ∀ a, a ∈ s'.openInodes ↔ a ∈ s.openInodes ∨ r = some a
  number : ∀ a v v', s.inodes a = some v → s'.inodes a = some v' → v'.iNo = v.iNo

/-- Where `sys_open` keeps a reference it hands to nobody.  `file_open` is called for an
    existing file in a directory other than the root, or it takes a slot and the inode
    and fails then; or `file_create` has made the file and finds no descriptor. -/
def Fs.OpenLeaks (s : Fs) (path : CStr) (flags : Nat) : Prop :=
  (∃ n rec s₁, s.Finds path (some n) rec s₁ ∧ creating flags = false ∧
    (rec.parentDir ≠ .root ∨
      s.SlotFree ∧ (writable flags = true ∧ s₁.deniesWrite n = true ∨ s.FdsFull))) ∨
  ∃ rec s₁, s.Finds path none rec s₁ ∧ creating flags = true ∧ s₁.HasMemory 2 ∧ s.SlotFree ∧ s.FdsFull

/-- The condition under which a call is balanced. -/
def PathCall.Closes (s : Fs) : PathCall → Prop
  | .openFile path flags => ¬ s.OpenLeaks path flags
  | _ => True

section Balanced

variable {s s' s₁ s₂ : Fs} {r : Option Nat} {d : Nat → Int} {p : DirPtr} {path : CStr} {flags : Nat}

/-- One reference to the inode at `r`. -/
def oneRef : Option Nat → Nat → Int
  | none => 0
  | some a => Pi.single a 1

theorem oneRef_apply (a : Nat) : oneRef r a = if r = some a then 1 else 0 := by
  cases r with
  | none => rfl
  | some b =>
    rw [oneRef]
    by_cases hab : a = b
    · subst hab
      rw [Pi.single_eq_same, if_pos rfl]
    · rw [Pi.single_eq_of_ne hab, if_neg fun h => hab (Option.some.inj h).symm]

/-- A call is balanced when the references it adds are those of what it hands out. -/
theorem RefsBy.balanced_iff (hok : s.CacheOk) (h : RefsBy s s' d) :
    Balanced s s' r ↔ d = oneRef r := by
  constructor
  · intro hbal
    funext a
    have hcnt := h.cnt a
    rw [hbal.cnt a, Nat.cast_add] at hcnt
    rw [oneRef_apply, ← add_left_cancel hcnt]
    split <;> rfl
  · rintro rfl
    have hcnt (a : Nat) : s'.openCnt a = s.openCnt a + if r = some a then 1 else 0 := by
      have := h.cnt a
      rw [oneRef_apply] at this
      split at this
      · next hr =>
        rw [if_pos hr]
        omega
      · next hr =>
        rw [if_neg hr]
        omega
    refine ⟨hcnt, fun a => ?_, h.number⟩
    rw [h.ok.mem_iff_pos a, hok.mem_iff_pos a, hcnt a]
    split
    · next hr => simp [hr]
    · next hr => simp [hr]

theorem Fs.dirRef_eq (s : Fs) (p : DirPtr) : s.dirRef p = oneRef (s.handleInode (.dir p)) := by
  cases p with
  | root => rfl
  | heap d =>
    rw [dirRef, handleInode]
    cases s.dirs d <;> rfl

/-- A handle other than the static one has a reference. -/
theorem HoldsDir.dirRef_eq_zero (h : HoldsDir s s' p) : s'.dirRef p = 0 ↔ p = .root := by
  constructor
  · intro hzero
    cases p with
    | root => rfl
    | heap d =>
      obtain ⟨dir, hdir⟩ := Option.ne_none_iff_exists'.mp (h.fresh d rfl).2
      have href : s'.dirRef (.heap d) = Pi.single dir.inode 1 := by rw [Fs.dirRef, hdir]
      have hone := congrFun hzero dir.inode
      rw [href, Pi.single_eq_same, Pi.zero_apply] at hone
      cases hone
  · rintro rfl
    rfl

/-- Looking for a descriptor does not touch the references; where one is found, it is the
    one of slot `g`. -/
theorem pcbFdInstall_refs {g : Nat} {r : Int} (hok : s.CacheOk) (h : Returns (pcbFdInstall g) s r s') :
    RefsBy s s' 0 ∧ s'.dirs = s.dirs ∧ s'.fileTable = s.fileTable ∧ s'.cur = s.cur ∧
      (s.FdsFull ∧ r = -1 ∨ ¬ s.FdsFull ∧ r ≠ -1 ∧
        ∃ fd : Fin 8, r = fd.val ∧ s'.fdAt s.cur fd = g) := by
  obtain ⟨k, hk, ⟨hfull, rfl, rfl⟩ | ⟨fd, hfd, rfl, rfl⟩⟩ := pcbFdInstall_cases h
  · refine ⟨((refl_of CacheFrame s).step hok).toRefsBy, rfl, rfl, rfl, Or.inl ⟨fun k' hk' => ?_, rfl⟩⟩
    obtain rfl : k = k' := Option.some.inj (hk.symm.trans hk')
    exact hfull
  · refine ⟨.setTask hok, rfl, rfl, rfl, Or.inr ⟨fun hfull => ?_, by omega, fd, rfl, ?_⟩⟩
    · rw [hfull k hk] at hfd
      cases hfd
    · simp [Fs.fdAt, Fs.setTask]

/-- The inode of a descriptor of slot `g`. -/
theorem Fs.handleInode_fd {fd : Fin 8} {g : Nat} (h : s.fdAt s.cur fd = g) :
    s.handleInode (.fd fd.val) = (s.fileTable g).fdInode := by
  have hlt : 0 ≤ (fd.val : Int) ∧ (fd.val : Int) < 8 := by omega
  have hfin : (⟨(fd.val : Int).toNat, by omega⟩ : Fin 8) = fd := Fin.ext (by simp)
  rw [handleInode, dif_pos hlt, hfin, h, Int.toNat_natCast]

/-- What the caller of `sys_open` gets. -/
def fdHandle (r : Int) : Option Handle := if r = -1 then none else some (.fd r)

/-- An existing file: the directory it is in stays open. -/
theorem fileOpen_balanced_iff {n : Nat} {r : Int} (hok : s.CacheOk) (hheld : HoldsDir s s₁ p)
    (h : Returns (fileOpen n flags) s₁ r s') :
    s'.CacheOk ∧ (Balanced s s' ((fdHandle r).bind s'.handleInode) ↔
      ¬ (p ≠ .root ∨
        s.SlotFree ∧ (writable flags = true ∧ s₁.deniesWrite n = true ∨ s.FdsFull))) := by
  rcases fileOpen_cases h with ⟨hfree, rfl, rfl⟩ | ⟨g, a, t, v, hslot, hopen, hv, h⟩
  · rw [hheld.slotFree_iff] at hfree
    refine ⟨hheld.ok, ?_⟩
    show Balanced s s₁ none ↔ _
    rw [hheld.toRefsBy.balanced_iff hok]
    show s₁.dirRef p = 0 ↔ _
    rw [hheld.dirRef_eq_zero]
    simp [hfree]
  · obtain ⟨hstep, -, -⟩ := inodeOpen_step hheld.ok hopen
    have hfree : s.SlotFree := by
      rw [← hheld.slotFree_iff, Fs.SlotFree, hslot]
      simp
    let f : File := { fdPos := 0, fdFlag := flags, fdInode := some a }
    have hset : RefsBy t (t.setSlot g f) 0 := .setSlot hstep.ok
    -- with a reference to the inode that nobody gets, the call is not balanced
    have hleak (t' : Fs) (ht : RefsBy s t' (s₁.dirRef p + Pi.single a 1)) :
        ¬ Balanced s t' none := by
      rw [ht.balanced_iff hok]
      intro hzero
      have hone := congrFun hzero a
      rw [Pi.add_apply, Pi.single_eq_same, oneRef, Pi.zero_apply] at hone
      have := s₁.dirRef_nonneg p a
      omega
    rcases h with ⟨hwrite, hdeny, rfl, rfl⟩ | ⟨hallow, h⟩
    · have hall := (hheld.toRefsBy.trans hok hstep.toRefsBy).trans hok hset
      rw [add_zero] at hall
      refine ⟨hall.ok, ?_⟩
      show Balanced s _ none ↔ _
      exact iff_of_false (hleak _ hall) (not_not.mpr (Or.inr ⟨hfree, Or.inl ⟨hwrite, hdeny⟩⟩))
    · have hput : RefsBy (t.setSlot g f) ((t.setSlot g f).setInode a
          { v with writeDeny := v.writeDeny || writable flags }) _ :=
        .setInode hset.ok hv rfl (hstep.ok.pos a v hv)
      obtain ⟨hinst, -, hfile, hcur, hfd⟩ := pcbFdInstall_refs hput.ok h
      have hall := (((hheld.toRefsBy.trans hok hstep.toRefsBy).trans hok hset).trans hok hput).trans
        hok hinst
      rw [sub_self, Pi.single_zero, add_zero, add_zero, add_zero] at hall
      refine ⟨hall.ok, ?_⟩
      have hfds : ((t.setSlot g f).setInode a
          { v with writeDeny := v.writeDeny || writable flags }).FdsFull ↔ s.FdsFull := by
        rw [← hheld.fdsFull_iff, Fs.FdsFull, Fs.FdsFull, ← hstep.tasks, ← hstep.cur]
        rfl
      rw [hfds] at hfd
      rcases hfd with ⟨hfull, rfl⟩ | ⟨hroom, hr, fd, rfl, hat⟩
      · show Balanced s _ none ↔ _
        exact iff_of_false (hleak _ hall) (not_not.mpr (Or.inr ⟨hfree, Or.inr hfull⟩))
      · have hinode : (fdHandle fd.val).bind s'.handleInode = some a := by
          rw [fdHandle, if_neg hr, Option.bind_some, Fs.handleInode_fd (hcur ▸ hat), hfile]
          exact congrArg File.fdInode (Function.update_self g f t.fileTable)
        rw [hinode, hall.balanced_iff hok]
        have hzero : s₁.dirRef p + Pi.single a 1 = oneRef (some a) ↔ s₁.dirRef p = 0 :=
          add_eq_right
        rw [hzero, hheld.dirRef_eq_zero]
        constructor
        · rintro rfl
          rintro (hp | ⟨-, hboth | hfull⟩)
          · exact hp rfl
          · exact hallow hboth
          · exact hroom hfull
        · intro hno
          by_contra hp
          exact hno (Or.inl hp)

/-- A new file: the directory is closed, but a file without a descriptor stays open. -/
theorem fileCreate_balanced_iff {name : CStr} {r : Int} {u : Unit} (hok : s.CacheOk)
    (hheld : HoldsDir s s₁ p) (h : Returns (fileCreate p name flags) s₁ r s₂)
    (hclose : Returns (dirClose p) s₂ u s') :
    s'.CacheOk ∧ (Balanced s s' ((fdHandle r).bind s'.handleInode) ↔
      ¬ (s₁.HasMemory 2 ∧ s.SlotFree ∧ s.FdsFull)) := by
  rcases fileCreate_cases hheld.ok h with ⟨hfail, rfl, hframe⟩ |
    ⟨g, a, n, v, t, hmemory, hslot, -, -, hstep, hdirs, -, -, -, -, h⟩
  · have hclosed := (hheld.frame hok hframe).close hok hclose
    refine ⟨hclosed.ok, ?_⟩
    rw [hheld.slotFree_iff] at hfail
    show Balanced s s' none ↔ _
    rw [hclosed.toRefsBy.balanced_iff hok]
    constructor
    · rintro - ⟨hmem, hfree, -⟩
      exact hfail ⟨hmem, hfree⟩
    · intro _
      rfl
  · let f : File := { fdPos := 0, fdFlag := flags, fdInode := some a }
    have hset : RefsBy t (t.setSlot g f) 0 := .setSlot hstep.ok
    have hfree : s.SlotFree := by
      rw [← hheld.slotFree_iff, Fs.SlotFree, hslot]
      simp
    obtain ⟨hinst, hdirs', hfile, hcur, hfd⟩ := pcbFdInstall_refs hset.ok h
    obtain ⟨hclosed, -, -⟩ := dirClose_step hinst.ok hclose
    have href : s₂.dirRef p = s₁.dirRef p := by
      cases p with
      | root => rfl
      | heap d =>
        have hsame : s₂.dirs = s₁.dirs := hdirs'.trans hdirs
        simp only [Fs.dirRef, hsame]
    have hall := (((hheld.toRefsBy.trans hok hstep.toRefsBy).trans hok hset).trans hok hinst).trans
      hok hclosed.toRefsBy
    rw [href, add_zero, add_zero, add_neg_cancel_comm] at hall
    refine ⟨hall.ok, ?_⟩
    have hfds : (t.setSlot g f).FdsFull ↔ s.FdsFull := by
      rw [← hheld.fdsFull_iff, Fs.FdsFull, Fs.FdsFull, ← hstep.tasks, ← hstep.cur]
      rfl
    rw [hfds] at hfd
    rcases hfd with ⟨hfull, rfl⟩ | ⟨hroom, hr, fd, rfl, hat⟩
    · show Balanced s s' none ↔ _
      have hleak : ¬ Balanced s s' none := by
        rw [hall.balanced_iff hok]
        intro hzero
        have hone := congrFun hzero a
        rw [Pi.single_eq_same, oneRef, Pi.zero_apply] at hone
        cases hone
      exact iff_of_false hleak (not_not.mpr ⟨hmemory, hfree, hfull⟩)
    · have hcur' : s'.cur = (t.setSlot g f).cur := hclosed.cur.trans hcur
      have hat' : s'.fdAt s'.cur fd = g := by
        rw [hcur', Fs.fdAt, hclosed.tasks]
        exact hat
      have hinode : (fdHandle fd.val).bind s'.handleInode = some a := by
        rw [fdHandle, if_neg hr, Option.bind_some, Fs.handleInode_fd hat', hclosed.fileTable, hfile]
        exact congrArg File.fdInode (Function.update_self g f t.fileTable)
      rw [hinode, hall.balanced_iff hok]
      constructor
      · rintro - ⟨-, -, hfull⟩
        exact hroom hfull
      · intro _
        rfl

theorem sysOpen_balanced_iff {r : Int} (hok : s.CacheOk) (h : Returns (sysOpen path flags) s r s') :
    s'.CacheOk ∧
      (Balanced s s' ((fdHandle r).bind s'.handleInode) ↔ ¬ s.OpenLeaks path flags) := by
  rcases sysOpen_cases hok h with ⟨rfl, hclosed, hno⟩ |
    ⟨rec, t, t', hfinds, hcreate, -, hheld, hnew, hclose⟩ | ⟨n, rec, t, hfinds, hcreate, -, hheld, hfile⟩
  · refine ⟨hclosed.ok, ?_⟩
    show Balanced s s' none ↔ _
    rw [hclosed.toRefsBy.balanced_iff hok]
    constructor
    · rintro - (⟨n, rec, t, hfinds, hcreate, -⟩ | ⟨rec, t, hfinds, hcreate, -⟩)
      · have := hno _ _ _ hfinds
        rw [hcreate] at this
        cases this
      · have := hno _ _ _ hfinds
        rw [hcreate] at this
        cases this
    · intro _
      rfl
  · obtain ⟨hok', hiff⟩ := fileCreate_balanced_iff hok hheld hnew hclose
    refine ⟨hok', hiff.trans (not_congr ?_)⟩
    constructor
    · rintro ⟨hmem, hfree, hfull⟩
      exact Or.inr ⟨rec, t, hfinds, hcreate, hmem, hfree, hfull⟩
    · rintro (⟨n, rec', t', hfinds', -⟩ | ⟨rec', t', hfinds', -, hmem, hfree, hfull⟩)
      · cases (hfinds.unique hfinds').1
      · obtain ⟨-, rfl, rfl⟩ := hfinds.unique hfinds'
        exact ⟨hmem, hfree, hfull⟩
  · obtain ⟨hok', hiff⟩ := fileOpen_balanced_iff hok hheld hfile
    refine ⟨hok', hiff.trans (not_congr ?_)⟩
    constructor
    · intro hleak
      exact Or.inl ⟨n, rec, t, hfinds, hcreate, hleak⟩
    · rintro (⟨n', rec', t', hfinds', -, hleak⟩ | ⟨rec', t', hfinds', -⟩)
      · obtain ⟨hn, rfl, rfl⟩ := hfinds.unique hfinds'
        obtain rfl := Option.some.inj hn
        exact hleak
      · cases (hfinds.unique hfinds').1

/-- The open counts are balanced exactly where `sys_open` does not leak. -/
theorem open_counts_balanced_iff (c : PathCall) (s s' : Fs) (r : Option Handle) (hok : s.CacheOk)
    (h : Returns c.code s r s') :
    s'.CacheOk ∧ (Balanced s s' (r.bind s'.handleInode) ↔ c.Closes s) := by
  have hnothing (hheld : RefsBy s s' 0) :
      s'.CacheOk ∧ (Balanced s s' ((none : Option Handle).bind s'.handleInode) ↔ True) :=
    ⟨hheld.ok, iff_true_intro ((hheld.balanced_iff hok).mpr rfl)⟩
  cases c with
  | openFile path flags =>
    simp only [PathCall.code, returns_bind, returns_pure] at h
    obtain ⟨fd, _, h, rfl, rfl⟩ := h
    exact sysOpen_balanced_iff hok h
  | unlink path =>
    simp only [PathCall.code, returns_bind, returns_pure] at h
    obtain ⟨_, _, h, rfl, rfl⟩ := h
    exact hnothing (sysUnlink_holds hok h).toRefsBy
  | mkdir path =>
    simp only [PathCall.code, returns_bind, returns_pure] at h
    obtain ⟨_, _, h, rfl, rfl⟩ := h
    exact hnothing (sysMkdir_holds hok h).toRefsBy
  | rmdir path =>
    simp only [PathCall.code, returns_bind, returns_pure] at h
    obtain ⟨_, _, h, rfl, rfl⟩ := h
    exact hnothing (sysRmdir_holds hok h).toRefsBy
  | chdir path =>
    simp only [PathCall.code, returns_bind, returns_pure] at h
    obtain ⟨_, _, h, rfl, rfl⟩ := h
    exact hnothing (sysChdir_refs hok h)
  | stat path =>
    simp only [PathCall.code, returns_bind, returns_pure] at h
    obtain ⟨_, _, h, rfl, rfl⟩ := h
    exact hnothing (sysStat_holds hok h).toRefsBy
  | opendir path =>
    simp only [PathCall.code, returns_bind, returns_pure] at h
    obtain ⟨d, _, h, rfl, rfl⟩ := h
    have hheld := sysOpendir_holds hok h
    refine ⟨hheld.ok, iff_true_intro ((hheld.toRefsBy.balanced_iff hok).mpr ?_)⟩
    rw [Fs.dirRef_eq]
    cases d <;> rfl

end Balanced

/-! ## A small tree -/

namespace SmallTree

/-- The inode of a file or directory with one block at `lba`, or none. -/
def inode (iNo iSize lba : Nat) : Inode :=
  { (inodeInit iNo).setSector 0 lba with iSize := iSize }

/-- A block that begins with the entries `es`. -/
def block (es : List DirEntry) : Bytes := fun k =>
  match es[k / 24]? with
  | some e => e.encode (k % 24)
  | none => 0

/-- The entries of the root directory: `"."`, `".."`, the directory `"d"` and the file `"g"`. -/
def rootEntries : List DirEntry :=
  [⟨dot, 0, ftDir⟩, ⟨dotDot, 0, ftDir⟩, ⟨[100], 1, ftDir⟩, ⟨[103], 3, ftRegular⟩]

/-- The entries of `"d"`, with the file `"f"`. -/
def subEntries : List DirEntry := [⟨dot, 1, ftDir⟩, ⟨dotDot, 0, ftDir⟩, ⟨[102], 2, ftRegular⟩]

/-- The two bitmaps, the inodes 0 to 3 in the table, and the blocks of the two directories behind it. -/
def disk : Bytes := fun a =>
  if a = 512 * 2 then 0x03
  else if a = 512 * 3 then 0x0F
  else if a < 512 * 4 then 0
  else if a < 512 * 1000 then
    let off := a - 512 * 4
    if off / 76 = 0 then (inode 0 96 1000).encode (off % 76)
    else if off / 76 = 1 then (inode 1 72 1001).encode (off % 76)
    else if off / 76 = 2 then (inode 2 0 0).encode (off % 76)
    else if off / 76 = 3 then (inode 3 0 0).encode (off % 76)
    else 0
  else if a < 512 * 1001 then block rootEntries (a - 512 * 1000)
  else block subEntries (a - 512 * 1001)

/-- The mounted partition, with the root directory open. -/
def fs : Fs :=
  { Fs.boot disk fun _ => false with
    part :=
      { startLba := 0, secCnt := 4096
        sb :=
          { magic := 0x19590318, secCnt := 4096, inodeCnt := 4096, partLbaBase := 0
            blockBitmapLba := 2, blockBitmapSecs := 1, inodeBitmapLba := 3
            inodeBitmapSecs := 1, inodeTableLba := 4, inodeTableSecs := 608
            dataStartLba := 1000, rootInodeNo := 0, dirEntrySize := 24 } }
    blockBitmap := { btmpBytesLen := 4, bit := fun i => i < 2 }
    inodeMap := { btmpBytesLen := 1, bit := fun i => i < 4 }
    openInodes := [0]
    inodes := fun a => if a = 0 then some { inode 0 96 1000 with iOpenCnt := 1 } else none
    heap := { next := 1, live := [], full := fun _ => false } }

theorem cacheOk : fs.CacheOk where
  nodup := by decide
  mem := by
    intro a
    by_cases ha : a = 0
    · subst ha
      decide
    · show a ∈ [0] ↔ (if a = 0 then _ else none) ≠ none
      simp [ha]
  pos := by
    intro a v hv
    by_cases ha : a = 0
    · subst ha
      obtain rfl := Option.some.inj hv
      decide
    · have hnone : fs.inodes a = none := if_neg ha
      rw [hnone] at hv
      cases hv
  inode_lt := by
    intro a ha
    by_cases ha0 : a = 0
    · subst ha0
      decide
    · exact absurd (if_neg ha0) ha
  dir_lt := fun _ hd => absurd rfl hd

/-- `"/d/f"`. -/
def deepPath : CStr := [47, 100, 47, 102]

/-- `"/g"`. -/
def flatPath : CStr := [47, 103]

end SmallTree

/-- Opening the file in the root directory for writing. -/
theorem open_counts_balanced_flat : ∃ r s',
    Returns (PathCall.openFile SmallTree.flatPath 1).code SmallTree.fs (some r) s' ∧
      s'.handleInode r ≠ none ∧ Balanced SmallTree.fs s' (s'.handleInode r) := by
  have hend : (PathCall.openFile SmallTree.flatPath 1).code.checks SmallTree.fs
      (fun r s' => (r.bind s'.handleInode).isSome) = true := by
    decide +kernel
  obtain ⟨r, s', hret, hinode⟩ := checks_eq_true.mp hend
  obtain ⟨a, ha⟩ := Option.isSome_iff_exists.mp hinode
  obtain ⟨r, rfl, hr⟩ := Option.bind_eq_some_iff.mp ha
  have hroot : (searchFile SmallTree.flatPath).checks SmallTree.fs
      (fun r s₁ => r.1 = some 3 ∧ r.2.parentDir = .root ∧ s₁.deniesWrite 3 = false) = true := by
    decide +kernel
  have hclose : PathCall.Closes SmallTree.fs (.openFile SmallTree.flatPath 1) := by
    rintro (⟨n, rec, s₁, hfinds, -, hleak⟩ | ⟨rec, s₁, hfinds, hcreate, -⟩)
    · obtain ⟨hn, hp, hdeny⟩ := of_decide_eq_true (hfinds.search.of_checks hroot)
      obtain rfl := Option.some.inj hn
      rcases hleak with hp' | ⟨-, ⟨-, hdeny'⟩ | hfull⟩
      · exact hp' hp
      · rw [hdeny] at hdeny'
        cases hdeny'
      · exact absurd (hfull initThread rfl) (by decide)
    · exact absurd hcreate (by decide)
  refine ⟨r, s', hret, by rw [hr]; simp, ?_⟩
  exact (open_counts_balanced_iff _ _ _ _ SmallTree.cacheOk hret).2.mpr hclose

/-- Opening the file in `"/d"` leaves a reference to `"/d"` behind. -/
theorem open_leaks_directory : ∃ r s',
    Returns (PathCall.openFile SmallTree.deepPath 0).code SmallTree.fs r s' ∧
      SmallTree.fs.CacheOk ∧ ¬ Balanced SmallTree.fs s' (r.bind s'.handleInode) := by
  have hend : (PathCall.openFile SmallTree.deepPath 0).code.checks SmallTree.fs
      (fun r s' => s'.openCnt 4 = 1 ∧ r.bind s'.handleInode = some 8) = true := by
    decide +kernel
  obtain ⟨r, s', hret, hval⟩ := checks_eq_true.mp hend
  obtain ⟨hcnt, hinode⟩ := of_decide_eq_true hval
  refine ⟨r, s', hret, SmallTree.cacheOk, fun hbal => ?_⟩
  have hdir := hbal.cnt 4
  rw [hcnt, hinode] at hdir
  exact absurd hdir (by decide)

end ZxyOs
