/-
  ZxyOs.User.DiskReads

  Every disk read of every call fits its buffer, but for one: `file_write` allocates one
  sector and hands it to `inode_sync`.
-/

import ZxyOs.Fs.OpenCount
import ZxyOs.Fs.Transfers
import ZxyOs.User.InodePool

namespace ZxyOs

open Lib Lib.Exec

/-! ## Writing to a file -/

/-- The heap serves every request, and where `c` holds the inode at `a` lies in one sector. -/
def Fs.OneSector (c : Prop) (a : Nat) (s : Fs) : Prop :=
  s.Served ∧ (c → ∀ v, s.inodes a = some v → ¬ Straddles (v.iNo % 256))

/-- `file_write` has an index table to extend; it gives up in its first round. -/
def ExtendsTable (iSize cnt : Nat) : Prop :=
  12 < iSize / 512 + 1 ∧ iSize / 512 + 1 < (iSize + cnt) % 2 ^ 32 / 512 + 1

instance (iSize cnt : Nat) : Decidable (ExtendsTable iSize cnt) := inferInstanceAs (Decidable (_ ∧ _))

section Write

variable {c : Prop} {s s' : Fs} {a b g : Nat} {v : Inode}

theorem Fs.OneSector.setInode {v' : Inode} (h : s.OneSector c a) (hv : s.inodes b = some v)
    (hident : v'.ident = v.ident) : (s.setInode b v').OneSector c a := by
  refine ⟨h.1, fun hc w hw => ?_⟩
  by_cases hab : a = b
  · subst hab
    rw [Fs.setInode_self] at hw
    obtain rfl := Option.some.inj hw
    have hno : v'.iNo = v.iNo := congrArg Prod.fst hident
    rw [hno]
    exact h.2 hc v hv
  · rw [Fs.setInode_of_ne hab] at hw
    exact h.2 hc w hw

instance : Quiet (Kept (Fs.OneSector c a)) where
  disk _ _ := fun h => h
  inodeMap _ _ := fun h => h
  blockBitmap _ _ := fun h => h
  sector _ _ _ _ _ hv := fun h => h.setInode hv rfl
  size _ _ _ _ hv := fun h => h.setInode hv rfl
  refused s := fun h => ⟨Calm.refused (R := Kept Fs.Served) s h.1, h.2⟩
  served s u := fun h => ⟨Calm.served (R := Kept Fs.Served) s u h.1, h.2⟩

theorem contained_putFile_oneSector {f : File} : Contained (Fs.OneSector c b) (putFile g f) :=
  contained_update fun _ h => h

theorem contained_fileWriteLoop {allBlocks : Nat → Nat} {src : Bytes} (fuel written sizeLeft : Nat)
    (first : Bool) :
    Contained (Fs.OneSector c b) (fileWriteLoop g a allBlocks src fuel written sizeLeft first) := by
  induction fuel generalizing written sizeLeft first with
  | zero => exact contained_pure _
  | succ fuel ih =>
    simp only [fileWriteLoop]
    split
    · exact contained_pure _
    · refine contained_getInode.bind fun v => (contained_require _).bind fun _ => ?_
      split
      · exact contained_ideRead_sector.bind fun _ => contained_ideWrite.bind fun _ =>
          contained_setInodeSize.bind fun _ => (contained_query _).bind fun _ =>
            contained_putFile_oneSector.bind fun _ => ih _ _ _
      · exact (contained_pure _).bind fun _ => contained_ideWrite.bind fun _ =>
          contained_setInodeSize.bind fun _ => (contained_query _).bind fun _ =>
            contained_putFile_oneSector.bind fun _ => ih _ _ _

/-- The end of `file_write`: the inode is written through a buffer of one sector. -/
theorem contained_fileWriteSync (hc : c) {ptr ptr' : Option Nat} {r : Int} :
    Contained (Fs.OneSector c a) (do
      let v ← getInode a
      inodeSync v 512
      sysFree ptr
      sysFree ptr'
      return r : FsM Int) := by
  have hfree (ptr : Option Nat) : Contained (Fs.OneSector c a) (sysFree ptr) :=
    (contained_assert _).bind fun _ => contained_update fun _ h => h
  apply Contained.bindOf (q := fun v => ¬ Straddles (v.iNo % 256)) contained_getInode
  · intro s v s' hs h
    exact hs.2 hc v (returns_getInode.mp h).1
  · intro v hv
    exact (contained_inodeSync le_rfl fun hstr => absurd hstr hv).bind fun _ => (hfree _).bind fun _ =>
      (hfree _).bind fun _ => contained_pure _

/-- Blocks are only handed on where the table need not be extended. -/
theorem returns_fileCollectBlocks_some {iSize cnt : Nat} {blocks : Nat → Nat}
    (h : Returns (fileCollectBlocks a (iSize / 512 + 1) ((iSize + cnt) % 2 ^ 32 / 512 + 1)) s (some blocks) s') :
    ¬ ExtendsTable iSize cnt := by
  rintro ⟨hused, hwill⟩
  simp only [fileCollectBlocks, returns_bind] at h
  obtain ⟨v, s₁, -, h⟩ := h
  rw [if_neg (by omega), if_neg (by omega), if_neg (by omega)] at h
  obtain ⟨k, hk⟩ : ∃ k, (iSize + cnt) % 2 ^ 32 / 512 + 1 - (iSize / 512 + 1) = k + 1 :=
    ⟨(iSize + cnt) % 2 ^ 32 / 512 - iSize / 512 - 1, by omega⟩
  rw [hk] at h
  simp only [fileAllocIndirect, returns_bind, returns_pure] at h
  obtain ⟨_, _, -, _, _, -, _, _, ⟨_, _, -, rfl, rfl⟩, h⟩ := h
  simp at h

/-- The conditions under which `file_write` on slot `g` comes to write the inode, and the
    inode lies in one sector. -/
def Fs.WriteFits (s : Fs) (g cnt : Nat) : Prop :=
  ∀ a v, (s.fileTable g).fdInode = some a → s.inodes a = some v →
    (v.iSize + cnt) % 2 ^ 32 ≤ 512 * (12 + 128) → ¬ ExtendsTable v.iSize cnt → ¬ Straddles (v.iNo % 256)

theorem containedAt_fileWrite {buf : Bytes} {cnt : Nat} (hs : s.Served) (hfits : s.WriteFits g cnt) :
    ContainedAt Fs.Served (fileWrite g buf cnt) s := by
  refine (contained_query _).look fun t ht => ?_
  obtain ⟨rfl, -⟩ := (returns_query _).mp ht
  refine (contained_deref _).look fun a ha => contained_getInode.look fun v hv => ?_
  have hinode : s.inodes a = some v := (returns_getInode.mp hv).1
  by_cases hsize : (v.iSize + cnt) % 2 ^ 32 > 512 * (12 + 128)
  · rw [if_pos hsize]
    exact contained_pure _ hs
  rw [if_neg hsize]
  have hone : s.OneSector (¬ ExtendsTable v.iSize cnt) a := by
    refine ⟨hs, fun hc w hw => ?_⟩
    obtain rfl := Option.some.inj (hinode.symm.trans hw)
    exact hfits a v ((returns_deref _).mp ha).1 hinode (by omega) hc
  refine ContainedAt.mono ((?_ : Contained (Fs.OneSector (¬ ExtendsTable v.iSize cnt) a) _) hone) fun _ h => h.1
  have hblocks (ptr ptr' : Option Nat) (b : Bool) : Contained (Fs.OneSector (¬ ExtendsTable v.iSize cnt) a)
      (fileWriteRest g a v buf cnt ptr' ptr b) := by
    rw [fileWriteRest]
    split
    · exact contained_pure _
    · refine (contained_assert _).bind fun _ => ?_
      apply Contained.bindOf (q := fun blocks => blocks ≠ none → ¬ ExtendsTable v.iSize cnt)
        contained_fileCollectBlocks
      · intro s blocks s' _ h hne
        obtain ⟨allBlocks, rfl⟩ := Option.ne_none_iff_exists'.mp hne
        exact returns_fileCollectBlocks_some h
      · intro blocks hc
        cases blocks with
        | none => exact contained_pure _
        | some allBlocks =>
          exact (contained_query _).bind fun _ => contained_putFile_oneSector.bind fun _ =>
            (contained_fileWriteLoop _ _ _ _).bind fun _ => contained_fileWriteSync (hc (Option.some_ne_none _))
  refine contained_sysMalloc.bind fun ioBuf => ?_
  split
  · exact contained_pure _
  · refine contained_sysMalloc.bind fun allBlocksMem => ?_
    split
    · exact contained_pure _
    · split
      · refine contained_blockBitmapAlloc.bind fun r => ?_
        cases r with
        | none => exact (contained_pure _).bind fun _ => hblocks _ _ _
        | some lba =>
          exact contained_setInodeSector.bind fun _ => contained_bitmapSync.bind fun _ =>
            (contained_pure _).bind fun _ => hblocks _ _ _
      · exact (contained_pure _).bind fun _ => hblocks _ _ _
/-- What the descriptor table says before a `sys_write` that reaches `file_write`. -/
def Fs.WriteFitsFd (s : Fs) (fd : Int) (cnt : Nat) : Prop :=
  ∀ (hfd : 0 ≤ fd ∧ fd < 8) (g : Nat), fd ≠ 1 → s.fdAt s.cur ⟨fd.toNat, fdtable_lt hfd⟩ = g →
    (s.fileTable g).fdFlag ≠ pipeFlag → writable (s.fileTable g).fdFlag = true → s.WriteFits g cnt

theorem containedAt_sysWrite {fd : Int} {buf : Bytes} {cnt : Nat} (hs : s.Served)
    (hfits : s.WriteFitsFd fd cnt) : ContainedAt Fs.Served (sysWrite fd buf cnt) s := by
  unfold sysWrite
  split
  · exact contained_pure _ hs
  · refine contained_isPipe.look fun pipe hpipe => ?_
    obtain ⟨-, g, ⟨hfd, hg⟩, hflag⟩ := returns_isPipe hpipe
    split
    · split
      · exact contained_pipeWrite hs
      · exact ((contained_require _).bind fun _ => contained_pure _) hs
    · next hout =>
      split
      · exact contained_pipeWrite hs
      · next hreg =>
        refine contained_fdLocalToGlobal.look fun g' hg' => (contained_query _).look fun t ht => ?_
        obtain ⟨rfl, -⟩ := (returns_query _).mp ht
        obtain ⟨-, _, hat⟩ := returns_fdLocalToGlobal hg'
        obtain rfl : g = g' := by
          rw [hg] at hat
          exact Int.ofNat.inj hat
        split
        · next hwrite =>
          have hnot : (s.fileTable g).fdFlag ≠ pipeFlag := by
            intro heq
            rw [heq] at hflag
            exact hreg (by simpa using hflag)
          exact containedAt_fileWrite hs (hfits hfd g hout hg hnot hwrite)
        · exact contained_pure _ hs

end Write

/-! ## The other calls on descriptors -/

section Descriptors

variable {n g : Nat} {fd : Int}

theorem contained_pipeClose : Contained Fs.Served (pipeClose g) := by
  refine (contained_query _).bind fun s => contained_putFile.bind fun _ => ?_
  split
  · exact (contained_assert _).bind fun _ => (contained_edit fun _ => by rfl).bind fun _ => contained_putFile
  · exact contained_pure _

theorem contained_sysPipe : Contained Fs.Served sysPipe := by
  have hpage : Contained Fs.Served getKernelPage :=
    (contained_query _).bind fun _ =>
      (contained_update fun s => Calm.refused s).bind fun _ => contained_pure _
  exact contained_getFreeSlotInGlobal.bind fun _ => (contained_deref _).bind fun _ => hpage.bind fun _ =>
    (contained_deref _).bind fun _ => (contained_edit fun _ => by rfl).bind fun _ => contained_putFile.bind fun _ =>
      contained_pcbFdInstall.bind fun _ => contained_pcbFdInstall.bind fun _ => contained_pure _

theorem contained_sysFdRedirect {old new : Nat} : Contained Fs.Served (sysFdRedirect old new) := by
  unfold sysFdRedirect
  split
  · exact contained_setFd
  · refine contained_runningThread.bind fun cur => ?_
    split
    · exact contained_setFd
    · exact contained_stop (by decide)

theorem contained_fileSize : Contained Fs.Served (fileSize n) := by
  refine (contained_query _).bind fun s => ?_
  split
  · exact contained_pure _
  · exact contained_getInode.bind fun _ => contained_pure _

theorem contained_sysLseek {offset : Int} {whence : Nat} : Contained Fs.Served (sysLseek fd offset whence) := by
  refine (contained_assert _).bind fun _ => (contained_assert _).bind fun _ => contained_fdLocalToGlobal.bind fun _ =>
    (contained_query _).bind fun f => (contained_deref _).bind fun _ => contained_fileSize.bind fun size => ?_
  dsimp only
  split
  · exact contained_pure _
  · exact contained_putFile.bind fun _ => contained_pure _

theorem contained_updateInodeOpenCnts (fds : List (Fin 8)) :
    Contained Fs.Served (updateInodeOpenCnts n fds) := by
  induction fds with
  | nil => exact contained_pure _
  | cons fd rest ih =>
    refine (contained_query _).bind fun _ => (contained_deref _).bind fun _ => (contained_assert _).bind fun _ => ?_
    split
    · refine contained_isPipe.bind fun pipe => (contained_query _).bind fun _ => ?_
      split
      · exact contained_putFile.bind fun _ => ih
      · exact (contained_deref _).bind fun _ => contained_getInode.bind fun _ => contained_putInode.bind fun _ => ih
    · exact ih

theorem contained_releaseFd {i : Fin 8} : Contained Fs.Served (releaseFd i) := by
  refine contained_runningThread.bind fun thread => ?_
  split
  · refine contained_isPipe.bind fun pipe => ?_
    split
    · exact contained_fdLocalToGlobal.bind fun _ => contained_pipeClose
    · exact contained_sysClose.bind fun _ => contained_pure _
  · exact contained_pure _

theorem contained_releaseFds (fds : List (Fin 8)) : Contained Fs.Served (releaseFds fds) := by
  induction fds with
  | nil => exact contained_pure _
  | cons fd rest ih => exact contained_releaseFd.bind fun _ => ih

end Descriptors

/-! ## All calls -/

/-- `inode_sync` gets a buffer that is large enough for the inode. -/
def FsCall.Fits (s : Fs) : FsCall → Prop
  | .write fd _ cnt => s.WriteFitsFd fd cnt
  | _ => True

theorem containedAt_code {s : Fs} (call : FsCall) (hs : s.Served) (hfits : call.Fits s) :
    ContainedAt Fs.Served call.code s := by
  cases call with
  | openFile path flags => exact (contained_sysOpen.bind fun _ => contained_pure _) hs
  | close fd => exact (contained_sysClose.bind fun _ => contained_pure _) hs
  | read fd cnt kbd => exact (contained_sysRead.bind fun _ => contained_pure _) hs
  | write fd buf cnt =>
    exact (containedAt_sysWrite hs hfits).bind fun _ => contained_pure _
  | lseek fd offset whence => exact (contained_sysLseek.bind fun _ => contained_pure _) hs
  | unlink path => exact (contained_sysUnlink.bind fun _ => contained_pure _) hs
  | mkdir path => exact (contained_sysMkdir.bind fun _ => contained_pure _) hs
  | rmdir path => exact (contained_sysRmdir.bind fun _ => contained_pure _) hs
  | opendir path => exact (contained_sysOpendir.bind fun _ => contained_pure _) hs
  | closedir dir => exact (contained_sysClosedir.bind fun _ => contained_pure _) hs
  | readdir dir => exact (contained_sysReaddir.bind fun _ => contained_pure _) hs
  | rewinddir dir => exact contained_sysRewinddir hs
  | chdir path => exact (contained_sysChdir.bind fun _ => contained_pure _) hs
  | getcwd size => exact (contained_sysGetcwd.bind fun _ => contained_pure _) hs
  | stat path => exact (contained_sysStat.bind fun _ => contained_pure _) hs
  | pipe => exact (contained_sysPipe.bind fun _ => contained_pure _) hs
  | redirect m n => exact contained_sysFdRedirect hs
  | fork child =>
    exact (contained_runningThread.bind fun _ => (contained_edit fun _ => by rfl).bind fun _ =>
      contained_updateInodeOpenCnts _) hs
  | exit => exact ((contained_releaseFds _).bind fun _ => contained_edit fun _ => by rfl) hs
  | create child userSpace => exact (contained_edit (fun _ => by rfl) : Contained _ (FsCall.code _)) hs

/-- Whatever call is made in whatever state, while the heap serves its requests and
    `sys_write` does not come to write an inode that straddles two sectors, no disk read
    stores more than there is room for. -/
theorem disk_reads_fit (s : Fs) (t : Nat) (call : FsCall) (hserved : s.Served)
    (hfits : call.Fits { s with cur := t }) : ¬ Stops call.code { s with cur := t } .overrun :=
  (containedAt_code (s := { s with cur := t }) call hserved hfits).1

/-- A file is opened after mounting. -/
theorem disk_reads_fit_open : ∃ s : Fs, Fs.Mounted formattedDisk (fun _ => false) 2048 8192 s ∧
    ¬ Stops (FsCall.openFile newPath 5).code { s with cur := 0 } .overrun := by
  obtain ⟨s, h₀⟩ : ∃ s, mountedFs? = some s := Option.isSome_iff_exists.mp (by decide +kernel)
  have hmounted := mounted_of_mountedFs? h₀
  have hserved : s.Served := by
    have hfull : mountedFs?.map (fun s => s.heap.full) = some fun _ => false := rfl
    rw [h₀, Option.map_some, Option.some.injEq] at hfull
    exact fun i _ => congrFun hfull i
  exact ⟨s, hmounted, disk_reads_fit s 0 (.openFile newPath 5) hserved trivial⟩

/-- Six files, each closed again but the last, whose number is 6. -/
def sixFiles : List (Nat × FsCall) :=
  [(0, .openFile [47, 97] 6), (0, .close 3), (0, .openFile [47, 98] 6), (0, .close 3), (0, .openFile [47, 99] 6),
    (0, .close 3), (0, .openFile [47, 100] 6), (0, .close 3), (0, .openFile [47, 101] 6), (0, .close 3),
    (0, .openFile [47, 102] 6)]

/-- One byte is written to the file with inode 6. -/
theorem straddling_inode_overruns : ∃ s₀ s : Fs,
    Fs.Mounted formattedDisk (fun _ => false) 2048 8192 s₀ ∧ Fs.Run (fun _ _ => True) s₀ s ∧
      Stops (FsCall.write 3 Bytes.zero 1).code { s with cur := 0 } .overrun := by
  have hend : (mountedFs?.bind fun s => sixFiles.foldlM Fs.after? s).map (fun s =>
      (FsCall.write 3 Bytes.zero 1).code.stopsFor { s with cur := 0 } .overrun) = some true := by
    decide +kernel
  obtain ⟨s, hs, hstop⟩ := Option.map_eq_some_iff.mp hend
  obtain ⟨s₀, h₀, hs⟩ := Option.bind_eq_some_iff.mp hs
  refine ⟨s₀, s, mounted_of_mountedFs? h₀, ?_, stopsFor_eq_true.mp hstop⟩
  exact .of_foldlM (fun _ _ _ h => ⟨trivial, Fs.step_of_after? h⟩) hs

end ZxyOs
