/-
  ZxyOs.User.FileOffsets

  The offsets of open files.

  `SizesKept m` says that the inodes at addresses below `m` keep their sizes: every
  function on paths and on the cache does.  Only `file_create` and `file_write` change a
  size, and they add to it.  With the effects of `file_write`, `file_read` and `sys_lseek`
  on the slot they work on, this carries `fd_pos <= i_size` through every run of calls.
-/

import ZxyOs.Fs.DirInsert
import ZxyOs.User.FileRun
import ZxyOs.User.InodePool

namespace ZxyOs

open Lib Lib.Exec

/-! ## Sizes of inodes -/

/-- The inodes below `m` that are in memory at the end have been there all the time and
    have kept their sizes. -/
structure SizesKept (m : Nat) (s s' : Fs) : Prop where
  next : m ≤ s'.heap.next
  part : s'.part = s.part
  size : ∀ a < m, ∀ v', s'.inodes a = some v' → ∃ v, s.inodes a = some v ∧ v'.iSize = v.iSize

/-- The addresses from `m` on are new. -/
def SizeStep (m : Nat) (s s' : Fs) : Prop := m ≤ s.heap.next → SizesKept m s s'

section Sizes

variable {m a n : Nat} {s s' s₁ s₂ : Fs} {d : DirPtr} {name path : CStr} {α : Type}

theorem SizesKept.trans {s₃ : Fs} (h : SizesKept m s₁ s₂) (h' : SizesKept m s₂ s₃) : SizesKept m s₁ s₃ where
  next := h'.next
  part := h'.part.trans h.part
  size := by
    intro a ha v' hv'
    obtain ⟨w, hw, hsize'⟩ := h'.size a ha v' hv'
    obtain ⟨v, hv, hsize⟩ := h.size a ha w hw
    exact ⟨v, hv, hsize'.trans hsize⟩

instance : Std.Refl (SizeStep m) := ⟨fun _ hm => ⟨hm, rfl, fun _ _ v hv => ⟨v, hv, rfl⟩⟩⟩

instance : IsTrans Fs (SizeStep m) := ⟨fun _ _ _ h h' hm => (h hm).trans (h' (h hm).next)⟩

/-- An edit that leaves the inodes in memory alone. -/
theorem SizeStep.of_inodes (hinodes : s'.inodes = s.inodes) (hpart : s'.part = s.part)
    (hnext : s.heap.next ≤ s'.heap.next) : SizeStep m s s' := by
  intro hm
  refine ⟨hm.trans hnext, hpart, fun a _ v' hv' => ⟨v', ?_, rfl⟩⟩
  rw [← hinodes]
  exact hv'

/-- An inode is written with the size it has. -/
theorem SizeStep.setInode {v v' : Inode} (hv : s.inodes a = some v) (hsize : v'.iSize = v.iSize) :
    SizeStep m s (s.setInode a v') := by
  intro hm
  refine ⟨hm, rfl, fun b _ w hw => ?_⟩
  by_cases hb : b = a
  · subst hb
    obtain rfl := Option.some.inj (Fs.setInode_self.symm.trans hw)
    exact ⟨v, hv, hsize⟩
  · rw [Fs.setInode_of_ne hb] at hw
    exact ⟨w, hw, rfl⟩

/-- An inode is written to a new address. -/
theorem SizeStep.newInode {v : Inode} (ha : m ≤ a) : SizeStep m s (s.setInode a v) := by
  intro hm
  refine ⟨hm, rfl, fun b hb w hw => ⟨w, ?_, rfl⟩⟩
  rw [Fs.setInode_of_ne (by omega)] at hw
  exact hw

/-- An inode leaves the memory. -/
theorem SizeStep.dropInode {l : List Nat} :
    SizeStep m s { s with openInodes := l, inodes := Function.update s.inodes a none } := by
  intro hm
  refine ⟨hm, rfl, fun b _ w hw => ⟨w, ?_, rfl⟩⟩
  by_cases hb : b = a
  · have hw' : Function.update s.inodes a none b = some w := hw
    rw [hb, Function.update_self] at hw'
    cases hw'
  · have hw' : Function.update s.inodes a none b = some w := hw
    rw [Function.update_of_ne hb] at hw'
    exact hw'

instance : Calm (SizeStep m) where
  disk _ _ := .of_inodes rfl rfl le_rfl
  inodeMap _ _ := .of_inodes rfl rfl le_rfl
  blockBitmap _ _ := .of_inodes rfl rfl le_rfl
  sector _ _ _ _ _ hv := .setInode hv rfl
  refused _ := .of_inodes rfl rfl (Nat.le_succ _)
  served _ _ := .of_inodes rfl rfl (Nat.le_succ _)

theorem keeps_sysFree_size {ptr : Option Nat} : Keeps (SizeStep m) (sysFree ptr) :=
  (keeps_assert _).bind fun _ => keeps_update fun _ => .of_inodes rfl rfl le_rfl

theorem keeps_inodeOpen_size : Keeps (SizeStep m) (inodeOpen n) := by
  intro s a s' h
  rcases inodeOpen_inv h with ⟨v, -, hv, -, rfl⟩ | ⟨h', -, -, rfl, hnext, -, rfl⟩
  · exact .setInode hv rfl
  · intro hm
    refine ⟨hm.trans (Nat.le_of_lt hnext), rfl, fun b hb w hw => ⟨w, ?_, rfl⟩⟩
    have hw' : Function.update s.inodes s.heap.next _ b = some w := hw
    rw [Function.update_of_ne (by omega)] at hw'
    exact hw'

theorem keeps_inodeClose_size : Keeps (SizeStep m) (inodeClose a) := by
  intro s u s' h
  simp only [inodeClose, returns_bind, returns_getInode, returns_putInode] at h
  obtain ⟨v, _, ⟨hv, rfl⟩, _, _, rfl, h⟩ := h
  generalize (if v.iOpenCnt = 0 then 2 ^ 32 - 1 else v.iOpenCnt - 1) = cnt at h
  have hput : SizeStep m s (s.setInode a { v with iOpenCnt := cnt }) := .setInode hv rfl
  split at h
  · simp only [returns_bind, returns_update] at h
    obtain ⟨_, _, rfl, hfree⟩ := h
    exact trans_of (SizeStep m) (trans_of (SizeStep m) hput .dropInode) (keeps_sysFree_size hfree)
  · obtain ⟨-, rfl⟩ := returns_pure.mp h
    exact hput

theorem keeps_dirOpen_size : Keeps (SizeStep m) (dirOpen n) :=
  keeps_sysMalloc.bind fun dir => keeps_inodeOpen_size.bind fun _ => (keeps_deref dir).bind fun _ =>
    (keeps_update fun _ => .of_inodes rfl rfl le_rfl).bind fun _ => keeps_pure _

theorem keeps_dirClose_size : Keeps (SizeStep m) (dirClose d) := by
  cases d with
  | root => exact keeps_pure _
  | heap d =>
    have hdir : Keeps (SizeStep m) (getDir (.heap d)) := (keeps_query _).bind fun _ => keeps_deref _
    exact hdir.bind fun _ => keeps_inodeClose_size.bind fun _ =>
      (keeps_update fun _ => .of_inodes rfl rfl le_rfl).bind fun _ => keeps_sysFree_size

theorem keeps_searchDirEntry_size : Keeps (SizeStep m) (searchDirEntry d name) := by
  refine keeps_sysMalloc.bind fun r => ?_
  split
  · exact keeps_pure _
  · exact keeps_dirInode.bind fun _ => keeps_getInode.bind fun _ => keeps_readAllBlocks.bind fun _ =>
      keeps_sysMalloc.bind fun _ => (keeps_query _).bind fun _ => (keeps_searchBlocks _ _).bind fun _ =>
        keeps_sysFree_size.bind fun _ => keeps_sysFree_size.bind fun _ => keeps_pure _

theorem keeps_searchLoop_size (fuel : Nat) (st : SearchState) : Keeps (SizeStep m) (searchLoop fuel st) := by
  have hnext (p : Option CStr) : Keeps (SizeStep m) (pathNext p : FsM _) :=
    keeps_pathNext.mono fun s t h => h ▸ refl_of (SizeStep m) s
  induction fuel generalizing st with
  | zero => exact keeps_stop _
  | succ fuel ih =>
    simp only [searchLoop]
    split
    · exact keeps_dirClose_size.bind fun _ => keeps_dirOpen_size.bind fun _ => (keeps_deref _).bind fun _ =>
        keeps_pure _
    · refine (keeps_assert _).bind fun _ => keeps_searchDirEntry_size.bind fun found => ?_
      cases found with
      | none => exact keeps_pure _
      | some e =>
        refine (hnext _).bind fun r => ?_
        split
        · exact keeps_dirInode.bind fun _ => keeps_getInode.bind fun _ => keeps_dirClose_size.bind fun _ =>
            keeps_dirOpen_size.bind fun _ => ih _
        · split
          · exact keeps_pure _
          · exact ih _

theorem keeps_searchFile_size : Keeps (SizeStep m) (searchFile path) := by
  have hparse (p : CStr) : Keeps (SizeStep m) (pathParse p : FsM _) :=
    keeps_pathParse.mono fun s t h => h ▸ refl_of (SizeStep m) s
  unfold searchFile
  split
  · exact keeps_pure _
  · exact (keeps_assert _).bind fun _ => (hparse _).bind fun _ => keeps_searchLoop_size _ _

theorem keeps_pcbFdInstall_size {g : Nat} : Keeps (SizeStep m) (pcbFdInstall g) := by
  refine keeps_runningThread.bind fun cur => ?_
  split
  · exact keeps_pure _
  · exact (keeps_update fun _ => .of_inodes rfl rfl le_rfl).bind fun _ => keeps_pure _

end Sizes

/-! ## Sizes that grow -/

section Grown

variable {m a g n flags : Nat} {s s' s₁ s₂ : Fs} {d p : DirPtr} {name path : CStr} {r : Int}

/-- `sync_dir_entry` adds the size of an entry to the directory in the end, or nothing. -/
theorem syncDirEntryNewBlock_size {R : Fs → Fs → Prop} [Calm R] {e : DirEntry} {allBlocks : Nat → Nat}
    {k : Nat} {b : Bool} (h : Returns (syncDirEntryNewBlock a e allBlocks k) s b s') :
    ∃ s₁, R s s₁ ∧ (s' = s₁ ∨
      Returns (setInodeSize a fun n => (n + s.part.sb.dirEntrySize) % 2 ^ 32) s₁ () s') := by
  simp only [syncDirEntryNewBlock, returns_bind (x := query _), returns_query] at h
  obtain ⟨_, _, ⟨rfl, rfl⟩, h⟩ := h
  obtain ⟨blockLba, t, halloc, h⟩ := returns_bind.mp h
  have ht := keeps_blockBitmapAlloc (R := R) halloc
  cases blockLba with
  | none =>
    obtain ⟨-, rfl⟩ := returns_pure.mp h
    exact ⟨t, ht, Or.inl rfl⟩
  | some blockLba =>
    have hlast {t : Fs} (ht : R s t) (o : Option Nat) (h : Returns (syncDirEntryPut a s.part.sb e o) t b s') :
        ∃ s₁, R s s₁ ∧ (s' = s₁ ∨
          Returns (setInodeSize a fun n => (n + s.part.sb.dirEntrySize) % 2 ^ 32) s₁ () s') := by
      cases o with
      | none =>
        obtain ⟨-, rfl⟩ := returns_pure.mp h
        exact ⟨t, ht, Or.inl rfl⟩
      | some dataLba =>
        obtain ⟨_, t', hwrite, h⟩ := returns_bind.mp h
        obtain ⟨_, _, hsize, h⟩ := returns_bind.mp h
        obtain ⟨-, rfl⟩ := returns_pure.mp h
        exact ⟨t', trans_of R ht (keeps_ideWrite hwrite), Or.inr hsize⟩
    obtain ⟨_, t₁, hsync, h⟩ := returns_bind.mp h
    have ht₁ := trans_of R ht (keeps_bitmapSync hsync)
    split at h
    · obtain ⟨_, t₂, hset, h⟩ := returns_bind.mp h
      exact hlast (trans_of R ht₁ (keeps_setInodeSector hset)) (some blockLba) h
    · split at h
      · obtain ⟨_, t₂, hset, h⟩ := returns_bind.mp h
        have ht₂ := trans_of R ht₁ (keeps_setInodeSector hset)
        obtain ⟨dataLba, t₃, halloc', h⟩ := returns_bind.mp h
        have ht₃ := trans_of R ht₂ (keeps_blockBitmapAlloc halloc')
        cases dataLba with
        | none =>
          obtain ⟨_, t₄, hback, h⟩ := returns_bind.mp h
          obtain ⟨_, t₅, hset', h⟩ := returns_bind.mp h
          have ht₅ := trans_of R (trans_of R ht₃ (keeps_blockBitmapSet hback)) (keeps_setInodeSector hset')
          exact hlast ht₅ none h
        | some dataLba =>
          obtain ⟨_, t₄, hsync', h⟩ := returns_bind.mp h
          obtain ⟨_, t₅, hwrite, h⟩ := returns_bind.mp h
          have ht₅ := trans_of R (trans_of R ht₃ (keeps_bitmapSync hsync')) (keeps_ideWrite hwrite)
          exact hlast ht₅ (some dataLba) h
      · obtain ⟨v, t₂, hget, h⟩ := returns_bind.mp h
        obtain ⟨_, t₃, hwrite, h⟩ := returns_bind.mp h
        have ht₃ := trans_of R (trans_of R ht₁ (keeps_getInode hget)) (keeps_ideWrite hwrite)
        exact hlast ht₃ (some blockLba) h

theorem syncDirEntryLoop_size {R : Fs → Fs → Prop} [Calm R] {e : DirEntry} {allBlocks : Nat → Nat}
    {perSec k n : Nat} {b : Bool} (h : Returns (syncDirEntryLoop a e allBlocks perSec n k) s b s') :
    ∃ s₁, R s s₁ ∧ (s' = s₁ ∨
      Returns (setInodeSize a fun n => (n + s.part.sb.dirEntrySize) % 2 ^ 32) s₁ () s') := by
  induction n generalizing k with
  | zero =>
    obtain ⟨-, rfl⟩ := returns_pure.mp h
    exact ⟨s, refl_of R s, Or.inl rfl⟩
  | succ n ih =>
    simp only [syncDirEntryLoop] at h
    split at h
    · exact syncDirEntryNewBlock_size h
    · simp only [returns_bind (x := ideRead _ _ _), returns_ideRead_sector] at h
      obtain ⟨block, _, ⟨-, -, -, rfl⟩, h⟩ := h
      split at h
      · simp only [returns_bind (x := query _), returns_query] at h
        obtain ⟨_, _, ⟨rfl, rfl⟩, h⟩ := h
        obtain ⟨_, t, hwrite, h⟩ := returns_bind.mp h
        obtain ⟨_, _, hsize, h⟩ := returns_bind.mp h
        obtain ⟨-, rfl⟩ := returns_pure.mp h
        exact ⟨t, keeps_ideWrite hwrite, Or.inr hsize⟩
      · exact ih h

theorem syncDirEntry_size {R : Fs → Fs → Prop} [Calm R] {e : DirEntry} {b : Bool}
    (h : Returns (syncDirEntry d e) s b s') :
    ∃ a s₁, s.handle d = some a ∧ R s s₁ ∧ (s' = s₁ ∨
      Returns (setInodeSize a fun n => (n + s.part.sb.dirEntrySize) % 2 ^ 32) s₁ () s') := by
  simp only [syncDirEntry, returns_bind, returns_dirInode, returns_getInode, returns_query, returns_assert] at h
  obtain ⟨a, _, ⟨ha, rfl⟩, v, _, ⟨-, rfl⟩, _, _, ⟨rfl, rfl⟩, -, _, ⟨-, rfl⟩, h⟩ := h
  obtain ⟨s₁, hs₁, hend⟩ := syncDirEntryLoop_size (R := R) h
  exact ⟨a, s₁, ha, hs₁, hend⟩

/-- The inodes below `m` that are in memory at the end have been there all the time and
    have not become smaller. -/
structure SizesGrown (m : Nat) (s s' : Fs) : Prop where
  next : m ≤ s'.heap.next
  size : ∀ a < m, ∀ v', s'.inodes a = some v' → ∃ v, s.inodes a = some v ∧ v.iSize ≤ v'.iSize

theorem SizesKept.grown (h : SizesKept m s s') : SizesGrown m s s' where
  next := h.next
  size := by
    intro a ha v' hv'
    obtain ⟨v, hv, hsize⟩ := h.size a ha v' hv'
    exact ⟨v, hv, hsize.ge⟩

theorem SizesGrown.trans (h : SizesGrown m s s₁) (h' : SizesGrown m s₁ s₂) : SizesGrown m s s₂ where
  next := h'.next
  size := by
    intro a ha v' hv'
    obtain ⟨w, hw, hsize'⟩ := h'.size a ha v' hv'
    obtain ⟨v, hv, hsize⟩ := h.size a ha w hw
    exact ⟨v, hv, hsize.trans hsize'⟩

/-- A directory has room in 32 bits for the size of one entry more. -/
def Fs.RoomFor (s : Fs) (d : DirPtr) : Prop :=
  ∀ a v, s.handle d = some a → s.inodes a = some v → v.iSize + s.part.sb.dirEntrySize < 2 ^ 32

/-- `sync_dir_entry` in a directory that was in memory before. -/
theorem syncDirEntry_grown {e : DirEntry} {b : Bool} (hm : m ≤ s.heap.next)
    (hroom : ∀ a v, s.handle d = some a → a < m → s.inodes a = some v →
      v.iSize + s.part.sb.dirEntrySize < 2 ^ 32) (h : Returns (syncDirEntry d e) s b s') :
    SizesGrown m s s' := by
  obtain ⟨a, s₁, ha, hs₁, hend⟩ := syncDirEntry_size (R := SizeStep m) h
  rcases hend with rfl | hsize
  · exact (hs₁ hm).grown
  · obtain ⟨v, hv, rfl⟩ := returns_setInodeSize.mp hsize
    refine (hs₁ hm).grown.trans ⟨(hs₁ hm).next, fun b hb w hw => ?_⟩
    by_cases hba : b = a
    · subst hba
      obtain ⟨v₀, hv₀, heq⟩ := (hs₁ hm).size b hb v hv
      have hlt := hroom b v₀ ha hb hv₀
      have hw' : Function.update s₁.inodes b (some { v with iSize := (v.iSize + s.part.sb.dirEntrySize) % 2 ^ 32 }) b =
        some w := hw
      rw [Function.update_self] at hw'
      obtain rfl := Option.some.inj hw'
      refine ⟨v, hv, ?_⟩
      show v.iSize ≤ (v.iSize + s.part.sb.dirEntrySize) % 2 ^ 32
      rw [heq, Nat.mod_eq_of_lt hlt]
      omega
    · have hw' : Function.update s₁.inodes a _ b = some w := hw
      rw [Function.update_of_ne hba] at hw'
      exact ⟨w, hw', le_rfl⟩

theorem fileCreate_grown (hroom : s.RoomFor p) (hm : m ≤ s.heap.next)
    (h : Returns (fileCreate p name flags) s r s') : SizesGrown m s s' := by
  simp only [fileCreate, returns_bind (x := sysMalloc)] at h
  obtain ⟨ioBuf, t₁, hmalloc, h⟩ := h
  have hk₁ := keeps_sysMalloc (R := SizeStep m) hmalloc
  have hf₁ := keeps_sysMalloc (R := CacheFrame) hmalloc
  split at h
  · obtain ⟨-, rfl⟩ := returns_pure.mp h
    exact (hk₁ hm).grown
  obtain ⟨inodeNo, t₂, halloc, h⟩ := returns_bind.mp h
  have hk₂ := trans_of (SizeStep m) hk₁ (keeps_inodeBitmapAlloc halloc)
  have hf₂ := hf₁.trans (keeps_inodeBitmapAlloc halloc)
  cases inodeNo with
  | none =>
    obtain ⟨-, rfl⟩ := returns_pure.mp h
    exact (hk₂ hm).grown
  | some inodeNo =>
    simp only [returns_bind (x := sysMalloc)] at h
    obtain ⟨new, t₃, hmalloc', h⟩ := h
    have hk₃ := trans_of (SizeStep m) hk₂ (keeps_sysMalloc hmalloc')
    have hf₃ := hf₂.trans (keeps_sysMalloc hmalloc')
    cases new with
    | none =>
      have hrest : Keeps (SizeStep m) (do
          inodeMapSet inodeNo false
          sysFree ioBuf
          return -1 : FsM Int) :=
        keeps_inodeMapSet.bind fun _ => keeps_sysFree_size.bind fun _ => keeps_pure _
      exact ((trans_of (SizeStep m) hk₃ (hrest h)) hm).grown
    | some new =>
      -- the new inode is at an address nobody has had
      have hnew : m ≤ new := by
        have := (hk₂ hm).next
        rw [(returns_sysMalloc hmalloc').2.2 new rfl]
        exact this
      have hput {t : Fs} {v : Inode} : SizeStep m t (t.setInode new v) := .newInode hnew
      have hputInode {v : Inode} : Keeps (SizeStep m) (putInode new v) := keeps_update fun _ => hput
      have hputFile {f : File} {g : Nat} : Keeps (SizeStep m) (putFile g f) :=
        keeps_update fun _ => .of_inodes rfl rfl le_rfl
      simp only [returns_bind (x := putInode _ _), returns_putInode, getFreeSlotInGlobal, returns_bind,
        returns_query, returns_pure] at h
      obtain ⟨_, _, rfl, fdIdx, _, ⟨_, _, ⟨rfl, rfl⟩, -, rfl⟩, h⟩ := h
      have hk₄ : SizeStep m s (t₃.setInode new (inodeInit inodeNo)) := trans_of (SizeStep m) hk₃ hput
      cases fdIdx with
      | none =>
        have hrest : Keeps (SizeStep m) (do
            update fun s => { s with inodes := Function.update s.inodes new none }
            sysFree (some new)
            inodeMapSet inodeNo false
            sysFree ioBuf
            return -1 : FsM Int) := by
          refine (keeps_update fun t => ?_).bind fun _ => keeps_sysFree_size.bind fun _ =>
            keeps_inodeMapSet.bind fun _ => keeps_sysFree_size.bind fun _ => keeps_pure _
          exact .dropInode
        exact ((trans_of (SizeStep m) hk₄ (hrest h)) hm).grown
      | some fdIdx =>
        obtain ⟨_, t₄, hfile, h⟩ := returns_bind.mp h
        obtain ⟨e, t₅, hentry, h⟩ := returns_bind.mp h
        obtain ⟨done, t₆, hinsert, h⟩ := returns_bind.mp h
        have hk₅ := trans_of (SizeStep m) (trans_of (SizeStep m) hk₄ (hputFile hfile)) (keeps_createDirEntry hentry)
        -- the handle of the parent is the one of the caller
        have hhandle : t₅.handle p = s.handle p := by
          have hf₅ := keeps_createDirEntry (R := CacheFrame) hentry
          obtain rfl := (returns_update _ _).mp hfile
          cases p with
          | root => exact congrArg (fun d => some d.inode) (hf₅.rootDir.trans hf₃.rootDir)
          | heap d => exact congrArg (fun f => Option.map Dir.inode (f d)) (hf₅.dirs.trans hf₃.dirs)
        have hgrown : SizesGrown m t₅ t₆ := by
          refine syncDirEntry_grown (hk₅ hm).next (fun a v ha hlt hv => ?_) hinsert
          obtain ⟨v₀, hv₀, hsize⟩ := (hk₅ hm).size a hlt v hv
          rw [hhandle] at ha
          rw [hsize, (hk₅ hm).part]
          exact hroom a v₀ ha hv₀
        have hlast : Keeps (SizeStep m) (if !done then do
            putFile fdIdx { fdPos := 0, fdFlag := 0, fdInode := none }
            update fun s => { s with inodes := Function.update s.inodes new none }
            sysFree (some new)
            inodeMapSet inodeNo false
            sysFree ioBuf
            return -1
          else do
            let parentInode ← dirInode p
            let parent ← getInode parentInode
            inodeSync parent 1024
            let v ← getInode new
            inodeSync v 1024
            bitmapSync inodeNo .inodeBitmap
            update fun s => { s with openInodes := new :: s.openInodes }
            let v ← getInode new
            putInode new { v with iOpenCnt := 1 }
            sysFree ioBuf
            pcbFdInstall fdIdx : FsM Int) := by
          split
          · refine hputFile.bind fun _ => (keeps_update fun t => ?_).bind fun _ => keeps_sysFree_size.bind fun _ =>
              keeps_inodeMapSet.bind fun _ => keeps_sysFree_size.bind fun _ => keeps_pure _
            exact .dropInode
          · exact keeps_dirInode.bind fun _ => keeps_getInode.bind fun _ => keeps_inodeSync.bind fun _ =>
              keeps_getInode.bind fun _ => keeps_inodeSync.bind fun _ => keeps_bitmapSync.bind fun _ =>
                (keeps_update fun _ => .of_inodes rfl rfl le_rfl).bind fun _ => keeps_getInode.bind fun _ =>
                  hputInode.bind fun _ => keeps_sysFree_size.bind fun _ => keeps_pcbFdInstall_size
        exact ((hk₅ hm).grown.trans hgrown).trans (hlast h hgrown.next).grown

theorem keeps_fileOpen_size : Keeps (SizeStep m) (fileOpen n flags) := by
  intro s r s' h
  rcases fileOpen_cases h with ⟨-, -, rfl⟩ | ⟨g, a, s₁, v, -, hopen, hv, ⟨-, -, -, rfl⟩ | ⟨-, hinst⟩⟩
  · exact refl_of (SizeStep m) s
  · have hslot : SizeStep m s₁ (s₁.setSlot g { fdPos := 0, fdFlag := flags, fdInode := some a }) :=
      .of_inodes rfl rfl le_rfl
    exact trans_of (SizeStep m) (keeps_inodeOpen_size hopen) hslot
  · have hslot : SizeStep m s₁ (s₁.setSlot g { fdPos := 0, fdFlag := flags, fdInode := some a }) :=
      .of_inodes rfl rfl le_rfl
    have hdeny : SizeStep m _ ((s₁.setSlot g { fdPos := 0, fdFlag := flags, fdInode := some a }).setInode a
        { v with writeDeny := v.writeDeny || writable flags }) := .setInode hv rfl
    exact trans_of (SizeStep m) (keeps_inodeOpen_size hopen)
      (trans_of (SizeStep m) (trans_of (SizeStep m) hslot hdeny) (keeps_pcbFdInstall_size hinst))

/-- `sys_open` makes nothing smaller: only the directory of a new file changes its size. -/
theorem sysOpen_grown (hroom : ∀ rec s₁, s.Finds path none rec s₁ → s₁.RoomFor rec.parentDir)
    (hm : m ≤ s.heap.next) (h : Returns (sysOpen path flags) s r s') : SizesGrown m s s' := by
  simp only [sysOpen, returns_bind (x := require _), returns_require] at h
  obtain ⟨_, _, ⟨-, rfl⟩, h⟩ := h
  split at h
  · obtain ⟨-, rfl⟩ := returns_pure.mp h
    exact ⟨hm, fun a _ v hv => ⟨v, hv, le_rfl⟩⟩
  next hslash =>
  simp only [returns_bind (x := assert _), returns_assert] at h
  obtain ⟨_, _, ⟨-, rfl⟩, h⟩ := h
  obtain ⟨depth, s₀, hdepth, h⟩ := returns_bind.mp h
  obtain rfl := keeps_pathDepthCnt hdepth
  obtain ⟨⟨iNo, rec⟩, s₁, hsearch, h⟩ := returns_bind.mp h
  have hk := keeps_searchFile_size (m := m) hsearch
  have hout {t : Fs} (ht : SizesGrown m s t) (h : Returns (do
      dirClose rec.parentDir
      return (-1 : Int)) t r s') : SizesGrown m s s' := by
    obtain ⟨_, _, hclose, h⟩ := returns_bind.mp h
    obtain ⟨-, rfl⟩ := returns_pure.mp h
    exact ht.trans (keeps_dirClose_size hclose ht.next).grown
  dsimp only at h
  split at h
  · exact hout (hk hm).grown h
  next hdir =>
  obtain ⟨depth', t, hdepth', h⟩ := returns_bind.mp h
  obtain rfl := keeps_pathDepthCnt hdepth'
  split at h
  · exact hout (hk hm).grown h
  next heq =>
  rw [not_not] at heq
  subst heq
  have hfinds : s.Finds path iNo rec s₁ := ⟨hslash, hsearch, hdir, depth, hdepth, hdepth'⟩
  cases iNo with
  | none =>
    dsimp only at h
    split at h
    · obtain ⟨fd, s₂, hnew, h⟩ := returns_bind.mp h
      obtain ⟨_, s₃, hclose, h⟩ := returns_bind.mp h
      obtain ⟨-, rfl⟩ := returns_pure.mp h
      have hgrown := fileCreate_grown (hroom rec s₁ hfinds) (hk hm).next hnew
      exact ((hk hm).grown.trans hgrown).trans (keeps_dirClose_size hclose hgrown.next).grown
    · exact hout (hk hm).grown h
  | some n =>
    dsimp only at h
    split at h
    · exact hout (hk hm).grown h
    · exact (hk hm).grown.trans (keeps_fileOpen_size h (hk hm).next).grown

/-! ## file_write -/

/-- What the data loop of `file_write` adds to the size and to the offset. -/
structure Written (s s' : Fs) (g a cnt : Nat) : Prop where
  next : s.heap.next ≤ s'.heap.next
  file : s'.fileTable = Function.update s.fileTable g
    { s.fileTable g with fdPos := ((s.fileTable g).fdPos + cnt) % 2 ^ 32 }
  other : ∀ b ≠ a, s'.inodes b = s.inodes b
  inode : ∀ v, s.inodes a = some v → ∃ v', s'.inodes a = some v' ∧ v'.iSize = v.iSize + cnt ∧ v'.ident = v.ident
  bound : cnt ≠ 0 → ∀ v, s.inodes a = some v → v.iSize + cnt ≤ 512 * 140

theorem fileWriteLoop_written {allBlocks : Nat → Nat} {src : Bytes} {fuel written sizeLeft : Nat} {first : Bool}
    (hfuel : sizeLeft ≤ fuel) (hpos : (s.fileTable g).fdPos < 2 ^ 32)
    (h : Returns (fileWriteLoop g a allBlocks src fuel written sizeLeft first) s () s') :
    Written s s' g a sizeLeft := by
  induction fuel generalizing s written sizeLeft first with
  | zero =>
    obtain rfl : sizeLeft = 0 := by omega
    obtain ⟨-, rfl⟩ := returns_pure.mp h
    refine ⟨le_rfl, ?_, fun _ _ => rfl, fun v hv => ⟨v, hv, rfl, rfl⟩, fun hne => absurd rfl hne⟩
    rw [Nat.add_zero, Nat.mod_eq_of_lt hpos, Function.update_eq_self]
  | succ fuel ih =>
    simp only [fileWriteLoop] at h
    split at h
    · next hzero =>
      subst hzero
      obtain ⟨-, rfl⟩ := returns_pure.mp h
      refine ⟨le_rfl, ?_, fun _ _ => rfl, fun v hv => ⟨v, hv, rfl, rfl⟩, fun hne => absurd rfl hne⟩
      rw [Nat.add_zero, Nat.mod_eq_of_lt hpos, Function.update_eq_self]
    · next hne =>
      simp only [returns_bind (x := getInode _), returns_getInode, returns_bind (x := require _),
        returns_require] at h
      obtain ⟨v, _, ⟨hv, rfl⟩, _, _, ⟨hidx, rfl⟩, h⟩ := h
      generalize hchunk : (if sizeLeft < 512 - v.iSize % 512 then sizeLeft else 512 - v.iSize % 512) = chunk at h
      have hchunk₁ : chunk ≤ sizeLeft ∧ 0 < chunk ∧ v.iSize + chunk ≤ 512 * 140 := by
        have hmod := Nat.div_add_mod v.iSize 512
        split at hchunk <;> omega
      -- one turn: a sector is written, and size and offset go on by the chunk
      have hturn (ioBuf : Bytes) (h : Returns (do
          ideWrite (allBlocks (v.iSize / 512))
            (ioBuf.splice (v.iSize % 512) chunk fun k => src (written + k)) 1
          setInodeSize a fun n => (n + chunk) % 2 ^ 32
          let s ← query id
          putFile g { s.fileTable g with fdPos := ((s.fileTable g).fdPos + chunk) % 2 ^ 32 }
          fileWriteLoop g a allBlocks src fuel (written + chunk) (sizeLeft - chunk) false) s () s') :
          Written s s' g a sizeLeft := by
        simp only [returns_bind, returns_ideWrite, returns_setInodeSize, returns_query, putFile, returns_update] at h
        obtain ⟨_, _, ⟨-, -, rfl⟩, _, _, ⟨w, hw, rfl⟩, _, _, ⟨rfl, rfl⟩, _, _, rfl, h⟩ := h
        obtain rfl : v = w := Option.some.inj (hv.symm.trans hw)
        have hsize : (v.iSize + chunk) % 2 ^ 32 = v.iSize + chunk := Nat.mod_eq_of_lt (by omega)
        have hfirst := ih (by omega) (by
          show (Function.update s.fileTable g _ g).fdPos < 2 ^ 32
          rw [Function.update_self]
          exact Nat.mod_lt _ (by decide)) h
        obtain ⟨hnext, hfile, hother, hinode, hbound⟩ := hfirst
        have hself := Function.update_self a (some { v with iSize := (v.iSize + chunk) % 2 ^ 32 }) s.inodes
        obtain ⟨v', hv', hsize', hident⟩ := hinode _ hself
        refine ⟨hnext, ?_, fun b hb => ?_, fun w hw => ?_, fun _ w hw => ?_⟩
        · let f : File := { s.fileTable g with fdPos := ((s.fileTable g).fdPos + chunk) % 2 ^ 32 }
          have hfile' : s'.fileTable = Function.update (Function.update s.fileTable g f) g
              { Function.update s.fileTable g f g with
                fdPos := ((Function.update s.fileTable g f g).fdPos + (sizeLeft - chunk)) % 2 ^ 32 } := hfile
          have hsum : (f.fdPos + (sizeLeft - chunk)) % 2 ^ 32 = ((s.fileTable g).fdPos + sizeLeft) % 2 ^ 32 := by
            show (((s.fileTable g).fdPos + chunk) % 2 ^ 32 + (sizeLeft - chunk)) % 2 ^ 32 = _
            rw [Nat.mod_add_mod, Nat.add_assoc, Nat.add_sub_cancel' hchunk₁.1]
          rw [hfile', Function.update_idem, Function.update_self, hsum]
        · rw [hother b hb]
          exact Function.update_of_ne hb ..
        · obtain rfl : v = w := Option.some.inj (hv.symm.trans hw)
          refine ⟨v', hv', ?_, hident⟩
          rw [hsize']
          show (v.iSize + chunk) % 2 ^ 32 + (sizeLeft - chunk) = _
          rw [hsize]
          omega
        · obtain rfl : v = w := Option.some.inj (hv.symm.trans hw)
          by_cases hrest : sizeLeft - chunk = 0
          · omega
          · have hle := hbound hrest _ hself
            have hle' : (v.iSize + chunk) % 2 ^ 32 + (sizeLeft - chunk) ≤ 512 * 140 := hle
            rw [hsize] at hle'
            omega
      split at h
      · obtain ⟨ioBuf, _, hread, h⟩ := returns_bind.mp h
        obtain ⟨-, -, -, rfl⟩ := returns_ideRead_sector.mp hread
        exact hturn ioBuf h
      · obtain ⟨_, _, hpure, h⟩ := returns_bind.mp h
        obtain ⟨rfl, rfl⟩ := returns_pure.mp hpure
        exact hturn Bytes.zero h

/-- The cache is kept, whatever happens to the slots of `file_table`. -/
def CacheKept (s s' : Fs) : Prop := CacheFrame { s with fileTable := s'.fileTable } s'

theorem CacheFrame.kept (h : CacheFrame s s') : CacheKept s s' :=
  ⟨⟨h.rings, h.rootDir, rfl, h.tasks, h.cur, h.full⟩, h.openInodes, h.ident, h.dirs, h.next⟩

theorem CacheKept.setFile {f : File} : CacheKept s (s.setSlot g f) :=
  ⟨⟨rfl, rfl, rfl, rfl, rfl, rfl⟩, rfl, fun _ => rfl, rfl, le_rfl⟩

instance : Std.Refl CacheKept := ⟨fun s => (refl_of CacheFrame s).kept⟩

instance : IsTrans Fs CacheKept := ⟨fun s₁ s₂ s₃ h h' => by
  have hlift : CacheFrame { s₁ with fileTable := s₃.fileTable } { s₂ with fileTable := s₃.fileTable } :=
    ⟨⟨h.rings, h.rootDir, rfl, h.tasks, h.cur, h.full⟩, h.openInodes, h.ident, h.dirs, h.next⟩
  exact hlift.trans h'⟩

instance : Quiet CacheKept where
  disk s d := (Calm.disk (R := CacheFrame) s d).kept
  inodeMap s b := (Calm.inodeMap (R := CacheFrame) s b).kept
  blockBitmap s b := (Calm.blockBitmap (R := CacheFrame) s b).kept
  sector s a k lba v hv := (Calm.sector (R := CacheFrame) s a k lba v hv).kept
  refused s := (Calm.refused (R := CacheFrame) s).kept
  served s u := (Calm.served (R := CacheFrame) s u).kept
  size s a n v hv := (Quiet.size (R := CacheFrame) s a n v hv).kept

theorem keeps_putFile_kept {f : File} : Keeps CacheKept (putFile g f) := keeps_update fun _ => .setFile

theorem keeps_sysFree_kept {ptr : Option Nat} : Keeps CacheKept (sysFree ptr) :=
  keeps_sysFree.mono fun _ _ h => h.kept

theorem CacheKept.refs (h : CacheKept s s') (hok : s.CacheOk) : RefsBy s s' 0 := by
  have hok' : Fs.CacheOk { s with fileTable := s'.fileTable } :=
    ⟨hok.nodup, hok.mem, hok.pos, hok.inode_lt, hok.dir_lt⟩
  obtain ⟨hok, hnext, hcnt, hgone, hnumber⟩ := (h.step hok').toRefsBy
  exact ⟨hok, hnext, hcnt, hgone, hnumber⟩

/-- `file_write` gives up with sizes and offsets as they were, or it has appended `cnt`
    bytes and has set the offset from the size it found. -/
structure Appended (s s' : Fs) (g a cnt : Nat) (v : Inode) : Prop where
  inode : (s.fileTable g).fdInode = some a ∧ s.inodes a = some v
  memory : s.HasMemory 2
  file : s'.fileTable = Function.update s.fileTable g
    { s.fileTable g with fdPos := (v.iSize + (2 ^ 32 - 1) + cnt) % 2 ^ 32 }
  size : ∃ v', s'.inodes a = some v' ∧ v'.iSize = v.iSize + cnt
  bound : cnt ≠ 0 → v.iSize + cnt ≤ 512 * 140

/-- Both the cache and the sizes are kept, and the slots. -/
structure CalmStep (m : Nat) (s s' : Fs) : Prop where
  frame : CacheFrame s s'
  sizes : SizeStep m s s'

theorem CalmStep.after {α : Type} {x : FsM α} {b : α} (h : CalmStep m s s₁) (hx : Returns x s₁ b s₂)
    (hkeeps : ∀ (R : Fs → Fs → Prop) [Calm R], Keeps R x) : CalmStep m s s₂ :=
  ⟨h.frame.trans (hkeeps CacheFrame hx), trans_of (SizeStep m) h.sizes (hkeeps (SizeStep m) hx)⟩

/-- The end of `file_write`, once the blocks are collected in the state `t`. -/
theorem fileWrite_end {t : Fs} {buf : Bytes} {cnt : Nat} {v : Inode} {ptr ptr' : Option Nat}
    {allBlocks : Nat → Nat} (hm : m ≤ s.heap.next) (ha : (s.fileTable g).fdInode = some a)
    (hv : s.inodes a = some v) (hmemory : s.HasMemory 2) (ht : CalmStep m s t)
    (h : Returns (do
      let s ← query id
      putFile g { s.fileTable g with fdPos := (v.iSize + (2 ^ 32 - 1)) % 2 ^ 32 }
      fileWriteLoop g a allBlocks buf cnt 0 cnt true
      let v ← getInode a
      inodeSync v 512
      sysFree ptr
      sysFree ptr'
      return cnt : FsM Int) t r s') :
    SizesGrown m s s' ∧ (a < m → Appended s s' g a cnt v) := by
  simp only [returns_bind (x := query _), returns_query, putFile] at h
  obtain ⟨_, _, ⟨rfl, rfl⟩, h⟩ := h
  obtain ⟨_, t₁, hput, h⟩ := returns_bind.mp h
  obtain rfl := (returns_update _ _).mp hput
  obtain ⟨_, t₂, hloop, h⟩ := returns_bind.mp h
  obtain ⟨w, t₃, hget, h⟩ := returns_bind.mp h
  obtain ⟨-, rfl⟩ := returns_getInode.mp hget
  -- what follows the loop touches neither sizes nor slots
  obtain ⟨_, t₄, hsync, h⟩ := returns_bind.mp h
  obtain ⟨_, t₅, hfree, h⟩ := returns_bind.mp h
  obtain ⟨_, t₆, hfree', h⟩ := returns_bind.mp h
  obtain ⟨-, rfl⟩ := returns_pure.mp h
  have htail : CacheFrame t₂ t₆ :=
    ((keeps_inodeSync (R := CacheFrame) hsync).trans (keeps_sysFree hfree)).trans (keeps_sysFree hfree')
  have htailSize : SizeStep m t₂ t₆ :=
    trans_of (SizeStep m) (trans_of (SizeStep m) (keeps_inodeSync hsync) (keeps_sysFree_size hfree))
      (keeps_sysFree_size hfree')
  let f : File := { t.fileTable g with fdPos := (v.iSize + (2 ^ 32 - 1)) % 2 ^ 32 }
  have hpos : ((t.setSlot g f).fileTable g).fdPos < 2 ^ 32 := by
    show (Function.update t.fileTable g f g).fdPos < 2 ^ 32
    rw [Function.update_self]
    exact Nat.mod_lt _ (by decide)
  have hwritten : Written (t.setSlot g f) t₂ g a cnt := fileWriteLoop_written le_rfl hpos hloop
  obtain ⟨u, hu, -⟩ := ht.frame.ident_some hv
  obtain ⟨u', hu', hsize, -⟩ := hwritten.inode u hu
  have hnext : m ≤ t₂.heap.next := Nat.le_trans (ht.sizes hm).next hwritten.next
  have hsame (ha : a < m) : u.iSize = v.iSize := by
    obtain ⟨v₀, hv₀, heq⟩ := (ht.sizes hm).size a ha u hu
    rw [heq, Option.some.inj (hv.symm.trans hv₀)]
  constructor
  · refine ⟨(htailSize hnext).next, fun b hb x hx => ?_⟩
    obtain ⟨x₂, hx₂, heq₂⟩ := (htailSize hnext).size b hb x hx
    by_cases hba : b = a
    · subst hba
      obtain rfl := Option.some.inj (hu'.symm.trans hx₂)
      refine ⟨v, hv, ?_⟩
      rw [heq₂, hsize, hsame hb]
      exact Nat.le_add_right ..
    · rw [hwritten.other b hba] at hx₂
      obtain ⟨x₀, hx₀, heq₀⟩ := (ht.sizes hm).size b hb x₂ hx₂
      exact ⟨x₀, hx₀, (heq₂.trans heq₀).ge⟩
  · intro hlt
    refine ⟨⟨ha, hv⟩, hmemory, ?_, ?_, fun hne => ?_⟩
    · have hfile : t₂.fileTable = Function.update (Function.update t.fileTable g f) g
          { Function.update t.fileTable g f g with
            fdPos := ((Function.update t.fileTable g f g).fdPos + cnt) % 2 ^ 32 } := hwritten.file
      have hsum : (f.fdPos + cnt) % 2 ^ 32 = (v.iSize + (2 ^ 32 - 1) + cnt) % 2 ^ 32 := Nat.mod_add_mod ..
      rw [htail.fileTable, hfile, Function.update_idem, Function.update_self, hsum, ← ht.frame.fileTable]
    · obtain ⟨x, hx, -⟩ := htail.ident_some hu'
      obtain ⟨x₂, hx₂, heq⟩ := (htailSize hnext).size a hlt x hx
      obtain rfl := Option.some.inj (hu'.symm.trans hx₂)
      exact ⟨x, hx, by rw [heq, hsize, hsame hlt]⟩
    · have hle := hwritten.bound hne u hu
      rw [hsame hlt] at hle
      exact hle

/-- `file_write` gives up with -1 and the slots as they were, or it has appended. -/
theorem fileWrite_parts {buf : Bytes} {cnt : Nat} (hm : m ≤ s.heap.next)
    (h : Returns (fileWrite g buf cnt) s r s') :
    SizesGrown m s s' ∧ (r = -1 ∧ s'.fileTable = s.fileTable ∨ ∃ a v, (s.fileTable g).fdInode = some a ∧ (a < m → Appended s s' g a cnt v)) := by
  simp only [fileWrite, returns_bind (x := query _), returns_query, returns_bind (x := deref _), returns_deref,
    returns_bind (x := getInode _), returns_getInode] at h
  obtain ⟨_, _, ⟨rfl, rfl⟩, a, _, ⟨ha, rfl⟩, v, _, ⟨hv, rfl⟩, h⟩ := h
  have hsame : CalmStep m s s := ⟨refl_of CacheFrame s, refl_of (SizeStep m) s⟩
  -- the ways out that return -1
  have hfail {t : Fs} (ht : CalmStep m s t) (h : Returns (pure (-1 : Int)) t r s') :
      SizesGrown m s s' ∧ (r = -1 ∧ s'.fileTable = s.fileTable ∨ ∃ a v, (s.fileTable g).fdInode = some a ∧ (a < m → Appended s s' g a cnt v)) := by
    obtain ⟨hr, rfl⟩ := returns_pure.mp h
    exact ⟨(ht.sizes hm).grown, Or.inl ⟨hr.symm, ht.frame.fileTable⟩⟩
  split at h
  · exact hfail hsame h
  obtain ⟨ioBuf, t₁, hmalloc, h⟩ := returns_bind.mp h
  have ht₁ := hsame.after hmalloc fun R _ => keeps_sysMalloc
  split at h
  · exact hfail ht₁ h
  next hio =>
  obtain ⟨allBlocksMem, t₂, hmalloc', h⟩ := returns_bind.mp h
  have ht₂ := ht₁.after hmalloc' fun R _ => keeps_sysMalloc
  split at h
  · exact hfail ht₂ h
  next hmem =>
  have hmemory : s.HasMemory 2 := by
    obtain ⟨p, rfl⟩ := Option.ne_none_iff_exists'.mp hio
    obtain ⟨q, rfl⟩ := Option.ne_none_iff_exists'.mp hmem
    exact hasMemory_of_two hmalloc hmalloc' rfl
  have hrest {t : Fs} (b : Bool) (ht : CalmStep m s t)
      (h : Returns (fileWriteRest g a v buf cnt ioBuf allBlocksMem b) t r s') :
      SizesGrown m s s' ∧ (r = -1 ∧ s'.fileTable = s.fileTable ∨ ∃ a v, (s.fileTable g).fdInode = some a ∧ (a < m → Appended s s' g a cnt v)) := by
    rw [fileWriteRest] at h
    split at h
    · exact hfail ht h
    · simp only [returns_bind (x := assert _), returns_assert] at h
      obtain ⟨_, _, ⟨-, rfl⟩, h⟩ := h
      obtain ⟨blocks, t', hcollect, h⟩ := returns_bind.mp h
      have ht' := ht.after hcollect fun R _ => keeps_fileCollectBlocks
      cases blocks with
      | none => exact hfail ht' h
      | some allBlocks =>
        obtain ⟨hgrown, happ⟩ := fileWrite_end hm ha hv hmemory ht' h
        exact ⟨hgrown, Or.inr ⟨a, v, ha, happ⟩⟩
  split at h
  · obtain ⟨lba, t₃, halloc, h⟩ := returns_bind.mp h
    have ht₃ := ht₂.after halloc fun R _ => keeps_blockBitmapAlloc
    cases lba with
    | none => exact hrest false ht₃ h
    | some lba =>
      obtain ⟨_, t₄, hset, h⟩ := returns_bind.mp h
      obtain ⟨_, t₅, hsync, h⟩ := returns_bind.mp h
      have ht₅ := (ht₃.after hset fun R _ => keeps_setInodeSector).after hsync fun R _ => keeps_bitmapSync
      exact hrest true ht₅ h
  · exact hrest true ht₂ h

theorem fileWrite_cases {buf : Bytes} {cnt : Nat} (hm : m ≤ s.heap.next)
    (h : Returns (fileWrite g buf cnt) s r s') :
    SizesGrown m s s' ∧ (s'.fileTable = s.fileTable ∨ ∃ a v, (s.fileTable g).fdInode = some a ∧ (a < m → Appended s s' g a cnt v)) := by
  obtain ⟨hgrown, hparts⟩ := fileWrite_parts hm h
  exact ⟨hgrown, hparts.imp_left fun hfail => hfail.2⟩

theorem keeps_fileWrite_kept {buf : Bytes} {cnt : Nat} : Keeps CacheKept (fileWrite g buf cnt) := by
  refine (keeps_query _).bind fun s => (keeps_deref _).bind fun a => keeps_getInode.bind fun v => ?_
  have hrest (ptr ptr' : Option Nat) (b : Bool) : Keeps CacheKept (fileWriteRest g a v buf cnt ptr' ptr b) := by
    rw [fileWriteRest]
    split
    · exact keeps_pure _
    · refine (keeps_assert _).bind fun _ => keeps_fileCollectBlocks.bind fun blocks => ?_
      cases blocks with
      | none => exact keeps_pure _
      | some allBlocks =>
        exact (keeps_query _).bind fun _ => keeps_putFile_kept.bind fun _ =>
          (keeps_fileWriteLoop (fun _ _ => keeps_putFile_kept) _ _ _ _).bind fun _ => keeps_getInode.bind fun _ =>
            keeps_inodeSync.bind fun _ => keeps_sysFree_kept.bind fun _ => keeps_sysFree_kept.bind fun _ =>
              keeps_pure _
  split
  · exact keeps_pure _
  · refine keeps_sysMalloc.bind fun ioBuf => ?_
    split
    · exact keeps_pure _
    · refine keeps_sysMalloc.bind fun allBlocksMem => ?_
      split
      · exact keeps_pure _
      · split
        · refine keeps_blockBitmapAlloc.bind fun r => ?_
          cases r with
          | none => exact (keeps_pure _).bind fun _ => hrest _ _ _
          | some lba =>
            exact keeps_setInodeSector.bind fun _ => keeps_bitmapSync.bind fun _ =>
              (keeps_pure _).bind fun _ => hrest _ _ _
        · exact (keeps_pure _).bind fun _ => hrest _ _ _

/-! ## file_read -/

/-- The offset of slot `g` after `n` bytes. -/
def Fs.moved (s : Fs) (g n : Nat) : Fs :=
  s.setSlot g { s.fileTable g with fdPos := (s.fileTable g).fdPos + n }

theorem Fs.moved_file : (s.moved g n).fileTable g = { s.fileTable g with fdPos := (s.fileTable g).fdPos + n } :=
  Function.update_self ..

theorem Fs.moved_zero : s.moved g 0 = s := by
  rw [moved, Nat.add_zero, setSlot, Function.update_eq_self]

theorem Fs.moved_moved {k : Nat} : (s.moved g n).moved g k = s.moved g (n + k) := by
  show (s.moved g n).setSlot g { (s.moved g n).fileTable g with fdPos := ((s.moved g n).fileTable g).fdPos + k } = _
  rw [Fs.moved_file, moved, moved, setSlot, setSlot, setSlot, Function.update_idem, Nat.add_assoc]

/-- The data loop of `file_read` moves the offset on, within the blocks a file can have. -/
theorem fileReadLoop_moves {allBlocks : Nat → Nat} {fuel bytesRead sizeLeft : Nat} {dst dst' : Bytes}
    (hfuel : sizeLeft ≤ fuel) (h : Returns (fileReadLoop g allBlocks fuel bytesRead sizeLeft dst) s dst' s') :
    s' = s.moved g sizeLeft ∧ (sizeLeft ≠ 0 → (s.fileTable g).fdPos + sizeLeft ≤ 512 * 140) := by
  induction fuel generalizing s bytesRead sizeLeft dst with
  | zero =>
    obtain rfl : sizeLeft = 0 := by omega
    obtain ⟨-, rfl⟩ := returns_pure.mp h
    exact ⟨Fs.moved_zero.symm, fun hne => absurd rfl hne⟩
  | succ fuel ih =>
    simp only [fileReadLoop] at h
    split at h
    · next hzero =>
      subst hzero
      obtain ⟨-, rfl⟩ := returns_pure.mp h
      exact ⟨Fs.moved_zero.symm, fun hne => absurd rfl hne⟩
    · simp only [returns_bind, returns_query, returns_require, returns_ideRead_sector, putFile, returns_update,
        id_eq] at h
      obtain ⟨_, _, ⟨rfl, rfl⟩, _, _, ⟨hidx, rfl⟩, ioBuf, _, ⟨-, -, -, rfl⟩, _, _, rfl, h⟩ := h
      generalize hchunk : (if sizeLeft < 512 - (s.fileTable g).fdPos % 512 then sizeLeft
        else 512 - (s.fileTable g).fdPos % 512) = chunk at h
      have hchunk₁ : chunk ≤ sizeLeft ∧ 0 < chunk ∧ (s.fileTable g).fdPos + chunk ≤ 512 * 140 := by
        have hmod := Nat.div_add_mod (s.fileTable g).fdPos 512
        split at hchunk <;> omega
      have hmove : ((s.fileTable g).fdPos + chunk) % 2 ^ 32 = (s.fileTable g).fdPos + chunk :=
        Nat.mod_eq_of_lt (by omega)
      rw [hmove] at h
      -- the rest goes on from the offset after this chunk
      obtain ⟨hs', hbound⟩ := ih (s := s.moved g chunk) (by omega) h
      refine ⟨?_, fun _ => ?_⟩
      · rw [hs', Fs.moved_moved, Nat.add_sub_cancel' hchunk₁.1]
      · by_cases hzero : sizeLeft - chunk = 0
        · omega
        · have hlast := hbound hzero
          have hpos : ((s.moved g chunk).fileTable g).fdPos = (s.fileTable g).fdPos + chunk :=
            congrArg File.fdPos Fs.moved_file
          omega

section Reading

variable {R : Fs → Fs → Prop} [Calm R]

theorem keeps_fileReadBlocks {v : Inode} {startIdx endIdx : Nat} : Keeps R (fileReadBlocks v startIdx endIdx) := by
  unfold fileReadBlocks
  split
  · split
    · exact keeps_pure _
    · exact keeps_ideRead.bind fun _ => keeps_pure _
  · split
    · exact keeps_pure _
    · split
      · exact (keeps_assert _).bind fun _ => keeps_ideRead.bind fun _ => keeps_pure _
      · exact (keeps_assert _).bind fun _ => keeps_ideRead.bind fun _ => keeps_pure _

theorem keeps_fileReadLoop (hfile : ∀ g f, Keeps R (putFile g f)) {allBlocks : Nat → Nat}
    (fuel bytesRead sizeLeft : Nat) (dst : Bytes) : Keeps R (fileReadLoop g allBlocks fuel bytesRead sizeLeft dst) := by
  induction fuel generalizing bytesRead sizeLeft dst with
  | zero => exact keeps_pure _
  | succ fuel ih =>
    simp only [fileReadLoop]
    split
    · exact keeps_pure _
    · exact (keeps_query _).bind fun _ => (keeps_require _).bind fun _ => keeps_ideRead.bind fun _ =>
        (hfile _ _).bind fun _ => ih _ _ _

theorem keeps_fileRead {cnt : Nat} (hfile : ∀ g f, Keeps R (putFile g f)) (hfree : ∀ ptr, Keeps R (sysFree ptr)) :
    Keeps R (fileRead g cnt) := by
  refine (keeps_query _).bind fun s => (keeps_deref _).bind fun a => keeps_getInode.bind fun v => ?_
  dsimp only
  split
  · exact keeps_pure _
  · refine keeps_sysMalloc.bind fun ioBuf => ?_
    split
    · exact keeps_pure _
    · refine keeps_sysMalloc.bind fun allBlocksMem => ?_
      split
      · exact keeps_pure _
      · exact (keeps_assert _).bind fun _ => keeps_fileReadBlocks.bind fun _ =>
          (keeps_fileReadLoop hfile _ _ _ _).bind fun _ => (hfree _).bind fun _ => (hfree _).bind fun _ => keeps_pure _

end Reading

/-- `file_read` leaves the offset alone, or moves it on by the bytes it reads. -/
theorem fileRead_cases {cnt : Nat} {r : Int × Bytes} (h : Returns (fileRead g cnt) s r s') :
    s'.fileTable = s.fileTable ∨ ∃ a v, (s.fileTable g).fdInode = some a ∧ s.inodes a = some v ∧
      s'.fileTable = (s.moved g (fileReadSize (s.fileTable g).fdPos v.iSize cnt)).fileTable ∧
      (fileReadSize (s.fileTable g).fdPos v.iSize cnt ≠ 0 →
        (s.fileTable g).fdPos + fileReadSize (s.fileTable g).fdPos v.iSize cnt ≤ 512 * 140) := by
  simp only [fileRead, returns_bind (x := query _), returns_query, returns_bind (x := deref _), returns_deref,
    returns_bind (x := getInode _), returns_getInode, id_eq] at h
  obtain ⟨_, _, ⟨rfl, rfl⟩, a, _, ⟨ha, rfl⟩, v, _, ⟨hv, rfl⟩, h⟩ := h
  generalize hsize : fileReadSize (s.fileTable g).fdPos v.iSize cnt = size at h
  split at h
  · obtain ⟨-, rfl⟩ := returns_pure.mp h
    exact Or.inl rfl
  obtain ⟨ioBuf, t₁, hmalloc, h⟩ := returns_bind.mp h
  have ht₁ := (keeps_sysMalloc (R := CacheFrame) hmalloc).fileTable
  split at h
  · obtain ⟨-, rfl⟩ := returns_pure.mp h
    exact Or.inl ht₁
  obtain ⟨allBlocksMem, t₂, hmalloc', h⟩ := returns_bind.mp h
  have ht₂ := (keeps_sysMalloc (R := CacheFrame) hmalloc').fileTable.trans ht₁
  split at h
  · obtain ⟨-, rfl⟩ := returns_pure.mp h
    exact Or.inl ht₂
  simp only [returns_bind (x := assert _), returns_assert] at h
  obtain ⟨_, _, ⟨-, rfl⟩, h⟩ := h
  obtain ⟨allBlocks, t₃, hblocks, h⟩ := returns_bind.mp h
  have ht₃ := (keeps_fileReadBlocks (R := CacheFrame) hblocks).fileTable.trans ht₂
  obtain ⟨dst, t₄, hloop, h⟩ := returns_bind.mp h
  obtain ⟨_, t₅, hfree, h⟩ := returns_bind.mp h
  obtain ⟨_, t₆, hfree', h⟩ := returns_bind.mp h
  obtain ⟨-, rfl⟩ := returns_pure.mp h
  obtain ⟨rfl, hbound⟩ := fileReadLoop_moves le_rfl hloop
  have hlast : t₆.fileTable = (t₃.moved g size).fileTable :=
    (keeps_sysFree hfree').fileTable.trans (keeps_sysFree hfree).fileTable
  refine Or.inr ⟨a, v, ha, hv, ?_⟩
  rw [hsize]
  refine ⟨?_, ?_⟩
  · rw [hlast]
    show Function.update t₃.fileTable g { t₃.fileTable g with fdPos := (t₃.fileTable g).fdPos + size } = _
    rw [ht₃]
    rfl
  · rw [← ht₃]
    exact hbound

/-! ## The calls on descriptors -/

theorem keeps_putFile_size {f : File} : Keeps (SizeStep m) (putFile g f) := keeps_update fun _ => .of_inodes rfl rfl le_rfl

theorem keeps_fileClose_size : Keeps (SizeStep m) (fileClose g) := by
  intro s r s' h
  simp only [fileClose, returns_bind (x := query _), returns_query, returns_bind (x := deref _), returns_deref,
    returns_bind (x := getInode _), returns_getInode, returns_bind (x := putInode _ _), returns_putInode] at h
  obtain ⟨_, _, ⟨rfl, rfl⟩, a, _, ⟨-, rfl⟩, v, _, ⟨hv, rfl⟩, _, _, rfl, h⟩ := h
  have hdeny : SizeStep m s (s.setInode a { v with writeDeny := false }) := .setInode hv rfl
  have hrest : Keeps (SizeStep m) (do
      inodeClose a
      let s ← query id
      putFile g { s.fileTable g with fdInode := none }
      return (0 : Int)) :=
    keeps_inodeClose_size.bind fun _ => (keeps_query _).bind fun _ => keeps_putFile_size.bind fun _ => keeps_pure _
  exact trans_of (SizeStep m) hdeny (hrest h)

/-- No slot belongs to a pipe. -/
def Fs.NoPipe (s : Fs) : Prop := ∀ g, (s.fileTable g).fdFlag ≠ pipeFlag

variable {fd : Int}

theorem isPipe_false {b : Bool} (hpipe : s.NoPipe) (h : Returns (isPipe fd) s b s') : b = false ∧ s' = s := by
  obtain ⟨rfl, g, -, rfl⟩ := returns_isPipe h
  exact ⟨decide_eq_false (hpipe g), rfl⟩

theorem sysClose_size (hpipe : s.NoPipe) (hm : m ≤ s.heap.next) (h : Returns (sysClose fd) s r s') :
    SizesKept m s s' := by
  by_cases hfd : fd > 2
  · obtain ⟨f, hf, rfl⟩ := FileWorld.fin_of_sysClose hfd h
    obtain ⟨g, s₁, -, hset, ⟨hflag, -⟩ | ⟨-, r', hclose⟩⟩ := sysClose_inv hf h
    · exact absurd hflag (hpipe g)
    · have hsetFd : Keeps (SizeStep m) (setFd f.val (-1)) := by
        refine keeps_runningThread.bind fun _ => ?_
        split
        · exact keeps_update fun _ => .of_inodes rfl rfl le_rfl
        · exact keeps_stop _
      exact trans_of (SizeStep m) (keeps_fileClose_size hclose) (hsetFd hset) hm
  · rw [sysClose, if_neg hfd] at h
    obtain ⟨-, rfl⟩ := returns_pure.mp h
    exact ⟨hm, rfl, fun a _ v hv => ⟨v, hv, rfl⟩⟩

/-- `sys_read` on a descriptor of a file. -/
theorem sysRead_file {cnt : Nat} {kbd : Bytes} {r : Int × Bytes} (hpipe : s.NoPipe)
    (h : Returns (sysRead fd cnt kbd) s r s') : s' = s ∨ ∃ g, Returns (fileRead g cnt) s r s' := by
  simp only [sysRead, returns_bind, returns_assert] at h
  obtain ⟨_, _, ⟨-, rfl⟩, h⟩ := h
  split at h
  · obtain ⟨-, rfl⟩ := returns_pure.mp h
    exact Or.inl rfl
  · obtain ⟨b, _, hb, hrest⟩ := returns_bind.mp h
    clear h
    obtain ⟨rfl, rfl⟩ := isPipe_false hpipe hb
    rw [if_neg Bool.false_ne_true] at hrest
    split at hrest
    · obtain ⟨-, rfl⟩ := returns_pure.mp hrest
      exact Or.inl rfl
    · obtain ⟨g, _, hg, h⟩ := returns_bind.mp hrest
      obtain ⟨rfl, -⟩ := returns_fdLocalToGlobal hg
      exact Or.inr ⟨g, h⟩

/-- `sys_write` on a descriptor of a file. -/
theorem sysWrite_file {buf : Bytes} {cnt : Nat} (hpipe : s.NoPipe) (h : Returns (sysWrite fd buf cnt) s r s') :
    s' = s ∨ ∃ f : Fin 8, ∃ g : Nat, fd = f.val ∧ s.fdAt s.cur f = g ∧ g < maxFilesOpen ∧
      writable (s.fileTable g).fdFlag = true ∧ Returns (fileWrite g buf cnt) s r s' := by
  simp only [sysWrite] at h
  split at h
  · obtain ⟨-, rfl⟩ := returns_pure.mp h
    exact Or.inl rfl
  · obtain ⟨b, _, hb, hrest⟩ := returns_bind.mp h
    clear h
    obtain ⟨rfl, rfl⟩ := isPipe_false hpipe hb
    rw [if_neg Bool.false_ne_true, if_neg Bool.false_ne_true] at hrest
    split at hrest
    · simp only [returns_bind, returns_require, returns_pure] at hrest
      obtain ⟨_, _, ⟨-, rfl⟩, -, rfl⟩ := hrest
      exact Or.inl rfl
    · obtain ⟨g, _, hg, h⟩ := returns_bind.mp hrest
      have hlt := fdLocalToGlobal_lt hg
      obtain ⟨rfl, hrange, hat⟩ := returns_fdLocalToGlobal hg
      simp only [returns_bind (x := query _), returns_query] at h
      obtain ⟨_, _, ⟨rfl, rfl⟩, h⟩ := h
      split at h
      · next hw =>
        refine Or.inr ⟨⟨fd.toNat, by omega⟩, g, ?_, ?_, hlt, hw, h⟩
        · exact (Int.toNat_of_nonneg hrange.1).symm
        · exact hat
      · obtain ⟨-, rfl⟩ := returns_pure.mp h
        exact Or.inl rfl

/-- `sys_lseek` leaves the offset alone or sets it to a place below the size. -/
theorem sysLseek_cases {offset : Int} {whence : Nat} (h : Returns (sysLseek fd offset whence) s r s') :
    s' = s ∨ ∃ g a pos, (s.fileTable g).fdInode = some a ∧ (∀ v, s.inodes a = some v → pos ≤ v.iSize) ∧
      s' = s.setSlot g { s.fileTable g with fdPos := pos } := by
  simp only [sysLseek, returns_bind, returns_assert, returns_query, returns_deref] at h
  obtain ⟨_, _, ⟨-, rfl⟩, _, _, ⟨-, rfl⟩, g, _, hg, _, _, ⟨rfl, rfl⟩, a, _, ⟨ha, rfl⟩, size, t, hsize, h⟩ := h
  obtain ⟨rfl, -⟩ := returns_fdLocalToGlobal hg
  generalize lseekPos whence offset (s.fileTable g).fdPos size = newPos at h
  have hsize' : t = s ∧ ∀ v, s.inodes a = some v → size - 1 ≤ v.iSize := by
    simp only [fileSize, returns_bind, returns_query] at hsize
    obtain ⟨_, _, ⟨rfl, rfl⟩, hsize⟩ := hsize
    split at hsize
    · obtain ⟨rfl, rfl⟩ := returns_pure.mp hsize
      refine ⟨rfl, fun v _ => ?_⟩
      omega
    · simp only [returns_bind, returns_getInode, returns_pure] at hsize
      obtain ⟨w, _, ⟨hw, rfl⟩, rfl, rfl⟩ := hsize
      refine ⟨rfl, fun v hv => ?_⟩
      obtain rfl := Option.some.inj (hw.symm.trans hv)
      have hmod := Int.bmod_le (x := w.iSize) (m := 2 ^ 32) (by decide)
      rw [Int.bmod_def]
      split <;> omega
  obtain ⟨rfl, hsize'⟩ := hsize'
  split at h
  · obtain ⟨-, rfl⟩ := returns_pure.mp h
    exact Or.inl rfl
  · simp only [putFile, returns_bind, returns_update, returns_pure] at h
    obtain ⟨_, _, rfl, -, rfl⟩ := h
    refine Or.inr ⟨g, a, newPos.toNat, ha, fun v hv => ?_, ?_⟩
    · have := hsize' v hv
      omega
    · rfl

/-! ## Runs -/

/-- No file is at an offset behind its end. -/
structure OffsetsOk (s : Fs) : Prop where
  files : FilesOk s fun _ _ => none
  offset : ∀ g < maxFilesOpen, ∀ a v, (s.fileTable g).fdInode = some a → s.inodes a = some v →
    (s.fileTable g).fdPos ≤ v.iSize

/-- A slot that has changed is checked, the files of the others have not become smaller. -/
theorem OffsetsOk.step (h : OffsetsOk s) (hfiles : FilesOk s' fun _ _ => none)
    (hgrown : SizesGrown s.heap.next s s')
    (hslot : ∀ g < maxFilesOpen, s'.fileTable g = s.fileTable g ∨ ∀ a v, (s'.fileTable g).fdInode = some a →
      s'.inodes a = some v → (s'.fileTable g).fdPos ≤ v.iSize) : OffsetsOk s' where
  files := hfiles
  offset := by
    intro g hg a v' ha hv'
    rcases hslot g hg with heq | hpos
    · rw [heq] at ha ⊢
      obtain ⟨v, hv⟩ := h.files.exists_inode hg ha
      have hlt := h.files.cache.inode_lt a (by rw [hv]; exact Option.some_ne_none v)
      obtain ⟨w, hw, hle⟩ := hgrown.size a hlt v' hv'
      exact (h.offset g hg a w ha hw).trans hle
    · exact hpos a v' ha hv'

/-- Only the slot `g` changes. -/
theorem OffsetsOk.slot {f : File} (h : OffsetsOk s) (hfiles : FilesOk s' fun _ _ => none)
    (hgrown : SizesGrown s.heap.next s s') (hfile : s'.fileTable = Function.update s.fileTable g f)
    (hpos : ∀ a v, f.fdInode = some a → s'.inodes a = some v → f.fdPos ≤ v.iSize) : OffsetsOk s' := by
  refine h.step hfiles hgrown fun i _ => ?_
  by_cases hi : i = g
  · subst hi
    rw [hfile, Function.update_self]
    exact Or.inr hpos
  · exact Or.inl (by rw [hfile, Function.update_of_ne hi])

theorem FilesOk.forget {den : Nat → Fin 8 → Option Nat} (h : FilesOk s den) : FilesOk s fun _ _ => none :=
  ⟨h.cache, h.no_pipe, h.counted, fun _ _ _ hn => by cases hn⟩

/-- References and inodes of the slots stay, whatever their offsets. -/
theorem FilesOk.kept (h : FilesOk s fun _ _ => none) (hkept : CacheKept s s')
    (hslot : ∀ g, (s'.fileTable g).fdInode = (s.fileTable g).fdInode ∧
      (s'.fileTable g).fdFlag = (s.fileTable g).fdFlag) : FilesOk s' fun _ _ => none := by
  apply h.grow (hkept.refs h.cache) (fun _ => le_rfl)
  · intro g
    rw [(hslot g).2]
    exact h.no_pipe g
  · intro a
    have hslots : s'.slotsOf a = s.slotsOf a := by
      simp only [Fs.slotsOf, (hslot _).1]
    rw [hslots]
    exact (add_zero _).ge
  · intro g a ha
    rw [(hslot g).1]
    exact ha
  · intro t fd n hn
    cases hn

/-- What `FilesOk.kept` asks of a slot that moves. -/
theorem slot_moved {p : Nat} (hfile : s'.fileTable = Function.update s.fileTable g { s.fileTable g with fdPos := p })
    (i : Nat) : (s'.fileTable i).fdInode = (s.fileTable i).fdInode ∧
      (s'.fileTable i).fdFlag = (s.fileTable i).fdFlag := by
  rw [hfile]
  by_cases hi : i = g
  · subst hi
    rw [Function.update_self]
    exact ⟨rfl, rfl⟩
  · rw [Function.update_of_ne hi]
    exact ⟨rfl, rfl⟩

/-- The calls under which no offset gets behind the end of its file: opening, closing,
    reading, seeking, and writing anything but nothing to an empty file. -/
def Fs.KeepsOffsets (s : Fs) (e : Nat × FsCall) : Prop :=
  match e.2 with
  | .openFile path _ => ∀ rec s₁, Fs.Finds { s with cur := e.1 } path none rec s₁ → s₁.RoomFor rec.parentDir
  | .write fd _ 0 => ∀ f : Fin 8, ∀ g a v, fd = f.val → s.fdAt e.1 f = (g : Nat) →
      (s.fileTable g).fdInode = some a → s.inodes a = some v → writable (s.fileTable g).fdFlag = true →
        Fs.HasMemory { s with cur := e.1 } 2 → v.iSize ≠ 0
  | .write .. | .close _ | .read .. | .lseek .. | .create .. => True
  | _ => False

theorem OffsetsOk.withCur (h : OffsetsOk s) (t : Nat) : OffsetsOk { s with cur := t } :=
  ⟨FileWorld.filesOk_withCur h.files t, h.offset⟩

theorem OffsetsOk.openFile (h : OffsetsOk s)
    (hroom : ∀ rec s₁, s.Finds path none rec s₁ → s₁.RoomFor rec.parentDir)
    (hret : Returns (sysOpen path flags) s r s') : OffsetsOk s' := by
  have hfiles := (h.files.sysOpen hret).forget
  have hgrown := sysOpen_grown hroom le_rfl hret
  rcases sysOpen_opened h.files.cache hret with ⟨-, p, hheld⟩ | ⟨g, a, d, hopened⟩
  · exact h.step hfiles hgrown fun g _ => Or.inl (by rw [hheld.fileTable])
  · exact h.slot hfiles hgrown hopened.file fun _ _ _ _ => Nat.zero_le _

theorem OffsetsOk.close (h : OffsetsOk s) (hret : Returns (sysClose fd) s r s') : OffsetsOk s' := by
  have hgrown := (sysClose_size h.files.no_pipe le_rfl hret).grown
  by_cases hfd : fd > 2
  · obtain ⟨f, hf, rfl⟩ := FileWorld.fin_of_sysClose hfd hret
    have hun : s.Unshared (fun _ _ => none) s.cur f := fun _ _ _ _ hne => absurd rfl hne
    obtain ⟨g, a, -, -, -, -, -, hfile, -⟩ := sysClose_file h.files.cache h.files.no_pipe hf hret
    refine h.slot (h.files.closeFd hf hun hret).1.forget hgrown hfile fun a v ha _ => ?_
    cases ha
  · rw [sysClose, if_neg hfd] at hret
    obtain ⟨-, rfl⟩ := returns_pure.mp hret
    exact h

/-- A read ends at the end of the file at the latest. -/
theorem fileReadSize_le {pos size cnt : Nat} (hpos : pos ≤ size)
    (hbound : fileReadSize pos size cnt ≠ 0 → pos + fileReadSize pos size cnt ≤ 512 * 140) :
    pos + fileReadSize pos size cnt ≤ size := by
  unfold fileReadSize at hbound ⊢
  split at hbound
  · rw [if_pos ‹_›]
    omega
  · rw [if_neg ‹_›]
    omega

theorem OffsetsOk.read {cnt : Nat} {kbd : Bytes} {r : Int × Bytes} (h : OffsetsOk s)
    (hret : Returns (sysRead fd cnt kbd) s r s') : OffsetsOk s' := by
  rcases sysRead_file h.files.no_pipe hret with rfl | ⟨g, hread⟩
  · exact h
  have hkept : CacheKept s s' :=
    keeps_fileRead (fun _ _ => keeps_putFile_kept) (fun _ => keeps_sysFree_kept) hread
  have hsize : SizeStep s.heap.next s s' :=
    keeps_fileRead (fun _ _ => keeps_putFile_size) (fun _ => keeps_sysFree_size) hread
  have hgrown := (hsize le_rfl).grown
  rcases fileRead_cases hread with hfile | ⟨a, v, ha, hv, hfile, hbound⟩
  · refine h.step (h.files.kept hkept fun g => ?_) hgrown fun g _ => Or.inl (by rw [hfile])
    rw [hfile]
    exact ⟨rfl, rfl⟩
  · -- the file of the slot keeps its size
    refine h.step (h.files.kept hkept (slot_moved hfile)) hgrown fun i hi => ?_
    by_cases hig : i = g
    · subst hig
      refine Or.inr fun b w hb hw => ?_
      rw [hfile, Fs.moved_file] at hb ⊢
      obtain rfl := Option.some.inj (ha.symm.trans hb)
      have hlt := h.files.cache.inode_lt a (by rw [hv]; exact Option.some_ne_none v)
      obtain ⟨v₀, hv₀, heq⟩ := (hsize le_rfl).size a hlt w hw
      obtain rfl := Option.some.inj (hv.symm.trans hv₀)
      rw [heq]
      exact fileReadSize_le (h.offset i hi a v ha hv) hbound
    · exact Or.inl (by rw [hfile]; exact Function.update_of_ne hig ..)

theorem OffsetsOk.write {buf : Bytes} {cnt : Nat} (h : OffsetsOk s)
    (hkeeps : cnt = 0 → ∀ f : Fin 8, ∀ g a v, fd = f.val → s.fdAt s.cur f = (g : Nat) →
      (s.fileTable g).fdInode = some a → s.inodes a = some v → writable (s.fileTable g).fdFlag = true →
        s.HasMemory 2 → v.iSize ≠ 0)
    (hret : Returns (sysWrite fd buf cnt) s r s') : OffsetsOk s' := by
  rcases sysWrite_file h.files.no_pipe hret with rfl | ⟨f, g, rfl, hat, hg, hwrite, hret⟩
  · exact h
  have hkept := keeps_fileWrite_kept hret
  obtain ⟨hgrown, hfile | ⟨a, v, ha, happ⟩⟩ := fileWrite_cases le_rfl hret
  · refine h.step (h.files.kept hkept fun g => ?_) hgrown fun g _ => Or.inl (by rw [hfile])
    rw [hfile]
    exact ⟨rfl, rfl⟩
  · obtain ⟨w, hw⟩ := h.files.exists_inode hg ha
    have happ := happ (h.files.cache.inode_lt a (by rw [hw]; exact Option.some_ne_none w))
    refine h.slot (h.files.kept hkept (slot_moved happ.file)) hgrown happ.file fun b u hb hu => ?_
    obtain rfl := Option.some.inj (ha.symm.trans hb)
    obtain ⟨v', hv', hsize⟩ := happ.size
    obtain rfl := Option.some.inj (hv'.symm.trans hu)
    have hpos := h.offset g hg a v ha happ.inode.2
    show (v.iSize + (2 ^ 32 - 1) + cnt) % 2 ^ 32 ≤ v'.iSize
    by_cases hcnt : cnt = 0
    · have hne := hkeeps hcnt f g a v rfl hat ha happ.inode.2 hwrite happ.memory
      omega
    · have hbound := happ.bound hcnt
      omega

theorem OffsetsOk.lseek {offset : Int} {whence : Nat} (h : OffsetsOk s)
    (hret : Returns (sysLseek fd offset whence) s r s') : OffsetsOk s' := by
  rcases sysLseek_cases hret with rfl | ⟨g, a, pos, ha, hpos, rfl⟩
  · exact h
  have hgrown : SizesGrown s.heap.next s (s.setSlot g { s.fileTable g with fdPos := pos }) :=
    ⟨le_rfl, fun _ _ v hv => ⟨v, hv, le_rfl⟩⟩
  refine h.slot (h.files.kept .setFile (slot_moved rfl)) hgrown rfl fun b v hb hv => ?_
  obtain rfl := Option.some.inj (ha.symm.trans hb)
  exact hpos v hv

/-- The result of a call is not looked at. -/
theorem returns_ignored {α : Type} {x : FsM α} (h : Returns (x >>= fun _ => pure ()) s () s') :
    ∃ r, Returns x s r s' := by
  obtain ⟨r, _, hx, hpure⟩ := returns_bind.mp h
  obtain ⟨-, rfl⟩ := returns_pure.mp hpure
  exact ⟨r, hx⟩

theorem step_offsetsOk {e : Nat × FsCall} (h : OffsetsOk s) (hkeeps : s.KeepsOffsets e) (hstep : s.Step e s') :
    OffsetsOk s' := by
  obtain ⟨t, call⟩ := e
  obtain ⟨-, hret⟩ := hstep
  have hcur := h.withCur t
  cases call with
  | openFile path flags =>
    obtain ⟨r, hret⟩ := returns_ignored hret
    exact hcur.openFile hkeeps hret
  | close fd =>
    obtain ⟨r, hret⟩ := returns_ignored hret
    exact hcur.close hret
  | read fd cnt kbd =>
    obtain ⟨r, hret⟩ := returns_ignored hret
    exact hcur.read hret
  | write fd buf cnt =>
    obtain ⟨r, hret⟩ := returns_ignored hret
    refine hcur.write (fun hcnt => ?_) hret
    subst hcnt
    exact hkeeps
  | lseek fd offset whence =>
    obtain ⟨r, hret⟩ := returns_ignored hret
    exact hcur.lseek hret
  | create child userSpace =>
    obtain rfl := (returns_update _ _).mp hret
    refine ⟨⟨⟨?_, ?_, ?_, ?_, ?_⟩, ?_, ?_, ?_⟩, h.offset⟩
    · exact h.files.cache.nodup
    · exact h.files.cache.mem
    · exact h.files.cache.pos
    · exact h.files.cache.inode_lt
    · exact h.files.cache.dir_lt
    · exact h.files.no_pipe
    · exact h.files.counted
    · intro t fd n hn
      cases hn
  | _ => exact absurd hkeeps id

/-! ## After mounting -/

/-- No inode and no handle is in memory, and no slot is taken. -/
structure Fs.Unused (s : Fs) : Prop where
  openInodes : s.openInodes = []
  inodes : ∀ a, s.inodes a = none
  dirs : ∀ d, s.dirs d = none
  slots : ∀ g, s.fileTable g = { fdPos := 0, fdFlag := 0, fdInode := none }

def UnusedStep (s s' : Fs) : Prop := s.Unused → s'.Unused

instance : Std.Refl UnusedStep := ⟨fun _ h => h⟩

instance : IsTrans Fs UnusedStep := ⟨fun _ _ _ h h' hs => h' (h hs)⟩

instance : Calm UnusedStep where
  disk _ _ h := ⟨h.openInodes, h.inodes, h.dirs, h.slots⟩
  inodeMap _ _ h := ⟨h.openInodes, h.inodes, h.dirs, h.slots⟩
  blockBitmap _ _ h := ⟨h.openInodes, h.inodes, h.dirs, h.slots⟩
  sector _ a _ _ _ hv h := by
    rw [h.inodes a] at hv
    cases hv
  refused _ h := ⟨h.openInodes, h.inodes, h.dirs, h.slots⟩
  served _ _ h := ⟨h.openInodes, h.inodes, h.dirs, h.slots⟩

theorem keeps_partitionMount_unused {startLba secCnt : Nat} : Keeps UnusedStep (partitionMount startLba secCnt) := by
  refine keeps_sysMalloc.bind fun _ => keeps_sysMalloc.bind fun _ => (keeps_assert _).bind fun _ =>
    (keeps_fits _).bind fun _ => keeps_ideRead.bind fun _ => keeps_sysMalloc.bind fun _ =>
      (keeps_assert _).bind fun _ => keeps_ideRead.bind fun _ => keeps_sysMalloc.bind fun _ =>
        (keeps_assert _).bind fun _ => keeps_ideRead.bind fun _ => keeps_update fun s h => ?_
  exact ⟨rfl, h.inodes, h.dirs, h.slots⟩

/-- After mounting only the root directory is open. -/
theorem mounted_offsetsOk {disk : Bytes} {full : Nat → Bool} {startLba secCnt : Nat}
    (h : Fs.Mounted disk full startLba secCnt s) : OffsetsOk s := by
  obtain ⟨_, t, hmount, hroot⟩ := returns_bind.mp h
  have hunused : t.Unused :=
    keeps_partitionMount_unused hmount ⟨rfl, fun _ => rfl, fun _ => rfl, fun _ => rfl⟩
  have hok : t.CacheOk := by
    refine ⟨?_, fun a => ?_, fun a v hv => ?_, fun a ha => absurd (hunused.inodes a) ha,
      fun d hd => absurd (hunused.dirs d) hd⟩
    · rw [hunused.openInodes]
      exact List.nodup_nil
    · rw [hunused.openInodes, hunused.inodes a]
      simp
    · rw [hunused.inodes a] at hv
      cases hv
  simp only [openRootDir, returns_bind, returns_query, returns_update] at hroot
  obtain ⟨_, _, ⟨rfl, rfl⟩, a, u, hopen, rfl⟩ := hroot
  obtain ⟨hstep, -, -⟩ := inodeOpen_step hok hopen
  have hslots (g : Nat) : u.fileTable g = { fdPos := 0, fdFlag := 0, fdInode := none } := by
    rw [hstep.fileTable]
    exact hunused.slots g
  refine ⟨⟨⟨hstep.ok.nodup, hstep.ok.mem, hstep.ok.pos, hstep.ok.inode_lt, hstep.ok.dir_lt⟩, fun g => ?_,
    fun b => ?_, fun _ _ _ hn => by cases hn⟩, fun g _ b v hb _ => ?_⟩
  · show (u.fileTable g).fdFlag ≠ pipeFlag
    rw [hslots g]
    decide
  · have hempty : Fs.slotsOf { u with rootDir := { inode := a, dirPose := 0 } } b = ∅ := by
      apply Finset.eq_empty_of_forall_notMem
      intro g hg
      have hb := (Fs.mem_slotsOf.mp hg).2
      have hnone : (u.fileTable g).fdInode = none := by rw [hslots g]
      cases hnone.symm.trans hb
    rw [hempty]
    exact Nat.zero_le _
  · have hnone : (u.fileTable g).fdInode = none := by rw [hslots g]
    cases hnone.symm.trans hb

/-! ## Reading at an offset -/

/-- A read of `cnt` bytes at `pos` in a file: the sum does not wrap around, the read ends
    before the last block a file can have, and the index table is there if it gets so far. -/
def ReadInReach (pos cnt : Nat) (v : Inode) : Prop :=
  (pos + cnt < 2 ^ 32 ∨ v.iSize < (pos + cnt) % 2 ^ 32) ∧ min (pos + cnt) v.iSize < 139 * 512 ∧
    (12 * 512 ≤ min (pos + cnt) v.iSize → v.sector 12 ≠ 0)

/-- What `file_read` computes from `fd_pos`, `cnt` and the inode: the size does not wrap
    around, and the indices of the first and the last block satisfy its assertions. -/
def ReadsInside (pos cnt : Nat) (v : Inode) : Prop :=
  let size := fileReadSize pos v.iSize cnt
  let blockReadStartIdx := pos / 512
  let blockReadEndIdx := (pos + size) % 2 ^ 32 / 512
  size = min cnt (v.iSize - pos) ∧ blockReadStartIdx ≤ blockReadEndIdx ∧ blockReadStartIdx < 139 ∧
    blockReadEndIdx < 139 ∧ (blockReadStartIdx ≠ blockReadEndIdx → 12 ≤ blockReadEndIdx → v.sector 12 ≠ 0)

theorem fileReadSize_eq {pos size cnt : Nat} (hpos : pos ≤ size)
    (hsum : pos + cnt < 2 ^ 32 ∨ size < (pos + cnt) % 2 ^ 32) : fileReadSize pos size cnt = min cnt (size - pos) := by
  unfold fileReadSize
  split
  · have hlt : size < 2 ^ 32 := by omega
    omega
  · omega

theorem readsInside {pos cnt : Nat} {v : Inode} (hpos : pos ≤ v.iSize) (h : ReadInReach pos cnt v) :
    ReadsInside pos cnt v := by
  obtain ⟨hsum, hend, htable⟩ := h
  have hsize := fileReadSize_eq hpos hsum
  have hlast : (pos + fileReadSize pos v.iSize cnt) % 2 ^ 32 = min (pos + cnt) v.iSize := by
    rw [hsize]
    omega
  have hle : pos ≤ min (pos + cnt) v.iSize := by omega
  refine ⟨hsize, ?_, ?_, ?_, fun _ htwelve => htable ?_⟩
  · rw [hlast]
    exact Nat.div_le_div_right hle
  · omega
  · omega
  · omega

end Grown

/-- Every open file is at an offset within it, after every call of a run in which nobody
    writes nothing to an empty file; there `file_read` computes what it should and its
    assertions hold. -/
theorem offsets_within_files (disk : Bytes) (full : Nat → Bool) (startLba secCnt : Nat) (s₀ s : Fs)
    (h₀ : Fs.Mounted disk full startLba secCnt s₀) (hrun : Fs.Run Fs.KeepsOffsets s₀ s) :
    ∀ g < maxFilesOpen, ∀ a, (s.fileTable g).fdInode = some a → ∃ v, s.inodes a = some v ∧
      (s.fileTable g).fdPos ≤ v.iSize ∧
      ∀ cnt, ReadInReach (s.fileTable g).fdPos cnt v → ReadsInside (s.fileTable g).fdPos cnt v := by
  have hok : OffsetsOk s :=
    hrun.invariant (mounted_offsetsOk h₀) fun _ _ _ h hkeeps hstep => step_offsetsOk h hkeeps hstep
  intro g hg a ha
  obtain ⟨v, hv⟩ := hok.files.exists_inode hg ha
  have hpos := hok.offset g hg a v ha hv
  exact ⟨v, hv, hpos, fun cnt => readsInside hpos⟩

instance (s : Fs) (d : DirPtr) : Decidable (s.RoomFor d) :=
  decidable_of_iff (((s.handle d).bind s.inodes).all fun v => v.iSize + s.part.sb.dirEntrySize < 2 ^ 32) <| by
    rw [Option.all_eq_true_iff_get]
    constructor
    · intro h a v ha hv
      have hsome : (s.handle d).bind s.inodes = some v := by rw [ha]; exact hv
      simpa [hsome] using h
    · intro h hsome
      obtain ⟨v, hv⟩ := Option.isSome_iff_exists.mp hsome
      obtain ⟨a, ha, hav⟩ := Option.bind_eq_some_iff.mp hv
      simpa [hv] using h a v ha hav

/-- A file is created and three bytes are written to it. -/
theorem offsets_within_files_written : ∃ s : Fs, ∃ a v, (s.fileTable 3).fdInode = some a ∧ s.inodes a = some v ∧
    (s.fileTable 3).fdPos = 2 ∧ 2 ≤ v.iSize := by
  have hend : (mountedFs?.bind fun s => [(0, FsCall.openFile newPath 6), (0, .write 3 Bytes.zero 3)].foldlM
      Fs.after? s).map (fun s => ((s.fileTable 3).fdInode, (s.fileTable 3).fdPos)) = some (some 9, 2) := by
    decide +kernel
  have hroom : mountedFs?.map (fun s => (searchFile newPath).checks { s with cur := 0 }
      fun r t => decide (t.RoomFor r.2.parentDir)) = some true := by
    decide +kernel
  obtain ⟨s, hs, hslot⟩ := Option.map_eq_some_iff.mp hend
  obtain ⟨s₀, h₀, hs⟩ := Option.bind_eq_some_iff.mp hs
  rw [h₀, Option.map_some, Option.some.injEq] at hroom
  simp only [List.foldlM_cons, List.foldlM_nil] at hs
  obtain ⟨s₁, h₁, hs⟩ := Option.bind_eq_some_iff.mp hs
  obtain ⟨s₂, h₂, hs⟩ := Option.bind_eq_some_iff.mp hs
  obtain rfl := Option.some.inj hs
  have hfirst : s₀.KeepsOffsets (0, .openFile newPath 6) := fun rec t hfinds =>
    of_decide_eq_true (hfinds.search.of_checks hroom)
  have hrun : Fs.Run Fs.KeepsOffsets s₀ s₂ :=
    .next (0, .write 3 Bytes.zero 3) (.next (0, .openFile newPath 6) .start hfirst (Fs.step_of_after? h₁)) trivial
      (Fs.step_of_after? h₂)
  obtain ⟨ha, hpos⟩ := Prod.mk.injEq .. ▸ hslot
  obtain ⟨v, hv, hle, -⟩ := offsets_within_files formattedDisk (fun _ => false) 2048 8192 s₀ s₂
    (mounted_of_mountedFs? h₀) hrun 3 (by decide) 9 ha
  exact ⟨s₂, 9, v, ha, hv, hpos, hpos ▸ hle⟩

/-- An empty file to which nothing is written. -/
theorem empty_write_moves_offset : ∃ s₀ s : Fs, ∃ a v,
    Fs.Mounted formattedDisk (fun _ => false) 2048 8192 s₀ ∧ Fs.Run (fun _ _ => True) s₀ s ∧
      (s.fileTable 3).fdInode = some a ∧ s.inodes a = some v ∧ ¬ (s.fileTable 3).fdPos ≤ v.iSize := by
  have hend : (mountedFs?.bind fun s => [(0, FsCall.openFile newPath 6), (0, .write 3 Bytes.zero 0)].foldlM
      Fs.after? s).map (fun s => (s.fileTable 3).fdInode.map fun a =>
        (s.inodes a).map fun v => decide (v.iSize < (s.fileTable 3).fdPos)) = some (some (some true)) := by
    decide +kernel
  obtain ⟨s, hs, hpos⟩ := Option.map_eq_some_iff.mp hend
  obtain ⟨a, ha, hpos⟩ := Option.map_eq_some_iff.mp hpos
  obtain ⟨v, hv, hpos⟩ := Option.map_eq_some_iff.mp hpos
  obtain ⟨s₀, h₀, hs⟩ := Option.bind_eq_some_iff.mp hs
  refine ⟨s₀, s, a, v, mounted_of_mountedFs? h₀, ?_, ha, hv, Nat.not_le.mpr (of_decide_eq_true hpos)⟩
  exact .of_foldlM (fun _ _ _ h => ⟨trivial, Fs.step_of_after? h⟩) hs

end ZxyOs
