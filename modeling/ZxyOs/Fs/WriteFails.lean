/-
  ZxyOs.Fs.WriteFails

  What a failing `file_write` leaves behind.

  A block of the heap that is live stays live to the end of the call: on none of its early
  returns `file_write` frees the buffers it has by then.
-/

import ZxyOs.Fs.OpenUndo

namespace ZxyOs

open Lib Lib.Exec

/-- There are at least as many live blocks. -/
def LiveGrows (s s' : Fs) : Prop := s.heap.live.length ≤ s'.heap.live.length

instance : Quiet LiveGrows where
  refl _ := le_rfl
  trans _ _ _ h h' := Nat.le_trans h h'
  disk _ _ := le_rfl
  inodeMap _ _ := le_rfl
  blockBitmap _ _ := le_rfl
  sector _ _ _ _ _ _ := le_rfl
  size _ _ _ _ _ := le_rfl
  refused _ := le_rfl
  served _ _ := Nat.le_succ _

/-- What a failing write must not change: the size and the blocks of the inode, the block
    bitmap, the disk and the live blocks of the heap. -/
structure WriteUndone (g : Nat) (s s' : Fs) : Prop where
  inode : ∀ a, (s.fileTable g).fdInode = some a → (s'.inodes a).map (fun v => (v.iSize, v.iSectors)) =
    (s.inodes a).map fun v => (v.iSize, v.iSectors)
  blockBitmap : s'.blockBitmap = s.blockBitmap
  disk : s'.disk = s.disk
  live : s'.heap.live = s.heap.live

/-- The file open in slot `g` would become larger than its 140 blocks. -/
def Fs.WriteTooLarge (s : Fs) (g cnt : Nat) : Prop :=
  ∃ a v, (s.fileTable g).fdInode = some a ∧ s.inodes a = some v ∧ (v.iSize + cnt) % 2 ^ 32 > 512 * (12 + 128)

section WriteFails

variable {s s' t : Fs} {g cnt : Nat} {buf : Bytes}

/-- A buffer taken before the failure is still live after it. -/
theorem not_writeUndone (htaken : s.heap.live.length < t.heap.live.length) (h : LiveGrows t s') :
    ¬ WriteUndone g s s' := by
  intro hundone
  have hlen := Nat.lt_of_lt_of_le htaken h
  rw [hundone.live] at hlen
  exact Nat.lt_irrefl _ hlen

/-- Where the first buffer is there, the rest of a failing call keeps it. -/
theorem fileWrite_keeps_buffer (h : Returns (fileWrite g buf cnt) s (-1) s') :
    s.WriteTooLarge g cnt ∧ s' = s ∨ s.heap.full s.heap.next = true ∧ s' = s.heapAt (s.heap.next + 1) ∨
      (¬ s.WriteTooLarge g cnt ∧ s.heap.full s.heap.next = false) ∧
        ∃ t, s.heap.live.length < t.heap.live.length ∧ LiveGrows t s' := by
  simp only [fileWrite, returns_bind (x := query _), returns_query, returns_bind (x := deref _), returns_deref,
    returns_bind (x := getInode _), returns_getInode] at h
  obtain ⟨_, _, ⟨rfl, rfl⟩, a, _, ⟨ha, rfl⟩, v, _, ⟨hv, rfl⟩, h⟩ := h
  split at h
  · next hlarge =>
    obtain ⟨-, rfl⟩ := returns_pure.mp h
    exact Or.inl ⟨⟨a, v, ha, hv, hlarge⟩, rfl⟩
  next hsmall =>
  have hnot : ¬ s.WriteTooLarge g cnt := by
    rintro ⟨a', v', ha', hv', hlarge⟩
    obtain rfl := Option.some.inj (ha.symm.trans ha')
    obtain rfl := Option.some.inj (hv.symm.trans hv')
    exact hsmall hlarge
  obtain ⟨ioBuf, t₁, hmalloc, h⟩ := returns_bind.mp h
  right
  rcases sysMalloc_inv hmalloc with ⟨rfl, rfl⟩ | ⟨user, rfl, rfl⟩
  · rw [if_pos rfl] at h
    obtain ⟨-, rfl⟩ := returns_pure.mp h
    exact Or.inl ⟨full_of_sysMalloc hmalloc, rfl⟩
  rw [if_neg (by simp)] at h
  refine Or.inr ⟨⟨hnot, (served_of_sysMalloc hmalloc).2⟩, { s with heap := s.heap.alloc user },
    Nat.lt_succ_self _, ?_⟩
  obtain ⟨allBlocksMem, t₂, hmalloc', h⟩ := returns_bind.mp h
  have ht₂ : LiveGrows _ t₂ := keeps_sysMalloc hmalloc'
  split at h
  · obtain ⟨-, rfl⟩ := returns_pure.mp h
    exact ht₂
  -- what comes after the first block, which gives up before it frees a buffer
  have hrest {t : Fs} (ioBuf : Option Nat) (b : Bool)
      (h : Returns (fileWriteRest g a v buf cnt ioBuf allBlocksMem b) t (-1) s') : LiveGrows t s' := by
    rw [fileWriteRest] at h
    split at h
    · obtain ⟨-, rfl⟩ := returns_pure.mp h
      exact refl_of LiveGrows t
    · simp only [returns_bind (x := assert _), returns_assert] at h
      obtain ⟨_, _, ⟨-, rfl⟩, h⟩ := h
      obtain ⟨blocks, t', hcollect, h⟩ := returns_bind.mp h
      cases blocks with
      | none =>
        obtain ⟨-, rfl⟩ := returns_pure.mp h
        exact keeps_fileCollectBlocks hcollect
      | some allBlocks =>
        -- a write that comes to its end returns `cnt`
        simp only [returns_bind, returns_pure] at h
        obtain ⟨_, _, -, _, _, -, _, _, -, _, _, -, _, _, -, _, _, -, _, _, -, hcnt, -⟩ := h
        omega
  split at h
  · obtain ⟨lba, t₃, halloc, h⟩ := returns_bind.mp h
    have ht₃ := trans_of LiveGrows ht₂ (keeps_blockBitmapAlloc halloc)
    cases lba with
    | none => exact trans_of LiveGrows ht₃ (hrest (some s.heap.next) false h)
    | some lba =>
      obtain ⟨_, t₄, hset, h⟩ := returns_bind.mp h
      obtain ⟨_, t₅, hsync, h⟩ := returns_bind.mp h
      have ht₄ := trans_of LiveGrows ht₃ (keeps_setInodeSector hset)
      have ht₅ := trans_of LiveGrows ht₄ (keeps_bitmapSync hsync)
      exact trans_of LiveGrows ht₅ (hrest _ true h)
  · exact trans_of LiveGrows ht₂ (hrest _ true h)

namespace FullHeap

/-- An empty file open in slot 3, on a heap that refuses the requests in `full`. -/
def fs (full : Nat → Bool) : Fs :=
  { SmallTree.fs with
    fileTable := fun g => { fdPos := 0, fdFlag := 1, fdInode := if g = 3 then some 1 else none }
    inodes := fun a => if a = 1 then some { SmallTree.inode 3 0 0 with iOpenCnt := 1 } else none
    heap := { next := 2, live := [], full := full } }

end FullHeap

end WriteFails

end ZxyOs
