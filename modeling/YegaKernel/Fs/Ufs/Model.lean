import YegaKernel.Lib.Bytes
import YegaKernel.Lib.Loops
import YegaKernel.Fs.Buffer

/-! # The file system UFS

`fs/ufs/ufs.c`: formatting, and reading and writing inodes. The functions use the buffer cache by
its interface only, which is a parameter here (`BufferOps`). It is instantiated with the buffer
cache of `fs/buffer.c`, and with an ideal store of blocks.

The global `super` points into the data of a buffer, so that the superblock is what that buffer
holds at the moment. Records are the bytes they are in memory, on a 32-bit machine. -/

namespace YegaKernel.Fs.Ufs.Model

open Lib.Bytes Lib.Loops Lib.Word Function
open Fs.Disk (Bytes)
open Fs.Buffer

/-! ### The buffers -/

/-- **The buffer cache as its clients see it.** A buffer is known by a number, and its data can be
read and written in place. -/
structure BufferOps (σ : Type) where
  bread : σ → ℕ → Except Fault (ℕ × σ)
  data : σ → ℕ → Bytes
  setData : σ → ℕ → Bytes → σ
  bwrite : σ → ℕ → Except Fault σ
  brelse : σ → ℕ → σ

/-- The buffer cache of the kernel, for the device `DEV_NO`. -/
def cacheOps (fuel : ℕ) : BufferOps Cache where
  bread s blocknr := Buffer.bread fuel s devNo blocknr
  data s b := (s.heads b).bData.getD fun _ => 0
  setData s b data := s.updHead b fun bh => { bh with bData := some data }
  bwrite s b := Buffer.bwrite s b
  brelse s b := Buffer.brelse s b

/-- An ideal store: a disk of 1024-byte blocks, a buffer for each of them, and the blocks read or
written so far. -/
structure Store where
  disk : ℕ → Bytes
  buffer : ℕ → Bytes
  touched : List ℕ

def storeOps : BufferOps Store where
  bread s blocknr := .ok (blocknr, { s with
    buffer := update s.buffer blocknr (s.disk blocknr), touched := blocknr :: s.touched })
  data s b := s.buffer b
  setData s b data := { s with buffer := update s.buffer b data }
  bwrite s b := .ok { s with
    disk := update s.disk b (s.buffer b), touched := b :: s.touched }
  brelse s _ := s

/-! ### The superblock -/

def freeInodeList : ℕ := 50

/-- `sizeof(struct d_inode)`. -/
def dinodeSize : ℕ := 128

def inodesPerBlock : ℕ := bufferSize / dinodeSize

def sTotalInodes (super : Bytes) : ℕ := load super 8 4
def sBlkDilbStart (super : Bytes) : ℕ := load super 232 4
def sBlkDilbEnd (super : Bytes) : ℕ := load super 236 4

/-- `fs_bytes / U_BYTES_PER_INODE`. -/
def totalInodes (mb : ℕ) : ℕ := u32 (mb * 1024 * 1024) / 4096

def inodeBlocks (mb : ℕ) : ℕ := u32 (totalInodes mb + inodesPerBlock - 1) / inodesPerBlock

/-- The words that `make_super` sets. -/
def superFields (mb : ℕ) : List (ℕ × ℕ × ℕ) :=
  [(0, 4, mb), (8, 4, totalInodes mb), (232, 4, 2), (236, 4, sub32 (2 + inodeBlocks mb) 1),
    (4, 4, freeInodeList), (12, 4, totalInodes mb), (216, 4, freeInodeList - 1)] ++
  (List.range freeInodeList).map (fun iCnt => (16 + 4 * iCnt, 4, iCnt)) ++
  [(220, 4, freeInodeList), (224, 1, 0), (228, 4, 0)]

/-- `make_super`, on what the buffer held before. -/
def makeSuper (mb : ℕ) (super : Bytes) : Bytes := storeAll super (superFields mb)

/-! ### Inodes -/

def iMode (dinode : Bytes) : ℕ := load dinode 0 2
def iNo (dinode : Bytes) : ℕ := load dinode 100 4
def iBlkno (dinode : Bytes) : ℕ := load dinode 104 4

/-- The words that `init_inode` sets: all but `i_osd2`. -/
def dinodeFields (dev ino blkno : ℕ) : List (ℕ × ℕ × ℕ) :=
  [(0, 2, 0), (2, 2, 0), (4, 4, 0), (8, 4, 0), (12, 4, 0), (16, 4, 0), (20, 4, 0), (24, 2, 0), (26, 2, 0),
    (28, 4, 0), (32, 4, 0), (36, 4, dev)] ++
  (List.range 15).map (fun iCnt => (40 + 4 * iCnt, 4, 0)) ++
  [(100, 4, ino), (104, 4, blkno), (108, 4, 0), (112, 4, 0)]

/-- `init_inode`, of the inode number `slot` in a block. -/
def initInode (slot dev ino blkno : ℕ) (data : Bytes) : Bytes :=
  storeAll data ((dinodeFields dev ino blkno).map fun f => (dinodeSize * slot + f.1, f.2))

section Functions
variable {σ : Type} (ops : BufferOps σ)

/-! ### Formatting -/

/-- The loop over the inodes of a block. -/
def initInodes (iCnt blk : ℕ) (data : Bytes) : Bytes :=
  (List.range inodesPerBlock).foldl (fun data jCnt => initInode jCnt devNo (iCnt + jCnt) blk data) data

/-- A round of the loop of `mkufs`. -/
def formatBlock (iCnt blk : ℕ) (s : σ) : Except Fault σ := do
  let (binode, s) ← ops.bread s blk
  ops.bwrite (ops.setData s binode (initInodes iCnt blk (ops.data s binode))) binode

/-- The loop of `mkufs`, at the inode `iCnt`; `bh` is the buffer that `super` points into. -/
def mkufsLoop (bh : ℕ) : ℕ → ℕ → σ → Except Fault σ
  | 0, _, _ => .error .spinning
  | fuel + 1, iCnt, s =>
    if iCnt < sTotalInodes (ops.data s bh) then do
      let inodesBlock := u32 (iCnt / inodesPerBlock + sBlkDilbStart (ops.data s bh))
      mkufsLoop bh fuel (iCnt + inodesPerBlock) (← formatBlock ops iCnt inodesBlock s)
    else .ok s

/-- **`mkufs`** of `mb` MiB, with the buffer that `super` points into. -/
def mkufs (fuel mb : ℕ) (s : σ) : Except Fault (ℕ × σ) := do
  let (bh, s) ← ops.bread s 1
  let s := ops.setData s bh (makeSuper mb (ops.data s bh))
  let s ← mkufsLoop ops bh fuel 0 s
  return (bh, ← ops.bwrite s bh)

/-- `init_sb`, with the buffer that `super` points into. -/
def initSb (s : σ) : Except Fault (ℕ × σ) := ops.bread s 1

/-! ### Reading and writing inodes -/

/-- The block of the inode `ino`. -/
def iBlk (bh : ℕ) (s : σ) (ino : ℕ) : ℕ :=
  u32 (ino / inodesPerBlock + sBlkDilbStart (ops.data s bh))

/-- `get_dinode`; the result is the memory from the inode on. -/
def getDinode (bh : ℕ) (s : σ) (ino : ℕ) : Except Fault (Bytes × σ) := do
  let iBlkOffset := ino % inodesPerBlock % 2 ^ 16
  let (b, s) ← ops.bread s (iBlk ops bh s ino)
  let dinode := view (ops.data s b) (dinodeSize * iBlkOffset)
  return (dinode, ops.brelse s b)

/-- `write_inode` of an in-core inode, whose first bytes are a `struct d_inode`. -/
def writeInode (bh : ℕ) (s : σ) (inode : Bytes) : Except Fault σ := do
  let iBlkOffset := iNo inode % inodesPerBlock % 2 ^ 16
  let (b, s) ← ops.bread s (iBlk ops bh s (iNo inode))
  ops.bwrite (ops.setData s b (copy (ops.data s b) (dinodeSize * iBlkOffset) dinodeSize inode)) b

variable {ops} {fuel mb iCnt blk bh : ℕ} {s s' : σ}

theorem formatBlock_eq_ok : formatBlock ops iCnt blk s = .ok s' ↔ ∃ b s₁, ops.bread s blk = .ok (b, s₁) ∧
    ops.bwrite (ops.setData s₁ b (initInodes iCnt blk (ops.data s₁ b))) b = .ok s' := by
  rw [formatBlock, bind_eq_ok, Prod.exists]

theorem mkufs_eq_ok : mkufs ops fuel mb s = .ok (bh, s') ↔ ∃ s₁ s₂, ops.bread s 1 = .ok (bh, s₁) ∧
    mkufsLoop ops bh fuel 0 (ops.setData s₁ bh (makeSuper mb (ops.data s₁ bh))) = .ok s₂ ∧
    ops.bwrite s₂ bh = .ok s' := by
  simp only [mkufs, bind_eq_ok, Prod.exists, pure, Except.pure, Except.ok.injEq, Prod.mk.injEq]
  constructor
  · rintro ⟨b, s₁, hread, s₂, hloop, s₃, hwrite, rfl, rfl⟩
    exact ⟨s₁, s₂, hread, hloop, hwrite⟩
  · rintro ⟨s₁, s₂, hread, hloop, hwrite⟩
    exact ⟨bh, s₁, hread, s₂, hloop, s', hwrite, rfl, rfl⟩

end Functions

/-! ### Facts about the records -/

theorem superFields_apart (mb : ℕ) : (superFields mb).Pairwise FieldsApart := of_decide_eq_true rfl

theorem load_makeSuper (mb : ℕ) (super : Bytes) :
    ∀ f ∈ superFields mb, load (makeSuper mb super) f.1 f.2.1 = f.2.2 % 256 ^ f.2.1 :=
  load_storeAll (superFields_apart mb)

theorem sBlkDilbStart_makeSuper (mb : ℕ) (super : Bytes) : sBlkDilbStart (makeSuper mb super) = 2 :=
  load_makeSuper mb super (232, 4, 2) (by simp [superFields])

theorem dinodeFields_apart (slot dev ino blkno : ℕ) :
    ((dinodeFields dev ino blkno).map fun f => (dinodeSize * slot + f.1, f.2)).Pairwise FieldsApart := by
  have h : (dinodeFields dev ino blkno).Pairwise FieldsApart := of_decide_eq_true rfl
  refine h.map _ fun f g hfg => ?_
  simp only [FieldsApart] at *
  omega

theorem dinodeFields_inside (dev ino blkno : ℕ) :
    ∀ f ∈ dinodeFields dev ino blkno, f.1 + f.2.1 ≤ dinodeSize := of_decide_eq_true rfl

theorem initInode_frame (dev ino blkno slot : ℕ) (data : Bytes) (i : ℕ)
    (h : i < dinodeSize * slot ∨ dinodeSize * slot + dinodeSize ≤ i) :
    initInode slot dev ino blkno data i = data i := by
  refine storeAll_of_not_mem fun f hf => ?_
  obtain ⟨g, hg, rfl⟩ := List.mem_map.mp hf
  have := dinodeFields_inside dev ino blkno g hg
  simp only
  omega

/-- A record as `init_inode` leaves it. -/
def Fresh (rec : Bytes) (ino blkno : ℕ) : Prop :=
  ∀ f ∈ dinodeFields devNo ino blkno, load rec f.1 f.2.1 = f.2.2 % 256 ^ f.2.1

theorem fresh_initInodes (iCnt blk : ℕ) (data : Bytes) {slot : ℕ} (hslot : slot < inodesPerBlock) :
    Fresh (view (initInodes iCnt blk data) (dinodeSize * slot)) (iCnt + slot) blk := by
  intro f hf
  obtain ⟨m, -, hm⟩ := foldl_records (fun j => initInode j devNo (iCnt + j) blk)
    (fun j => initInode_frame devNo (iCnt + j) blk j) data hslot
  have hfield := load_storeAll (m := m) (dinodeFields_apart slot devNo (iCnt + slot) blk) _
    (List.mem_map_of_mem hf)
  exact (hm.load_eq (dinodeFields_inside _ _ _ f hf)).trans ((load_view _ _ _ _).trans hfield)

end YegaKernel.Fs.Ufs.Model
