import YegaKernel.Lib.Bytes
import YegaKernel.Lib.Loops
import YegaKernel.Fs.Disk

/-! # The ext2 file system on its disk

The records of `fs.h` as the bytes they are in memory, and `mkfs.c`, which writes a fresh file
system.

The disk is an ideal store of 1024-byte blocks, numbered from the start of the file system as
`disk_read_blk` and `disk_write_blk` number them: block `b` is at the sector `filesys_start + 2 *
b`. `mkfs` counts sectors from `fs_lba`, the sector of block 1, so that what it writes to `fs_lba +
2 * k` is block `1 + k`. -/

namespace YegaKernel.Fs.Ext2.Layout

open Lib.Bytes Lib.Word Lib.Loops
open Fs.Disk (Bytes)
open Function

/-- `EXT2_BLK_SIZE`. -/
def blkSize : ℕ := 1024

/-- `EXT2_BLOCKS_PER_GROUP`. -/
def blocksPerGroup : ℕ := 8192

/-- `EXT2_INODES_PER_GROUP`. -/
def inodesPerGroup : ℕ := blocksPerGroup * blkSize / 8192

/-- `sizeof(inode_t)`. -/
def inodeSize : ℕ := 128

/-- `sizeof(bgdesc_t)`. -/
def bgdescSize : ℕ := 32

/-- The length of the array `bgdt`. -/
def bgdtLen : ℕ := 1024

def bgdtBlkNo : ℕ := 2

/-- **The file system**: the blocks of its disk, and the globals `super`, `bgdt` and
`n_block_groups` of `fs.c`. -/
structure Volume where
  disk : ℕ → Bytes
  super : Bytes
  bgdt : Bytes
  nBlockGroups : ℕ

/-! ### The fields of a superblock -/

def sInodesCount (b : Bytes) : ℕ := load b 0 4
def sBlocksCount (b : Bytes) : ℕ := load b 4 4
def sFreeBlocksCount (b : Bytes) : ℕ := load b 12 4
def sFreeInodesCount (b : Bytes) : ℕ := load b 16 4
def sBlocksPerGroup (b : Bytes) : ℕ := load b 32 4
def sInodesPerGroup (b : Bytes) : ℕ := load b 40 4

/-! ### The fields of a block group descriptor -/

def bgBlockBitmap (d : Bytes) : ℕ := load d 0 4
def bgInodeBitmap (d : Bytes) : ℕ := load d 4 4
def bgInodeTable (d : Bytes) : ℕ := load d 8 4
def bgFreeBlocksCount (d : Bytes) : ℕ := load d 12 2
def bgFreeInodesCount (d : Bytes) : ℕ := load d 14 2
def bgUsedDirsCount (d : Bytes) : ℕ := load d 16 2

/-- The descriptor of group `g`. -/
def Volume.group (s : Volume) (g : ℕ) : Bytes := view s.bgdt (bgdescSize * g)

/-- `bgdt[g]`; behind the array there is no descriptor. -/
def Volume.desc (s : Volume) (g : ℕ) : Option Bytes := if g < bgdtLen then some (s.group g) else none

/-- The block bitmap of group `g`. -/
def Volume.blockBitmap (s : Volume) (g : ℕ) : Bytes := s.disk (bgBlockBitmap (s.group g))

/-- The inode bitmap of group `g`. -/
def Volume.inodeBitmap (s : Volume) (g : ℕ) : Bytes := s.disk (bgInodeBitmap (s.group g))

theorem Volume.desc_of_lt (s : Volume) {g : ℕ} (h : g < bgdtLen) : s.desc g = some (s.group g) := if_pos h

/-! ### The size of a file system -/

/-- `g_total_blocks`, for a file system of `len` MiB. -/
def gTotalBlocks (len : ℕ) : ℕ := u32 (len * 1024)

def gNBlockGroups (len : ℕ) : ℕ := u32 (gTotalBlocks len + blocksPerGroup - 1) / blocksPerGroup

def gBlocksInLastGroup (len : ℕ) : ℕ :=
  if gTotalBlocks len % blocksPerGroup = 0 then blocksPerGroup else gTotalBlocks len % blocksPerGroup

def inodeTableBlocks : ℕ := (inodesPerGroup * inodeSize + blkSize - 1) / blkSize

/-- The two bitmaps and the inode table. -/
def reservedBlocksPerGroup : ℕ := 1 + 1 + inodeTableBlocks

def freeBlocksInGroup (len groupIdx : ℕ) (hasSuperBackup : Bool) : ℕ :=
  let reserved := reservedBlocksPerGroup
  let totalBlocksInGroup :=
    if groupIdx = gNBlockGroups len - 1 then gBlocksInLastGroup len else blocksPerGroup
  let reserved := if hasSuperBackup then reserved + 2 else reserved
  sub32 totalBlocksInGroup reserved

/-! ### The superblock -/

/-- The blocks `make_super` counts as free. -/
def totalFree (len : ℕ) : ℕ :=
  (List.range (gNBlockGroups len)).foldl
    (fun totalFree i => u32 (totalFree + freeBlocksInGroup len i (i < 2))) 0

/-- The words that `make_super` sets in a superblock of zeros. -/
def superFields (len blockGroupNr : ℕ) : List (ℕ × ℕ × ℕ) :=
  [(40, 4, inodesPerGroup), (32, 4, blocksPerGroup), (36, 4, blocksPerGroup),
    (0, 4, inodesPerGroup * gNBlockGroups len), (4, 4, gTotalBlocks len), (12, 4, totalFree len),
    (16, 4, sub32 (inodesPerGroup * gNBlockGroups len) 2), (20, 4, 1), (24, 4, 0), (28, 4, 0),
    (56, 2, 0xef53), (58, 2, 1), (60, 2, 2), (72, 4, 0x100), (76, 4, 0), (68, 4, 2 ^ 24), (84, 4, 11),
    (88, 2, 128), (90, 2, blockGroupNr)]

def makeSuper (len blockGroupNr : ℕ) : Bytes := storeAll (fun _ => 0) (superFields len blockGroupNr)

/-! ### The descriptors -/

/-- The block of group `i` before its block bitmap: behind the superblock and the table where there
are copies of them. -/
def beforeBitmaps (i : ℕ) : ℕ := i * blocksPerGroup + if i < 2 then 2 else 0

/-- The words of the descriptor of group `i`. -/
def descFields (len i : ℕ) : List (ℕ × ℕ × ℕ) :=
  [(0, 4, beforeBitmaps i + 1), (4, 4, beforeBitmaps i + 2), (8, 4, beforeBitmaps i + 3),
    (12, 2, freeBlocksInGroup len i (i < 2)),
    (14, 2, if i = 0 then inodesPerGroup - 2 else inodesPerGroup), (16, 2, if i = 0 then 1 else 0),
    (18, 2, 0), (20, 12, 0)]

/-- One round of the loop of `make_bgdt`. -/
def makeDesc (len i : ℕ) (table : Bytes) : Bytes :=
  storeAll table ((descFields len i).map fun f => (bgdescSize * i + f.1, f.2))

def makeBgdt (len : ℕ) (table : Bytes) : Bytes :=
  (List.range (gNBlockGroups len)).foldl (fun table i => makeDesc len i table) table

/-! ### Bits of a bitmap -/

def setBit (bitmap : Bytes) (i : ℕ) : Bytes :=
  update bitmap (i / 8) (bitmap (i / 8) ||| (1 <<< UInt8.ofNat (i % 8)))

/-- `unset_bit`, which inverts the bit. -/
def unsetBit (bitmap : Bytes) (i : ℕ) : Bytes :=
  update bitmap (i / 8) (bitmap (i / 8) ^^^ (1 <<< UInt8.ofNat (i % 8)))

theorem bit_setBit (bitmap : Bytes) (k i : ℕ) :
    bit (setBit bitmap k) i = (bit bitmap i || decide (i = k)) := bit_or bitmap k i

theorem bit_unsetBit (bitmap : Bytes) (k i : ℕ) :
    bit (unsetBit bitmap k) i = (bit bitmap i ^^ decide (i = k)) := bit_xor bitmap k i

/-! ### mkfs -/

/-- The table in a block of its own, padded with zeros. -/
def bgdtBlock (n : ℕ) (table : Bytes) : Bytes := copy (fun _ => 0) 0 (bgdescSize * n) table

/-- The block bitmap of a fresh group: its first blocks are in use. -/
def freshBlockBitmap (groupIdx : ℕ) : Bytes :=
  let reserved := reservedBlocksPerGroup
  let reserved := if groupIdx < 2 then reserved + 2 else reserved
  (List.range reserved).foldl setBit fun _ => 0

/-- The inode bitmap of a fresh group: in the first one the inodes 1 and 2 are in use. -/
def freshInodeBitmap (groupIdx : ℕ) : Bytes :=
  if groupIdx = 0 then update (fun _ => 0) 0 0x3 else fun _ => 0

def initBitmaps (disk : ℕ → Bytes) (groupStart groupIdx : ℕ) : ℕ → Bytes :=
  let disk := update disk (1 + (groupStart + 0)) (freshBlockBitmap groupIdx)
  update disk (1 + (groupStart + 1)) (freshInodeBitmap groupIdx)

def initInodeTable (disk : ℕ → Bytes) (groupStart : ℕ) : ℕ → Bytes :=
  (List.range inodeTableBlocks).foldl
    (fun disk i => update disk (1 + (groupStart + 2 + i)) fun _ => 0) disk

/-- `write_superblock` for the group `i`, if it is one of the first two. -/
def writeSuperblock (len : ℕ) (disk : ℕ → Bytes) (i : ℕ) : ℕ → Bytes :=
  if i < 2 then update disk (1 + i * blocksPerGroup) (makeSuper len i) else disk

/-- Bitmaps and inode table of the group `i`. -/
def initGroup (disk : ℕ → Bytes) (i : ℕ) : ℕ → Bytes :=
  initInodeTable (initBitmaps disk (beforeBitmaps i) i) (beforeBitmaps i)

/-- **`mkfs`** of `len` MiB, with the memory `table` for the descriptors. It stops the machine when
the table does not fit into a block. -/
def mkfs (len : ℕ) (table : Bytes) (disk : ℕ → Bytes) : Option (ℕ → Bytes) :=
  let groups := gNBlockGroups len
  let table := makeBgdt len table
  let disk := (List.range groups).foldl (writeSuperblock len) disk
  if bgdescSize * groups > blkSize then none
  else
    let disk := update disk (1 + 1) (bgdtBlock groups table)
    let disk := update disk (1 + (blocksPerGroup + 1)) (bgdtBlock groups table)
    some ((List.range groups).foldl initGroup disk)

/-- **The fresh file system in use**: on the disk what `mkfs` wrote, in memory the superblock and
the descriptors that it made. -/
def formatted (len : ℕ) (disk : ℕ → Bytes) : Volume :=
  { disk := disk, super := makeSuper len 0, bgdt := makeBgdt len fun _ => 0,
    nBlockGroups := gNBlockGroups len }

/-! ### What the fresh file system looks like -/

section Sizes
variable {len : ℕ}

theorem gTotalBlocks_eq (hlen : len ≤ 256) : gTotalBlocks len = len * 1024 := u32_of_lt (by omega)

theorem gNBlockGroups_eq (hlen : len ≤ 256) : gNBlockGroups len = (len + 7) / 8 := by
  rw [gNBlockGroups, gTotalBlocks_eq hlen, blocksPerGroup, u32_of_lt (by omega)]
  omega

theorem freeBlocksInGroup_pos (hlen : len ≤ 256) (i : ℕ) (backup : Bool) :
    0 < freeBlocksInGroup len i backup ∧ freeBlocksInGroup len i backup < 2 ^ 16 := by
  have hlast : 1024 ≤ gBlocksInLastGroup len ∧ gBlocksInLastGroup len ≤ 8192 := by
    unfold gBlocksInLastGroup
    rw [gTotalBlocks_eq hlen, blocksPerGroup]
    split_ifs <;> omega
  have hres : reservedBlocksPerGroup = 130 := by decide
  have hsub : ∀ t r : ℕ, 1024 ≤ t → t ≤ 8192 → r ≤ 132 → 0 < sub32 t r ∧ sub32 t r < 2 ^ 16 :=
    fun t r h1 h2 h3 => by rw [sub32_of_le (by omega) (by omega)]; omega
  unfold freeBlocksInGroup
  simp only [hres, blocksPerGroup]
  apply hsub <;> split_ifs <;> omega

end Sizes

theorem descFields_apart (len i : ℕ) :
    ((descFields len i).map fun f => (bgdescSize * i + f.1, f.2)).Pairwise FieldsApart := by
  have h : (descFields len i).Pairwise FieldsApart := of_decide_eq_true rfl
  refine h.map _ fun f g hfg => ?_
  simp only [FieldsApart] at *
  omega

theorem makeDesc_frame (len j : ℕ) (table : Bytes) (i : ℕ)
    (h : i < bgdescSize * j ∨ bgdescSize * j + bgdescSize ≤ i) : makeDesc len j table i = table i := by
  have hin : ∀ f ∈ descFields len j, f.1 + f.2.1 ≤ bgdescSize := of_decide_eq_true rfl
  refine storeAll_of_not_mem fun f hf => ?_
  obtain ⟨g, hg, rfl⟩ := List.mem_map.mp hf
  have := hin g hg
  simp only
  omega

theorem load_makeBgdt (len : ℕ) (table : Bytes) {i : ℕ} (hi : i < gNBlockGroups len) :
    ∀ f ∈ descFields len i,
      load (view (makeBgdt len table) (bgdescSize * i)) f.1 f.2.1 = f.2.2 % 256 ^ f.2.1 := by
  intro f hf
  obtain ⟨t, -, ht⟩ := foldl_records (makeDesc len) (makeDesc_frame len) table hi
  have hin : ∀ f ∈ descFields len i, f.1 + f.2.1 ≤ bgdescSize := of_decide_eq_true rfl
  have hfield := load_storeAll (m := t) (descFields_apart len i) _ (List.mem_map_of_mem hf)
  exact (ht.load_eq (hin f hf)).trans ((load_view _ _ _ _).trans hfield)

theorem agree_makeBgdt (len : ℕ) (t t' : Bytes) :
    Agree (bgdescSize * gNBlockGroups len) (makeBgdt len t) (makeBgdt len t') := by
  intro b hb
  have hg : b / bgdescSize < gNBlockGroups len := Nat.div_lt_of_lt_mul hb
  have hcover : ∀ o < bgdescSize, ∃ f ∈ descFields len (b / bgdescSize), f.1 ≤ o ∧ o < f.1 + f.2.1 := by
    intro o ho
    rw [bgdescSize] at ho
    simp only [descFields, List.mem_cons, List.not_mem_nil, or_false, exists_eq_or_imp, exists_eq_left]
    omega
  obtain ⟨f, hf, hle, hlt⟩ := hcover (b % bgdescSize) (Nat.mod_lt _ (by decide))
  have hload := (load_makeBgdt len t hg f hf).trans (load_makeBgdt len t' hg f hf).symm
  have hbyte := eq_of_load_eq hload (show b % bgdescSize - f.1 < f.2.1 by omega)
  rwa [show f.1 + (b % bgdescSize - f.1) = b % bgdescSize by omega, view, view,
    Nat.div_add_mod] at hbyte

theorem load_makeSuper (len nr : ℕ) :
    ∀ f ∈ superFields len nr, load (makeSuper len nr) f.1 f.2.1 = f.2.2 % 256 ^ f.2.1 :=
  load_storeAll (of_decide_eq_true rfl)

theorem initGroup_apply (disk : ℕ → Bytes) (i b : ℕ) : initGroup disk i b =
    if beforeBitmaps i + 3 ≤ b ∧ b < beforeBitmaps i + 3 + inodeTableBlocks then fun _ => 0
    else if b = beforeBitmaps i + 2 then freshInodeBitmap i
    else if b = beforeBitmaps i + 1 then freshBlockBitmap i else disk b := by
  have hindex : ∀ k, 1 + (beforeBitmaps i + 2 + k) = beforeBitmaps i + 3 + k := fun k => by omega
  unfold initGroup initInodeTable initBitmaps
  simp only [hindex, foldl_update_range, update_apply, Nat.add_comm 1, Nat.add_zero]

theorem foldl_initGroup (disk : ℕ → Bytes) {g b : ℕ} (hb : beforeBitmaps g < b)
    (hb' : b < beforeBitmaps g + 3 + inodeTableBlocks) : ∀ {n : ℕ}, g < n →
    (List.range n).foldl initGroup disk b = initGroup (fun _ _ => 0) g b
  | n + 1, hg => by
    have htable : inodeTableBlocks = 128 := by decide
    rw [List.range_succ, List.foldl_append, List.foldl_cons, List.foldl_nil, initGroup_apply]
    by_cases hgn : g = n
    · subst hgn
      rw [initGroup_apply]
      split_ifs <;> first | rfl | omega
    · have hfar : beforeBitmaps g + 131 < beforeBitmaps n + 1 := by
        simp only [beforeBitmaps, blocksPerGroup]
        split_ifs <;> omega
      rw [if_neg (by omega), if_neg (by omega), if_neg (by omega)]
      exact foldl_initGroup disk hb hb' (by omega)

theorem initGroups_low (disk : ℕ → Bytes) {b : ℕ} (hb : b < 3) : ∀ n : ℕ,
    (List.range n).foldl initGroup disk b = disk b
  | 0 => rfl
  | n + 1 => by
    have hfar : 2 ≤ beforeBitmaps n := by
      simp only [beforeBitmaps, blocksPerGroup]
      split_ifs <;> omega
    rw [List.range_succ, List.foldl_append, List.foldl_cons, List.foldl_nil, initGroup_apply,
      if_neg (by omega), if_neg (by omega), if_neg (by omega), initGroups_low disk hb n]

section Fresh
variable {len g : ℕ} {table : Bytes} {disk disk' : ℕ → Bytes} (h : mkfs len table disk = some disk')
include h

theorem group_mkfs (hg : g < gNBlockGroups len) {b : ℕ} (hb : beforeBitmaps g < b)
    (hb' : b < beforeBitmaps g + 3 + inodeTableBlocks) : disk' b = initGroup (fun _ _ => 0) g b := by
  unfold mkfs at h
  simp only at h
  split at h
  · exact absurd h (by simp)
  · obtain rfl := Option.some.inj h
    exact foldl_initGroup _ hb hb' hg

/-- **The bitmaps of a fresh file system.** -/
theorem bitmaps_mkfs (hg : g < gNBlockGroups len) :
    disk' (beforeBitmaps g + 1) = freshBlockBitmap g ∧
      disk' (beforeBitmaps g + 2) = freshInodeBitmap g := by
  rw [group_mkfs h hg (by omega) (by omega), group_mkfs h hg (by omega) (by omega), initGroup_apply,
    initGroup_apply]
  simp

/-- **The inode tables of a fresh file system** are zero. -/
theorem inodeTable_mkfs {k : ℕ} (hg : g < gNBlockGroups len) (hk : k < inodeTableBlocks) :
    disk' (beforeBitmaps g + 3 + k) = fun _ => 0 := by
  rw [group_mkfs h hg (by omega) (by omega), initGroup_apply, if_pos (by omega)]

end Fresh

/-- **The descriptors of a fresh file system**, on its disk. -/
theorem bgdt_mkfs {len : ℕ} {table : Bytes} {disk disk' : ℕ → Bytes}
    (h : mkfs len table disk = some disk') :
    disk' bgdtBlkNo = bgdtBlock (gNBlockGroups len) (makeBgdt len table) := by
  unfold mkfs at h
  simp only at h
  split at h
  · exact absurd h (by simp)
  · obtain rfl := Option.some.inj h
    rw [initGroups_low _ (by decide), update_of_ne (by decide)]
    exact update_self _ _ _

theorem mkfs_of_le {len : ℕ} (hlen : len ≤ 256) (table : Bytes) (disk : ℕ → Bytes) :
    ∃ disk', mkfs len table disk = some disk' := by
  have hfit : ¬ bgdescSize * gNBlockGroups len > blkSize := by
    rw [gNBlockGroups_eq hlen, bgdescSize, blkSize]
    omega
  exact ⟨_, if_neg hfit⟩

theorem bit_foldl_setBit (bitmap : Bytes) (i : ℕ) : ∀ n,
    bit ((List.range n).foldl setBit bitmap) i = (bit bitmap i || decide (i < n))
  | 0 => by simp
  | n + 1 => by
    rw [List.range_succ, List.foldl_append, List.foldl_cons, List.foldl_nil, bit_setBit,
      bit_foldl_setBit bitmap i n, Bool.or_assoc]
    congr 1
    rw [← Bool.decide_or]
    exact decide_eq_decide.mpr (by omega)

theorem bit_freshBlockBitmap (g i : ℕ) :
    bit (freshBlockBitmap g) i = decide (i < if g < 2 then 132 else 130) := by
  have hres : reservedBlocksPerGroup = 130 := by decide
  unfold freshBlockBitmap
  simp only [hres]
  rw [bit_foldl_setBit]
  simp [bit]

theorem bit_freshInodeBitmap (g i : ℕ) :
    bit (freshInodeBitmap g) i = decide (i < if g = 0 then 2 else 0) := by
  unfold freshInodeBitmap
  by_cases hg : g = 0
  · rw [if_pos hg, if_pos hg, bit]
    by_cases h0 : i / 8 = 0
    · have hi8 : i < 8 := by omega
      interval_cases i <;> rfl
    · rw [update_of_ne h0, decide_eq_false (by omega)]
      simp
  · rw [if_neg hg, if_neg hg]
    simp [bit]

end YegaKernel.Fs.Ext2.Layout
