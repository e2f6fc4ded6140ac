import YegaKernel.Fs.Ext2.Balloc
import YegaKernel.Lib.Runs

/-! # What a reservation changes on a mounted file system

On a file system that `mkfs` made, the first group always counts free blocks and free inodes, since
the counts in `bgdt` never change: all searches end in the first group. A reservation then sets one
bit of one bitmap, and writes the two copies of the descriptors and of the superblock
(`Changes`). -/

namespace YegaKernel.Fs.Ext2.Reserve

open Lib.Bytes Lib.Word
open Fs.Disk (Bytes)
open Fs.Ext2.Layout Fs.Ext2.Balloc Function

variable {len : ℕ} {s s' : Volume}

/-- **A mounted file system** of `len` MiB: the globals are those of a fresh one, up to the free
counts in the superblock. -/
structure Mounted (len : ℕ) (s : Volume) : Prop where
  bgdt : s.bgdt = makeBgdt len fun _ => 0
  groups : s.nBlockGroups = (len + 7) / 8
  bpg : sBlocksPerGroup s.super = blocksPerGroup
  ipg : sInodesPerGroup s.super = inodesPerGroup
  blocks : sBlocksCount s.super = len * 1024
  inodes : sInodesCount s.super = 1024 * ((len + 7) / 8)

theorem mounted_formatted (hlen : len ≤ 256) (disk : ℕ → Bytes) : Mounted len (formatted len disk) where
  bgdt := rfl
  groups := gNBlockGroups_eq hlen
  bpg := load_makeSuper len 0 (32, 4, blocksPerGroup) (by simp [superFields])
  ipg := load_makeSuper len 0 (40, 4, inodesPerGroup) (by simp [superFields])
  blocks := (load_makeSuper len 0 (4, 4, gTotalBlocks len) (by simp [superFields])).trans (by
    rw [gTotalBlocks_eq hlen]
    exact Nat.mod_eq_of_lt (by norm_num; omega))
  inodes := (load_makeSuper len 0 (0, 4, inodesPerGroup * gNBlockGroups len)
    (by simp [superFields])).trans (by
      rw [gNBlockGroups_eq hlen, show inodesPerGroup = 1024 from rfl]
      exact Nat.mod_eq_of_lt (by norm_num; omega))

/-! ### The descriptors -/

section Groups
variable (h : Mounted len s) (hlen : len ≤ 256) {g : ℕ} (hg : g < (len + 7) / 8)
include h hlen hg

theorem Mounted.load_group : ∀ f ∈ descFields len g,
    load (s.group g) f.1 f.2.1 = f.2.2 % 256 ^ f.2.1 := by
  rw [Volume.group, h.bgdt]
  exact load_makeBgdt len _ (by rwa [gNBlockGroups_eq hlen])

theorem Mounted.blockBitmap_group : bgBlockBitmap (s.group g) = beforeBitmaps g + 1 := by
  rw [bgBlockBitmap, h.load_group hlen hg (0, 4, beforeBitmaps g + 1) (by simp [descFields])]
  simp only [beforeBitmaps, blocksPerGroup]
  split_ifs <;> omega

theorem Mounted.inodeBitmap_group : bgInodeBitmap (s.group g) = beforeBitmaps g + 2 := by
  rw [bgInodeBitmap, h.load_group hlen hg (4, 4, beforeBitmaps g + 2) (by simp [descFields])]
  simp only [beforeBitmaps, blocksPerGroup]
  split_ifs <;> omega

theorem Mounted.freeBlocks_ne : bgFreeBlocksCount (s.group g) ≠ 0 := by
  have hpos := freeBlocksInGroup_pos hlen g (g < 2)
  rw [bgFreeBlocksCount, h.load_group hlen hg (12, 2, freeBlocksInGroup len g (g < 2))
    (by simp [descFields])]
  simp only
  omega

theorem Mounted.freeInodes_ne : bgFreeInodesCount (s.group g) ≠ 0 := by
  rw [bgFreeInodesCount, h.load_group hlen hg
    (14, 2, if g = 0 then inodesPerGroup - 2 else inodesPerGroup) (by simp [descFields])]
  split_ifs <;> decide

theorem Mounted.blockBitmap_eq : s.blockBitmap g = s.disk (beforeBitmaps g + 1) := by
  rw [Volume.blockBitmap, h.blockBitmap_group hlen hg]

theorem Mounted.inodeBitmap_eq : s.inodeBitmap g = s.disk (beforeBitmaps g + 2) := by
  rw [Volume.inodeBitmap, h.inodeBitmap_group hlen hg]

end Groups

theorem firstFreeNum_eq (h : Mounted len s) (h1 : 1 ≤ len) {count first : Bytes → ℕ}
    (hcount : count (s.group 0) ≠ 0) :
    firstFreeNumFrom count first s s.nBlockGroups 0 = some (some (first (s.group 0))) := by
  obtain ⟨n, hn⟩ : ∃ n, s.nBlockGroups = n + 1 := ⟨s.nBlockGroups - 1, by rw [h.groups]; omega⟩
  rw [hn, firstFreeNumFrom, s.desc_of_lt (by decide), Option.bind_eq_bind, Option.bind_some,
    if_neg hcount]
  rfl

/-! ### The copies of descriptors and superblock -/

/-- The blocks of the superblock and of the descriptors, and of their copies. -/
def Synced (b : ℕ) : Prop := b = 1 ∨ b = 2 ∨ b = 1 + blocksPerGroup ∨ b = 2 + blocksPerGroup

theorem not_synced_bitmap (g : ℕ) {k : ℕ} (hk : k = 1 ∨ k = 2) : ¬ Synced (beforeBitmaps g + k) := by
  simp only [Synced, beforeBitmaps, blocksPerGroup]
  split_ifs <;> omega

/-- Outside of these blocks only the block `blk` changes, to the bitmap `bm`. -/
def Changes (s s' : Volume) (blk : ℕ) (bm : Bytes) : Prop :=
  ∀ b, ¬ Synced b → s'.disk b = update s.disk blk bm b

theorem sync_spec (h : Mounted len s) (hlen : len ≤ 256) {off v : ℕ} (hoff : off = 12 ∨ off = 16) :
    ∃ s₁, diskSyncBgdt s = some s₁ ∧ s₁.super = s.super ∧
      Mounted len (diskSyncSuper { s₁ with super := store s.super off 4 v }) ∧
      ∀ b, ¬ Synced b → (diskSyncSuper { s₁ with super := store s.super off 4 v }).disk b = s.disk b := by
  have hfit : ¬ s.nBlockGroups * bgdescSize > blkSize := by
    rw [h.groups, bgdescSize, blkSize]
    omega
  have hbpg : sBlocksPerGroup (store s.super off 4 v) = blocksPerGroup := by
    rw [← h.bpg]
    exact load_store_apart (by omega)
  refine ⟨_, if_neg hfit, rfl, ⟨h.bgdt, h.groups, hbpg, ?_, ?_, ?_⟩, fun b hb => ?_⟩
  · rw [← h.ipg]
    exact load_store_apart (by omega)
  · rw [← h.blocks]
    exact load_store_apart (by omega)
  · rw [← h.inodes]
    exact load_store_apart (by omega)
  · simp only [Synced, not_or] at hb
    simp only [diskSyncSuper, writeTwice, hbpg, h.bpg]
    rw [update_of_ne (by simp only [blocksPerGroup, u32] at *; omega),
      update_of_ne hb.1,
      update_of_ne (by simp only [bgdtBlkNo, blocksPerGroup, u32] at *; omega)]
    exact update_of_ne hb.2.1 _ _

/-! ### The bitmaps -/

/-- The new contents of a bitmap. -/
def marked (bitmap : Bytes) (i : ℕ) (val : Bool) : Bytes :=
  if val then setBit bitmap i else unsetBit bitmap i

theorem markBit_eq {blk i : ℕ} (hi : i < 8 * blkSize) (val : Bool) : markBit s blk i val =
    some { s with disk := update s.disk blk (marked (s.disk blk) i val) } := if_pos hi

theorem Mounted.setDisk (h : Mounted len s) (disk : ℕ → Bytes) : Mounted len { s with disk := disk } :=
  ⟨h.bgdt, h.groups, h.bpg, h.ipg, h.blocks, h.inodes⟩

section Marks
variable (h : Mounted len s) (h1 : 1 ≤ len) (hlen : len ≤ 256)
include h h1 hlen

variable {n : ℕ}

theorem markBlock_eq (hn : n < blocksPerGroup) (val : Bool) : markBlock s n val =
    some { s with disk := update s.disk 3 (marked (s.disk 3) (n % 1024) val) } := by
  have hgroup : bgBlockBitmap (s.group 0) = 3 := h.blockBitmap_group hlen (by omega)
  rw [markBlock, h.bpg, h.ipg, if_neg (by decide), Nat.div_eq_of_lt hn,
    show inodesPerGroup = 1024 from rfl, Nat.mod_eq_of_lt (show n % 1024 < 2 ^ 16 by omega),
    s.desc_of_lt (by decide), Option.bind_eq_bind, Option.bind_some]
  simp only [Nat.zero_mod]
  rw [hgroup, markBit_eq (by rw [blkSize]; omega)]

omit h1 in
theorem markInode_eq (hn1 : 1 ≤ n) (hn : n ≤ 1024 * ((len + 7) / 8)) (val : Bool) :
    markInode s n val = some { s with
      disk := update s.disk (beforeBitmaps ((n - 1) / 1024) + 2)
        (marked (s.disk (beforeBitmaps ((n - 1) / 1024) + 2)) ((n - 1) % 1024) val) } := by
  have hgroup : bgInodeBitmap (s.group ((n - 1) / 1024)) = beforeBitmaps ((n - 1) / 1024) + 2 :=
    h.inodeBitmap_group hlen (by omega)
  rw [markInode, h.ipg, if_neg (by decide), sub32_of_le (by omega) hn1,
    show inodesPerGroup = 1024 from rfl, Nat.mod_eq_of_lt (show (n - 1) % 1024 < 2 ^ 16 by omega),
    Nat.mod_eq_of_lt (show (n - 1) / 1024 < 2 ^ 16 by omega), s.desc_of_lt (by rw [bgdtLen]; omega),
    Option.bind_eq_bind, Option.bind_some, hgroup, markBit_eq (by rw [blkSize]; omega)]

/-! ### Reserving -/

omit h1 hlen in
theorem updateBlockBgDesc_eq (hn : n < blocksPerGroup) : updateBlockBgDesc s n = some s := by
  rw [updateBlockBgDesc, h.bpg, if_neg (by decide), Nat.div_eq_of_lt hn, s.desc_of_lt (by decide)]
  rfl

omit h1 in
theorem updateInodeBgDesc_eq (hn1 : 1 ≤ n) (hn : n ≤ 1024 * ((len + 7) / 8)) :
    updateInodeBgDesc s n = some s := by
  have hgroup : (n - 1) / blocksPerGroup % 2 ^ 16 < bgdtLen := by
    simp only [blocksPerGroup, bgdtLen]
    omega
  rw [updateInodeBgDesc, h.bpg, if_neg (by decide), sub32_of_le (by omega) hn1, s.desc_of_lt hgroup]
  rfl

/-- **The block that is reserved** is the first clear bit in the bitmap of the first group; the bit
that is set is this number modulo 1024. -/
theorem reserveFreeBlock_eq : ∃ s', reserveFreeBlock s = some (some (firstFreeBm (s.disk 3) 0), s') ∧
    Mounted len s' ∧ Changes s s' 3 (setBit (s.disk 3) (firstFreeBm (s.disk 3) 0 % 1024)) := by
  have hgroup : bgBlockBitmap (s.group 0) = 3 := h.blockBitmap_group hlen (by omega)
  have hlt : firstFreeBm (s.disk 3) 0 < blocksPerGroup := by
    rcases firstFreeBm_zero (s.disk 3) with hc | ⟨-, h0⟩
    · exact hc.lt
    · rw [h0]
      decide
  have hfirst : firstFreeBlockNum s = some (some (firstFreeBm (s.disk 3) 0)) := by
    rw [firstFreeBlockNum, firstFreeNum_eq h h1 (h.freeBlocks_ne hlen (by omega)), firstFreeBlock, hgroup]
  have hmark : setBlockBitmap s (firstFreeBm (s.disk 3) 0) = _ := markBlock_eq h h1 hlen hlt true
  have hm := h.setDisk (update s.disk 3
    (marked (s.disk 3) (firstFreeBm (s.disk 3) 0 % 1024) true))
  obtain ⟨s₁, hsync, hsuper, hm', hdisk⟩ := sync_spec hm hlen (.inl rfl)
    (v := sub32 (sFreeBlocksCount s.super) 1)
  refine ⟨_, ?_, hm', hdisk⟩
  rw [reserveFreeBlock, hfirst]
  simp only [Option.bind_eq_bind, Option.bind_some, hmark, updateBlockBgDesc_eq hm hlt, hsync, hsuper]
  rfl

omit h1 in
theorem reserveInode_eq (hn1 : 1 ≤ n) (hn : n ≤ 1024 * ((len + 7) / 8)) :
    ∃ s', reserveInode s n = some s' ∧ Mounted len s' ∧
      Changes s s' (beforeBitmaps ((n - 1) / 1024) + 2)
        (setBit (s.disk (beforeBitmaps ((n - 1) / 1024) + 2)) ((n - 1) % 1024)) := by
  have hmark : setInodeBitmap s n = _ := markInode_eq h hlen hn1 hn true
  have hm := h.setDisk (update s.disk (beforeBitmaps ((n - 1) / 1024) + 2)
    (marked (s.disk (beforeBitmaps ((n - 1) / 1024) + 2)) ((n - 1) % 1024) true))
  obtain ⟨s₁, hsync, hsuper, hm', hdisk⟩ := sync_spec hm hlen (.inr rfl)
    (v := sub32 (sFreeInodesCount s.super) 1)
  refine ⟨_, ?_, hm', hdisk⟩
  rw [reserveInode, hmark]
  simp only [Option.bind_eq_bind, Option.bind_some, updateInodeBgDesc_eq hm hlen hn1 hn, hsync, hsuper]
  rfl

theorem firstFreeInodeNum_eq :
    firstFreeInodeNum s = some (some (firstFreeBm (s.disk 4) freeInoStart)) := by
  have hgroup : bgInodeBitmap (s.group 0) = 4 := h.inodeBitmap_group hlen (by omega)
  rw [firstFreeInodeNum, firstFreeNum_eq h h1 (h.freeInodes_ne hlen (by omega)), firstFreeInode, hgroup]

end Marks

/-! ### The bits of all bitmaps -/

section Bits
variable {blk k : ℕ} {bm : Bytes} (hc : Changes s s' blk bm) (h : Mounted len s) (h' : Mounted len s')
  (hlen : len ≤ 256) {g : ℕ} (hg : g < (len + 7) / 8)
include hc h h' hlen hg

theorem Changes.blockBitmap :
    s'.blockBitmap g = if blk = beforeBitmaps g + 1 then bm else s.blockBitmap g := by
  rw [h'.blockBitmap_eq hlen hg, h.blockBitmap_eq hlen hg, hc _ (not_synced_bitmap g (.inl rfl)),
    update_apply]
  simp only [eq_comm]

theorem Changes.inodeBitmap :
    s'.inodeBitmap g = if blk = beforeBitmaps g + 2 then bm else s.inodeBitmap g := by
  rw [h'.inodeBitmap_eq hlen hg, h.inodeBitmap_eq hlen hg, hc _ (not_synced_bitmap g (.inr rfl)),
    update_apply]
  simp only [eq_comm]

end Bits

theorem beforeBitmaps_inj {g k i j : ℕ} (hi : i = 1 ∨ i = 2) (hj : j = 1 ∨ j = 2) :
    beforeBitmaps g + i = beforeBitmaps k + j ↔ g = k ∧ i = j := by
  simp only [beforeBitmaps, blocksPerGroup]
  split_ifs <;> omega

end YegaKernel.Fs.Ext2.Reserve
