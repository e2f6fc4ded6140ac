import YegaKernel.Fs.Ext2.Reserve

/-! # Inodes on the disk

`get_inode` of `fs.c` and `write_inode_table` of `ext2_inode.c`, over the ideal store of blocks.

The writer finds an inode by its offset in bytes. The reader takes the number of the inode within
its block for the offset in bytes, and the number of the block modulo 65536. What it reads are thus
the first bytes of the block, shifted by up to seven; `roundTrip_iff` says when this is the
inode. -/

namespace YegaKernel.Fs.Ext2.InodeTable

open Lib.Bytes Lib.Word Function
open Fs.Disk (Bytes)
open Fs.Ext2.Layout Fs.Ext2.Reserve

/-! ### Reading and writing -/

/-- `get_inode`; the result is the memory from the inode on. -/
def getInode (s : Volume) (inodeN : ℕ) : Option Bytes :=
  let index := sub32 inodeN 1
  if sInodesPerGroup s.super = 0 then none
  else do
    let bgdtN := index / sInodesPerGroup s.super % 2 ^ 16
    let inodeOffset := index % sInodesPerGroup s.super
    let d ← s.desc bgdtN
    let inodesPerBlk := blkSize / inodeSize
    let inodeBlkN := (bgInodeTable d + inodeOffset / inodesPerBlk) % 2 ^ 16
    let inodeBlkOffset := inodeOffset % inodesPerBlk % 2 ^ 16
    return view (s.disk inodeBlkN) inodeBlkOffset

def writeInodeTable (s : Volume) (inodeN : ℕ) (newInode : Bytes) : Option Volume :=
  let index := sub32 inodeN 1
  if sInodesPerGroup s.super = 0 then none
  else do
    let blockGroupN := index / sInodesPerGroup s.super % 2 ^ 16
    let bgOffset := index % sInodesPerGroup s.super % 2 ^ 16
    let blockOffset := bgOffset * inodeSize / blkSize % 2 ^ 16
    let inBlockOffset := bgOffset * inodeSize % blkSize % 2 ^ 16
    let d ← s.desc blockGroupN
    let blockToUpdate := u32 (bgInodeTable d + blockOffset)
    let data := copy (s.disk blockToUpdate) inBlockOffset inodeSize newInode
    return { s with disk := update s.disk blockToUpdate data }

/-! ### Where an inode is -/

/-- The block of the inode table that holds the inode `n`. -/
def inodeBlock (s : Volume) (n : ℕ) : ℕ :=
  u32 (bgInodeTable (s.group ((n - 1) / sInodesPerGroup s.super)) + (n - 1) % sInodesPerGroup s.super / 8)

/-- Its place among the eight inodes of the block. -/
def inodeSlot (s : Volume) (n : ℕ) : ℕ := (n - 1) % sInodesPerGroup s.super % 8

/-- The inode numbers. -/
def InRange (s : Volume) (n : ℕ) : Prop := 1 ≤ n ∧ n ≤ sInodesCount s.super

/-- **A consistent geometry**: the bitmap of a group has a bit for each of its inodes, and every
inode is in a group that has a descriptor. The blocks of the model have 1024 bytes, so that
`s_log_block_size` is `0`, as `mkfs` writes it. -/
structure Geometry (s : Volume) : Prop where
  pos : 0 < sInodesPerGroup s.super
  le : sInodesPerGroup s.super ≤ 8 * blkSize
  groups : s.nBlockGroups ≤ bgdtLen
  inodes : sInodesCount s.super ≤ sInodesPerGroup s.super * s.nBlockGroups

variable {s : Volume} {n m : ℕ}

theorem inodeSlot_lt (s : Volume) (n : ℕ) : inodeSlot s n < 8 := Nat.mod_lt _ (by decide)

theorem Geometry.group_lt (h : Geometry s) (hn : InRange s n) :
    (n - 1) / sInodesPerGroup s.super < bgdtLen := by
  have hlt : n - 1 < sInodesPerGroup s.super * s.nBlockGroups := by
    have := hn.1
    have := hn.2
    have := h.inodes
    omega
  exact lt_of_lt_of_le (Nat.div_lt_of_lt_mul hlt) h.groups

theorem Geometry.index (hn : InRange s n) : sub32 n 1 = n - 1 := by
  have hlt : n < 2 ^ 32 := lt_of_le_of_lt hn.2 (load_lt s.super 0 4)
  exact sub32_of_le hlt hn.1

theorem getInode_eq (h : Geometry s) (hn : InRange s n) :
    getInode s n = some (view (s.disk (inodeBlock s n % 2 ^ 16)) (inodeSlot s n)) := by
  have hgroup := h.group_lt hn
  have hgroup' : (n - 1) / sInodesPerGroup s.super % 2 ^ 16 = (n - 1) / sInodesPerGroup s.super :=
    Nat.mod_eq_of_lt (by rw [bgdtLen] at hgroup; omega)
  have hslot : inodeSlot s n % 2 ^ 16 = inodeSlot s n :=
    Nat.mod_eq_of_lt (by have := inodeSlot_lt s n; omega)
  have hblock : inodeBlock s n % 2 ^ 16 = (bgInodeTable (s.group ((n - 1) / sInodesPerGroup s.super)) +
      (n - 1) % sInodesPerGroup s.super / 8) % 2 ^ 16 := by
    rw [inodeBlock, u32, Nat.mod_mod_of_dvd _ (by norm_num)]
  rw [getInode, if_neg h.pos.ne', Geometry.index hn, hblock, ← hslot]
  simp only [hgroup', s.desc_of_lt hgroup, Option.bind_eq_bind, Option.bind_some]
  rfl

theorem writeInodeTable_eq (h : Geometry s) (hn : InRange s n) (x : Bytes) : writeInodeTable s n x =
    some { s with
      disk := update s.disk (inodeBlock s n)
        (copy (s.disk (inodeBlock s n)) (128 * inodeSlot s n) inodeSize x) } := by
  have hgroup := h.group_lt hn
  have hgroup' : (n - 1) / sInodesPerGroup s.super % 2 ^ 16 = (n - 1) / sInodesPerGroup s.super :=
    Nat.mod_eq_of_lt (by rw [bgdtLen] at hgroup; omega)
  have hlt : (n - 1) % sInodesPerGroup s.super < 8192 :=
    lt_of_lt_of_le (Nat.mod_lt _ h.pos) h.le
  have hoff : (n - 1) % sInodesPerGroup s.super % 2 ^ 16 = (n - 1) % sInodesPerGroup s.super :=
    Nat.mod_eq_of_lt (by omega)
  have hblk : (n - 1) % sInodesPerGroup s.super * inodeSize / blkSize % 2 ^ 16 =
      (n - 1) % sInodesPerGroup s.super / 8 := by
    rw [inodeSize, blkSize]
    omega
  have hbyte : (n - 1) % sInodesPerGroup s.super * inodeSize % blkSize % 2 ^ 16 =
      128 * inodeSlot s n := by
    rw [inodeSize, blkSize, inodeSlot]
    omega
  rw [writeInodeTable, if_neg h.pos.ne', Geometry.index hn]
  simp only [hgroup', hoff, hblk, hbyte, s.desc_of_lt hgroup, Option.bind_eq_bind, Option.bind_some]
  rfl

/-! ### Reading what was written -/

/-- The disk after the inode `x` is written as inode `n`. -/
def written (s : Volume) (n : ℕ) (x : Bytes) : Volume :=
  { s with
    disk := update s.disk (inodeBlock s n)
      (copy (s.disk (inodeBlock s n)) (128 * inodeSlot s n) inodeSize x) }

/-- The bytes that are read as inode `m`. -/
def readBytes (s : Volume) (m : ℕ) : Bytes := view (s.disk (inodeBlock s m % 2 ^ 16)) (inodeSlot s m)

theorem getInode_written (h : Geometry s) (hm : InRange s m) (n : ℕ) (x : Bytes) :
    getInode (written s n x) m = some (readBytes (written s n x) m) :=
  getInode_eq (s := written s n x) ⟨h.pos, h.le, h.groups, h.inodes⟩ hm

/-- A byte of inode `m` after inode `n` is written, if both are in the same block for the reader. -/
theorem readBytes_same (x : Bytes) (hblk : inodeBlock s m % 2 ^ 16 = inodeBlock s n) (k : ℕ) :
    readBytes (written s n x) m k =
      copy (s.disk (inodeBlock s n)) (128 * inodeSlot s n) inodeSize x (inodeSlot s m + k) := by
  have hdisk : (written s n x).disk (inodeBlock s m % 2 ^ 16) =
      copy (s.disk (inodeBlock s n)) (128 * inodeSlot s n) inodeSize x := by
    rw [hblk]
    exact update_self _ _ _
  exact congrFun hdisk (inodeSlot s m + k)

theorem readBytes_other (x : Bytes) (hblk : inodeBlock s m % 2 ^ 16 ≠ inodeBlock s n) :
    readBytes (written s n x) m = readBytes s m := by
  have hdisk : (written s n x).disk (inodeBlock s m % 2 ^ 16) = s.disk (inodeBlock s m % 2 ^ 16) :=
    update_of_ne hblk _ _
  exact congrArg (fun d => view d (inodeSlot s m)) hdisk

/-- **An inode is read back exactly from the first slot of a block below 65536.** -/
theorem reads_back_iff (s : Volume) (n : ℕ) :
    (∀ x, Agree inodeSize (readBytes (written s n x) n) x) ↔
      inodeSlot s n = 0 ∧ inodeBlock s n < 2 ^ 16 := by
  constructor
  · intro h
    -- an inode whose first byte is not the one that is read
    have hread : ∀ b, (∀ x, readBytes (written s n x) n 0 = b) → False := fun b hb =>
      add_one_ne b ((h (fun _ => b + 1) 0 (by decide)).symm.trans (hb _))
    by_cases hblk : inodeBlock s n % 2 ^ 16 = inodeBlock s n
    · by_contra hslot
      refine hread (s.disk (inodeBlock s n) (inodeSlot s n + 0)) fun x => ?_
      rw [readBytes_same x hblk]
      exact copy_of_not_mem (by omega)
    · exact (hread _ fun x => congrFun (readBytes_other x hblk) 0).elim
  · rintro ⟨hslot, hlt⟩ x k hk
    rw [readBytes_same x (Nat.mod_eq_of_lt hlt), hslot]
    exact (congrArg _ (Nat.zero_add k)).trans (agree_copy_zero _ _ _ k hk)

/-- **Writing an inode leaves another one alone exactly if the reader finds that one in another
block, or in front of the bytes written.** -/
theorem left_alone_iff (s : Volume) (n m : ℕ) :
    (∀ x, Agree inodeSize (readBytes (written s n x) m) (readBytes s m)) ↔
      inodeBlock s m % 2 ^ 16 ≠ inodeBlock s n ∨ inodeSlot s m + 128 ≤ 128 * inodeSlot s n := by
  have hslot := inodeSlot_lt s m
  by_cases hblk : inodeBlock s m % 2 ^ 16 = inodeBlock s n
  · have hread : ∀ k, readBytes s m k = s.disk (inodeBlock s n) (inodeSlot s m + k) := fun k => by
      rw [readBytes, hblk]
      rfl
    constructor
    · intro h
      by_contra hmeet
      -- the last byte that is read is one of those that are written, or the last of these is read
      obtain ⟨k, j, hk, hj, hkj⟩ : ∃ k j, k < 128 ∧ j < 128 ∧
          inodeSlot s m + k = 128 * inodeSlot s n + j := by
        rcases Nat.eq_zero_or_pos (inodeSlot s n) with h0 | hpos
        · exact ⟨127 - inodeSlot s m, 127, by omega, by omega, by omega⟩
        · exact ⟨127, inodeSlot s m + 127 - 128 * inodeSlot s n, by omega, by omega, by omega⟩
      have hbyte := h (fun _ => readBytes s m k + 1) k hk
      rw [readBytes_same _ hblk, hkj, copy_of_mem (show j < inodeSize from hj)] at hbyte
      exact add_one_ne _ hbyte
    · intro hcond x k hk
      rw [readBytes_same x hblk, hread]
      exact copy_of_not_mem (by rw [inodeSize] at *; omega)
  · exact ⟨fun _ => .inl hblk, fun _ x => (readBytes_other x hblk) ▸ Agree.refl _ _⟩

/-! ### The round trip -/

/-- **Reading undoes writing** for the inode `n`: whatever is written, it is read back, and every
other inode is read as before. -/
def RoundTrip (s : Volume) (n : ℕ) : Prop := ∀ x, ∃ s', writeInodeTable s n x = some s' ∧
  (∃ y, getInode s' n = some y ∧ Agree inodeSize y x) ∧
  ∀ m, InRange s m → m ≠ n → ∃ y y', getInode s m = some y ∧ getInode s' m = some y' ∧
  Agree inodeSize y' y

/-- The inode is the first of its block, which is below 65536, and the reader looks for no other
inode there. -/
def Alone (s : Volume) (n : ℕ) : Prop := inodeSlot s n = 0 ∧ inodeBlock s n < 2 ^ 16 ∧
  ∀ m, InRange s m → m ≠ n → inodeBlock s m % 2 ^ 16 ≠ inodeBlock s n

theorem roundTrip_iff_bytes (h : Geometry s) (hn : InRange s n) : RoundTrip s n ↔
    (∀ x, Agree inodeSize (readBytes (written s n x) n) x) ∧
      ∀ m, InRange s m → m ≠ n → ∀ x, Agree inodeSize (readBytes (written s n x) m) (readBytes s m) := by
  have hwrite := writeInodeTable_eq h hn
  constructor
  · refine fun hrt => ⟨fun x => ?_, fun m hm hne x => ?_⟩ <;>
      obtain ⟨s', hs', ⟨y, hy, hyx⟩, hothers⟩ := hrt x <;>
      obtain rfl := Option.some.inj ((hwrite x).symm.trans hs')
    · obtain rfl := Option.some.inj ((getInode_written h hn n x).symm.trans hy)
      exact hyx
    · obtain ⟨z, z', hz, hz', hzz⟩ := hothers m hm hne
      obtain rfl := Option.some.inj ((getInode_eq h hm).symm.trans hz)
      obtain rfl := Option.some.inj ((getInode_written h hm n x).symm.trans hz')
      exact hzz
  · rintro ⟨hback, hothers⟩ x
    exact ⟨_, hwrite x, ⟨_, getInode_written h hn n x, hback x⟩, fun m hm hne =>
      ⟨_, _, getInode_eq h hm, getInode_written h hm n x, hothers m hm hne x⟩⟩

/-- **Reading undoes writing exactly for an inode that is alone in its block.** -/
theorem roundTrip_iff (h : Geometry s) (hn : InRange s n) : RoundTrip s n ↔ Alone s n := by
  rw [roundTrip_iff_bytes h hn, reads_back_iff]
  constructor
  · rintro ⟨⟨hslot, hlt⟩, hothers⟩
    refine ⟨hslot, hlt, fun m hm hne => ?_⟩
    rcases (left_alone_iff s n m).mp (hothers m hm hne) with hblk | hbytes
    · exact hblk
    · omega
  · rintro ⟨hslot, hlt, hothers⟩
    exact ⟨⟨hslot, hlt⟩, fun m hm hne => (left_alone_iff s n m).mpr (.inl (hothers m hm hne))⟩

/-- Two groups of one inode each, in the blocks 5 and 6. -/
def sparseVolume : Volume :=
  { disk := fun _ _ => 0, super := storeAll (fun _ => 0) [(0, 4, 2), (40, 4, 1)],
    bgdt := storeAll (fun _ => 0) [(8, 4, 5), (40, 4, 6)], nBlockGroups := 2 }

theorem roundTrip_sparseVolume : RoundTrip sparseVolume 2 := by
  have hcount : sInodesCount sparseVolume.super = 2 := by decide +kernel
  have hblocks : inodeBlock sparseVolume 1 = 5 ∧ inodeBlock sparseVolume 2 = 6 ∧
      inodeSlot sparseVolume 2 = 0 := by decide +kernel
  have hgeo : Geometry sparseVolume :=
    ⟨by decide +kernel, by decide +kernel, by decide, by decide +kernel⟩
  refine (roundTrip_iff hgeo ⟨by decide, hcount.ge⟩).mpr
    ⟨hblocks.2.2, by rw [hblocks.2.1]; decide, fun m hm hne => ?_⟩
  have hm1 : m = 1 := by
    have := hm.1
    have := hm.2
    omega
  rw [hm1, hblocks.1, hblocks.2.1]
  decide

/-- On a fresh file system of 1 MiB inode 2 is written, with 1 in every byte, and read back as an
inode that starts with a zero. -/
theorem not_roundTrip_inode_2 : ∃ disk' s' y, mkfs 1 (fun _ => 0) (fun _ _ => 0) = some disk' ∧
    Geometry (formatted 1 disk') ∧ writeInodeTable (formatted 1 disk') 2 (fun _ => 1) = some s' ∧
    getInode s' 2 = some y ∧ y 0 = 0 ∧ ¬ RoundTrip (formatted 1 disk') 2 := by
  obtain ⟨disk', hmkfs⟩ := mkfs_of_le (show 1 ≤ 256 by decide) (fun _ => 0) (fun _ _ => 0)
  have hm := mounted_formatted (show 1 ≤ 256 by decide) disk'
  have hipg : sInodesPerGroup (formatted 1 disk').super = 1024 := hm.ipg
  have hgeo : Geometry (formatted 1 disk') :=
    ⟨by rw [hipg]; decide, by rw [hipg]; decide, by rw [hm.groups]; decide,
      by rw [hipg, hm.inodes, hm.groups]⟩
  have hn : InRange (formatted 1 disk') 2 := ⟨by decide, by rw [hm.inodes]; decide⟩
  have hslot : inodeSlot (formatted 1 disk') 2 = 1 := by
    rw [inodeSlot, hipg]
  have hblock : inodeBlock (formatted 1 disk') 2 = 5 := by
    rw [inodeBlock, hipg, bgInodeTable, hm.load_group (by decide) (by decide)
      (8, 4, beforeBitmaps 0 + 3) (by simp [descFields])]
    rfl
  have hzero : (formatted 1 disk').disk 5 = fun _ => 0 :=
    inodeTable_mkfs (g := 0) (k := 0) hmkfs (by decide) (by decide)
  refine ⟨disk', _, _, hmkfs, hgeo, writeInodeTable_eq hgeo hn _, getInode_written hgeo hn 2 _, ?_, ?_⟩
  · rw [readBytes_same _ (by rw [hblock]; rfl), hslot, hblock, copy_of_not_mem (.inl (by decide)), hzero]
  · rw [roundTrip_iff_bytes hgeo hn, reads_back_iff, hslot]
    exact fun h => absurd h.1.1 (by decide)

end YegaKernel.Fs.Ext2.InodeTable
