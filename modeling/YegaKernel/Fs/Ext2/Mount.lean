import YegaKernel.Fs.Ext2.Balloc
import YegaKernel.Fs.Ext2.Sectors

/-! # Mounting

`read_fs` loads `super` and the descriptors from the disk. The superblock is in block 1, where
`mkfs` and `disk_sync_super` write it, but `set_superblock` reads block 2, the descriptors. So
`super` becomes a copy of the table, and the number of groups, on which the rest depends, is
computed from two words of it:

* `not_recoversFresh` : after `mkfs` no mount recovers what was written;
* `restores_iff` : after a sync the mount restores super and table iff they hold the same bytes, and
  the driver writes block 2 where it reads it. -/

namespace YegaKernel.Fs.Ext2.Mount

open Lib.Bytes Lib.Word
open Fs.Disk (Bytes Sectors ataSectorSize sectorsPerBlock wholeSector diskWrite)
open Fs.Ext2.Layout Fs.Ext2.Balloc
open Fs.Ext2.Sectors (blockAt lbaOf mbToLba put put_apply mbToLba_eq)

def sLogBlockSize (b : Bytes) : ℕ := load b 24 4

/-- `disk_read_blk` with blocks of `2 ^ log` KiB. -/
def diskReadBlk (disk : ℕ → Bytes) (log blockNum : ℕ) : Bytes := fun i =>
  disk (blockNum * 2 ^ log + i / blkSize) (i % blkSize)

/-- `set_superblock`: a block of more than 1 KiB does not fit into the superblock. -/
def setSuperblock (s : Volume) : Option Volume :=
  if sLogBlockSize s.super ≠ 0 then none
  else some { s with super := diskReadBlk s.disk (sLogBlockSize s.super) 2 }

/-- The number of groups, a 16-bit variable. -/
def groupCount (super : Bytes) : ℕ :=
  let bc := sBlocksCount super
  let bpg := sBlocksPerGroup super
  let n := bc / bpg % 2 ^ 16
  if bc % bpg ≠ 0 then (n + 1) % 2 ^ 16 else n

/-- `set_bgdt`. It divides by the size of a group, and copies from the block it reads as many
descriptors as there are groups, which neither the block nor the array `bgdt` may have room for;
from 2 GiB on the size of a block is not an `int`. -/
def setBgdt (s : Volume) : Option Volume :=
  if sBlocksPerGroup s.super = 0 ∨ 21 ≤ sLogBlockSize s.super then none
  else
    let n := groupCount s.super
    let buf := diskReadBlk s.disk (sLogBlockSize s.super) bgdtBlkNo
    if n * bgdescSize > blkSize * 2 ^ sLogBlockSize s.super ∨ n > bgdtLen then none
    else some { s with bgdt := copy s.bgdt 0 (n * bgdescSize) buf, nBlockGroups := n }

/-- `read_fs` of the file system whose blocks are `s.disk`. -/
def remount (s : Volume) : Option Volume := do
  let s ← setSuperblock s
  setBgdt s

/-- **`read_fs`** of the file system that starts at the given MiB. -/
def readFs (fsStartInMb : ℕ) (sectors : ℕ → Bytes) (s : Volume) : Option Volume :=
  remount { s with disk := blockAt fsStartInMb sectors }

/-! ### What a mount leaves in memory -/

theorem agree_diskReadBlk (disk : ℕ → Bytes) (b : ℕ) : Agree blkSize (diskReadBlk disk 0 b) (disk b) := by
  intro i hi
  rw [diskReadBlk, Nat.pow_zero, Nat.mul_one, Nat.div_eq_of_lt hi, Nat.mod_eq_of_lt hi, Nat.add_zero]

theorem sLogBlockSize_congr {b c : Bytes} (h : Agree blkSize b c) : sLogBlockSize b = sLogBlockSize c :=
  h.load_eq (by decide)

theorem sBlocksPerGroup_congr {b c : Bytes} (h : Agree blkSize b c) :
    sBlocksPerGroup b = sBlocksPerGroup c := h.load_eq (by decide)

theorem groupCount_congr {b c : Bytes} (h : Agree blkSize b c) : groupCount b = groupCount c := by
  have hcount : sBlocksCount b = sBlocksCount c := h.load_eq (by decide)
  rw [groupCount, groupCount, hcount, sBlocksPerGroup_congr h]

/-- **A mount** loads block 2 into `super`. -/
theorem agree_super_of_remount {s s' : Volume} (h : remount s = some s') :
    sLogBlockSize s.super = 0 ∧ Agree blkSize s'.super (s.disk 2) := by
  unfold remount setSuperblock at h
  by_cases hlog : sLogBlockSize s.super = 0
  · rw [if_neg (not_not_intro hlog), hlog, Option.bind_eq_bind, Option.bind_some] at h
    unfold setBgdt at h
    dsimp only at h
    split_ifs at h
    obtain rfl := Option.some.inj h
    exact ⟨hlog, agree_diskReadBlk s.disk 2⟩
  · rw [if_pos hlog] at h
    exact absurd h (by simp)

/-- When block 2 is a superblock with blocks of 1 KiB and at most 32 groups, the mount comes to its
end: `super` is block 2, and so are the descriptors it counts. -/
theorem remount_of_block2 {s : Volume} {super : Bytes} (hlog : sLogBlockSize s.super = 0)
    (hblock : Agree blkSize super (s.disk 2)) (hlog' : sLogBlockSize super = 0) :
    (∃ s', remount s = some s') ↔ sBlocksPerGroup super ≠ 0 ∧
    groupCount super * bgdescSize ≤ blkSize := by
  have hread : Agree blkSize (diskReadBlk s.disk 0 2) super :=
    (agree_diskReadBlk s.disk 2).trans hblock.symm
  unfold remount setSuperblock
  rw [if_neg (not_not_intro hlog), hlog, Option.bind_eq_bind, Option.bind_some]
  unfold setBgdt
  rw [sLogBlockSize_congr hread, sBlocksPerGroup_congr hread, groupCount_congr hread, hlog', Nat.pow_zero,
    Nat.mul_one]
  by_cases h1 : sBlocksPerGroup super = 0 ∨ 21 ≤ 0
  · rw [if_pos h1]
    exact iff_of_false (by simp) (by omega)
  · rw [if_neg h1]
    by_cases h2 : groupCount super * bgdescSize > blkSize ∨ groupCount super > bgdtLen
    · rw [if_pos h2]
      simp only [bgdescSize, bgdtLen, blkSize] at h2 ⊢
      exact iff_of_false (by simp) (by omega)
    · rw [if_neg h2]
      exact iff_of_true ⟨_, rfl⟩ (by omega)

/-- The descriptors that a mount counts come from block 2 as well. -/
theorem bgdt_of_remount {s s' : Volume} (h : remount s = some s') (hlog' : sLogBlockSize s'.super = 0)
    (i : ℕ) : if i < groupCount s'.super * bgdescSize then i < blkSize ∧ s'.bgdt i = s.disk 2 i
      else s'.bgdt i = s.bgdt i := by
  unfold remount setSuperblock at h
  split_ifs at h with hlog
  · exact absurd h (by simp)
  · rw [Option.bind_eq_bind, Option.bind_some] at h
    unfold setBgdt at h
    dsimp only at h
    split_ifs at h with h1 h2
    obtain rfl := Option.some.inj h
    dsimp only at hlog' h2 ⊢
    rw [hlog'] at h2 ⊢
    split_ifs with hi
    · have hlt : i < blkSize := by
        omega
      refine ⟨hlt, ?_⟩
      rw [agree_copy_zero _ _ _ i hi]
      exact agree_diskReadBlk s.disk 2 i hlt
    · exact copy_of_not_mem (.inr (by omega))

/-! ### A fresh file system -/

/-- The mount of a fresh file system recovers the superblock and the descriptors that `mkfs`
made. -/
def RecoversFresh (start len : ℕ) (table : Bytes) (sectors : ℕ → Bytes) (s : Volume) : Prop :=
  ∃ sectors' s', Sectors.mkfs start len table sectors = some sectors' ∧
    readFs start sectors' s = some s' ∧ Agree blkSize s'.super (makeSuper len 0) ∧
      Agree (bgdescSize * gNBlockGroups len) s'.bgdt (makeBgdt len table)

section Fresh
variable {len : ℕ} (hpos : 1 ≤ len) (hlen : len ≤ 256)
include hpos hlen

theorem load_makeSuper_ne (table : Bytes) : load (makeSuper len 0) 0 4 ≠ load (makeBgdt len table) 0 4 := by
  have hgroups := gNBlockGroups_eq hlen
  have hsuper := load_makeSuper len 0 (0, 4, inodesPerGroup * gNBlockGroups len) (by simp [superFields])
  have hdesc := load_makeBgdt len table (i := 0) (by omega) (0, 4, beforeBitmaps 0 + 1)
    (by simp [descFields])
  rw [load_view, show beforeBitmaps 0 = 2 from rfl] at hdesc
  rw [hsuper, show inodesPerGroup = 1024 from rfl]
  dsimp only at hdesc ⊢
  rw [Nat.mul_zero, Nat.add_zero] at hdesc
  omega

theorem makeSuper_ne_bgdtBlock (table : Bytes) :
    ¬ Agree blkSize (makeSuper len 0) (bgdtBlock (gNBlockGroups len) (makeBgdt len table)) := by
  intro h
  have hgroups := gNBlockGroups_eq hlen
  have hcopy : load (bgdtBlock (gNBlockGroups len) (makeBgdt len table)) 0 4 =
      load (makeBgdt len table) 0 4 :=
    Agree.load_eq (n := 4) ((agree_copy_zero _ _ _).mono (by rw [bgdescSize]; omega)) le_rfl
  exact load_makeSuper_ne hpos hlen table (Eq.trans (h.load_eq (by decide)) hcopy)

theorem groupCount_makeSuper_pos : 0 < groupCount (makeSuper len 0) := by
  have hcount : sBlocksCount (makeSuper len 0) = gTotalBlocks len % 256 ^ 4 :=
    load_makeSuper len 0 (4, 4, gTotalBlocks len) (by simp [superFields])
  have hbpg : sBlocksPerGroup (makeSuper len 0) = 8192 :=
    load_makeSuper len 0 (32, 4, blocksPerGroup) (by simp [superFields])
  rw [gTotalBlocks_eq hlen] at hcount
  rw [groupCount, hcount, hbpg]
  split_ifs <;> omega

/-- **After `mkfs`** the superblock and the table cannot both be what `mkfs` made: they are read from
the same block, whatever it holds. -/
theorem not_recoversFresh (start : ℕ) (table : Bytes) (sectors : ℕ → Bytes) (s : Volume) :
    ¬ RecoversFresh start len table sectors s := by
  rintro ⟨sectors', s', -, hread, hsuper, hbgdt⟩
  have hgroups := gNBlockGroups_eq hlen
  have hlog : sLogBlockSize s'.super = 0 :=
    (sLogBlockSize_congr hsuper).trans (load_makeSuper len 0 (24, 4, 0) (by simp [superFields]))
  have hcount := groupCount_makeSuper_pos hpos hlen
  rw [← groupCount_congr hsuper] at hcount
  have hblock : Agree 4 s'.bgdt s'.super := by
    intro i hi
    have hcopied := bgdt_of_remount hread hlog i
    rw [if_pos (by rw [bgdescSize]; omega)] at hcopied
    exact hcopied.2.trans ((agree_super_of_remount hread).2 i hcopied.1).symm
  have hsame : load (makeSuper len 0) 0 4 = load (makeBgdt len table) 0 4 :=
    calc load (makeSuper len 0) 0 4 = load s'.super 0 4 := (hsuper.load_eq (by decide)).symm
      _ = load s'.bgdt 0 4 := (hblock.load_eq le_rfl).symm
      _ = load (makeBgdt len table) 0 4 := hbgdt.load_eq (by rw [bgdescSize]; omega)
  exact load_makeSuper_ne hpos hlen table hsame

end Fresh

/-! ### A sync -/

/-- `disk_write_blk` with blocks of 1 KiB. -/
def diskWriteBlk (fsStartInMb : ℕ) (sectors : Sectors) (blockNum : ℕ) (buf : Bytes) : Sectors :=
  (List.range sectorsPerBlock).foldl (fun sectors i =>
    diskWrite sectors (u32 (lbaOf fsStartInMb blockNum + i)) (fun k => buf (ataSectorSize * i + k))
      ataSectorSize) sectors

/-- `disk_sync_super` and `disk_sync_bgdt`, each with its copy in the second group. `none` where the
table does not fit into a block. -/
def syncFs (fsStartInMb : ℕ) (s : Volume) (sectors : Sectors) : Option Sectors :=
  if s.nBlockGroups * bgdescSize > blkSize then none
  else
    let twice := fun sectors blk buf =>
      diskWriteBlk fsStartInMb (diskWriteBlk fsStartInMb sectors blk buf)
        (u32 (blk + sBlocksPerGroup s.super)) buf
    some (twice (twice sectors 1 s.super) bgdtBlkNo (bgdtBlock s.nBlockGroups s.bgdt))

/-- A sync and a mount bring back the superblock and the descriptors, whatever was on the disk. -/
def Restores (start : ℕ) (s : Volume) : Prop :=
  ∀ sectors, ∃ sectors' s', syncFs start s sectors = some sectors' ∧
    readFs start sectors' s = some s' ∧ Agree blkSize s'.super s.super ∧
      Agree (bgdescSize * s.nBlockGroups) s'.bgdt s.bgdt

/-- The superblock in memory has the bytes of the table, padded to a block, and describes a file
system with blocks of 1 KiB and at most 32 groups. -/
structure SuperIsTable (s : Volume) : Prop where
  groups_le : s.nBlockGroups * bgdescSize ≤ blkSize
  agree : Agree blkSize s.super (bgdtBlock s.nBlockGroups s.bgdt)
  log : sLogBlockSize s.super = 0
  blocksPerGroup_ne : sBlocksPerGroup s.super ≠ 0
  count_le : groupCount s.super * bgdescSize ≤ blkSize

theorem diskWriteBlk_eq (start : ℕ) (sectors : Sectors) (b : ℕ) (buf : Bytes) :
    diskWriteBlk start sectors b buf = put sectors ⟨lbaOf start b, buf⟩ := by
  have hlba : u32 (lbaOf start b + 0) = lbaOf start b := u32_of_lt (u32_lt _)
  rw [diskWriteBlk, Sectors.put_eq, show List.range sectorsPerBlock = [0, 1] by decide]
  simp only [List.foldl_cons, List.foldl_nil, Disk.diskWrite_sector, hlba, Nat.mul_zero, Nat.mul_one,
    Nat.zero_add]
  rfl

theorem blockAt_two (start : ℕ) (sectors : Sectors) {i : ℕ} (hi : i < blkSize) :
    blockAt start sectors 2 i = sectors (2048 * (start % 2 ^ 18) + 4 + i / 512) (i % 512) := by
  rw [blkSize] at hi
  rw [blockAt, Disk.readSector_eq, mbToLba_eq, ataSectorSize]
  simp only [u32]
  congr 1
  omega

/-- **A sync** writes the table to block 2, if the driver reaches it, and leaves it otherwise. -/
theorem sync_spec {start : ℕ} {s : Volume} {sectors sectors' : Sectors}
    (h : syncFs start s sectors = some sectors') : s.nBlockGroups * bgdescSize ≤ blkSize ∧
      (start % 2 ^ 18 < 2 ^ 13 →
        Agree blkSize (blockAt start sectors' 2) (bgdtBlock s.nBlockGroups s.bgdt)) ∧
      (2 ^ 13 ≤ start % 2 ^ 18 → Agree blkSize (blockAt start sectors' 2) (blockAt start sectors 2)) := by
  unfold syncFs at h
  split_ifs at h with hfit
  obtain rfl := Option.some.inj h
  refine ⟨Nat.le_of_not_gt hfit, fun hlt i hi => ?_, fun hge i hi => ?_⟩
  · -- the copy in the second group may be written over the table, but it is the table
    rw [blockAt_two _ _ hi, blkSize] at *
    have htwo : lbaOf start bgdtBlkNo % 2 ^ 24 = 2048 * (start % 2 ^ 18) + 4 := by
      simp only [lbaOf, mbToLba_eq, bgdtBlkNo, u32]
      omega
    simp only [diskWriteBlk_eq, put_apply, htwo]
    rw [if_pos (show _ / 2 = (2048 * (start % 2 ^ 18) + 4) / 2 by omega), ite_self, wholeSector,
      ataSectorSize, if_pos (by omega)]
    congr 1
    omega
  · rw [blockAt_two _ _ hi, blockAt_two _ _ hi]
    have hne : ∀ b, ¬ (2048 * (start % 2 ^ 18) + 4 + i / 512) / 2 = lbaOf start b % 2 ^ 24 / 2 := by
      omega
    simp only [diskWriteBlk_eq, put_apply, if_neg (hne _)]

theorem restores_iff (start : ℕ) (s : Volume) :
    Restores start s ↔ SuperIsTable s ∧ start % 2 ^ 18 < 2 ^ 13 := by
  constructor
  · intro h
    have hlt : start % 2 ^ 18 < 2 ^ 13 := by
      by_contra hge
      -- a disk whose block 2 does not begin as the superblock does
      obtain ⟨sectors, hsectors⟩ := Disk.exists_disk (s.super 0)
      obtain ⟨sectors', s', hsync, hmount, hsuper, -⟩ := h sectors
      have hkept := (sync_spec hsync).2.2 (by omega) 0 (by decide)
      have hread : s'.super 0 = blockAt start sectors' 2 0 :=
        (agree_super_of_remount hmount).2 0 (by decide)
      rw [hsuper 0 (by decide), hkept, blockAt_two _ _ (by decide)] at hread
      exact hsectors _ hread.symm
    obtain ⟨sectors', s', hsync, hmount, hsuper, -⟩ := h fun _ _ => 0
    obtain ⟨hfit, hblock, -⟩ := sync_spec hsync
    obtain ⟨hlog, hread⟩ := agree_super_of_remount hmount
    have htable := hsuper.symm.trans hread
    obtain ⟨hbpg, hcount⟩ := (remount_of_block2 hlog htable hlog).mp ⟨s', hmount⟩
    exact ⟨⟨hfit, htable.trans (hblock hlt), hlog, hbpg, hcount⟩, hlt⟩
  · rintro ⟨h, hlt⟩ sectors
    obtain ⟨sectors', hsync⟩ : ∃ sectors', syncFs start s sectors = some sectors' :=
      ⟨_, if_neg (Nat.not_lt.mpr h.groups_le)⟩
    have hblock := (sync_spec hsync).2.1 hlt
    have htable := h.agree.trans hblock.symm
    obtain ⟨s', hmount⟩ := (remount_of_block2 (s := { s with disk := blockAt start sectors' }) h.log
      htable h.log).mpr ⟨h.blocksPerGroup_ne, h.count_le⟩
    have hsuper : Agree blkSize s'.super s.super :=
      (agree_super_of_remount hmount).2.trans htable.symm
    refine ⟨sectors', s', hsync, hmount, hsuper, fun i hi => ?_⟩
    have hbgdt := bgdt_of_remount hmount ((sLogBlockSize_congr hsuper).trans h.log) i
    split_ifs at hbgdt with hlow
    · exact (hbgdt.2.trans (hblock i hbgdt.1)).trans (agree_copy_zero _ _ _ i hi)
    · exact hbgdt

/-- **Mounting.** After `mkfs` the mount never recovers what was written; after a sync it restores
super and descriptors exactly if they are the same bytes and the driver reaches block 2. -/
theorem mount_recovers_iff {len : ℕ} (hpos : 1 ≤ len) (hlen : len ≤ 256) (start : ℕ) (table : Bytes)
    (sectors : ℕ → Bytes) (mem s : Volume) :
    (RecoversFresh start len table sectors mem ↔ False) ∧
      (Restores start s ↔ SuperIsTable s ∧ start % 2 ^ 18 < 2 ^ 13) :=
  ⟨iff_of_false (not_recoversFresh hpos hlen start table sectors mem) not_false, restores_iff start s⟩

/-- A superblock with the bytes of the table: one block, of a group of one block. -/
def twinVolume : Volume :=
  { disk := fun _ _ => 0, super := bgdtBlock 2 fun i => if i = 32 then 1 else 0,
    bgdt := fun i => if i = 32 then 1 else 0, nBlockGroups := 2 }

theorem restores_twinVolume : Restores 0 twinVolume :=
  (mount_recovers_iff le_rfl (by decide) 0 (fun _ => 0) (fun _ _ => 0) twinVolume twinVolume).2.mpr
    ⟨⟨by decide, Agree.refl _ _, by decide, by decide, by decide⟩, by decide⟩

/-- A file system of 16 MiB at the start of the disk: neither its first mount nor the mount after a
sync brings back the superblock. -/
theorem not_mounted_sixteen_mib :
    ¬ RecoversFresh 0 16 (fun _ => 0) (fun _ _ => 0) (formatted 16 fun _ _ => 0) ∧
      ¬ Restores 0 (formatted 16 fun _ _ => 0) := by
  refine ⟨not_recoversFresh (by decide) (by decide) _ _ _ _, fun h => ?_⟩
  exact makeSuper_ne_bgdtBlock (by decide) (by decide) (fun _ => 0) ((restores_iff _ _).mp h).1.agree

end YegaKernel.Fs.Ext2.Mount
