import YegaKernel.Fs.Ext2.Sectors

/-! # What the block bitmaps of a fresh file system protect

`init_bitmaps` marks the first `reserved` blocks of a group: the two bitmaps, the inode table and,
in the first two groups, the superblock and the descriptors. All of these are one block further,
behind the first block of the group, so that the last block of the inode table stays unmarked.
Blocks behind the end of the file system are not marked either. The free counts are those of the
unmarked blocks. -/

namespace YegaKernel.Fs.Ext2.FreshBitmaps

open Lib.Bytes Lib.Word
open Fs.Disk (Bytes)
open Fs.Ext2.Layout
open Fs.Ext2.Sectors (areas groupBlocks copyBlocks mem_groupBlocks mem_copyBlocks)

/-- The descriptor that `make_bgdt` makes for the group `g`. -/
def freshDesc (len : ℕ) (table : Bytes) (g : ℕ) : Bytes := view (makeBgdt len table) (bgdescSize * g)

/-- The bitmap of the group `g` on the disk. -/
def freshBitmap (len : ℕ) (table : Bytes) (disk : ℕ → Bytes) (g : ℕ) : Bytes :=
  disk (bgBlockBitmap (freshDesc len table g))

/-- **A bit is right** if it is set for the blocks of the layout and for those behind the end. -/
def BitRight (len : ℕ) (table : Bytes) (disk : ℕ → Bytes) (g b : ℕ) : Prop :=
  bit (freshBitmap len table disk g) b = true ↔
    g * blocksPerGroup + b ∈ areas len table ∨ gTotalBlocks len ≤ g * blocksPerGroup + b

/-- The last block of the inode table, counted from the first block of the group. -/
def lastTableBlock (g : ℕ) : ℕ := if g < 2 then 132 else 130

/-- The blocks of the group `g` whose bits are clear. -/
def clearBlocks (len : ℕ) (table : Bytes) (disk : ℕ → Bytes) (g : ℕ) : Finset ℕ :=
  (Finset.range blocksPerGroup).filter fun b =>
    bit (freshBitmap len table disk g) b = false ∧ g * blocksPerGroup + b < gTotalBlocks len

variable {len g b : ℕ} {table : Bytes} {disk disk' : ℕ → Bytes}

theorem lastTableBlock_lt (g : ℕ) : lastTableBlock g < 1024 := by
  unfold lastTableBlock
  split_ifs <;> omega

theorem mem_areas_iff (hg : g < gNBlockGroups len) (hb : b < blocksPerGroup) :
    g * blocksPerGroup + b ∈ areas len table ↔ b ≤ lastTableBlock g := by
  have htable : inodeTableBlocks = 128 := by decide
  rw [areas, Sectors.blockWrites_fst]
  simp only [List.mem_append, List.mem_map, List.mem_flatMap, List.mem_range, mem_groupBlocks,
    beforeBitmaps, lastTableBlock, htable]
  simp only [blocksPerGroup] at hb ⊢
  constructor
  · rintro (⟨i, -, hi⟩ | hcopy | ⟨i, -, hi⟩)
    · split_ifs <;> omega
    · have := mem_copyBlocks hcopy
      simp only [blocksPerGroup] at this
      split_ifs <;> omega
    · split_ifs at hi ⊢ <;> omega
  · intro hle
    by_cases h0 : b = 0
    · exact .inl ⟨g, hg, by omega⟩
    · by_cases hcopy : g < 2 ∧ b ≤ 2
      · refine .inr (.inl ?_)
        simp only [copyBlocks, List.mem_append, List.mem_flatMap, List.mem_range, List.mem_cons,
          List.not_mem_nil, or_false, blocksPerGroup]
        by_cases h1 : b = 1
        · exact .inl ⟨g, hg, by rw [if_pos hcopy.1, List.mem_singleton]; omega⟩
        · exact .inr (by omega)
      · refine .inr (.inr ⟨g, hg, ?_⟩)
        split_ifs at hle ⊢ <;> omega

section
variable (hlen : len ≤ 256)
include hlen

theorem bit_freshBitmap (h : mkfs len table disk = some disk')
    (hg : g < gNBlockGroups len) (b : ℕ) :
    bit (freshBitmap len table disk' g) b = decide (b < lastTableBlock g) := by
  obtain ⟨hbitmap, -, -⟩ := Sectors.desc_makeBgdt hlen table hg
  rw [freshBitmap, freshDesc, hbitmap, (bitmaps_mkfs h hg).1, bit_freshBlockBitmap]
  rfl

theorem groupSize (hg : g < gNBlockGroups len) :
    (if g = gNBlockGroups len - 1 then gBlocksInLastGroup len else blocksPerGroup) =
      min blocksPerGroup (gTotalBlocks len - g * blocksPerGroup) ∧
    1024 ≤ gTotalBlocks len - g * blocksPerGroup := by
  rw [gNBlockGroups_eq hlen] at *
  rw [gBlocksInLastGroup, gTotalBlocks_eq hlen, blocksPerGroup]
  split_ifs <;> omega

theorem bitRight_iff (h : mkfs len table disk = some disk')
    (hg : g < gNBlockGroups len) (hb : b < blocksPerGroup) : BitRight len table disk' g b ↔
      b ≠ lastTableBlock g ∧ g * blocksPerGroup + b < gTotalBlocks len := by
  have hlast := lastTableBlock_lt g
  have hsize := (groupSize hlen hg).2
  rw [BitRight, bit_freshBitmap hlen h hg, mem_areas_iff hg hb, decide_eq_true_eq]
  omega

theorem card_clearBlocks (h : mkfs len table disk = some disk') (hg : g < gNBlockGroups len) :
    bgFreeBlocksCount (freshDesc len table g) = (clearBlocks len table disk' g).card := by
  obtain ⟨hsize, hroom⟩ := groupSize hlen hg
  have hlast := lastTableBlock_lt g
  have hclear : clearBlocks len table disk' g = Finset.Ico (lastTableBlock g)
      (min blocksPerGroup (gTotalBlocks len - g * blocksPerGroup)) := by
    ext b
    simp only [clearBlocks, Finset.mem_filter, Finset.mem_range, Finset.mem_Ico,
      bit_freshBitmap hlen h hg, decide_eq_false_iff_not]
    omega
  have hres : (if decide (g < 2) = true then reservedBlocksPerGroup + 2 else reservedBlocksPerGroup) =
      lastTableBlock g := by
    rw [show reservedBlocksPerGroup = 130 by decide, lastTableBlock]
    simp
  have hfree : freeBlocksInGroup len g (g < 2) =
      min blocksPerGroup (gTotalBlocks len - g * blocksPerGroup) - lastTableBlock g := by
    rw [freeBlocksInGroup]
    simp only [hsize, hres]
    refine sub32_of_le ?_ ?_
    · simp only [blocksPerGroup]
      omega
    · simp only [blocksPerGroup] at *
      omega
  rw [hclear, Nat.card_Ico, ← hfree, bgFreeBlocksCount, freshDesc,
    load_makeBgdt len table hg (12, 2, freeBlocksInGroup len g (g < 2)) (by simp [descFields])]
  exact Nat.mod_eq_of_lt (freeBlocksInGroup_pos hlen g _).2

end

/-- **The fresh block bitmaps.** A bit of a group is right unless it is that of the last block of
the inode table, or of a block behind the end of the file system; the free count of the group is the
number of its blocks whose bits are clear. -/
theorem freshBitmaps_right_iff (hlen : len ≤ 256) (h : mkfs len table disk = some disk')
    (hg : g < gNBlockGroups len) :
    (∀ b < blocksPerGroup, BitRight len table disk' g b ↔
      b ≠ lastTableBlock g ∧ g * blocksPerGroup + b < gTotalBlocks len) ∧
    bgFreeBlocksCount (freshDesc len table g) = (clearBlocks len table disk' g).card :=
  ⟨fun _ hb => bitRight_iff hlen h hg hb, card_clearBlocks hlen h hg⟩

/-- Block 100 of a file system of 1 MiB. -/
theorem bitRight_block_100 : ∃ disk', mkfs 1 (fun _ => 0) (fun _ _ => 0) = some disk' ∧
    BitRight 1 (fun _ => 0) disk' 0 100 := by
  obtain ⟨disk', h⟩ := mkfs_of_le (show 1 ≤ 256 by decide) (fun _ => 0) fun _ _ => 0
  refine ⟨disk', h, ((freshBitmaps_right_iff (by decide) h (by decide)).1 100 (by decide)).mpr ?_⟩
  exact ⟨by decide, by decide⟩

/-- Block 132 of a file system of 1 MiB is the last one of its inode table and unmarked, and block
1024 is behind its end and unmarked. -/
theorem not_bitRight_block_132 : ∃ disk', mkfs 1 (fun _ => 0) (fun _ _ => 0) = some disk' ∧
    ¬ BitRight 1 (fun _ => 0) disk' 0 132 ∧ ¬ BitRight 1 (fun _ => 0) disk' 0 1024 := by
  obtain ⟨disk', h⟩ := mkfs_of_le (show 1 ≤ 256 by decide) (fun _ => 0) fun _ _ => 0
  refine ⟨disk', h, fun hr => ?_, fun hr => ?_⟩
  · exact absurd ((bitRight_iff (by decide) h (by decide) (by decide)).mp hr).1 (by decide)
  · exact absurd ((bitRight_iff (by decide) h (by decide) (by decide)).mp hr).2 (by decide)

end YegaKernel.Fs.Ext2.FreshBitmaps
