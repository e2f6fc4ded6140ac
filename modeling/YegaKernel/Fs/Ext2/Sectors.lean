import YegaKernel.Fs.Ext2.Layout

/-! # mkfs by sectors

What `mkfs` sends to the disk, write by write. A file system that starts at `mb_start` has its block
`b` in the sectors `mb_to_lba(mb_start) + 2 * b` and the next one (`lbaOf`).

* `make_bgdt` numbers blocks from the start of the file system, `mkfs` counts sectors from `fs_lba`,
  which is one block further. Both name the same sectors (`GroupAgrees`).
* No two of the writes meet, so each one is still there in the end, if it reaches its sector.
* `disk_write` sends 24 bits of the sector number only, so a file system that reaches sector `2 ^ 24`
  is not written where it belongs (`layoutAgrees_iff`).
* Below that sector the disk is, block by block, the one of `Layout.mkfs` (`agree_mkfs`). -/

namespace YegaKernel.Fs.Ext2.Sectors

open Lib.Bytes Lib.Word Lib.Loops
open Fs.Disk (Bytes Sectors ataSectorSize sectorsPerBlock wholeSector readSector writeSector diskWrite)
open Fs.Ext2.Layout Function

/-! ### What is sent to the disk -/

/-- A `disk_write` of one block. -/
structure Write where
  lba : ℕ
  data : Bytes

def mbToLba (mb : ℕ) : ℕ := u32 (mb * 1024 * 2)

/-- `fs_start_to_lba_superblk`, with `s_log_block_size = 0`. -/
def fsStartToLbaSuperblk (mbStart : ℕ) : ℕ := u32 (mbToLba mbStart + sectorsPerBlock)

def sectorsPerBlockGroup : ℕ := sectorsPerBlock * blocksPerGroup

/-- The loop that writes the superblocks. -/
def superblocks (fsLba len : ℕ) : List Write :=
  (List.range (gNBlockGroups len)).flatMap fun i =>
    if i < 2 then [⟨u32 (fsLba + i * sectorsPerBlockGroup), makeSuper len i⟩] else []

/-- The two calls of `write_bgdt`. -/
def bgdts (fsLba groups : ℕ) (table : Bytes) : List Write :=
  [⟨u32 (fsLba + sectorsPerBlock), bgdtBlock groups table⟩,
    ⟨u32 (fsLba + sectorsPerBlockGroup + sectorsPerBlock), bgdtBlock groups table⟩]

def initBitmaps (fsLba groupStart groupIdx : ℕ) : List Write :=
  [⟨u32 (fsLba + (groupStart + 0) * sectorsPerBlock), freshBlockBitmap groupIdx⟩,
    ⟨u32 (fsLba + (groupStart + 1) * sectorsPerBlock), freshInodeBitmap groupIdx⟩]

def initInodeTable (fsLba groupStart : ℕ) : List Write :=
  (List.range inodeTableBlocks).map fun i =>
    ⟨u32 (fsLba + (groupStart + 2 + i) * sectorsPerBlock), fun _ => 0⟩

/-- **All writes of `mkfs`**, in order. -/
def mkfsWrites (mbStart len : ℕ) (table : Bytes) : List Write :=
  let fsLba := fsStartToLbaSuperblk mbStart
  let groups := gNBlockGroups len
  let table := makeBgdt len table
  superblocks fsLba len ++ bgdts fsLba groups table ++
    (List.range groups).flatMap fun i =>
      initBitmaps fsLba (beforeBitmaps i) i ++ initInodeTable fsLba (beforeBitmaps i)

/-- The second sector of a block. -/
def Write.next (w : Write) : ℕ := u32 (w.lba + 1)

/-- The call of `disk_write`. -/
def put (disk : Sectors) (w : Write) : Sectors := diskWrite disk w.lba w.data 1024

/-- **`mkfs`**, which stops the machine when the descriptors do not fit into a block. -/
def mkfs (mbStart len : ℕ) (table : Bytes) (disk : Sectors) : Option Sectors :=
  if bgdescSize * gNBlockGroups len > blkSize then none
  else some ((mkfsWrites mbStart len table).foldl put disk)

theorem put_eq (disk : Sectors) (w : Write) : put disk w =
    update (update disk (writeSector w.lba) (wholeSector w.data)) (writeSector w.next)
      (wholeSector fun i => w.data (ataSectorSize + i)) := Disk.diskWrite_block disk w.lba w.data

/-! ### Writes that do not meet -/

/-- Two blocks on the disk have no sector in common. -/
def LbaApart (a b : ℕ) : Prop := a ≠ b ∧ a ≠ u32 (b + 1) ∧ u32 (a + 1) ≠ b ∧ u32 (a + 1) ≠ u32 (b + 1)

/-- The block is on the disk. -/
def Stored (disk : Sectors) (w : Write) : Prop :=
  disk w.lba = wholeSector w.data ∧ disk w.next = wholeSector fun i => w.data (ataSectorSize + i)

section Puts
variable {disk : Sectors} {ws : List Write} {w v : Write} {s : ℕ}

theorem put_of_ne (h1 : s ≠ writeSector w.lba) (h2 : s ≠ writeSector w.next) :
    put disk w s = disk s := by
  rw [put_eq, update_of_ne h2, update_of_ne h1]

theorem foldl_put_of_ne (h : ∀ w ∈ ws, s ≠ writeSector w.lba ∧ s ≠ writeSector w.next) :
    ws.foldl put disk s = disk s := by
  induction ws generalizing disk with
  | nil => rfl
  | cons w ws ih =>
    obtain ⟨hw, hws⟩ := List.forall_mem_cons.mp h
    rw [List.foldl_cons, ih hws, put_of_ne hw.1 hw.2]

theorem writeSectors_of_lt (h : w.lba + 1 < 2 ^ 24) :
    writeSector w.lba = w.lba ∧ writeSector w.next = w.next ∧ w.lba ≠ w.next := by
  have hnext : w.next = w.lba + 1 := u32_of_lt (by omega)
  rw [hnext, Disk.writeSector_eq, Disk.writeSector_eq]
  omega

theorem stored_put (h : w.lba + 1 < 2 ^ 24) : Stored (put disk w) w := by
  obtain ⟨hlba, hnext, hne⟩ := writeSectors_of_lt h
  rw [put_eq, hlba, hnext]
  exact ⟨by rw [update_of_ne hne, update_self], update_self _ _ _⟩

/-- **Of writes that do not meet each one stays**, if the driver reaches its sectors. -/
theorem stored_foldl_put (hlt : ∀ w ∈ ws, w.lba + 1 < 2 ^ 24)
    (h : ws.Pairwise fun w v => LbaApart w.lba v.lba) : ∀ w ∈ ws, Stored (ws.foldl put disk) w := by
  induction ws generalizing disk with
  | nil => exact fun _ hw => absurd hw List.not_mem_nil
  | cons v ws ih =>
    obtain ⟨hv, hws⟩ := List.pairwise_cons.mp h
    obtain ⟨hvlt, hwslt⟩ := List.forall_mem_cons.mp hlt
    intro w hw
    rw [List.foldl_cons]
    rcases List.mem_cons.mp hw with rfl | hw
    · have hstored := @stored_put disk _ hvlt
      refine ⟨(foldl_put_of_ne fun v hmem => ?_).trans hstored.1,
        (foldl_put_of_ne fun v hmem => ?_).trans hstored.2⟩
      all_goals
        obtain ⟨hlba, hnext, -⟩ := writeSectors_of_lt (hwslt v hmem)
        rw [hlba, hnext]
      · exact ⟨(hv v hmem).1, (hv v hmem).2.1⟩
      · exact ⟨(hv v hmem).2.2.1, (hv v hmem).2.2.2⟩
    · exact ih hwslt hws w hw

end Puts

/-! ### Blocks -/

/-- The first sector of the block `b` of the file system at `mbStart`. -/
def lbaOf (mbStart b : ℕ) : ℕ := u32 (mbToLba mbStart + 2 * b)

/-- The block `b`, as `disk_read_blk` reads it. -/
def blockAt (mbStart : ℕ) (disk : Sectors) (b : ℕ) : Bytes := fun i =>
  disk (readSector (u32 (mbToLba mbStart + 2 * b + i / ataSectorSize))) (i % ataSectorSize)

/-- The writes of `mkfs`, by the numbers of the blocks. -/
def blockWrites (len : ℕ) (table : Bytes) : List (ℕ × Bytes) :=
  (List.range (gNBlockGroups len)).flatMap (fun i =>
    if i < 2 then [(1 + i * blocksPerGroup, makeSuper len i)] else []) ++
  [(2, bgdtBlock (gNBlockGroups len) (makeBgdt len table)),
    (blocksPerGroup + 2, bgdtBlock (gNBlockGroups len) (makeBgdt len table))] ++
  (List.range (gNBlockGroups len)).flatMap fun i =>
    [(beforeBitmaps i + 1, freshBlockBitmap i), (beforeBitmaps i + 2, freshInodeBitmap i)] ++
      (List.range inodeTableBlocks).map fun k => (beforeBitmaps i + 3 + k, fun _ => 0)

variable {start len : ℕ}

theorem lba_eq (start k : ℕ) : u32 (fsStartToLbaSuperblk start + k * 2) = lbaOf start (1 + k) := by
  simp only [fsStartToLbaSuperblk, lbaOf, sectorsPerBlock, u32]
  omega

theorem initBitmaps_eq (start g i : ℕ) : initBitmaps (fsStartToLbaSuperblk start) g i =
    [⟨lbaOf start (g + 1), freshBlockBitmap i⟩, ⟨lbaOf start (g + 2), freshInodeBitmap i⟩] := by
  simp only [initBitmaps, sectorsPerBlock, lba_eq, Nat.add_zero, Nat.add_comm 1]

theorem initInodeTable_eq (start g : ℕ) : initInodeTable (fsStartToLbaSuperblk start) g =
    (List.range inodeTableBlocks).map fun k => ⟨lbaOf start (g + 3 + k), fun _ => 0⟩ := by
  have hblock : ∀ k, 1 + (g + 2 + k) = g + 3 + k := fun k => by omega
  simp only [initInodeTable, sectorsPerBlock, lba_eq, hblock]

theorem superblocks_eq (start len : ℕ) : superblocks (fsStartToLbaSuperblk start) len =
    ((List.range (gNBlockGroups len)).flatMap fun i =>
      if i < 2 then [(1 + i * blocksPerGroup, makeSuper len i)] else []).map
        fun w => ⟨lbaOf start w.1, w.2⟩ := by
  rw [superblocks, List.map_flatMap]
  refine congrArg (List.flatMap · _) (funext fun i => ?_)
  have hgroup : i * sectorsPerBlockGroup = i * blocksPerGroup * 2 := by
    rw [sectorsPerBlockGroup, sectorsPerBlock]
    ring
  split_ifs
  · rw [hgroup, lba_eq]
    rfl
  · rfl

/-- **The writes by sectors are those by blocks.** -/
theorem mkfsWrites_eq (start len : ℕ) (table : Bytes) :
    mkfsWrites start len table = (blockWrites len table).map fun w => ⟨lbaOf start w.1, w.2⟩ := by
  have hone : fsStartToLbaSuperblk start + sectorsPerBlock = fsStartToLbaSuperblk start + 1 * 2 := rfl
  have htwo : fsStartToLbaSuperblk start + sectorsPerBlockGroup + sectorsPerBlock =
      fsStartToLbaSuperblk start + (blocksPerGroup + 1) * 2 := by
    simp only [sectorsPerBlockGroup, sectorsPerBlock, blocksPerGroup]
  have hblock : 1 + (blocksPerGroup + 1) = blocksPerGroup + 2 := by omega
  simp only [mkfsWrites, blockWrites, superblocks_eq, bgdts, hone, htwo, lba_eq, hblock, initBitmaps_eq,
    initInodeTable_eq, List.map_append, List.map_flatMap, List.map_cons, List.map_nil, List.map_map]
  rfl

variable {b i : ℕ}

theorem lbaApart_of_ne {c : ℕ} (hb : b < 2 ^ 31) (hc : c < 2 ^ 31) (h : b ≠ c) :
    LbaApart (lbaOf start b) (lbaOf start c) := by
  simp only [LbaApart, lbaOf, u32]
  omega

/-! ### The layout -/

/-- The blocks that the loop over the groups writes for the group `i`. -/
def groupBlocks (i : ℕ) : List ℕ :=
  [beforeBitmaps i + 1, beforeBitmaps i + 2] ++
    (List.range inodeTableBlocks).map fun k => beforeBitmaps i + 3 + k

/-- The copies of the superblock and of the descriptors. -/
def copyBlocks (groups : ℕ) : List ℕ :=
  (List.range groups).flatMap (fun i => if i < 2 then [1 + i * blocksPerGroup] else []) ++
    [2, blocksPerGroup + 2]

theorem blockWrites_fst (len : ℕ) (table : Bytes) : (blockWrites len table).map Prod.fst =
    copyBlocks (gNBlockGroups len) ++ (List.range (gNBlockGroups len)).flatMap groupBlocks := by
  have hif : ∀ i, List.map Prod.fst (if i < 2 then [(1 + i * blocksPerGroup, makeSuper len i)] else []) =
      if i < 2 then [1 + i * blocksPerGroup] else [] := by
    intro i
    split_ifs <;> rfl
  simp only [blockWrites, copyBlocks, List.map_append, List.map_flatMap, hif, List.map_cons,
    List.map_nil, List.map_map]
  rfl

theorem mem_groupBlocks :
    b ∈ groupBlocks i ↔ beforeBitmaps i < b ∧ b < beforeBitmaps i + 3 + inodeTableBlocks := by
  simp only [groupBlocks, List.mem_append, List.mem_cons, List.not_mem_nil, or_false, List.mem_map,
    List.mem_range]
  constructor
  · rintro ((rfl | rfl) | ⟨k, hk, rfl⟩) <;> omega
  · rintro ⟨h1, h2⟩
    by_cases h3 : b < beforeBitmaps i + 3
    · exact .inl (by omega)
    · exact .inr ⟨b - (beforeBitmaps i + 3), by omega, by omega⟩

theorem nodup_groupBlocks (i : ℕ) : (groupBlocks i).Nodup := by
  refine List.nodup_append.mpr ⟨by simp, List.nodup_range.map fun k l h => by omega, fun b hb c hc => ?_⟩
  obtain ⟨k, -, rfl⟩ := List.mem_map.mp hc
  simp only [List.mem_cons, List.not_mem_nil, or_false] at hb
  omega

theorem groupBlocks_bounds (h : b ∈ groupBlocks i) :
    i * blocksPerGroup < b ∧ b < i * blocksPerGroup + 133 ∧ (i < 2 → i * blocksPerGroup + 2 < b) := by
  have htable : inodeTableBlocks = 128 := by decide
  rw [mem_groupBlocks, htable, beforeBitmaps] at h
  split_ifs at h <;> omega

theorem mem_copyBlocks {groups : ℕ} (h : b ∈ copyBlocks groups) :
    b = 1 ∨ b = 2 ∨ b = 1 + blocksPerGroup ∨ b = 2 + blocksPerGroup := by
  simp only [copyBlocks, List.mem_append, List.mem_flatMap, List.mem_range, List.mem_cons,
    List.not_mem_nil, or_false] at h
  rcases h with ⟨i, -, hi⟩ | h
  · split_ifs at hi with hi2
    · simp only [List.mem_singleton] at hi
      interval_cases i <;> omega
    · exact absurd hi List.not_mem_nil
  · omega

theorem nodup_copyBlocks (groups : ℕ) : (copyBlocks groups).Nodup := by
  refine List.nodup_append.mpr ⟨List.nodup_flatMap.mpr ⟨fun i _ => ?_, ?_⟩, by decide,
    fun b hb c hc => ?_⟩
  · split_ifs <;> simp
  · refine List.nodup_range.imp fun {i j} hij => ?_
    simp only [Function.onFun, List.disjoint_left]
    intro b hb hc
    split_ifs at hb hc <;> simp [blocksPerGroup] at hb hc
    omega
  · obtain ⟨i, -, hi⟩ := List.mem_flatMap.mp hb
    split_ifs at hi with hi2
    · simp only [List.mem_cons, List.not_mem_nil, or_false, blocksPerGroup] at hi hc
      omega
    · exact absurd hi List.not_mem_nil

/-- **The areas of a file system**: the first block of each group, and all blocks `mkfs` writes. -/
def areas (len : ℕ) (table : Bytes) : List ℕ :=
  (List.range (gNBlockGroups len)).map (· * blocksPerGroup) ++ (blockWrites len table).map Prod.fst

theorem nodup_areas (len : ℕ) (table : Bytes) : (areas len table).Nodup := by
  rw [areas, blockWrites_fst]
  refine List.nodup_append.mpr ⟨List.nodup_range.map fun i j h => ?_, List.nodup_append.mpr
    ⟨nodup_copyBlocks _, List.nodup_flatMap.mpr ⟨fun i _ => nodup_groupBlocks i, ?_⟩,
    fun b hb c hc => ?_⟩, fun b hb c hc => ?_⟩
  · simp only [blocksPerGroup] at h
    omega
  · refine List.nodup_range.imp fun {i j} hij => ?_
    intro b hb hc
    have hi := groupBlocks_bounds hb
    have hj := groupBlocks_bounds hc
    simp only [blocksPerGroup] at hi hj
    omega
  · obtain ⟨i, -, hi⟩ := List.mem_flatMap.mp hc
    have hcopy := mem_copyBlocks hb
    have hgroup := groupBlocks_bounds hi
    simp only [blocksPerGroup] at hcopy hgroup
    rcases Nat.lt_or_ge i 2 with hi2 | hi2
    · interval_cases i <;> omega
    · omega
  · obtain ⟨i, -, rfl⟩ := List.mem_map.mp hb
    rintro rfl
    simp only [List.mem_append, List.mem_flatMap] at hc
    rcases hc with hc | ⟨j, -, hj⟩
    · have hcopy := mem_copyBlocks hc
      simp only [blocksPerGroup] at hcopy
      omega
    · have hgroup := groupBlocks_bounds hj
      simp only [blocksPerGroup] at hgroup
      omega

theorem areas_lt (hlen : len ≤ 256) {table : Bytes} {b : ℕ} (hb : b ∈ areas len table) : b < 2 ^ 31 := by
  rw [areas, blockWrites_fst, gNBlockGroups_eq hlen] at hb
  simp only [List.mem_append, List.mem_map, List.mem_flatMap, List.mem_range] at hb
  rcases hb with ⟨i, hi, rfl⟩ | hb | ⟨i, hi, hb⟩
  · simp only [blocksPerGroup]
    omega
  · have hcopy := mem_copyBlocks hb
    simp only [blocksPerGroup] at hcopy
    omega
  · have hgroup := groupBlocks_bounds hb
    simp only [blocksPerGroup] at hgroup
    omega

/-- **What agrees in a group**: the bitmaps and the inode table are written to the blocks that the
descriptor `d` of the group names, which are blocks of the group and of the file system. -/
structure GroupAgrees (start len i : ℕ) (d : Bytes) : Prop where
  bitmaps : initBitmaps (fsStartToLbaSuperblk start) (beforeBitmaps i) i =
    [⟨lbaOf start (bgBlockBitmap d), freshBlockBitmap i⟩,
      ⟨lbaOf start (bgInodeBitmap d), freshInodeBitmap i⟩]
  table : initInodeTable (fsStartToLbaSuperblk start) (beforeBitmaps i) =
    (List.range inodeTableBlocks).map fun k => ⟨lbaOf start (bgInodeTable d + k), fun _ => 0⟩
  inside : ∀ b, b = bgBlockBitmap d ∨ b = bgInodeBitmap d ∨
      bgInodeTable d ≤ b ∧ b < bgInodeTable d + inodeTableBlocks →
    i * blocksPerGroup ≤ b ∧ b < (i + 1) * blocksPerGroup ∧ b < gTotalBlocks len

theorem desc_makeBgdt (hlen : len ≤ 256) (table : Bytes) {i : ℕ} (hi : i < gNBlockGroups len) :
    let d := view (makeBgdt len table) (bgdescSize * i)
    bgBlockBitmap d = beforeBitmaps i + 1 ∧ bgInodeBitmap d = beforeBitmaps i + 2 ∧
      bgInodeTable d = beforeBitmaps i + 3 := by
  have hload := load_makeBgdt len table hi
  have hsmall : ∀ k ≤ 3, beforeBitmaps i + k < 256 ^ 4 := by
    rw [gNBlockGroups_eq hlen] at hi
    simp only [beforeBitmaps, blocksPerGroup]
    split_ifs <;> omega
  exact ⟨(hload (0, 4, beforeBitmaps i + 1) (by simp [descFields])).trans
      (Nat.mod_eq_of_lt (hsmall 1 (by decide))),
    (hload (4, 4, beforeBitmaps i + 2) (by simp [descFields])).trans
      (Nat.mod_eq_of_lt (hsmall 2 (by decide))),
    (hload (8, 4, beforeBitmaps i + 3) (by simp [descFields])).trans
      (Nat.mod_eq_of_lt (hsmall 3 (by decide)))⟩

theorem groupAgrees_makeBgdt (hlen : len ≤ 256) (start : ℕ) (table : Bytes) {i : ℕ}
    (hi : i < gNBlockGroups len) :
    GroupAgrees start len i (view (makeBgdt len table) (bgdescSize * i)) := by
  obtain ⟨hblock, hinode, htable⟩ := desc_makeBgdt hlen table hi
  refine ⟨?_, ?_, fun b hb => ?_⟩
  · rw [hblock, hinode, initBitmaps_eq]
  · rw [htable, initInodeTable_eq]
  · have hmem : b ∈ groupBlocks i := by
      rw [mem_groupBlocks]
      omega
    have hbounds := groupBlocks_bounds hmem
    -- the last group has at least 1024 blocks
    rw [gNBlockGroups_eq hlen] at hi
    rw [gTotalBlocks_eq hlen]
    simp only [blocksPerGroup] at *
    omega

/-! ### The blocks that the driver reaches -/

/-- The blocks `mkfs` writes, by number. -/
def Written (len b : ℕ) : Prop :=
  b ∈ copyBlocks (gNBlockGroups len) ∨ ∃ i < gNBlockGroups len, b ∈ groupBlocks i

theorem written_iff {table : Bytes} : Written len b ↔ b ∈ (blockWrites len table).map Prod.fst := by
  simp only [Written, blockWrites_fst, List.mem_append, List.mem_flatMap, List.mem_range]

theorem forall_mkfsWrites (table : Bytes) {P : ℕ → Prop} :
    (∀ w ∈ mkfsWrites start len table, P w.lba) ↔ ∀ b, Written len b → P (lbaOf start b) := by
  rw [mkfsWrites_eq]
  constructor
  · intro h b hb
    obtain ⟨w, hw, rfl⟩ := List.mem_map.mp (written_iff.mp hb)
    exact h _ (List.mem_map_of_mem hw)
  · intro h w hw
    obtain ⟨v, hv, rfl⟩ := List.mem_map.mp hw
    exact h v.1 (written_iff.mpr (List.mem_map_of_mem hv))

theorem written_two (len : ℕ) : Written len 2 := by
  left
  simp [copyBlocks]

theorem written_copy (len : ℕ) : Written len 8194 := by
  left
  simp [copyBlocks, blocksPerGroup]

/-- The last group is written to, behind its first block. -/
theorem written_last (hlen : len ≤ 256) :
    ∃ b, Written len b ∧ (len - 1) / 8 * 8192 ≤ b ∧ b ≤ (len - 1) / 8 * 8192 + 3 := by
  by_cases h0 : len = 0
  · exact ⟨2, written_two len, by omega, by omega⟩
  · have hmem : beforeBitmaps ((len - 1) / 8) + 1 ∈ groupBlocks ((len - 1) / 8) := by
      rw [mem_groupBlocks]
      omega
    refine ⟨_, .inr ⟨_, by rw [gNBlockGroups_eq hlen]; omega, hmem⟩, ?_⟩
    rw [beforeBitmaps, blocksPerGroup]
    split_ifs <;> omega

theorem Written.le (hlen : len ≤ 256) {b : ℕ} (h : Written len b) :
    b ≤ 8194 ∨ b < (len - 1) / 8 * 8192 + 133 := by
  rcases h with hb | ⟨i, hi, hb⟩
  · have hcopy := mem_copyBlocks hb
    simp only [blocksPerGroup] at hcopy
    omega
  · have hbounds := groupBlocks_bounds hb
    rw [gNBlockGroups_eq hlen] at hi
    simp only [blocksPerGroup] at hbounds
    omega

theorem mbToLba_eq (start : ℕ) : mbToLba start = 2048 * (start % 2 ^ 21) := by
  simp only [mbToLba, u32]
  omega

/-- **All sectors are below `2 ^ 24`** exactly if both the second group and the last one start there. -/
theorem below_iff (hlen : len ≤ 256) : (∀ b, Written len b → lbaOf start b < 2 ^ 24) ↔
    start % 2 ^ 21 + max 8 ((len - 1) / 8 * 8) < 2 ^ 13 := by
  constructor
  · intro h
    obtain ⟨b, hb, hge, hle⟩ := written_last hlen
    have hfirst := h 2 (written_two len)
    have hcopy := h 8194 (written_copy len)
    have hlast := h b hb
    simp only [lbaOf, mbToLba_eq, u32] at hfirst hcopy hlast
    omega
  · intro h b hb
    have hle := hb.le hlen
    simp only [lbaOf, mbToLba_eq, u32]
    omega

/-! ### What is left on the disk -/

/-- **The layout on the disk is that of the descriptors**: `mkfs` writes each group to the blocks its
descriptor names; all areas are apart, so that no write meets another one; and in the end each write
is still there. -/
structure LayoutAgrees (start len : ℕ) (table : Bytes) : Prop where
  groups : ∀ i < gNBlockGroups len,
    GroupAgrees start len i (view (makeBgdt len table) (bgdescSize * i))
  apart : ((List.range (gNBlockGroups len)).map (fun i => lbaOf start (i * blocksPerGroup)) ++
    (mkfsWrites start len table).map Write.lba).Pairwise LbaApart
  stored : ∀ disk, ∃ disk', mkfs start len table disk = some disk' ∧
    ∀ w ∈ mkfsWrites start len table, Stored disk' w

theorem areas_apart (hlen : len ≤ 256) (start : ℕ) (table : Bytes) :
    ((List.range (gNBlockGroups len)).map (fun i => lbaOf start (i * blocksPerGroup)) ++
      (mkfsWrites start len table).map Write.lba).Pairwise LbaApart := by
  have hapart : ((areas len table).map (lbaOf start)).Pairwise LbaApart := by
    refine List.pairwise_map.mpr ((nodup_areas len table).imp_of_mem fun {b c} hb hc hne => ?_)
    exact lbaApart_of_ne (areas_lt hlen hb) (areas_lt hlen hc) hne
  have hareas : (areas len table).map (lbaOf start) =
      (List.range (gNBlockGroups len)).map (fun i => lbaOf start (i * blocksPerGroup)) ++
        (mkfsWrites start len table).map Write.lba := by
    simp only [areas, mkfsWrites_eq, List.map_append, List.map_map]
    rfl
  rwa [hareas] at hapart

theorem bgdt_fits (hlen : len ≤ 256) : ¬ bgdescSize * gNBlockGroups len > blkSize := by
  rw [gNBlockGroups_eq hlen, bgdescSize, blkSize]
  omega

theorem mkfs_of_le (hlen : len ≤ 256) (start : ℕ) (table : Bytes) (disk : Sectors) :
    mkfs start len table disk = some ((mkfsWrites start len table).foldl put disk) :=
  if_neg (bgdt_fits hlen)

theorem lbaOf_even (start b : ℕ) : lbaOf start b % 2 = 0 := by
  simp only [lbaOf, mbToLba_eq, u32]
  omega

/-- **The driver decides whether the layout is on the disk**: it is exactly if all sectors are below
`2 ^ 24`. -/
theorem layoutAgrees_iff (hlen : len ≤ 256) (start : ℕ) (table : Bytes) :
    LayoutAgrees start len table ↔ start % 2 ^ 21 + max 8 ((len - 1) / 8 * 8) < 2 ^ 13 := by
  rw [← below_iff hlen, ← forall_mkfsWrites table (P := fun lba => lba < 2 ^ 24)]
  constructor
  · intro h w hw
    by_contra hge
    -- a disk on which the sector does not begin as the block does
    obtain ⟨disk, hdisk⟩ := Disk.exists_disk (w.data 0)
    obtain ⟨disk', hmkfs, hstored⟩ := h.stored disk
    rw [mkfs_of_le hlen, Option.some.injEq] at hmkfs
    have hkept : disk' w.lba = disk w.lba := by
      rw [← hmkfs]
      exact foldl_put_of_ne fun v _ => by
        rw [Disk.writeSector_eq, Disk.writeSector_eq]
        omega
    exact hdisk w.lba (congrFun (hkept.symm.trans (hstored w hw).1) 0)
  · intro h
    have heven : ∀ w ∈ mkfsWrites start len table, w.lba % 2 = 0 :=
      (forall_mkfsWrites table (P := fun lba => lba % 2 = 0)).mpr fun b _ => lbaOf_even start b
    refine ⟨fun i hi => groupAgrees_makeBgdt hlen start table hi, areas_apart hlen start table,
      fun disk => ⟨_, mkfs_of_le hlen start table disk, ?_⟩⟩
    refine stored_foldl_put (fun w hw => ?_)
      (List.pairwise_map.mp (List.pairwise_append.mp (areas_apart hlen start table)).2.1)
    have hlt := h w hw
    have htwo := heven w hw
    omega

/-- A file system of 9 MiB, of which the second group has 1024 blocks. -/
theorem layoutAgrees_nine : gNBlockGroups 9 = 2 ∧ LayoutAgrees 1 9 fun _ => 0 :=
  ⟨by decide, (layoutAgrees_iff (by decide) 1 fun _ => 0).mpr (by decide)⟩

/-- **At 8 GiB nothing of a file system is written**: its superblock belongs to a sector that keeps
its old contents. -/
theorem not_layoutAgrees_eight_gib : (∃ disk', mkfs 8192 9 (fun _ => 0) (fun _ _ => 0) = some disk' ∧
    ∀ w ∈ mkfsWrites 8192 9 fun _ => 0, disk' w.lba = fun _ => 0) ∧
      ¬ LayoutAgrees 8192 9 fun _ => 0 := by
  refine ⟨⟨_, mkfs_of_le (by decide) _ _ _, ?_⟩, fun h => ?_⟩
  · refine (forall_mkfsWrites _ (P := fun lba => List.foldl put _ _ lba = _)).mpr fun b hb =>
      foldl_put_of_ne fun v _ => ?_
    have hle := hb.le (by decide)
    rw [Disk.writeSector_eq, Disk.writeSector_eq]
    simp only [lbaOf, mbToLba, u32]
    omega
  · rw [layoutAgrees_iff (by decide)] at h
    exact absurd h (by decide)

/-! ### The disk block by block -/

/-- The sectors of the block are below `2 ^ 24`. -/
def Below (start b : ℕ) : Prop := mbToLba start + 2 * b + 1 < 2 ^ 24

/-- The call of `disk_write` sector by sector. -/
theorem put_apply (disk : Sectors) (b : ℕ) (data : Bytes) (x : ℕ) :
    put disk ⟨lbaOf start b, data⟩ x = if x / 2 = lbaOf start b % 2 ^ 24 / 2
      then wholeSector fun i => data (ataSectorSize * (x % 2) + i) else disk x := by
  have heven := lbaOf_even start b
  have hnext : u32 (lbaOf start b + 1) = lbaOf start b + 1 := by
    have hlt : lbaOf start b < 2 ^ 32 := u32_lt _
    exact u32_of_lt (by omega)
  rw [put_eq]
  dsimp only [Write.next]
  rw [hnext, Disk.writeSector_eq, Disk.writeSector_eq]
  split_ifs with hx
  · rcases Nat.mod_two_eq_zero_or_one x with h2 | h2
    · obtain rfl : x = lbaOf start b % 2 ^ 24 := by omega
      rw [update_of_ne (by omega), update_self, h2]
      simp
    · obtain rfl : x = (lbaOf start b + 1) % 2 ^ 24 := by omega
      rw [update_self, h2, Nat.mul_one]
  · rw [update_of_ne (by omega), update_of_ne (by omega)]

theorem blockAt_below (hb : Below start b) (disk : Sectors) (hi : i < blkSize) :
    blockAt start disk b i =
      disk (mbToLba start + 2 * b + i / ataSectorSize) (i % ataSectorSize) := by
  unfold Below at hb
  rw [blkSize] at hi
  rw [blockAt, Disk.readSector_eq, ataSectorSize, u32_of_lt (by omega), Nat.mod_eq_of_lt (by omega)]

theorem agree_put {disk : Sectors} {blocks : ℕ → Bytes} (hb : Below start b) (data : Bytes)
    (h : ∀ c, Below start c → Agree blkSize (blockAt start disk c) (blocks c)) :
    ∀ c, Below start c → Agree blkSize (blockAt start (put disk ⟨lbaOf start b, data⟩) c)
      (update blocks b data c) := by
  intro c hc i hi
  have hold := h c hc i hi
  rw [blockAt_below hc _ hi] at hold ⊢
  rw [put_apply]
  unfold Below at hb hc
  rw [blkSize] at hi
  have hlba : lbaOf start b % 2 ^ 24 = mbToLba start + 2 * b := by
    simp only [lbaOf, u32]
    omega
  have hstart := mbToLba_eq start
  rw [hlba, ataSectorSize]
  by_cases hcb : c = b
  · subst hcb
    rw [update_self, if_pos (by omega), wholeSector, ataSectorSize, if_pos (by omega)]
    congr 1
    omega
  · rw [update_of_ne hcb, ← hold, if_neg (by omega), ataSectorSize]

theorem agree_puts {blocks : ℕ → Bytes} {ws : List (ℕ × Bytes)} {disk : Sectors}
    (hws : ∀ w ∈ ws, Below start w.1)
    (h : ∀ c, Below start c → Agree blkSize (blockAt start disk c) (blocks c)) :
    ∀ c, Below start c → Agree blkSize
      (blockAt start ((ws.map fun w => (⟨lbaOf start w.1, w.2⟩ : Write)).foldl put disk) c)
      (ws.foldl (fun blocks w => update blocks w.1 w.2) blocks c) := by
  induction ws generalizing disk blocks with
  | nil => exact h
  | cons w ws ih =>
    obtain ⟨hw, hws⟩ := List.forall_mem_cons.mp hws
    exact ih hws (agree_put hw w.2 h)

theorem layoutMkfs_eq {table : Bytes} (hfit : ¬ bgdescSize * gNBlockGroups len > blkSize)
    (blocks : ℕ → Bytes) : Layout.mkfs len table blocks =
      some ((blockWrites len table).foldl (fun blocks w => update blocks w.1 w.2) blocks) := by
  have hsuper : ∀ (ls : List ℕ) (blocks : ℕ → Bytes), (ls.flatMap fun i =>
      if i < 2 then [(1 + i * blocksPerGroup, makeSuper len i)] else []).foldl
        (fun blocks w => update blocks w.1 w.2) blocks = ls.foldl
        (writeSuperblock len) blocks := by
    intro ls blocks
    rw [List.foldl_flatMap]
    refine congrArg (fun f => ls.foldl f blocks) (funext fun blocks => funext fun i => ?_)
    rw [writeSuperblock]
    split_ifs <;> rfl
  have hgroup : ∀ (ls : List ℕ) (blocks : ℕ → Bytes), (ls.flatMap fun i =>
      [(beforeBitmaps i + 1, freshBlockBitmap i), (beforeBitmaps i + 2, freshInodeBitmap i)] ++
        (List.range inodeTableBlocks).map fun k => (beforeBitmaps i + 3 + k, fun _ => 0)).foldl
        (fun blocks w => update blocks w.1 w.2) blocks = ls.foldl initGroup blocks := by
    intro ls blocks
    rw [List.foldl_flatMap]
    refine congrArg (fun f => ls.foldl f blocks) (funext fun blocks => funext fun i => ?_)
    have hindex : ∀ k, 1 + (beforeBitmaps i + 2 + k) = beforeBitmaps i + 3 + k := fun k => by omega
    simp only [initGroup, Layout.initInodeTable, Layout.initBitmaps, hindex, List.foldl_append,
      List.foldl_cons, List.foldl_nil, List.foldl_map, Nat.add_comm 1, Nat.add_zero]
  rw [Layout.mkfs, if_neg hfit, blockWrites, List.foldl_append, List.foldl_append, hsuper, hgroup,
    show blocksPerGroup + 2 = 1 + (blocksPerGroup + 1) by omega]
  rfl

/-- **Block by block, `mkfs` is that of the ideal store**, if all sectors are below `2 ^ 24`. -/
theorem agree_mkfs (hlen : len ≤ 256) (hbelow : start % 2 ^ 21 + max 8 ((len - 1) / 8 * 8) < 2 ^ 13)
    (table : Bytes) (disk : Sectors) : ∃ disk' blocks',
    mkfs start len table disk = some disk' ∧ Layout.mkfs len table (blockAt start disk) = some blocks' ∧
      ∀ b, Below start b → Agree blkSize (blockAt start disk' b) (blocks' b) := by
  refine ⟨_, _, mkfs_of_le hlen start table disk, layoutMkfs_eq (bgdt_fits hlen) _, ?_⟩
  rw [mkfsWrites_eq]
  refine agree_puts (fun w hw => ?_) fun _ _ => Agree.refl _ _
  have hle := (written_iff.mpr (List.mem_map_of_mem hw)).le hlen
  unfold Below
  rw [mbToLba_eq]
  omega

end YegaKernel.Fs.Ext2.Sectors
