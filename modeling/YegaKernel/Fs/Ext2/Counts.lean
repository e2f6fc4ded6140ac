import YegaKernel.Fs.Ext2.Reserve

/-! # The free counts

Four places say how many blocks and inodes are free: the bitmaps, the descriptors in memory, their
copy on the disk and the superblock. They agree on a fresh file system (`matched_formatted`), and
they stop to agree with the first reservation: the counts in the descriptors never change
(`accounted_iff_no_calls`). -/

namespace YegaKernel.Fs.Ext2.Counts

open Lib.Bytes Lib.Word
open Fs.Disk (Bytes)
open Fs.Ext2.Layout Fs.Ext2.Balloc Fs.Ext2.Reserve

variable {s s' : Volume}

/-! ### Calls -/

inductive Kind
  | block
  | inode
  deriving DecidableEq

/-- A successful call, with the number that it returns. -/
def call (s : Volume) : Kind → Option (ℕ × Volume)
  | .block => do
    let (r, s') ← reserveFreeBlock s
    return (← r, s')
  | .inode => do
    let (r, s') ← reserveFreeInode s
    return (← r, s')

/-- Successful calls, one after the other. -/
def calls : Volume → List Kind → Option (List (Kind × ℕ) × Volume)
  | s, [] => some ([], s)
  | s, k :: ks => do
    let (n, s) ← call s k
    let (got, s) ← calls s ks
    return ((k, n) :: got, s)

/-- The group that a block or inode number belongs to. -/
def groupOf (s : Volume) : Kind × ℕ → ℕ
  | (.block, n) => n / sBlocksPerGroup s.super
  | (.inode, n) => (n - 1) / sInodesPerGroup s.super

/-- The free count of a group in its descriptor. -/
def freeCount (s : Volume) (g : ℕ) : Kind → ℕ
  | .block => bgFreeBlocksCount (s.group g)
  | .inode => bgFreeInodesCount (s.group g)

/-! ### What ought to hold -/

/-- The blocks of group `g` that exist and are unmarked. -/
def clearBlocks (s : Volume) (g : ℕ) : Finset ℕ :=
  (Finset.range (sBlocksPerGroup s.super)).filter fun i =>
    g * sBlocksPerGroup s.super + i < sBlocksCount s.super ∧ bit (s.blockBitmap g) i = false

/-- The inodes of group `g` that are unmarked. -/
def clearInodes (s : Volume) (g : ℕ) : Finset ℕ :=
  (Finset.range (sInodesPerGroup s.super)).filter fun i => bit (s.inodeBitmap g) i = false

/-- **The counts match the bitmaps**: those in the descriptors, their sums in the superblock, and
the copy of the descriptors on the disk. A group whose count is 0 is then full. -/
structure Matched (s : Volume) : Prop where
  blocks : ∀ g < s.nBlockGroups, freeCount s g .block = (clearBlocks s g).card
  inodes : ∀ g < s.nBlockGroups, freeCount s g .inode = (clearInodes s g).card
  superBlocks : sFreeBlocksCount s.super = ∑ g ∈ Finset.range s.nBlockGroups, freeCount s g .block
  superInodes : sFreeInodesCount s.super = ∑ g ∈ Finset.range s.nBlockGroups, freeCount s g .inode
  disk : Agree (bgdescSize * s.nBlockGroups) (s.disk bgdtBlkNo) s.bgdt

/-- The counts of each group have gone down by what was reserved in it, and they match the
bitmaps. -/
structure Accounted (s s' : Volume) (got : List (Kind × ℕ)) : Prop where
  counts : ∀ g k, freeCount s' g k + got.countP (fun r => r.1 = k ∧ groupOf s r = g) = freeCount s g k
  matched : Matched s'

/-! ### What a call leaves alone -/

/-- The descriptors, their number and the sizes of a group are the same. -/
structure SameTables (s s' : Volume) : Prop where
  bgdt : s'.bgdt = s.bgdt
  groups : s'.nBlockGroups = s.nBlockGroups
  bpg : sBlocksPerGroup s'.super = sBlocksPerGroup s.super
  ipg : sInodesPerGroup s'.super = sInodesPerGroup s.super

theorem SameTables.refl (s : Volume) : SameTables s s := ⟨rfl, rfl, rfl, rfl⟩

theorem SameTables.trans {s'' : Volume} (h : SameTables s s') (h' : SameTables s' s'') :
    SameTables s s'' :=
  ⟨h'.bgdt.trans h.bgdt, h'.groups.trans h.groups, h'.bpg.trans h.bpg, h'.ipg.trans h.ipg⟩

theorem SameTables.freeCount_eq (h : SameTables s s') (g : ℕ) (k : Kind) :
    freeCount s' g k = freeCount s g k := by
  cases k <;> simp only [freeCount, Volume.group, h.bgdt]

theorem sameTables_setCount (s : Volume) (disk : ℕ → Bytes) {off : ℕ} (hoff : off = 12 ∨ off = 16)
    (v : ℕ) : SameTables s { s with disk := disk, super := store s.super off 4 v } :=
  ⟨rfl, rfl, load_store_apart (by omega), load_store_apart (by omega)⟩

variable {val : Bool} {n : ℕ}

theorem markBit_disk {blk i : ℕ} (h : markBit s blk i val = some s') :
    ∃ disk, s' = { s with disk := disk } := by
  unfold markBit at h
  split at h
  · exact ⟨_, (Option.some.inj h).symm⟩
  · exact absurd h (by simp)

theorem markBlock_disk (h : markBlock s n val = some s') :
    ∃ disk, s' = { s with disk := disk } := by
  unfold markBlock at h
  split at h
  · exact absurd h (by simp)
  · obtain ⟨d, -, h⟩ := Option.bind_eq_some_iff.mp h
    exact markBit_disk h

theorem markInode_disk (h : markInode s n val = some s') :
    ∃ disk, s' = { s with disk := disk } := by
  unfold markInode at h
  split at h
  · exact absurd h (by simp)
  · obtain ⟨d, -, h⟩ := Option.bind_eq_some_iff.mp h
    exact markBit_disk h

theorem diskSyncBgdt_disk (h : diskSyncBgdt s = some s') : ∃ disk, s' = { s with disk := disk } := by
  unfold diskSyncBgdt at h
  split at h
  · exact absurd h (by simp)
  · exact ⟨_, (Option.some.inj h).symm⟩

/-- **The counts that are changed are those of a copy.** -/
theorem updateBlockBgDesc_same (h : updateBlockBgDesc s n = some s') : s' = s := by
  unfold updateBlockBgDesc at h
  split at h
  · exact absurd h (by simp)
  · obtain ⟨d, -, h⟩ := Option.bind_eq_some_iff.mp h
    exact (Option.some.inj h).symm

theorem updateInodeBgDesc_same (h : updateInodeBgDesc s n = some s') : s' = s := by
  unfold updateInodeBgDesc at h
  split at h
  · exact absurd h (by simp)
  · obtain ⟨d, -, h⟩ := Option.bind_eq_some_iff.mp h
    exact (Option.some.inj h).symm

theorem reserveFreeBlock_memory (h : reserveFreeBlock s = some (some n, s')) : ∃ disk,
    s' = { s with disk := disk, super := store s.super 12 4 (sub32 (sFreeBlocksCount s.super) 1) } := by
  obtain ⟨r, -, h⟩ := Option.bind_eq_some_iff.mp h
  cases r with
  | none => exact absurd h (by simp)
  | some m =>
    obtain ⟨s₁, hmark, h⟩ := Option.bind_eq_some_iff.mp h
    obtain ⟨s₂, hupd, h⟩ := Option.bind_eq_some_iff.mp h
    obtain ⟨s₃, hsync, h⟩ := Option.bind_eq_some_iff.mp h
    obtain ⟨-, rfl⟩ := Prod.mk.inj (Option.some.inj h)
    obtain rfl := updateBlockBgDesc_same hupd
    obtain ⟨_, rfl⟩ := markBlock_disk hmark
    obtain ⟨_, rfl⟩ := diskSyncBgdt_disk hsync
    exact ⟨_, rfl⟩

theorem reserveInode_memory (h : reserveInode s n = some s') : ∃ disk,
    s' = { s with disk := disk, super := store s.super 16 4 (sub32 (sFreeInodesCount s.super) 1) } := by
  obtain ⟨s₁, hmark, h⟩ := Option.bind_eq_some_iff.mp h
  obtain ⟨s₂, hupd, h⟩ := Option.bind_eq_some_iff.mp h
  obtain ⟨s₃, hsync, h⟩ := Option.bind_eq_some_iff.mp h
  obtain rfl := Option.some.inj h
  obtain rfl := updateInodeBgDesc_same hupd
  obtain ⟨_, rfl⟩ := markInode_disk hmark
  obtain ⟨_, rfl⟩ := diskSyncBgdt_disk hsync
  exact ⟨_, rfl⟩

theorem sameTables_call {k : Kind} (h : call s k = some (n, s')) : SameTables s s' := by
  cases k with
  | block =>
    obtain ⟨⟨r, s₁⟩, hres, h⟩ := Option.bind_eq_some_iff.mp h
    obtain ⟨m, rfl, h⟩ := Option.bind_eq_some_iff.mp h
    obtain ⟨-, rfl⟩ := Prod.mk.inj (Option.some.inj h)
    obtain ⟨disk, rfl⟩ := reserveFreeBlock_memory hres
    exact sameTables_setCount s disk (.inl rfl) _
  | inode =>
    obtain ⟨⟨r, s₁⟩, hres, h⟩ := Option.bind_eq_some_iff.mp h
    obtain ⟨m, rfl, h⟩ := Option.bind_eq_some_iff.mp h
    obtain ⟨-, rfl⟩ := Prod.mk.inj (Option.some.inj h)
    obtain ⟨r, -, hres⟩ := Option.bind_eq_some_iff.mp hres
    cases r with
    | none => exact absurd hres (by simp)
    | some i =>
      obtain ⟨s₂, hinode, hres⟩ := Option.bind_eq_some_iff.mp hres
      obtain ⟨-, rfl⟩ := Prod.mk.inj (Option.some.inj hres)
      obtain ⟨disk, rfl⟩ := reserveInode_memory hinode
      exact sameTables_setCount s disk (.inr rfl) _

theorem sameTables_calls : ∀ {ks : List Kind} {s s' : Volume} {got : List (Kind × ℕ)},
    calls s ks = some (got, s') → SameTables s s'
  | [], s, s', got, h => by
    obtain ⟨-, rfl⟩ := Prod.mk.inj (Option.some.inj h)
    exact .refl s
  | k :: ks, s, s', got, h => by
    obtain ⟨⟨n, s₁⟩, hcall, h⟩ := Option.bind_eq_some_iff.mp h
    obtain ⟨⟨got', s₂⟩, hcalls, h⟩ := Option.bind_eq_some_iff.mp h
    obtain ⟨-, rfl⟩ := Prod.mk.inj (Option.some.inj h)
    exact (sameTables_call hcall).trans (sameTables_calls hcalls)

/-! ### A fresh file system -/

section Fresh
variable {len : ℕ} {table : Bytes} {disk disk' : ℕ → Bytes}

/-- The number of blocks in group `g`. -/
def groupBlocks (len g : ℕ) : ℕ := min blocksPerGroup (len * 1024 - g * blocksPerGroup)

theorem freeBlocksInGroup_eq (hlen : len ≤ 256) {g : ℕ} (hg : g < (len + 7) / 8) :
    freeBlocksInGroup len g (g < 2) = groupBlocks len g - if g < 2 then 132 else 130 := by
  have hres : reservedBlocksPerGroup = 130 := by decide
  have htotal : (if g = gNBlockGroups len - 1 then gBlocksInLastGroup len else blocksPerGroup) =
      groupBlocks len g := by
    unfold gBlocksInLastGroup groupBlocks
    rw [gNBlockGroups_eq hlen, gTotalBlocks_eq hlen, blocksPerGroup]
    split_ifs <;> omega
  have hbig : 1024 ≤ groupBlocks len g ∧ groupBlocks len g ≤ 8192 := by
    unfold groupBlocks
    rw [blocksPerGroup]
    omega
  unfold freeBlocksInGroup
  simp only [htotal, hres, decide_eq_true_eq]
  rw [sub32_of_le (by omega) (by split_ifs <;> omega)]

theorem freeCount_block (h : Mounted len s) (hlen : len ≤ 256) {g : ℕ} (hg : g < (len + 7) / 8) :
    freeCount s g .block = freeBlocksInGroup len g (g < 2) := by
  rw [freeCount, bgFreeBlocksCount, h.load_group hlen hg (12, 2, freeBlocksInGroup len g (g < 2))
    (by simp [descFields])]
  exact Nat.mod_eq_of_lt (freeBlocksInGroup_pos hlen g (g < 2)).2

theorem freeCount_inode (h : Mounted len s) (hlen : len ≤ 256) {g : ℕ} (hg : g < (len + 7) / 8) :
    freeCount s g .inode = if g = 0 then 1022 else 1024 := by
  rw [freeCount, bgFreeInodesCount, h.load_group hlen hg
    (14, 2, if g = 0 then inodesPerGroup - 2 else inodesPerGroup) (by simp [descFields])]
  split_ifs <;> rfl

/-- The sum that `make_super` computes does not wrap. -/
theorem totalFree_eq (hlen : len ≤ 256) :
    totalFree len = ∑ g ∈ Finset.range (gNBlockGroups len), freeBlocksInGroup len g (g < 2) ∧
      totalFree len < 2 ^ 32 := by
  have hsum : ∀ n ≤ 32, (List.range n).foldl
      (fun t i => u32 (t + freeBlocksInGroup len i (i < 2))) 0 =
        ∑ g ∈ Finset.range n, freeBlocksInGroup len g (g < 2) ∧
      ∑ g ∈ Finset.range n, freeBlocksInGroup len g (g < 2) ≤ n * 2 ^ 16 := by
    intro n
    induction n with
    | zero => simp
    | succ n ih =>
      intro hn
      obtain ⟨heq, hle⟩ := ih (by omega)
      have hpos := freeBlocksInGroup_pos hlen n (n < 2)
      rw [List.range_succ, List.foldl_append, List.foldl_cons, List.foldl_nil, heq,
        Finset.sum_range_succ, u32_of_lt (by omega)]
      exact ⟨rfl, by omega⟩
  have hn : gNBlockGroups len ≤ 32 := by
    rw [gNBlockGroups_eq hlen]
    omega
  obtain ⟨heq, hle⟩ := hsum _ hn
  exact ⟨heq, by rw [totalFree, heq]; omega⟩

theorem sum_inodes (n : ℕ) (hn : 1 ≤ n) :
    ∑ g ∈ Finset.range n, (if g = 0 then 1022 else 1024) = 1024 * n - 2 := by
  induction n, hn using Nat.le_induction with
  | base => rfl
  | succ n hn ih =>
    rw [Finset.sum_range_succ, ih, if_neg (by omega)]
    omega

/-- **On a fresh file system the counts match the bitmaps.** -/
theorem matched_formatted (h1 : 1 ≤ len) (hlen : len ≤ 256) (hmkfs : mkfs len table disk = some disk') :
    Matched (formatted len disk') := by
  have hm := mounted_formatted hlen disk'
  have hgroups := hm.groups
  have hn := gNBlockGroups_eq hlen
  refine ⟨fun g hg => ?_, fun g hg => ?_, ?_, ?_, ?_⟩
  · rw [hgroups] at hg
    have hmap : (formatted len disk').blockBitmap g = freshBlockBitmap g :=
      (hm.blockBitmap_eq hlen hg).trans (bitmaps_mkfs hmkfs (by rwa [hn])).1
    have hclear : clearBlocks (formatted len disk') g =
        Finset.Ico (if g < 2 then 132 else 130) (groupBlocks len g) := by
      ext i
      rw [clearBlocks, hm.bpg, hm.blocks, hmap, Finset.mem_filter, Finset.mem_range, Finset.mem_Ico,
        bit_freshBlockBitmap, decide_eq_false_iff_not]
      simp only [groupBlocks, blocksPerGroup]
      split_ifs <;> omega
    rw [freeCount_block hm hlen hg, freeBlocksInGroup_eq hlen hg, hclear, Nat.card_Ico]
  · rw [hgroups] at hg
    have hmap : (formatted len disk').inodeBitmap g = freshInodeBitmap g :=
      (hm.inodeBitmap_eq hlen hg).trans (bitmaps_mkfs hmkfs (by rwa [hn])).2
    have hclear : clearInodes (formatted len disk') g = Finset.Ico (if g = 0 then 2 else 0) 1024 := by
      ext i
      rw [clearInodes, hm.ipg, hmap, Finset.mem_filter, Finset.mem_range, Finset.mem_Ico,
        bit_freshInodeBitmap, decide_eq_false_iff_not, show inodesPerGroup = 1024 from rfl]
      split_ifs <;> omega
    rw [freeCount_inode hm hlen hg, hclear, Nat.card_Ico]
    split_ifs <;> rfl
  · obtain ⟨hsum, hlt⟩ := totalFree_eq hlen
    refine (load_makeSuper len 0 (12, 4, totalFree len) (by simp [superFields])).trans ?_
    rw [Nat.mod_eq_of_lt (show totalFree len < 256 ^ 4 from hlt), hsum]
    refine Finset.sum_congr rfl fun g hg => (freeCount_block hm hlen ?_).symm
    rwa [Finset.mem_range, hgroups] at hg
  · refine (load_makeSuper len 0 (16, 4, sub32 (inodesPerGroup * gNBlockGroups len) 2)
      (by simp [superFields])).trans ?_
    have hsum : ∑ g ∈ Finset.range (formatted len disk').nBlockGroups,
        freeCount (formatted len disk') g .inode = 1024 * ((len + 7) / 8) - 2 := by
      rw [hgroups, ← sum_inodes _ (by omega)]
      exact Finset.sum_congr rfl fun g hg => freeCount_inode hm hlen (Finset.mem_range.mp hg)
    rw [hsum, hn, show inodesPerGroup = 1024 from rfl, sub32_of_le (by omega) (by omega)]
    exact Nat.mod_eq_of_lt (by norm_num; omega)
  · have hblock : (formatted len disk').disk bgdtBlkNo =
        bgdtBlock (gNBlockGroups len) (makeBgdt len table) := bgdt_mkfs hmkfs
    rw [hblock]
    exact fun b hb => (agree_copy_zero _ _ _ b hb).trans (agree_makeBgdt len table _ b hb)

end Fresh

/-! ### The counts over a run -/

theorem not_accounted {got : List (Kind × ℕ)} (h : SameTables s s') (hgot : got ≠ []) :
    ¬ Accounted s s' got := by
  intro hacc
  obtain ⟨⟨k, n⟩, hmem⟩ := List.exists_mem_of_ne_nil got hgot
  have hcount := hacc.counts (groupOf s (k, n)) k
  rw [h.freeCount_eq] at hcount
  have hpos : 0 < got.countP fun r => r.1 = k ∧ groupOf s r = groupOf s (k, n) :=
    List.countP_pos_iff.mpr ⟨(k, n), hmem, decide_eq_true ⟨rfl, rfl⟩⟩
  omega

/-- **The counts are right after a run of reservations exactly if there was none.** -/
theorem accounted_iff_no_calls (h : Matched s) {ks : List Kind} {got : List (Kind × ℕ)}
    (hcalls : calls s ks = some (got, s')) : Accounted s s' got ↔ ks = [] := by
  constructor
  · intro hacc
    by_contra hks
    refine not_accounted (sameTables_calls hcalls) ?_ hacc
    obtain ⟨k, ks, rfl⟩ := List.exists_cons_of_ne_nil hks
    obtain ⟨⟨n, s₁⟩, -, hcalls⟩ := Option.bind_eq_some_iff.mp hcalls
    obtain ⟨⟨got', s₂⟩, -, hcalls⟩ := Option.bind_eq_some_iff.mp hcalls
    obtain ⟨rfl, -⟩ := Prod.mk.inj (Option.some.inj hcalls)
    exact List.cons_ne_nil _ _
  · rintro rfl
    obtain ⟨rfl, rfl⟩ := Prod.mk.inj (Option.some.inj hcalls)
    exact ⟨fun g k => rfl, h⟩

/-- A fresh file system of 16 MiB, before any call. -/
theorem accounted_fresh : ∃ disk', mkfs 16 (fun _ => 0) (fun _ _ => 0) = some disk' ∧
    Accounted (formatted 16 disk') (formatted 16 disk') [] := by
  obtain ⟨disk', hmkfs⟩ := mkfs_of_le (show 16 ≤ 256 by decide) (fun _ => 0) (fun _ _ => 0)
  have hcalls : calls (formatted 16 disk') [] = some ([], formatted 16 disk') := rfl
  exact ⟨disk', hmkfs,
    (accounted_iff_no_calls (matched_formatted (by decide) (by decide) hmkfs) hcalls).mpr rfl⟩

/-- One block of a file system of 1 MiB is reserved: the superblock then counts 891 free blocks, the
descriptor of the only group still 892. -/
theorem not_accounted_one_block : ∃ disk' s', mkfs 1 (fun _ => 0) (fun _ _ => 0) = some disk' ∧
    Matched (formatted 1 disk') ∧ calls (formatted 1 disk') [.block] = some ([(.block, 132)], s') ∧
    sFreeBlocksCount s'.super = 891 ∧ freeCount s' 0 .block = 892 ∧
    ¬ Accounted (formatted 1 disk') s' [(.block, 132)] := by
  obtain ⟨disk', hmkfs⟩ := mkfs_of_le (show 1 ≤ 256 by decide) (fun _ => 0) (fun _ _ => 0)
  have hm := mounted_formatted (show 1 ≤ 256 by decide) disk'
  have hmatched := matched_formatted (by decide) (by decide) hmkfs
  have hmap : (formatted 1 disk').disk 3 = freshBlockBitmap 0 :=
    (bitmaps_mkfs (g := 0) hmkfs (by decide)).1
  have hfirst : firstFreeBm (freshBlockBitmap 0) 0 = 132 := by decide +kernel
  obtain ⟨s', hres, -, -⟩ := reserveFreeBlock_eq hm (by decide) (by decide)
  rw [hmap, hfirst] at hres
  have hcalls : calls (formatted 1 disk') [.block] = some ([(.block, 132)], s') := by
    rw [calls, call, hres]
    rfl
  have hsame := sameTables_calls hcalls
  have hcount : freeCount (formatted 1 disk') 0 .block = 892 :=
    (freeCount_block hm (by decide) (by decide)).trans (by decide)
  have hsuper : sFreeBlocksCount (formatted 1 disk').super = 892 := by
    rw [hmatched.superBlocks, show (formatted 1 disk').nBlockGroups = 1 from rfl, Finset.sum_range_one,
      hcount]
  obtain ⟨disk, rfl⟩ := reserveFreeBlock_memory hres
  refine ⟨disk', _, hmkfs, hmatched, hcalls, ?_, ?_, not_accounted hsame (List.cons_ne_nil _ _)⟩
  · rw [hsuper]
    exact load_store_of_lt (by decide)
  · rw [hsame.freeCount_eq, hcount]

end YegaKernel.Fs.Ext2.Counts
