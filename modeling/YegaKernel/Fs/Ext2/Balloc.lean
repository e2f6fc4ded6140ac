import YegaKernel.Fs.Ext2.Layout

/-! # Reserving blocks and inodes

`ext2_balloc.c`. A descriptor behind the array `bgdt`, a division by zero, a bit behind the bitmap
on the stack and a table that overflows its buffer are faults (`none`).

`update_block_bg_desc` and `update_inode_bg_desc` count down in a copy of the descriptor, which they
drop. -/

namespace YegaKernel.Fs.Ext2.Balloc

open Lib.Bytes Lib.Word Function
open Fs.Disk (Bytes)
open Fs.Ext2.Layout

/-- `EXT2_FREE_INO_START`. -/
def freeInoStart : ℕ := 11

/-! ### Looking for a free bit -/

/-- The loop over the bits of a byte. -/
def matchBit (bmj : UInt8) : Option ℕ :=
  (List.range 8).find? fun k => (bmj >>> UInt8.ofNat k) &&& 1 = 0

/-- The loop over the bytes, with `n` of them left, at byte `j`. A byte whose first clear bit is not
allowed is skipped as a whole. -/
def firstFreeFrom (bitmap : Bytes) (allowedStart : ℕ) : ℕ → ℕ → ℕ
  | 0, _ => 0
  | n + 1, j =>
    if bitmap j = 255 then firstFreeFrom bitmap allowedStart n (j + 1)
    else
      let firstFreeEntry := (j * 8 + (matchBit (bitmap j)).getD 0) % 2 ^ 16
      if firstFreeEntry < allowedStart then firstFreeFrom bitmap allowedStart n (j + 1)
      else firstFreeEntry

def firstFreeBm (bitmap : Bytes) (allowedStart : ℕ) : ℕ :=
  firstFreeFrom bitmap allowedStart (blkSize - allowedStart / 8) (allowedStart / 8)

def firstFreeBlock (s : Volume) (d : Bytes) : ℕ := firstFreeBm (s.disk (bgBlockBitmap d)) 0

def firstFreeInode (s : Volume) (d : Bytes) : ℕ := firstFreeBm (s.disk (bgInodeBitmap d)) freeInoStart

/-- The loop over the groups, with `n` of them left, at group `i`: in the first one that has free
entries by its `count`, the entry that `first` finds. -/
def firstFreeNumFrom (count first : Bytes → ℕ) (s : Volume) : ℕ → ℕ → Option (Option ℕ)
  | 0, _ => some none
  | n + 1, i => do
    let d ← s.desc i
    if count d = 0 then firstFreeNumFrom count first s n (i + 1) else return some (first d)

/-- `first_free_block_num`; the inner `none` is the result -1. -/
def firstFreeBlockNum (s : Volume) : Option (Option ℕ) :=
  firstFreeNumFrom bgFreeBlocksCount (firstFreeBlock s) s s.nBlockGroups 0

def firstFreeInodeNum (s : Volume) : Option (Option ℕ) :=
  firstFreeNumFrom bgFreeInodesCount (firstFreeInode s) s s.nBlockGroups 0

/-! ### Marking -/

/-- The read, change and write of a bitmap in `mark_block` and `mark_inode`. -/
def markBit (s : Volume) (blk bit : ℕ) (val : Bool) : Option Volume :=
  if bit < 8 * blkSize then
    let bitmap := s.disk blk
    let bitmap := if val then setBit bitmap bit else unsetBit bitmap bit
    some { s with disk := update s.disk blk bitmap }
  else none

/-- The group of the block is by the blocks in a group, its bit by the inodes in a group. -/
def markBlock (s : Volume) (blockNum : ℕ) (val : Bool) : Option Volume :=
  if sBlocksPerGroup s.super = 0 ∨ sInodesPerGroup s.super = 0 then none
  else do
    let d ← s.desc (blockNum / sBlocksPerGroup s.super % 2 ^ 16)
    markBit s (bgBlockBitmap d) (blockNum % sInodesPerGroup s.super % 2 ^ 16) val

def setBlockBitmap (s : Volume) (blockNum : ℕ) : Option Volume := markBlock s blockNum true

def unsetBlockBitmap (s : Volume) (blockNum : ℕ) : Option Volume := markBlock s blockNum false

def markInode (s : Volume) (inodeNum : ℕ) (val : Bool) : Option Volume :=
  if sInodesPerGroup s.super = 0 then none
  else do
    let d ← s.desc (sub32 inodeNum 1 / sInodesPerGroup s.super % 2 ^ 16)
    markBit s (bgInodeBitmap d) (sub32 inodeNum 1 % sInodesPerGroup s.super % 2 ^ 16) val

def setInodeBitmap (s : Volume) (inodeNum : ℕ) : Option Volume := markInode s inodeNum true

def unsetInodeBitmap (s : Volume) (inodeNum : ℕ) : Option Volume := markInode s inodeNum false

/-! ### Descriptors and superblock -/

/-- The counts are changed in a copy of the descriptor. -/
def updateInodeBgDesc (s : Volume) (freeInodeN : ℕ) : Option Volume :=
  if sBlocksPerGroup s.super = 0 then none
  else do
    let d ← s.desc (sub32 freeInodeN 1 / sBlocksPerGroup s.super % 2 ^ 16)
    let d := store d 14 2 (bgFreeInodesCount d + 2 ^ 16 - 1)
    let _inodeBgDesc := store d 16 2 (bgUsedDirsCount d + 1)
    return s

/-- The count is changed in a copy of the descriptor. -/
def updateBlockBgDesc (s : Volume) (freeBlockN : ℕ) : Option Volume :=
  if sBlocksPerGroup s.super = 0 then none
  else do
    let d ← s.desc (freeBlockN / sBlocksPerGroup s.super % 2 ^ 16)
    let _blockBgDesc := store d 12 2 (bgFreeBlocksCount d + 2 ^ 16 - 1)
    return s

/-- A block and its copy in the second group. -/
def writeTwice (s : Volume) (blk : ℕ) (buf : Bytes) : Volume :=
  let disk := update s.disk blk buf
  { s with disk := update disk (u32 (blk + sBlocksPerGroup s.super)) buf }

def diskSyncBgdt (s : Volume) : Option Volume :=
  if s.nBlockGroups * bgdescSize > blkSize then none
  else some (writeTwice s bgdtBlkNo (bgdtBlock s.nBlockGroups s.bgdt))

def diskSyncSuper (s : Volume) : Volume := writeTwice s 1 s.super

/-! ### Reserving -/

/-- `reserve_free_block`; the result is the block, or nothing for -1. -/
def reserveFreeBlock (s : Volume) : Option (Option ℕ × Volume) := do
  match ← firstFreeBlockNum s with
  | none => return (none, s)
  | some blockN =>
    let s ← setBlockBitmap s blockN
    let s ← updateBlockBgDesc s blockN
    let s ← diskSyncBgdt s
    let s := { s with super := store s.super 12 4 (sub32 (sFreeBlocksCount s.super) 1) }
    return (some blockN, diskSyncSuper s)

def reserveInode (s : Volume) (inodeN : ℕ) : Option Volume := do
  let s ← setInodeBitmap s inodeN
  let s ← updateInodeBgDesc s inodeN
  let s ← diskSyncBgdt s
  let s := { s with super := store s.super 16 4 (sub32 (sFreeInodesCount s.super) 1) }
  return diskSyncSuper s

/-- `reserve_free_inode`; the result is the inode, or nothing for -1. -/
def reserveFreeInode (s : Volume) : Option (Option ℕ × Volume) := do
  match ← firstFreeInodeNum s with
  | none => return (none, s)
  | some inodeN => return (some inodeN, ← reserveInode s inodeN)

/-! ### The first free bit -/

theorem matchBit_spec {b : UInt8} (hb : b ≠ 255) : ∃ k < 8, matchBit b = some k ∧
    b.toNat.testBit k = false ∧ ∀ l < k, b.toNat.testBit l = true := by
  have hex : ∃ k, matchBit b = some k := by
    rw [← Option.isSome_iff_exists, matchBit, List.find?_isSome]
    by_contra hno
    refine hb ((eq_255_iff b).mpr fun k hk => ?_)
    by_contra hbit
    refine hno ⟨k, List.mem_range.mpr hk, decide_eq_true ?_⟩
    exact (shift_and_one_iff b hk).mpr (by simpa using hbit)
  obtain ⟨k, hk⟩ := hex
  obtain ⟨hclear, hk8, hbefore⟩ := List.find?_range_eq_some.mp hk
  rw [List.mem_range] at hk8
  refine ⟨k, hk8, hk, (shift_and_one_iff b hk8).mp (of_decide_eq_true hclear), fun l hl => ?_⟩
  have hset := hbefore l hl
  by_contra hbit
  rw [decide_eq_true ((shift_and_one_iff b (by omega)).mpr (by simpa using hbit))] at hset
  exact absurd hset (by simp)

/-- The first clear bit from `lo` on and below `hi`. -/
structure FirstClear (bitmap : Bytes) (lo hi i : ℕ) : Prop where
  le : lo ≤ i
  lt : i < hi
  clear : bit bitmap i = false
  before : ∀ l, lo ≤ l → l < i → bit bitmap l = true

/-- All bits from `lo` on and below `hi` are set. -/
def AllSet (bitmap : Bytes) (lo hi : ℕ) : Prop := ∀ l, lo ≤ l → l < hi → bit bitmap l = true

variable {bitmap : Bytes} {lo hi i j : ℕ}

theorem FirstClear.extend {mid : ℕ} (h : FirstClear bitmap mid hi i)
    (hset : AllSet bitmap lo mid) (hlo : lo ≤ mid) : FirstClear bitmap lo hi i :=
  ⟨hlo.trans h.le, h.lt, h.clear, fun l h1 h2 =>
    (lt_or_ge l mid).elim (hset l h1) fun hl => h.before l hl h2⟩

theorem FirstClear.mono {hi' : ℕ} (h : FirstClear bitmap lo hi i)
    (hhi : hi ≤ hi') : FirstClear bitmap lo hi' i := ⟨h.le, h.lt.trans_le hhi, h.clear, h.before⟩

theorem bit_byte (bitmap : Bytes) (j : ℕ) {l : ℕ} (h1 : 8 * j ≤ l) (h2 : l < 8 * j + 8) :
    bit bitmap l = (bitmap j).toNat.testBit (l - 8 * j) := by
  rw [bit, show l / 8 = j by omega, show l % 8 = l - 8 * j by omega]

theorem allSet_byte (h : bitmap j = 255) : AllSet bitmap (8 * j) (8 * j + 8) := by
  intro l h1 h2
  rw [bit_byte bitmap j h1 h2]
  exact (eq_255_iff _).mp h _ (by omega)

theorem firstClear_byte (hj : j < blkSize) (h : bitmap j ≠ 255) :
    FirstClear bitmap (8 * j) (8 * j + 8) ((j * 8 + (matchBit (bitmap j)).getD 0) % 2 ^ 16) := by
  obtain ⟨k, hk, hmatch, hclear, hbefore⟩ := matchBit_spec h
  rw [blkSize] at hj
  rw [hmatch, Option.getD_some, Nat.mod_eq_of_lt (by omega)]
  refine ⟨by omega, by omega, ?_, fun l h1 h2 => ?_⟩
  · rw [bit_byte bitmap j (by omega) (by omega), show j * 8 + k - 8 * j = k by omega, hclear]
  · rw [bit_byte bitmap j h1 (by omega)]
    exact hbefore _ (by omega)

/-- **The search from a byte on in which every entry is allowed** finds the first clear bit. -/
theorem firstFreeFrom_spec (bitmap : Bytes) {a : ℕ} : ∀ {n j : ℕ}, a ≤ 8 * j → j + n ≤ blkSize →
    FirstClear bitmap (8 * j) (8 * (j + n)) (firstFreeFrom bitmap a n j) ∨
      AllSet bitmap (8 * j) (8 * (j + n)) ∧ firstFreeFrom bitmap a n j = 0
  | 0, j, _, _ => .inr ⟨fun l h1 h2 => absurd h1 (by omega), rfl⟩
  | n + 1, j, ha, hn => by
    by_cases h : bitmap j = 255
    · have hset := allSet_byte h
      rw [firstFreeFrom, if_pos h]
      rcases firstFreeFrom_spec bitmap (n := n) (show a ≤ 8 * (j + 1) by omega) (by omega)
        with hc | ⟨hall, h0⟩
      · rw [show j + (n + 1) = j + 1 + n by omega]
        exact .inl (hc.extend hset (by omega))
      · refine .inr ⟨fun l h1 h2 => ?_, h0⟩
        exact (lt_or_ge l (8 * j + 8)).elim (hset l h1) fun hl => hall l (by omega) (by omega)
    · have hc := firstClear_byte (show j < blkSize by omega) h
      rw [firstFreeFrom, if_neg h]
      rw [if_neg (by have := hc.le; omega)]
      exact .inl (hc.mono (by omega))

theorem firstFreeBm_zero (bitmap : Bytes) : FirstClear bitmap 0 8192 (firstFreeBm bitmap 0) ∨
      AllSet bitmap 0 8192 ∧ firstFreeBm bitmap 0 = 0 :=
  firstFreeFrom_spec bitmap (n := 1024) (j := 0) (le_refl 0) (le_refl 1024)

theorem firstFreeBm_byte (bitmap : Bytes) {a : ℕ} (ha : a < 8192) :
    (FirstClear bitmap (8 * (a / 8)) (8 * (a / 8) + 8) (firstFreeBm bitmap a) ∧
        a ≤ firstFreeBm bitmap a) ∨ (AllSet bitmap (8 * (a / 8)) (8 * (a / 8) + 8) ∨
        ∃ i < a, FirstClear bitmap (8 * (a / 8)) (8 * (a / 8) + 8) i) ∧
        firstFreeBm bitmap a = firstFreeFrom bitmap a (1023 - a / 8) (a / 8 + 1) := by
  have hsub : blkSize - a / 8 = 1023 - a / 8 + 1 := by
    rw [blkSize]
    omega
  rw [firstFreeBm, hsub, firstFreeFrom]
  by_cases h : bitmap (a / 8) = 255
  · rw [if_pos h]
    exact .inr ⟨.inl (allSet_byte h), rfl⟩
  · have hc := firstClear_byte (show a / 8 < blkSize by omega) h
    simp only
    split_ifs with hlt
    · exact .inr ⟨.inr ⟨_, hlt, hc⟩, rfl⟩
    · exact .inl ⟨hc, Nat.le_of_not_lt hlt⟩

theorem firstFreeBm_inode (bitmap : Bytes) :
    (FirstClear bitmap 8 16 (firstFreeBm bitmap freeInoStart) ∧
        freeInoStart ≤ firstFreeBm bitmap freeInoStart) ∨
      (AllSet bitmap 8 16 ∨ ∃ i < freeInoStart, FirstClear bitmap 8 16 i) ∧
        firstFreeBm bitmap freeInoStart = firstFreeFrom bitmap freeInoStart 1022 2 :=
  firstFreeBm_byte bitmap (show freeInoStart < 8192 by decide)

/-! ### The least allowed entry -/

theorem FirstClear.unique (h : FirstClear bitmap lo hi i)
    (h' : FirstClear bitmap lo hi j) : i = j := by
  rcases lt_trichotomy i j with hlt | heq | hlt
  · exact absurd (h.clear.symm.trans (h'.before i h.le hlt)) (by simp)
  · exact heq
  · exact absurd (h'.clear.symm.trans (h.before j h'.le hlt)) (by simp)

theorem FirstClear.raise {lo' : ℕ} (h : FirstClear bitmap lo hi i)
    (hlo : lo ≤ lo') (hle : lo' ≤ i) : FirstClear bitmap lo' hi i :=
  ⟨hle, h.lt, h.clear, fun l h1 h2 => h.before l (hlo.trans h1) h2⟩

theorem exists_firstClear (h : ¬ AllSet bitmap lo hi) : ∃ i, FirstClear bitmap lo hi i := by
  have hex : ∃ l, lo ≤ l ∧ l < hi ∧ bit bitmap l = false := by
    unfold AllSet at h
    push Not at h
    obtain ⟨l, h1, h2, h3⟩ := h
    exact ⟨l, h1, h2, Bool.eq_false_iff.mpr h3⟩
  obtain ⟨hle, hlt, hclear⟩ := Nat.find_spec hex
  refine ⟨Nat.find hex, hle, hlt, hclear, fun l h1 h2 => ?_⟩
  have hmin := Nat.find_min hex h2
  push Not at hmin
  exact Bool.of_not_eq_false (hmin h1 (h2.trans hlt))

/-- **What `first_free_bm` should return**: the least clear bit that is allowed, if there is one; and 0
only if this is bit 0, or if there is none. -/
structure LeastFree (bitmap : Bytes) (allowedStart r : ℕ) : Prop where
  least : ∀ i, FirstClear bitmap allowedStart 8192 i → r = i
  zero : r = 0 → FirstClear bitmap allowedStart 8192 0 ∨ AllSet bitmap allowedStart 8192

theorem FirstClear.leastFree {a r : ℕ} (h : FirstClear bitmap a 8192 r) : LeastFree bitmap a r where
  least _ hi := h.unique hi
  zero h0 := .inl (h0 ▸ h)

theorem leastFree_behind {a : ℕ} (ha : a < 8192) (hset : AllSet bitmap a (8 * (a / 8) + 8)) :
    LeastFree bitmap a (firstFreeFrom bitmap a (1023 - a / 8) (a / 8 + 1)) := by
  have hend : 8 * (a / 8 + 1 + (1023 - a / 8)) = 8192 := by omega
  have hspec := firstFreeFrom_spec bitmap (a := a) (n := 1023 - a / 8) (j := a / 8 + 1) (by omega)
    (by rw [blkSize]; omega)
  rw [hend] at hspec
  rcases hspec with hc | ⟨hall, h0⟩
  · exact (hc.extend hset (by omega)).leastFree
  · have hnone : AllSet bitmap a 8192 := fun l h1 h2 =>
      (lt_or_ge l (8 * (a / 8) + 8)).elim (hset l h1) fun hl => hall l hl h2
    refine ⟨fun i hi => ?_, fun _ => .inr hnone⟩
    exact absurd (hi.clear.symm.trans (hnone i hi.le hi.lt)) (by simp)

/-- **`first_free_bm` finds the least free index exactly if** the byte of the first allowed entry has no
clear bit before it, or none from it on. -/
theorem leastFree_iff (bitmap : Bytes) (allowedStart : UInt8) :
    LeastFree bitmap allowedStart.toNat (firstFreeBm bitmap allowedStart.toNat) ↔
      AllSet bitmap (8 * (allowedStart.toNat / 8)) allowedStart.toNat ∨
        AllSet bitmap allowedStart.toNat (8 * (allowedStart.toNat / 8) + 8) := by
  have ha : allowedStart.toNat < 8192 := allowedStart.toNat_lt.trans (by decide)
  generalize allowedStart.toNat = a at *
  rcases firstFreeBm_byte bitmap ha with ⟨hc, hle⟩ | ⟨hbyte, heq⟩
  · refine ⟨fun _ => .inl fun l h1 h2 => hc.before l h1 (h2.trans_le hle), fun _ => ?_⟩
    exact ((hc.raise (by omega) hle).mono (by omega)).leastFree
  · rw [heq]
    refine ⟨fun h => ?_, ?_⟩
    · rcases hbyte with hset | ⟨i, hi, hc⟩
      · exact .inr fun l h1 h2 => hset l (by omega) h2
      · -- a free entry that is allowed would be in the byte that was left
        refine .inr (by_contra fun hno => ?_)
        obtain ⟨m, hm⟩ := exists_firstClear hno
        have hfound := h.least m (hm.mono (by omega))
        have hspec := firstFreeFrom_spec bitmap (a := a) (n := 1023 - a / 8) (j := a / 8 + 1)
          (by omega) (by rw [blkSize]; omega)
        have hmle := hm.le
        have hmlt := hm.lt
        rcases hspec with hc' | ⟨-, h0⟩
        · have := hc'.le
          omega
        · omega
    · rintro (hbefore | hset)
      · rcases hbyte with hset | ⟨i, hi, hc⟩
        · exact leastFree_behind ha fun l h1 h2 => hset l (by omega) h2
        · exact absurd (hc.clear.symm.trans (hbefore i hc.le hi)) (by simp)
      · exact leastFree_behind ha hset

/-- In an empty bitmap entry 11 is free, but the search for an inode finds 16. -/
theorem not_leastFree_inode : firstFreeBm (fun _ => 0) freeInoStart = 16 ∧
    FirstClear (fun _ => 0) freeInoStart 8192 11 ∧
    ¬ LeastFree (fun _ => 0) freeInoStart (firstFreeBm (fun _ => 0) freeInoStart) := by
  have hfound : firstFreeBm (fun _ => 0) freeInoStart = 16 := by decide +kernel
  have hfirst : FirstClear (fun _ => 0) freeInoStart 8192 11 :=
    ⟨le_rfl, by decide, by decide, fun l h1 h2 => absurd h1 (Nat.not_le.mpr h2)⟩
  refine ⟨hfound, hfirst, fun h => ?_⟩
  have heq := h.least 11 hfirst
  rw [hfound] at heq
  exact absurd heq (by decide)

end YegaKernel.Fs.Ext2.Balloc
