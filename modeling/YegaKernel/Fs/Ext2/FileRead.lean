import YegaKernel.Fs.Ext2.File

/-! # A read returns the right slice of the file

`ext2_file_read` for any map from the blocks of the file to blocks of the device, in the types of the
source: `loff_t` is signed and 64 bits long, an addition that leaves it has no result; `count`, the
size and the indices have 32 bits. The read of `File` is the case in which the map is `indirect_block`
(`ext2FileRead_eq`).

The bytes read are those from the position to the end of the file or of the request, or to the first
block that is not in the map (`ext2FileRead_slice`). -/

namespace YegaKernel.Fs.Ext2.FileRead

open Lib.Bytes Lib.Word
open Fs.Disk (Bytes)
open Fs.Ext2.Layout Fs.Ext2.BlockMap

/-- A `loff_t`. -/
def loff (x : ℤ) : Option ℤ := if -2 ^ 63 ≤ x ∧ x < 2 ^ 63 then some x else none

/-- The conversion to `uint32_t`. -/
def toU32 (x : ℤ) : ℕ := (x % 2 ^ 32).toNat

/-- The conversion of a `size_t` to `ssize_t`. -/
def toSsize (n : ℕ) : ℤ := if n < 2 ^ 31 then n else n - 2 ^ 32

section Code

variable (blk : ℕ → ℕ) (disk : ℕ → Bytes)

/-- The loop of `ext2_file_read`: `pos`, `read_bytes` and the buffer at its end. -/
def readLoop (count : ℕ) : ℕ → ℤ → ℕ → Bytes → Option (ℤ × ℕ × Bytes)
  | 0, _, _, _ => none
  | fuel + 1, pos, readBytes, buf =>
    if readBytes < count then
      let blockIdx := toU32 (pos.tdiv blkSize)
      let blockOffset := toU32 (pos.tmod blkSize)
      let bytesToRead := sub32 blkSize blockOffset
      let bytesToRead :=
        if bytesToRead > sub32 count readBytes then sub32 count readBytes else bytesToRead
      let blockNum := blk blockIdx
      -- sparse file or error
      if blockNum = 0 then some (pos, readBytes, buf)
      else
        let buf := copy buf readBytes bytesToRead (view (disk blockNum) blockOffset)
        (loff (pos + bytesToRead)).bind fun pos =>
          readLoop count fuel pos (u32 (readBytes + bytesToRead)) buf
    else some (pos, readBytes, buf)

/-- **`ext2_file_read`** of a file of `size` bytes: what it returns, the buffer and the new
position. -/
def ext2FileRead (size fuel : ℕ) (buf : Bytes) (count : ℕ) (pos : ℤ) : Option (ℤ × Bytes × ℤ) :=
  if pos ≥ size then some (0, buf, pos)
  else (loff (pos + count)).bind fun stop =>
    let count := if stop > size then toU32 (size - pos) else count
    (readLoop blk disk count fuel pos 0 buf).map fun r => (toSsize r.2.1, r.2.2, r.1)

/-! ### The slice -/

/-- The byte `q` of the file. -/
def fileByte (q : ℕ) : UInt8 := disk (blk (q / blkSize)) (q % blkSize)

/-- **How much is read**: up to the end of the request or of the file, and not into a hole. -/
def sliceLength (size count pos : ℕ) : ℕ :=
  (List.range (min (pos + count) size - pos)).findIdx fun i => blk ((pos + i) / blkSize) = 0

/-- The buffer with the first `n` bytes from `pos` on in it. -/
def sliceInto (buf : Bytes) (pos n : ℕ) : Bytes := fun i =>
  if i < n then fileByte blk disk (pos + i) else buf i

end Code

theorem loff_of_lt {n : ℕ} (h : n < 2 ^ 63) : loff n = some (n : ℤ) :=
  if_pos (by omega)

theorem toU32_of_lt {n : ℕ} (h : n < 2 ^ 32) : toU32 n = n := by
  rw [toU32]
  omega

section Loop

variable {blk : ℕ → ℕ} {disk : ℕ → Bytes} {size count pos readBytes : ℕ}

/-- **One round**, where nothing overflows: the rest of the block or of the request. -/
theorem readLoop_round (blk : ℕ → ℕ) (disk : ℕ → Bytes) (fuel : ℕ) (buf : Bytes)
    (hmore : readBytes < count) (hcount : count < 2 ^ 32) (hpos : pos < 2 ^ 31) :
    readLoop blk disk count (fuel + 1) pos readBytes buf =
      if blk (pos / blkSize) = 0 then some ((pos : ℤ), readBytes, buf) else
        let n := min (blkSize - pos % blkSize) (count - readBytes)
        readLoop blk disk count fuel ((pos + n : ℕ) : ℤ) (readBytes + n)
          (copy buf readBytes n (view (disk (blk (pos / blkSize))) (pos % blkSize))) := by
  have hidx : toU32 ((pos : ℤ).tdiv blkSize) = pos / blkSize :=
    toU32_of_lt (lt_of_le_of_lt (Nat.div_le_self _ _) (by omega))
  have hmod : pos % blkSize < blkSize := Nat.mod_lt _ (by decide)
  have hoff : toU32 ((pos : ℤ).tmod blkSize) = pos % blkSize :=
    toU32_of_lt (hmod.trans (by decide))
  have hmin : (if blkSize - pos % blkSize > count - readBytes then count - readBytes
      else blkSize - pos % blkSize) = min (blkSize - pos % blkSize) (count - readBytes) := by
    split_ifs <;> omega
  rw [readLoop, if_pos hmore]
  simp only [hidx, hoff, sub32_of_le (show blkSize < 2 ^ 32 by decide) hmod.le,
    sub32_of_le hcount hmore.le, hmin]
  generalize hn : min (blkSize - pos % blkSize) (count - readBytes) = n
  have hloff : loff ((pos : ℤ) + (n : ℤ)) = some ((pos + n : ℕ) : ℤ) := by
    rw [← Int.natCast_add, loff_of_lt (by omega)]
  rw [hloff, u32_of_lt (by omega), Option.bind_some]

/-- The loop reads `n` of the `m` bytes that are left, up to the first hole. -/
structure StopsAt (blk : ℕ → ℕ) (pos m n : ℕ) : Prop where
  le : n ≤ m
  mapped : ∀ i < n, blk ((pos + i) / blkSize) ≠ 0
  hole : n < m → blk ((pos + n) / blkSize) = 0

theorem StopsAt.add {m n k : ℕ} (h : StopsAt blk (pos + k) (m - k) n) (hk : k ≤ m)
    (hround : k ≤ blkSize - pos % blkSize) (hblk : blk (pos / blkSize) ≠ 0) :
    StopsAt blk pos m (k + n) where
  le := by
    have := h.le
    omega
  mapped i hi := by
    by_cases hik : i < k
    · rw [(File.round_div (Nat.le_add_right pos i) (Nat.add_lt_add_left hik pos) hround).1]
      exact hblk
    · have hi' := h.mapped (i - k) (by omega)
      rwa [show pos + k + (i - k) = pos + i by omega] at hi'
  hole hlt := by
    rw [← Nat.add_assoc]
    exact h.hole (by omega)

/-- **The loop**: it ends, and the bytes up to the first hole are in their places. -/
theorem readLoop_spec (blk : ℕ → ℕ) (disk : ℕ → Bytes) (hcount : count < 2 ^ 32) (fuel : ℕ)
    (buf : Bytes) (hread : readBytes ≤ count) (hpos : pos + (count - readBytes) < 2 ^ 31)
    (hfuel : count - readBytes < fuel) : ∃ n, StopsAt blk pos (count - readBytes) n ∧
      readLoop blk disk count fuel pos readBytes buf = some (((pos + n : ℕ) : ℤ), readBytes + n,
        fun i => if readBytes ≤ i ∧ i < readBytes + n then fileByte blk disk (pos + (i - readBytes))
          else buf i) := by
  induction fuel generalizing pos readBytes buf with
  | zero => omega
  | succ fuel ih =>
    have hnone : (fun i => if readBytes ≤ i ∧ i < readBytes + 0 then
        fileByte blk disk (pos + (i - readBytes)) else buf i) = buf := by
      funext i
      rw [if_neg (by omega)]
    by_cases hmore : readBytes < count
    · rw [readLoop_round blk disk fuel buf hmore hcount (by omega)]
      by_cases hblk : blk (pos / blkSize) = 0
      · refine ⟨0, ⟨Nat.zero_le _, fun i hi => absurd hi (Nat.not_lt_zero i), fun _ => hblk⟩, ?_⟩
        rw [if_pos hblk, hnone]
        rfl
      rw [if_neg hblk]
      have hmod : pos % blkSize < blkSize := Nat.mod_lt _ (by decide)
      generalize hk : min (blkSize - pos % blkSize) (count - readBytes) = k
      obtain ⟨n, hn, hrun⟩ := ih
        (copy buf readBytes k (view (disk (blk (pos / blkSize))) (pos % blkSize)))
        (show readBytes + k ≤ count by omega) (show pos + k + (count - (readBytes + k)) < 2 ^ 31 by omega)
        (by omega)
      rw [← Nat.sub_sub] at hn
      refine ⟨k + n, hn.add (by omega) (by omega) hblk, ?_⟩
      rw [hrun, Nat.add_assoc, Nat.add_assoc]
      congr 3
      funext i
      by_cases h1 : readBytes + k ≤ i ∧ i < readBytes + (k + n)
      · rw [if_pos h1, if_pos (by omega), show pos + k + (i - (readBytes + k)) = pos + (i - readBytes)
          by omega]
      rw [if_neg h1]
      by_cases h2 : readBytes ≤ i ∧ i < readBytes + (k + n)
      · -- a byte of this round
        obtain ⟨j, rfl⟩ : ∃ j, i = readBytes + j := ⟨i - readBytes, by omega⟩
        obtain ⟨hdiv, hmod'⟩ := File.round_div (Nat.le_add_right pos j)
          (show pos + j < pos + k by omega) (by omega)
        rw [if_pos h2, copy_of_mem (by omega), Nat.add_sub_cancel_left, fileByte, hdiv, hmod', view,
          Nat.add_sub_cancel_left]
      · rw [if_neg h2, copy_of_not_mem (by omega)]
    · refine ⟨0, ⟨Nat.zero_le _, fun i hi => absurd hi (Nat.not_lt_zero i),
        fun h => absurd h (by omega)⟩, ?_⟩
      rw [readLoop, if_neg hmore, hnone]
      rfl

theorem StopsAt.findIdx_eq {m n : ℕ} (h : StopsAt blk pos m n) :
    (List.range m).findIdx (fun i => blk ((pos + i) / blkSize) = 0) = n := by
  rcases h.le.lt_or_eq with hlt | rfl
  · rw [List.findIdx_eq (by rwa [List.length_range])]
    simp only [List.getElem_range, decide_eq_true_eq, decide_eq_false_iff_not]
    exact ⟨h.hole hlt, h.mapped⟩
  · conv_rhs => rw [← List.length_range (n := n)]
    rw [List.findIdx_eq_length]
    intro i hi
    simpa using h.mapped i (List.mem_range.mp hi)

theorem sliceInto_zero (blk : ℕ → ℕ) (disk : ℕ → Bytes) (buf : Bytes) (pos : ℕ) :
    sliceInto blk disk buf pos 0 = buf := by
  funext i
  rw [sliceInto, if_neg (Nat.not_lt_zero i)]

theorem ext2FileRead_of_lt (blk : ℕ → ℕ) (disk : ℕ → Bytes) (buf : Bytes) (fuel : ℕ)
    (hsize : size < 2 ^ 31) (hpos : pos < size) (hcount : count < 2 ^ 32) :
    ext2FileRead blk disk size fuel buf count pos =
      (readLoop blk disk (min (pos + count) size - pos) fuel pos 0 buf).map
        fun r => (toSsize r.2.1, r.2.2, r.1) := by
  have hstop : loff ((pos : ℤ) + (count : ℤ)) = some ((pos + count : ℕ) : ℤ) := by
    rw [← Int.natCast_add, loff_of_lt (by omega)]
  have hcut : (if ((pos + count : ℕ) : ℤ) > (size : ℤ) then toU32 ((size : ℤ) - pos) else count) =
      min (pos + count) size - pos := by
    split_ifs
    · rw [← Int.natCast_sub hpos.le, toU32_of_lt (by omega)]
      omega
    · omega
  rw [ext2FileRead, if_neg (by omega), hstop, Option.bind_some]
  simp only [hcut]

/-- Blocks that are filled with their numbers. -/
def numbered (b : ℕ) : Bytes := fun _ => UInt8.ofNat b

/-- **A read returns the right slice**: the bytes of the file from the position to the end of the
request or of the file, or up to the first hole; and if there is no hole in the file, all of them. -/
theorem ext2FileRead_slice (blk : ℕ → ℕ) (disk : ℕ → Bytes) (buf : Bytes) (hsize : size < 2 ^ 31)
    (hpos : pos < 2 ^ 63) (hcount : count < 2 ^ 32) :
    (∃ k, ∀ fuel ≥ k, ext2FileRead blk disk size fuel buf count pos =
      some ((sliceLength blk size count pos : ℤ),
        sliceInto blk disk buf pos (sliceLength blk size count pos),
        (pos : ℤ) + sliceLength blk size count pos)) ∧
      ((∀ j, j * blkSize < size → blk j ≠ 0) →
        sliceLength blk size count pos = min (pos + count) size - pos) := by
  refine ⟨?_, fun hmap => ?_⟩
  · by_cases hend : size ≤ pos
    · have hzero : sliceLength blk size count pos = 0 := by
        rw [sliceLength, Nat.sub_eq_zero_of_le (by omega)]
        rfl
      refine ⟨0, fun fuel _ => ?_⟩
      rw [ext2FileRead, if_pos (by omega), hzero, sliceInto_zero]
      simp
    · refine ⟨min (pos + count) size - pos + 1, fun fuel hfuel => ?_⟩
      rw [ext2FileRead_of_lt blk disk buf fuel hsize (by omega) hcount, sliceLength]
      generalize hc : min (pos + count) size - pos = c at *
      obtain ⟨n, hn, hrun⟩ := readLoop_spec blk disk (show c < 2 ^ 32 by omega) fuel buf
        (Nat.zero_le c) (show pos + (c - 0) < 2 ^ 31 by omega) (by omega)
      rw [Nat.sub_zero] at hn
      have hle := hn.le
      rw [hrun, hn.findIdx_eq]
      simp only [Option.map_some, Nat.zero_add, Nat.zero_le, true_and, Nat.sub_zero]
      rw [toSsize, if_pos (by omega), Int.natCast_add]
      rfl
  · refine StopsAt.findIdx_eq ⟨le_rfl, fun i hi => hmap _ ?_, fun h => absurd h (lt_irrefl _)⟩
    exact lt_of_le_of_lt (Nat.div_mul_le_self _ _) (by omega)

/-- Nine bytes are asked for at position 1020 of a file of 1028: the last four of the first block and
the four of the second that belong to the file. -/
theorem ext2FileRead_slice_end :
    (∃ k, ∀ fuel ≥ k, ext2FileRead (fun j => 40 + j) numbered 1028 fuel (fun _ => 9) 9 1020 =
      some (8, sliceInto (fun j => 40 + j) numbered (fun _ => 9) 1020 8, 1028)) ∧
      (List.range 10).map (sliceInto (fun j => 40 + j) numbered (fun _ => 9) 1020 8) =
        [40, 40, 40, 40, 41, 41, 41, 41, 9, 9] := by
  refine ⟨?_, by decide +kernel⟩
  have h := @ext2FileRead_slice 1028 9 1020 (fun j => 40 + j) numbered (fun _ => 9) (by decide)
    (by decide) (by decide)
  have hlength := h.2 fun j _ => by omega
  have hread := h.1
  rw [hlength] at hread
  exact hread

/-! ### The read of an open file -/

theorem readLoop_file (f : File.OpenFile) (hcount : count < 2 ^ 32) {fuel fuel' : ℕ} (buf : Bytes)
    (hread : readBytes ≤ count) (hpos : pos + (count - readBytes) < 2 ^ 31)
    (hfuel : count - readBytes ≤ fuel) (hfuel' : count - readBytes < fuel') :
    ∃ n ≤ count - readBytes, (File.readLoop f count fuel pos readBytes buf).1 = readBytes + n ∧
      readLoop (indirectBlock f.vol f.inode) f.vol.disk count fuel' pos readBytes buf =
        some (((pos + n : ℕ) : ℤ), File.readLoop f count fuel pos readBytes buf) := by
  obtain ⟨fuel', rfl⟩ : ∃ k, fuel' = k + 1 := ⟨fuel' - 1, by omega⟩
  induction fuel generalizing pos readBytes buf fuel' with
  | zero =>
    refine ⟨0, Nat.zero_le _, rfl, ?_⟩
    rw [readLoop, if_neg (by omega)]
    rfl
  | succ fuel ih =>
    by_cases hmore : readBytes < count
    · have hidx : pos / blkSize % 2 ^ 32 = pos / blkSize :=
        Nat.mod_eq_of_lt (lt_of_le_of_lt (Nat.div_le_self _ _) (by omega))
      rw [readLoop_round _ _ fuel' buf hmore hcount (by omega), File.readLoop, if_pos hmore]
      simp only [hidx]
      by_cases hblk : indirectBlock f.vol f.inode (pos / blkSize) = 0
      · rw [if_pos hblk, if_pos hblk]
        exact ⟨0, Nat.zero_le _, rfl, rfl⟩
      rw [if_neg hblk, if_neg hblk]
      have hmod : pos % blkSize < blkSize := Nat.mod_lt _ (by decide)
      generalize hk : min (blkSize - pos % blkSize) (count - readBytes) = k
      obtain ⟨fuel', rfl⟩ : ∃ k, fuel' = k + 1 := ⟨fuel' - 1, by omega⟩
      obtain ⟨n, hn, hfile, hrun⟩ := ih
        (copy buf readBytes k (view (f.vol.disk (indirectBlock f.vol f.inode (pos / blkSize)))
          (pos % blkSize)))
        (show readBytes + k ≤ count by omega)
        (show pos + k + (count - (readBytes + k)) < 2 ^ 31 by omega) (by omega) fuel' (by omega)
      refine ⟨k + n, by omega, ?_, ?_⟩
      · rw [← Nat.add_assoc]
        exact hfile
      · rw [← Nat.add_assoc]
        exact hrun
    · refine ⟨0, Nat.zero_le _, ?_, ?_⟩ <;> rw [File.readLoop, if_neg hmore]
      · rfl
      · rw [readLoop, if_neg hmore]
        rfl

/-- **The read of `File` is this read**, with `indirect_block` for the map. -/
theorem ext2FileRead_eq (f : File.OpenFile) (buf : Bytes) {fuel : ℕ}
    (hsize : File.iSize f.inode < 2 ^ 31) (hcount : count < 2 ^ 32)
    (hfuel : min (pos + count) (File.iSize f.inode) - pos < fuel) :
    ext2FileRead (indirectBlock f.vol f.inode) f.vol.disk (File.iSize f.inode) fuel buf count pos =
      some (((File.ext2FileRead f buf count pos).1 : ℤ), (File.ext2FileRead f buf count pos).2.1,
        ((File.ext2FileRead f buf count pos).2.2 : ℤ)) := by
  by_cases hend : pos ≥ File.iSize f.inode
  · rw [ext2FileRead, if_pos (by omega), File.ext2FileRead, if_pos hend]
    rfl
  · have hcut : File.readCount f count pos = min (pos + count) (File.iSize f.inode) - pos := by
      rw [File.readCount]
      split_ifs <;> omega
    rw [ext2FileRead_of_lt _ _ buf fuel hsize (by omega) hcount, File.ext2FileRead_of_lt hend, hcut]
    generalize hc : min (pos + count) (File.iSize f.inode) - pos = c at *
    obtain ⟨n, hn, hfile, hrun⟩ := readLoop_file f (show c < 2 ^ 32 by omega) buf (Nat.zero_le c)
      (show pos + (c - 0) < 2 ^ 31 by omega) le_rfl hfuel
    rw [Nat.sub_zero] at hn hfile hrun
    rw [Nat.zero_add] at hfile
    rw [hrun, Option.map_some]
    simp only [hfile]
    rw [toSsize, if_pos (by omega)]

end Loop

end YegaKernel.Fs.Ext2.FileRead
