import YegaKernel.Lib.Word

/-! # The disk

`drivers/disk.c` over an array of sectors, and the block calls of `ufs.c` on top of it.

The registers of the drive are modelled as far as they select a sector: three bytes of the LBA and
the drive/head register, of which the lower four bits are the bits 24 to 27 of the LBA and the fifth
selects the drive (the sectors of the second drive are numbered from `2 ^ 28` on). `disk_read` sends
the upper byte of the LBA, `disk_write_sector` does not. -/

namespace YegaKernel.Fs.Disk

open Lib.Word Function

/-- The bytes behind a pointer. -/
abbrev Bytes := ℕ → UInt8

/-- The sectors of the two drives; the first `ataSectorSize` bytes of each are its contents. -/
abbrev Sectors := ℕ → Bytes

theorem exists_disk (v : UInt8) : ∃ disk : Sectors, ∀ x, disk x 0 ≠ v := by
  by_cases hv : v = 0
  · have hone : (1 : UInt8) ≠ 0 := by decide
    exact ⟨fun _ _ => 1, fun _ => hv ▸ hone⟩
  · exact ⟨fun _ _ => 0, fun _ => Ne.symm hv⟩

def ataSectorSize : ℕ := 512

/-- The sector the drive selects for the contents of its registers. -/
def selected (head high mid low : ℕ) : ℕ := head % 32 * 2 ^ 24 + high * 2 ^ 16 + mid * 2 ^ 8 + low

def lbaLow (lba : ℕ) : ℕ := lba % 256
def lbaMid (lba : ℕ) : ℕ := lba / 2 ^ 8 % 256
def lbaHigh (lba : ℕ) : ℕ := lba / 2 ^ 16 % 256
def lbaHighest (lba : ℕ) : ℕ := lba / 2 ^ 24 % 256

/-- The sector that a read of `lba` selects. -/
def readSector (lba : ℕ) : ℕ :=
  selected (0xe0 ||| lbaHighest lba) (lbaHigh lba) (lbaMid lba) (lbaLow lba)

/-- The sector that a write of `lba` selects. -/
def writeSector (lba : ℕ) : ℕ := selected 0xe0 (lbaHigh lba) (lbaMid lba) (lbaLow lba)

theorem readSector_eq (lba : ℕ) : readSector lba = lba % 2 ^ 29 := by
  have hhead : (0xe0 ||| lbaHighest lba) % 32 = lba / 2 ^ 24 % 32 := by
    rw [show 32 = 2 ^ 5 by rfl, Nat.or_mod_two_pow]
    simp only [lbaHighest, Nat.reducePow, Nat.reduceMod, Nat.zero_or]
    omega
  unfold readSector selected
  simp only [lbaHigh, lbaMid, lbaLow]
  omega

theorem writeSector_eq (lba : ℕ) : writeSector lba = lba % 2 ^ 24 := by
  simp only [writeSector, selected, lbaHigh, lbaMid, lbaLow, Nat.reduceMod]
  omega

/-! ### Reading -/

/-- `disk_read_internal`: `nsectors` sectors from `lba` on, into the buffer. -/
def diskReadInternal (disk : Sectors) (lba nsectors : ℕ) (buf : Bytes) : Bytes :=
  fun i => if i < nsectors * ataSectorSize
    then disk (readSector lba + i / ataSectorSize) (i % ataSectorSize) else buf i

def diskRead (disk : Sectors) (lba : ℕ) (buf : Bytes) : Bytes := diskReadInternal disk lba 1 buf

theorem diskRead_apply (disk : Sectors) (lba : ℕ) (buf : Bytes) (i : ℕ) : diskRead disk lba buf i =
      if i < ataSectorSize then disk (readSector lba) i else buf i := by
  unfold diskRead diskReadInternal
  rw [Nat.one_mul]
  split_ifs with h
  · rw [Nat.div_eq_of_lt h, Nat.mod_eq_of_lt h, Nat.add_zero]
  · rfl

/-! ### Writing -/

/-- `disk_write_sector`: one sector, padded with zeros behind the `nchar` bytes given. -/
def diskWriteSector (disk : Sectors) (lba : ℕ) (inBuf : Bytes) (nchar : ℕ) : Sectors :=
  if nchar > ataSectorSize then disk
  else update disk (writeSector lba) fun i => if i < nchar then inBuf i else 0

/-- How much of the buffer goes into the next sector. -/
def charsToWrite (nchar charsWritten : ℕ) : ℕ :=
  if nchar - charsWritten < ataSectorSize then nchar - charsWritten else ataSectorSize

theorem charsToWrite_pos {nchar charsWritten : ℕ} (h : charsWritten < nchar) :
    0 < charsToWrite nchar charsWritten := by
  unfold charsToWrite ataSectorSize
  split_ifs <;> omega

/-- The loop of `disk_write`, with `charsWritten` bytes done. -/
def diskWriteFrom (nchar : ℕ) (disk : Sectors) (charsWritten lba : ℕ) (buf : Bytes) : Sectors :=
  if charsWritten < nchar then
    let chars := charsToWrite nchar charsWritten
    diskWriteFrom nchar (diskWriteSector disk lba buf chars) (charsWritten + chars) (u32 (lba + 1))
      (fun i => buf (ataSectorSize + i))
  else disk
termination_by nchar - charsWritten
decreasing_by
  have := charsToWrite_pos (by assumption : charsWritten < nchar)
  omega

def diskWrite (disk : Sectors) (lba : ℕ) (buf : Bytes) (nchar : ℕ) : Sectors :=
  diskWriteFrom nchar disk 0 lba buf

/-- The bytes `disk_write_sector` writes when it is given a whole sector. -/
def wholeSector (buf : Bytes) : Bytes := fun i => if i < ataSectorSize then buf i else 0

theorem diskWriteSector_whole (disk : Sectors) (lba : ℕ) (buf : Bytes) :
    diskWriteSector disk lba buf ataSectorSize =
      update disk (writeSector lba) (wholeSector buf) := if_neg (lt_irrefl _)

theorem diskWrite_sector (disk : Sectors) (lba : ℕ) (buf : Bytes) :
    diskWrite disk lba buf ataSectorSize =
      update disk (writeSector lba) (wholeSector buf) := by
  have hchars : charsToWrite ataSectorSize 0 = ataSectorSize := by decide
  rw [diskWrite, diskWriteFrom, if_pos (by decide)]
  simp only [hchars]
  rw [diskWriteFrom, if_neg (by decide), diskWriteSector_whole]

/-- **A write of 1024 bytes** writes the sectors `lba` and `lba + 1`. -/
theorem diskWrite_block (disk : Sectors) (lba : ℕ) (buf : Bytes) : diskWrite disk lba buf 1024 =
      update (update disk (writeSector lba) (wholeSector buf))
        (writeSector (u32 (lba + 1))) (wholeSector fun i => buf (ataSectorSize + i)) := by
  have h1 : charsToWrite 1024 0 = ataSectorSize := by decide
  have h2 : charsToWrite 1024 (0 + ataSectorSize) = ataSectorSize := by decide
  rw [diskWrite, diskWriteFrom, if_pos (by decide)]
  simp only [h1]
  rw [diskWriteFrom, if_pos (by decide)]
  simp only [h2]
  rw [diskWriteFrom, if_neg (by decide), diskWriteSector_whole, diskWriteSector_whole]

/-! ### Blocks, as `ufs.c` addresses them -/

def sectorsPerBlock : ℕ := 2

/-- `disk_write_blk`, with `fs_start_set = 1` and `filesys_start = 0`. -/
def diskWriteBlk (disk : Sectors) (blockNum : ℕ) (buf : Bytes) : Sectors :=
  (List.range sectorsPerBlock).foldl (fun disk i =>
    diskWrite disk (u32 (blockNum * sectorsPerBlock + i)) (fun k => buf (ataSectorSize * i + k))
      ataSectorSize) disk

end YegaKernel.Fs.Disk
