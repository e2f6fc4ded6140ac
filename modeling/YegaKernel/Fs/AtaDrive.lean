import YegaKernel.Fs.Disk

/-! # The ATA drive behind its registers

`disk_write_sector` and `disk_read_internal` as the accesses to the ports of the drive that they are.
The drive has a register for each byte of the LBA and the drive/head register, whose lower four bits
are the bits 24 to 27; a command starts a transfer at the sector that they address, and the data
register moves it word by word.

Over the sectors, the accesses do what `Fs.Disk` says (`diskWriteSector_spec`, `diskRead_spec`,
`diskWrite_spec`). Since `disk_write_sector` sends no bits above the 23rd, what is written from the
sector `2 ^ 24` on is not read back (`readsBack_iff`). -/

namespace YegaKernel.Fs.AtaDrive

open Lib.Word
open Fs.Disk (Bytes Sectors ataSectorSize lbaLow lbaMid lbaHigh lbaHighest charsToWrite
  charsToWrite_pos exists_disk readSector writeSector readSector_eq writeSector_eq)
open Function

/-! ### The drive -/

/-- A transfer: its sector, the number of sectors left with this one, and the number of words of the
sector that have been transferred. The bytes of a sector are written when all of them are there. -/
inductive Transfer
  | idle
  | reading (sector left words : ℕ)
  | writing (sector left words : ℕ) (buffer : Bytes)

structure Drive where
  sectors : Sectors
  sectorCount : ℕ
  lbaLow : ℕ
  lbaMid : ℕ
  lbaHigh : ℕ
  driveHead : ℕ
  transfer : Transfer

/-- The registers that are written to as bytes. -/
inductive Register
  | sectorCount
  | lbaLow
  | lbaMid
  | lbaHigh
  | driveHead
  | command

def ataReadWithRetry : ℕ := 0x20
def ataWriteWithRetry : ℕ := 0x30
def ataCacheFlush : ℕ := 0xe7

def ataStatusBusy : ℕ := 1 <<< 7
def ataStatusReady : ℕ := 1 <<< 6
def ataStatusDataTransferRequested : ℕ := 1 <<< 3

/-- The sector that the registers address. -/
def Drive.addressed (d : Drive) : ℕ :=
  d.driveHead % 16 * 2 ^ 24 + d.lbaHigh * 2 ^ 16 + d.lbaMid * 2 ^ 8 + d.lbaLow

/-- The number of sectors of a command; 0 stands for 256. -/
def Drive.count (d : Drive) : ℕ := if d.sectorCount = 0 then 256 else d.sectorCount

/-- The status register. The drive is never busy. -/
def Drive.status (d : Drive) : ℕ :=
  match d.transfer with
  | .idle => ataStatusReady
  | _ => ataStatusReady ||| ataStatusDataTransferRequested

/-- `port_byte_out` to one of the registers. -/
def portByteOut (d : Drive) : Register → ℕ → Drive
  | .sectorCount, v => { d with sectorCount := v }
  | .lbaLow, v => { d with lbaLow := v }
  | .lbaMid, v => { d with lbaMid := v }
  | .lbaHigh, v => { d with lbaHigh := v }
  | .driveHead, v => { d with driveHead := v }
  | .command, v =>
    if v = ataReadWithRetry then { d with transfer := .reading d.addressed d.count 0 }
    else if v = ataWriteWithRetry then
      { d with transfer := .writing d.addressed d.count 0 fun _ => 0 }
    else d

/-- A word, as its two bytes, to the data register. -/
def wordOut (d : Drive) (lo hi : UInt8) : Drive :=
  match d.transfer with
  | .writing sector left words buffer =>
    let buffer := update (update buffer (2 * words) lo) (2 * words + 1) hi
    if words + 1 < ataSectorSize / 2 then
      { d with transfer := .writing sector left (words + 1) buffer }
    else
      { d with
        sectors := update d.sectors sector buffer
        transfer := if 1 < left then .writing (sector + 1) (left - 1) 0 fun _ => 0 else .idle }
  | _ => d

/-- A word from the data register. -/
def wordIn (d : Drive) : UInt8 × UInt8 × Drive :=
  match d.transfer with
  | .reading sector left words =>
    (d.sectors sector (2 * words), d.sectors sector (2 * words + 1),
      if words + 1 < ataSectorSize / 2 then { d with transfer := .reading sector left (words + 1) }
      else { d with transfer := if 1 < left then .reading (sector + 1) (left - 1) 0 else .idle })
  | _ => (0, 0, d)

/-! ### The code -/

/-- `ata_wait_until_status`. As the drive does not change by itself, the loop ends with its first
round or never, which is `none`. -/
def ataWaitUntilStatus (d : Drive) (desired : ℕ) : Option Unit := guard (d.status &&& desired ≠ 0)

def ataWaitUntilNotBusy (d : Drive) : Option Unit := guard (d.status &&& ataStatusBusy = 0)

/-- `port_multiword_out` to the data register. -/
def portMultiwordOut (buf : Bytes) : ℕ → Drive → Drive
  | 0, d => d
  | n + 1, d => wordOut (portMultiwordOut buf n d) (buf (2 * n)) (buf (2 * n + 1))

/-- `port_multiword_in` from the data register, to the place `off` of the buffer. -/
def portMultiwordIn (off : ℕ) : ℕ → Bytes × Drive → Bytes × Drive
  | 0, r => r
  | n + 1, r =>
    let (buf, d) := portMultiwordIn off n r
    let (lo, hi, d) := wordIn d
    (update (update buf (off + 2 * n) lo) (off + 2 * n + 1) hi, d)

def diskWriteSector (d : Drive) (lba : ℕ) (inBuf : Bytes) (nchar : ℕ) : Option Drive :=
  if nchar > ataSectorSize then some d
  else do
    -- the bytes given, padded with zeros
    let buf : Bytes := fun i => if i < nchar then inBuf i else 0
    ataWaitUntilStatus d ataStatusReady
    let d := portByteOut d .driveHead 0xe0
    let d := portByteOut d .sectorCount 1
    let d := portByteOut d .lbaLow (lbaLow lba)
    let d := portByteOut d .lbaMid (lbaMid lba)
    let d := portByteOut d .lbaHigh (lbaHigh lba)
    let d := portByteOut d .command ataWriteWithRetry
    ataWaitUntilStatus d ataStatusDataTransferRequested
    let d := portMultiwordOut buf (ataSectorSize / 2) d
    let d := portByteOut d .command ataCacheFlush
    ataWaitUntilNotBusy d
    return d

/-- The loop of `disk_write`, with `charsWritten` bytes done. -/
def diskWriteFrom (nchar : ℕ) (d : Drive) (charsWritten lba : ℕ) (buf : Bytes) : Option Drive :=
  if charsWritten < nchar then
    let chars := charsToWrite nchar charsWritten
    (diskWriteSector d lba buf chars).bind fun d =>
      diskWriteFrom nchar d (charsWritten + chars) (u32 (lba + 1)) fun i => buf (ataSectorSize + i)
  else some d
termination_by nchar - charsWritten
decreasing_by
  have := charsToWrite_pos (by assumption : charsWritten < nchar)
  omega

def diskWrite (d : Drive) (lba : ℕ) (buf : Bytes) (nchar : ℕ) : Option Drive :=
  diskWriteFrom nchar d 0 lba buf

/-- The loop of `disk_read_internal` over the first `n` sectors. -/
def readSectors : ℕ → Bytes × Drive → Option (Bytes × Drive)
  | 0, r => some r
  | n + 1, r => do
    let (buf, d) ← readSectors n r
    ataWaitUntilStatus d ataStatusDataTransferRequested
    return portMultiwordIn (n * ataSectorSize) (ataSectorSize / 2) (buf, d)

def diskReadInternal (d : Drive) (lba : ℕ) (buf : Bytes) (nsectors : ℕ) : Option (Bytes × Drive) := do
  ataWaitUntilStatus d ataStatusReady
  ataWaitUntilNotBusy d
  let d := portByteOut d .driveHead (0xe0 ||| lbaHighest lba)
  let d := portByteOut d .sectorCount nsectors
  let d := portByteOut d .lbaLow (lbaLow lba)
  let d := portByteOut d .lbaMid (lbaMid lba)
  let d := portByteOut d .lbaHigh (lbaHigh lba)
  let d := portByteOut d .command ataReadWithRetry
  ataWaitUntilNotBusy d
  let (buf, d) ← readSectors nsectors (buf, d)
  ataWaitUntilNotBusy d
  return (buf, d)

def diskRead (d : Drive) (lba : ℕ) (buf : Bytes) : Option (Bytes × Drive) :=
  diskReadInternal d lba buf 1

/-! ### Transfers -/

theorem ready (d : Drive) : ataWaitUntilStatus d ataStatusReady = some () := by
  unfold ataWaitUntilStatus Drive.status
  split <;> decide

theorem notBusy (d : Drive) : ataWaitUntilNotBusy d = some () := by
  unfold ataWaitUntilNotBusy Drive.status
  split <;> decide

theorem dataRequested {d : Drive} (hd : d.transfer ≠ .idle) :
    ataWaitUntilStatus d ataStatusDataTransferRequested = some () := by
  unfold ataWaitUntilStatus Drive.status
  split
  · exact absurd (by assumption) hd
  · decide

/-- The bytes from `off` on replaced by the first `k` bytes of `src`. -/
def patch (dst src : Bytes) (off k : ℕ) : Bytes :=
  fun i => if off ≤ i ∧ i < off + k then src (i - off) else dst i

theorem patch_zero (dst src : Bytes) (off : ℕ) : patch dst src off 0 = dst := by
  funext i
  exact if_neg (by omega)

theorem patch_word (dst src : Bytes) {off n x : ℕ} (hx : x = off + 2 * n) :
    update (update (patch dst src off (2 * n)) x (src (2 * n))) (x + 1)
      (src (2 * n + 1)) = patch dst src off (2 * (n + 1)) := by
  subst hx
  funext i
  unfold patch
  by_cases h1 : i = off + 2 * n + 1
  · subst h1
    rw [update_self, if_pos (by omega), show off + 2 * n + 1 - off = 2 * n + 1 by omega]
  · rw [update_of_ne h1]
    by_cases h2 : i = off + 2 * n
    · subst h2
      rw [update_self, if_pos (by omega), show off + 2 * n - off = 2 * n by omega]
    · rw [update_of_ne h2]
      exact if_congr (by omega) rfl rfl

theorem portMultiwordOut_lt (buf : Bytes) {d : Drive} {sector left : ℕ}
    (hd : d.transfer = .writing sector left 0 fun _ => 0) : ∀ {n : ℕ}, n < ataSectorSize / 2 →
      portMultiwordOut buf n d =
        { d with transfer := .writing sector left n (patch (fun _ => 0) buf 0 (2 * n)) }
  | 0, _ => by
    rw [Nat.mul_zero, patch_zero, ← hd]
    rfl
  | n + 1, hn => by
    rw [portMultiwordOut, portMultiwordOut_lt buf hd (by omega), wordOut]
    simp only [if_pos hn]
    rw [patch_word _ _ (by omega)]

/-- **A sector is written** when its last word arrives. -/
theorem portMultiwordOut_sector (buf : Bytes) {d : Drive} {sector : ℕ}
    (hd : d.transfer = .writing sector 1 0 fun _ => 0) :
    portMultiwordOut buf (ataSectorSize / 2) d = { d with
        sectors := update d.sectors sector (patch (fun _ => 0) buf 0 ataSectorSize)
        transfer := .idle } := by
  rw [show ataSectorSize / 2 = 255 + 1 from rfl, portMultiwordOut,
    portMultiwordOut_lt buf hd (by decide), wordOut]
  simp only [show ¬ 255 + 1 < ataSectorSize / 2 by decide, if_false, lt_irrefl]
  rw [patch_word _ _ (by omega)]
  rfl

theorem portMultiwordIn_lt (off : ℕ) {buf : Bytes} {d : Drive} {sector left : ℕ}
    (hd : d.transfer = .reading sector left 0) : ∀ {n : ℕ}, n < ataSectorSize / 2 →
      portMultiwordIn off n (buf, d) =
        (patch buf (d.sectors sector) off (2 * n), { d with transfer := .reading sector left n })
  | 0, _ => by
    rw [Nat.mul_zero, patch_zero, ← hd]
    rfl
  | n + 1, hn => by
    rw [portMultiwordIn, portMultiwordIn_lt off hd (by omega)]
    simp only [wordIn, if_pos hn]
    rw [patch_word _ _ rfl]

/-- **A sector is read**, and the transfer goes on with the next one. -/
theorem portMultiwordIn_sector (off : ℕ) {buf : Bytes} {d : Drive} {sector left : ℕ}
    (hd : d.transfer = .reading sector left 0) : portMultiwordIn off (ataSectorSize / 2) (buf, d) =
      (patch buf (d.sectors sector) off ataSectorSize,
        { d with transfer := if 1 < left then .reading (sector + 1) (left - 1) 0 else .idle }) := by
  rw [show ataSectorSize / 2 = 255 + 1 from rfl, portMultiwordIn, portMultiwordIn_lt off hd (by decide)]
  simp only [wordIn, show ¬ 255 + 1 < ataSectorSize / 2 by decide, if_false]
  rw [patch_word _ _ rfl]
  rfl

/-! ### The accesses refine the array of sectors -/

/-- The registers before a command. -/
def programmed (d : Drive) (head count lba : ℕ) : Drive :=
  ⟨d.sectors, count, lbaLow lba, lbaMid lba, lbaHigh lba, head, d.transfer⟩

theorem programmed_eq (d : Drive) (head count lba : ℕ) :
    portByteOut (portByteOut (portByteOut (portByteOut (portByteOut d .driveHead head)
      .sectorCount count) .lbaLow (lbaLow lba)) .lbaMid (lbaMid lba)) .lbaHigh (lbaHigh lba) =
        programmed d head count lba := rfl

theorem command_read (d : Drive) : portByteOut d .command ataReadWithRetry =
    { d with transfer := .reading d.addressed d.count 0 } := by
  rw [portByteOut, if_pos rfl]

theorem command_write (d : Drive) : portByteOut d .command ataWriteWithRetry =
    { d with transfer := .writing d.addressed d.count 0 fun _ => 0 } := by
  rw [portByteOut, if_neg (by decide), if_pos rfl]

theorem command_flush (d : Drive) : portByteOut d .command ataCacheFlush = d := by
  rw [portByteOut, if_neg (by decide), if_neg (by decide)]

theorem addressed_write (d : Drive) (count lba : ℕ) :
    (programmed d 0xe0 count lba).addressed = writeSector lba := by
  rw [writeSector_eq, Drive.addressed]
  simp only [programmed, lbaHigh, lbaMid, lbaLow]
  omega

theorem addressed_read (d : Drive) (count : ℕ) {lba : ℕ} (h : lba < 2 ^ 28) :
    (programmed d (0xe0 ||| lbaHighest lba) count lba).addressed = readSector lba := by
  have hhead : (0xe0 ||| lbaHighest lba) % 16 = lba / 2 ^ 24 := by
    rw [show 16 = 2 ^ 4 by rfl, Nat.or_mod_two_pow]
    simp only [lbaHighest, Nat.reducePow, Nat.reduceMod, Nat.zero_or]
    omega
  rw [readSector_eq, Drive.addressed]
  simp only [programmed, hhead, lbaHigh, lbaMid, lbaLow]
  omega

theorem patch_padded (inBuf : Bytes) {nchar : ℕ} (hn : nchar ≤ ataSectorSize) :
    patch (fun _ => 0) (fun i => if i < nchar then inBuf i else 0) 0 ataSectorSize =
      fun i => if i < nchar then inBuf i else 0 := by
  funext i
  unfold patch
  simp only [Nat.zero_le, true_and, Nat.zero_add, Nat.sub_zero]
  split_ifs with h1 h2 h2
  · rfl
  · rfl
  · omega
  · rfl

/-- **`disk_write_sector`** writes the sector of `Fs.Disk`. -/
theorem diskWriteSector_spec (d : Drive) (lba : ℕ) (inBuf : Bytes) (nchar : ℕ) :
    ∃ d', diskWriteSector d lba inBuf nchar = some d' ∧
      d'.sectors = Disk.diskWriteSector d.sectors lba inBuf nchar := by
  unfold diskWriteSector Disk.diskWriteSector
  split_ifs with hn
  · exact ⟨d, rfl, rfl⟩
  · simp only [ready, notBusy, Option.bind_eq_bind, Option.bind_some, programmed_eq, command_write,
      command_flush, addressed_write, Option.pure_def]
    have hcount : (programmed d 0xe0 1 lba).count = 1 := rfl
    rw [hcount, dataRequested (by simp), Option.bind_some, portMultiwordOut_sector _ rfl,
      patch_padded inBuf (by omega)]
    exact ⟨_, rfl, rfl⟩

theorem readSectors_spec (buf : Bytes) {d : Drive} {sector nsectors : ℕ}
    (hd : d.transfer = .reading sector nsectors 0) : ∀ {n : ℕ}, n ≤ nsectors →
      ∃ d', readSectors n (buf, d) = some (fun i => if i < n * ataSectorSize
          then d.sectors (sector + i / ataSectorSize) (i % ataSectorSize) else buf i, d') ∧
        d'.sectors = d.sectors ∧ (n < nsectors → d'.transfer = .reading (sector + n) (nsectors - n) 0)
  | 0, _ => ⟨d, by simp [readSectors], rfl, fun _ => hd⟩
  | n + 1, hn => by
    obtain ⟨d', heq, hsectors, htransfer⟩ := readSectors_spec buf hd (n := n) (by omega)
    have hnext := htransfer (by omega)
    refine ⟨{ d' with transfer := (if 1 < nsectors - n
      then .reading (sector + n + 1) (nsectors - n - 1) 0 else .idle) }, ?_, hsectors, fun hlt => ?_⟩
    · rw [readSectors, heq]
      simp only [Option.bind_eq_bind, Option.bind_some]
      rw [dataRequested (by rw [hnext]; simp), Option.bind_some, portMultiwordIn_sector _ hnext,
        Option.pure_def, hsectors]
      refine congrArg some (Prod.ext (funext fun i => ?_) rfl)
      simp only [patch]
      -- the bytes of the sector `n`, and those of the sectors before it
      by_cases h1 : n * ataSectorSize ≤ i ∧ i < n * ataSectorSize + ataSectorSize
      · have hdiv : i / ataSectorSize = n ∧ i % ataSectorSize = i - n * ataSectorSize := by
          unfold ataSectorSize at h1 ⊢
          omega
        rw [if_pos h1, if_pos (by rw [Nat.succ_mul]; exact h1.2), hdiv.1, hdiv.2]
      · rw [if_neg h1]
        exact if_congr (by rw [Nat.succ_mul]; omega) rfl rfl
    · simp only [if_pos (show 1 < nsectors - n by omega)]
      rw [Nat.add_assoc, Nat.sub_sub]

/-- **`disk_read`** reads the sector of `Fs.Disk`. -/
theorem diskRead_spec (d : Drive) {lba : ℕ} (h : lba < 2 ^ 28) (buf : Bytes) :
    ∃ d', diskRead d lba buf = some (Disk.diskRead d.sectors lba buf, d') ∧ d'.sectors = d.sectors := by
  unfold diskRead diskReadInternal
  simp only [ready, notBusy, Option.bind_eq_bind, Option.bind_some, programmed_eq, command_read,
    addressed_read d 1 h, Option.pure_def]
  have hcount : (programmed d (0xe0 ||| lbaHighest lba) 1 lba).count = 1 := rfl
  rw [hcount]
  obtain ⟨d', heq, hsectors, -⟩ := readSectors_spec buf
    (d := { programmed d (0xe0 ||| lbaHighest lba) 1 lba with transfer := .reading (readSector lba) 1 0 })
    rfl (n := 1) le_rfl
  rw [heq]
  exact ⟨d', rfl, hsectors⟩

/-- **`disk_write`** ends, and writes the sectors of `Fs.Disk`. -/
theorem diskWrite_spec (d : Drive) (lba : ℕ) (buf : Bytes) (nchar : ℕ) :
    ∃ d', diskWrite d lba buf nchar = some d' ∧ d'.sectors = Disk.diskWrite d.sectors lba buf nchar := by
  suffices hloop : ∀ disk charsWritten lba buf, ∀ d : Drive, d.sectors = disk →
      ∃ d', diskWriteFrom nchar d charsWritten lba buf = some d' ∧
        d'.sectors = Disk.diskWriteFrom nchar disk charsWritten lba buf from
    hloop d.sectors 0 lba buf d rfl
  intro disk charsWritten lba buf
  induction disk, charsWritten, lba, buf using Disk.diskWriteFrom.induct nchar with
  | case1 disk charsWritten lba buf hlt chars ih =>
    rintro d rfl
    obtain ⟨d₁, heq₁, hsectors₁⟩ := diskWriteSector_spec d lba buf chars
    obtain ⟨d₂, heq₂, hsectors₂⟩ := ih d₁ hsectors₁
    refine ⟨d₂, ?_, ?_⟩
    · rw [diskWriteFrom, if_pos hlt]
      simp only [chars] at heq₁ heq₂
      simp only [heq₁, Option.bind_some, heq₂]
    · rw [Disk.diskWriteFrom, if_pos hlt]
      exact hsectors₂
  | case2 disk charsWritten lba buf hge =>
    rintro d rfl
    refine ⟨d, ?_, ?_⟩
    · rw [diskWriteFrom, if_neg hge]
    · rw [Disk.diskWriteFrom, if_neg hge]

/-! ### What is read back -/

/-- The number of sectors that hold `nchar` bytes. -/
def sectorsOf (nchar : ℕ) : ℕ := (nchar + (ataSectorSize - 1)) / ataSectorSize

/-- The sector `k` of the first `nchar` bytes of the buffer, padded with zeros. -/
def sectorBytes (buf : Bytes) (nchar k : ℕ) : Bytes :=
  fun i => if i < ataSectorSize ∧ ataSectorSize * k + i < nchar then buf (ataSectorSize * k + i) else 0

theorem sectorsOf_rest {nchar charsWritten : ℕ} (h : charsWritten < nchar) :
    sectorsOf (nchar - charsWritten) =
      sectorsOf (nchar - (charsWritten + charsToWrite nchar charsWritten)) + 1 := by
  unfold sectorsOf charsToWrite ataSectorSize
  split_ifs <;> omega

theorem sectorBytes_first (buf : Bytes) (nchar charsWritten : ℕ) :
    sectorBytes buf (nchar - charsWritten) 0 =
      fun i => if i < charsToWrite nchar charsWritten then buf i else 0 := by
  funext i
  unfold sectorBytes charsToWrite
  rw [Nat.mul_zero, Nat.zero_add]
  refine if_congr ?_ rfl rfl
  split_ifs <;> omega

theorem sectorBytes_rest (buf : Bytes) {nchar charsWritten k : ℕ}
    (hk : k < sectorsOf (nchar - (charsWritten + charsToWrite nchar charsWritten))) :
    sectorBytes (fun i => buf (ataSectorSize + i))
        (nchar - (charsWritten + charsToWrite nchar charsWritten)) k =
      sectorBytes buf (nchar - charsWritten) (k + 1) := by
  funext i
  have hplace : ataSectorSize + (ataSectorSize * k + i) = ataSectorSize * (k + 1) + i := by
    rw [Nat.mul_succ]; omega
  simp only [sectorBytes, hplace]
  refine if_congr ?_ rfl rfl
  unfold sectorsOf charsToWrite ataSectorSize at *
  split_ifs at hk ⊢ <;> omega

theorem charsToWrite_le (nchar charsWritten : ℕ) : charsToWrite nchar charsWritten ≤ ataSectorSize := by
  unfold charsToWrite
  split_ifs <;> omega

/-- **Below `2 ^ 24`** the loop writes the sectors from `lba` on, and no other. -/
theorem diskWriteFrom_low (nchar : ℕ) (disk : Sectors) (charsWritten lba : ℕ) (buf : Bytes)
    (hfit : lba + sectorsOf (nchar - charsWritten) ≤ 2 ^ 24) (x : ℕ) :
    Disk.diskWriteFrom nchar disk charsWritten lba buf x =
      if lba ≤ x ∧ x < lba + sectorsOf (nchar - charsWritten)
      then sectorBytes buf (nchar - charsWritten) (x - lba) else disk x := by
  induction disk, charsWritten, lba, buf using Disk.diskWriteFrom.induct nchar with
  | case1 disk charsWritten lba buf hlt chars ih =>
    have hrest := sectorsOf_rest hlt
    have hword : u32 (lba + 1) = lba + 1 := u32_of_lt (by omega)
    have hchars : chars = charsToWrite nchar charsWritten := rfl
    rw [hword, hchars] at ih
    rw [Disk.diskWriteFrom, if_pos hlt, hword, ih (by omega), hrest]
    by_cases hin : lba + 1 ≤ x ∧
        x < lba + 1 + sectorsOf (nchar - (charsWritten + charsToWrite nchar charsWritten))
    · rw [if_pos hin, if_pos (by omega), sectorBytes_rest buf (by omega),
        show x - (lba + 1) + 1 = x - lba by omega]
    · rw [if_neg hin, Disk.diskWriteSector, if_neg (Nat.not_lt.mpr (charsToWrite_le _ _)), writeSector_eq,
        Nat.mod_eq_of_lt (by omega)]
      by_cases hx : x = lba
      · subst hx
        rw [update_self, if_pos (by omega), Nat.sub_self, sectorBytes_first]
      · rw [update_of_ne hx, if_neg (by omega)]
  | case2 disk charsWritten lba buf hge =>
    have hnone : sectorsOf (nchar - charsWritten) = 0 := by
      rw [Nat.sub_eq_zero_of_le (Nat.not_lt.mp hge)]; rfl
    rw [Disk.diskWriteFrom, if_neg hge, hnone, if_neg (by omega)]

theorem diskWriteFrom_high (nchar : ℕ) (disk : Sectors) (charsWritten lba : ℕ) (buf : Bytes) {x : ℕ}
    (hx : 2 ^ 24 ≤ x) : Disk.diskWriteFrom nchar disk charsWritten lba buf x = disk x := by
  induction disk, charsWritten, lba, buf using Disk.diskWriteFrom.induct nchar with
  | case1 disk charsWritten lba buf hlt chars ih =>
    have hne : x ≠ writeSector lba := by rw [writeSector_eq]; omega
    rw [Disk.diskWriteFrom, if_pos hlt, ih, Disk.diskWriteSector,
      if_neg (Nat.not_lt.mpr (charsToWrite_le _ _)), update_of_ne hne]
  | case2 disk charsWritten lba buf hge => rw [Disk.diskWriteFrom, if_neg hge]

/-- **What was written is read back**, and nothing else has changed. -/
structure ReadsBack (lba : ℕ) (buf : Bytes) (nchar : ℕ) (d d' : Drive) : Prop where
  reads : ∀ k < sectorsOf nchar, ∀ old, ∃ out d'', diskRead d' (lba + k) old = some (out, d'') ∧
    ∀ i < ataSectorSize, out i = sectorBytes buf nchar k i
  frame : ∀ x < 2 ^ 28, x < lba ∨ lba + sectorsOf nchar ≤ x → d'.sectors x = d.sectors x

section ReadsBack
variable {lba nchar : ℕ} {buf : Bytes} (hfit : lba + sectorsOf nchar ≤ 2 ^ 28)
include hfit

theorem low_of_readsBack
    (h : ∀ d, ∃ d', diskWrite d lba buf nchar = some d' ∧ ReadsBack lba buf nchar d d') :
    nchar = 0 ∨ lba + sectorsOf nchar ≤ 2 ^ 24 := by
  by_contra hnot
  have hsome : ataSectorSize * (sectorsOf nchar - 1) < nchar ∧ 0 < sectorsOf nchar := by
    unfold sectorsOf ataSectorSize
    omega
  -- the last sector is not written, so a drive that holds other bytes there keeps them
  obtain ⟨disk, hdisk⟩ := exists_disk (buf (ataSectorSize * (sectorsOf nchar - 1)))
  obtain ⟨d', heq, hback⟩ := h ⟨disk, 0, 0, 0, 0, 0, .idle⟩
  obtain ⟨d₁, heq₁, hsectors⟩ := diskWrite_spec ⟨disk, 0, 0, 0, 0, 0, .idle⟩ lba buf nchar
  obtain rfl := Option.some.inj (heq₁.symm.trans heq)
  have hlast : lba + (sectorsOf nchar - 1) < 2 ^ 28 := by omega
  obtain ⟨out, d'', hread, hout⟩ := hback.reads (sectorsOf nchar - 1) (by omega) fun _ => 0
  obtain ⟨d₂, hread₂, -⟩ := diskRead_spec d₁ hlast fun _ => 0
  obtain ⟨rfl, -⟩ := Prod.mk.inj (Option.some.inj (hread₂.symm.trans hread))
  have hbyte := hout 0 (by decide)
  rw [Disk.diskRead_apply, if_pos (by decide), readSector_eq, Nat.mod_eq_of_lt (by omega), hsectors,
    Disk.diskWrite, diskWriteFrom_high _ _ _ _ _ (by omega), sectorBytes, Nat.add_zero,
    if_pos ⟨by decide, hsome.1⟩] at hbyte
  exact hdisk _ hbyte

theorem readsBack_of_low (h : nchar = 0 ∨ lba + sectorsOf nchar ≤ 2 ^ 24) (d : Drive) :
    ∃ d', diskWrite d lba buf nchar = some d' ∧ ReadsBack lba buf nchar d d' := by
  obtain ⟨d', heq, hsectors⟩ := diskWrite_spec d lba buf nchar
  have hat : ∀ x, d'.sectors x = if lba ≤ x ∧ x < lba + sectorsOf nchar
      then sectorBytes buf nchar (x - lba) else d.sectors x := by
    intro x
    rw [hsectors]
    rcases h with rfl | h
    · rw [Disk.diskWrite, Disk.diskWriteFrom, if_neg (lt_irrefl _),
        if_neg (by rw [show sectorsOf 0 = 0 from rfl]; omega)]
    · exact diskWriteFrom_low nchar d.sectors 0 lba buf h x
  refine ⟨d', heq, fun k hk old => ?_, fun x _ hx => ?_⟩
  · obtain ⟨d'', hread, -⟩ := diskRead_spec d' (show lba + k < 2 ^ 28 by omega) old
    refine ⟨_, d'', hread, fun i hi => ?_⟩
    rw [Disk.diskRead_apply, if_pos hi, readSector_eq, Nat.mod_eq_of_lt (by omega), hat,
      if_pos (by omega), Nat.add_sub_cancel_left]
  · rw [hat, if_neg (by omega)]

/-- **`disk_read` reads what `disk_write` wrote** exactly if the sectors are below `2 ^ 24`, for every
state of the drive; `disk_write` always ends. -/
theorem readsBack_iff :
    (∀ d, ∃ d', diskWrite d lba buf nchar = some d' ∧ ReadsBack lba buf nchar d d') ↔
      nchar = 0 ∨ lba + sectorsOf nchar ≤ 2 ^ 24 :=
  ⟨low_of_readsBack hfit, readsBack_of_low hfit⟩

end ReadsBack

/-- The bytes that `test_disk` writes, `"A1B2C3D4E5"`. -/
def testBytes : Bytes := fun i => [65, 49, 66, 50, 67, 51, 68, 52, 69, 53].getD i 0

/-- `test_disk` writes them to the sector 5. -/
theorem readsBack_sector_5 : 5 + sectorsOf 10 ≤ 2 ^ 28 ∧
    ∀ d, ∃ d', diskWrite d 5 testBytes 10 = some d' ∧ ReadsBack 5 testBytes 10 d d' :=
  ⟨by decide, (readsBack_iff (by decide)).mpr (Or.inr (by decide))⟩

/-- In the sector `2 ^ 24`, the first behind 8 GiB, they are not found again. -/
theorem not_readsBack_sector_high : 2 ^ 24 + sectorsOf 10 ≤ 2 ^ 28 ∧ ¬ ∀ d, ∃ d',
    diskWrite d (2 ^ 24) testBytes 10 = some d' ∧ ReadsBack (2 ^ 24) testBytes 10 d d' := by
  refine ⟨by decide, fun h => ?_⟩
  have hlow := low_of_readsBack (by decide) h
  exact absurd hlow (by decide)

end YegaKernel.Fs.AtaDrive
