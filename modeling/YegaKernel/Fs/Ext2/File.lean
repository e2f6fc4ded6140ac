import YegaKernel.Fs.Ext2.BlockMap

/-! # Reading and writing files

`ext2_file_read` and `ext2_file_write` of `ext2_file.c`, over the ideal store of blocks.

Both take the inode in memory, a `struct inode`, for an inode of the disk when they ask
`indirect_block` for a block of the file. The words that are then taken for the block map are other
fields: `i_block[0]` is `i_count`, `i_block[1]` is `i_mode`, and so on; `i_block[5]` is `i_size`. A
block that a write reserves is entered nowhere.

* `Suits` : a write whose blocks are all in this map, apart from each other, and which does not
  change the word `i_block[5]` under the file;
* `right_of_suits` : such a write does what it should;
* `not_right_of_unmapped` : a write to a block that is not in the map is lost. -/

namespace YegaKernel.Fs.Ext2.File

open Lib.Bytes Lib.Word
open Fs.Disk (Bytes)
open Fs.Ext2.Layout Fs.Ext2.BlockMap Function

/-- **An open file**: the file system, the `struct inode` of the file, and how many blocks
`reserve_free_block` has handed out. -/
structure OpenFile where
  vol : Volume
  inode : Bytes
  taken : ℕ

/-- `i_size` of a `struct inode`. -/
def iSize (inode : Bytes) : ℕ := load inode 60 4

/-- The loop of `ext2_file_read`: the number of bytes read, and the buffer. A round reads a byte at
least. -/
def readLoop (f : OpenFile) (count : ℕ) : (fuel pos readBytes : ℕ) → Bytes → ℕ × Bytes
  | 0, _, readBytes, buf => (readBytes, buf)
  | fuel + 1, pos, readBytes, buf =>
    if readBytes < count then
      let blockIdx := pos / blkSize % 2 ^ 32
      let blockOffset := pos % blkSize
      let bytesToRead := min (blkSize - blockOffset) (count - readBytes)
      let blockNum := indirectBlock f.vol f.inode blockIdx
      if blockNum = 0 then (readBytes, buf)
      else
        let buf := copy buf readBytes bytesToRead (view (f.vol.disk blockNum) blockOffset)
        readLoop f count fuel (pos + bytesToRead) (readBytes + bytesToRead) buf
    else (readBytes, buf)

/-- The bytes to read, up to the end of the file. -/
def readCount (f : OpenFile) (count pos : ℕ) : ℕ :=
  if pos + count > iSize f.inode then iSize f.inode - pos else count

/-- **`ext2_file_read`**: the number of bytes read, the buffer and the new position. -/
def ext2FileRead (f : OpenFile) (buf : Bytes) (count pos : ℕ) : ℕ × Bytes × ℕ :=
  if pos ≥ iSize f.inode then (0, buf, pos)
  else
    let count := readCount f count pos
    let (readBytes, buf) := readLoop f count count pos 0 buf
    (readBytes, buf, pos + readBytes)

theorem ext2FileRead_of_lt {f : OpenFile} {pos : ℕ} (h : ¬ pos ≥ iSize f.inode) (buf : Bytes)
    (count : ℕ) : ext2FileRead f buf count pos =
      let r := readLoop f (readCount f count pos) (readCount f count pos) pos 0 buf
      (r.1, r.2, pos + r.1) := if_neg h

section Write
variable (reserved : ℕ → ℕ)

/-- The loop of `ext2_file_write`: the number of bytes written, and the file. -/
def writeLoop (buf : Bytes) (count : ℕ) : (fuel pos writtenBytes : ℕ) → OpenFile → ℕ × OpenFile
  | 0, _, writtenBytes, f => (writtenBytes, f)
  | fuel + 1, pos, writtenBytes, f =>
    if writtenBytes < count then
      let blockIdx := pos / blkSize % 2 ^ 32
      let blockOffset := pos % blkSize
      let bytesToWrite := min (blkSize - blockOffset) (count - writtenBytes)
      let blockNum := indirectBlock f.vol f.inode blockIdx
      -- a new block is reserved, but not entered into the inode
      let taken := if blockNum = 0 then f.taken + 1 else f.taken
      let blockNum := if blockNum = 0 then reserved f.taken else blockNum
      let data := copy (f.vol.disk blockNum) blockOffset bytesToWrite (view buf writtenBytes)
      let vol := { f.vol with disk := update f.vol.disk blockNum data }
      writeLoop buf count fuel (pos + bytesToWrite) (writtenBytes + bytesToWrite)
        { f with vol := vol, taken := taken }
    else (writtenBytes, f)

/-- **`ext2_file_write`**: the number of bytes written, the file and the new position. -/
def ext2FileWrite (f : OpenFile) (buf : Bytes) (count pos : ℕ) : ℕ × OpenFile × ℕ :=
  let (writtenBytes, f) := writeLoop reserved buf count count pos 0 f
  let pos := pos + writtenBytes
  let inode := if pos > iSize f.inode then store f.inode 60 4 pos else f.inode
  (writtenBytes, { f with inode := inode }, pos)

end Write

/-! ### What a write ought to do -/

/-- The block that holds the byte `q` of the file. -/
def blockOf (f : OpenFile) (q : ℕ) : ℕ := indirectBlock f.vol f.inode (q / blkSize)

/-- The byte `q` of the file, if it has a block. -/
def fileByte (f : OpenFile) (q : ℕ) : Option UInt8 :=
  if blockOf f q = 0 then none else some (f.vol.disk (blockOf f q) (q % blkSize))

section Right
variable (reserved : ℕ → ℕ) (f : OpenFile) (buf : Bytes) (count pos : ℕ)

/-- What the write returns. -/
def returned : ℕ := (ext2FileWrite reserved f buf count pos).1

/-- The file after the write. -/
def after : OpenFile := (ext2FileWrite reserved f buf count pos).2.1

/-- **A write is right**: what is written is read back, the other bytes of the file stay, and the
size is that of the larger file. -/
structure Right : Prop where
  read_count : ∀ out,
    (ext2FileRead (after reserved f buf count pos) out (returned reserved f buf count pos) pos).1 =
      returned reserved f buf count pos
  read_back : ∀ out, Agree (returned reserved f buf count pos)
    (ext2FileRead (after reserved f buf count pos) out (returned reserved f buf count pos) pos).2.1 buf
  others : ∀ q < iSize f.inode, q < pos ∨ pos + returned reserved f buf count pos ≤ q →
    fileByte (after reserved f buf count pos) q = fileByte f q
  size : iSize (after reserved f buf count pos).inode =
    max (iSize f.inode) (pos + returned reserved f buf count pos)

end Right

/-- The position belongs to the file after the write of `count` bytes at `pos`. -/
def InFile (f : OpenFile) (count pos r : ℕ) : Prop := r < iSize f.inode ∨ pos ≤ r ∧ r < pos + count

/-- **The condition on a write**: the blocks it goes to are in the map, they are neither blocks of
other parts of the file nor blocks of the map itself; and when the file grows, no part of it is in
the block whose number is its size. -/
structure Suits (f : OpenFile) (count pos : ℕ) : Prop where
  fits : pos + count < 2 ^ 32
  mapped : ∀ q, pos ≤ q → q < pos + count → blockOf f q ≠ 0
  apart : ∀ q, pos ≤ q → q < pos + count → ∀ r, InFile f count pos r →
    r / blkSize ≠ q / blkSize → blockOf f r ≠ blockOf f q
  notMap : ∀ q, pos ≤ q → q < pos + count → ∀ r, InFile f count pos r → 12 ≤ r / blkSize →
    blockOf f q ≠ iBlock f.inode 12 ∧ blockOf f q ≠ iBlock f.inode 13
  grows : iSize f.inode < pos + count →
    iSize f.inode ≤ 5 * blkSize ∧ ∀ q, pos ≤ q → q < pos + count → q / blkSize ≠ 5

/-! ### The map during a write -/

section Map
variable {s : Volume} {inode : Bytes} {j : ℕ}

theorem indirectBlock_update {b : ℕ} (data : Bytes)
    (h : 12 ≤ j → b ≠ iBlock inode 12 ∧ b ≠ iBlock inode 13) :
    indirectBlock { s with disk := update s.disk b data } inode j =
      indirectBlock s inode j := by
  by_cases hj : j < 12
  · rw [indirectBlock_direct hj, indirectBlock_direct hj]
  · obtain ⟨h12, h13⟩ := h (by omega)
    unfold indirectBlock
    simp only [update_of_ne h12.symm, update_of_ne h13.symm]

theorem indirectBlock_store_size (v : ℕ) (hj : j ≠ 5) :
    indirectBlock s (store inode 60 4 v) j = indirectBlock s inode j := by
  have hword : ∀ k ≠ 5, iBlock (store inode 60 4 v) k = iBlock inode k :=
    fun k hk => load_store_apart (by omega)
  by_cases hj' : j < 12
  · rw [indirectBlock_direct hj', indirectBlock_direct hj', hword j hj]
  · unfold indirectBlock
    simp only [hword 12 (by decide), hword 13 (by decide), if_neg (show ¬ j < dirBlkLen from hj')]

/-- **The map of the indices `J`**, for the bytes from `pos` to `stop`. -/
structure Clear (blk : ℕ → ℕ) (J : ℕ → Prop) (inode : Bytes) (pos stop : ℕ) : Prop where
  lt : stop < 2 ^ 32
  index : ∀ q, pos ≤ q → q < stop → J (q / blkSize)
  mapped : ∀ q, pos ≤ q → q < stop → blk (q / blkSize) ≠ 0
  apart : ∀ q, pos ≤ q → q < stop → ∀ j, J j → j ≠ q / blkSize → blk j ≠ blk (q / blkSize)
  notMap : ∀ q, pos ≤ q → q < stop → ∀ j, J j → 12 ≤ j →
    blk (q / blkSize) ≠ iBlock inode 12 ∧ blk (q / blkSize) ≠ iBlock inode 13

theorem Clear.mono {blk : ℕ → ℕ} {J : ℕ → Prop} {pos pos' stop : ℕ} (h : Clear blk J inode pos stop)
    (hle : pos ≤ pos') : Clear blk J inode pos' stop where
  lt := h.lt
  index q hq := h.index q (hle.trans hq)
  mapped q hq := h.mapped q (hle.trans hq)
  apart q hq := h.apart q (hle.trans hq)
  notMap q hq := h.notMap q (hle.trans hq)

end Map

/-! ### The loops -/

theorem round_div {pos r n : ℕ} (h1 : pos ≤ r) (h2 : r < pos + n) (hn : n ≤ blkSize - pos % blkSize) :
    r / blkSize = pos / blkSize ∧ r % blkSize = pos % blkSize + (r - pos) := by
  rw [blkSize] at *
  omega

section Loops
variable {f : OpenFile} {blk : ℕ → ℕ} {J : ℕ → Prop}

/-- **The loop of a read**: bytes whose blocks are in the map are read one and all. -/
theorem readLoop_spec (count : ℕ) {stop : ℕ}
    (hmap : ∀ j, J j → indirectBlock f.vol f.inode j = blk j) (hlt : stop < 2 ^ 32)
    (fuel pos readBytes : ℕ) (buf : Bytes) (hindex : ∀ q, pos ≤ q → q < stop → J (q / blkSize))
    (hmapped : ∀ q, pos ≤ q → q < stop → blk (q / blkSize) ≠ 0)
    (hpos : pos + count = stop + readBytes) (hread : readBytes ≤ count)
    (hfuel : count - readBytes ≤ fuel) :
    ∃ out, readLoop f count fuel pos readBytes buf = (count, out) ∧ Agree readBytes out buf ∧
      ∀ q, pos ≤ q → q < stop →
        out (readBytes + (q - pos)) = f.vol.disk (blk (q / blkSize)) (q % blkSize) := by
  induction fuel generalizing pos readBytes buf with
  | zero =>
    obtain rfl : readBytes = count := by omega
    exact ⟨buf, rfl, Agree.refl _ _, fun q h1 h2 => absurd h2 (by omega)⟩
  | succ fuel ih =>
    rw [readLoop]
    by_cases hdone : readBytes < count
    · have hposlt : pos < stop := by omega
      have hidx : pos / blkSize % 2 ^ 32 = pos / blkSize :=
        Nat.mod_eq_of_lt (lt_of_le_of_lt (Nat.div_le_self _ _) (by omega))
      have hblock := hmap _ (hindex pos le_rfl hposlt)
      have hround : 0 < blkSize - pos % blkSize :=
        Nat.sub_pos_of_lt (Nat.mod_lt _ (by decide))
      rw [if_pos hdone]
      simp only [hidx, hblock]
      rw [if_neg (hmapped pos le_rfl hposlt)]
      generalize hn : min (blkSize - pos % blkSize) (count - readBytes) = n
      obtain ⟨out, hrun, hagree, hout⟩ := ih (pos + n) (readBytes + n)
        (copy buf readBytes n (view (f.vol.disk (blk (pos / blkSize))) (pos % blkSize)))
        (fun q hq => hindex q (by omega)) (fun q hq => hmapped q (by omega)) (by omega) (by omega)
        (by omega)
      refine ⟨out, hrun, fun i hi => ?_, fun q h1 h2 => ?_⟩
      · rw [hagree i (by omega), copy_of_not_mem (by omega)]
      · by_cases hq : q < pos + n
        · obtain ⟨hdiv, hmod⟩ := round_div h1 hq (by omega)
          rw [hagree _ (by omega), copy_of_mem (by omega), view, hdiv, hmod]
        · have := hout q (by omega) h2
          rwa [show readBytes + n + (q - (pos + n)) = readBytes + (q - pos) by omega] at this
    · obtain rfl : readBytes = count := by omega
      exact ⟨buf, by rw [if_neg hdone], Agree.refl _ _, fun q h1 h2 => absurd h2 (by omega)⟩

/-- What a write of the bytes from `pos` to `stop` leaves of the file. -/
structure Written (f f' : OpenFile) (blk : ℕ → ℕ) (J : ℕ → Prop) (buf : Bytes)
    (pos stop written : ℕ) : Prop where
  inode : f'.inode = f.inode
  map : ∀ j, J j → indirectBlock f'.vol f'.inode j = blk j
  byte : ∀ r, J (r / blkSize) → f'.vol.disk (blk (r / blkSize)) (r % blkSize) =
    if pos ≤ r ∧ r < stop then buf (written + (r - pos))
    else f.vol.disk (blk (r / blkSize)) (r % blkSize)

theorem written_round (buf : Bytes) {pos stop : ℕ} (written : ℕ) {n : ℕ}
    (hmap : ∀ j, J j → indirectBlock f.vol f.inode j = blk j) (hclear : Clear blk J f.inode pos stop)
    (hpos : pos < stop) (hn : n ≤ blkSize - pos % blkSize) : Written f { f with
      vol := { f.vol with
        disk := update f.vol.disk (blk (pos / blkSize))
          (copy (f.vol.disk (blk (pos / blkSize))) (pos % blkSize) n (view buf written)) } }
      blk J buf pos (pos + n) written where
  inode := rfl
  map j hj := by
    rw [indirectBlock_update _ fun h12 => hclear.notMap pos le_rfl hpos j hj h12, hmap j hj]
  byte r hr := by
    simp only
    by_cases hblock : r / blkSize = pos / blkSize
    · rw [hblock, update_self]
      have hmod : r % blkSize + pos = pos % blkSize + r := by
        have h1 := Nat.div_add_mod r blkSize
        have h2 := Nat.div_add_mod pos blkSize
        rw [hblock] at h1
        omega
      split_ifs with hin
      · rw [show r % blkSize = pos % blkSize + (r - pos) by omega, copy_of_mem (by omega), view]
      · exact copy_of_not_mem (by omega)
    · have hout : ¬ (pos ≤ r ∧ r < pos + n) := fun h => hblock (round_div h.1 h.2 hn).1
      rw [if_neg hout, update_of_ne (hclear.apart pos le_rfl hpos _ hr hblock)]

/-- **The loop of a write.** -/
theorem writeLoop_spec (reserved : ℕ → ℕ) (buf : Bytes) (count fuel pos written : ℕ) {stop : ℕ}
    (hmap : ∀ j, J j → indirectBlock f.vol f.inode j = blk j) (hclear : Clear blk J f.inode pos stop)
    (hpos : pos + count = stop + written) (hwritten : written ≤ count)
    (hfuel : count - written ≤ fuel) :
    ∃ f', writeLoop reserved buf count fuel pos written f = (count, f') ∧
      Written f f' blk J buf pos stop written := by
  have hdone : written = count → Written f f blk J buf pos stop written := by
    rintro rfl
    refine ⟨rfl, hmap, fun r _ => ?_⟩
    rw [if_neg (by omega)]
  induction fuel generalizing pos written f with
  | zero =>
    obtain rfl : written = count := by omega
    exact ⟨f, rfl, hdone rfl⟩
  | succ fuel ih =>
    rw [writeLoop]
    by_cases hlt : written < count
    · have hposlt : pos < stop := by omega
      have hidx : pos / blkSize % 2 ^ 32 = pos / blkSize :=
        Nat.mod_eq_of_lt (lt_of_le_of_lt (Nat.div_le_self _ _) (by have := hclear.lt; omega))
      have hblock := hmap _ (hclear.index pos le_rfl hposlt)
      have hround : 0 < blkSize - pos % blkSize :=
        Nat.sub_pos_of_lt (Nat.mod_lt _ (by decide))
      rw [if_pos hlt]
      simp only [hidx, hblock, if_neg (hclear.mapped pos le_rfl hposlt)]
      generalize hn : min (blkSize - pos % blkSize) (count - written) = n
      have hstep := written_round buf written hmap hclear hposlt
        (show n ≤ blkSize - pos % blkSize by omega)
      obtain ⟨f', hrun, hf'⟩ := ih (pos + n) (written + n) hstep.map
        (hclear.mono (by omega)) (by omega) (by omega) (by omega) (by
          intro heq
          refine ⟨rfl, hstep.map, fun r _ => ?_⟩
          rw [if_neg (by omega)])
      refine ⟨f', hrun, hf'.inode, hf'.map, fun r hr => ?_⟩
      rw [hf'.byte r hr, hstep.byte r hr]
      by_cases h1 : pos + n ≤ r ∧ r < stop
      · rw [if_pos h1, if_pos (by omega)]
        congr 1
        omega
      · rw [if_neg h1]
        exact if_congr (by omega) rfl rfl
    · obtain rfl : written = count := by omega
      exact ⟨f, by rw [if_neg hlt], hdone rfl⟩

end Loops

/-! ### One write -/

section Step
variable {reserved : ℕ → ℕ} {f : OpenFile} {buf : Bytes} {count pos : ℕ}

/-- What a suitable write does. -/
structure Effect (reserved : ℕ → ℕ) (f : OpenFile) (buf : Bytes) (count pos : ℕ) : Prop where
  returned : returned reserved f buf count pos = count
  size : iSize (after reserved f buf count pos).inode = max (iSize f.inode) (pos + count)
  block : ∀ r, InFile f count pos r → blockOf (after reserved f buf count pos) r = blockOf f r
  byte : ∀ r, InFile f count pos r →
    (after reserved f buf count pos).vol.disk (blockOf f r) (r % blkSize) =
      if pos ≤ r ∧ r < pos + count then buf (r - pos) else f.vol.disk (blockOf f r) (r % blkSize)

theorem Suits.clear (h : Suits f count pos) :
    Clear (fun j => indirectBlock f.vol f.inode j) (fun j => ∃ r, InFile f count pos r ∧ r / blkSize = j)
      f.inode pos (pos + count) where
  lt := h.fits
  index q h1 h2 := ⟨q, .inr ⟨h1, h2⟩, rfl⟩
  mapped := h.mapped
  apart q h1 h2 := by
    rintro _ ⟨r, hr, rfl⟩ hne
    exact h.apart q h1 h2 r hr hne
  notMap q h1 h2 := by
    rintro _ ⟨r, hr, rfl⟩ h12
    exact h.notMap q h1 h2 r hr h12

theorem effect_of_suits (reserved : ℕ → ℕ) (buf : Bytes) (h : Suits f count pos) :
    Effect reserved f buf count pos := by
  obtain ⟨f₁, hrun, hf₁⟩ := writeLoop_spec reserved buf count count pos 0
    (fun j _ => rfl) h.clear rfl (Nat.zero_le _) (Nat.sub_le _ _)
  have hwrite : ext2FileWrite reserved f buf count pos = (count, { f₁ with
      inode := if pos + count > iSize f.inode then store f.inode 60 4 (pos + count) else f.inode },
      pos + count) := by
    rw [ext2FileWrite, hrun]
    simp only [hf₁.inode]
  have hafter : after reserved f buf count pos = { f₁ with
      inode := if pos + count > iSize f.inode then store f.inode 60 4 (pos + count) else f.inode } := by
    rw [after, hwrite]
  refine ⟨by rw [returned, hwrite], ?_, fun r hr => ?_, fun r hr => ?_⟩
  · rw [hafter]
    simp only
    split_ifs with hgrow
    · rw [iSize, load_store_of_lt (by have := h.fits; omega)]
      omega
    · omega
  · have hmap : indirectBlock f₁.vol f.inode (r / blkSize) = blockOf f r :=
      hf₁.inode ▸ hf₁.map (r / blkSize) ⟨r, hr, rfl⟩
    rw [hafter, blockOf, ← hmap]
    split_ifs with hgrow
    · -- the word 5 of the map changes, but the file has no bytes there
      obtain ⟨hsmall, hrange⟩ := h.grows hgrow
      refine indirectBlock_store_size _ ?_
      rcases hr with hr | hr
      · rw [blkSize] at hsmall ⊢
        omega
      · exact hrange r hr.1 hr.2
    · rfl
  · rw [hafter]
    have hbyte := hf₁.byte r ⟨r, hr, rfl⟩
    rw [Nat.zero_add] at hbyte
    exact hbyte

theorem Effect.fileByte_eq (h : Effect reserved f buf count pos) {q : ℕ} (hq : InFile f count pos q)
    (hmapped : pos ≤ q → q < pos + count → blockOf f q ≠ 0) :
    fileByte (after reserved f buf count pos) q =
      if pos ≤ q ∧ q < pos + count then some (buf (q - pos)) else fileByte f q := by
  rw [fileByte, h.block q hq, h.byte q hq, fileByte]
  split_ifs with h0 hin hin
  · exact absurd h0 (hmapped hin.1 hin.2)
  · rfl
  · rfl
  · rfl

/-- **A suitable write is right.** -/
theorem right_of_suits (h : Suits f count pos) : Right reserved f buf count pos := by
  have heff := effect_of_suits reserved buf h
  have hmap : ∀ j, (∃ r, InFile f count pos r ∧ r / blkSize = j) →
      indirectBlock (after reserved f buf count pos).vol (after reserved f buf count pos).inode j =
        indirectBlock f.vol f.inode j := by
    rintro _ ⟨r, hr, rfl⟩
    exact heff.block r hr
  have hread : ∀ out, (ext2FileRead (after reserved f buf count pos) out count pos).1 = count ∧
      Agree count (ext2FileRead (after reserved f buf count pos) out count pos).2.1 buf := by
    intro out
    have hsize := heff.size
    by_cases hend : pos ≥ iSize (after reserved f buf count pos).inode
    · obtain rfl : count = 0 := by omega
      rw [ext2FileRead, if_pos hend]
      exact ⟨rfl, fun i hi => absurd hi (Nat.not_lt_zero i)⟩
    · have hcount : readCount (after reserved f buf count pos) count pos = count := if_neg (by omega)
      obtain ⟨out', hrun, -, hout⟩ := readLoop_spec count hmap h.fits count pos 0 out
        (fun q h1 h2 => ⟨q, .inr ⟨h1, h2⟩, rfl⟩) h.mapped rfl (Nat.zero_le _) (Nat.sub_le _ _)
      rw [ext2FileRead_of_lt hend, hcount, hrun]
      refine ⟨rfl, fun i hi => ?_⟩
      have hbyte := heff.byte (pos + i) (.inr ⟨by omega, by omega⟩)
      rw [if_pos ⟨by omega, by omega⟩, Nat.add_sub_cancel_left] at hbyte
      have hi' := hout (pos + i) (by omega) (by omega)
      rw [Nat.zero_add, Nat.add_sub_cancel_left] at hi'
      exact hi'.trans hbyte
  refine ⟨fun out => ?_, fun out => ?_, fun q hq hout => ?_, ?_⟩
  · rw [heff.returned]
    exact (hread out).1
  · rw [heff.returned]
    exact (hread out).2
  · rw [heff.returned] at hout
    rw [heff.fileByte_eq (.inl hq) (h.mapped q), if_neg (by omega)]
  · rw [heff.returned, heff.size]

end Step

/-! ### Sequences of writes -/

/-- A call of `ext2_file_write`. -/
structure Call where
  buf : Bytes
  count : ℕ
  pos : ℕ

section Runs
variable (reserved : ℕ → ℕ)

def runCalls (f : OpenFile) (calls : List Call) : OpenFile :=
  calls.foldl (fun f c => after reserved f c.buf c.count c.pos) f

/-- Every call meets the condition in the state it finds. -/
def AllSuit : OpenFile → List Call → Prop
  | _, [] => True
  | f, c :: calls =>
    Suits f c.count c.pos ∧ AllSuit (after reserved f c.buf c.count c.pos) calls

/-- Every call is right. -/
def AllRight : OpenFile → List Call → Prop
  | _, [] => True
  | f, c :: calls =>
    Right reserved f c.buf c.count c.pos ∧ AllRight (after reserved f c.buf c.count c.pos) calls

end Runs

/-- What the last call that writes the byte `q` writes there. -/
def lastWritten : List Call → ℕ → Option UInt8
  | [], _ => none
  | c :: calls, q =>
    (lastWritten calls q).or (if c.pos ≤ q ∧ q < c.pos + c.count then some (c.buf (q - c.pos)) else none)

theorem fileByte_runCalls {reserved : ℕ → ℕ} {f : OpenFile} {calls : List Call}
    (h : AllSuit reserved f calls) (q : ℕ) :
    (∀ x, lastWritten calls q = some x → fileByte (runCalls reserved f calls) q = some x) ∧
      (lastWritten calls q = none → q < iSize f.inode →
        fileByte (runCalls reserved f calls) q = fileByte f q) := by
  induction calls generalizing f with
  | nil => exact ⟨fun x hx => absurd hx (by simp [lastWritten]), fun _ _ => rfl⟩
  | cons c calls ih =>
    obtain ⟨hsuits, hrest⟩ := h
    have heff := effect_of_suits reserved c.buf hsuits
    obtain ⟨hlast, hkept⟩ := ih hrest
    have hsize := heff.size
    have hbyte : InFile f c.count c.pos q → _ := fun hq => heff.fileByte_eq hq (hsuits.mapped q)
    rw [lastWritten]
    cases hl : lastWritten calls q with
    | some x =>
      refine ⟨fun y hy => ?_, fun hnone => absurd hnone (by simp)⟩
      exact (hlast x hl).trans hy
    | none =>
      split_ifs with hin
      · refine ⟨fun x hx => ?_, fun hnone => absurd hnone (by simp)⟩
        rw [show runCalls reserved f (c :: calls) =
          runCalls reserved (after reserved f c.buf c.count c.pos) calls from rfl,
          hkept hl (by omega), hbyte (.inr hin), if_pos hin]
        exact hx
      · refine ⟨fun x hx => absurd hx (by simp), fun _ hq => ?_⟩
        rw [show runCalls reserved f (c :: calls) =
          runCalls reserved (after reserved f c.buf c.count c.pos) calls from rfl,
          hkept hl (by omega), hbyte (.inl hq), if_neg hin]

/-- **Files hold what is written to them**, in every sequence of writes that meet the condition:
each write is right, and after all of them a byte is the one that was written to it last. -/
theorem calls_right_of_suit {reserved : ℕ → ℕ} {f : OpenFile} {calls : List Call}
    (h : AllSuit reserved f calls) : AllRight reserved f calls ∧
      ∀ q, (∀ x, lastWritten calls q = some x → fileByte (runCalls reserved f calls) q = some x) ∧
        (lastWritten calls q = none → q < iSize f.inode →
          fileByte (runCalls reserved f calls) q = fileByte f q) := by
  refine ⟨?_, fileByte_runCalls h⟩
  induction calls generalizing f with
  | nil => trivial
  | cons c calls ih => exact ⟨right_of_suits h.1, ih h.2⟩

/-! ### Blocks that are not in the map -/

section Unmapped
variable {reserved : ℕ → ℕ} {f : OpenFile} {buf : Bytes} {count pos : ℕ}

theorem writeLoop_count (reserved : ℕ → ℕ) (f : OpenFile) (buf : Bytes) {count fuel : ℕ}
    (pos written : ℕ) (hwritten : written ≤ count) (hfuel : count - written ≤ fuel) :
    (writeLoop reserved buf count fuel pos written f).1 = count ∧
      (writeLoop reserved buf count fuel pos written f).2.inode = f.inode := by
  induction fuel generalizing pos written f with
  | zero => exact ⟨show written = count by omega, rfl⟩
  | succ fuel ih =>
    have hround : 0 < blkSize - pos % blkSize := Nat.sub_pos_of_lt (Nat.mod_lt _ (by decide))
    rw [writeLoop]
    split_ifs with hlt
    · exact ih _ _ _ (by omega) (by omega)
    · exact ⟨show written = count by omega, rfl⟩

theorem readLoop_stops {q : ℕ} (hidx : q / blkSize < 12) (hzero : blockOf f q = 0) (count fuel : ℕ)
    {pos : ℕ} (hq : pos ≤ q) (readBytes : ℕ) (out : Bytes) :
    (readLoop f count fuel pos readBytes out).1 ≤ readBytes + (q - pos) := by
  induction fuel generalizing pos readBytes out with
  | zero => exact Nat.le_add_right _ _
  | succ fuel ih =>
    rw [readLoop]
    split_ifs with hlt
    · simp only
      split_ifs with hblock
      · exact Nat.le_add_right _ _
      · generalize hn : min (blkSize - pos % blkSize) (count - readBytes) = n
        have hlt' : pos + n ≤ q := by
          -- otherwise the byte is in the block that is read now
          by_contra hge
          refine hblock ?_
          rw [← (round_div hq (by omega) (show n ≤ blkSize - pos % blkSize by omega)).1,
            Nat.mod_eq_of_lt (by omega)]
          exact hzero
        exact (ih hlt' _ _).trans (by omega)
    · exact Nat.le_add_right _ _

/-- **A write to a direct block that is not in the map is lost**: it is not read back. -/
theorem not_right_of_unmapped {q : ℕ} (h1 : pos ≤ q) (h2 : q < pos + count) (hidx : q / blkSize < 12)
    (h5 : q / blkSize ≠ 5) (hzero : blockOf f q = 0) : ¬ Right reserved f buf count pos := by
  intro h
  obtain ⟨hcount, hinode⟩ := writeLoop_count reserved f buf pos 0 (Nat.zero_le count) (Nat.sub_le _ _)
  have hreturned : returned reserved f buf count pos = count := hcount
  have hafter : blockOf (after reserved f buf count pos) q = 0 := by
    rw [blockOf, indirectBlock_direct hidx, ← hzero, blockOf, indirectBlock_direct hidx, after,
      ext2FileWrite]
    simp only [hinode]
    split_ifs
    · exact load_store_apart (by omega)
    · rfl
  have hread := h.read_count fun _ => 0
  rw [hreturned] at hread
  by_cases hend : pos ≥ iSize (after reserved f buf count pos).inode
  · rw [ext2FileRead, if_pos hend] at hread
    exact absurd hread (show ¬ 0 = count by omega)
  · rw [ext2FileRead_of_lt hend] at hread
    have hstop := readLoop_stops hidx hafter (readCount (after reserved f buf count pos) count pos)
      (readCount (after reserved f buf count pos) count pos) h1 0 fun _ => 0
    simp only at hread
    omega

end Unmapped

/-- The `struct inode` of an open file of 4 KiB, with the given words from `i_count` on. -/
def fileInode (words : List ℕ) : Bytes :=
  storeAll (fun _ => 0) (words.zipIdx.map fun w => (40 + 4 * w.2, 4, w.1))

/-- An open file whose first four words of the map are 300 to 303, and whose size is 4096. -/
def mappedFile : OpenFile :=
  { vol := { disk := fun _ _ => 0, super := fun _ => 0, bgdt := fun _ => 0, nBlockGroups := 1 },
    inode := fileInode [300, 301, 302, 303, 0, 4096], taken := 0 }

/-- A file with one reference and one link, regular, owned by root, and empty. -/
def rootFile : OpenFile := { mappedFile with inode := fileInode [1, 0o100644, 1, 0, 0, 0] }

theorem suits_mappedFile : Suits mappedFile 2000 1000 := by
  have hblocks : ∀ j < 4, indirectBlock mappedFile.vol mappedFile.inode j = 300 + j := by decide +kernel
  have hsize : iSize mappedFile.inode = 4096 := by decide +kernel
  have hfile : ∀ r, InFile mappedFile 2000 1000 r → r / blkSize < 4 := by
    intro r hr
    rw [InFile, hsize] at hr
    rw [blkSize]
    omega
  have hblock : ∀ r, InFile mappedFile 2000 1000 r → blockOf mappedFile r = 300 + r / blkSize :=
    fun r hr => hblocks _ (hfile r hr)
  refine ⟨by decide, fun q h1 h2 => ?_, fun q h1 h2 r hr hne => ?_, fun q h1 h2 r hr h12 =>
    ?_, fun h => ?_⟩
  · rw [hblock q (.inr ⟨h1, h2⟩)]
    exact Nat.ne_of_gt (Nat.add_pos_left (by decide) _)
  · rw [hblock q (.inr ⟨h1, h2⟩), hblock r hr]
    omega
  · exact absurd (hfile r hr) (by omega)
  · omega

theorem calls_right_mappedFile :
    AllRight (fun k => 900 + k) mappedFile [⟨fun i => UInt8.ofNat i, 2000, 1000⟩] :=
  (calls_right_of_suit (show AllSuit _ mappedFile [_] from ⟨suits_mappedFile, trivial⟩)).1

/-- A byte is written at position 3072 of the file, where the map has `i_uid` and `i_gid`, both
zero: the write returns 1, the read 0. -/
theorem not_right_rootFile : ¬ Right (fun k => 900 + k) rootFile (fun _ => 65) 1 3072 :=
  not_right_of_unmapped (q := 3072) (by decide) (by decide) (by decide) (by decide) (by decide +kernel)

end YegaKernel.Fs.Ext2.File
