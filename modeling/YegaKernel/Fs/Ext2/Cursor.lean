import YegaKernel.Fs.Ext2.FileRead

/-! # An open file is a cursor

`ext2_llseek` and the reads of an open file, with `f_pos` for the position of both. What a file has at
a place is a byte, or nothing: behind its end and in a hole.

`reads_refine_cursor`: every run of seeks and reads gives the results of a cursor over these bytes, as
long as no sum leaves `loff_t`. A read stops at the first place where there is nothing. -/

namespace YegaKernel.Fs.Ext2.Cursor

open Fs.Disk (Bytes)
open Fs.Ext2.Layout Fs.Ext2.FileRead

/-- A call for an open file: `llseek`, or `vfs_read` into a buffer. -/
inductive Call
  | seek (offset whence : ℤ)
  | read (buf : Bytes) (count : ℕ)

/-- The arguments have the types of the source. -/
def Call.Typed : Call → Prop
  | .seek offset _ => -2 ^ 63 ≤ offset ∧ offset < 2 ^ 63
  | .read _ count => count < 2 ^ 32

/-- What a call returns; a read also leaves bytes in the buffer. -/
inductive Reply
  | seek (ret : ℤ)
  | read (ret : ℤ) (bytes : List UInt8)
  deriving DecidableEq

section Code
variable (blk : ℕ → ℕ) (disk : ℕ → Bytes) (size fuel : ℕ)

/-- What the offset is added to. -/
def seekFrom (fPos whence : ℤ) : Option ℤ :=
  if whence = 0 then some 0 else if whence = 1 then some fPos else if whence = 2 then some size
  else none

/-- `ext2_llseek`: what it returns, and `f_pos`. -/
def ext2Llseek (fPos offset whence : ℤ) : Option (ℤ × ℤ) :=
  match seekFrom size fPos whence with
  | none => some (-1, fPos)
  | some start => (loff (start + offset)).map fun newPos =>
    if newPos < 0 then (-1, fPos) else (newPos, newPos)

def call (fPos : ℤ) : Call → Option (Reply × ℤ)
  | .seek offset whence => (ext2Llseek size fPos offset whence).map fun r => (.seek r.1, r.2)
  | .read buf count => (ext2FileRead blk disk size fuel buf count fPos).map fun r =>
    (.read r.1 ((List.range r.1.toNat).map r.2.1), r.2.2)

def replies : ℤ → List Call → Option (List Reply)
  | _, [] => some []
  | fPos, c :: cs => do
    let (r, fPos) ← call blk disk size fuel fPos c
    let rs ← replies fPos cs
    some (r :: rs)

/-- The byte at a place of the file, if there is one. -/
def byteAt (q : ℕ) : Option UInt8 :=
  if q < size ∧ blk (q / blkSize) ≠ 0 then some (fileByte blk disk q) else none

end Code

/-! ### The cursor -/

section Abstract
variable (content : ℕ → Option UInt8) (size : ℕ)

/-- The bytes from `pos` on, `count` of them unless there is nothing before. -/
def bytesFrom (pos count : ℕ) : List UInt8 :=
  (((List.range' pos count).map content).takeWhile Option.isSome).reduceOption

def move (pos : ℕ) : Call → Option (Reply × ℕ)
  | .seek offset whence =>
    match seekFrom size pos whence with
    | none => some (.seek (-1), pos)
    | some start =>
      if 2 ^ 63 ≤ start + offset then none
      else if start + offset < 0 then some (.seek (-1), pos)
      else some (.seek (start + offset), (start + offset).toNat)
  | .read _ count =>
    let bytes := bytesFrom content pos count
    some (.read bytes.length bytes, pos + bytes.length)

def moves : ℕ → List Call → Option (List Reply)
  | _, [] => some []
  | pos, c :: cs => do
    let (r, pos) ← move content size pos c
    let rs ← moves pos cs
    some (r :: rs)

end Abstract

variable {blk : ℕ → ℕ} {disk : ℕ → Bytes} {size fuel pos count : ℕ}

/-- Where a read stops. -/
theorem bytesFrom_eq {content : ℕ → Option UInt8} {f : ℕ → UInt8} {n : ℕ} (hn : n ≤ count)
    (hsome : ∀ i < n, content (pos + i) = some (f (pos + i)))
    (hnone : n < count → content (pos + n) = none) :
    bytesFrom content pos count = (List.range n).map fun i => f (pos + i) := by
  have hfirst : (List.range' pos n).map content = (List.range n).map fun i => some (f (pos + i)) := by
    rw [List.range'_eq_map_range, List.map_map]
    exact List.map_congr_left fun i hi => hsome i (List.mem_range.mp hi)
  have hrest : ((List.range' (pos + n) (count - n)).map content).takeWhile Option.isSome = [] := by
    rcases Nat.eq_zero_or_pos (count - n) with h0 | hpos
    · rw [h0]
      rfl
    · rw [show count - n = count - n - 1 + 1 by omega, List.range'_succ, List.map_cons,
        hnone (by omega)]
      rfl
  have hsplit : List.range' pos count = List.range' pos n ++ List.range' (pos + n) (count - n) := by
    rw [List.range'_append_1, Nat.add_sub_cancel' hn]
  rw [bytesFrom, hsplit, List.map_append, hfirst, List.takeWhile_append_of_pos (by simp), hrest,
    List.append_nil]
  exact List.filterMap_map.trans (congrFun List.filterMap_eq_map' _)

theorem byteAt_eq_some {q : ℕ} (hq : q < size) (hblk : blk (q / blkSize) ≠ 0) :
    byteAt blk disk size q = some (fileByte blk disk q) := if_pos ⟨hq, hblk⟩

/-- **A read is a move of the cursor.** -/
theorem read_refines (buf : Bytes) (hsize : size < 2 ^ 31) (hcount : count < 2 ^ 32)
    (hfuel : size < fuel) : call blk disk size fuel pos (.read buf count) =
      (move (byteAt blk disk size) size pos (.read buf count)).map fun r => (r.1, (r.2 : ℤ)) := by
  by_cases hend : size ≤ pos
  · have hnil : bytesFrom (byteAt blk disk size) pos count = [] :=
      bytesFrom_eq (n := 0) (f := fun _ => 0) (Nat.zero_le _) (fun i hi => absurd hi (Nat.not_lt_zero i))
        fun _ => if_neg fun h => absurd h.1 (by omega)
    rw [call, move, hnil, ext2FileRead, if_pos (by omega)]
    simp
  · rw [call, move, ext2FileRead_of_lt blk disk buf fuel hsize (by omega) hcount]
    generalize hc : min (pos + count) size - pos = c
    obtain ⟨n, hn, hrun⟩ := readLoop_spec blk disk (show c < 2 ^ 32 by omega) fuel buf
      (Nat.zero_le c) (show pos + (c - 0) < 2 ^ 31 by omega) (by omega)
    have hle := hn.le
    -- the loop stops at a hole, at the end of the file or at the end of the request
    have hbytes : bytesFrom (byteAt blk disk size) pos count =
        (List.range n).map fun i => fileByte blk disk (pos + i) := by
      refine bytesFrom_eq (by omega) (fun i hi => byteAt_eq_some (by omega) (hn.mapped i hi))
        fun hlt => if_neg fun h => ?_
      rcases hle.lt_or_eq with hhole | heq
      · exact h.2 (hn.hole hhole)
      · omega
    have hret : toSsize n = n := if_pos (by omega)
    have hout : ((List.range n).map fun i =>
        if 0 ≤ i ∧ i < 0 + n then fileByte blk disk (pos + (i - 0)) else buf i) =
        (List.range n).map fun i => fileByte blk disk (pos + i) :=
      List.map_congr_left fun i hi => by
        have hi' := List.mem_range.mp hi
        rw [if_pos (by omega), Nat.sub_zero]
    rw [hrun, hbytes]
    simp only [Option.map_some, Nat.zero_add, hret, Int.toNat_natCast, List.length_map,
      List.length_range]
    rw [Nat.zero_add] at hout
    rw [hout]

theorem seek_refines {content : ℕ → Option UInt8} {offset : ℤ} (whence : ℤ)
    (hoffset : -2 ^ 63 ≤ offset) : call blk disk size fuel pos (.seek offset whence) =
      (move content size pos (.seek offset whence)).map fun r => (r.1, (r.2 : ℤ)) := by
  rw [call, move, ext2Llseek]
  rcases hfrom : seekFrom size pos whence with _ | start
  · rfl
  · have hstart : 0 ≤ start := by
      unfold seekFrom at hfrom
      split_ifs at hfrom <;> simp at hfrom <;> omega
    simp only [loff]
    by_cases hover : 2 ^ 63 ≤ start + offset
    · rw [if_neg (by omega), if_pos hover]
      rfl
    · rw [if_pos (by omega), if_neg hover]
      by_cases hneg : start + offset < 0
      · simp [hneg]
      · simp [hneg, Int.toNat_of_nonneg (Int.not_lt.mp hneg)]

/-- **An open file is a cursor over its bytes**: every run of seeks and reads gives the results of
the cursor. -/
theorem reads_refine_cursor (blk : ℕ → ℕ) (disk : ℕ → Bytes) (hsize : size < 2 ^ 31)
    (hfuel : size < fuel) (cs : List Call) (hcs : ∀ c ∈ cs, c.Typed) (pos : ℕ) :
    replies blk disk size fuel pos cs = moves (byteAt blk disk size) size pos cs := by
  induction cs generalizing pos with
  | nil => rfl
  | cons c cs ih =>
    have hcall : call blk disk size fuel pos c =
        (move (byteAt blk disk size) size pos c).map fun r => (r.1, (r.2 : ℤ)) := by
      have hc := hcs c List.mem_cons_self
      cases c with
      | seek offset whence => exact seek_refines whence hc.1
      | read buf count => exact read_refines buf hsize hc hfuel
    rw [replies, moves, hcall]
    rcases move (byteAt blk disk size) size pos c with _ | ⟨r, pos'⟩
    · rfl
    · have hrest := ih (fun c hc => hcs c (List.mem_cons_of_mem _ hc)) pos'
      simp only [Option.map_some, Option.bind_eq_bind, Option.bind_some, hrest]

/-- Two blocks, a seek into the first one and two reads. -/
theorem moves_twoBlocks :
    replies (fun j => 40 + j) numbered 1028 2000 0
      [.seek (-6) 2, .read (fun _ => 9) 3, .read (fun _ => 9) 9, .seek (-1) 0] =
      some [.seek 1022, .read 3 [40, 40, 41], .read 3 [41, 41, 41], .seek (-1)] :=
  (reads_refine_cursor (fun j => 40 + j) numbered (by norm_num) (by norm_num) _
    (by simp [Call.Typed]) 0).trans (by decide +kernel)

end YegaKernel.Fs.Ext2.Cursor
