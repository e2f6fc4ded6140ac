import YegaKernel.Fs.Ext2.Balloc

/-! # The bits of a bitmap as cells

Sequences of `set_bit` and `unset_bit` calls. `set_bit` sets a bit whatever it was, `unset_bit` inverts
it, so that clearing a bit that is clear sets it: after a number of calls the bit has the value that
the last `set_bit` gave it (or the one it had at first), inverted once for every `unset_bit` since
(`bit_runCalls`).

* `independentCells_iff` : when every bit is what the last call that names it says;
* `rmdir_then_free` : an inode that is freed twice is in use again. -/

namespace YegaKernel.Fs.Ext2.BitCells

open Lib.Bytes Lib.Word
open Fs.Disk (Bytes)
open Fs.Ext2.Layout Fs.Ext2.Balloc Function

/-- A call of `set_bit` or of `unset_bit`. -/
inductive BitCall
  | set (i : ℕ)
  | unset (i : ℕ)
  deriving DecidableEq, Repr

def BitCall.index : BitCall → ℕ
  | .set i => i
  | .unset i => i

def BitCall.run (bitmap : Bytes) : BitCall → Bytes
  | .set i => setBit bitmap i
  | .unset i => unsetBit bitmap i

/-- The bitmap after the calls. -/
def runCalls (bitmap : Bytes) (calls : List BitCall) : Bytes := calls.foldl BitCall.run bitmap

/-! ### What the bits ought to be -/

/-- The last call that names the index. -/
def lastCall (calls : List BitCall) (i : ℕ) : Option BitCall :=
  calls.reverse.find? fun c => c.index = i

/-- The value of the cell `i`: as the last call that names it says, and as before without one. -/
def cell (calls : List BitCall) (i : ℕ) (before : Bool) : Bool :=
  match lastCall calls i with
  | none => before
  | some (.set _) => true
  | some (.unset _) => false

/-- **The bits are independent cells** for these calls. -/
def IndependentCells (bitmap : Bytes) (calls : List BitCall) : Prop :=
  ∀ i, bit (runCalls bitmap calls) i = cell calls i (bit bitmap i)

/-- The number of `unset_bit` calls with the index since the last `set_bit` with it. -/
def unsetsSince (i : ℕ) (calls : List BitCall) : ℕ :=
  calls.foldl (fun n c => if c = .set i then 0 else if c = .unset i then n + 1 else n) 0

/-! ### What the bits are -/

section Calls
variable (calls : List BitCall) (i : ℕ)

theorem runCalls_concat (bitmap : Bytes) (c : BitCall) :
    runCalls bitmap (calls ++ [c]) = c.run (runCalls bitmap calls) := by
  rw [runCalls, List.foldl_append, List.foldl_cons, List.foldl_nil]
  rfl

theorem unsetsSince_concat (c : BitCall) : unsetsSince i (calls ++ [c]) =
    if c = .set i then 0 else if c = .unset i then unsetsSince i calls + 1
    else unsetsSince i calls := by
  rw [unsetsSince, List.foldl_append, List.foldl_cons, List.foldl_nil]
  rfl

theorem lastCall_concat (c : BitCall) :
    lastCall (calls ++ [c]) i = if c.index = i then some c else lastCall calls i := by
  rw [lastCall, List.reverse_append, List.reverse_singleton, List.singleton_append, List.find?_cons]
  by_cases h : c.index = i
  · simp [h]
  · simp [h, lastCall]

theorem bit_runCalls (bitmap : Bytes) : bit (runCalls bitmap calls) i =
    ((bit bitmap i || decide (BitCall.set i ∈ calls)) ^^ decide (unsetsSince i calls % 2 = 1)) := by
  induction calls using List.reverseRecOn with
  | nil => simp [runCalls, unsetsSince]
  | append_singleton calls c ih =>
    rw [runCalls_concat, unsetsSince_concat]
    cases c with
    | set k =>
      rw [BitCall.run, bit_setBit, ih]
      by_cases h : i = k
      · subst h
        simp
      · have hk : BitCall.set k ≠ BitCall.set i := fun heq => h (BitCall.set.inj heq).symm
        simp [h, Ne.symm hk, hk]
    | unset k =>
      rw [BitCall.run, bit_unsetBit, ih]
      by_cases h : i = k
      · subst h
        have hodd : decide ((unsetsSince i calls + 1) % 2 = 1) =
            !decide (unsetsSince i calls % 2 = 1) := by
          rw [← decide_not, decide_eq_decide]
          omega
        simp [hodd]
      · have hk : BitCall.unset k ≠ BitCall.unset i := fun heq => h (BitCall.unset.inj heq).symm
        simp [h, hk]

/-- The last call is an `unset_bit` if one came since the last `set_bit`; otherwise it is a
`set_bit`, or there is none. -/
theorem cell_eq (before : Bool) : cell calls i before =
    ((before || decide (BitCall.set i ∈ calls)) && decide (unsetsSince i calls = 0)) := by
  induction calls using List.reverseRecOn with
  | nil => simp [cell, lastCall, unsetsSince]
  | append_singleton calls c ih =>
    have hstep := lastCall_concat calls i c
    rw [unsetsSince_concat]
    cases c with
    | set k =>
      by_cases h : k = i
      · subst h
        simp [cell, hstep, BitCall.index]
      · have hk : BitCall.set i ≠ BitCall.set k := fun heq => h (BitCall.set.inj heq).symm
        rw [BitCall.index, if_neg h] at hstep
        rw [cell, hstep, ← cell, ih]
        simp [hk, Ne.symm hk]
    | unset k =>
      by_cases h : k = i
      · subst h
        simp [cell, hstep, BitCall.index]
      · have hk : BitCall.unset k ≠ BitCall.unset i := fun heq => h (BitCall.unset.inj heq)
        rw [BitCall.index, if_neg h] at hstep
        rw [cell, hstep, ← cell, ih]
        simp [hk]

end Calls

/-- **When the bits are independent cells**: for every index that `unset_bit` was called with since
the last `set_bit`, the number of these calls has to be odd if the bit was set at first or by a call,
and even if it was not. -/
theorem independentCells_iff (bitmap : Bytes) (calls : List BitCall) :
    IndependentCells bitmap calls ↔ ∀ i, unsetsSince i calls ≠ 0 →
      (unsetsSince i calls % 2 = 1 ↔ bit bitmap i = true ∨ BitCall.set i ∈ calls) := by
  unfold IndependentCells
  refine forall_congr' fun i => ?_
  rw [bit_runCalls, cell_eq]
  by_cases h0 : unsetsSince i calls = 0
  · simp [h0]
  · by_cases hodd : unsetsSince i calls % 2 = 1 <;> by_cases hset : BitCall.set i ∈ calls <;>
      cases bit bitmap i <;> simp [h0, hodd, hset]

/-- A bit that is set once and cleared twice is set. -/
theorem unset_twice_sets :
    bit (runCalls (fun _ => 0) [.set 5, .unset 5, .unset 5]) 5 = true ∧
      ¬ IndependentCells (fun _ => 0) [.set 5, .unset 5, .unset 5] := by
  have hbit : bit (runCalls (fun _ => 0) [.set 5, .unset 5, .unset 5]) 5 = true := by decide
  refine ⟨hbit, fun h => ?_⟩
  have hcell := h 5
  rw [hbit] at hcell
  exact absurd hcell (by decide)

/-! ### Freeing an inode twice -/

/-- `ext2_free_inode`, of the inode with this number. -/
def ext2FreeInode (s : Volume) : Option ℕ → Option Volume
  | none => some s
  | some iNo => unsetInodeBitmap s iNo

/-- `ext2_rmdir`; the number is that of the inode of the dentry, if the pointers to them are not
null. -/
def ext2Rmdir (s : Volume) : Option ℕ → Option (ℤ × Volume)
  | none => some (-1, s)
  | some inodeNum => (unsetInodeBitmap s inodeNum).map fun s => (0, s)

theorem unsetBit_unsetBit (bitmap : Bytes) (i : ℕ) : unsetBit (unsetBit bitmap i) i = bitmap := by
  unfold unsetBit
  rw [update_self, update_idem, UInt8.xor_assoc, UInt8.xor_self, UInt8.xor_zero,
    update_eq_self]

/-- The block and the bit of an inode, by the superblock and the descriptors. -/
def inodeBitAt (s : Volume) (n : ℕ) : Option (ℕ × ℕ) :=
  if sInodesPerGroup s.super = 0 then none
  else (s.desc (sub32 n 1 / sInodesPerGroup s.super % 2 ^ 16)).map fun d =>
    (bgInodeBitmap d, sub32 n 1 % sInodesPerGroup s.super % 2 ^ 16)

theorem markInode_eq_bind (s : Volume) (n : ℕ) (val : Bool) :
    markInode s n val = (inodeBitAt s n).bind fun r => markBit s r.1 r.2 val := by
  unfold markInode inodeBitAt
  split_ifs
  · rfl
  · cases s.desc (sub32 n 1 / sInodesPerGroup s.super % 2 ^ 16) with
    | none => rfl
    | some d => rfl

theorem unsetInodeBitmap_inv {s s₁ : Volume} {n : ℕ} (h : unsetInodeBitmap s n = some s₁) :
    ∃ blk k, inodeBitAt s n = some (blk, k) ∧ k < 8 * blkSize ∧
      s₁ = { s with disk := update s.disk blk (unsetBit (s.disk blk) k) } := by
  rw [unsetInodeBitmap, markInode_eq_bind] at h
  obtain ⟨⟨blk, k⟩, hat, hmark⟩ := Option.bind_eq_some_iff.mp h
  refine ⟨blk, k, hat, ?_⟩
  rw [markBit] at hmark
  by_cases hk : k < 8 * blkSize
  · rw [if_pos hk] at hmark
    exact ⟨hk, (Option.some.inj hmark).symm⟩
  · rw [if_neg hk] at hmark
    cases hmark

/-- **An inode that is removed and then freed is as it was**: in use again. -/
theorem rmdir_then_free {s s₁ s₂ : Volume} {n : ℕ} {r : ℤ} (h₁ : ext2Rmdir s (some n) = some (r, s₁))
    (h₂ : ext2FreeInode s₁ (some n) = some s₂) : s₂ = s := by
  obtain ⟨t, ht, heq⟩ := Option.map_eq_some_iff.mp h₁
  obtain ⟨rfl, rfl⟩ := Prod.mk.inj heq
  obtain ⟨blk, k, hat, -, rfl⟩ := unsetInodeBitmap_inv ht
  obtain ⟨blk', k', hat', -, rfl⟩ := unsetInodeBitmap_inv h₂
  -- the place of the bit does not depend on the disk
  obtain ⟨rfl, rfl⟩ := Prod.mk.inj (Option.some.inj (hat.symm.trans hat'))
  simp only [update_self, update_idem, unsetBit_unsetBit, update_eq_self]

end YegaKernel.Fs.Ext2.BitCells
