import YegaKernel.Lib.Bytes
import YegaKernel.Lib.Word

/-! # Moving memory

`memmove` of `string.c` on a memory of bytes, with 32-bit addresses. It copies in reverse if `dest`
lies below the end of the source, which is the wrong way round when `dest` is also below `src` and
the ranges overlap: a byte is then read after the copy has written to it.

`memmove_moves_iff`: for ranges that do not wrap the result is right exactly if that overlap does not
occur, or the source repeats itself with the distance of the two ranges. -/

namespace YegaKernel.Kernel.Memmove

open Lib.Bytes Lib.Word Function

/-- `dest_p[i] = src_p[i]`. -/
def copyByte (dest src : ℕ) (m : ℕ → UInt8) (i : ℕ) : ℕ → UInt8 :=
  update m (u32 (dest + i)) (m (u32 (src + i)))

/-- `for (i = n; i > 0; i--) dest_p[i - 1] = src_p[i - 1]`. -/
def copyReverse (dest src : ℕ) : ℕ → (ℕ → UInt8) → ℕ → UInt8
  | 0, m => m
  | i + 1, m => copyReverse dest src i (copyByte dest src m i)

/-- `for (i = 0; i < n; i++) dest_p[i] = src_p[i]`. -/
def copyNormally (dest src n : ℕ) (m : ℕ → UInt8) : ℕ → UInt8 :=
  (List.range n).foldl (copyByte dest src) m

/-- The pointer it returns, and the memory. -/
def memmove (m : ℕ → UInt8) (dest src n : ℕ) : ℕ × (ℕ → UInt8) :=
  if dest < u32 (src + n) then (dest, copyReverse dest src n m)
  else (dest, copyNormally dest src n m)

/-! ### The two loops -/

section Loops
variable {dest src n : ℕ}

theorem copyByte_eq {i : ℕ} (hd : dest + n ≤ 2 ^ 32) (hs : src + n ≤ 2 ^ 32) (hi : i < n)
    (m : ℕ → UInt8) : copyByte dest src m i = update m (dest + i) (m (src + i)) := by
  unfold copyByte
  rw [u32_of_lt (by omega), u32_of_lt (by omega)]

theorem copyNormally_eq (hd : dest + n ≤ 2 ^ 32) (hs : src + n ≤ 2 ^ 32)
    (h : dest ≤ src ∨ src + n ≤ dest) (m : ℕ → UInt8) :
    copyNormally dest src n m = copy m dest n (view m src) := by
  -- after `j` rounds the first `j` bytes are copied
  suffices hj : ∀ j ≤ n, (List.range j).foldl (copyByte dest src) m = copy m dest j (view m src) from
    hj n le_rfl
  intro j
  induction j with
  | zero =>
    intro _
    funext a
    exact (copy_of_not_mem (by omega)).symm
  | succ j ih =>
    intro hj
    have hread : copy m dest j (view m src) (src + j) = m (src + j) := copy_of_not_mem (by omega)
    rw [List.range_succ, List.foldl_append, ih (by omega), List.foldl_cons, List.foldl_nil,
      copyByte_eq hd hs (by omega), hread]
    funext a
    by_cases ha : a = dest + j
    · subst ha
      rw [update_self, copy_of_mem (Nat.lt_succ_self j)]
      rfl
    · rw [update_of_ne ha]
      unfold copy
      have hiff : (dest ≤ a ∧ a < dest + (j + 1)) ↔ (dest ≤ a ∧ a < dest + j) := by omega
      simp only [hiff]

/-- **In reverse**: a byte is copied from the memory before the loop, unless its source is a byte
that the loop has written before; then it gets what that byte got. -/
theorem copyReverse_spec {N : ℕ} (hd : dest + N ≤ 2 ^ 32) (hs : src + N ≤ 2 ^ 32) :
    ∀ n ≤ N, ∀ m : ℕ → UInt8, (∀ a, a < dest ∨ dest + n ≤ a → copyReverse dest src n m a = m a) ∧
      ∀ i < n, copyReverse dest src n m (dest + i) =
        if dest < src ∧ src + i < dest + n then copyReverse dest src n m (src + i)
        else m (src + i) := by
  intro n
  induction n with
  | zero => exact fun _ m => ⟨fun _ _ => rfl, fun i hi => absurd hi (Nat.not_lt_zero i)⟩
  | succ n ih =>
    intro hn m
    obtain ⟨hframe, hcopy⟩ := ih (by omega) (copyByte dest src m n)
    have hlast : copyReverse dest src (n + 1) m (dest + n) = m (src + n) := by
      rw [copyReverse, hframe _ (by omega), copyByte_eq hd hs (by omega), update_self]
    refine ⟨fun a ha => ?_, fun i hi => ?_⟩
    · rw [copyReverse, hframe a (by omega), copyByte_eq hd hs (by omega),
        update_of_ne (by omega)]
    · by_cases hin : i = n
      · subst hin
        rw [if_neg (by omega), hlast]
      · have hround := hcopy i (by omega)
        rw [copyReverse, hround]
        by_cases hw : dest < src ∧ src + i < dest + n
        · rw [if_pos hw, if_pos (by omega)]
        · rw [if_neg hw]
          by_cases heq : src + i = dest + n
          · -- the byte is the one written in the first round
            rw [if_pos (by omega), heq]
            exact (hframe _ (by omega)).symm
          · rw [if_neg (by omega), copyByte_eq hd hs (by omega), update_of_ne heq]

end Loops

/-! ### Moving -/

/-- **The bytes at `src` have been moved to `dest`**, and nothing else is written. -/
structure Moved (m m' : ℕ → UInt8) (dest src n : ℕ) : Prop where
  copied : ∀ i < n, m' (dest + i) = m (src + i)
  frame : ∀ a, a < dest ∨ dest + n ≤ a → m' a = m a

theorem moved_copy (m : ℕ → UInt8) (dest src n : ℕ) :
    Moved m (copy m dest n (view m src)) dest src n :=
  ⟨fun _ hi => copy_of_mem hi, fun _ ha => copy_of_not_mem ha⟩

/-- The source repeats itself with the distance of the ranges, as far as the overlap goes. -/
def Repeats (m : ℕ → UInt8) (dest src n : ℕ) : Prop :=
  ∀ i, i + (src - dest) < n → m (src + i) = m (src + i + (src - dest))

theorem moved_copyReverse_iff {m : ℕ → UInt8} {dest src n : ℕ} (hd : dest + n ≤ 2 ^ 32)
    (hs : src + n ≤ 2 ^ 32) : Moved m (copyReverse dest src n m) dest src n ↔
      (dest < src → Repeats m dest src n) := by
  obtain ⟨hframe, hcopy⟩ := copyReverse_spec hd hs n le_rfl m
  generalize copyReverse dest src n m = m' at hframe hcopy ⊢
  -- the source of byte `i` is the destination of byte `i + (src - dest)`
  have hshift : ∀ i, dest < src → src + i = dest + (i + (src - dest)) := fun i h => by omega
  constructor
  · intro h hlt i hi
    calc m (src + i) = m' (dest + i) := (h.copied i (by omega)).symm
      _ = m' (src + i) := by rw [hcopy i (by omega), if_pos (by omega)]
      _ = m' (dest + (i + (src - dest))) := by rw [hshift i hlt]
      _ = m (src + i + (src - dest)) := by rw [h.copied _ hi, Nat.add_assoc]
  · intro h
    refine ⟨fun i hi => ?_, hframe⟩
    -- from the last byte downwards
    induction hk : n - i using Nat.strong_induction_on generalizing i with
    | _ k ih =>
      rw [hcopy i hi]
      by_cases hw : dest < src ∧ src + i < dest + n
      · have hlt : i + (src - dest) < n := by omega
        rw [if_pos hw, hshift i hw.1, ih (n - (i + (src - dest))) (by omega) _ hlt rfl,
          ← Nat.add_assoc, ← h hw.1 i hlt]
        congr 1
        omega
      · rw [if_neg hw]

/-- **When `memmove` is right**, for ranges that do not wrap: unless `dest` lies below `src` and the
ranges overlap, short of the end of the address space; or if the source repeats itself there. -/
theorem memmove_moves_iff (m : ℕ → UInt8) (dest src n : ℕ) (hd : dest + n ≤ 2 ^ 32)
    (hs : src + n ≤ 2 ^ 32) : Moved m (memmove m dest src n).2 dest src n ↔
      (dest < src → src < dest + n → src + n < 2 ^ 32 → Repeats m dest src n) := by
  unfold memmove
  by_cases hend : src + n < 2 ^ 32
  · rw [u32_of_lt hend]
    by_cases hrev : dest < src + n
    · rw [if_pos hrev, moved_copyReverse_iff hd hs]
      constructor
      · exact fun h hlt _ _ => h hlt
      · intro h hlt i hi
        exact h hlt (by omega) hend i hi
    · rw [if_neg hrev, copyNormally_eq hd hs (by omega)]
      exact iff_of_true (moved_copy m dest src n) fun hlt => by omega
  · -- the end of the source wraps to 0, so that the copy starts at the front
    have hzero : u32 (src + n) = 0 := by
      unfold u32
      omega
    rw [hzero, if_neg (Nat.not_lt_zero dest), copyNormally_eq hd hs (by omega)]
    exact iff_of_true (moved_copy m dest src n) fun _ _ hlt => absurd hlt hend

/-- A move upwards, by one byte, of bytes that are all different. -/
theorem memmove_up : Moved UInt8.ofNat (memmove UInt8.ofNat 17 16 2).2 17 16 2 :=
  (memmove_moves_iff UInt8.ofNat 17 16 2 (by norm_num) (by norm_num)).mpr fun hlt => by omega

/-- The same move downwards: both bytes become the second one. -/
theorem memmove_down : (memmove UInt8.ofNat 16 17 2).2 16 = 18 ∧
    ¬ Moved UInt8.ofNat (memmove UInt8.ofNat 16 17 2).2 16 17 2 := by
  have hbyte : (memmove UInt8.ofNat 16 17 2).2 16 = 18 := by decide
  refine ⟨hbyte, fun h => ?_⟩
  have hcopied := h.copied 0 (by norm_num)
  rw [Nat.add_zero, hbyte] at hcopied
  exact absurd hcopied (by decide)

end YegaKernel.Kernel.Memmove
