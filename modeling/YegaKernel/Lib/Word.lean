import Mathlib.Tactic

/-! # 32-bit arithmetic

Unsigned arithmetic modulo `2 ^ 32`, on natural numbers. -/

namespace YegaKernel.Lib.Word

/-- Truncation to 32 bits. -/
def u32 (n : ℕ) : ℕ := n % 2 ^ 32

/-- Subtraction modulo `2 ^ 32`. -/
def sub32 (a b : ℕ) : ℕ := (a + (2 ^ 32 - b % 2 ^ 32)) % 2 ^ 32

theorem u32_lt (n : ℕ) : u32 n < 2 ^ 32 := Nat.mod_lt _ (by norm_num)

theorem u32_of_lt {n : ℕ} (h : n < 2 ^ 32) : u32 n = n := Nat.mod_eq_of_lt h

theorem sub32_of_le {a b : ℕ} (ha : a < 2 ^ 32) (hb : b ≤ a) : sub32 a b = a - b := by
  unfold sub32; omega

theorem u32_add_u32 (a b : ℕ) : u32 (u32 a + b) = u32 (a + b) := by
  unfold u32; omega

/-- What was added, with overflow, is taken away again. -/
theorem sub32_u32_add {a : ℕ} (ha : a < 2 ^ 32) (b : ℕ) : sub32 (u32 (a + b)) b = a := by
  unfold sub32 u32; omega

/-- The mask of the bits from `k` on. -/
def highMask (k : ℕ) : ℕ := 2 ^ 32 - 2 ^ k

theorem and_highMask {x k : ℕ} (hx : x < 2 ^ 32) (hk : k ≤ 32) :
    x &&& highMask k = x / 2 ^ k * 2 ^ k := by
  have hpos : 0 < 2 ^ k := by positivity
  have hle : 2 ^ k ≤ 2 ^ 32 := Nat.pow_le_pow_right (by norm_num) hk
  rw [highMask, show 2 ^ 32 - 2 ^ k = 2 ^ 32 - ((2 ^ k - 1) + 1) by omega,
    ← Nat.shiftRight_eq_div_pow, ← Nat.shiftLeft_eq]
  refine Nat.eq_of_testBit_eq fun i => ?_
  rw [Nat.testBit_and, Nat.testBit_shiftLeft, Nat.testBit_shiftRight,
    Nat.testBit_two_pow_sub_succ (by omega), Nat.testBit_two_pow_sub_one]
  by_cases hi : k ≤ i
  · rw [show k + (i - k) = i by omega]
    by_cases hi' : i < 32
    · simp [hi, hi']
    · -- above the word both sides have no bits
      have hbig : x < 2 ^ i := lt_of_lt_of_le hx (Nat.pow_le_pow_right (by norm_num) (by omega))
      simp [Nat.testBit_lt_two_pow hbig]
  · simp [hi, Nat.lt_of_not_le hi]

/-- `ALIGNUP` of `utils.h`, on 32 bits. -/
def alignUp (offset align : ℕ) : ℕ := u32 (offset + (align + 1)) &&& (2 ^ 32 - 1 - (align - 1))

theorem alignUp_eq (x : ℕ) {k : ℕ} (hk : k ≤ 32) :
    alignUp x (2 ^ k) = u32 (x + (2 ^ k + 1)) / 2 ^ k * 2 ^ k := by
  have hpos : 0 < 2 ^ k := by positivity
  rw [alignUp, show 2 ^ 32 - 1 - (2 ^ k - 1) = highMask k by unfold highMask; omega,
    and_highMask (u32_lt _) hk]

theorem alignUp_two_pow {x k : ℕ} (hk : k ≤ 32) (hx : x + (2 ^ k + 1) < 2 ^ 32) :
    alignUp x (2 ^ k) = (x + (2 ^ k + 1)) / 2 ^ k * 2 ^ k := by
  rw [alignUp_eq x hk, u32_of_lt hx]

theorem dvd_alignUp (x : ℕ) {k : ℕ} (hk : k ≤ 32) : 2 ^ k ∣ alignUp x (2 ^ k) := by
  rw [alignUp_eq x hk]
  exact Nat.dvd_mul_left _ _

/-! ### Rounding up -/

/-- `y` is `x` rounded up to a multiple of `a`. -/
structure RoundsUp (x a y : ℕ) : Prop where
  le : x ≤ y
  lt : y < x + a
  dvd : a ∣ y

theorem RoundsUp.le_of_dvd {x a y z : ℕ} (h : RoundsUp x a y) (hz : a ∣ z) (hx : x ≤ z) : y ≤ z := by
  obtain ⟨m, rfl⟩ := h.dvd
  obtain ⟨n, rfl⟩ := hz
  have hlt : a * m < a * (n + 1) := by
    have := h.lt
    rw [Nat.mul_add, Nat.mul_one]
    omega
  exact Nat.mul_le_mul_left a (Nat.lt_succ_iff.mp (Nat.lt_of_mul_lt_mul_left hlt))

theorem roundsUp_div_mul (x : ℕ) {a : ℕ} (ha : 0 < a) : RoundsUp x a ((x + (a - 1)) / a * a) := by
  have hmod := Nat.div_add_mod (x + (a - 1)) a
  have hlt := Nat.mod_lt (x + (a - 1)) ha
  rw [Nat.mul_comm] at hmod
  exact ⟨by omega, by omega, Nat.dvd_mul_left _ _⟩

end YegaKernel.Lib.Word
