import Mathlib.Data.Nat.Bitwise
import Mathlib.Tactic

/-! # Dyadic blocks

A dyadic block of order `k` starts at a multiple `p` of `2 ^ k` and has `2 ^ k` points. Its buddy is
the other half of the block of order `k + 1` it lies in; it starts at `p ^^^ 2 ^ k`, and the two
starts together give the start of the bigger block by a bitwise and. -/

namespace YegaKernel.Lib.Dyadic

/-- The start of the other half of the block of order `k + 1` around `p`. -/
def buddy (k p : ℕ) : ℕ := p ^^^ 2 ^ k

theorem buddy_buddy (k p : ℕ) : buddy k (buddy k p) = p := by
  unfold buddy; rw [Nat.xor_assoc, Nat.xor_self, Nat.xor_zero]

variable {k p : ℕ}

theorem buddy_ne : buddy k p ≠ p := by
  intro h
  have h2 : p ^^^ (p ^^^ 2 ^ k) = p ^^^ p := congrArg (p ^^^ ·) h
  rw [← Nat.xor_assoc, Nat.xor_self, Nat.zero_xor] at h2
  exact absurd h2 (by positivity)

theorem even_and_succ (m : ℕ) : (2 * m) &&& (2 * m + 1) = 2 * m := by
  have hd : ((2 * m) &&& (2 * m + 1)) / 2 ^ 1 = m := by
    rw [Nat.and_div_two_pow, show 2 * m / 2 ^ 1 = m by omega, show (2 * m + 1) / 2 ^ 1 = m by omega,
      Nat.and_self]
  have hm : ((2 * m) &&& (2 * m + 1)) % 2 ^ 1 = 0 := by
    rw [Nat.and_mod_two_pow, show 2 * m % 2 ^ 1 = 0 by omega, Nat.zero_and]
  omega

theorem buddy_of_lower (h : 2 ^ (k + 1) ∣ p) : buddy k p = p + 2 ^ k ∧ p &&& buddy k p = p := by
  obtain ⟨m, rfl⟩ := h
  have hp : 2 ^ (k + 1) * m = (2 * m) <<< k := by rw [Nat.shiftLeft_eq]; ring
  have hb : buddy k (2 ^ (k + 1) * m) = (2 * m + 1) <<< k := by
    unfold buddy
    rw [hp, ← Nat.one_shiftLeft, ← Nat.shiftLeft_xor_distrib,
      Nat.xor_one_of_even (even_two_mul m)]
  rw [hb]
  refine ⟨by rw [Nat.shiftLeft_eq]; ring, ?_⟩
  rw [hp, ← Nat.shiftLeft_and_distrib, even_and_succ]

theorem lower_or_upper (h : 2 ^ k ∣ p) :
    2 ^ (k + 1) ∣ p ∨ ∃ r, 2 ^ (k + 1) ∣ r ∧ p = r + 2 ^ k := by
  obtain ⟨q, rfl⟩ := h
  rcases Nat.even_or_odd' q with ⟨m, rfl | rfl⟩
  · exact Or.inl ⟨m, by ring⟩
  · exact Or.inr ⟨2 ^ (k + 1) * m, Dvd.intro _ rfl, by ring⟩

/-- **Merging**: a block and its buddy are the two halves of the block that starts at the and of
their starts. -/
theorem merge (h : 2 ^ k ∣ p) : 2 ^ (k + 1) ∣ p &&& buddy k p ∧
      ((p &&& buddy k p = p ∧ buddy k p = p + 2 ^ k) ∨
        (p &&& buddy k p = buddy k p ∧ p = buddy k p + 2 ^ k)) := by
  rcases lower_or_upper h with hl | ⟨r, hr, rfl⟩
  · obtain ⟨h1, h2⟩ := buddy_of_lower hl
    rw [h2]
    exact ⟨hl, Or.inl ⟨rfl, h1⟩⟩
  · obtain ⟨h1, h2⟩ := buddy_of_lower hr
    have hb : buddy k (r + 2 ^ k) = r := by rw [← h1, buddy_buddy]
    have ha : (r + 2 ^ k) &&& r = r := by rw [← h1, Nat.and_comm]; exact h2
    rw [hb, ha]
    exact ⟨hr, Or.inr ⟨rfl, rfl⟩⟩

theorem buddy_upper (h : 2 ^ (k + 1) ∣ p) : buddy k (p + 2 ^ k) = p := by
  rw [← (buddy_of_lower h).1, buddy_buddy]

theorem le_of_lt_add_of_dvd {a b : ℕ} (ha : 2 ^ k ∣ a) (hb : 2 ^ k ∣ b) (h : a < b + 2 ^ k) :
    a ≤ b := by
  obtain ⟨m, rfl⟩ := ha
  obtain ⟨n, rfl⟩ := hb
  exact Nat.mul_le_mul_left _ (Nat.le_of_lt_succ (Nat.lt_of_mul_lt_mul_left h))

/-- **Two dyadic blocks with a point in common are nested.** -/
theorem nested {j q x : ℕ} (hp : 2 ^ k ∣ p) (hq : 2 ^ j ∣ q) (hkj : k ≤ j) (hpx : p ≤ x)
    (hxp : x < p + 2 ^ k) (hqx : q ≤ x) (hxq : x < q + 2 ^ j) : q ≤ p ∧ p + 2 ^ k ≤ q + 2 ^ j := by
  have hdvd : 2 ^ k ∣ 2 ^ j := Nat.pow_dvd_pow 2 hkj
  have hq' : 2 ^ k ∣ q := hdvd.trans hq
  refine ⟨le_of_lt_add_of_dvd hq' hp (by omega), ?_⟩
  exact le_of_lt_add_of_dvd (hp.add dvd_rfl) (hq'.add hdvd) (by omega)

/-! ### Blocks by their number -/

theorem div_buddy_ne (k p : ℕ) : buddy k p / 2 ^ k ≠ p / 2 ^ k := by
  intro h
  rw [buddy, Nat.xor_div_two_pow, Nat.div_self (by positivity)] at h
  have hbit : (p / 2 ^ k ^^^ 1).testBit 0 = (p / 2 ^ k).testBit 0 := by rw [h]
  rw [Nat.testBit_xor] at hbit
  simp at hbit

theorem div_succ_buddy (k p : ℕ) : buddy k p / 2 ^ (k + 1) = p / 2 ^ (k + 1) := by
  rw [buddy, Nat.xor_div_two_pow, Nat.div_eq_of_lt (Nat.pow_lt_pow_succ (by norm_num)),
    Nat.xor_zero]

theorem div_succ_and_buddy (k p : ℕ) : (p &&& buddy k p) / 2 ^ (k + 1) = p / 2 ^ (k + 1) := by
  rw [Nat.and_div_two_pow, div_succ_buddy, Nat.and_self]

/-- What is in different blocks of order `k + 1` is in different blocks of order `k`. -/
theorem div_ne_of_div_succ_ne {q : ℕ} (h : q / 2 ^ (k + 1) ≠ p / 2 ^ (k + 1)) :
    q / 2 ^ k ≠ p / 2 ^ k := by
  intro heq
  rw [pow_succ, ← Nat.div_div_eq_div_mul, ← Nat.div_div_eq_div_mul, heq] at h
  exact h rfl

end YegaKernel.Lib.Dyadic
