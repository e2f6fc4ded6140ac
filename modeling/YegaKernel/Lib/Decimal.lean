import Mathlib.Data.Nat.Digits.Defs
import Mathlib.Tactic

/-! # Decimal numbers in characters

`Denotes out v`: the characters are the decimal representation of the integer `v`, with a minus sign
if it is negative and without leading zeros. The digits of a number in their order
(`decimalChars`) denote it. -/

namespace YegaKernel.Lib.Decimal

/-- The value of a row of digits. -/
def digitsValue (l : List UInt8) : ℕ := l.foldl (fun v c => 10 * v + (c.toNat - 48)) 0

/-- **The characters denote the integer**: a row of digits, without a leading zero unless it is the
whole number, behind a minus sign if the number is negative. -/
def Denotes (out : List UInt8) (v : ℤ) : Prop :=
  ∃ digits : List UInt8, digits ≠ [] ∧ (∀ c ∈ digits, 48 ≤ c ∧ c ≤ 57) ∧
    (digits.head? = some 48 → digits = [48]) ∧
    (out = digits ∧ v = digitsValue digits ∨ out = 45 :: digits ∧ v = -digitsValue digits ∧ v ≠ 0)

/-- The character of a digit. -/
def digitChar (d : ℕ) : UInt8 := UInt8.ofNat (48 + d)

/-- The digits of the number, the highest first; none for 0. -/
def decimalChars (n : ℕ) : List UInt8 := ((Nat.digits 10 n).map digitChar).reverse

theorem toNat_digitChar {d : ℕ} (h : d < 10) : (digitChar d).toNat = 48 + d := by
  rw [digitChar, UInt8.toNat_ofNat']
  omega

theorem digitsValue_reverse : ∀ {ds : List ℕ}, (∀ d ∈ ds, d < 10) →
    digitsValue (ds.map digitChar).reverse = Nat.ofDigits 10 ds
  | [], _ => rfl
  | d :: ds, h => by
    have ih := digitsValue_reverse fun e he => h e (List.mem_cons_of_mem d he)
    unfold digitsValue at ih ⊢
    rw [List.map_cons, List.reverse_cons, List.foldl_append, ih, List.foldl_cons, List.foldl_nil,
      toNat_digitChar (h d List.mem_cons_self), Nat.ofDigits_cons]
    omega

theorem digitsValue_decimalChars (n : ℕ) : digitsValue (decimalChars n) = n := by
  rw [decimalChars, digitsValue_reverse fun d hd => Nat.digits_lt_base (by norm_num) hd,
    Nat.ofDigits_digits]

theorem decimalChars_spec {n : ℕ} (h : 0 < n) : decimalChars n ≠ [] ∧
    (∀ c ∈ decimalChars n, 48 ≤ c ∧ c ≤ 57) ∧ (decimalChars n).head? ≠ some 48 := by
  have hne : Nat.digits 10 n ≠ [] := Nat.digits_ne_nil_iff_ne_zero.mpr (by omega)
  refine ⟨by simpa [decimalChars] using hne, fun c hc => ?_, fun hhead => ?_⟩
  · rw [decimalChars, List.mem_reverse, List.mem_map] at hc
    obtain ⟨d, hd, rfl⟩ := hc
    have hlt : d < 10 := Nat.digits_lt_base (by norm_num) hd
    rw [UInt8.le_iff_toNat_le, UInt8.le_iff_toNat_le, toNat_digitChar hlt]
    exact ⟨Nat.le_add_right 48 d, show 48 + d ≤ 57 by omega⟩
  · -- the highest digit is not 0
    rw [decimalChars, List.head?_reverse, List.getLast?_map, List.getLast?_eq_some_getLast hne,
      Option.map_some, Option.some.injEq] at hhead
    have hlast := Nat.getLast_digit_ne_zero 10 (show n ≠ 0 by omega)
    have hlt : (Nat.digits 10 n).getLast hne < 10 :=
      Nat.digits_lt_base (by norm_num) (List.getLast_mem hne)
    have hval : (digitChar ((Nat.digits 10 n).getLast hne)).toNat = 48 := by rw [hhead]; rfl
    rw [toNat_digitChar hlt] at hval
    omega

theorem denotes_zero : Denotes [48] 0 := by
  refine ⟨[48], List.cons_ne_nil _ _, fun c hc => ?_, fun _ => rfl, .inl ⟨rfl, rfl⟩⟩
  rw [List.mem_singleton] at hc
  rw [hc, UInt8.le_iff_toNat_le, UInt8.le_iff_toNat_le]
  exact ⟨le_rfl, show 48 ≤ 57 by norm_num⟩

theorem denotes_decimalChars {n : ℕ} (h : 0 < n) : Denotes (decimalChars n) n := by
  obtain ⟨hne, hdigits, hhead⟩ := decimalChars_spec h
  exact ⟨_, hne, hdigits, fun h0 => absurd h0 hhead, .inl ⟨rfl, by rw [digitsValue_decimalChars]⟩⟩

theorem denotes_neg_decimalChars {n : ℕ} (h : 0 < n) : Denotes (45 :: decimalChars n) (-n) := by
  obtain ⟨hne, hdigits, hhead⟩ := decimalChars_spec h
  exact ⟨_, hne, hdigits, fun h0 => absurd h0 hhead,
    .inr ⟨rfl, by rw [digitsValue_decimalChars], by omega⟩⟩

theorem Denotes.of_minus {out : List UInt8} {v : ℤ} (h : Denotes (45 :: out) v) :
    out ≠ [] ∧ v < 0 := by
  obtain ⟨digits, hne, hdigits, -, ⟨rfl, -⟩ | ⟨heq, hv, h0⟩⟩ := h
  · exact absurd (hdigits 45 List.mem_cons_self).1 (by decide)
  · refine ⟨by rwa [(List.cons.inj heq).2], ?_⟩
    omega

end YegaKernel.Lib.Decimal
