import YegaKernel.Lib.Strings
import Mathlib.Data.List.Lex

/-! # Comparing strings

`strcmp` and `strncmp` of `string.c`. The memory is a partial function: a byte that may not be read is
`none`, and a call that reads one has no result. So a result that does not depend on the bytes behind
the terminator, or behind the first `n` bytes, is a result for which these are not read.

Both return the difference of the first bytes that differ (`difference`), which has the sign of the
lexicographic order; the results are put together in `comparison_lexicographic`. -/

namespace YegaKernel.Kernel.Strcmp

open Lib.Strings

/-- A memory, part of which can be read. -/
abbrev Memory : Type := ℕ → Option UInt8

/-- `strcmp`, with a bound for the rounds of its loop. -/
def strcmp (m : Memory) : ℕ → ℕ → ℕ → Option ℤ
  | 0, _, _ => none
  | fuel + 1, s1, s2 => do
    let c1 ← m s1
    let c2 ← m s2
    if c1 ≠ 0 ∧ c1 = c2 then strcmp m fuel (s1 + 1) (s2 + 1)
    else some (c1.toNat - c2.toNat)

/-- The loop of `strncmp`, which counts `n` down. -/
def strncmpLoop (m : Memory) : ℕ → ℕ → ℕ → Option ℤ
  | 0, s1, s2 => do
    let c1 ← m s1
    let c2 ← m s2
    some (c1.toNat - c2.toNat)
  | n + 1, s1, s2 => do
    let c1 ← m s1
    let c2 ← m s2
    if c1 ≠ 0 ∧ c1 = c2 then
      if n = 0 then some 0 else strncmpLoop m n (s1 + 1) (s2 + 1)
    else some (c1.toNat - c2.toNat)

def strncmp (m : Memory) (s1 s2 n : ℕ) : Option ℤ := if n = 0 then some 0 else strncmpLoop m n s1 s2

/-! ### The difference of two strings -/

/-- The difference of the first bytes in which two strings differ; a string that ends has a zero
there. -/
def difference : List UInt8 → List UInt8 → ℤ
  | [], [] => 0
  | [], b :: _ => 0 - b.toNat
  | a :: _, [] => a.toNat - 0
  | a :: s, b :: t => if a = b then difference s t else a.toNat - b.toNat

theorem difference_swap : ∀ s t : List UInt8, difference t s = -difference s t
  | [], [] => rfl
  | [], b :: t => by
    rw [difference, difference]
    omega
  | a :: s, [] => by
    rw [difference, difference]
    omega
  | a :: s, b :: t => by
    rw [difference, difference]
    by_cases h : a = b
    · rw [if_pos h.symm, if_pos h, difference_swap s t]
    · rw [if_neg (Ne.symm h), if_neg h]
      omega

theorem toNat_pos {c : UInt8} (h : c ≠ 0) : 0 < c.toNat := by
  rw [Nat.pos_iff_ne_zero, ← UInt8.toNat_zero]
  exact fun heq => h (UInt8.toNat_inj.mp heq)

theorem difference_eq_zero_iff : ∀ {s t : List UInt8}, 0 ∉ s → 0 ∉ t →
    (difference s t = 0 ↔ s = t)
  | [], [], _, _ => by simp [difference]
  | [], b :: t, _, ht => by
    have := toNat_pos (c := b) fun h => ht (by simp [h])
    rw [difference]
    constructor
    · omega
    · simp
  | a :: s, [], hs, _ => by
    have := toNat_pos (c := a) fun h => hs (by simp [h])
    rw [difference]
    constructor
    · omega
    · simp
  | a :: s, b :: t, hs, ht => by
    rw [List.mem_cons, not_or] at hs ht
    rw [difference, List.cons.injEq]
    by_cases h : a = b
    · rw [if_pos h, difference_eq_zero_iff hs.2 ht.2, and_iff_right h]
    · have hne : a.toNat ≠ b.toNat := fun heq => h (UInt8.toNat_inj.mp heq)
      rw [if_neg h]
      constructor
      · omega
      · exact fun heq => absurd heq.1 h

/-- **The difference has the sign of the lexicographic order.** -/
theorem difference_neg_iff : ∀ {s t : List UInt8}, 0 ∉ t → (difference s t < 0 ↔ s < t)
  | [], [], _ => by simp [difference]
  | [], b :: t, ht => by
    have := toNat_pos (c := b) fun h => ht (by simp [h])
    rw [difference]
    constructor
    · exact fun _ => List.nil_lt_cons b t
    · omega
  | a :: s, [], _ => by
    rw [difference]
    constructor
    · omega
    · exact fun h => absurd h (List.not_lt_nil _)
  | a :: s, b :: t, ht => by
    rw [List.mem_cons, not_or] at ht
    rw [difference, List.cons_lt_cons_iff, UInt8.lt_iff_toNat_lt]
    by_cases h : a = b
    · rw [if_pos h, difference_neg_iff ht.2, h]
      simp
    · rw [if_neg h]
      simp only [h, false_and, or_false]
      omega

theorem difference_take : ∀ {n : ℕ} {s t : List UInt8}, min s.length t.length < n →
    difference (s.take n) (t.take n) = difference s t
  | 0, _, _, h => by omega
  | n + 1, [], [], _ => by rw [List.take_nil]
  | n + 1, [], b :: t, _ => by rw [List.take_nil, List.take_succ_cons, difference, difference]
  | n + 1, a :: s, [], _ => by rw [List.take_nil, List.take_succ_cons, difference, difference]
  | n + 1, a :: s, b :: t, h => by
    rw [List.length_cons, List.length_cons] at h
    rw [List.take_succ_cons, List.take_succ_cons, difference, difference,
      difference_take (show min s.length t.length < n by omega)]

/-! ### The calls -/

/-- The memory at `p` holds these bytes. -/
def Holds (m : Memory) (p : ℕ) (l : List UInt8) : Prop :=
  ∀ (i : ℕ) (h : i < l.length), m (p + i) = some l[i]

instance (m : Memory) (p : ℕ) (l : List UInt8) : Decidable (Holds m p l) := by
  unfold Holds
  infer_instance

variable {m : Memory} {p : ℕ}

theorem holds_cons {c : UInt8} {l : List UInt8} :
    Holds m p (c :: l) ↔ m p = some c ∧ Holds m (p + 1) l := by
  constructor
  · intro h
    refine ⟨h 0 (by simp), fun i hi => ?_⟩
    have hi' := h (i + 1) (by simpa using hi)
    rw [Nat.add_assoc, Nat.add_comm 1, hi', List.getElem_cons_succ]
  · rintro ⟨h0, h⟩ i hi
    rcases i with _ | i
    · exact h0
    · have hi' := h i (by simpa using hi)
      rw [Nat.add_assoc, Nat.add_comm 1] at hi'
      rw [hi', List.getElem_cons_succ]

theorem holds_head {n : ℕ} {t : List UInt8}
    (h : Holds m p ((t ++ [0]).take (n + 1))) : m p = some (t.headD 0) := by
  cases t with
  | nil => exact (holds_cons.mp h).1
  | cons b t => exact (holds_cons.mp h).1

theorem Holds.take {t : List UInt8} (h : Holds m p (t ++ [0])) :
    Holds m p ((t ++ [0]).take (t.length + 1)) := by
  rwa [List.take_of_length_le (by simp)]

/-- **`strcmp` of two strings.** -/
theorem strcmp_eq : ∀ {s t : List UInt8}, 0 ∉ s → ∀ {p q fuel : ℕ},
    Holds m p (s ++ [0]) → Holds m q (t ++ [0]) → s.length < fuel →
      strcmp m fuel p q = some (difference s t)
  | _, _, _, _, _, 0, _, _, hf => absurd hf (Nat.not_lt_zero _)
  | [], t, _, p, q, fuel + 1, hp, hq, _ => by
    rw [strcmp, holds_head hp.take, holds_head hq.take]
    cases t <;> simp [difference]
  | a :: s, t, hs, p, q, fuel + 1, hp, hq, hf => by
    rw [List.mem_cons, not_or] at hs
    rw [strcmp, holds_head hp.take, holds_head hq.take]
    cases t with
    | nil => simp [difference]
    | cons b t =>
      by_cases h : a = b
      · subst h
        have hrest := strcmp_eq hs.2 (holds_cons.mp hp).2 (holds_cons.mp hq).2
          (Nat.lt_of_succ_lt_succ hf)
        simpa [difference, Ne.symm hs.1] using hrest
      · simp [difference, h]

/-- **`strcmpEq` tells whether `strcmp` is zero**, of an array of `cap` bytes behind which nothing can
be read and a string. -/
theorem strcmpEq_eq_strcmp : ∀ {t : List UInt8}, 0 ∉ t → ∀ {a : ℕ → UInt8}
    {cap p q fuel : ℕ}, (∀ i < cap, m (p + i) = some (a i)) → m (p + cap) = none →
      Holds m q (t ++ [0]) → t.length < fuel →
        strcmpEq a cap t = (strcmp m fuel p q).map fun r => decide (r = 0)
  | _, _, _, _, _, _, 0, _, _, _, hf => absurd hf (Nat.not_lt_zero _)
  | t, _, a, 0, p, q, fuel + 1, _, hend, _, _ => by
    rw [Nat.add_zero] at hend
    simp [strcmpEq, strcmp, hend]
  | [], _, a, cap + 1, p, q, fuel + 1, ha, _, hq, _ => by
    have hp : m p = some (a 0) := ha 0 cap.succ_pos
    rw [strcmp, hp, holds_head hq.take, strcmpEq]
    simp [beq_eq_decide, ← UInt8.toNat_inj]
  | c :: t, ht, a, cap + 1, p, q, fuel + 1, ha, hend, hq, hf => by
    rw [List.mem_cons, not_or] at ht
    have hp : m p = some (a 0) := ha 0 cap.succ_pos
    rw [strcmp, hp, holds_head hq.take, strcmpEq]
    by_cases h : a 0 = c
    · have ha' : ∀ i < cap, m (p + 1 + i) = some (Lib.Bytes.view a 1 i) := fun i hi => by
        rw [Lib.Bytes.view, Nat.add_assoc, ha (1 + i) (by omega)]
      have hend' : m (p + 1 + cap) = none := by rw [← hend, Nat.add_assoc, Nat.add_comm 1]
      have hrest := strcmpEq_eq_strcmp ht.2 ha' hend' (holds_cons.mp hq).2
        (Nat.lt_of_succ_lt_succ hf)
      simpa [h, Ne.symm ht.1] using hrest
    · have hne : (a 0).toNat ≠ c.toNat := fun heq => h (UInt8.toNat_inj.mp heq)
      simp [h, sub_eq_zero, hne]

/-- **`strncmp` of two strings**, of which the first `n` bytes may be read. -/
theorem strncmp_eq : ∀ {n : ℕ} {s t : List UInt8}, 0 ∉ s → ∀ {p q : ℕ},
    Holds m p ((s ++ [0]).take n) → Holds m q ((t ++ [0]).take n) →
      strncmp m p q n = some (difference (s.take n) (t.take n))
  | 0, _, _, _, _, _, _, _ => rfl
  | n + 1, [], t, _, p, q, hp, hq => by
    rw [strncmp, if_neg (Nat.succ_ne_zero n), strncmpLoop, holds_head hp, holds_head hq]
    cases t <;> simp [difference]
  | n + 1, a :: s, t, hs, p, q, hp, hq => by
    rw [List.mem_cons, not_or] at hs
    rw [strncmp, if_neg (Nat.succ_ne_zero n), strncmpLoop, holds_head hp, holds_head hq]
    cases t with
    | nil => simp [difference]
    | cons b t =>
      by_cases h : a = b
      · subst h
        -- what is left to do is the call on the rest, with one byte less
        have hrest := strncmp_eq hs.2 (holds_cons.mp hp).2 (holds_cons.mp hq).2
        unfold strncmp at hrest
        simpa [difference, Ne.symm hs.1] using hrest
      · simp [difference, h]

/-! ### Both calls -/

/-- **String comparison is lexicographic order.** `strcmp` of two strings ends and is negative, zero
or positive as the first is less than, equal to or greater than the second, by unsigned bytes;
nothing behind a terminator is read. `strncmp`, of which nothing behind the terminators or the first
`n` bytes is read, is what `strcmp` is of the two strings cut after `n` bytes, and of the strings
themselves if `n` exceeds the length of the shorter one. -/
theorem comparison_lexicographic (s t : CString) (n : ℕ) :
    (∀ m p q, Holds m p (s.chars ++ [0]) → Holds m q (t.chars ++ [0]) →
      ∃ r, (∀ fuel, s.chars.length < fuel → strcmp m fuel p q = some r) ∧
        (r < 0 ↔ s.chars < t.chars) ∧ (r = 0 ↔ s.chars = t.chars) ∧
        (0 < r ↔ t.chars < s.chars)) ∧
    ∀ m p q, Holds m p ((s.chars ++ [0]).take n) → Holds m q ((t.chars ++ [0]).take n) →
      ∃ r, strncmp m p q n = some r ∧
        (∀ m' p' q', Holds m' p' (s.chars.take n ++ [0]) → Holds m' q' (t.chars.take n ++ [0]) →
          ∀ fuel, s.chars.length < fuel → strcmp m' fuel p' q' = some r) ∧
        (min s.chars.length t.chars.length < n →
          ∀ m' p' q', Holds m' p' (s.chars ++ [0]) → Holds m' q' (t.chars ++ [0]) →
            ∀ fuel, s.chars.length < fuel → strcmp m' fuel p' q' = some r) := by
  refine ⟨fun m p q hp hq => ?_, fun m p q hp hq => ?_⟩
  · refine ⟨_, fun fuel hf => strcmp_eq s.nonzero hp hq hf, difference_neg_iff t.nonzero,
      difference_eq_zero_iff s.nonzero t.nonzero, ?_⟩
    rw [← difference_neg_iff s.nonzero, difference_swap]
    omega
  · refine ⟨_, strncmp_eq s.nonzero hp hq, fun m' p' q' hp' hq' fuel hf => ?_,
      fun hn m' p' q' hp' hq' fuel hf => ?_⟩
    · have hcut : 0 ∉ s.chars.take n := fun h => s.nonzero (List.mem_of_mem_take h)
      exact strcmp_eq hcut hp' hq' (lt_of_le_of_lt (List.length_take_le' n s.chars) hf)
    · rw [difference_take hn]
      exact strcmp_eq s.nonzero hp' hq' hf

/-- "ab" at 16 and "ac" at 32, with nothing else to read. -/
def abAndAc : Memory := fun a =>
  match a with
  | 16 => some 97
  | 17 => some 98
  | 18 => some 0
  | 32 => some 97
  | 33 => some 99
  | 34 => some 0
  | _ => none

theorem comparison_ab_ac : ∃ r, strcmp abAndAc 3 16 32 = some r ∧ r < 0 ∧
    strncmp abAndAc 16 32 2 = some r := by
  obtain ⟨hcmp, hncmp⟩ := comparison_lexicographic ⟨[97, 98], by decide⟩ ⟨[97, 99], by decide⟩ 2
  obtain ⟨r, hr, hneg, -⟩ := hcmp abAndAc 16 32 (by decide) (by decide)
  obtain ⟨r', hr', hcut, -⟩ := hncmp abAndAc 16 32 (by decide) (by decide)
  have hsame := hcut abAndAc 16 32 (by decide) (by decide) 3 (by decide)
  rw [hr 3 (by decide)] at hsame
  exact ⟨r, hr 3 (by decide), hneg.mpr (by decide), by rw [hr', hsame]⟩

end YegaKernel.Kernel.Strcmp
