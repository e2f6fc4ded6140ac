import Mathlib.Tactic

/-! # Loops over an array

An array is a function of the index. `forRange lo hi g` is the loop that replaces `a[i]` by `g i
a[i]` for `i` from `lo` up to, but without, `hi`. -/

namespace YegaKernel.Lib.Loops

open Function

variable {α : Type*}

/-- `for (i = lo; i < hi; i++) a[i] = g i a[i]`. -/
def forRange (lo hi : ℕ) (g : ℕ → α → α) (a : ℕ → α) : ℕ → α :=
  (List.range' lo (hi - lo)).foldl (fun a i => update a i (g i (a i))) a

theorem foldl_update_range' (g : ℕ → α → α) : ∀ (n lo : ℕ) (a : ℕ → α) (i : ℕ),
    (List.range' lo n).foldl (fun a i => update a i (g i (a i))) a i =
      if lo ≤ i ∧ i < lo + n then g i (a i) else a i
  | 0, lo, a, i => by
    rw [if_neg (by omega)]
    rfl
  | n + 1, lo, a, i => by
    rw [List.range'_succ, List.foldl_cons, foldl_update_range' g n (lo + 1)]
    by_cases hi : i = lo
    · subst hi
      rw [if_neg (by omega), if_pos (by omega), update_self]
    · rw [update_of_ne hi]
      have hiff : (lo + 1 ≤ i ∧ i < lo + 1 + n) ↔ (lo ≤ i ∧ i < lo + (n + 1)) := by omega
      simp only [hiff]

theorem forRange_apply (lo hi : ℕ) (g : ℕ → α → α) (a : ℕ → α) (i : ℕ) :
    forRange lo hi g a i = if lo ≤ i ∧ i < hi then g i (a i) else a i := by
  rw [forRange, foldl_update_range']
  have hiff : (lo ≤ i ∧ i < lo + (hi - lo)) ↔ (lo ≤ i ∧ i < hi) := by omega
  simp only [hiff]

theorem forRange_eq (lo hi : ℕ) (g : ℕ → α → α) (a : ℕ → α) :
    forRange lo hi g a = fun i => if lo ≤ i ∧ i < hi then g i (a i) else a i :=
  funext (forRange_apply lo hi g a)

theorem foldl_update_range (c : ℕ) (v : α) (a : ℕ → α) (i : ℕ) : ∀ n : ℕ,
    (List.range n).foldl (fun a k => update a (c + k) v) a i =
      if c ≤ i ∧ i < c + n then v else a i
  | 0 => by
    rw [if_neg (by omega)]
    rfl
  | n + 1 => by
    rw [List.range_succ, List.foldl_append, List.foldl_cons, List.foldl_nil]
    by_cases hi : i = c + n
    · subst hi
      rw [update_self, if_pos (by omega)]
    · have hiff : (c ≤ i ∧ i < c + (n + 1)) ↔ (c ≤ i ∧ i < c + n) := by omega
      rw [update_of_ne hi, foldl_update_range c v a i n]
      simp only [hiff]

/-! ### Steps that can fail -/

theorem bind_eq_ok {ε α β : Type} {x : Except ε α} {f : α → Except ε β} {r : β} :
    (x >>= f) = .ok r ↔ ∃ a, x = .ok a ∧ f a = .ok r := by
  cases x <;> simp [Bind.bind, Except.bind]

end YegaKernel.Lib.Loops
