import YegaKernel.Lib.Bytes

/-! # Strings that end with a zero byte -/

namespace YegaKernel.Lib.Strings

open Lib.Bytes

/-- **A string of C**: the bytes before the zero that ends it. -/
structure CString where
  chars : List UInt8
  nonzero : 0 ∉ chars
  deriving DecidableEq

/-- `'/'`. -/
def slash : UInt8 := 47

/-- From its first byte on the memory holds the characters and a zero. -/
def IsString (m : ℕ → UInt8) (t : List UInt8) : Prop := (List.range (t.length + 1)).map m = t ++ [0]

instance (m : ℕ → UInt8) (t : List UInt8) : Decidable (IsString m t) := by
  unfold IsString
  infer_instance

/-- Whether `strcmp` finds an array of `cap` bytes equal to the characters `t`; it has no result if
the comparison runs over the end of the array. -/
def strcmpEq (m : ℕ → UInt8) : ℕ → List UInt8 → Option Bool
  | 0, _ => none
  | _ + 1, [] => some (m 0 == 0)
  | cap + 1, c :: t => if m 0 = c then strcmpEq (view m 1) cap t else some false

theorem isString_nil (m : ℕ → UInt8) : IsString m [] ↔ m 0 = 0 := by simp [IsString]

theorem isString_cons (m : ℕ → UInt8) (c : UInt8) (t : List UInt8) :
    IsString m (c :: t) ↔ m 0 = c ∧ IsString (view m 1) t := by
  have hshift : (fun i => m (Nat.succ i)) = view m 1 := by
    funext i
    rw [view, Nat.add_comm]
  rw [IsString, IsString, List.length_cons, List.range_succ_eq_map, List.map_cons, List.map_map,
    List.cons_append, List.cons.injEq]
  simp only [Function.comp_def, hshift]

theorem isString_iff (m : ℕ → UInt8) (t : List UInt8) :
    IsString m t ↔ (∀ (i : ℕ) (h : i < t.length), m i = t[i]) ∧ m t.length = 0 := by
  induction t generalizing m with
  | nil => simp [isString_nil]
  | cons c t ih =>
    rw [isString_cons, ih]
    constructor
    · rintro ⟨h0, h, hend⟩
      refine ⟨fun i hi => ?_, ?_⟩
      · rcases i with _ | i
        · exact h0
        · have hi' := h i (by simpa using hi)
          rw [view, Nat.add_comm] at hi'
          rw [hi', List.getElem_cons_succ]
      · rwa [view, Nat.add_comm] at hend
    · rintro ⟨h, hend⟩
      refine ⟨h 0 (by simp), fun i hi => ?_, ?_⟩
      · rw [view, Nat.add_comm, h (i + 1) (by simpa using hi), List.getElem_cons_succ]
      · rwa [view, Nat.add_comm]

theorem IsString.congr {m m' : ℕ → UInt8} {t : List UInt8} (h : IsString m t)
    (hm : Agree (t.length + 1) m m') : IsString m' t := by
  rw [isString_iff] at h ⊢
  refine ⟨fun i hi => ?_, ?_⟩
  · rw [← hm i (by omega), h.1 i hi]
  · rw [← hm t.length (by omega), h.2]

/-- **`strcmp` on an array with a zero in it** comes to its end, and tells whether it is the
string. -/
theorem strcmpEq_of_terminated {t : List UInt8} (ht : 0 ∉ t) {m : ℕ → UInt8} {cap : ℕ}
    (hm : ∃ i < cap, m i = 0) : strcmpEq m cap t = some (decide (IsString m t)) := by
  induction t generalizing m cap with
  | nil =>
    obtain ⟨cap, rfl⟩ : ∃ k, cap = k + 1 := ⟨cap - 1, by omega⟩
    simp only [strcmpEq, isString_nil]
    rfl
  | cons c t ih =>
    rw [List.mem_cons, not_or] at ht
    obtain ⟨i, hi, h0⟩ := hm
    obtain ⟨cap, rfl⟩ : ∃ k, cap = k + 1 := ⟨cap - 1, by omega⟩
    rw [strcmpEq]
    by_cases hc : m 0 = c
    · -- the zero is not the first byte, so that it is in the rest of the array
      have hpos : i ≠ 0 := by
        rintro rfl
        exact ht.1 (h0.symm.trans hc)
      rw [if_pos hc, ih ht.2 ⟨i - 1, by omega, by rw [view, Nat.add_sub_cancel' (by omega), h0]⟩]
      simp only [isString_cons, hc, true_and]
    · rw [if_neg hc]
      simp only [isString_cons, hc, false_and, decide_false]

theorem strcmpEq_congr {m m' : ℕ → UInt8} {cap : ℕ} {t : List UInt8} (h : Agree cap m m') :
    strcmpEq m cap t = strcmpEq m' cap t := by
  induction t generalizing m m' cap with
  | nil =>
    cases cap with
    | zero => rfl
    | succ cap => rw [strcmpEq, strcmpEq, h 0 (by omega)]
  | cons c t ih =>
    cases cap with
    | zero => rfl
    | succ cap =>
      have hrest : Agree cap (view m 1) (view m' 1) := fun i hi => h (1 + i) (by omega)
      rw [strcmpEq, strcmpEq, h 0 (by omega), ih hrest]

end YegaKernel.Lib.Strings
