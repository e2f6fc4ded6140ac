import Mathlib.Data.List.TakeWhile
import Mathlib.Tactic

/-! # The parts of a list between separators

`parts sep l` are the maximal parts of `l` without the separator, in order; empty ones are left out.
A scanner that skips separators and then takes what comes before the next one finds them one by one
(`parts_dropWhile`, `parts_cons`). -/

namespace YegaKernel.Lib.Parts

variable {α : Type*} [DecidableEq α] {sep : α} {l : List α}

def parts (sep : α) (l : List α) : List (List α) := (l.splitOn sep).filter fun c => c ≠ []

theorem parts_nil (sep : α) : parts sep [] = [] := by
  simp [parts]

theorem parts_sep_cons (sep : α) (l : List α) : parts sep (sep :: l) = parts sep l := by
  have h : ([] ++ sep :: l).splitOn sep = [] :: l.splitOn sep :=
    List.splitOnP_append_cons_of_forall_mem (by simp) sep (by simp) l
  rw [parts, ← List.nil_append (sep :: l), h, parts, List.filter_cons_of_neg (by simp)]

theorem parts_dropWhile (sep : α) (l : List α) :
    parts sep (l.dropWhile fun c => c = sep) = parts sep l := by
  induction l with
  | nil => rfl
  | cons c l ih =>
    by_cases hc : c = sep
    · subst hc
      rw [List.dropWhile_cons_of_pos (by simp), ih, parts_sep_cons]
    · rw [List.dropWhile_cons_of_neg (by simpa using hc)]

/-- **The first part** ends before the first separator. -/
theorem parts_cons (hne : l ≠ []) (hhead : l.head? ≠ some sep) :
    parts sep l = l.takeWhile (fun c => c ≠ sep) :: parts sep (l.dropWhile fun c => c ≠ sep) := by
  have hfree : ∀ c ∈ l.takeWhile (fun c => c ≠ sep), (c == sep) = false := by
    intro c hc
    simpa using List.mem_takeWhile_imp hc
  have hpart : l.takeWhile (fun c => c ≠ sep) ≠ [] := by
    obtain ⟨c, l', rfl⟩ := List.exists_cons_of_ne_nil hne
    rw [List.takeWhile_cons_of_pos (by simpa using hhead)]
    exact List.cons_ne_nil _ _
  have hwhole : l = l.takeWhile (fun c => c ≠ sep) ++ l.dropWhile fun c => c ≠ sep :=
    List.takeWhile_append_dropWhile.symm
  rcases hrest : l.dropWhile (fun c => c ≠ sep) with _ | ⟨c, rest⟩
  · rw [hrest, List.append_nil] at hwhole
    have hsplit : l.splitOn sep = [l.takeWhile fun c => c ≠ sep] := by
      conv_lhs => rw [hwhole]
      exact List.splitOnP_eq_singleton hfree
    rw [parts, hsplit, parts_nil, List.filter_cons_of_pos (by simpa using hpart), List.filter_nil]
  · have hc : c = sep := by
      have hnot := List.head?_dropWhile_not (fun c => decide (c ≠ sep)) l
      rw [hrest] at hnot
      simpa using hnot
    subst hc
    rw [hrest] at hwhole
    have hsplit : l.splitOn c = l.takeWhile (fun x => x ≠ c) :: rest.splitOn c := by
      conv_lhs => rw [hwhole]
      exact List.splitOnP_append_cons_of_forall_mem hfree c (by simp) rest
    rw [parts_sep_cons, parts, hsplit, List.filter_cons_of_pos (by simpa using hpart), parts]

theorem ne_nil_of_mem_parts {c : List α} (h : c ∈ parts sep l) : c ≠ [] := by
  simpa using (List.mem_filter.mp h).2

end YegaKernel.Lib.Parts
