import YegaKernel.Buddy.FreeOrder

/-! # What allocate_block takes

`allocate_block` takes an aligned run of free pages and nothing else, and it fails only if there is
no such run: since no two buddies are free blocks of one order, an aligned run of free pages is part
of one free block. -/

namespace YegaKernel.Buddy.Exact

open Lib.Links Buddy.State Buddy.Ops Buddy.FreeBlocks
open Buddy.Represent Buddy.Spec Buddy.Run Buddy.FreeOrder

/-- **A naturally aligned run** of `2 ^ order` pages of the zone, all of them free. -/
structure FreeRun (z : Zone) (order p : ℕ) : Prop where
  aligned : 2 ^ order ∣ p
  bound : p + 2 ^ order ≤ z.presentPages
  free : ∀ x, InBlock order p x → PageFree z x

/-- **What a successful allocation does**: it takes a run, and leaves every other page as it is. -/
structure Takes (z z' : Zone) (order p : ℕ) : Prop where
  run : FreeRun z order p
  taken : ∀ x, InBlock order p x → ¬ PageFree z' x
  other : ∀ x, ¬ InBlock order p x → (PageFree z' x ↔ PageFree z x)

variable {z z' : Zone} {L L' : ℕ → List ℕ} {order p : ℕ}

/-- **An aligned run of free pages is part of one free block.** -/
theorem exists_block_of_freeRun (hr : Represents z L) (ho : order < buddyGroups)
    (hrun : FreeRun z order p) : ∃ k, order ≤ k ∧ L k ≠ [] := by
  have hcov : ∀ x, InBlock order p x → Covers L x := fun x hx => (hr.pageFree_iff x).mp (hrun.free x hx)
  obtain ⟨k, q, hq, hpq⟩ := hcov p (inBlock_start order p)
  refine ⟨k, ?_, List.ne_nil_of_mem hq⟩
  by_contra hk
  -- a smaller block would be inside the run
  have hin : InBlock order p q := inBlock_of_nested (hr.blocks.aligned k q hq) hrun.aligned
    (by omega) hpq (inBlock_start order p) (inBlock_start k q)
  exact no_finer hr.blocks ho hrun.aligned hcov k (by omega) q hq hin

theorem takes_of_covers (hr : Represents z L) (hr' : Represents z' L') (hal : 2 ^ order ∣ p)
    (hin : ∀ x, InBlock order p x → Covers L x)
    (hcov : ∀ x, Covers L' x ↔ Covers L x ∧ ¬ InBlock order p x) : Takes z z' order p := by
  refine ⟨⟨hal, hr.blocks.bound_of_covers hin, fun x hx => (hr.pageFree_iff x).mpr (hin x hx)⟩,
    fun x hx hfree => ?_, fun x hx => ?_⟩
  · exact ((hcov x).mp ((hr'.pageFree_iff x).mp hfree)).2 hx
  · rw [hr'.pageFree_iff, hr.pageFree_iff, hcov]
    exact and_iff_left hx

/-- **`allocate_block` is exact and complete.** -/
theorem allocateBlock_exact (hinv : BuddyInvariant z) (ho : order < buddyGroups) :
    (∀ p z', allocateBlock z order = (some p, z') → Takes z z' order p) ∧
    ((allocateBlock z order).1 = none ↔ ¬ ∃ p, FreeRun z order p) ∧
    ((allocateBlock z order).1 = none → (allocateBlock z order).2 = z) := by
  obtain ⟨L, hr⟩ := buddyInvariant_iff.mp hinv
  rcases allocateBlock_spec hr order with ⟨heq, hnil⟩ | ⟨p, z', L', heq, hmv, hal, hin, hcov, -, -⟩
  · refine ⟨fun p z' h => ?_, ⟨fun _ => ?_, fun _ => by rw [heq]⟩, fun _ => by rw [heq]⟩
    · rw [heq] at h
      exact absurd h (by simp)
    · rintro ⟨p, hrun⟩
      obtain ⟨k, hk, hne⟩ := exists_block_of_freeRun hr ho hrun
      exact hne (hnil k hk)
  · have htakes : Takes z z' order p := takes_of_covers hr hmv.rep hal hin hcov
    refine ⟨fun q z₁ h => ?_, ⟨fun h => ?_, fun h => absurd ⟨p, htakes.run⟩ h⟩, fun h => ?_⟩
    · rw [heq, Prod.mk.injEq, Option.some.injEq] at h
      obtain ⟨rfl, rfl⟩ := h
      exact htakes
    · rw [heq] at h
      exact absurd h (by simp)
    · rw [heq] at h
      exact absurd h (by simp)

/-- Of five free pages two can be taken, but not eight. -/
theorem allocateBlock_exact_five_pages :
    let z := addFreeRegionToBuddy (emptyZone 6 (by decide)) 1 5
    BuddyInvariant z ∧ (∃ p z', allocateBlock z 1 = (some p, z') ∧ Takes z z' 1 p) ∧
      ¬ ∃ p, FreeRun z 3 p := by
  intro z
  have hinv : BuddyInvariant z := by
    refine buddyInvariant_of_reachable (zeroed_emptyZone 6 (by decide)) (.single
      (Step.addRegion 1 5 fun x hx hx' => ?_))
    interval_cases x <;> decide
  have hfour : allocateBlock z 1 = (some 4, (allocateBlock z 1).2) :=
    Prod.ext (show (allocateBlock z 1).1 = some 4 by decide) rfl
  refine ⟨hinv, ⟨4, _, hfour, (allocateBlock_exact hinv (by decide)).1 4 _ hfour⟩, ?_⟩
  exact (allocateBlock_exact hinv (by decide)).2.1.mp rfl

end YegaKernel.Buddy.Exact
