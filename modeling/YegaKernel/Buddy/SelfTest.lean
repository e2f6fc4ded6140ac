import YegaKernel.Buddy.Exact

/-! # The self-test at boot

`test_buddy` allocates a block of 512 pages and one of 16, and frees both without looking whether
there was one. If there were, the calls are nested and the zone is as before, but for the field
`private` of the parts that were split off (`Undo`). There are both exactly if two runs of free
pages of these sizes are apart: the first allocation may take the one or break up the other, but
never both. -/

namespace YegaKernel.Buddy.SelfTest

open Lib.Links Lib.Word Lib.Dyadic
open Buddy.State Buddy.Ops Buddy.FreeBlocks
open Buddy.Represent Buddy.Spec Buddy.Run Buddy.FreeOrder
open Buddy.Exact Buddy.Init Buddy.Undo

/-- The pointers that `test_buddy` passes to `free_block`. -/
def freedPages (z : Zone) : List (Option ℕ) :=
  [(allocateBlock (allocateBlock z 9).2 4).1, (allocateBlock z 9).1]

/-- **The self-test is harmless**: it frees pages of the zone only, and returns with the lists, the
counters, the flags and the fields `private` as they were. -/
structure Harmless (z : Zone) : Prop where
  pages : ∀ r ∈ freedPages z, ∃ p < z.presentPages, r = some p
  returns : ∃ z', testBuddy z = some z' ∧ Restored z z' ∧
    ∀ q, (z'.pages q).priv = (z.pages q).priv

/-- There are two aligned runs of free pages, of 512 and of 16 pages, that are apart. -/
def TwoRuns (z : Zone) : Prop :=
  ∃ p q, FreeRun z 9 p ∧ FreeRun z 4 q ∧ (p + 2 ^ 9 ≤ q ∨ q + 2 ^ 4 ≤ p)

/-- `q` is the first page of a part that `allocate_block` splits off. -/
def SplitOff (z : Zone) (order q : ℕ) : Prop :=
  ∃ current, findOrder z order = some current ∧ IsPart order (firstOf z current) current q

variable {z z' z₁ z₂ : Zone} {L : ℕ → List ℕ} {order p q : ℕ}

/-! ### When the allocations succeed -/

theorem exists_page_of_freeRun (hr : Represents z L) (ho : order < buddyGroups)
    (hrun : FreeRun z order p) : ∃ q z₁, allocateBlock z order = (some q, z₁) := by
  rcases allocateBlock_spec hr order with ⟨-, hnil⟩ | ⟨q, z₁, -, heq, -⟩
  · obtain ⟨k, hk, hne⟩ := exists_block_of_freeRun hr ho hrun
    exact absurd (hnil k hk) hne
  · exact ⟨q, z₁, heq⟩

theorem takes_of_some (hr : Represents z L) (h : allocateBlock z order = (some p, z₁)) :
    Takes z z₁ order p := by
  rcases allocateBlock_spec hr order with ⟨heq, -⟩ | ⟨q, z', L', heq, hmv, hal, hin, hcov, -, -⟩
  · rw [heq] at h
    exact absurd (congrArg Prod.fst h) (by simp)
  · rw [heq, Prod.mk.injEq, Option.some.injEq] at h
    obtain ⟨rfl, rfl⟩ := h
    exact takes_of_covers hr hmv.rep hal hin hcov

theorem FreeRun.mono {j : ℕ} (h : FreeRun z order p) (hj : j ≤ order) : FreeRun z j p := by
  have hle : 2 ^ j ≤ 2 ^ order := Nat.pow_le_pow_right (by norm_num) hj
  have hb := h.bound
  exact ⟨dvd_trans (pow_dvd_pow 2 hj) h.aligned, by omega, fun x hx => h.free x (hx.mono hj)⟩

theorem FreeRun.after {j : ℕ} (h : FreeRun z j q) (ht : Takes z z₁ order p)
    (hpres : z₁.presentPages = z.presentPages)
    (hapart : p + 2 ^ order ≤ q ∨ q + 2 ^ j ≤ p) : FreeRun z₁ j q := by
  refine ⟨h.aligned, by rw [hpres]; exact h.bound, fun x hx => ?_⟩
  refine (ht.other x fun hin => ?_).mpr (h.free x hx)
  unfold InBlock at hx hin
  omega

theorem inside_of_not_apart {j k : ℕ} (hp : 2 ^ k ∣ p) (hq : 2 ^ j ∣ q) (hjk : j ≤ k)
    (h : ¬ (p + 2 ^ k ≤ q ∨ q + 2 ^ j ≤ p)) : p ≤ q ∧ q + 2 ^ j ≤ p + 2 ^ k := by
  by_contra hc
  exact h (apart_of_no_common fun x hx hx' =>
    hc (nested hq hp hjk hx'.1 hx'.2 hx.1 hx.2))

/-- **Both allocations succeed exactly if there are two runs apart.** -/
theorem twoRuns_iff (hr : Represents z L) : TwoRuns z ↔ ∃ p₁ z₁ p₂ z₂,
    allocateBlock z 9 = (some p₁, z₁) ∧ allocateBlock z₁ 4 = (some p₂, z₂) := by
  constructor
  · rintro ⟨p, q, hp, hq, hapart⟩
    obtain ⟨p₁, z₁, h₁⟩ := exists_page_of_freeRun hr (by decide) hp
    obtain ⟨current, ps, htook⟩ := took_of_some hr h₁
    have ht := takes_of_some hr h₁
    -- one of the two runs is apart from the block that was taken
    obtain ⟨r, hrun⟩ : ∃ r, FreeRun z₁ 4 r := by
      by_cases hq₁ : p₁ + 2 ^ 9 ≤ q ∨ q + 2 ^ 4 ≤ p₁
      · exact ⟨q, FreeRun.after hq ht htook.present hq₁⟩
      · by_cases hp₁ : p₁ + 2 ^ 9 ≤ p ∨ p + 2 ^ 9 ≤ p₁
        · exact ⟨p, FreeRun.mono (FreeRun.after hp ht htook.present hp₁) (by decide)⟩
        · have heq := inside_of_not_apart ht.run.aligned hp.aligned le_rfl hp₁
          omega
    obtain ⟨p₂, z₂, h₂⟩ := exists_page_of_freeRun htook.rep (by decide) hrun
    exact ⟨p₁, z₁, p₂, z₂, h₁, h₂⟩
  · rintro ⟨p₁, z₁, p₂, z₂, h₁, h₂⟩
    obtain ⟨current, ps, htook⟩ := took_of_some hr h₁
    have ht₁ := takes_of_some hr h₁
    have ht₂ := takes_of_some htook.rep h₂
    have hfree : ∀ x, InBlock 4 p₂ x → ¬ InBlock 9 p₁ x ∧ PageFree z x := by
      intro x hx
      have hx₁ := ht₂.run.free x hx
      have hno : ¬ InBlock 9 p₁ x := fun hin => ht₁.taken x hin hx₁
      exact ⟨hno, (ht₁.other x hno).mp hx₁⟩
    refine ⟨p₁, p₂, ht₁.run, ⟨ht₂.run.aligned, ?_, fun x hx => (hfree x hx).2⟩,
      apart_of_no_common fun x hx hx' => (hfree x hx').1 hx⟩
    rw [← htook.present]
    exact ht₂.run.bound

/-! ### What the test leaves in `private` -/

theorem splitOff_iff {current : ℕ} {ps : List ℕ} (h : allocateBlock z order = (some p, z₁))
    (ht : Took z z₁ L order p current ps) : SplitOff z order q ↔ IsPart order p current q := by
  have hp : firstOf z current = p :=
    Option.some.inj ((allocateBlock_fst ht.found).symm.trans (congrArg Prod.fst h))
  simp [SplitOff, ht.found, hp]

/-- The test sets `private` to `0` on the parts of both blocks and restores it elsewhere. -/
theorem priv_testBuddy (hr : Represents z L) {p₁ p₂ : ℕ} (h₁ : allocateBlock z 9 = (some p₁, z₁))
    (h₂ : allocateBlock z₁ 4 = (some p₂, z₂)) (q : ℕ) : (SplitOff z 9 q ∨ SplitOff z₁ 4 q →
      ((freeBlock (freeBlock z₂ p₂ 4) p₁ 9).pages q).priv = 0) ∧
    (¬ (SplitOff z 9 q ∨ SplitOff z₁ 4 q) →
      ((freeBlock (freeBlock z₂ p₂ 4) p₁ 9).pages q).priv = (z.pages q).priv) := by
  obtain ⟨c₁, ps₁, ht₁⟩ := took_of_some hr h₁
  obtain ⟨c₂, ps₂, ht₂⟩ := took_of_some ht₁.rep h₂
  have hinner := ht₂.kept ht₁.rep (Kept.refl ht₂.rep)
  obtain ⟨hrep, -, -, hother, hparts⟩ := freeBlock_splitLists hr ht₁.chosen hinner.rep
    (hinner.present.trans ht₁.present)
  obtain ⟨hzero, hsame⟩ := ht₂.priv_freeBlock ht₁.rep q
  rw [splitOff_iff h₁ ht₁, splitOff_iff h₂ ht₂]
  have hpk : p₁ ∈ L c₁ := by rw [ht₁.chosen.list]; simp
  by_cases hq₁ : IsPart 9 p₁ c₁ q
  · exact ⟨fun _ => hparts q hq₁, fun h => absurd (Or.inl hq₁) h⟩
  by_cases hqp : q = p₁
  · -- the page that was allocated first is no part of the second block
    subst hqp
    have hq₂ : ¬ IsPart 4 p₂ c₂ q := fun hq =>
      ((ht₁.covers q).mp (ht₂.part ht₁.rep hq).1).2 (inBlock_start 9 q)
    exact ⟨fun h => absurd h (by tauto), fun _ =>
      (hrep.order c₁ q hpk).trans (hr.order c₁ q hpk).symm⟩
  · rw [hother q hqp hq₁]
    exact ⟨fun h => hzero (h.resolve_left hq₁), fun h => by
      rw [hsame fun hq => h (Or.inr hq), ht₁.other q hqp hq₁]⟩

/-! ### The result -/

/-- **The self-test is harmless exactly if** there are two runs of free pages apart, and `private`
is `0` on the first pages of the parts that its allocations split off. -/
theorem harmless_iff (hinv : BuddyInvariant z) : Harmless z ↔ TwoRuns z ∧
    ∀ q, SplitOff z 9 q ∨ SplitOff (allocateBlock z 9).2 4 q → (z.pages q).priv = 0 := by
  obtain ⟨L, hr⟩ := buddyInvariant_iff.mp hinv
  rw [twoRuns_iff hr]
  constructor
  · rintro ⟨-, z', htest, -, hpriv⟩
    obtain ⟨p₁, z₁, p₂, z₂, h₁, h₂, rfl⟩ := testBuddy_eq_some.mp htest
    refine ⟨⟨p₁, z₁, p₂, z₂, h₁, h₂⟩, fun q hq => ?_⟩
    rw [h₁] at hq
    rw [← hpriv q]
    exact (priv_testBuddy hr h₁ h₂ q).1 hq
  · rintro ⟨⟨p₁, z₁, p₂, z₂, h₁, h₂⟩, hzero⟩
    rw [h₁] at hzero
    obtain ⟨c₁, ps₁, ht₁⟩ := took_of_some hr h₁
    have hrun₁ := (takes_of_some hr h₁).run.bound
    have hrun₂ := (takes_of_some ht₁.rep h₂).run.bound
    rw [ht₁.present] at hrun₂
    have hnested : Nested z (freeBlock (freeBlock z₂ p₂ 4) p₁ 9) :=
      .round 9 p₁ h₁ (.round 4 p₂ h₂ (.done _) (.done _)) (.done _)
    refine ⟨fun r hmem => ?_, _, testBuddy_eq_some.mpr ⟨p₁, z₁, p₂, z₂, h₁, h₂, rfl⟩,
      ((hnested.kept hr).restored hr).1, fun q => ?_⟩
    · rw [freedPages, h₁, h₂] at hmem
      simp only [List.mem_cons, List.not_mem_nil, or_false] at hmem
      rcases hmem with rfl | rfl
      · exact ⟨p₂, by omega, rfl⟩
      · exact ⟨p₁, by omega, rfl⟩
    · obtain ⟨hpart, hsame⟩ := priv_testBuddy hr h₁ h₂ q
      by_cases hq : SplitOff z 9 q ∨ SplitOff z₁ 4 q
      · rw [hpart hq, hzero q hq]
      · exact hsame hq

theorem block_pages_fit : sizeofPage * 1024 ≤ 2 ^ 32 := by decide

/-- A zone of 1024 free pages, in one block. -/
def oneBlock : Zone := addFreeRegionToBuddy (emptyZone 1024 block_pages_fit) 0 1023

theorem represents_oneBlock : ∃ L, Represents oneBlock L ∧ ∀ x, Covers L x ↔ x ≤ 1023 := by
  have hempty := (zeroed_emptyZone 1024 block_pages_fit).represents
  have hfresh : ∀ x, 0 ≤ x → x ≤ 1023 → x < 1024 ∧ ¬ Covers (fun _ => []) x := fun x _ hx =>
    ⟨by omega, fun ⟨k, p, hp, _⟩ => absurd hp List.not_mem_nil⟩
  obtain ⟨L, hmv, hcov, -⟩ := addFreeRegionToBuddy_spec hempty hfresh
  refine ⟨L, hmv.rep, fun x => ?_⟩
  rw [hcov]
  simp [Covers]

/-- The test is harmless on a zone of 1024 free pages. -/
theorem harmless_oneBlock : BuddyInvariant oneBlock ∧ Harmless oneBlock := by
  obtain ⟨L, hr, hcov⟩ := represents_oneBlock
  have hinv : BuddyInvariant oneBlock := buddyInvariant_iff.mpr ⟨L, hr⟩
  have hfree : ∀ x, x ≤ 1023 → PageFree oneBlock x := fun x hx =>
    (hr.pageFree_iff x).mpr ((hcov x).mpr hx)
  refine ⟨hinv, (harmless_iff hinv).mpr ⟨⟨0, 512, ⟨by decide, by decide, fun x hx => ?_⟩,
    ⟨by decide, by decide, fun x hx => ?_⟩, by decide⟩, fun q hq => ?_⟩⟩
  · unfold InBlock at hx
    exact hfree x (by omega)
  · unfold InBlock at hx
    exact hfree x (by omega)
  · -- pages 512, and then 768, 640, 576, 544 and 528, are split off
    rcases hq with ⟨current, hc, k, hk, hkc, rfl⟩ | ⟨current, hc, k, hk, hkc, rfl⟩
    · have hc₁ : findOrder oneBlock 9 = some 10 := by decide +kernel
      obtain rfl := Option.some.inj (hc.symm.trans hc₁)
      have hp : firstOf oneBlock 10 = 0 := by decide +kernel
      rw [hp]
      interval_cases k
      decide +kernel
    · have hc₂ : findOrder (allocateBlock oneBlock 9).2 4 = some 9 := by decide +kernel
      obtain rfl := Option.some.inj (hc.symm.trans hc₂)
      have hp : firstOf (allocateBlock oneBlock 9).2 9 = 512 := by decide +kernel
      rw [hp]
      interval_cases k <;> decide +kernel

/-- **On a small zone the test frees a null pointer**, twice. -/
theorem not_harmless_eightFree : BuddyInvariant eightFree ∧ freedPages eightFree = [none, none] ∧
    testBuddy eightFree = none ∧ ¬ Harmless eightFree := by
  have hnull : freedPages eightFree = [none, none] := by decide +kernel
  refine ⟨buddyInvariant_eightFree, hnull, by rfl, fun h => ?_⟩
  obtain ⟨p, -, hp⟩ := h.pages none (by rw [hnull]; simp)
  exact absurd hp (by simp)

end YegaKernel.Buddy.SelfTest
