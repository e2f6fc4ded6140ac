import YegaKernel.Buddy.Init

/-! # The count of free pages

`create_zone` starts `free_pages` at the number of all pages of the zone, and `init_zone` then adds
the pages it hands to the allocator once more. From there on `allocate_block` and `free_block` keep
the difference: in every run `free_pages` is the number of pages on the lists plus the number of all
pages (`freePages_of_calls`). -/

namespace YegaKernel.Buddy.Account

open Lib.Links Lib.Word Relation
open Buddy.State Buddy.Ops Buddy.FreeBlocks
open Buddy.Represent Buddy.Spec Buddy.Run Buddy.Init

/-- The number of pages in blocks on the lists, from the counters of the areas. -/
def nrFreePages (z : Zone) : ℕ := ∑ k ∈ Finset.range buddyGroups, z.nrFree k * 2 ^ k

variable {z z' : Zone} {L : ℕ → List ℕ}

theorem nrFreePages_eq_total (hr : Represents z L) : nrFreePages z = total L := by
  refine Finset.sum_congr rfl fun k hk => ?_
  rw [hr.nrFree k (Finset.mem_range.mp hk)]

/-- `free_pages` exceeds the number of pages on the lists by `c`. -/
def Exceeds (c : ℕ) (z : Zone) : Prop :=
  ∃ L, Represents z L ∧ u32 z.freePages = u32 (c + total L)

theorem Exceeds.step {c : ℕ} (h : Exceeds c z) (hs : Step z z') : Exceeds c z' := by
  obtain ⟨L, hr, hc⟩ := h
  cases hs with
  | addRegion start fin hfresh =>
    obtain ⟨L', hmv, -, htot, hfp⟩ := addFreeRegionToBuddy_spec hr fun x hx hx' =>
      ⟨(hfresh x hx hx').1, fun hc => (hfresh x hx hx').2 ((hr.pageFree_iff x).mpr hc)⟩
    refine ⟨L', hmv.rep, ?_⟩
    rw [hfp, htot]
    unfold u32 at hc ⊢
    omega
  | allocate order ho =>
    rcases allocateBlock_spec hr order with ⟨heq, -⟩ | ⟨p, z', L', heq, hmv, -, -, -, htot,
      hfp⟩
    · rw [heq]; exact ⟨L, hr, hc⟩
    · rw [heq]
      refine ⟨L', hmv.rep, ?_⟩
      rw [hfp]
      unfold u32 sub32 at *
      omega
  | free p order ho ha hb hfresh =>
    have hm : Merging z L order p :=
      ⟨hr, ho, ha, hb, fun x hx hc => hfresh x hx.1 hx.2 ((hr.pageFree_iff x).mpr hc)⟩
    obtain ⟨L', hmv, -, htot, hfp⟩ := freeBlock_spec hm
    refine ⟨L', hmv.rep, ?_⟩
    rw [hfp, htot]
    unfold u32 at hc ⊢
    omega

theorem Exceeds.run {c : ℕ} (h : Exceeds c z) (hrun : ReflTransGen Step z z') :
    Exceeds c z' := by
  induction hrun with
  | refl => exact h
  | tail _ hs ih => exact ih.step hs

/-! ### Blocks handed out -/

/-- A call of a client that gives back only what it got. The state is the zone with the first page
and the order of every block handed out and not given back. -/
inductive Call : Zone × List (ℕ × ℕ) → Zone × List (ℕ × ℕ) → Prop
  | allocate {z : Zone} {live : List (ℕ × ℕ)} (order : ℕ) (h : order < buddyGroups) :
      Call (z, live) ((allocateBlock z order).2,
        match (allocateBlock z order).1 with
        | some p => (p, order) :: live
        | none => live)
  | free {z : Zone} {live : List (ℕ × ℕ)} (b : ℕ × ℕ) (h : b ∈ live) :
      Call (z, live) (freeBlock z b.1 b.2, live.erase b)

/-- The blocks handed out are blocks of the zone, no two of them meet, and none of their pages is
free. -/
structure Handed (n : ℕ) (L : ℕ → List ℕ) (live : List (ℕ × ℕ)) : Prop where
  order_lt : ∀ b ∈ live, b.2 < buddyGroups
  aligned : ∀ b ∈ live, 2 ^ b.2 ∣ b.1
  bound : ∀ b ∈ live, b.1 + 2 ^ b.2 ≤ n
  fresh : ∀ b ∈ live, ∀ x, InBlock b.2 b.1 x → ¬ Covers L x
  disjoint : live.Pairwise fun b c => ∀ x, InBlock b.2 b.1 x → ¬ InBlock c.2 c.1 x

/-- The page is in one of the blocks. -/
def InBlocks (bs : List (ℕ × ℕ)) (p : ℕ) : Prop := ∃ b ∈ bs, InBlock b.2 b.1 p

theorem inBlocks_cons (b : ℕ × ℕ) (bs : List (ℕ × ℕ)) (x : ℕ) :
    InBlocks (b :: bs) x ↔ InBlock b.2 b.1 x ∨ InBlocks bs x := by
  unfold InBlocks
  simp

theorem inBlocks_perm {bs bs' : List (ℕ × ℕ)} (h : bs.Perm bs') : InBlocks bs = InBlocks bs' := by
  unfold InBlocks
  simp only [h.mem_iff]

theorem handed_nil (n : ℕ) (L : ℕ → List ℕ) : Handed n L [] :=
  ⟨by simp, by simp, by simp, by simp, .nil⟩

section Handed
variable {n : ℕ} {L L' : ℕ → List ℕ} {live : List (ℕ × ℕ)}

theorem Handed.cons (h : Handed n L live) {p order : ℕ} (ho : order < buddyGroups)
    (ha : 2 ^ order ∣ p) (hb : p + 2 ^ order ≤ n) (hin : ∀ x, InBlock order p x → Covers L x)
    (hcov : ∀ x, Covers L' x ↔ Covers L x ∧ ¬ InBlock order p x) :
    Handed n L' ((p, order) :: live) := by
  refine ⟨?_, ?_, ?_, ?_, ?_⟩
  · exact List.forall_mem_cons.mpr ⟨ho, h.order_lt⟩
  · exact List.forall_mem_cons.mpr ⟨ha, h.aligned⟩
  · exact List.forall_mem_cons.mpr ⟨hb, h.bound⟩
  · exact List.forall_mem_cons.mpr ⟨fun x hx hc => ((hcov x).mp hc).2 hx,
      fun b hb x hx hc => h.fresh b hb x hx ((hcov x).mp hc).1⟩
  · exact List.pairwise_cons.mpr
      ⟨fun c hc x hx hx' => h.fresh c hc x hx' (hin x hx), h.disjoint⟩

theorem Handed.erase (h : Handed n L live) {b : ℕ × ℕ} (hb : b ∈ live)
    (hcov : ∀ x, Covers L' x ↔ Covers L x ∨ InBlock b.2 b.1 x) : Handed n L' (live.erase b) := by
  have hperm := List.perm_cons_erase hb
  have hpair : (b :: live.erase b).Pairwise fun b c => ∀ x, InBlock b.2 b.1 x → ¬ InBlock c.2 c.1 x :=
    hperm.pairwise h.disjoint fun h x hx hx' => h x hx' hx
  have hsub : ∀ {c}, c ∈ live.erase b → c ∈ live := List.mem_of_mem_erase
  refine ⟨fun c hc => h.order_lt c (hsub hc), fun c hc => h.aligned c (hsub hc),
    fun c hc => h.bound c (hsub hc), fun c hc x hx hc' => ?_, (List.pairwise_cons.mp hpair).2⟩
  rcases (hcov x).mp hc' with hx' | hx'
  · exact h.fresh c (hsub hc) x hx hx'
  · exact (List.pairwise_cons.mp hpair).1 c hc x hx' hx

end Handed

/-- **What a client may do** is a step of the zone, and the blocks it holds stay apart from each
other and from the free ones; together they keep their pages. -/
theorem Call.step {live live' : List (ℕ × ℕ)}
    (hc : Call (z, live) (z', live')) (hr : Represents z L) (h : Handed z.presentPages L live) :
    Step z z' ∧ ∃ L', Represents z' L' ∧ Handed z'.presentPages L' live' ∧
      ∀ x, (Covers L' x ∨ InBlocks live' x) ↔ Covers L x ∨ InBlocks live x := by
  cases hc with
  | allocate order ho =>
    refine ⟨Step.allocate order ho, ?_⟩
    rcases allocateBlock_spec hr order with ⟨heq, -⟩ | ⟨p, z', L', heq, hmv, ha, hin, hcov, -⟩
    · rw [heq]
      exact ⟨L, hr, h, fun _ => Iff.rfl⟩
    · rw [heq]
      refine ⟨L', hmv.rep, ?_, fun x => ?_⟩
      · rw [hmv.present]
        exact h.cons ho ha (hr.blocks.bound_of_covers hin) hin hcov
      · rw [inBlocks_cons, hcov]
        tauto
  | free b hb =>
    have hfresh := h.fresh b hb
    obtain ⟨L', hmv, hcov, -⟩ := freeBlock_spec
      ⟨hr, h.order_lt b hb, h.aligned b hb, h.bound b hb, hfresh⟩
    refine ⟨Step.free b.1 b.2 (h.order_lt b hb) (h.aligned b hb) (h.bound b hb) fun x hx hx' hf =>
      hfresh x ⟨hx, hx'⟩ ((hr.pageFree_iff x).mp hf), L', hmv.rep, ?_, fun x => ?_⟩
    · rw [hmv.present]
      exact h.erase hb hcov
    · rw [hcov, inBlocks_perm (List.perm_cons_erase hb), inBlocks_cons, or_assoc]

theorem step_of_calls (hr : Represents z L) {s : Zone × List (ℕ × ℕ)}
    (hrun : ReflTransGen Call (z, []) s) : ReflTransGen Step z s.1 ∧
      ∃ L', Represents s.1 L' ∧ Handed s.1.presentPages L' s.2 ∧
        ∀ x, (Covers L' x ∨ InBlocks s.2 x) ↔ Covers L x := by
  induction hrun with
  | refl => exact ⟨.refl, L, hr, handed_nil _ _, fun x => by simp [InBlocks]⟩
  | tail _ hc ih =>
    obtain ⟨hsteps, L', hr', hh, hpages⟩ := ih
    obtain ⟨hs, L'', hr'', hh', hpages'⟩ := hc.step hr' hh
    exact ⟨hsteps.tail hs, L'', hr'', hh', fun x => (hpages' x).trans (hpages x)⟩

/-! ### The set-up and the runs from it -/

section Setup
variable {memMap : ℕ → Page} {n : ℕ} {h : sizeofPage * n ≤ 2 ^ 32} {z₁ : Zone}

section
variable (hp : ∀ p < n, (memMap p).flags &&& pgFlagPrivate ≠ pgFlagPrivate)
include hp

/-- The set-up leaves `free_pages` too large by the size of the zone, and it completes on no empty
zone. -/
theorem exceeds_initZone
    (hinit : initZone (createZone zoneBss memMap n h) = some z₁) : Exceeds n z₁ ∧ 0 < n := by
  obtain ⟨L, hr, hpres, hcov, hcount⟩ := initRegions_spec (h := h) hp
  obtain ⟨hr', hfp, x, hx⟩ := testBuddy_spec hr hinit
  exact ⟨⟨L, hr', by rw [hfp, hcount]⟩, Nat.zero_lt_of_lt ((hcov x).mp hx).1⟩

/-- **In every run** `free_pages` is the number of pages on the lists plus the number of all
pages. -/
theorem freePages_of_calls
    (hinit : initZone (createZone zoneBss memMap n h) = some z₁) {s : Zone × List (ℕ × ℕ)}
    (hrun : ReflTransGen Call (z₁, []) s) :
    u32 s.1.freePages = u32 (n + nrFreePages s.1) := by
  obtain ⟨hex, -⟩ := exceeds_initZone hp hinit
  obtain ⟨L₁, hr₁, -⟩ := id hex
  obtain ⟨L, hr, hc⟩ := hex.run (step_of_calls hr₁ hrun).1
  rw [nrFreePages_eq_total hr, hc]

theorem freePages_ne
    (hinit : initZone (createZone zoneBss memMap n h) = some z₁) {s : Zone × List (ℕ × ℕ)}
    (hrun : ReflTransGen Call (z₁, []) s) : s.1.freePages ≠ nrFreePages s.1 := by
  have hpos := (exceeds_initZone hp hinit).2
  have hcount := freePages_of_calls hp hinit hrun
  have hn := h
  unfold sizeofPage at hn
  unfold u32 at hcount
  omega

end

end Setup

/-- The set-up of the zone completes, and after every run of a client from there `free_pages` is the
number of pages on the lists. -/
def CountsFreePages (z : Zone) : Prop :=
  ∃ z₁, initZone z = some z₁ ∧
    ∀ s, ReflTransGen Call (z₁, []) s → s.1.freePages = nrFreePages s.1

/-- **`free_pages` never counts the pages on the lists**, whatever the flags of the pages: it is
wrong right after the set-up and after every run from there. -/
theorem not_countsFreePages (memMap : ℕ → Page) (n : ℕ) (h : sizeofPage * n ≤ 2 ^ 32)
    (hp : ∀ p < n, (memMap p).flags &&& pgFlagPrivate ≠ pgFlagPrivate) :
    ¬ CountsFreePages (createZone zoneBss memMap n h) ∧
      ∀ z₁ s, initZone (createZone zoneBss memMap n h) = some z₁ →
        ReflTransGen Call (z₁, []) s → s.1.freePages ≠ nrFreePages s.1 := by
  refine ⟨?_, fun z₁ s hinit hrun => freePages_ne hp hinit hrun⟩
  rintro ⟨z₁, hinit, hall⟩
  exact freePages_ne hp hinit .refl (hall _ .refl)

/-! ### A zone of 1024 pages -/

theorem skipMarked_of_unmarked {i : ℕ} (hm : marked z i = false) :
    ∀ fuel, skipMarked z fuel i = i
  | 0 => rfl
  | fuel + 1 => by simp [skipMarked, hm]

theorem scanLoop_of_unmarked (hm : ∀ i, marked z i = false) :
    ∀ fuel iCnt iPrev, scanLoop fuel iCnt iPrev z = (iPrev, z)
  | 0, _, _ => rfl
  | fuel + 1, iCnt, iPrev => by
    rw [scanLoop, hm, if_neg Bool.false_ne_true, scanLoop_of_unmarked hm fuel]
    exact ite_self _

theorem initRegions_of_unmarked (hm : ∀ i, marked (initPages z) i = false)
    (hpos : 0 < (initPages z).presentPages) :
    initRegions z = addFreeRegionToBuddy (initPages z) 0 ((initPages z).presentPages - 1) := by
  unfold initRegions
  simp only
  rw [skipMarked_of_unmarked (hm 0), scanLoop_of_unmarked hm, if_pos hpos]

/-- 1024 pages, none of them marked. -/
def plainZone : Zone := createZone zoneBss (fun p => ⟨p, 0#32, 0, 0⟩) 1024 (by decide)

/-- After the set-up of 1024 pages the counter reads 2048, and 1024 pages are on the lists. -/
theorem freePages_plainZone :
    (initZone plainZone).map (fun z => (z.freePages, nrFreePages z)) = some (2048, 1024) := by
  have hpages : ∀ p, ((initPages plainZone).pages p).flags = 0#32 := by
    intro p
    rw [initPages_eq]
    simp only [plainZone, createZone, initAreas_loop]
    split_ifs <;> rfl
  have hpresent : (initPages plainZone).presentPages = 1024 := by
    rw [initPages_eq]
    simp only [plainZone, createZone, initAreas_loop]
  rw [initZone, initRegions_of_unmarked (fun i => by rw [marked, hpages]; rfl)
    (by rw [hpresent]; decide), hpresent, initPages_eq]
  simp only [plainZone, createZone, initAreas_loop]
  decide +kernel

/-- The general result at this zone. -/
theorem not_countsFreePages_plainZone : ¬ CountsFreePages plainZone :=
  (not_countsFreePages _ 1024 (by decide) fun _ _ =>
    show 0#32 &&& pgFlagPrivate ≠ pgFlagPrivate by decide).1

end YegaKernel.Buddy.Account
