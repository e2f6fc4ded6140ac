import YegaKernel.Buddy.Spec
import Mathlib.Logic.Relation

/-! # The buddy invariant over whole runs

`BuddyInvariant z` speaks of the zone alone, through the traversal of its lists; it says that the
zone represents some free blocks (`buddyInvariant_iff`). Every zone reached from zeroed descriptors
and empty lists by regions added, blocks allocated and blocks freed satisfies it. -/

namespace YegaKernel.Buddy.Run

open Lib.Links Lib.Word Lib.Dyadic Relation
open Buddy.State Buddy.Ops Buddy.FreeBlocks
open Buddy.Represent Buddy.Spec

/-! ### Regions -/

theorem dvd_of_testBit {n i : ℕ} (h : ∀ j < i, n.testBit j = false) : 2 ^ i ∣ n := by
  refine Nat.dvd_of_mod_eq_zero (Nat.eq_of_testBit_eq fun j => ?_)
  by_cases hj : j < i
  · simp [h j hj]
  · simp [hj]

theorem builtinCtz_dvd (n : ℕ) : 2 ^ builtinCtz n ∣ n := by
  refine dvd_of_testBit fun j hj => ?_
  unfold builtinCtz at hj
  rcases hf : (List.range 32).find? fun i => n.testBit i with _ | i
  · rw [hf, Option.getD_none] at hj
    rw [List.find?_range_eq_none] at hf
    simpa using hf j hj
  · rw [hf, Option.getD_some] at hj
    rw [List.find?_range_eq_some] at hf
    simpa using hf.2.2 j hj

theorem regionOrder_spec (current : ℕ) {remaining : ℕ} (h : remaining ≠ 0) :
    regionOrder current remaining < buddyGroups ∧ 2 ^ regionOrder current remaining ∣ current ∧
      2 ^ regionOrder current remaining ≤ remaining := by
  have hal : 2 ^ (if current ≠ 0 then builtinCtz current else buddyGroups) ∣ current := by
    split_ifs with hc
    · exact builtinCtz_dvd current
    · rw [not_not] at hc
      rw [hc]
      exact dvd_zero _
  have hsz : 2 ^ Nat.log2 remaining ≤ remaining := Nat.log2_self_le h
  generalize ha : (if current ≠ 0 then builtinCtz current else buddyGroups) = alignment at hal
  have hle : regionOrder current remaining < buddyGroups ∧
      regionOrder current remaining ≤ alignment ∧
      regionOrder current remaining ≤ Nat.log2 remaining := by
    unfold regionOrder
    simp only [ha]
    unfold buddyGroups
    split_ifs <;> omega
  exact ⟨hle.1, dvd_trans (pow_dvd_pow 2 hle.2.1) hal,
    le_trans (Nat.pow_le_pow_right (by norm_num) hle.2.2) hsz⟩

variable {z : Zone}

theorem region_empty {L : ℕ → List ℕ} {current fin : ℕ} (hr : Represents z L) (h : fin < current) :
    ∃ L', Moves z z L L' ∧ (∀ x, Covers L' x ↔ Covers L x ∨ (current ≤ x ∧ x ≤ fin)) ∧
      total L' = total L + (fin + 1 - current) ∧
      u32 z.freePages = u32 (z.freePages + (fin + 1 - current)) := by
  refine ⟨L, Moves.refl hr, fun x => ⟨Or.inl, ?_⟩, by omega, ?_⟩
  · rintro (hx | hx)
    · exact hx
    · omega
  · rw [show fin + 1 - current = 0 by omega, Nat.add_zero]

/-- **The region loop** makes exactly the pages from `current` to `fin` free. -/
theorem addRegionLoop_spec (fin : ℕ) : ∀ (fuel current : ℕ) (z : Zone) (L : ℕ → List ℕ),
    Represents z L → fin + 1 ≤ current + fuel →
      (∀ x, current ≤ x → x ≤ fin → x < z.presentPages ∧ ¬ Covers L x) →
      ∃ L', Moves z (addRegionLoop fuel current fin z) L L' ∧
        (∀ x, Covers L' x ↔ Covers L x ∨ (current ≤ x ∧ x ≤ fin)) ∧
        total L' = total L + (fin + 1 - current) ∧
        u32 (addRegionLoop fuel current fin z).freePages =
          u32 (z.freePages + (fin + 1 - current)) := by
  intro fuel
  induction fuel with
  | zero =>
    intro current z L hr hfuel _
    exact region_empty hr (by omega)
  | succ fuel ih =>
    intro current z L hr hfuel hfresh
    rw [addRegionLoop]
    by_cases hc : current ≤ fin
    · rw [if_pos hc]
      obtain ⟨hlt, hal, hsz⟩ := regionOrder_spec current (Nat.succ_ne_zero (fin - current))
      generalize regionOrder current (fin - current + 1) = order at hlt hal hsz ⊢
      have hin : ∀ x, InBlock order current x → current ≤ x ∧ x ≤ fin := fun x hx => by
        unfold InBlock at hx
        omega
      have hlast := (hfresh (current + 2 ^ order - 1) (by omega) (by omega)).1
      have hm : Merging z L order current :=
        ⟨hr, hlt, hal, by omega, fun x hx => (hfresh x (hin x hx).1 (hin x hx).2).2⟩
      obtain ⟨L1, hmv, hcov, htot, hfp⟩ := freeBlock_spec hm
      obtain ⟨L', hmv', hcov', htot', hfp'⟩ := ih (current + 2 ^ order) _ L1 hmv.rep (by omega)
        (fun x hx hx' => by
          obtain ⟨h1, h2⟩ := hfresh x (by omega) hx'
          refine ⟨by rw [hmv.present]; exact h1, fun hx1 => ?_⟩
          rcases (hcov x).mp hx1 with h | h
          · exact h2 h
          · unfold InBlock at h
            omega)
      refine ⟨L', hmv.trans hmv' fun x hx => Or.inr ((hcov' x).mpr (Or.inl hx)), fun x => ?_, ?_, ?_⟩
      · rw [hcov', hcov]
        unfold InBlock
        constructor
        · rintro ((h | h) | h)
          · exact Or.inl h
          · exact Or.inr (by omega)
          · exact Or.inr (by omega)
        · rintro (h | h)
          · exact Or.inl (Or.inl h)
          · by_cases hx : x < current + 2 ^ order
            · exact Or.inl (Or.inr ⟨h.1, hx⟩)
            · exact Or.inr (by omega)
      · omega
      · rw [hfp', hfp]
        unfold u32
        omega
    · rw [if_neg hc]
      exact region_empty hr (by omega)

/-- **`add_free_region_to_buddy`** of pages in range none of which is free. -/
theorem addFreeRegionToBuddy_spec {L : ℕ → List ℕ} {start fin : ℕ} (hr : Represents z L)
    (hfresh : ∀ x, start ≤ x → x ≤ fin → x < z.presentPages ∧ ¬ Covers L x) :
    ∃ L', Moves z (addFreeRegionToBuddy z start fin) L L' ∧
      (∀ x, Covers L' x ↔ Covers L x ∨ (start ≤ x ∧ x ≤ fin)) ∧
      total L' = total L + (fin + 1 - start) ∧ u32 (addFreeRegionToBuddy z start fin).freePages =
        u32 (z.freePages + (fin + 1 - start)) :=
  addRegionLoop_spec fin (fin + 1 - start) start z L hr (by omega) hfresh

/-! ### The invariant -/

/-- **The buddy invariant** of a zone. -/
structure BuddyInvariant (z : Zone) : Prop where
  wellFormed : ∀ k < buddyGroups, Ring z (Node.area k) ((freeList z k).map Node.lru)
  aligned : ∀ k < buddyGroups, ∀ p ∈ freeList z k, 2 ^ k ∣ p
  inRange : ∀ k < buddyGroups, ∀ p ∈ freeList z k, p + 2 ^ k ≤ z.presentPages
  disjoint : ∀ k < buddyGroups, ∀ j < buddyGroups, ∀ p ∈ freeList z k, ∀ q ∈ freeList z j,
    k ≠ j ∨ p ≠ q → p + 2 ^ k ≤ q ∨ q + 2 ^ j ≤ p
  nrFree : ∀ k < buddyGroups, z.nrFree k = (freeList z k).length
  flag : ∀ p < z.presentPages, pagePrivate z p = true ↔ ∃ k < buddyGroups, p ∈ freeList z k
  order : ∀ k < buddyGroups, ∀ p ∈ freeList z k, (z.pages p).priv = k
  coalesced : ∀ k < buddyGroups - 1, ∀ p ∈ freeList z k, p ^^^ 2 ^ k ∉ freeList z k

theorem nodup_of_ring {k : ℕ} {l : List ℕ} (h : Ring z (Node.area k) (l.map Node.lru)) :
    l.Nodup := List.Nodup.of_map _ (List.nodup_cons.mp h.nodup).2

theorem buddyInvariant_iff : BuddyInvariant z ↔ ∃ L, Represents z L := by
  constructor
  · intro h
    have hmem : ∀ {k p : ℕ}, p ∈ (if k < buddyGroups then freeList z k else []) →
        k < buddyGroups ∧ p ∈ freeList z k := by
      intro k p hp
      split_ifs at hp with hk
      · exact ⟨hk, hp⟩
      · exact absurd hp List.not_mem_nil
    refine ⟨fun k => if k < buddyGroups then freeList z k else [], ⟨?_, fun k hk => ?_,
      fun k hk => ?_, fun p hp => ?_, fun k p hp => h.order k (hmem hp).1 p (hmem hp).2⟩⟩
    · refine ⟨fun k hk => if_neg (by omega), fun k => ?_,
        fun k p hp => h.aligned k (hmem hp).1 p (hmem hp).2,
        fun k p hp => h.inRange k (hmem hp).1 p (hmem hp).2,
        fun k j p hp q hq => h.disjoint k (hmem hp).1 j (hmem hq).1 p (hmem hp).2 q (hmem hq).2,
        fun k hk p hp hb => h.coalesced k (by omega) p (hmem hp).2 (hmem hb).2⟩
      split_ifs with hk
      · exact nodup_of_ring (h.wellFormed k hk)
      · exact List.nodup_nil
    · rw [if_pos hk]
      exact h.wellFormed k hk
    · rw [if_pos hk]
      exact h.nrFree k hk
    · rw [h.flag p hp]
      exact ⟨fun ⟨k, hk, hpk⟩ => ⟨k, by rwa [if_pos hk]⟩, fun ⟨k, hpk⟩ => ⟨k, hmem hpk⟩⟩
  · rintro ⟨L, hr⟩
    have hL : ∀ k < buddyGroups, freeList z k = L k := fun k hk => hr.freeList_eq hk
    refine ⟨fun k hk => ?_, fun k hk => ?_, fun k hk => ?_, fun k hk j hj => ?_, fun k hk => ?_,
      fun p hp => ?_, fun k hk => ?_, fun k hk => ?_⟩
    · rw [hL k hk]; exact hr.ring k hk
    · rw [hL k hk]; exact hr.blocks.aligned k
    · rw [hL k hk]; exact hr.blocks.bound k
    · rw [hL k hk, hL j hj]; exact hr.blocks.disjoint k j
    · rw [hL k hk]; exact hr.nrFree k hk
    · rw [hr.flag p hp]
      constructor
      · rintro ⟨k, hpk⟩
        have hk := lt_of_mem hr.blocks hpk
        exact ⟨k, hk, by rwa [hL k hk]⟩
      · rintro ⟨k, hk, hpk⟩
        exact ⟨k, by rwa [← hL k hk]⟩
    · rw [hL k hk]; exact hr.order k
    · rw [hL k (by omega)]; exact hr.blocks.coalesced k (by omega)

/-! ### Runs -/

/-- One call, under the conditions its callers keep: regions and blocks are in range and not free
yet, blocks are naturally aligned. -/
inductive Step : Zone → Zone → Prop
  | addRegion {z : Zone} (start fin : ℕ)
      (h : ∀ x, start ≤ x → x ≤ fin → x < z.presentPages ∧ ¬ PageFree z x) :
      Step z (addFreeRegionToBuddy z start fin)
  | allocate {z : Zone} (order : ℕ) (h : order < buddyGroups) : Step z (allocateBlock z order).2
  | free {z : Zone} (p order : ℕ) (ho : order < buddyGroups) (ha : 2 ^ order ∣ p)
      (hb : p + 2 ^ order ≤ z.presentPages) (h : ∀ x, p ≤ x → x < p + 2 ^ order → ¬ PageFree z x) :
      Step z (freeBlock z p order)

/-- Empty free lists and zeroed page descriptors. -/
structure Zeroed (z : Zone) : Prop where
  lists : ∀ k < buddyGroups, z.links (Node.area k) = ⟨Node.area k, Node.area k⟩
  counts : ∀ k < buddyGroups, z.nrFree k = 0
  pages : ∀ p < z.presentPages, z.pages p = ⟨0, 0#32, 0, 0⟩ ∧
    z.links (Node.lru p) = ⟨Node.null, Node.null⟩

theorem Zeroed.represents (h : Zeroed z) : Represents z fun _ => [] := by
  refine ⟨blocks_empty _, fun k hk => ?_, fun k hk => h.counts k hk, fun p hp => ?_, by simp⟩
  · refine ⟨List.pairwise_singleton _ _, ?_⟩
    rw [List.map_nil, List.cons_append, List.nil_append, List.isChain_cons_cons]
    exact ⟨⟨congrArg ListHead.next (h.lists k hk), congrArg ListHead.prev (h.lists k hk)⟩,
      .singleton _⟩
  · unfold pagePrivate
    rw [(h.pages p hp).1]
    simp [pgFlagPrivate]

theorem Step.represents {z' : Zone} (hs : Step z z') (h : ∃ L, Represents z L) :
    ∃ L, Represents z' L := by
  obtain ⟨L, hr⟩ := h
  cases hs with
  | addRegion start fin hfresh =>
    obtain ⟨L', hmv, -⟩ := addFreeRegionToBuddy_spec hr fun x hx hx' =>
      ⟨(hfresh x hx hx').1, fun hc => (hfresh x hx hx').2 ((hr.pageFree_iff x).mpr hc)⟩
    exact ⟨L', hmv.rep⟩
  | allocate order ho =>
    rcases allocateBlock_spec hr order with ⟨heq, -⟩ | ⟨p, z', L', heq, hmv, -⟩
    · rw [heq]; exact ⟨L, hr⟩
    · rw [heq]; exact ⟨L', hmv.rep⟩
  | free p order ho ha hb hfresh =>
    have hm : Merging z L order p :=
      ⟨hr, ho, ha, hb, fun x hx hc => hfresh x hx.1 hx.2 ((hr.pageFree_iff x).mpr hc)⟩
    obtain ⟨L', hmv, -⟩ := freeBlock_spec hm
    exact ⟨L', hmv.rep⟩

/-- **The buddy invariant holds in every reachable zone.** -/
theorem buddyInvariant_of_reachable {z₀ z : Zone} (h₀ : Zeroed z₀)
    (h : ReflTransGen Step z₀ z) : BuddyInvariant z := by
  rw [buddyInvariant_iff]
  induction h with
  | refl => exact ⟨_, h₀.represents⟩
  | tail _ hs ih => exact hs.represents ih

/-- A zone of `n` pages before any page is given to it. -/
def emptyZone (n : ℕ) (h : sizeofPage * n ≤ 2 ^ 32) : Zone where
  freePages := 0
  presentPages := n
  pages := fun _ => ⟨0, 0#32, 0, 0⟩
  links := fun m => match m with
    | .area k => ⟨Node.area k, Node.area k⟩
    | _ => ⟨Node.null, Node.null⟩
  nrFree := fun _ => 0
  present_le := h

theorem zeroed_emptyZone (n : ℕ) (h : sizeofPage * n ≤ 2 ^ 32) : Zeroed (emptyZone n h) :=
  ⟨fun _ _ => rfl, fun _ _ => rfl, fun _ _ => ⟨rfl, rfl⟩⟩

/-- All pages from page `p` on are free. -/
theorem buddyInvariant_region {n : ℕ} (h : sizeofPage * n ≤ 2 ^ 32) (hn : 0 < n) (p : ℕ) :
    BuddyInvariant (addFreeRegionToBuddy (emptyZone n h) p (n - 1)) := by
  have hempty := (zeroed_emptyZone n h).represents
  refine buddyInvariant_iff.mpr
    (Step.represents (.addRegion p (n - 1) fun x _ hx => ⟨?_, fun hf => ?_⟩) ⟨_, hempty⟩)
  · change x < n
    omega
  · obtain ⟨k, q, hq, -⟩ := (hempty.pageFree_iff x).mp hf
    exact absurd hq List.not_mem_nil

/-- A zone of six pages: five are added, one is allocated and given back. -/
theorem buddyInvariant_six_pages : BuddyInvariant (freeBlock
    (allocateBlock (addFreeRegionToBuddy (emptyZone 6 (by decide)) 1 5) 0).2 1 0) := by
  refine buddyInvariant_of_reachable (zeroed_emptyZone 6 (by decide)) ?_
  refine ((ReflTransGen.single (Step.addRegion 1 5 fun x hx hx' => ?_)).tail
    (Step.allocate 0 (by decide))).tail
    (Step.free 1 0 (by decide) (by decide) (by decide) fun x hx hx' => ?_)
  · interval_cases x <;> decide
  · interval_cases x
    decide

end YegaKernel.Buddy.Run
