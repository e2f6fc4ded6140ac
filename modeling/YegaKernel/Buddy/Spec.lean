import YegaKernel.Buddy.Represent

/-! # What the buddy operations do to the free blocks

For a zone that represents `L`: a successful `allocate_block` represents an `L'` that covers the
same pages less the block returned, `free_block` one that covers the block given back as well.
Descriptors of pages that are free neither before nor after are not touched. -/

namespace YegaKernel.Buddy.Spec

open Lib.Links Lib.Word Lib.Dyadic Function
open Buddy.State Buddy.Ops Buddy.FreeBlocks
open Buddy.Represent

/-! ### Splitting -/

variable {order : ℕ} {z : Zone} {L : ℕ → List ℕ}

theorem splitBlock_succ {current : ℕ} (h : order < current + 1) (p : ℕ) (z : Zone) :
    splitBlock order p (current + 1) (2 ^ (current + 1)) z =
      splitBlock order p current (2 ^ current) (putBlock z current (p + 2 ^ current)) := by
  rw [splitBlock, if_pos h]
  have : 2 ^ (current + 1) / 2 = 2 ^ current := by omega
  rw [this]
  rfl

/-- **The split loop**: of a block that is not free all but the part of the order asked for becomes
free. -/
theorem splitBlock_spec (order p : ℕ) : ∀ (current : ℕ) (z : Zone) (L : ℕ → List ℕ),
    Represents z L → order ≤ current → current < buddyGroups → 2 ^ current ∣ p →
      p + 2 ^ current ≤ z.presentPages → (∀ x, InBlock current p x → ¬ Covers L x) →
      Moves z (splitBlock order p current (2 ^ current) z) L (addParts L order p current) ∧
        (∀ x, Covers (addParts L order p current) x ↔
          Covers L x ∨ (InBlock current p x ∧ ¬ InBlock order p x)) ∧
        total (addParts L order p current) + 2 ^ order = total L + 2 ^ current ∧
        (splitBlock order p current (2 ^ current) z).freePages = z.freePages
  | 0, z, L, hr, ho, _, _, _, _ => by
    obtain rfl : order = 0 := by omega
    exact ⟨Moves.refl hr, fun x => (or_iff_left fun h => h.2 h.1).symm, rfl, rfl⟩
  | current + 1, z, L, hr, ho, hlt, hal, hb, hfree => by
    by_cases hoc : order < current + 1
    · have hup : ∀ x, InBlock current (p + 2 ^ current) x → ¬ Covers L x := fun x hx =>
        hfree x ((inBlock_succ current p x).mpr (Or.inr hx))
      have hal' : 2 ^ current ∣ p := dvd_trans (pow_dvd_pow 2 (Nat.le_succ current)) hal
      have hb' : p + 2 ^ current + 2 ^ current ≤ z.presentPages := by
        omega
      -- the buddy of the upper half is the lower half, which is not free
      have hput := hr.moves_putBlock (k := current) (p := p + 2 ^ current) (by omega)
        (dvd_add hal' (dvd_refl _)) hb' hup (fun _ hmem => by
          rw [buddy_upper hal] at hmem
          exact hfree p (inBlock_start _ p) (covers_of_mem hmem))
      have hfree' : ∀ x, InBlock current p x →
          ¬ Covers (update L current ((p + 2 ^ current) :: L current)) x := by
        intro x hx hc
        rcases (covers_insert x).mp hc with hc | hc
        · exact hfree x ((inBlock_succ current p x).mpr (Or.inl hx)) hc
        · exact not_both_halves hx hc
      obtain ⟨hmv, hcov, htot, hfp⟩ := splitBlock_spec order p current _ _ hput.rep (by omega)
        (by omega) hal' (by rw [hput.present]; omega) hfree'
      rw [splitBlock_succ hoc, addParts_succ (Nat.le_of_lt_succ hoc)]
      refine ⟨hput.trans hmv fun x hx => Or.inr ((hcov x).mpr (Or.inl hx)), fun x => ?_, ?_, hfp⟩
      · have hdis : InBlock current (p + 2 ^ current) x → ¬ InBlock order p x := fun hx hx' =>
          not_both_halves (hx'.mono (by omega)) hx
        rw [hcov, covers_insert, inBlock_succ]
        tauto
      · rw [total_insert (by omega)] at htot
        omega
    · obtain rfl : order = current + 1 := by omega
      rw [splitBlock, if_neg hoc, addParts_self]
      exact ⟨Moves.refl hr, fun x => (or_iff_left fun h => h.2 h.1).symm, rfl, rfl⟩

/-! ### Allocating -/

theorem findOrder_none (hr : Represents z L) {order : ℕ}
    (h : findOrder z order = none) : ∀ k, order ≤ k → L k = [] := by
  intro k hk
  by_cases hlt : k < buddyGroups
  · unfold findOrder at h
    rw [List.find?_eq_none] at h
    have := h k (by rw [List.mem_range'_1]; omega)
    rw [Bool.not_eq_true, Bool.not_eq_false'] at this
    simpa using (hr.ring k hlt).listIsEmpty_iff.mp this
  · exact hr.blocks.top k (not_lt.mp hlt)

theorem findOrder_some (hr : Represents z L) {order k : ℕ}
    (h : findOrder z order = some k) : order ≤ k ∧ k < buddyGroups ∧ L k ≠ [] ∧
      ∀ j, order ≤ j → j < k → L j = [] := by
  unfold findOrder at h
  rw [List.find?_range'_eq_some] at h
  obtain ⟨hne, hmem, hbelow⟩ := h
  rw [List.mem_range'_1] at hmem
  have hlt : k < buddyGroups := by omega
  refine ⟨hmem.1, hlt, fun hnil => ?_, fun j hj hjk => ?_⟩
  · have hempty := (hr.ring k hlt).listIsEmpty_iff.mpr (by rw [hnil]; rfl)
    rw [hempty] at hne
    exact absurd hne (by simp)
  · have hempty := hbelow j hj hjk
    rw [Bool.not_not] at hempty
    simpa using (hr.ring j (by omega)).listIsEmpty_iff.mp hempty

theorem Represents.first_page (hr : Represents z L) {k p : ℕ}
    {ps : List ℕ} (hk : k < buddyGroups) (hL : L k = p :: ps) :
    listEntry (LinkStore.next z (Node.area k)) = p := by
  have hring := hr.ring k hk
  rw [hL, List.map_cons] at hring
  rw [(hring.linked_head List.cons_append).1]
  rfl

/-- **The block that `allocate_block` takes**: the first one of the first list from `order` on that
is not empty. -/
structure Chosen (L : ℕ → List ℕ) (order p current : ℕ) (ps : List ℕ) : Prop where
  le : order ≤ current
  lt : current < buddyGroups
  list : L current = p :: ps
  below : ∀ k, order ≤ k → k < current → L k = []

/-- The lists when the block is taken and split down to `order`. -/
def splitLists (L : ℕ → List ℕ) (order p current : ℕ) (ps : List ℕ) : ℕ → List ℕ :=
  addParts (update L current ps) order p current

theorem allocateBlock_split (hr : Represents z L) {order current : ℕ}
    (hf : findOrder z order = some current) : ∃ p ps, Chosen L order p current ps ∧
      allocateBlock z order = (some p, splitBlock order p current (2 ^ current)
        { takeBlock z current p with freePages := sub32 z.freePages (2 ^ order) }) ∧
      Moves z (allocateBlock z order).2 L (splitLists L order p current ps) ∧
      (∀ x, Covers (splitLists L order p current ps) x ↔ Covers L x ∧ ¬ InBlock order p x) ∧
      total (splitLists L order p current ps) + 2 ^ order = total L ∧
      (allocateBlock z order).2.freePages = sub32 z.freePages (2 ^ order) := by
  obtain ⟨hoc, hlt, hne, hbelow⟩ := findOrder_some hr hf
  obtain ⟨p, ps, hk⟩ := List.exists_cons_of_ne_nil hne
  have hpk : p ∈ L current := by rw [hk]; simp
  have hk' : L current = [] ++ p :: ps := hk
  have htake := hr.moves_takeBlock hk'
  have hcov1 := hr.blocks.covers_erase hk'
  have htot1 := hr.blocks.total_erase hk'
  rw [List.nil_append] at htake hcov1 htot1
  have hfp := htake.trans (htake.rep.moves_withFreePages
    (sub32 z.freePages (2 ^ order))) fun x hx => Or.inr hx
  obtain ⟨hmv, hcov, htot, hfree⟩ := splitBlock_spec order p current _ _ hfp.rep hoc hlt
    (hr.blocks.aligned current p hpk) (hr.blocks.bound current p hpk)
    (fun x hx hc => ((hcov1 x).mp hc).2 hx)
  have heq : allocateBlock z order = (some p, splitBlock order p current (2 ^ current)
      { takeBlock z current p with freePages := sub32 z.freePages (2 ^ order) }) := by
    rw [allocateBlock, hf]
    simp only
    rw [Represents.first_page hr hlt hk]
    rfl
  refine ⟨p, ps, ⟨hoc, hlt, hk, hbelow⟩, heq, ?_, fun x => ?_, ?_, ?_⟩
  · rw [heq]
    exact hfp.trans hmv fun x hx => Or.inr ((hcov x).mpr (Or.inl hx))
  · have h1 : InBlock current p x → Covers L x := fun hx => ⟨current, p, hpk, hx⟩
    have h2 : InBlock order p x → InBlock current p x := fun hx => hx.mono hoc
    rw [splitLists, hcov, hcov1]
    tauto
  · rw [splitLists]
    omega
  · rw [heq]
    exact hfree

/-- What a call of `allocate_block` that finds no block leaves, and what one that finds a block
does. -/
theorem allocateBlock_spec (hr : Represents z L) (order : ℕ) :
    (allocateBlock z order = (none, z) ∧ ∀ k, order ≤ k → L k = []) ∨
      ∃ p z' L', allocateBlock z order = (some p, z') ∧ Moves z z' L L' ∧ 2 ^ order ∣ p ∧
        (∀ x, InBlock order p x → Covers L x) ∧
        (∀ x, Covers L' x ↔ Covers L x ∧ ¬ InBlock order p x) ∧
        total L' + 2 ^ order = total L ∧ z'.freePages = sub32 z.freePages (2 ^ order) := by
  rcases hf : findOrder z order with _ | current
  · left
    exact ⟨by rw [allocateBlock, hf], findOrder_none hr hf⟩
  · right
    obtain ⟨p, ps, hch, heq, hmv, hcov, htot, hfree⟩ := allocateBlock_split hr hf
    have hpk : p ∈ L current := by rw [hch.list]; simp
    rw [heq] at hmv hfree
    exact ⟨p, _, _, heq, hmv, dvd_trans (pow_dvd_pow 2 hch.le) (hr.blocks.aligned current p hpk),
      fun x hx => ⟨current, p, hpk, hx.mono hch.le⟩, hcov, htot, hfree⟩

/-! ### Freeing -/

theorem mergeBlock_succ {fuel idx : ℕ} (ho : order < buddyGroups - 1)
    (hb : buddy order idx < z.presentPages) (hbud : pageIsBuddy z (buddy order idx) order = true) :
    mergeBlock (fuel + 1) order idx z = mergeBlock fuel (order + 1) (idx &&& buddy order idx)
      (takeBlock z order (buddy order idx)) := by
  unfold buddy at hb hbud ⊢
  rw [mergeBlock, if_pos ho]
  rw [if_neg (not_le.mpr hb), if_neg (by simp [hbud])]
  rfl

theorem mergeBlock_stop {fuel idx : ℕ}
    (h : ¬ (order < buddyGroups - 1 ∧ buddy order idx < z.presentPages ∧
      pageIsBuddy z (buddy order idx) order = true)) :
    mergeBlock fuel order idx z = (order, idx, z) := by
  unfold buddy at h
  cases fuel with
  | zero => rfl
  | succ fuel =>
    rw [mergeBlock]
    simp only
    split_ifs with h1 h2 h3
    · rfl
    · rfl
    · exact absurd ⟨h1, not_le.mp h2, by simpa using h3⟩ h
    · rfl

theorem inBlock_merge {k p : ℕ} (h : 2 ^ k ∣ p) (x : ℕ) :
    InBlock (k + 1) (p &&& buddy k p) x ↔ InBlock k p x ∨ InBlock k (buddy k p) x := by
  rcases (merge h).2 with ⟨h1, h2⟩ | ⟨h1, h2⟩
  · rw [h1, inBlock_succ, ← h2]
  · rw [h1, inBlock_succ, ← h2, or_comm]

/-- The state of the merge loop: a block of `order` at `idx`, none of whose pages is covered, is to
become free. -/
structure Merging (z : Zone) (L : ℕ → List ℕ) (order idx : ℕ) : Prop where
  rep : Represents z L
  order_lt : order < buddyGroups
  aligned : 2 ^ order ∣ idx
  bound : idx + 2 ^ order ≤ z.presentPages
  fresh : ∀ x, InBlock order idx x → ¬ Covers L x

/-- **The merge loop** ends with a block whose buddy is not free; the pages to be covered in the end
are the same all the time. -/
theorem mergeBlock_spec : ∀ (fuel order idx : ℕ) (z : Zone) (L : ℕ → List ℕ),
    Merging z L order idx → buddyGroups ≤ order + fuel + 1 →
      ∃ order' idx' z' L', mergeBlock fuel order idx z = (order', idx', z') ∧ Moves z z' L L' ∧
        Merging z' L' order' idx' ∧ (order' + 1 < buddyGroups → buddy order' idx' ∉ L' order') ∧
        (∀ x, Covers L' x ∨ InBlock order' idx' x ↔ Covers L x ∨ InBlock order idx x) ∧
        (∀ x, Covers L' x → Covers L x) ∧
        total L' + 2 ^ order' = total L + 2 ^ order ∧ z'.freePages = z.freePages := by
  intro fuel
  induction fuel with
  | zero =>
    intro order idx z L hm hfuel
    exact ⟨order, idx, z, L, rfl, Moves.refl hm.rep, hm, fun h => by omega, fun _ => Iff.rfl,
      fun _ h => h, rfl, rfl⟩
  | succ fuel ih =>
    intro order idx z L hm hfuel
    by_cases hgo : order < buddyGroups - 1 ∧ buddy order idx < z.presentPages ∧
        pageIsBuddy z (buddy order idx) order = true
    · obtain ⟨ho, hb, hbud⟩ := hgo
      have hmem : buddy order idx ∈ L order := (hm.rep.pageIsBuddy_iff hb).mp hbud
      obtain ⟨us, vs, hk⟩ := List.append_of_mem hmem
      have htake := hm.rep.moves_takeBlock hk
      have hcov := hm.rep.blocks.covers_erase hk
      have htot := hm.rep.blocks.total_erase hk
      have hbound := hm.rep.blocks.bound order _ hmem
      have hm' : Merging (takeBlock z order (buddy order idx)) (update L order (us ++ vs))
          (order + 1) (idx &&& buddy order idx) := by
        refine ⟨htake.rep, by omega, (merge hm.aligned).1, ?_, fun x hx hc => ?_⟩
        · rw [htake.present, pow_succ]
          have := hm.bound
          rcases (merge hm.aligned).2 with ⟨h1, h2⟩ | ⟨h1, h2⟩ <;> omega
        · obtain ⟨hc, hnb⟩ := (hcov x).mp hc
          rcases (inBlock_merge hm.aligned x).mp hx with hx | hx
          · exact hm.fresh x hx hc
          · exact hnb hx
      obtain ⟨order', idx', z', L', heq, hmv, hm2, hstop, hcov', hsub, htot', hfp⟩ :=
        ih (order + 1) _ _ _ hm' (by omega)
      refine ⟨order', idx', z', L', ?_, htake.trans hmv fun x hx => Or.inl ((hcov x).mp hx).1, hm2,
        hstop, fun x => ?_, fun x hx => ((hcov x).mp (hsub x hx)).1, ?_, hfp⟩
      · rw [mergeBlock_succ ho hb hbud, heq]
      · rw [hcov', hcov, inBlock_merge hm.aligned]
        have : InBlock order (buddy order idx) x → Covers L x := fun hx => ⟨order, _, hmem, hx⟩
        tauto
      · omega
    · refine ⟨order, idx, z, L, mergeBlock_stop hgo, Moves.refl hm.rep, hm, fun h hmem => hgo ?_,
        fun _ => Iff.rfl, fun _ h => h, rfl, rfl⟩
      have hb : buddy order idx < z.presentPages :=
        (inBlock_start order _).lt_bound hm.rep.blocks hmem
      exact ⟨by omega, hb, (hm.rep.pageIsBuddy_iff hb).mpr hmem⟩

/-- **`free_block`** of an aligned block none of whose pages is free. -/
theorem freeBlock_spec {p : ℕ} (hm : Merging z L order p) :
    ∃ L', Moves z (freeBlock z p order) L L' ∧
      (∀ x, Covers L' x ↔ Covers L x ∨ InBlock order p x) ∧ total L' = total L + 2 ^ order ∧
      (freeBlock z p order).freePages = u32 (z.freePages + 2 ^ order) := by
  have hfp := hm.rep.moves_withFreePages (u32 (z.freePages + 2 ^ order))
  have hm0 : Merging { z with freePages := u32 (z.freePages + 2 ^ order) } L order p :=
    ⟨hfp.rep, hm.order_lt, hm.aligned, hm.bound, hm.fresh⟩
  obtain ⟨order', idx', z', L', heq, hmv, hm', hstop, hcov, hsub, htot, hfree⟩ :=
    mergeBlock_spec buddyGroups order p _ L hm0 (by omega)
  have hput := hm'.rep.moves_putBlock hm'.order_lt hm'.aligned hm'.bound hm'.fresh hstop
  have hz : freeBlock z p order = putBlock z' order' idx' := by
    unfold freeBlock
    simp only
    rw [heq]
    rfl
  rw [hz]
  refine ⟨_, (hfp.trans hmv fun x hx => Or.inl hx).trans hput fun x hx => Or.inl (hsub x hx),
    fun x => ?_, ?_, ?_⟩
  · rw [covers_insert, hcov]
  · rw [total_insert hm'.order_lt, htot]
  · exact hfree

end YegaKernel.Buddy.Spec
