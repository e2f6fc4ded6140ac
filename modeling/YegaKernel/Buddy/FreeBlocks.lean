import YegaKernel.Lib.Dyadic
import YegaKernel.Buddy.State
import Mathlib.Algebra.BigOperators.Group.Finset.Basic
import Mathlib.Algebra.Order.BigOperators.Group.Finset

/-! # Free blocks

What a buddy allocator keeps: for every order `k` a sequence `L k` of starts of free blocks. `Blocks
n L` is its purpose: the blocks are dyadic, lie below `n`, do not overlap, and no block has its
buddy on the same list, so that free memory is never split further than it has to be.

`Blocks.erase` and `Blocks.insert` are the two ways the lists change; the pages covered (`Covers`)
and their number (`total`) change with them. -/

namespace YegaKernel.Buddy.FreeBlocks

open Lib.Dyadic Buddy.State Function

/-- The page `x` lies in the block of order `k` at `p`. -/
def InBlock (k p x : ℕ) : Prop := p ≤ x ∧ x < p + 2 ^ k

instance (k p x : ℕ) : Decidable (InBlock k p x) := by unfold InBlock; infer_instance

/-- The page `x` lies in a block of `L`. -/
def Covers (L : ℕ → List ℕ) (x : ℕ) : Prop := ∃ k, ∃ p ∈ L k, InBlock k p x

/-- **The lists of a buddy allocator** over `n` pages. -/
structure Blocks (n : ℕ) (L : ℕ → List ℕ) : Prop where
  top : ∀ k, buddyGroups ≤ k → L k = []
  nodup : ∀ k, (L k).Nodup
  aligned : ∀ k, ∀ p ∈ L k, 2 ^ k ∣ p
  bound : ∀ k, ∀ p ∈ L k, p + 2 ^ k ≤ n
  disjoint : ∀ k j, ∀ p ∈ L k, ∀ q ∈ L j, k ≠ j ∨ p ≠ q → p + 2 ^ k ≤ q ∨ q + 2 ^ j ≤ p
  coalesced : ∀ k, k + 1 < buddyGroups → ∀ p ∈ L k, buddy k p ∉ L k

theorem inBlock_start (k p : ℕ) : InBlock k p p := ⟨le_rfl, Nat.lt_add_of_pos_right (by positivity)⟩

theorem inBlock_succ (k p x : ℕ) : InBlock (k + 1) p x ↔ InBlock k p x ∨ InBlock k (p + 2 ^ k) x := by
  unfold InBlock
  omega

variable {k p x j n : ℕ} {L : ℕ → List ℕ}

theorem not_both_halves (h : InBlock k p x) : ¬ InBlock k (p + 2 ^ k) x := by
  unfold InBlock at *
  omega

theorem InBlock.mono (h : InBlock k p x) (hkj : k ≤ j) : InBlock j p x := by
  have : 2 ^ k ≤ 2 ^ j := Nat.pow_le_pow_right (by norm_num) hkj
  unfold InBlock at *
  omega

theorem InBlock.lt_bound (hL : Blocks n L) (hp : p ∈ L k)
    (hx : InBlock k p x) : x < n := lt_of_lt_of_le hx.2 (hL.bound k p hp)

theorem Blocks.bound_of_covers (hL : Blocks n L)
    (hin : ∀ x, InBlock k p x → Covers L x) : p + 2 ^ k ≤ n := by
  have hpos : 0 < 2 ^ k := by positivity
  obtain ⟨j, q, hq, hx⟩ := hin (p + 2 ^ k - 1) ⟨by omega, by omega⟩
  have := hx.lt_bound hL hq
  omega

theorem covers_of_mem (hp : p ∈ L k) : Covers L p :=
  ⟨k, p, hp, inBlock_start k p⟩

theorem lt_of_mem (hL : Blocks n L) (hp : p ∈ L k) : k < buddyGroups := by
  by_contra hk
  rw [hL.top k (not_lt.mp hk)] at hp
  exact absurd hp List.not_mem_nil

theorem Blocks.eq_of_inBlock {q : ℕ} (hL : Blocks n L) (hp : p ∈ L k)
    (hq : q ∈ L j) (hx : InBlock k p x) (hx' : InBlock j q x) : k = j ∧ p = q := by
  by_contra hne
  have h1 := hx.1
  have h2 := hx.2
  have h3 := hx'.1
  have h4 := hx'.2
  rcases hL.disjoint k j p hp q hq (by tauto) with h | h <;> omega

theorem Blocks.order_unique (hL : Blocks n L) (hp : p ∈ L k) (hq : p ∈ L j) : k = j :=
  (hL.eq_of_inBlock hp hq (inBlock_start k p) (inBlock_start j p)).1

theorem apart_of_no_common {q : ℕ} (h : ∀ x, InBlock k p x → ¬ InBlock j q x) :
    p + 2 ^ k ≤ q ∨ q + 2 ^ j ≤ p := by
  by_contra hc
  have hk : 0 < 2 ^ k := by positivity
  have hj : 0 < 2 ^ j := by positivity
  rcases le_total p q with hpq | hpq
  · exact h q ⟨hpq, by omega⟩ ⟨le_rfl, by omega⟩
  · exact h p ⟨le_rfl, by omega⟩ ⟨hpq, by omega⟩

theorem blocks_empty (n : ℕ) : Blocks n fun _ => [] := by
  constructor <;> simp

/-! ### The number of pages -/

/-- The number of pages in the blocks. -/
def total (L : ℕ → List ℕ) : ℕ := ∑ k ∈ Finset.range buddyGroups, (L k).length * 2 ^ k

theorem total_update (hk : k < buddyGroups) (l : List ℕ) :
    total (update L k l) + (L k).length * 2 ^ k = total L + l.length * 2 ^ k := by
  unfold total
  have hmem : k ∈ Finset.range buddyGroups := Finset.mem_range.mpr hk
  rw [← Finset.add_sum_erase _ _ hmem, ← Finset.add_sum_erase (Finset.range buddyGroups) _ hmem]
  have hrest : ∑ j ∈ (Finset.range buddyGroups).erase k, (update L k l j).length * 2 ^ j =
      ∑ j ∈ (Finset.range buddyGroups).erase k, (L j).length * 2 ^ j := by
    refine Finset.sum_congr rfl fun j hj => ?_
    rw [update_of_ne (Finset.ne_of_mem_erase hj)]
  rw [hrest, update_self]
  omega

/-! ### Taking a block off its list -/

section Erase
variable {n k p : ℕ} {L : ℕ → List ℕ} {us vs : List ℕ}

theorem mem_of_mem_update (hk : L k = us ++ p :: vs) {j q : ℕ}
    (hq : q ∈ update L k (us ++ vs) j) : q ∈ L j := by
  by_cases hj : j = k
  · subst hj
    rw [update_self, List.mem_append] at hq
    rw [hk, List.mem_append, List.mem_cons]
    tauto
  · rwa [update_of_ne hj] at hq

theorem Blocks.mem_erase_iff (hL : Blocks n L) (hk : L k = us ++ p :: vs) {j q : ℕ} :
    q ∈ update L k (us ++ vs) j ↔ q ∈ L j ∧ (j ≠ k ∨ q ≠ p) := by
  by_cases hj : j = k
  · subst hj
    have hnd := hL.nodup j
    rw [hk, List.nodup_middle, List.nodup_cons] at hnd
    rw [update_self, hk]
    simp only [List.mem_append, List.mem_cons] at hnd ⊢
    constructor
    · intro hq
      exact ⟨by tauto, Or.inr fun he => hnd.1 (he ▸ hq)⟩
    · rintro ⟨hq, hne | hne⟩
      · exact absurd rfl hne
      · tauto
  · simp [hj]

theorem Blocks.erase (hL : Blocks n L) (hk : L k = us ++ p :: vs) :
    Blocks n (update L k (us ++ vs)) where
  top j hj := by
    rw [List.eq_nil_iff_forall_not_mem]
    intro q hq
    have := mem_of_mem_update hk hq
    rw [hL.top j hj] at this
    exact List.not_mem_nil this
  nodup j := by
    by_cases hj : j = k
    · subst hj
      have hnd := hL.nodup j
      rw [hk, List.nodup_middle, List.nodup_cons] at hnd
      rw [update_self]
      exact hnd.2
    · rw [update_of_ne hj]
      exact hL.nodup j
  aligned j q hq := hL.aligned j q (mem_of_mem_update hk hq)
  bound j q hq := hL.bound j q (mem_of_mem_update hk hq)
  disjoint i j q hq r hr := hL.disjoint i j q (mem_of_mem_update hk hq) r (mem_of_mem_update hk hr)
  coalesced j hj q hq hb := hL.coalesced j hj q (mem_of_mem_update hk hq) (mem_of_mem_update hk hb)

theorem Blocks.covers_erase (hL : Blocks n L) (hk : L k = us ++ p :: vs) (x : ℕ) :
    Covers (update L k (us ++ vs)) x ↔ Covers L x ∧ ¬ InBlock k p x := by
  have hp : p ∈ L k := by rw [hk]; simp
  constructor
  · rintro ⟨j, q, hq, hx⟩
    obtain ⟨hqL, hne⟩ := (hL.mem_erase_iff hk).mp hq
    refine ⟨⟨j, q, hqL, hx⟩, fun hx' => ?_⟩
    obtain ⟨h1, h2⟩ := hL.eq_of_inBlock hqL hp hx hx'
    tauto
  · rintro ⟨⟨j, q, hq, hx⟩, hx'⟩
    refine ⟨j, q, (hL.mem_erase_iff hk).mpr ⟨hq, ?_⟩, hx⟩
    by_contra hc
    push Not at hc
    obtain ⟨rfl, rfl⟩ := hc
    exact hx' hx

theorem Blocks.total_erase (hL : Blocks n L) (hk : L k = us ++ p :: vs) :
    total (update L k (us ++ vs)) + 2 ^ k = total L := by
  have hlt : k < buddyGroups := lt_of_mem hL (p := p) (by rw [hk]; simp)
  have h := total_update (L := L) hlt (us ++ vs)
  rw [hk] at h
  simp only [List.length_append, List.length_cons] at h
  have : (us.length + (vs.length + 1)) * 2 ^ k = (us.length + vs.length) * 2 ^ k + 2 ^ k := by ring
  omega

end Erase

/-! ### Putting a block on its list -/

section Insert
variable {n k p : ℕ} {L : ℕ → List ℕ}

theorem mem_insert_iff {j q : ℕ} : q ∈ update L k (p :: L k) j ↔ q ∈ L j ∨ (j = k ∧ q = p) := by
  by_cases hj : j = k
  · subst hj
    rw [update_self, List.mem_cons]
    tauto
  · simp [hj]

theorem Blocks.insert (hL : Blocks n L) (hk : k < buddyGroups) (ha : 2 ^ k ∣ p)
    (hb : p + 2 ^ k ≤ n) (hfree : ∀ x, InBlock k p x → ¬ Covers L x)
    (hbuddy : k + 1 < buddyGroups → buddy k p ∉ L k) : Blocks n (update L k (p :: L k)) where
  top j hj := by rw [update_of_ne (by omega)]; exact hL.top j hj
  nodup j := by
    by_cases hj : j = k
    · subst hj
      rw [update_self, List.nodup_cons]
      exact ⟨fun hp => hfree p (inBlock_start j p) (covers_of_mem hp), hL.nodup j⟩
    · rw [update_of_ne hj]
      exact hL.nodup j
  aligned j q hq := by
    rcases mem_insert_iff.mp hq with hq | ⟨rfl, rfl⟩
    · exact hL.aligned j q hq
    · exact ha
  bound j q hq := by
    rcases mem_insert_iff.mp hq with hq | ⟨rfl, rfl⟩
    · exact hL.bound j q hq
    · exact hb
  disjoint i j q hq r hr hne := by
    have hnew : ∀ i, ∀ q ∈ L i, p + 2 ^ k ≤ q ∨ q + 2 ^ i ≤ p := fun i q hq =>
      apart_of_no_common fun x hx hx' => hfree x hx ⟨i, q, hq, hx'⟩
    rcases mem_insert_iff.mp hq with hq' | ⟨rfl, rfl⟩ <;>
      rcases mem_insert_iff.mp hr with hr' | ⟨rfl, rfl⟩
    · exact hL.disjoint i j q hq' r hr' hne
    · exact (hnew i q hq').symm
    · exact hnew j r hr'
    · simp at hne
  coalesced j hj q hq hqb := by
    rcases mem_insert_iff.mp hq with hq' | ⟨rfl, rfl⟩ <;>
      rcases mem_insert_iff.mp hqb with hb' | ⟨hjk, hb'⟩
    · exact hL.coalesced j hj q hq' hb'
    · subst hjk
      exact hbuddy hj (by rwa [← hb', buddy_buddy])
    · exact hbuddy hj hb'
    · exact buddy_ne hb'

theorem covers_insert (x : ℕ) : Covers (update L k (p :: L k)) x ↔ Covers L x ∨ InBlock k p x := by
  constructor
  · rintro ⟨j, q, hq, hx⟩
    rcases mem_insert_iff.mp hq with hq | ⟨rfl, rfl⟩
    · exact Or.inl ⟨j, q, hq, hx⟩
    · exact Or.inr hx
  · rintro (⟨j, q, hq, hx⟩ | hx)
    · exact ⟨j, q, mem_insert_iff.mpr (Or.inl hq), hx⟩
    · exact ⟨k, p, mem_insert_iff.mpr (Or.inr ⟨rfl, rfl⟩), hx⟩

theorem total_insert (hk : k < buddyGroups) : total (update L k (p :: L k)) = total L + 2 ^ k := by
  have h := total_update (L := L) hk (p :: L k)
  rw [List.length_cons] at h
  have : ((L k).length + 1) * 2 ^ k = (L k).length * 2 ^ k + 2 ^ k := by ring
  omega

end Insert

/-! ### The parts of a block that is split -/

section Parts
variable {order p current : ℕ} {L : ℕ → List ℕ}

/-- The lists with the upper halves that are left over when a block of order `current` at `p` is
split down to `order`. -/
def addParts (L : ℕ → List ℕ) (order p current : ℕ) : ℕ → List ℕ := fun k =>
  if order ≤ k ∧ k < current then (p + 2 ^ k) :: L k else L k

theorem addParts_self (L : ℕ → List ℕ) (order p : ℕ) : addParts L order p order = L := by
  funext k
  exact if_neg (by omega)

theorem addParts_succ (h : order ≤ current) : addParts L order p (current + 1) =
    addParts (update L current ((p + 2 ^ current) :: L current)) order p current := by
  funext k
  unfold addParts
  by_cases hk : k = current
  · subst hk
    rw [if_pos (by omega), if_neg (by omega), update_self]
  · have hlt : k < current + 1 ↔ k < current := by omega
    simp only [update_of_ne hk, hlt]

theorem update_addParts (hnil : L order = []) :
    update (addParts L order p current) order [] = addParts L (order + 1) p current := by
  funext k
  unfold addParts
  by_cases hk : k = order
  · subst hk
    rw [update_self, if_neg (by omega), hnil]
  · have hle : order ≤ k ↔ order + 1 ≤ k := by omega
    simp only [update_of_ne hk, hle]

end Parts

end YegaKernel.Buddy.FreeBlocks
