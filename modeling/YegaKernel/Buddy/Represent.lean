import YegaKernel.Buddy.Ops
import YegaKernel.Buddy.FreeBlocks
import Mathlib.Data.List.Perm.Subperm

/-! # The zone represents its free blocks

`Represents z L`: the lists of the zone hold exactly the blocks `L`, the counters are their lengths,
the flag `PG_FLAG_private` marks the first pages of blocks, and `private` is their order.

The two steps all operations are made of are `takeBlock` (a block comes off its list) and `putBlock`
(a block goes on a list); each changes the represented blocks as it says. -/

namespace YegaKernel.Buddy.Represent

open Lib.Links Lib.Word Lib.Dyadic
open Buddy.State Buddy.Ops Buddy.FreeBlocks Function

/-- **The zone `z` holds the free blocks `L`.** -/
structure Represents (z : Zone) (L : ℕ → List ℕ) : Prop where
  blocks : Blocks z.presentPages L
  ring : ∀ k < buddyGroups, Ring z (Node.area k) ((L k).map Node.lru)
  nrFree : ∀ k < buddyGroups, z.nrFree k = (L k).length
  flag : ∀ p < z.presentPages, pagePrivate z p = true ↔ ∃ k, p ∈ L k
  order : ∀ k, ∀ p ∈ L k, (z.pages p).priv = k

variable {z : Zone} {L : ℕ → List ℕ}

theorem Represents.withFreePages (hr : Represents z L) (n : ℕ) :
    Represents { z with freePages := n } L :=
  ⟨hr.blocks, fun k hk => (hr.ring k hk).transport fun _ _ => ⟨rfl, rfl⟩, hr.nrFree, hr.flag, hr.order⟩

/-! ### Flag words -/

theorem private_clear (f : BitVec 32) :
    (f &&& ((~~~1#32) <<< 4)) &&& pgFlagPrivate ≠ pgFlagPrivate := by
  rw [BitVec.and_assoc, show ((~~~1#32) <<< 4) &&& pgFlagPrivate = 0#32 by decide, BitVec.and_zero]
  decide

theorem private_set (f : BitVec 32) : (f ||| pgFlagPrivate) &&& pgFlagPrivate = pgFlagPrivate := by
  ext i hi
  simp only [BitVec.getElem_and, BitVec.getElem_or]
  cases f[i] <;> cases pgFlagPrivate[i] <;> rfl

/-! ### A block comes off its list -/

/-- The steps `allocate_block` and `free_block` take when a block comes off the list of order
`k`. -/
def takeBlock (z : Zone) (k p : ℕ) : Zone :=
  let z := listDel Node.null z (Node.lru p)
  let z := clearPagePrivate z p
  let z := setPrivate z p 0
  setNrFree z k (sub32 (z.nrFree k) 1)

theorem takeBlock_pages_of_ne (z : Zone) (k : ℕ) {p q : ℕ} (h : q ≠ p) :
    (takeBlock z k p).pages q = z.pages q := by
  simp [takeBlock, setNrFree, setPrivate, clearPagePrivate, Zone.updPage, update_of_ne h]

theorem takeBlock_priv (z : Zone) (k p : ℕ) : ((takeBlock z k p).pages p).priv = 0 := by
  simp [takeBlock, setNrFree, setPrivate, clearPagePrivate, Zone.updPage]

theorem takeBlock_private (z : Zone) (k p q : ℕ) :
    pagePrivate (takeBlock z k p) q = (pagePrivate z q && decide (q ≠ p)) := by
  by_cases h : q = p
  · subst h
    unfold pagePrivate
    simpa [takeBlock, setNrFree, setPrivate, clearPagePrivate, Zone.updPage] using
      private_clear (z.pages q).flags
  · simp [pagePrivate, takeBlock_pages_of_ne z k h, h]

theorem takeBlock_nrFree (z : Zone) (k p : ℕ) :
    (takeBlock z k p).nrFree = update z.nrFree k (sub32 (z.nrFree k) 1) := rfl

theorem length_le_present {n k : ℕ} (hL : Blocks n L) : (L k).length ≤ n := by
  have hsub : L k ⊆ List.range n := fun p hp => by
    rw [List.mem_range]
    have := hL.bound k p hp
    have : 0 < 2 ^ k := by positivity
    omega
  simpa using (List.subperm_of_subset (hL.nodup k) hsub).length_le

section
variable (hr : Represents z L)
include hr

theorem Represents.nodes_ne {j k : ℕ} (hjk : j ≠ k) : ∀ a ∈ Node.area k :: (L k).map Node.lru,
      ∀ b ∈ Node.area j :: (L j).map Node.lru, a ≠ b := by
  intro a ha b hb hab
  simp only [List.mem_cons, List.mem_map] at ha hb
  subst hab
  rcases ha with rfl | ⟨p, hp, rfl⟩ <;> rcases hb with hb | ⟨q, hq, hb⟩
  · exact hjk (Node.area.inj hb).symm
  · exact Node.noConfusion hb
  · exact Node.noConfusion hb
  · rw [Node.lru.inj hb] at hq
    exact hjk (hr.blocks.order_unique hq hp)

theorem Represents.ring_listDel {j k p : ℕ}
    {us vs : List ℕ} (hk : L k = us ++ p :: vs) (hklt : k < buddyGroups) (hj : j < buddyGroups) :
    Ring (listDel Node.null z (Node.lru p)) (Node.area j)
      ((update L k (us ++ vs) j).map Node.lru) := by
  have hring := hr.ring k hklt
  rw [hk, List.map_append, List.map_cons] at hring
  by_cases hjk : j = k
  · subst hjk
    rw [update_self, List.map_append]
    exact hring.listDel Node.null
  · rw [update_of_ne hjk]
    refine (hr.ring j hj).transport fun b hb => ?_
    refine hring.sameLinks_listDel Node.null fun a ha => ?_
    refine hr.nodes_ne hjk a ?_ b hb
    rw [hk, List.map_append, List.map_cons]
    exact ha

theorem Represents.nrFree_takeBlock {j k p : ℕ}
    {us vs : List ℕ} (hk : L k = us ++ p :: vs) (hj : j < buddyGroups) :
    (takeBlock z k p).nrFree j = (update L k (us ++ vs) j).length := by
  rw [takeBlock_nrFree]
  by_cases hjk : j = k
  · subst hjk
    have hlen : z.nrFree j = (us ++ vs).length + 1 := by
      rw [hr.nrFree j hj, hk, List.length_append, List.length_cons, List.length_append, Nat.add_assoc]
    have hle := length_le_present (k := j) hr.blocks
    have hlt := z.present_lt
    rw [← hr.nrFree j hj] at hle
    rw [update_self, update_self, sub32_of_le (by omega) (by omega), hlen,
      Nat.add_sub_cancel]
  · rw [update_of_ne hjk, update_of_ne hjk]
    exact hr.nrFree j hj

/-- **Taking a block** off its list. -/
theorem Represents.takeBlock {k p : ℕ} {us vs : List ℕ} (hk : L k = us ++ p :: vs) :
    Represents (takeBlock z k p) (update L k (us ++ vs)) := by
  have hpk : p ∈ L k := by rw [hk]; simp
  have hmem : ∀ {j q : ℕ}, q ∈ update L k (us ++ vs) j ↔ q ∈ L j ∧ (j ≠ k ∨ q ≠ p) :=
    hr.blocks.mem_erase_iff hk
  -- the block is on no list any more
  have hne : ∀ {j q : ℕ}, q ∈ update L k (us ++ vs) j → q ≠ p := by
    rintro j q hq rfl
    obtain ⟨hj, hor⟩ := hmem.mp hq
    exact hor.elim (fun hjk => hjk (hr.blocks.order_unique hj hpk)) fun hqq => hqq rfl
  refine ⟨hr.blocks.erase hk, fun j hj => ?_, fun j hj => hr.nrFree_takeBlock hk hj, fun q hq => ?_,
    fun j q hq => ?_⟩
  · exact (hr.ring_listDel hk (lt_of_mem hr.blocks hpk) hj).transport fun n _ => ⟨rfl, rfl⟩
  · rw [takeBlock_private, Bool.and_eq_true, decide_eq_true_eq, hr.flag q hq]
    constructor
    · rintro ⟨⟨j, hj⟩, hqp⟩
      exact ⟨j, hmem.mpr ⟨hj, Or.inr hqp⟩⟩
    · rintro ⟨j, hj⟩
      exact ⟨⟨j, (hmem.mp hj).1⟩, hne hj⟩
  · rw [takeBlock_pages_of_ne z k (hne hq)]
    exact hr.order j q (hmem.mp hq).1

end

/-! ### A block goes on a list -/

/-- The steps `allocate_block` and `free_block` take when a block goes on the list of order `k`. -/
def putBlock (z : Zone) (k p : ℕ) : Zone :=
  let z := setPrivate z p k
  let z := setPagePrivate z p
  let z := listAdd z (Node.area k) (Node.lru p)
  setNrFree z k (u32 (z.nrFree k + 1))

theorem putBlock_pages_of_ne (z : Zone) (k : ℕ) {p q : ℕ} (h : q ≠ p) :
    (putBlock z k p).pages q = z.pages q := by
  simp [putBlock, setNrFree, setPrivate, setPagePrivate, Zone.updPage, update_of_ne h]

theorem putBlock_priv (z : Zone) (k p : ℕ) : ((putBlock z k p).pages p).priv = k := by
  simp [putBlock, setNrFree, setPrivate, setPagePrivate, Zone.updPage]

theorem putBlock_private (z : Zone) (k p q : ℕ) :
    pagePrivate (putBlock z k p) q = (pagePrivate z q || decide (q = p)) := by
  by_cases h : q = p
  · subst h
    unfold pagePrivate
    simpa [putBlock, setNrFree, setPrivate, setPagePrivate, Zone.updPage] using
      private_set (z.pages q).flags
  · simp [pagePrivate, putBlock_pages_of_ne z k h, h]

theorem putBlock_nrFree (z : Zone) (k p : ℕ) :
    (putBlock z k p).nrFree = update z.nrFree k (u32 (z.nrFree k + 1)) := rfl

/-- **Putting a block**, none of whose pages is free and whose buddy is not on the list, on it. -/
theorem Represents.putBlock (hr : Represents z L) {k p : ℕ}
    (hk : k < buddyGroups) (ha : 2 ^ k ∣ p) (hb : p + 2 ^ k ≤ z.presentPages)
    (hfree : ∀ x, InBlock k p x → ¬ Covers L x) (hbuddy : k + 1 < buddyGroups → buddy k p ∉ L k) :
    Represents (putBlock z k p) (update L k (p :: L k)) := by
  have hnew : ∀ j, p ∉ L j := fun j hp => hfree p (inBlock_start k p) (covers_of_mem hp)
  -- the node `lru p` is on no ring, so it may be linked in
  have hapart : ∀ j, ∀ n ∈ Node.area j :: (L j).map Node.lru, Node.lru p ≠ n := by
    intro j n hn hpn
    subst hpn
    simp only [List.mem_cons, List.mem_map, reduceCtorEq, false_or] at hn
    obtain ⟨q, hq, hqp⟩ := hn
    exact hnew j (Node.lru.inj hqp ▸ hq)
  have hlinks : ∀ j < buddyGroups, Ring (listAdd z (Node.area k) (Node.lru p)) (Node.area j)
      ((update L k (p :: L k) j).map Node.lru) := by
    intro j hj
    by_cases hjk : j = k
    · subst hjk
      rw [update_self, List.map_cons]
      exact (hr.ring j hj).listAdd (hapart j)
    · rw [update_of_ne hjk]
      refine (hr.ring j hj).transport fun b hb => ?_
      exact (hr.ring k hk).sameLinks_listAdd (fun a ha => hr.nodes_ne hjk a ha b hb)
        (hapart j b hb)
  refine ⟨hr.blocks.insert hk ha hb hfree hbuddy, fun j hj => ?_, fun j hj => ?_, fun q hq => ?_,
    fun j q hq => ?_⟩
  · exact (hlinks j hj).transport fun n _ => ⟨rfl, rfl⟩
  · rw [putBlock_nrFree]
    by_cases hjk : j = k
    · subst hjk
      have hle := length_le_present (k := j) hr.blocks
      have hlt := z.present_lt
      rw [update_self, update_self, List.length_cons, hr.nrFree j hj,
        u32_of_lt (by omega)]
    · rw [update_of_ne hjk, update_of_ne hjk]
      exact hr.nrFree j hj
  · rw [putBlock_private, Bool.or_eq_true, decide_eq_true_eq, hr.flag q hq]
    constructor
    · rintro (⟨j, hj⟩ | rfl)
      · exact ⟨j, mem_insert_iff.mpr (Or.inl hj)⟩
      · exact ⟨k, mem_insert_iff.mpr (Or.inr ⟨rfl, rfl⟩)⟩
    · rintro ⟨j, hj⟩
      rcases mem_insert_iff.mp hj with hj | ⟨-, hqp⟩
      · exact Or.inl ⟨j, hj⟩
      · exact Or.inr hqp
  · rcases mem_insert_iff.mp hq with hq | ⟨rfl, rfl⟩
    · have hqp : q ≠ p := fun hqp => hnew j (hqp ▸ hq)
      rw [putBlock_pages_of_ne z k hqp]
      exact hr.order j q hq
    · exact putBlock_priv z j q

/-! ### Pages that are not concerned -/

/-- The descriptor of page `q`, its list head included, is the same in both zones. -/
def Untouched (z z' : Zone) (q : ℕ) : Prop :=
  SameLinks z z' (Node.lru q) ∧ z'.pages q = z.pages q

theorem Untouched.trans {z' z'' : Zone} {q : ℕ} (h : Untouched z z' q) (h' : Untouched z' z'' q) :
    Untouched z z'' q := ⟨h.1.trans h'.1, h'.2.trans h.2⟩

theorem lru_apart_of_not_mem {k q : ℕ} (hq : q ∉ L k) :
    ∀ n ∈ Node.area k :: (L k).map Node.lru, n ≠ Node.lru q := by
  rintro n hn rfl
  simp only [List.mem_cons, List.mem_map, reduceCtorEq, false_or] at hn
  obtain ⟨p, hp, hpq⟩ := hn
  exact hq (Node.lru.inj hpq ▸ hp)

theorem Represents.takeBlock_untouched (hr : Represents z L) {k p q : ℕ}
    (hp : p ∈ L k) (hq : q ∉ L k) : Untouched z (Represent.takeBlock z k p) q := by
  obtain ⟨us, vs, hk⟩ := List.append_of_mem hp
  have hring := hr.ring k (lt_of_mem hr.blocks hp)
  have hap := lru_apart_of_not_mem hq
  rw [hk, List.map_append, List.map_cons] at hring hap
  have hne : q ≠ p := fun h => hq (h ▸ hp)
  exact ⟨hring.sameLinks_listDel Node.null hap, takeBlock_pages_of_ne z k hne⟩

theorem Represents.putBlock_untouched (hr : Represents z L) {k p q : ℕ}
    (hk : k < buddyGroups) (hq : q ∉ L k) (hne : q ≠ p) :
    Untouched z (Represent.putBlock z k p) q := by
  refine ⟨(hr.ring k hk).sameLinks_listAdd (lru_apart_of_not_mem hq) ?_,
    putBlock_pages_of_ne z k hne⟩
  exact fun h => hne (Node.lru.inj h).symm

/-- **From `L` to `L'`**: the second zone represents `L'`, and the descriptors of pages covered
neither before nor after are untouched. -/
structure Moves (z z' : Zone) (L L' : ℕ → List ℕ) : Prop where
  rep : Represents z' L'
  present : z'.presentPages = z.presentPages
  untouched : ∀ q, ¬ Covers L q → ¬ Covers L' q → Untouched z z' q

theorem Moves.refl (hr : Represents z L) : Moves z z L L :=
  ⟨hr, rfl, fun _ _ _ => ⟨SameLinks.refl _ _, rfl⟩⟩

theorem Moves.trans {z' z'' : Zone} {L' L'' : ℕ → List ℕ} (h : Moves z z' L L')
    (h' : Moves z' z'' L' L'') (hmid : ∀ x, Covers L' x → Covers L x ∨ Covers L'' x) :
    Moves z z'' L L'' := by
  refine ⟨h'.rep, h'.present.trans h.present, fun q hq hq'' => ?_⟩
  have hq' : ¬ Covers L' q := fun hc => (hmid q hc).elim hq hq''
  exact (h.untouched q hq hq').trans (h'.untouched q hq' hq'')

theorem Represents.moves_takeBlock (hr : Represents z L) {k p : ℕ}
    {us vs : List ℕ} (hk : L k = us ++ p :: vs) :
    Moves z (Represent.takeBlock z k p) L (update L k (us ++ vs)) := by
  refine ⟨hr.takeBlock hk, rfl, fun q hq _ => ?_⟩
  exact hr.takeBlock_untouched (by rw [hk]; simp) fun hm => hq (covers_of_mem hm)

theorem Represents.moves_putBlock (hr : Represents z L) {k p : ℕ}
    (hk : k < buddyGroups) (ha : 2 ^ k ∣ p) (hb : p + 2 ^ k ≤ z.presentPages)
    (hfree : ∀ x, InBlock k p x → ¬ Covers L x) (hbuddy : k + 1 < buddyGroups → buddy k p ∉ L k) :
    Moves z (Represent.putBlock z k p) L (update L k (p :: L k)) := by
  refine ⟨hr.putBlock hk ha hb hfree hbuddy, rfl, fun q hq hq' => ?_⟩
  refine hr.putBlock_untouched hk (fun hm => hq (covers_of_mem hm)) ?_
  rintro rfl
  exact hq' ((covers_insert q).mpr (Or.inr (inBlock_start k q)))

theorem Represents.moves_withFreePages (hr : Represents z L) (n : ℕ) :
    Moves z { z with freePages := n } L L :=
  ⟨hr.withFreePages n, rfl, fun _ _ _ => ⟨⟨rfl, rfl⟩, rfl⟩⟩

/-! ### Reading the lists -/

theorem listEntry_map (l : List ℕ) : (l.map Node.lru).map listEntry = l := by
  rw [List.map_map]
  exact List.map_id l

theorem Represents.freeList_eq (hr : Represents z L) {k : ℕ}
    (hk : k < buddyGroups) : freeList z k = L k := by
  have hle := length_le_present (k := k) hr.blocks
  unfold freeList
  rw [(hr.ring k hk).listNodes_eq (by rw [List.length_map]; omega), listEntry_map]

theorem Represents.pageFree_iff (hr : Represents z L) (x : ℕ) : PageFree z x ↔ Covers L x := by
  constructor
  · rintro ⟨k, hk, p, hp, hx⟩
    rw [hr.freeList_eq hk] at hp
    exact ⟨k, p, hp, hx⟩
  · rintro ⟨k, p, hp, hx⟩
    have hk := lt_of_mem hr.blocks hp
    exact ⟨k, hk, p, by rwa [hr.freeList_eq hk], hx⟩

theorem Represents.pageIsBuddy_iff (hr : Represents z L) {q k : ℕ}
    (hq : q < z.presentPages) : pageIsBuddy z q k = true ↔ q ∈ L k := by
  unfold pageIsBuddy
  rw [Bool.and_eq_true, decide_eq_true_eq, hr.flag q hq]
  constructor
  · rintro ⟨⟨j, hj⟩, hk⟩
    rw [hr.order j q hj] at hk
    exact hk ▸ hj
  · intro hk
    exact ⟨⟨k, hk⟩, hr.order k q hk⟩

end YegaKernel.Buddy.Represent
