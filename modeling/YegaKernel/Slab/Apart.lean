import YegaKernel.Slab.Worlds

/-! # Everything has its own place

The allocator and its callers use the memory in slots: `cache_cache`, the header of a slab that
holds its own descriptor, and the objects of the slabs. Two slots do not overlap (`slots_apart`), as
a page lies in one slab at most. So a caller that writes into its object changes nothing the
allocator keeps (`unused_of_inside`), and there are fewer free objects than addresses
(`freeCount_lt`). -/

namespace YegaKernel.Slab.Apart

open Buddy.State (pageSize)
open Buddy.FreeBlocks
open Slab.State Slab.Invariant Slab.Worlds

variable {s : Kernel} {W : World} {B : Queue → List ℕ} {R : ℕ → Prop} {held : List Held}
variable {a b c d m n x : ℕ}

/-- The `m` bytes at `a` and the `n` bytes at `b` do not overlap. -/
def RangesApart (a m b n : ℕ) : Prop := a + m ≤ b ∨ b + n ≤ a

theorem RangesApart.mono {m' n' : ℕ} (h : RangesApart a m b n) (hm : m' ≤ m) (hn : n' ≤ n) :
    RangesApart a m' b n' := by
  unfold RangesApart at h ⊢
  omega

/-! ### Slots -/

/-- A slot: where it starts, and its size. -/
inductive Slot (W : Layout) : ℕ → ℕ → Prop
  | root : Slot W W.cacheCache sizeofKmemCache
  | header {c d : ℕ} (hd : W.IsSlab c d) (hon : offSlab (W.kc c) = false) :
      Slot W d (W.kc c).slabSize
  | object {c d x : ℕ} (hd : W.IsSlab c d) (hx : W.Object c d x) : Slot W x (W.kc c).objsize

/-- The slot is in the pages of the slab `d`: in front of the objects, or an object. -/
structure Within (W : Layout) (c d a m : ℕ) : Prop where
  slab : W.IsSlab c d
  lower : base (W.page d) ≤ a
  upper : a + m ≤ base (W.page d) + pageSize * 2 ^ (W.kc c).gfporder
  place : (a = d ∧ a + m = W.sMem d) ∨ (m = (W.kc c).objsize ∧ W.Object c d a)

theorem slot_cases (hg : Geometry W.toLayout) (h : Slot W.toLayout a m) :
    (a = W.cacheCache ∧ m = sizeofKmemCache) ∨ ∃ c d, Within W.toLayout c d a m := by
  cases h with
  | root => exact Or.inl ⟨rfl, rfl⟩
  | header hd hon =>
    obtain ⟨hle, heq⟩ := (hg.fits _ _ hd).on hon
    have hobj := (hg.fits _ _ hd).objects
    have hsMem : a + (W.kc _).slabSize = W.sMem a := heq
    exact Or.inr ⟨_, a, hd, by omega, by omega, Or.inl ⟨rfl, hsMem⟩⟩
  | object hd hx =>
    obtain ⟨hlo, hhi⟩ := hg.object_range hd hx
    unfold Layout.sMem at hlo
    exact Or.inr ⟨_, _, hd, by omega, hhi, Or.inr ⟨rfl, hx⟩⟩

theorem objects_apart (hx : W.Object c d a) (hy : W.Object c d b) (hne : a ≠ b) :
    RangesApart a (W.kc c).objsize b (W.kc c).objsize := by
  obtain ⟨i, -, rfl⟩ := hx
  obtain ⟨j, -, rfl⟩ := hy
  have step : ∀ {i j : ℕ}, i < j → i * (W.kc c).objsize + (W.kc c).objsize ≤ j * (W.kc c).objsize :=
    fun {i j} h => by
      have := Nat.mul_le_mul_right (W.kc c).objsize h
      rwa [Nat.succ_mul] at this
  have hij : i ≠ j := fun h => hne (by rw [h])
  rcases Nat.lt_or_gt_of_ne hij with h | h
  · have := step h
    exact Or.inl (by omega)
  · have := step h
    exact Or.inr (by omega)

theorem extents_apart (hp : Pages s W.toLayout R) {c' d' : ℕ} (hd : W.IsSlab c d)
    (hd' : W.IsSlab c' d') (hne : d ≠ d') :
    RangesApart (base (W.page d)) (pageSize * 2 ^ (W.kc c).gfporder) (base (W.page d'))
      (pageSize * 2 ^ (W.kc c').gfporder) := by
  by_contra hover
  -- the later of the two first pages is in both slabs
  have hboth : W.InSlab c d (max (W.page d) (W.page d')) ∧
      W.InSlab c' d' (max (W.page d) (W.page d')) := by
    have hk : 0 < 2 ^ (W.kc c).gfporder := by positivity
    have hk' : 0 < 2 ^ (W.kc c').gfporder := by positivity
    unfold RangesApart base pageSize at hover
    unfold Layout.InSlab InBlock
    omega
  exact hne (hp.unique hd hd' hboth.1 hboth.2).2

/-- **Two slots do not overlap.** -/
theorem slots_apart (g : Good s W B R held) (ha : Slot W.toLayout a m) (hb : Slot W.toLayout b n)
    (hne : a ≠ b) : RangesApart a m b n := by
  have hroot := g.geometry.root_le
  rcases slot_cases g.geometry ha with ⟨rfl, rfl⟩ | ⟨c, d, ha⟩
  · rcases slot_cases g.geometry hb with ⟨rfl, rfl⟩ | ⟨c', d', hb⟩
    · exact absurd rfl hne
    · exact Or.inl (hroot.trans ((base_pos _).trans hb.lower))
  · rcases slot_cases g.geometry hb with ⟨rfl, rfl⟩ | ⟨c', d', hb⟩
    · exact Or.inr (hroot.trans ((base_pos _).trans ha.lower))
    · by_cases hdd : d = d'
      · subst hdd
        obtain rfl := g.pages.cache_unique ha.slab hb.slab
        rcases ha.place with ⟨ha1, ha2⟩ | ⟨rfl, hoa⟩
        · rcases hb.place with ⟨hb1, -⟩ | ⟨-, hob⟩
          · exact absurd (ha1.trans hb1.symm) hne
          · exact Or.inl (ha2.le.trans (g.geometry.object_range hb.slab hob).1)
        · rcases hb.place with ⟨-, hb2⟩ | ⟨rfl, hob⟩
          · exact Or.inr (hb2.le.trans (g.geometry.object_range ha.slab hoa).1)
          · exact objects_apart hoa hob hne
      · have hext := extents_apart g.pages ha.slab hb.slab hdd
        obtain ⟨-, ha1, ha2, -⟩ := ha
        obtain ⟨-, hb1, hb2, -⟩ := hb
        unfold RangesApart at hext ⊢
        omega

/-! ### What is in the slots -/

theorem slot_cache (g : Good s W B R held) (hc : c ∈ W.caches) :
    ∃ m, sizeofKmemCache ≤ m ∧ Slot W.toLayout c m := by
  by_cases hroot : c = W.cacheCache
  · exact ⟨_, le_rfl, hroot ▸ Slot.root⟩
  · obtain ⟨d, hd, hobj⟩ := g.geometry.cache c hc hroot
    exact ⟨_, g.geometry.root_objsize, Slot.object hd hobj⟩

theorem slot_slab (g : Good s W B R held) (hd : W.IsSlab c d) :
    ∃ m, sizeofSlab ≤ m ∧ Slot W.toLayout d m := by
  rcases hoff : offSlab (W.kc c)
  · exact ⟨_, (g.geometry.sane c hd.1).header hoff, Slot.header hd hoff⟩
  · obtain ⟨e, he, hobj⟩ := g.geometry.desc c d hd hoff
    have hon := g.geometry.slabp_on (g.geometry.slabp c hd.1 hoff).1
    exact ⟨_, hon.2, Slot.object he hobj⟩

theorem eq_of_inside (g : Good s W B R held) (ha : Slot W.toLayout a m) (hx : Slot W.toLayout x n)
    (hn : 0 < n) (hlo : a ≤ x) (hhi : x < a + m) : x = a := by
  by_contra hne
  rcases slots_apart g ha hx (Ne.symm hne) with h | h <;> omega

/-- **The allocator keeps nothing inside a caller's object.** -/
theorem unused_of_inside (g : Good s W B R held) {h : Held} (hh : h ∈ held) (hlo : h.addr ≤ x)
    (hhi : x < h.addr + (W.kc h.cache).objsize) : W.Unused x := by
  have hslot := Slot.object (g.holding.slab h hh) (g.holding.object h hh)
  have hu := g.holding.unused h hh
  refine ⟨fun hc => ?_, fun c d hd hxd => ?_, fun c d hd hfree => ?_⟩
  · obtain ⟨n, hn, hslot'⟩ := slot_cache g hc
    have heq := eq_of_inside g hslot hslot' (lt_of_lt_of_le (by decide) hn) hlo hhi
    exact hu.cache (heq ▸ hc)
  · subst hxd
    obtain ⟨n, hn, hslot'⟩ := slot_slab g hd
    have heq := eq_of_inside g hslot hslot' (lt_of_lt_of_le (by decide) hn) hlo hhi
    exact hu.slab c x hd heq.symm
  · have hpos : 0 < (W.kc c).objsize := lt_of_lt_of_le (by decide) (g.geometry.sane c hd.1).objsize
    have heq := eq_of_inside g hslot (Slot.object hd (g.cells.object c d hd x hfree)) hpos hlo hhi
    exact hu.free c d hd (heq ▸ hfree)

theorem good_store_unused (g : Good s W B R held) (hu : W.Unused x) (w : ℕ) :
    Good (store s x (.bytes w)) W B R held := by
  have hmem : ∀ a, a ≠ x → (store s x (.bytes w)).mem a = s.mem a := fun a ha =>
    Function.update_of_ne ha _ _
  have hcells := g.cells
  have hfree : ∀ c d, W.IsSlab c d → ∀ y ∈ W.free d, y ≠ x := fun c d hd y hy heq =>
    hu.free c d hd (heq ▸ hy)
  refine ⟨g.geometry, Objects.pages_congr g.pages rfl,
    ⟨hcells.root, hcells.csCachep, fun c hc => ?_, fun c d hd => ?_, fun c d hd => ?_,
      fun c d hd y hy => ?_, hcells.object, hcells.colour⟩,
    Queues.lists_congr g.lists rfl, g.holding⟩
  · rw [hmem c (fun heq => hu.cache (heq ▸ hc)), hcells.cache c hc]
  · rw [hmem d (fun heq => hu.slab c d hd heq.symm), hcells.slab c d hd]
  · refine (hcells.chain c d hd).congr fun y hy => ?_
    unfold word
    rw [hmem y (hfree c d hd y hy)]
  · rw [hmem y (hfree c d hd y hy)]
    exact hcells.bytes c d hd y hy

theorem good_write (g : Good s W B R held) {h : Held} (hh : h ∈ held) (hlo : h.addr ≤ x)
    (hhi : x < h.addr + (W.kc h.cache).objsize) (w : ℕ) : Good (store s x (.bytes w)) W B R held :=
  good_store_unused g (unused_of_inside g hh hlo hhi) w

/-! ### Counting free objects -/

theorem object_lt (g : Good s W B R held) (hd : W.IsSlab c d) (hx : W.Object c d x) : x < 2 ^ 32 := by
  have hhi := (g.geometry.object_range hd hx).2
  have hsize := (g.geometry.sane c hd.1).objsize
  have hbound := g.pages.bound c d hd
  have hple := g.pages.present_le
  unfold base pageSize pageOffset at hhi
  omega

/-- The counter of free objects does not overflow. -/
theorem freeCount_lt (g : Good s W B R held) (hc : c ∈ W.caches) : W.freeCount c < 2 ^ 32 := by
  have hlen : W.freeCount c = ((W.slabs c).flatMap W.free).length := by
    rw [World.freeCount, List.length_flatMap]
  have hnodup : ((W.slabs c).flatMap W.free).Nodup := by
    rw [List.nodup_flatMap]
    refine ⟨fun d hd => g.free_nodup ⟨hc, hd⟩, ?_⟩
    refine (List.nodup_iff_pairwise_ne.mp (g.lists.nodup c hc)).imp_of_mem fun {d e} hd he hne => ?_
    intro x hx hx'
    have hox := g.cells.object c d ⟨hc, hd⟩ x hx
    have hox' := g.cells.object c e ⟨hc, he⟩ x hx'
    exact hne (g.object_unique ⟨hc, hd⟩ ⟨hc, he⟩ hox hox').2
  have hsub : (W.slabs c).flatMap W.free ⊆ List.range' 1 (2 ^ 32 - 1) := by
    intro x hx
    obtain ⟨d, hd, hx⟩ := List.mem_flatMap.mp hx
    have hox := g.cells.object c d ⟨hc, hd⟩ x hx
    have hlt := object_lt g ⟨hc, hd⟩ hox
    have hpos := g.object_ne_zero ⟨hc, hd⟩ hox
    rw [List.mem_range'_1]
    omega
  have hle := (hnodup.subperm hsub).length_le
  rw [List.length_range'] at hle
  omega

end YegaKernel.Slab.Apart
