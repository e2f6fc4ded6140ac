import YegaKernel.Slab.Grow

/-! # `kmem_cache_alloc`

A slab with a free object is found on `slabs_partial` or moved there, from `slabs_free` or newly
made, and an object is taken from it. A cache whose slabs hold their own descriptors needs no other
cache, so the nested calls end. -/

namespace YegaKernel.Slab.Alloc

open Lib.Links Lib.Word
open Buddy.Ops (allocateBlock)
open Slab.State Slab.Ops Slab.Invariant Slab.Queues
open Slab.Objects Slab.PageOps Slab.Worlds Slab.Grow

variable {s : Kernel} {W : World} {B : Queue → List ℕ} {R : ℕ → Prop} {held : List Held}
variable {c d x : ℕ}

/-! ### Kinds -/

theorem kindOf_zero (n : ℕ) : kindOf 0 n = .slabsFull := if_pos rfl

theorem kindOf_between {m n : ℕ} (h0 : 0 < m) (hn : m < n) : kindOf m n = .slabsPartial := by
  rw [kindOf, if_neg (by omega), if_neg (by omega)]

theorem free_ne_nil {k : Kind} (h : W.Sorts c d k) (hk : k ≠ .slabsFull) : W.free d ≠ [] := by
  intro hnil
  rw [World.Sorts, hnil, List.length_nil, kindOf_zero] at h
  exact hk h

theorem sortedBut_setFree {l : List ℕ} (h : SortedBut W B d) : SortedBut (W.setFree d l) B d := by
  intro c' hc' k e he hed
  have := h c' hc' k e he hed
  unfold World.Sorts at this ⊢
  rwa [W.setFree_of_ne hed]

theorem sorted_of_sortedBut {k : Kind} (hl : Lists s W.toLayout B) (hc : c ∈ W.caches)
    (hd : d ∈ B (.list c k)) (h : SortedBut W B d) (hk : W.Sorts c d k) : Sorted W B := by
  intro c' hc' k' e he
  by_cases hed : e = d
  · subst hed
    obtain ⟨rfl, rfl⟩ := queue_unique hl hc' hc he hd
    exact hk
  · exact h c' hc' k' e he hed

theorem idle_iff (g : Good s W B R held) (hsort : Sorted W B) :
    W.Idle c d ↔ c ∈ W.caches ∧ d ∈ B (.list c .slabsFree) := by
  constructor
  · rintro ⟨hd, hlen⟩
    obtain ⟨hc, k, hk⟩ := (isSlab_iff g.lists).mp hd
    have hkind := hsort c hc k d hk
    rw [World.Sorts, hlen, kindOf_all (g.geometry.sane c hc).num] at hkind
    exact ⟨hc, hkind ▸ hk⟩
  · rintro ⟨hc, hd⟩
    have hkind := hsort c hc _ d hd
    refine ⟨isSlab_of_mem g.lists hc hd, ?_⟩
    unfold World.Sorts kindOf at hkind
    split_ifs at hkind with h0 hn
    exact hn

/-! ### Taking an object -/

/-- **The second part of `cache_alloc_refill`**: an object of a slab on `slabs_partial`. -/
theorem takeObject_spec (g : Good s W B R held) (hc : c ∈ W.caches)
    (hd : d ∈ B (.list c .slabsPartial)) (hsort : SortedBut W B d) (hfree : W.free d ≠ []) :
    ∃ x s' W' B', takeObject s c d = some (x, s') ∧ x ≠ 0 ∧ W'.toShape = W.toShape ∧
      (∀ c' d', W'.Idle c' d' → W.Idle c' d' ∧ d' ≠ d) ∧ Sorted W' B' ∧
      Good s' W' B' R (⟨x, c, d⟩ :: held) := by
  have hslab := isSlab_of_mem g.lists hc hd
  rcases hxs : W.free d with _ | ⟨x, xs⟩
  · exact absurd hxs hfree
  obtain ⟨s₁, heq, -, g₁⟩ := slabGetObj_spec g hslab hxs
  have hx : x ∈ W.free d := by
    rw [hxs]
    exact List.mem_cons_self
  have hx0 := g.object_ne_zero hslab (g.cells.object c d hslab x hx)
  have hlen := length_le_num (g.free_nodup hslab) (g.cells.object c d hslab)
  rw [hxs, List.length_cons] at hlen
  have hslab₁ : (W.setFree d xs).IsSlab c d := hslab
  have hread := g₁.readSlab hslab₁
  have hhead : ((W.setFree d xs).slabDesc c d).freeList = xs.headD 0 := by
    unfold World.slabDesc
    rw [W.setFree_self]
  have hbut := sortedBut_setFree (l := xs) hsort
  have hidle : ∀ c' d', (W.setFree d xs).Idle c' d' → W.Idle c' d' ∧ d' ≠ d := by
    rintro c' d' ⟨hd', hfull⟩
    have hne : d' ≠ d := by
      rintro rfl
      obtain rfl := g.pages.cache_unique hslab hd'
      rw [W.setFree_self] at hfull
      change xs.length = (W.kc c).num at hfull
      omega
    rw [W.setFree_of_ne hne] at hfull
    exact ⟨⟨hd', hfull⟩, hne⟩
  unfold takeObject
  rw [heq]
  simp only [Option.bind_eq_bind, Option.bind_some]
  rw [hread]
  simp only [Option.bind_some, hhead]
  rcases xs with _ | ⟨y, ys⟩
  · -- the last object: the slab is full
    obtain ⟨B', hlists, hmoved⟩ := lists_moveFront g₁.lists hslab₁ .slabsFull
    refine ⟨x, _, W.setFree d [], B', if_pos rfl, hx0, rfl, hidle, ?_,
      good_relink g₁ hlists rfl rfl rfl rfl⟩
    refine sorted_of_moved hmoved hbut ?_
    rw [World.Sorts, W.setFree_self, List.length_nil, kindOf_zero]
  · have hy : y ∈ W.free d := by
      rw [hxs]
      simp
    have hy0 := g.object_ne_zero hslab (g.cells.object c d hslab y hy)
    refine ⟨x, s₁, W.setFree d (y :: ys), B, if_neg hy0, hx0, rfl, hidle, ?_, g₁⟩
    refine sorted_of_sortedBut g₁.lists hc hd hbut ?_
    rw [World.Sorts, W.setFree_self]
    exact (kindOf_between (by simp) hlen).symm

/-! ### Finding a slab -/

/-- The result of the first part of `cache_alloc_refill`; `P` holds when it fails. The slab that is
found is the only one that can be idle without having been so. -/
def Refilled (W : World) (R : ℕ → Prop) (held : List Held) (c : ℕ) (P : Prop)
    (r : Option (Option ℕ × Kernel)) : Prop :=
  ∃ o s' W' B', r = some (o, s') ∧ W'.toShape = W.toShape ∧ Good s' W' B' R held ∧
    (∀ c' d, W'.Idle c' d → W.Idle c' d ∨ o = some d) ∧
    match o with
    | none => Sorted W' B' ∧ P
    | some d => SortedBut W' B' d ∧ d ∈ B' (.list c .slabsPartial) ∧ W'.free d ≠ []

theorem sortedBut_of_sorted (h : Sorted W B) (d : ℕ) : SortedBut W B d :=
  fun c hc k e he _ => h c hc k e he

theorem takeFreeSlab_spec (g : Good s W B R held) (hsort : Sorted W B) (hc : c ∈ W.caches)
    (hne : B (.list c .slabsFree) ≠ []) (P : Prop) :
    ∃ d s', takeFreeSlab s c = some (d, s') ∧ W.Idle c d ∧
      Refilled W R held c P (some (some d, s')) := by
  rcases hB : B (.list c .slabsFree) with _ | ⟨d, ds⟩
  · exact absurd hB hne
  have hd : d ∈ B (.list c .slabsFree) := by
    rw [hB]
    exact List.mem_cons_self
  obtain ⟨B', hlists, hmoved⟩ := lists_moveFront g.lists (isSlab_of_mem g.lists hc hd) .slabsPartial
  refine ⟨d, _, ?_, (idle_iff g hsort).mpr ⟨hc, hd⟩, some d, _, W, B', rfl, rfl,
    good_relink g hlists rfl rfl rfl rfl, fun _ _ h => Or.inl h, ?_, ?_, ?_⟩
  · unfold takeFreeSlab
    rw [listEntry_next g.lists hc hB]
    rfl
  · exact sortedBut_of_moved hmoved (sortedBut_of_sorted hsort d)
  · exact (hmoved.2 c hc .slabsPartial d).mpr (by simp)
  · exact free_ne_nil (hsort c hc .slabsFree d hd) (by simp)

theorem refilled_of_shape {W₁ : World} {P : Prop} {s' : Kernel} (h : W₁.toShape = W.toShape)
    (hidle : ∀ c' d', W₁.Idle c' d' → W.Idle c' d' ∨ d' = d)
    (hr : Refilled W₁ R held c P (some (some d, s'))) : Refilled W R held c P (some (some d, s')) := by
  obtain ⟨o, s'', W', B', heq, hshape, g', hidle', hrest⟩ := hr
  refine ⟨o, s'', W', B', heq, hshape.trans h, g', fun c' d' h' => ?_, hrest⟩
  obtain rfl : some d = o := (Prod.mk.inj (Option.some.inj heq)).1
  rcases hidle' c' d' h' with h' | h'
  · exact (hidle c' d' h').imp_right fun hd => congrArg some hd.symm
  · exact Or.inr h'

/-- **The first part of `cache_alloc_refill`**. -/
theorem refillSlab_spec {alloc : Kernel → ℕ → Option (ℕ × Kernel)} (g : Good s W B R held)
    (hsort : Sorted W B) (hc : c ∈ W.caches) (halloc : offSlab (W.kc c) = true → ServesOn alloc) :
    Refilled W R held c
      (offSlab (W.kc c) = true ∨ allocateBlock s.zone (W.kc c).gfporder = (none, s.zone))
      (refillSlab alloc s c) := by
  unfold refillSlab
  rw [g.readCache hc]
  simp only [Option.bind_eq_bind, Option.bind_some]
  rcases hB : B (.list c .slabsPartial) with _ | ⟨d, ds⟩
  · rw [if_neg (not_not_intro ((next_eq_head g.lists hc).mpr hB))]
    by_cases hfree : B (.list c .slabsFree) = []
    · rw [if_pos ((next_eq_head g.lists hc).mpr hfree)]
      obtain ⟨b, s₁, W₁, B₁, heq, hshape, g₁, hsort₁, hb, hP, e, he⟩ :=
        cacheGrow_spec g hsort hc halloc
      rw [heq]
      simp only [Option.bind_some]
      cases b with
      | false =>
        exact ⟨none, s₁, W₁, B₁, rfl, hshape, g₁,
          fun c' d h => Or.inl ((he c' d h).resolve_right (by simp)), hsort₁, hP rfl⟩
      | true =>
        have hc₁ : c ∈ W₁.caches := by
          rw [congrArg Shape.caches hshape]
          exact hc
        obtain ⟨d, s', heq', hd, hr⟩ := takeFreeSlab_spec g₁ hsort₁ hc₁ (hb rfl) _
        -- no slab of the cache was idle before, so this is the new one
        have hnone : ¬ W.Idle c d := fun h => by
          have hmem := ((idle_iff g hsort).mp h).2
          rw [hfree] at hmem
          exact absurd hmem List.not_mem_nil
        obtain rfl : d = e := ((he c d hd).resolve_left hnone).2.2
        rw [heq']
        exact refilled_of_shape hshape (fun c' d' h => (he c' d' h).imp_right fun h' => h'.2.2) hr
    · rw [if_neg (fun h => hfree ((next_eq_head g.lists hc).mp h))]
      obtain ⟨d, s', heq', -, hr⟩ := takeFreeSlab_spec g hsort hc hfree _
      rw [heq']
      exact hr
  · have hd : d ∈ B (.list c .slabsPartial) := by
      rw [hB]
      exact List.mem_cons_self
    rw [if_pos (fun h => by rw [(next_eq_head g.lists hc).mp h] at hB; simp at hB),
      listEntry_next g.lists hc hB]
    exact ⟨some d, s, W, B, rfl, rfl, g, fun _ _ h => Or.inl h, sortedBut_of_sorted hsort d, hd,
      free_ne_nil (hsort c hc _ d hd) (by simp)⟩

/-! ### The whole function -/

/-- An object that is handed out is from the slab that `cache_alloc_refill` found. -/
theorem cacheAllocRefill_spec (alloc : Kernel → ℕ → Option (ℕ × Kernel))
    (g : Good s W B R held) (hsort : Sorted W B) (hc : c ∈ W.caches)
    (halloc : offSlab (W.kc c) = true → ServesOn alloc) :
    ∃ x s' W' B', cacheAllocRefill alloc s c = some (x, s') ∧ W'.toShape = W.toShape ∧
      NoNewIdle W W' ∧ Sorted W' B' ∧ ((x = 0 ∧ (offSlab (W.kc c) = true ∨
          allocateBlock s.zone (W.kc c).gfporder = (none, s.zone)) ∧ Good s' W' B' R held) ∨
        (x ≠ 0 ∧ ∃ d s₁, refillSlab alloc s c = some (some d, s₁) ∧
          Good s' W' B' R (⟨x, c, d⟩ :: held))) := by
  obtain ⟨o, s₁, W₁, B₁, heq, hshape, g₁, hidle, ho⟩ := refillSlab_spec g hsort hc halloc
  unfold cacheAllocRefill
  rw [heq]
  cases o with
  | none =>
    exact ⟨0, s₁, W₁, B₁, rfl, hshape, fun c' d h => (hidle c' d h).resolve_right (by simp), ho.1,
      Or.inl ⟨rfl, ho.2, g₁⟩⟩
  | some d =>
    obtain ⟨hbut, hd, hfree⟩ := ho
    have hc₁ : c ∈ W₁.caches := by
      rw [congrArg Shape.caches hshape]
      exact hc
    obtain ⟨x, s', W', B', heq', hx0, hshape', hidle', hsort', g'⟩ :=
      takeObject_spec g₁ hc₁ hd hbut hfree
    refine ⟨x, s', W', B', heq', hshape'.trans hshape, fun c' d' h => ?_, hsort',
      Or.inr ⟨hx0, d, s₁, rfl, g'⟩⟩
    obtain ⟨h₁, hne⟩ := hidle' c' d' h
    exact (hidle c' d' h₁).resolve_right fun heq => hne (Option.some.inj heq).symm

theorem allocated_refill {alloc : Kernel → ℕ → Option (ℕ × Kernel)} (g : Good s W B R held)
    (hsort : Sorted W B) (hc : c ∈ W.caches) (halloc : offSlab (W.kc c) = true → ServesOn alloc) :
    Allocated W R held c (cacheAllocRefill alloc s c) := by
  obtain ⟨x, s', W', B', heq, hshape, hidle, hsort', h⟩ := cacheAllocRefill_spec _ g hsort hc halloc
  refine ⟨x, s', W', B', heq, hshape, hidle, hsort', ?_⟩
  rcases h with ⟨hx, -, g'⟩ | ⟨hx, d, -, -, g'⟩
  · exact Or.inl ⟨hx, g'⟩
  · exact Or.inr ⟨hx, d, g'⟩

theorem servesOn_kmemCacheAlloc (depth : ℕ) : ServesOn (kmemCacheAlloc (depth + 1)) := by
  intro s W B R held g hsort c hc hon
  exact allocated_refill g hsort hc fun hoff => absurd (hon.symm.trans hoff) (by simp)

theorem kmemCacheAlloc_of_none (g : Good s W B R held) (hc : c ∈ W.caches)
    (hpart : B (.list c .slabsPartial) = []) (hfree : B (.list c .slabsFree) = [])
    (hnone : allocateBlock s.zone (W.kc c).gfporder = (none, s.zone)) (depth : ℕ) :
    kmemCacheAlloc (depth + 1) s c = some (0, store s c (.cache (advanceColour (W.desc c)))) := by
  have hget : kmemGetpages (store s c (.cache (advanceColour (W.desc c)))) (W.desc c) =
      (0, store s c (.cache (advanceColour (W.desc c)))) := by
    unfold kmemGetpages
    rw [store_zone, show (W.desc c).gfporder = (W.kc c).gfporder from rfl, hnone]
    rfl
  have hgrow : cacheGrow (kmemCacheAlloc depth) s c = _ := cacheGrow_of_null (g.readCache hc) hget
  have hrefill : refillSlab (kmemCacheAlloc depth) s c =
      some (none, store s c (.cache (advanceColour (W.desc c)))) := by
    unfold refillSlab
    rw [g.readCache hc, if_neg (not_not_intro ((next_eq_head g.lists hc).mpr hpart)),
      if_pos ((next_eq_head g.lists hc).mpr hfree), hgrow]
    rfl
  rw [kmemCacheAlloc, cacheAllocRefill, hrefill]
  rfl

end YegaKernel.Slab.Alloc
