import YegaKernel.Slab.Estimate

/-! # When `kmem_cache_create` is total

The sizes are rounded up without a look at the range of a word, and the loop that halves `ralign`
does not look at the size `0`. Where the rounded size is `0`, the loop does not end or the number of
objects is a division by zero. Where the alignment exceeds a page and the descriptor is in the slab,
the correction of `cache_estimate` takes one object away from none: the cache has `2 ^ 32 - 1`
objects in a page. -/

namespace YegaKernel.Slab.Totality

open Lib.Links Lib.Word Function
open Buddy.State (pageSize buddyGroups)
open Slab.State Slab.Ops Slab.Invariant Slab.Free
open Slab.Create Slab.Init Slab.Run Slab.Estimate

/-! ### The loop of `ralign` -/

/-- `while (size <= ralign / 2) ralign /= 2;`, with at most the given number of tests. -/
def ralignLoop (size : ℕ) : ℕ → ℕ → Option ℕ
  | 0, _ => none
  | fuel + 1, ralign => if size ≤ ralign / 2 then ralignLoop size fuel (ralign / 2) else some ralign

theorem ralignLoop_zero : ∀ fuel ralign, ralignLoop 0 fuel ralign = none
  | 0, _ => rfl
  | fuel + 1, ralign => by
    exact ralignLoop_zero fuel _

theorem ralignLoop_isSome {size : ℕ} (h : size ≠ 0) : ∀ fuel ralign, ralign < 2 ^ fuel →
    (ralignLoop size (fuel + 1) ralign).isSome
  | 0, ralign, hr => by
    rw [ralignLoop, if_neg (by omega)]
    rfl
  | fuel + 1, ralign, hr => by
    rw [ralignLoop]
    split_ifs
    · exact ralignLoop_isSome h fuel _ (by omega)
    · rfl

/-- The loop never ends for the size `0`, which is why the model has no result there, and for no
other size. -/
theorem ralignLoop_diverges_iff (size : ℕ) :
    (∀ fuel, ralignLoop size fuel cacheLineSize = none) ↔ size = 0 := by
  constructor
  · intro h
    by_contra h0
    have hsome := ralignLoop_isSome h0 6 cacheLineSize (by decide)
    rw [h 7] at hsome
    exact absurd hsome (by simp)
  · rintro rfl fuel
    exact ralignLoop_zero fuel cacheLineSize

/-! ### Sizes -/

section Sizes
variable {size k : ℕ}

theorem roundToWords_eq_zero_iff (h : size < 2 ^ 32) :
    roundToWords size = 0 ↔ ¬ (1 ≤ size ∧ size + 4 ≤ 2 ^ 32) := by
  rw [roundToWords_eq]
  unfold u32
  split_ifs <;> omega

theorem roundsUp_of_word (h : 1 ≤ size ∧ size + 4 ≤ 2 ^ 32) : RoundsUp size 4 (roundToWords size) :=
  roundsUp_roundToWords (by omega)

theorem alignTo_eq_zero_iff {x : ℕ} (hk : k < 32) (hx : x < 2 ^ 32) :
    alignTo x (2 ^ k) = 0 ↔ x = 0 ∨ 2 ^ 32 < x + 2 ^ k := by
  have hpos : 0 < 2 ^ k := by positivity
  rw [alignTo_two_pow x hk, Nat.mul_eq_zero, or_iff_left hpos.ne', Nat.div_eq_zero_iff,
    or_iff_right hpos.ne']
  unfold u32
  omega

theorem roundToWords_le_iff (hk : 2 ≤ k) (h : 1 ≤ size ∧ size + 4 ≤ 2 ^ 32) :
    roundToWords size + 2 ^ k ≤ 2 ^ 32 ↔ size + 2 ^ k ≤ 2 ^ 32 := by
  have hw := roundsUp_of_word h
  have hle := hw.le
  have hdvd : 4 ∣ 2 ^ 32 - 2 ^ k := Nat.dvd_sub (by decide) (pow_dvd_pow 2 hk)
  constructor
  · omega
  · intro hs
    have := hw.le_of_dvd hdvd (by omega)
    omega

/-- **The objects have a size** if the requested one is not zero and can be rounded up. -/
theorem objsize_ne_zero_iff (hsize : size < 2 ^ 32) (hk : k < 32) :
    alignTo (roundToWords size) (2 ^ k) ≠ 0 ↔ 1 ≤ size ∧ size + max 4 (2 ^ k) ≤ 2 ^ 32 := by
  by_cases hw : 1 ≤ size ∧ size + 4 ≤ 2 ^ 32
  · have hr := roundsUp_of_word hw
    have hr1 := hr.le
    have hr2 := hr.lt
    rw [ne_eq, alignTo_eq_zero_iff hk (by omega)]
    by_cases hk2 : 2 ≤ k
    · have hiff := roundToWords_le_iff hk2 hw
      omega
    · -- an alignment below a word changes nothing
      have h4 : 2 ^ k ≤ 2 ^ 1 := Nat.pow_le_pow_right (by norm_num) (by omega)
      obtain ⟨m, hm⟩ := hr.dvd
      omega
  · have h0 : roundToWords size = 0 := (roundToWords_eq_zero_iff hsize).mpr hw
    rw [h0, ne_eq, alignTo_eq_zero_iff hk (by norm_num)]
    omega

theorem le_objsize (hk : k < 32) (h : 1 ≤ size ∧ size + max 4 (2 ^ k) ≤ 2 ^ 32) :
    size ≤ alignTo (roundToWords size) (2 ^ k) ∧ 2 ^ k ∣ alignTo (roundToWords size) (2 ^ k) := by
  have hne := (objsize_ne_zero_iff (by omega) hk).mpr h
  have hr := roundsUp_of_word ⟨h.1, by omega⟩
  have hr1 := hr.le
  have hr2 := hr.lt
  rw [ne_eq, alignTo_eq_zero_iff hk (by omega)] at hne
  obtain ⟨hle, -, hdvd⟩ := roundsUp_alignTo (x := roundToWords size) hk (by omega)
  exact ⟨hr1.trans hle, hdvd⟩

end Sizes

/-! ### Numbers -/

section Numbers
variable {found : KmemCache} {size k flags ctor slabpCache order objsize : ℕ}

theorem cacheEstimate_le (hk : flags &&& cflgsOffSlab ≠ 0 ∨ k ≤ 12) (ho : order < buddyGroups)
    (hpos : 0 < objsize) (hdvd : 2 ^ k ∣ objsize) :
    (cacheEstimate order objsize (2 ^ k) flags).2 ≤ slabBytes order / objsize := by
  by_cases hoff : flags &&& cflgsOffSlab ≠ 0
  · unfold cacheEstimate
    rw [if_pos hoff]
    exact le_rfl
  · have hfits := (cacheEstimate_spec flags (hk.resolve_left hoff) ho hpos hdvd).fits
    rw [Nat.le_div_iff_mul_le hpos]
    omega

theorem slabMgmtSize_of_large (hk : 12 < k) (hk' : k < 32) : slabMgmtSize (2 ^ k) = 2 ^ k := by
  have hle : 2 ^ 13 ≤ 2 ^ k := Nat.pow_le_pow_right (by norm_num) hk
  have hlt : 2 ^ k ≤ 2 ^ 31 := Nat.pow_le_pow_right (by norm_num) (by omega)
  have hr := roundsUp_alignTo (x := sizeofSlab) hk' (by unfold sizeofSlab; omega)
  refine le_antisymm (hr.le_of_dvd dvd_rfl (by unfold sizeofSlab; omega)) ?_
  exact Nat.le_of_dvd (lt_of_lt_of_le (by decide) hr.le) hr.dvd

/-- **No object, minus one**: an alignment above a page, with the descriptor in the slab. -/
theorem cacheEstimate_of_large (hoff : ¬ flags &&& cflgsOffSlab ≠ 0) (hk : 12 < k) (hk' : k < 32)
    (hpos : 0 < objsize) (hdvd : 2 ^ k ∣ objsize) :
    (cacheEstimate 0 objsize (2 ^ k) flags).2 = 2 ^ 32 - 1 ∧ pageSize < objsize := by
  have hle : 2 ^ 13 ≤ 2 ^ k := Nat.pow_le_pow_right (by norm_num) hk
  have hlt : 2 ^ k ≤ 2 ^ 31 := Nat.pow_le_pow_right (by norm_num) (by omega)
  have hobj := Nat.le_of_dvd hpos hdvd
  have hnone : (pageSize * 2 ^ 0 - sizeofSlab) / objsize = 0 :=
    Nat.div_eq_of_lt (by unfold pageSize sizeofSlab; omega)
  have hbig : pageSize * 2 ^ 0 < u32 (2 ^ k + 0 * objsize) := by
    rw [u32_of_lt (by omega)]
    unfold pageSize
    omega
  refine ⟨?_, by unfold pageSize; omega⟩
  unfold cacheEstimate
  rw [if_neg hoff]
  simp only
  rw [slabMgmtSize_of_large hk hk', hnone, if_pos hbig]
  rfl

theorem num_le_cacheDesc (hk : flags &&& cflgsOffSlab ≠ 0 ∨ k ≤ 12)
    (hpos : 0 < alignTo size (2 ^ k)) (hdvd : 2 ^ k ∣ alignTo size (2 ^ k))
    (hnum : (cacheDesc found size (2 ^ k) flags ctor slabpCache).num ≠ 0) :
    (cacheDesc found size (2 ^ k) flags ctor slabpCache).num ≤
      slabBytes (cacheDesc found size (2 ^ k) flags ctor slabpCache).gfporder /
        (cacheDesc found size (2 ^ k) flags ctor slabpCache).objsize := by
  unfold cacheDesc at hnum ⊢
  simp only at hnum ⊢
  generalize alignTo size (2 ^ k) = objsize at hpos hdvd hnum ⊢
  rcases hloop : calculateSlabOrder objsize (2 ^ k) flags with ⟨order, num, leftOver⟩
  rw [hloop] at hnum
  obtain ⟨-, horder, heq, -⟩ := orderLoop_spec _ _ _ _ _ _ _ _ hloop hnum
  have hle := cacheEstimate_le hk horder hpos hdvd
  rw [heq] at hle
  exact hle

theorem num_cacheDesc_of_large (found : KmemCache) (ctor slabpCache : ℕ)
    (hoff : ¬ flags &&& cflgsOffSlab ≠ 0) (hk : 12 < k) (hk' : k < 32)
    (hpos : 0 < alignTo size (2 ^ k)) (hdvd : 2 ^ k ∣ alignTo size (2 ^ k)) :
    (cacheDesc found size (2 ^ k) flags ctor slabpCache).num = 2 ^ 32 - 1 ∧
      slabBytes (cacheDesc found size (2 ^ k) flags ctor slabpCache).gfporder /
        (cacheDesc found size (2 ^ k) flags ctor slabpCache).objsize = 0 := by
  unfold cacheDesc
  simp only
  generalize alignTo size (2 ^ k) = objsize at hpos hdvd ⊢
  obtain ⟨hnum, hpage⟩ := cacheEstimate_of_large hoff hk hk' hpos hdvd
  have hloop : calculateSlabOrder objsize (2 ^ k) flags =
      (0, 2 ^ 32 - 1, (cacheEstimate 0 objsize (2 ^ k) flags).1) := by
    unfold calculateSlabOrder buddyGroups
    rw [orderLoop]
    simp only
    rw [hnum, if_neg (by decide)]
  rw [hloop]
  exact ⟨rfl, Nat.div_eq_of_lt hpage⟩

end Numbers

/-! ### The result -/

/-- **`kmem_cache_create` returns**, and what it returns is NULL or a cache whose objects are large
enough and fit into a slab. -/
def Total (found : KmemCache) (s : Kernel) (size align flags ctor : ℕ) : Prop :=
  ∃ c s', kmemCacheCreate found s size align flags ctor = some (c, s') ∧
    (c = 0 ∨ ∃ kc, s'.mem c = .cache kc ∧ size ≤ kc.objsize ∧ 1 ≤ kc.num ∧
      kc.num ≤ slabBytes kc.gfporder / kc.objsize)

/-- There is no object for a descriptor: `kmem_cache_alloc(&cache_cache)` returns NULL. -/
def NoDescriptor (s : Kernel) : Prop := ∃ s₁, kmemCacheAlloc callDepth s s.cacheCache = some (0, s₁)

/-- The parameters are handled: the size can be rounded up and is not zero, and a descriptor in the
slab is aligned to a page at most. -/
def Handled (size align flags : ℕ) : Prop :=
  1 ≤ size ∧ size + max 4 align ≤ 2 ^ 32 ∧ (flags &&& cflgsOffSlab ≠ 0 ∨ align ≤ 4096)

section Result
variable {found : KmemCache} {s : Kernel} {W : World} {B : Queue → List ℕ} {R : ℕ → Prop}
  {held : List Held} {size k flags ctor : ℕ}

theorem finishCreate_iff {s₁ : Kernel} {c slabpCache : ℕ} (hc0 : c ≠ 0) (hk : k < 32)
    (hsize : 1 ≤ size ∧ size + max 4 (2 ^ k) ≤ 2 ^ 32)
    (hfree : ∃ s₂, kmemCacheFree callDepth s₁ s₁.cacheCache c = some s₂) :
    (∃ c' s', finishCreate s₁ c
        (cacheDesc found (roundToWords size) (2 ^ k) flags ctor slabpCache) = some (c', s') ∧
      (c' = 0 ∨ ∃ kc, s'.mem c' = .cache kc ∧ size ≤ kc.objsize ∧ 1 ≤ kc.num ∧
        kc.num ≤ slabBytes kc.gfporder / kc.objsize)) ↔ (flags &&& cflgsOffSlab ≠ 0 ∨ k ≤ 12) := by
  obtain ⟨hle, hdvd⟩ := le_objsize hk hsize
  have hpos : 0 < alignTo (roundToWords size) (2 ^ k) := by omega
  obtain ⟨s₂, hfree⟩ := hfree
  unfold finishCreate
  constructor
  · rintro ⟨c', s', heq, hgood⟩
    by_contra hno
    rw [not_or] at hno
    obtain ⟨hnum, hnone⟩ := num_cacheDesc_of_large found ctor slabpCache hno.1 (by omega) hk hpos hdvd
    rw [if_neg (by rw [hnum]; decide), Option.some.injEq, Prod.mk.injEq] at heq
    obtain ⟨rfl, rfl⟩ := heq
    obtain ⟨kc, hmem, -, -, hbound⟩ := hgood.resolve_left hc0
    have hcell : Cell.cache kc = .cache
        (cacheDesc found (roundToWords size) (2 ^ k) flags ctor slabpCache) :=
      hmem.symm.trans (update_self _ _ _)
    rw [Cell.cache.injEq] at hcell
    subst hcell
    omega
  · intro hok
    by_cases hnum : (cacheDesc found (roundToWords size) (2 ^ k) flags ctor slabpCache).num = 0
    · rw [if_pos hnum, hfree]
      exact ⟨0, s₂, rfl, Or.inl rfl⟩
    · rw [if_neg hnum]
      refine ⟨c, _, rfl, Or.inr ⟨_, update_self _ _ _, hle, by omega, ?_⟩⟩
      exact num_le_cacheDesc hok hpos hdvd hnum

/-- **`kmem_cache_create` is total exactly for the parameters that are handled**, in every state of
the allocator. Where there is no object for the descriptor, NULL is returned before most of them are
looked at. -/
theorem total_iff (g : Good s W B R held) (hsort : Sorted W B) (hsize : size < 2 ^ 32) (hk : k < 32) :
    (¬ NoDescriptor s → (Total found s size (2 ^ k) flags ctor ↔ Handled size (2 ^ k) flags)) ∧
    (NoDescriptor s → (Total found s size (2 ^ k) flags ctor ↔
      (flags &&& slabHwcacheAlign ≠ 0 → 1 ≤ size ∧ size + 4 ≤ 2 ^ 32))) := by
  have hk12 : 2 ^ k ≤ 4096 ↔ k ≤ 12 :=
    Nat.pow_le_pow_iff_right (a := 2) (n := k) (m := 12) (by norm_num)
  have hwords := roundToWords_eq_zero_iff hsize
  obtain ⟨c, s₁, W₁, B₁, halloc, -, -, hsort₁, hres⟩ := kmemCacheAlloc_root g hsort
  unfold Total Handled
  rw [kmemCacheCreate_eq, halloc, hk12]
  simp only [Option.bind_some]
  constructor
  · intro hsome
    have hc0 : c ≠ 0 := fun h => hsome ⟨s₁, by rw [halloc, h]⟩
    obtain ⟨-, -, e, -, g₂, cc, hread, -⟩ := hres.resolve_left fun h => hc0 h.1
    obtain ⟨s₂, W₂, B₂, hfree, -⟩ := kmemCacheFree_spec g₂ hsort₁
    rw [if_neg hc0, hread, Option.bind_some]
    by_cases hobj : alignTo (roundToWords size) (2 ^ k) = 0
    · -- a division by zero
      have hnot := mt (objsize_ne_zero_iff hsize hk).mpr (not_not_intro hobj)
      rw [if_pos hobj, ite_self]
      exact ⟨fun ⟨c', s', h, _⟩ => absurd h (by simp), fun h => absurd ⟨h.1, h.2.1⟩ hnot⟩
    · have hok := (objsize_ne_zero_iff hsize hk).mp hobj
      have h4 := le_max_left 4 (2 ^ k)
      rw [if_neg fun h => hwords.mp h.2 ⟨hok.1, by omega⟩, if_neg hobj,
        finishCreate_iff hc0 hk hok ⟨s₂, by rw [g₂.cells.root]; exact hfree⟩]
      exact ⟨fun h => ⟨hok.1, hok.2, h⟩, fun h => h.2.2⟩
  · rintro ⟨s₁', hnull⟩
    rw [halloc, Option.some.injEq, Prod.mk.injEq] at hnull
    rw [if_pos hnull.1]
    split_ifs with hloop
    · -- the loop does not end
      exact ⟨fun ⟨c', s', h, _⟩ => absurd h (by simp), fun h => absurd (h hloop.1) (hwords.mp hloop.2)⟩
    · refine ⟨fun _ hhw => ?_, fun _ => ⟨0, s₁, rfl, Or.inl rfl⟩⟩
      by_contra hno
      exact hloop ⟨hhw, hwords.mpr hno⟩

end Result

/-! ### Fixed parameters -/

/-- The allocator after `init_slab`, with 64 pages. -/
def startKernel : Option Kernel := initSlab zeroDesc (plainKernel 64 (by decide))

/-- A cache of 100-byte objects is created. -/
theorem total_hundred : ∃ s, startKernel = some s ∧ Handled 100 8 0 ∧ Total zeroDesc s 100 8 0 0 := by
  obtain ⟨L, hr⟩ := Buddy.Run.buddyInvariant_iff.mp
    (buddyInvariant_plainKernel (n := 64) (by decide) (by decide))
  obtain ⟨s, W, B, heq, g, hsort, -⟩ := initSlab_spec hr (by decide) rfl
  have hparams : Handled 100 8 0 := by unfold Handled; decide
  have hobj : (startKernel.any fun s => (kmemCacheAlloc callDepth s s.cacheCache).any
      fun r => decide (r.1 ≠ 0)) = true := by decide +kernel
  have hsome : ¬ NoDescriptor s := by
    rintro ⟨s₁, hnull⟩
    obtain ⟨s', hs', hs⟩ := (Option.any_eq_true _ _).mp hobj
    obtain rfl : s = s' := Option.some.inj (heq.symm.trans hs')
    rw [hnull] at hs
    exact absurd hs (by simp)
  exact ⟨s, heq, hparams,
    ((total_iff (k := 3) g hsort (by decide) (by decide)).1 hsome).mpr hparams⟩

/-- **Parameters that are not handled**: the size `0`, for which the loop does not end or the number
of objects is a division by zero, a size that rounds up to `0`, and an alignment of two pages, which
makes a cache of `2 ^ 32 - 1` objects. -/
theorem not_total : ∃ s, startKernel = some s ∧
    kmemCacheCreate zeroDesc s 0 8 slabHwcacheAlign 0 = none ∧
    kmemCacheCreate zeroDesc s 0 8 0 0 = none ∧ kmemCacheCreate zeroDesc s 0xFFFFF001 4096 0 0 = none ∧
    ∃ c s' kc, kmemCacheCreate zeroDesc s 100 8192 0 0 = some (c, s') ∧ readCache s' c = some kc ∧
      kc.num = 2 ^ 32 - 1 ∧ slabBytes kc.gfporder = 4096 := by
  have hcheck : (startKernel.any fun s =>
      (kmemCacheCreate zeroDesc s 0 8 slabHwcacheAlign 0).isNone &&
      (kmemCacheCreate zeroDesc s 0 8 0 0).isNone &&
      (kmemCacheCreate zeroDesc s 0xFFFFF001 4096 0 0).isNone &&
      (kmemCacheCreate zeroDesc s 100 8192 0 0).any fun r => (readCache r.2 r.1).any
        fun kc => decide (kc.num = 2 ^ 32 - 1 ∧ slabBytes kc.gfporder = 4096)) = true := by
    decide +kernel
  obtain ⟨s, hs, h⟩ := (Option.any_eq_true _ _).mp hcheck
  simp only [Bool.and_eq_true, Option.isNone_iff_eq_none, Option.any_eq_true, decide_eq_true_eq,
    Prod.exists] at h
  obtain ⟨⟨⟨h1, h2⟩, h3⟩, c, s', h4, kc, hread, hnum⟩ := h
  exact ⟨s, hs, h1, h2, h3, c, s', kc, h4, hread, hnum⟩

end YegaKernel.Slab.Totality
