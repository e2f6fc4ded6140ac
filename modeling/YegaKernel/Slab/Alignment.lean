import YegaKernel.Slab.Totality

/-! # Hardware alignment

`kmem_cache_create` computes the alignment `ralign` for `SLAB_HWCACHE_ALIGN` and does not use it:
the objects are rounded up to `align`, and so is the descriptor in front of them. Only the colours
are multiples of the cache line. So the objects are aligned to `ralign` exactly if the room for the
descriptor happens to be a multiple of it, and the size of the objects as well, unless a slab has
one object only. -/

namespace YegaKernel.Slab.Alignment

open Relation (ReflTransGen)
open Lib.Links Lib.Word Lib.Runs
open Buddy.State (pageSize)
open Buddy.Run (BuddyInvariant)
open Slab.State Slab.Ops Slab.Invariant Slab.Init
open Slab.Run Slab.Estimate Slab.Totality

/-! ### The alignment -/

def bytesPerWord : ℕ := 4

/-- `ralign`, for a size in whole words. -/
def ralignOf (size align flags : ℕ) : Option ℕ :=
  (if flags &&& slabHwcacheAlign ≠ 0 then ralignLoop size 7 cacheLineSize else some bytesPerWord).map
    fun ralign => if ralign < align then align else ralign

/-- **The alignment is honoured** by the room in front of the objects and by their size. -/
structure Honoured (size align flags ralign : ℕ) : Prop where
  room : ralign ∣ mgmtRoom align flags
  objsize : (cacheDesc zeroDesc size align flags 0 0).num = 1 ∨ ralign ∣ alignTo size align

theorem ralignLoop_two_pow {size : ℕ} (h : size ≠ 0) : ∀ (fuel i r : ℕ),
    ralignLoop size fuel (2 ^ i) = some r → ∃ j ≤ i, r = 2 ^ j
  | 0, _, _, hr => absurd hr (by simp [ralignLoop])
  | fuel + 1, i, r, hr => by
    rw [ralignLoop] at hr
    split_ifs at hr with hle
    · rcases i with _ | i
      · -- one byte cannot be halved
        exact absurd hle (by simpa using h)
      · rw [pow_succ, Nat.mul_div_cancel _ (by norm_num)] at hr
        obtain ⟨j, hj, rfl⟩ := ralignLoop_two_pow h fuel i r hr
        exact ⟨j, by omega, rfl⟩
    · exact ⟨i, le_rfl, (Option.some.inj hr).symm⟩

section Params
variable {size k flags r : ℕ}

/-- The alignment is a power of two, and at most the larger of the cache line and `align`. -/
theorem ralignOf_two_pow (hflags : flags &&& slabHwcacheAlign ≠ 0)
    (hr : ralignOf size (2 ^ k) flags = some r) : ∃ e ≤ max 5 k, r = 2 ^ e := by
  rw [ralignOf, if_pos hflags, Option.map_eq_some_iff] at hr
  obtain ⟨r₀, hloop, rfl⟩ := hr
  have h0 : size ≠ 0 := by
    rintro rfl
    rw [ralignLoop_zero] at hloop
    exact absurd hloop (by simp)
  obtain ⟨j, hj, rfl⟩ := ralignLoop_two_pow h0 7 5 r₀ hloop
  split_ifs
  · exact ⟨k, le_max_right _ _, rfl⟩
  · exact ⟨j, hj.trans (le_max_left _ _), rfl⟩

theorem dvd_colourOff {found : KmemCache} {ctor slabpCache e : ℕ} (he : e ≤ max 5 k) :
    2 ^ e ∣ (cacheDesc found size (2 ^ k) flags ctor slabpCache).colourOff := by
  have hoff : (cacheDesc found size (2 ^ k) flags ctor slabpCache).colourOff = 2 ^ max 5 k := by
    unfold cacheDesc cacheLineSize
    simp only
    split_ifs with hlt
    · have hk : 5 < k := (Nat.pow_lt_pow_iff_right (by norm_num)).mp (show 2 ^ 5 < 2 ^ k from hlt)
      rw [max_eq_right hk.le]
    · have hk : k ≤ 5 := (Nat.pow_le_pow_iff_right (by norm_num)).mp (show 2 ^ k ≤ 2 ^ 5 by omega)
      rw [max_eq_left hk]
      rfl
  rw [hoff]
  exact pow_dvd_pow 2 he

theorem dvd_base {e : ℕ} (he : e ≤ 12) (p : ℕ) : 2 ^ e ∣ base p :=
  (pow_dvd_pow 2 he).trans (dvd_add (Dvd.intro_left p rfl) (by decide))

/-- The address of the object `i` of a slab at the page `p`, with the colour `j`. -/
def objectAt (kc : KmemCache) (room p j i : ℕ) : ℕ := base p + (j * kc.colourOff + room) + i * kc.objsize

/-- **The alignment is honoured exactly if every object of a slab has it**, at whatever page the
slab starts and with whatever colour. -/
theorem honoured_iff (hk : k ≤ 12) (hflags : flags &&& slabHwcacheAlign ≠ 0)
    (hr : ralignOf size (2 ^ k) flags = some r)
    (hnum : (cacheDesc zeroDesc size (2 ^ k) flags 0 0).num ≠ 0) : Honoured size (2 ^ k) flags r ↔
      ∀ p j i, i < (cacheDesc zeroDesc size (2 ^ k) flags 0 0).num →
        r ∣ objectAt (cacheDesc zeroDesc size (2 ^ k) flags 0 0) (mgmtRoom (2 ^ k) flags) p j i := by
  obtain ⟨e, he, rfl⟩ := ralignOf_two_pow hflags hr
  have he12 : e ≤ 12 := he.trans (max_le (by norm_num) hk)
  constructor
  · rintro ⟨hroom, hobj⟩ p j i hi
    refine dvd_add (dvd_add (dvd_base he12 p) (dvd_add ?_ hroom)) ?_
    · exact dvd_mul_of_dvd_right (dvd_colourOff he) j
    · rcases hobj with hone | hdvd
      · obtain rfl : i = 0 := by omega
        rw [Nat.zero_mul]
        exact dvd_zero _
      · exact dvd_mul_of_dvd_right hdvd i
  · intro h
    have hroom : 2 ^ e ∣ mgmtRoom (2 ^ k) flags := by
      have h0 := h 0 0 0 (Nat.pos_of_ne_zero hnum)
      rw [objectAt, Nat.zero_mul, Nat.zero_mul, Nat.zero_add, Nat.add_zero] at h0
      exact (Nat.dvd_add_right (dvd_base he12 0)).mp h0
    refine ⟨hroom, ?_⟩
    by_cases hone : (cacheDesc zeroDesc size (2 ^ k) flags 0 0).num = 1
    · exact Or.inl hone
    · have h1 := h 0 0 1 (by omega)
      rw [objectAt, Nat.zero_mul, Nat.zero_add, Nat.one_mul] at h1
      exact Or.inr ((Nat.dvd_add_right (dvd_add (dvd_base he12 0) hroom)).mp h1)

end Params

/-! ### Runs -/

section Runs
variable {pool : ℕ → Prop} {s : Session} {W : World} {B : Queue → List ℕ} {size k flags r c d x : ℕ}

theorem object_of_good {kern : Kernel} {R : ℕ → Prop} {held : List Held} (hk : k ≤ 12)
    (g : Good kern W B R held) {found : KmemCache} {slabpCache : ℕ}
    (hkc : W.kc c = cacheDesc found size (2 ^ k) flags 0 slabpCache) (hd : W.IsSlab c d)
    (hx : W.Object c d x) : ∃ p j i, i < (cacheDesc zeroDesc size (2 ^ k) flags 0 0).num ∧
      x = objectAt (cacheDesc zeroDesc size (2 ^ k) flags 0 0) (mgmtRoom (2 ^ k) flags) p j i := by
  obtain ⟨i, hi, rfl⟩ := hx
  obtain ⟨j, hj⟩ := (g.geometry.fits c d hd).colour
  have hh : Header (W.kc c) (2 ^ k) (mgmtRoom (2 ^ k) flags) := by
    rw [hkc]
    exact header_cacheDesc hk
  have hroom : headerSize (W.kc c) = mgmtRoom (2 ^ k) flags := by
    unfold headerSize
    split_ifs with hoff
    · exact (hh.off hoff).symm
    · exact (hh.on (Bool.eq_false_iff.mpr hoff)).1.symm
  refine ⟨W.page d, j, i, by rw [hkc] at hi; exact hi, ?_⟩
  unfold Layout.sMem objectAt
  rw [hj, hroom, hkc]
  rfl

/-- **Every object of a cache whose alignment is honoured has it**, in every run after the cache is
created. -/
theorem dvd_of_sound (hs : Sound pool s W B) (hk : k ≤ 12) (hflags : flags &&& slabHwcacheAlign ≠ 0)
    (hr : ralignOf (roundToWords size) (2 ^ k) flags = some r)
    (hh : Honoured (roundToWords size) (2 ^ k) flags r) (hc : c ∈ W.caches) {found : KmemCache}
    {slabpCache : ℕ} (hkc : W.kc c = cacheDesc found (roundToWords size) (2 ^ k) flags 0 slabpCache) {k' : Kernel}
    (halloc : kmemCacheAlloc callDepth s.kernel c = some (x, k')) (hx : x ≠ 0) : r ∣ x := by
  obtain ⟨x', k'', W', B', heq, hshape, hres⟩ := alloc_sound hs hc
  rw [halloc, Option.some.injEq, Prod.mk.injEq] at heq
  obtain ⟨rfl, rfl⟩ := heq
  obtain ⟨-, d, -, -, hs'⟩ := hres.resolve_left fun h => hx h.1
  have hkc' : W'.kc c = _ := ((keepsCaches_of_shape hshape c hc).2).trans hkc
  have hslab : W'.IsSlab c d := hs'.good.holding.slab ⟨x, c, d⟩ List.mem_cons_self
  have hobj : W'.Object c d x := hs'.good.holding.object ⟨x, c, d⟩ List.mem_cons_self
  obtain ⟨p, j, i, hi, rfl⟩ := object_of_good hk hs'.good hkc' hslab hobj
  exact (honoured_iff hk hflags hr (Nat.ne_zero_of_lt hi)).mp hh p j i hi

end Runs

/-- The cache that `kmem_cache_create` returns in the session `s` for these parameters hands out
multiples of `ralign` only, whatever clients do afterwards. -/
def AlignedFrom (found : KmemCache) (s : Session) (size align flags ralign : ℕ) : Prop :=
  ∀ c k₁, kmemCacheCreate found s.kernel size align flags 0 = some (c, k₁) → c ≠ 0 →
    ∀ s₂, ReflTransGen (Step Suits) ⟨k₁, s.live⟩ s₂ →
      ∀ x k₂, kmemCacheAlloc callDepth s₂.kernel c = some (x, k₂) → x ≠ 0 → ralign ∣ x

/-- **Hardware alignment is honoured in every run whose caches fit their slabs, if it is for the
parameters of the cache**, and for other parameters it is not for some object of a slab. -/
theorem hwcache_aligned {kern : Kernel} (hinv : BuddyInvariant kern.zone)
    (hn : kern.zone.presentPages ≤ 2 ^ 18) (hcs : kern.csCachep = fun _ => 0) {size k flags r : ℕ}
    (hk : 2 ^ k ≤ 4096) (hflags : flags &&& slabHwcacheAlign ≠ 0)
    (hr : ralignOf (roundToWords size) (2 ^ k) flags = some r) :
    (Honoured (roundToWords size) (2 ^ k) flags r →
      ∃ k₀, initSlab zeroDesc kern = some k₀ ∧ ∀ s found, ReflTransGen (Step Suits) ⟨k₀, []⟩ s →
        Suits s (.create found size (2 ^ k) flags) → AlignedFrom found s size (2 ^ k) flags r) ∧
    ((cacheDesc zeroDesc (roundToWords size) (2 ^ k) flags 0 0).num ≠ 0 →
      ¬ Honoured (roundToWords size) (2 ^ k) flags r → ∃ p j i,
        i < (cacheDesc zeroDesc (roundToWords size) (2 ^ k) flags 0 0).num ∧
        ¬ r ∣ objectAt (cacheDesc zeroDesc (roundToWords size) (2 ^ k) flags 0 0)
          (mgmtRoom (2 ^ k) flags) p j i) := by
  have hk12 : k ≤ 12 := (Nat.pow_le_pow_iff_right (by norm_num)).mp (show 2 ^ k ≤ 2 ^ 12 from hk)
  refine ⟨fun hh => ?_, fun hnum hno => ?_⟩
  · obtain ⟨k₀, W, B, heq, hs, -⟩ := init_sound hinv hn hcs
    refine ⟨k₀, heq, fun s found hrun hsuits c k₁ hcreate hc0 s₂ hrun₂ x k₂ halloc hx => ?_⟩
    obtain ⟨W₁, B₁, hs₁, -⟩ := run_sound hs hrun
    obtain ⟨c', k', W₂, B₂, hcreate', hs₂, -, hnew⟩ := create_sound hs₁ hsuits
    rw [hcreate, Option.some.injEq, Prod.mk.injEq] at hcreate'
    obtain ⟨rfl, rfl⟩ := hcreate'
    obtain ⟨hc, hkc⟩ := hnew hc0
    obtain ⟨W₃, B₃, hs₃, hkeeps⟩ := run_sound hs₂ hrun₂
    exact dvd_of_sound hs₃ hk12 hflags hr hh (hkeeps c hc).1 ((hkeeps c hc).2.trans hkc) halloc hx
  · rw [honoured_iff hk12 hflags hr hnum] at hno
    push Not at hno
    exact hno

/-! ### Two caches -/

theorem suits_wholeLines : ∀ s, Suits s (.create zeroDesc 128 8 slabHwcacheAlign) :=
  suits_of_onSlab (by decide) (by decide +kernel) (by decide +kernel) (by decide +kernel)

/-- Objects of 128 bytes are aligned to cache lines. -/
theorem hwcache_aligned_wholeLines : ∃ k₀ c k₁ x k₂, startKernel = some k₀ ∧
    kmemCacheCreate zeroDesc k₀ 128 8 slabHwcacheAlign 0 = some (c, k₁) ∧
    kmemCacheAlloc callDepth k₁ c = some (x, k₂) ∧ x ≠ 0 ∧
    ralignOf (roundToWords 128) 8 slabHwcacheAlign = some 32 ∧ 32 ∣ x := by
  have hr : ralignOf (roundToWords 128) 8 slabHwcacheAlign = some 32 := by decide +kernel
  have hh : Honoured (roundToWords 128) (2 ^ 3) slabHwcacheAlign 32 :=
    ⟨by decide +kernel, Or.inr (by decide +kernel)⟩
  have hcheck : (startKernel.any fun k₀ => (kmemCacheCreate zeroDesc k₀ 128 8 slabHwcacheAlign 0).any
      fun r => decide (r.1 ≠ 0) && (kmemCacheAlloc callDepth r.2 r.1).any
        fun q => decide (q.1 ≠ 0)) = true := by decide +kernel
  obtain ⟨k₀, hk₀, h⟩ := (Option.any_eq_true _ _).mp hcheck
  simp only [Option.any_eq_true, Bool.and_eq_true, decide_eq_true_eq, Prod.exists] at h
  obtain ⟨c, k₁, hcreate, hc0, x, k₂, halloc, hx⟩ := h
  obtain ⟨k', hk', hall⟩ := (hwcache_aligned (k := 3)
    (buddyInvariant_plainKernel (n := 64) (by decide) (by decide)) (by decide) rfl (by decide)
    (by decide) hr).1 hh
  obtain rfl := Option.some.inj (hk₀.symm.trans hk')
  exact ⟨k₀, c, k₁, x, k₂, hk₀, hcreate, halloc, hx, hr,
    hall ⟨k₀, []⟩ zeroDesc .refl (suits_wholeLines _) c k₁ hcreate hc0 ⟨k₁, []⟩ .refl x k₂ halloc hx⟩

/-- **Objects of 100 bytes are not**: the second one is 104 bytes behind the first. -/
theorem not_aligned_hundred : ∃ k₀ c k₁ x k₂ y k₃, startKernel = some k₀ ∧
    kmemCacheCreate zeroDesc k₀ 100 8 slabHwcacheAlign 0 = some (c, k₁) ∧
    kmemCacheAlloc callDepth k₁ c = some (x, k₂) ∧ kmemCacheAlloc callDepth k₂ c = some (y, k₃) ∧
    ralignOf (roundToWords 100) 8 slabHwcacheAlign = some 32 ∧ y ≠ 0 ∧ ¬ 32 ∣ y := by
  have hr : ralignOf (roundToWords 100) 8 slabHwcacheAlign = some 32 := by decide +kernel
  have hcheck : (startKernel.any fun k₀ => (kmemCacheCreate zeroDesc k₀ 100 8 slabHwcacheAlign 0).any
      fun r => (kmemCacheAlloc callDepth r.2 r.1).any fun q => (kmemCacheAlloc callDepth q.2 r.1).any
        fun q' => decide (q'.1 ≠ 0 ∧ ¬ 32 ∣ q'.1)) = true := by decide +kernel
  obtain ⟨k₀, hk₀, h⟩ := (Option.any_eq_true _ _).mp hcheck
  simp only [Option.any_eq_true, decide_eq_true_eq, Prod.exists] at h
  obtain ⟨c, k₁, hcreate, x, k₂, hx, y, k₃, hy, hne, hno⟩ := h
  exact ⟨k₀, c, k₁, x, k₂, y, k₃, hk₀, hcreate, hx, hy, hr, hne, hno⟩

end YegaKernel.Slab.Alignment
