import YegaKernel.Slab.Run

/-! # The geometry of a slab

`kmem_cache_create` rounds the size of the objects up, and takes the first order whose pages have
room for one of them. `cache_estimate` counts the objects as if the descriptor needed
`sizeof(slab_t)` bytes, and takes one away if they do not fit behind the aligned descriptor. As long
as the alignment divides the size of a page this never happens: what is left in front of the objects
is a multiple of the alignment, so with room for the descriptor there is room for the aligned one.
-/

namespace YegaKernel.Slab.Estimate

open Lib.Links Lib.Word
open Buddy.State (pageSize buddyGroups)
open Slab.State Slab.Ops Slab.Init Slab.Run

/-! ### Rounding -/

theorem alignTo_two_pow (x : ℕ) {k : ℕ} (hk : k < 32) :
    alignTo x (2 ^ k) = u32 (x + (2 ^ k - 1)) / 2 ^ k * 2 ^ k := by
  have hpos : 0 < 2 ^ k := by positivity
  have hlt : 2 ^ k < 2 ^ 32 := Nat.pow_lt_pow_right (by norm_num) hk
  rw [alignTo, sub32_of_le hlt hpos,
    show 2 ^ 32 - 1 - (2 ^ k - 1) = highMask k by unfold highMask; omega,
    and_highMask (u32_lt _) hk.le]

theorem roundsUp_alignTo {x k : ℕ} (hk : k < 32) (hx : x + (2 ^ k - 1) < 2 ^ 32) :
    RoundsUp x (2 ^ k) (alignTo x (2 ^ k)) := by
  rw [alignTo_two_pow x hk, u32_of_lt hx]
  exact roundsUp_div_mul x (by positivity)

theorem roundToWords_eq (size : ℕ) :
    roundToWords size = if size % 4 = 0 then size else u32 (size + 3) / 4 * 4 := by
  have hand : size &&& 3 = size % 4 := Nat.and_two_pow_sub_one_eq_mod size 2
  unfold roundToWords
  rw [hand, show 2 ^ 32 - 1 - 3 = highMask 2 from rfl, and_highMask (u32_lt _) (by norm_num)]
  by_cases h : size % 4 = 0
  · simp [h]
  · simp [h]

theorem roundsUp_roundToWords {size : ℕ} (h : size + 3 < 2 ^ 32) :
    RoundsUp size 4 (roundToWords size) := by
  rw [roundToWords_eq]
  split_ifs with h4
  · exact ⟨le_rfl, by omega, Nat.dvd_of_mod_eq_zero h4⟩
  · rw [u32_of_lt h]
    exact roundsUp_div_mul size (by norm_num)

/-! ### One order -/

/-- The bytes of a slab of the given order: `4096 << gfporder`. -/
def slabBytes (order : ℕ) : ℕ := pageSize * 2 ^ order

/-- The bytes in front of the objects that the descriptor takes. -/
def mgmtRoom (align flags : ℕ) : ℕ := if flags &&& cflgsOffSlab ≠ 0 then 0 else slabMgmtSize align

/-- **A slab with `num` objects**: they fit behind `room` bytes, one more would not, and `leftOver`
bytes are left. -/
structure Estimates (order objsize room leftOver num : ℕ) : Prop where
  fits : room + num * objsize ≤ slabBytes order
  tight : slabBytes order < room + (num + 1) * objsize
  left : leftOver = slabBytes order - (room + num * objsize)

section Estimate
variable {order objsize k : ℕ}

theorem slabBytes_le (ho : order < buddyGroups) : pageSize ≤ slabBytes order ∧
    slabBytes order ≤ 2 ^ 22 := by
  have hle : 2 ^ order ≤ 2 ^ 10 := Nat.pow_le_pow_right (by norm_num) (by unfold buddyGroups at ho; omega)
  have hpos : 0 < 2 ^ order := by positivity
  unfold slabBytes pageSize
  omega

theorem two_pow_dvd_slabBytes (hk : k ≤ 12) : 2 ^ k ∣ slabBytes order :=
  dvd_mul_of_dvd_left (pow_dvd_pow 2 hk) _

theorem roundsUp_slabMgmtSize (hk : k ≤ 12) : RoundsUp sizeofSlab (2 ^ k) (slabMgmtSize (2 ^ k)) := by
  have hle : 2 ^ k ≤ 2 ^ 12 := Nat.pow_le_pow_right (by norm_num) hk
  exact roundsUp_alignTo (by omega) (by unfold sizeofSlab; omega)

theorem mgmt_fits (hk : k ≤ 12) (ho : order < buddyGroups) (hdvd : 2 ^ k ∣ objsize) :
    slabMgmtSize (2 ^ k) + (slabBytes order - sizeofSlab) / objsize * objsize ≤ slabBytes order := by
  have hge := (slabBytes_le ho).1
  have hle : (slabBytes order - sizeofSlab) / objsize * objsize ≤ slabBytes order - sizeofSlab :=
    Nat.div_mul_le_self _ _
  generalize (slabBytes order - sizeofSlab) / objsize = n at hle ⊢
  unfold pageSize at hge
  unfold sizeofSlab at hle
  -- what is in front of the objects is a multiple of the alignment
  have hfront : 2 ^ k ∣ slabBytes order - n * objsize :=
    Nat.dvd_sub (two_pow_dvd_slabBytes hk) (dvd_mul_of_dvd_right hdvd n)
  have := (roundsUp_slabMgmtSize hk).le_of_dvd hfront (by unfold sizeofSlab; omega)
  omega

/-- **`cache_estimate`**, for an alignment up to a page and objects of a multiple of it. -/
theorem cacheEstimate_spec (flags : ℕ) (hk : k ≤ 12) (ho : order < buddyGroups) (hpos : 0 < objsize)
    (hdvd : 2 ^ k ∣ objsize) : Estimates order objsize (mgmtRoom (2 ^ k) flags)
      (cacheEstimate order objsize (2 ^ k) flags).1 (cacheEstimate order objsize (2 ^ k) flags).2 := by
  obtain ⟨hge, hbytes⟩ := slabBytes_le ho
  unfold cacheEstimate mgmtRoom
  rw [show pageSize * 2 ^ order = slabBytes order from rfl]
  split_ifs with hoff
  · -- the descriptor is elsewhere
    simp only
    have hle := Nat.div_mul_le_self (slabBytes order) objsize
    have hlt : slabBytes order < (slabBytes order / objsize + 1) * objsize := by
      rw [Nat.mul_comm]
      exact Nat.lt_mul_div_succ _ hpos
    refine ⟨by omega, by omega, ?_⟩
    rw [u32_of_lt (by omega), sub32_of_le (by omega) hle]
    omega
  · simp only
    have hfit := mgmt_fits hk ho hdvd
    have hmgmt := (roundsUp_slabMgmtSize hk).le
    have hlt : slabBytes order - sizeofSlab <
        ((slabBytes order - sizeofSlab) / objsize + 1) * objsize := by
      rw [Nat.mul_comm]
      exact Nat.lt_mul_div_succ _ hpos
    generalize (slabBytes order - sizeofSlab) / objsize = n at hfit hlt ⊢
    have hno : ¬ slabBytes order < u32 (slabMgmtSize (2 ^ k) + n * objsize) := by
      rw [u32_of_lt (by omega)]
      omega
    rw [if_neg hno]
    refine ⟨hfit, by omega, ?_⟩
    have hobjs : sub32 (slabBytes order) (n * objsize) = slabBytes order - n * objsize :=
      sub32_of_le (by omega) (by omega)
    rw [u32_of_lt (by omega), hobjs, sub32_of_le (by omega) (by omega)]
    omega

end Estimate

/-! ### The loop over the orders -/

/-- **The first order with room for an object**, if there is one. -/
theorem orderLoop_spec (objsize align flags : ℕ) : ∀ (fuel start order num leftOver : ℕ),
    orderLoop objsize align flags fuel start = (order, num, leftOver) → num ≠ 0 →
      start ≤ order ∧ order < start + fuel ∧
      cacheEstimate order objsize align flags = (leftOver, num) ∧
      ∀ j, start ≤ j → j < order → (cacheEstimate j objsize align flags).2 = 0
  | 0, start, order, num, leftOver, h, hn => by
    rw [orderLoop, Prod.mk.injEq, Prod.mk.injEq] at h
    exact absurd h.2.1.symm hn
  | fuel + 1, start, order, num, leftOver, h, hn => by
    rw [orderLoop] at h
    simp only at h
    split_ifs at h with h0
    · obtain ⟨hle, hlt, heq, hbefore⟩ := orderLoop_spec objsize align flags fuel _ _ _ _ h hn
      refine ⟨by omega, by omega, heq, fun j hj hj' => ?_⟩
      rcases Nat.eq_or_lt_of_le hj with rfl | hj
      · exact h0
      · exact hbefore j hj hj'
    · obtain ⟨rfl, rfl, rfl⟩ := h
      exact ⟨le_rfl, by omega, rfl, fun j hj hj' => absurd hj' (by omega)⟩

/-! ### The descriptor of a cache -/

/-- **The geometry of a cache** for objects of `size` bytes, aligned to `align`: the objects are as
large and as aligned as required, one order less would have no room for one, and whichever colour a
slab has, its objects end within its pages. -/
structure SafeGeometry (kc : KmemCache) (size align room : ℕ) : Prop where
  size_le : size ≤ kc.objsize
  dvd_objsize : align ∣ kc.objsize
  num_pos : 1 ≤ kc.num
  fits : room + kc.num * kc.objsize ≤ slabBytes kc.gfporder
  tight : slabBytes kc.gfporder < room + (kc.num + 1) * kc.objsize
  order_lt : kc.gfporder < buddyGroups
  minimal : ∀ order < kc.gfporder, slabBytes order < room + kc.objsize
  colours : ∀ c, c = 0 ∨ c < kc.colour →
    c * kc.colourOff + room + kc.num * kc.objsize ≤ slabBytes kc.gfporder

theorem colour_fits {leftOver colourOff c : ℕ} (h : c = 0 ∨ c < leftOver / colourOff) :
    c * colourOff ≤ leftOver := by
  rcases h with rfl | h
  · omega
  · exact (Nat.mul_le_mul_right _ h.le).trans (Nat.div_mul_le_self _ _)

section Desc
variable {found : KmemCache} {size k flags ctor slabpCache : ℕ}

theorem roundsUp_objsize (hk : k ≤ 12) (hsize : size ≤ 2 ^ 31) :
    size ≤ alignTo (roundToWords size) (2 ^ k) ∧ 2 ^ k ∣ alignTo (roundToWords size) (2 ^ k) := by
  have hle : 2 ^ k ≤ 2 ^ 12 := Nat.pow_le_pow_right (by norm_num) hk
  have hwords : RoundsUp size 4 (roundToWords size) := roundsUp_roundToWords (by omega)
  have hlt := hwords.lt
  have hobj : RoundsUp (roundToWords size) (2 ^ k) (alignTo (roundToWords size) (2 ^ k)) :=
    roundsUp_alignTo (by omega) (by omega)
  exact ⟨hwords.le.trans hobj.le, hobj.dvd⟩

theorem safeGeometry_cacheDesc (hk : k ≤ 12) (h1 : 1 ≤ size) (hsize : size ≤ 2 ^ 31)
    (hnum : (cacheDesc found (roundToWords size) (2 ^ k) flags ctor slabpCache).num ≠ 0) :
    SafeGeometry (cacheDesc found (roundToWords size) (2 ^ k) flags ctor slabpCache) size (2 ^ k)
      (mgmtRoom (2 ^ k) flags) := by
  obtain ⟨hle, hdvd⟩ := roundsUp_objsize hk hsize
  unfold cacheDesc at hnum ⊢
  simp only at hnum ⊢
  generalize alignTo (roundToWords size) (2 ^ k) = objsize at hle hdvd hnum ⊢
  rcases hloop : calculateSlabOrder objsize (2 ^ k) flags with ⟨order, num, leftOver⟩
  rw [hloop] at hnum
  simp only at hnum ⊢
  obtain ⟨-, horder, heq, hbefore⟩ := orderLoop_spec _ _ _ _ _ _ _ _ hloop hnum
  have hest := cacheEstimate_spec flags hk horder (by omega) hdvd
  rw [heq] at hest
  simp only at hest
  refine ⟨hle, hdvd, Nat.one_le_iff_ne_zero.mpr hnum, hest.fits, hest.tight, horder, fun j hj => ?_,
    fun c hc => ?_⟩
  · have hj0 := (cacheEstimate_spec flags hk (hj.trans horder) (by omega) hdvd).tight
    rw [hbefore j (Nat.zero_le j) hj, Nat.zero_add, Nat.one_mul] at hj0
    exact hj0
  · have hcol := colour_fits hc
    have hfits := hest.fits
    rw [hest.left] at hcol
    simp only
    omega

end Desc

/-! ### `kmem_cache_create` -/

/-- The end of `kmem_cache_create`, with the object at `c` for the descriptor `kc`. -/
def finishCreate (s : Kernel) (c : ℕ) (kc : KmemCache) : Option (ℕ × Kernel) :=
  if kc.num = 0 then (kmemCacheFree callDepth s s.cacheCache c).map fun s => (0, s)
  else some (c, listAdd (initListHead (store s c (.cache kc)) (Link.next c)) Link.chain (Link.next c))

theorem kmemCacheCreate_eq (found : KmemCache) (s : Kernel) (size align flags ctor : ℕ) :
    kmemCacheCreate found s size align flags ctor =
      if flags &&& slabHwcacheAlign ≠ 0 ∧ roundToWords size = 0 then none
      else (kmemCacheAlloc callDepth s s.cacheCache).bind fun r =>
        if r.1 = 0 then some (0, r.2) else if alignTo (roundToWords size) align = 0 then none
        else (readCache (kmemList3Init r.2 r.1) (kmemList3Init r.2 r.1).cacheCache).bind fun cc =>
          finishCreate (kmemList3Init r.2 r.1) r.1
            (cacheDesc found (roundToWords size) align flags ctor cc.slabpCache) := by
  unfold kmemCacheCreate
  simp only
  by_cases hhw : flags &&& slabHwcacheAlign ≠ 0 ∧ roundToWords size = 0
  · rw [if_pos hhw, if_pos hhw]
    rfl
  · rw [if_neg hhw, if_neg hhw]
    refine congrArg (Option.bind _) (funext fun r => ?_)
    by_cases hobj : alignTo (roundToWords size) align = 0
    · rw [if_pos hobj, if_pos hobj]
      rfl
    · simp only [finishCreate, Option.map_eq_bind]
      rfl

theorem kmemCacheCreate_some {found : KmemCache} {s s' : Kernel} {size align flags ctor c : ℕ}
    (h : kmemCacheCreate found s size align flags ctor = some (c, s')) (hc : c ≠ 0) :
    ∃ slabpCache, s'.mem c = .cache
        (cacheDesc found (roundToWords size) align flags ctor slabpCache) ∧
      (cacheDesc found (roundToWords size) align flags ctor slabpCache).num ≠ 0 := by
  rw [kmemCacheCreate_eq] at h
  obtain ⟨-, h⟩ := Option.ite_none_left_eq_some.mp h
  obtain ⟨⟨c₁, s₁⟩, -, h⟩ := Option.bind_eq_some_iff.mp h
  by_cases hnull : c₁ = 0
  · rw [if_pos hnull, Option.some.injEq, Prod.mk.injEq] at h
    exact absurd h.1.symm hc
  rw [if_neg hnull] at h
  obtain ⟨-, h⟩ := Option.ite_none_left_eq_some.mp h
  obtain ⟨cc, -, h⟩ := Option.bind_eq_some_iff.mp h
  unfold finishCreate at h
  split_ifs at h with hnum
  · obtain ⟨s₂, -, h⟩ := Option.map_eq_some_iff.mp h
    exact absurd (congrArg Prod.fst h).symm hc
  · obtain ⟨rfl, rfl⟩ := h
    exact ⟨cc.slabpCache, Function.update_self _ _ _, hnum⟩

/-! ### The objects of a slab -/

/-- **A slab as `alloc_slabmgmt` sets it up** at `objp`, with the colour `c`: its objects lie in its
pages, behind the descriptor if that is in the slab, and are aligned. -/
structure WellPlaced (kc : KmemCache) (align room objp c slabp : ℕ) (sd : SlabDesc) : Prop where
  start : sd.sMem = u32 (objp + (c * kc.colourOff + room))
  behind : offSlab kc = false → slabp = u32 (objp + c * kc.colourOff) ∧ sizeofSlab ≤ room
  inside : ∀ i < kc.num, u32 (sd.sMem + i * kc.objsize) =
      u32 (objp + (c * kc.colourOff + room + i * kc.objsize)) ∧
    c * kc.colourOff + room + i * kc.objsize + kc.objsize ≤ slabBytes kc.gfporder
  aligned : ∀ i < kc.num, align ∣ u32 (sd.sMem + i * kc.objsize)

theorem dvd_u32 {k x : ℕ} (hk : k ≤ 32) (h : 2 ^ k ∣ x) : 2 ^ k ∣ u32 x :=
  (Nat.dvd_mod_iff (pow_dvd_pow 2 hk)).mpr h

theorem allocSlabmgmt_some {alloc : Kernel → ℕ → Option (ℕ × Kernel)} {s s' : Kernel}
    {kc : KmemCache} {objp offset slabp : ℕ}
    (h : allocSlabmgmt alloc s kc objp offset = some (slabp, s')) (h0 : slabp ≠ 0) :
    ∃ sd, s'.mem slabp = .slab sd ∧ sd.sMem = u32 (objp + sd.colouroff) ∧
      (offSlab kc = true → sd.colouroff = offset) ∧
      (offSlab kc = false → slabp = u32 (objp + offset) ∧
        sd.colouroff = u32 (offset + kc.slabSize)) := by
  unfold allocSlabmgmt at h
  by_cases hoff : offSlab kc = true
  · rw [if_pos hoff] at h
    simp only [Option.bind_eq_bind, Option.pure_def] at h
    obtain ⟨⟨d, s₁⟩, -, h⟩ := Option.bind_eq_some_iff.mp h
    by_cases hd : d = 0
    · rw [if_pos hd, Option.some.injEq, Prod.mk.injEq] at h
      exact absurd h.1.symm h0
    · rw [if_neg hd, Option.some.injEq, Prod.mk.injEq] at h
      obtain ⟨rfl, rfl⟩ := h
      exact ⟨_, Function.update_self _ _ _, rfl, fun _ => rfl,
        fun hon => absurd (hoff.symm.trans hon) (by simp)⟩
  · rw [if_neg hoff, Option.some.injEq, Prod.mk.injEq] at h
    obtain ⟨rfl, rfl⟩ := h
    exact ⟨_, Function.update_self _ _ _, rfl, fun h => absurd h hoff, fun _ => ⟨rfl, rfl⟩⟩

section Placed
variable {found : KmemCache} {size k flags ctor slabpCache : ℕ}

/-- The room in front of the objects of a new cache. -/
structure Header (kc : KmemCache) (align room : ℕ) : Prop where
  dvd : align ∣ room
  off : offSlab kc = true → room = 0
  on : offSlab kc = false → room = kc.slabSize ∧ sizeofSlab ≤ room

theorem header_cacheDesc (hk : k ≤ 12) :
    Header (cacheDesc found size (2 ^ k) flags ctor slabpCache) (2 ^ k) (mgmtRoom (2 ^ k) flags) := by
  obtain ⟨hle, -, hdvd⟩ := roundsUp_slabMgmtSize hk
  by_cases hf : flags &&& cflgsOffSlab ≠ 0
  · have hroom : mgmtRoom (2 ^ k) flags = 0 := if_pos hf
    have hoff : offSlab (cacheDesc found size (2 ^ k) flags ctor slabpCache) = true := decide_eq_true hf
    rw [hroom]
    exact ⟨dvd_zero _, fun _ => rfl, fun hon => absurd (hoff.symm.trans hon) (by simp)⟩
  · have hroom : mgmtRoom (2 ^ k) flags = slabMgmtSize (2 ^ k) := if_neg hf
    have hon : offSlab (cacheDesc found size (2 ^ k) flags ctor slabpCache) = false :=
      decide_eq_false hf
    rw [hroom]
    refine ⟨hdvd, fun hoff => absurd (hon.symm.trans hoff) (by simp), fun _ => ⟨?_, hle⟩⟩
    exact (if_neg hf).symm

theorem dvd_colourOff_cacheDesc :
    2 ^ k ∣ (cacheDesc found size (2 ^ k) flags ctor slabpCache).colourOff := by
  unfold cacheDesc cacheLineSize
  simp only
  split_ifs with hlt
  · exact dvd_rfl
  · exact pow_dvd_pow 2 ((Nat.pow_le_pow_iff_right (by norm_num)).mp (show 2 ^ k ≤ 2 ^ 5 by omega))

theorem SafeGeometry.wellPlaced {kc : KmemCache} {room : ℕ} (hg : SafeGeometry kc size (2 ^ k) room)
    (hk : k ≤ 12) (hh : Header kc (2 ^ k) room) (hoffset : 2 ^ k ∣ kc.colourOff)
    {alloc : Kernel → ℕ → Option (ℕ × Kernel)} {s s' : Kernel} {objp c slabp : ℕ}
    (hobjp : pageSize ∣ objp) (hc : c = 0 ∨ c < kc.colour)
    (h : allocSlabmgmt alloc s kc objp (u32 (c * kc.colourOff)) = some (slabp, s'))
    (h0 : slabp ≠ 0) :
    ∃ sd, s'.mem slabp = .slab sd ∧ WellPlaced kc (2 ^ k) room objp c slabp sd := by
  have hbytes := (slabBytes_le hg.order_lt).2
  have hcol := hg.colours c hc
  obtain ⟨sd, hmem, hsmem, hoffSlab, honSlab⟩ := allocSlabmgmt_some h h0
  have hword : u32 (c * kc.colourOff) = c * kc.colourOff := u32_of_lt (by omega)
  rw [hword] at hoffSlab honSlab
  have hstart : sd.sMem = u32 (objp + (c * kc.colourOff + room)) := by
    by_cases hoff : offSlab kc = true
    · rw [hsmem, hoffSlab hoff, hh.off hoff, Nat.add_zero]
    · have hon : offSlab kc = false := Bool.eq_false_iff.mpr hoff
      rw [hsmem, (honSlab hon).2, ← (hh.on hon).1]
      congr 2
      exact u32_of_lt (by omega)
  refine ⟨sd, hmem, hstart, fun hon => ⟨(honSlab hon).1, (hh.on hon).2⟩, fun i hi => ⟨?_, ?_⟩,
    fun i _ => ?_⟩
  · rw [hstart, u32_add_u32, Nat.add_assoc]
  · have hmul : (i + 1) * kc.objsize ≤ kc.num * kc.objsize := Nat.mul_le_mul_right _ hi
    rw [Nat.add_mul, Nat.one_mul] at hmul
    omega
  · rw [hstart, u32_add_u32]
    refine dvd_u32 (by omega) (dvd_add (dvd_add ?_ (dvd_add ?_ hh.dvd)) ?_)
    · exact (pow_dvd_pow 2 hk).trans hobjp
    · exact dvd_mul_of_dvd_right hoffset c
    · exact dvd_mul_of_dvd_right hg.dvd_objsize i

/-- **The geometry of every cache is safe**, and no order less would do. -/
theorem kmemCacheCreate_geometry {s s' : Kernel} {c : ℕ} (h1 : 1 ≤ size) (hsize : size ≤ 2 ^ 31)
    (hk : 2 ^ k ≤ 4096) (h : kmemCacheCreate found s size (2 ^ k) flags ctor = some (c, s'))
    (hc : c ≠ 0) : ∃ kc, s'.mem c = .cache kc ∧
      SafeGeometry kc size (2 ^ k) (mgmtRoom (2 ^ k) flags) ∧
      ∀ (alloc : Kernel → ℕ → Option (ℕ × Kernel)) (s₁ s₂ : Kernel) (objp colour slabp : ℕ),
        pageSize ∣ objp → colour = 0 ∨ colour < kc.colour →
        allocSlabmgmt alloc s₁ kc objp (u32 (colour * kc.colourOff)) = some (slabp, s₂) →
        slabp ≠ 0 → ∃ sd, s₂.mem slabp = .slab sd ∧
          WellPlaced kc (2 ^ k) (mgmtRoom (2 ^ k) flags) objp colour slabp sd := by
  have hk12 : k ≤ 12 := (Nat.pow_le_pow_iff_right (by norm_num)).mp (show 2 ^ k ≤ 2 ^ 12 from hk)
  obtain ⟨slabpCache, hmem, hnum⟩ := kmemCacheCreate_some h hc
  have hg := safeGeometry_cacheDesc hk12 h1 hsize hnum
  exact ⟨_, hmem, hg, fun alloc s₁ s₂ objp colour slabp hobjp hcolour halloc h0 =>
    hg.wellPlaced hk12 (header_cacheDesc hk12) dvd_colourOff_cacheDesc hobjp hcolour halloc h0⟩

end Placed

/-- A cache of 100-byte objects, aligned to 64 bytes: there are 31 of 128 bytes in a page, and one
colour. -/
theorem kmemCacheCreate_geometry_hundred : ∃ k s' c kc,
    initSlab zeroDesc (plainKernel 64 (by decide)) = some k ∧
    kmemCacheCreate zeroDesc k 100 64 0 0 = some (c, s') ∧ s'.mem c = .cache kc ∧
    SafeGeometry kc 100 64 64 ∧ kc.num = 31 := by
  have hsome : (((initSlab zeroDesc (plainKernel 64 (by decide))).bind fun k =>
      kmemCacheCreate zeroDesc k 100 64 0 0).any fun r => decide (r.1 ≠ 0 ∧
        (readCache r.2 r.1).map KmemCache.num = some 31)) = true := by decide +kernel
  obtain ⟨⟨c, s'⟩, h, hc⟩ := (Option.any_eq_true _ _).mp hsome
  obtain ⟨k, hk, h⟩ := Option.bind_eq_some_iff.mp h
  obtain ⟨hc0, hnum⟩ := of_decide_eq_true hc
  obtain ⟨kc, hmem, hg, -⟩ := kmemCacheCreate_geometry (k := 6) (by decide) (by decide) (by decide) h hc0
  rw [readCache_of_mem hc0 hmem, Option.map_some, Option.some.injEq] at hnum
  exact ⟨k, s', c, kc, hk, h, hmem, hg, hnum⟩

end YegaKernel.Slab.Estimate
