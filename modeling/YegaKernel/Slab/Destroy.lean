import YegaKernel.Slab.Totality

/-! # The pages that `slab_destroy` gives back

`slab_destroy` does not know the first page of a slab. Where the descriptor is in the slab it goes
back from the objects by `colouroff`; with `CFLGS_OFF_SLAB` it takes the page of the first object,
which is the first page only for the colours below the size of a page. Before that it calls the
destructor, which `kmem_cache_create` does not set. -/

namespace YegaKernel.Slab.Destroy

open Lib.Links Lib.Word Function
open Buddy.State (pageSize buddyGroups)
open Buddy.Ops (allocateBlock freeBlock)
open Slab.State Slab.Ops Slab.Grow Slab.Init
open Slab.Estimate Slab.Totality

/-! ### The call of `free_pages` -/

/-- The arguments of the call of `free_pages` in `slab_destroy`: the page and the order. There are
none if a destructor is called before: what it does is not known. -/
def freePagesCall (kc : KmemCache) (sd : SlabDesc) : Option (ℕ × ℕ) :=
  if kc.dtor ≠ 0 then none
  else some (virtToPage (if offSlab kc then sd.sMem else sub32 sd.sMem sd.colouroff), kc.gfporder)

variable {s : Kernel} {c p : ℕ} {kc : KmemCache} {sd : SlabDesc}

/-- **`slab_destroy`** clears the flags of the pages from the one of the call on and makes the call;
a descriptor outside the slab is freed. -/
theorem slabDestroy_eq {free : Kernel → ℕ → ℕ → Option Kernel} {slabp : ℕ}
    (hkc : readCache s c = some kc) (hsd : readSlab s slabp = some sd) :
    slabDestroy free s c slabp = (freePagesCall kc sd).bind fun call =>
      let z := clearPagesSlab s.zone call.1 (2 ^ call.2)
      let s := { s with zone := freeBlock z call.1 call.2 }
      if offSlab kc then free s kc.slabpCache slabp else some s := by
  unfold slabDestroy freePagesCall
  rw [hkc, hsd]
  simp only [Option.bind_eq_bind, Option.bind_some]
  by_cases hdtor : kc.dtor ≠ 0
  · rw [if_pos hdtor, if_pos hdtor]
    rfl
  · rw [if_neg hdtor, if_neg hdtor]
    rcases offSlab kc <;> rfl

/-! ### The slab that `cache_grow` builds -/

/-- The first page of the slab that `cache_grow` builds with the colour `j`, the address of its
descriptor, and the descriptor as `alloc_slabmgmt` leaves it. -/
def buildSlab (alloc : Kernel → ℕ → Option (ℕ × Kernel)) (s : Kernel) (kc : KmemCache) (j : ℕ) :
    Option (ℕ × ℕ × SlabDesc) := do
  let p ← (allocateBlock s.zone kc.gfporder).1
  let (objp, s) := kmemGetpages s kc
  if objp = 0 then none
  else do
    let (slabp, s) ← allocSlabmgmt alloc s kc objp (u32 (j * kc.colourOff))
    let sd ← readSlab s slabp
    return (p, slabp, sd)

theorem kmemGetpages_of_some
    (h : (allocateBlock s.zone kc.gfporder).1 = some p) : (kmemGetpages s kc).1 = pageAddress p := by
  unfold kmemGetpages
  rcases hz : allocateBlock s.zone kc.gfporder with ⟨q, z⟩
  rw [hz] at h
  simp only at h
  rw [h]

theorem buildSlab_some {alloc : Kernel → ℕ → Option (ℕ × Kernel)}
    {j slabp : ℕ} (h : buildSlab alloc s kc j = some (p, slabp, sd)) :
    sd.sMem = u32 (pageAddress p + sd.colouroff) ∧
      (offSlab kc = true → sd.colouroff = u32 (j * kc.colourOff)) := by
  obtain ⟨q, hq, h⟩ := Option.bind_eq_some_iff.mp h
  obtain ⟨-, h⟩ := Option.ite_none_left_eq_some.mp h
  obtain ⟨⟨d, s₁⟩, hmgmt, h⟩ := Option.bind_eq_some_iff.mp h
  obtain ⟨sd', hsd, h⟩ := Option.bind_eq_some_iff.mp h
  obtain ⟨rfl, rfl, rfl⟩ : q = p ∧ d = slabp ∧ sd' = sd := by simpa using h
  obtain ⟨hd0, hmem⟩ := mem_of_readSlab hsd
  obtain ⟨sd₁, hmem₁, hsmem, hoff, -⟩ := allocSlabmgmt_some hmgmt hd0
  obtain rfl : sd' = sd₁ := Cell.slab.inj (hmem.symm.trans hmem₁)
  refine ⟨?_, hoff⟩
  rw [← kmemGetpages_of_some hq]
  exact hsmem

theorem initObjs_keeps {d : ℕ} (hd : d ≠ 0) : ∀ (i : ℕ) {s s' : Kernel} {sd : SlabDesc},
    s.mem d = .slab sd → initObjs kc d i s = some s' →
      ∃ l, s'.mem d = .slab { sd with freeList := l }
  | 0, s, s', sd, hmem, h => by
    obtain rfl := Option.some.inj h
    exact ⟨sd.freeList, hmem⟩
  | i + 1, s, s', sd, hmem, h => by
    rw [initObjs, readSlab_of_mem hd hmem] at h
    obtain ⟨-, h⟩ := Option.ite_none_left_eq_some.mp h
    have hnext : (store (store s (u32 (sd.sMem + i * kc.objsize)) (.bytes sd.freeList)) d
        (.slab { sd with freeList := u32 (sd.sMem + i * kc.objsize) })).mem d =
        .slab { sd with freeList := u32 (sd.sMem + i * kc.objsize) } := update_self _ _ _
    obtain ⟨l, hl⟩ := initObjs_keeps hd i hnext h
    exact ⟨l, hl⟩

theorem setupSlab_keeps {s' : Kernel} {d objp : ℕ} (hd : d ≠ 0)
    (hdc : d ≠ c) (hmem : s.mem d = .slab sd) (h : setupSlab s kc c d objp = some s') :
    ∃ l, s'.mem d = .slab { sd with freeList := l } := by
  obtain ⟨s₁, hinit, h⟩ := Option.bind_eq_some_iff.mp h
  obtain ⟨kc', -, h⟩ := Option.bind_eq_some_iff.mp h
  obtain rfl := Option.some.inj h
  unfold cacheInitObjs at hinit
  rw [readSlab_of_mem hd (show (slabMapPages s kc c d objp).mem d = .slab sd from hmem)] at hinit
  obtain ⟨l, hl⟩ := initObjs_keeps hd _ (update_self _ _ _) hinit
  exact ⟨l, (update_of_ne hdc _ _).trans hl⟩

/-- **`cache_grow` builds this slab**, with the colour that is next, and fills its free list. -/
theorem cacheGrow_builds {alloc : Kernel → ℕ → Option (ℕ × Kernel)} {s' : Kernel}
    (hkc : readCache s c = some kc) (h : cacheGrow alloc s c = some (true, s')) :
    ∃ p slabp sd, buildSlab alloc (store s c (.cache (advanceColour kc))) kc kc.colourNext =
        some (p, slabp, sd) ∧
      (slabp ≠ c → ∃ l, s'.mem slabp = .slab { sd with freeList := l }) := by
  rcases hget : kmemGetpages (store s c (.cache (advanceColour kc))) kc with ⟨objp, s₁⟩
  by_cases h0 : objp = 0
  · subst h0
    rw [cacheGrow_of_null hkc hget] at h
    exact absurd h (by simp)
  rw [cacheGrow_of_pages hkc hget h0] at h
  obtain ⟨⟨slabp, s₂⟩, hmgmt, h⟩ := Option.bind_eq_some_iff.mp h
  simp only at h
  by_cases hd : slabp = 0
  · rw [if_pos hd] at h
    exact absurd h (by simp)
  rw [if_neg hd] at h
  obtain ⟨s₃, hsetup, h⟩ := Option.bind_eq_some_iff.mp h
  obtain rfl : s₃ = s' := by simpa using h
  obtain ⟨sd, hmem, -⟩ := allocSlabmgmt_some hmgmt hd
  obtain ⟨p, hp⟩ : ∃ p, (allocateBlock (store s c (.cache (advanceColour kc))).zone
      kc.gfporder).1 = some p := by
    rcases hz : allocateBlock (store s c (.cache (advanceColour kc))).zone kc.gfporder with ⟨_ | p, z⟩
    · rw [kmemGetpages, hz] at hget
      exact absurd (congrArg Prod.fst hget).symm h0
    · exact ⟨p, rfl⟩
  refine ⟨p, slabp, sd, ?_, fun hdc => setupSlab_keeps hd hdc hmem hsetup⟩
  unfold buildSlab
  simp only [hp, hget, Option.bind_eq_bind, Option.bind_some, if_neg h0, hmgmt,
    readSlab_of_mem hd hmem, Option.pure_def]

/-! ### The page of the call -/

/-- The page of an address up to `2 ^ 22` bytes behind the first one of the page `p`. -/
theorem virtToPage_behind {o : ℕ} (ho : o ≤ 2 ^ 22) :
    virtToPage (u32 (pageAddress p + o)) = p ↔ p < 2 ^ 18 ∧ o < pageSize := by
  unfold virtToPage pa pageAddress u32 pageSize pageOffset
  split_ifs <;> omega

theorem offset_le_of_off {found : KmemCache} {size align flags ctor slabpCache j : ℕ}
    (hoff : flags &&& cflgsOffSlab ≠ 0)
    (hnum : (cacheDesc found size align flags ctor slabpCache).num ≠ 0)
    (hj : j = 0 ∨ j < (cacheDesc found size align flags ctor slabpCache).colour) :
    j * (cacheDesc found size align flags ctor slabpCache).colourOff ≤ 2 ^ 22 := by
  unfold cacheDesc at hnum hj ⊢
  simp only at hnum hj ⊢
  rcases hloop : calculateSlabOrder (alignTo size align) align flags with ⟨order, num, leftOver⟩
  rw [hloop] at hnum hj
  simp only at hnum hj
  obtain ⟨-, horder, heq, -⟩ := orderLoop_spec _ _ _ _ _ _ _ _ hloop hnum
  have hbytes := (slabBytes_le horder).2
  have hle := Nat.div_mul_le_self (slabBytes order) (alignTo size align)
  -- what is left over is what the objects leave of the pages
  unfold cacheEstimate at heq
  rw [if_pos hoff, show pageSize * 2 ^ order = slabBytes order from rfl, Prod.mk.injEq] at heq
  have hword : u32 (slabBytes order / alignTo size align * alignTo size align) =
      slabBytes order / alignTo size align * alignTo size align := u32_of_lt (by omega)
  rw [hword, sub32_of_le (by omega) hle] at heq
  have hcol := colour_fits hj
  omega

section Main
variable {found : KmemCache} {size align flags ctor : ℕ} {s s₀ s₁ : Kernel} {c j p slabp : ℕ}
variable {kc : KmemCache} {sd : SlabDesc} {alloc : Kernel → ℕ → Option (ℕ × Kernel)}

/-- **`slab_destroy` gives the pages back** that the slab was built on, with their order, exactly if
there is no destructor, the pages are in the part of the memory that is mapped, and the first object
of a slab whose descriptor is elsewhere is in the first page. -/
theorem destroys_own_pages_iff (h : kmemCacheCreate found s₀ size align flags ctor = some (c, s₁))
    (hc : c ≠ 0) (hkc : s₁.mem c = .cache kc) (hj : j = 0 ∨ j < kc.colour)
    (hb : buildSlab alloc s kc j = some (p, slabp, sd)) :
    freePagesCall kc sd = some (p, kc.gfporder) ↔
      found.dtor = 0 ∧ p < 2 ^ 18 ∧
        (flags &&& cflgsOffSlab ≠ 0 → j * max cacheLineSize align < pageSize) := by
  obtain ⟨slabpCache, hmem, hnum⟩ := kmemCacheCreate_some h hc
  obtain rfl := Cell.cache.inj (hkc.symm.trans hmem)
  obtain ⟨hsmem, hcol⟩ := buildSlab_some hb
  have hmax : max cacheLineSize align =
      (cacheDesc found (roundToWords size) align flags ctor slabpCache).colourOff := by
    unfold cacheDesc
    simp only [max_def]
    split_ifs <;> omega
  have hdtor : (cacheDesc found (roundToWords size) align flags ctor slabpCache).dtor = found.dtor := rfl
  unfold freePagesCall
  rw [hdtor, hmax]
  by_cases hd : found.dtor = 0
  · rw [if_neg (not_not_intro hd), Option.some.injEq, Prod.mk.injEq, eq_self_iff_true, and_true]
    refine Iff.trans ?_ (and_iff_right hd).symm
    by_cases hoff : flags &&& cflgsOffSlab ≠ 0
    · have hos : offSlab (cacheDesc found (roundToWords size) align flags ctor slabpCache) = true :=
        decide_eq_true hoff
      have hle := offset_le_of_off hoff hnum hj
      rw [if_pos hos, hsmem, hcol hos, u32_of_lt (lt_of_le_of_lt hle (by norm_num)),
        virtToPage_behind hle]
      exact and_congr_right fun _ => (imp_iff_right hoff).symm
    · have hon : ¬ offSlab (cacheDesc found (roundToWords size) align flags ctor slabpCache) = true :=
        fun h => hoff (of_decide_eq_true h)
      have hword : pageAddress p < 2 ^ 32 := u32_lt _
      have hstart : sub32 sd.sMem sd.colouroff = u32 (pageAddress p + 0) := by
        rw [hsmem, sub32_u32_add hword, Nat.add_zero, u32_of_lt hword]
      rw [if_neg hon, hstart, virtToPage_behind (Nat.zero_le _)]
      exact and_congr_right fun _ => iff_of_true (by decide) fun h => absurd h hoff
  · rw [if_pos hd]
    exact iff_of_false (by simp) fun h => hd h.1

end Main

/-- A cache is created, and a slab of it with the second of its colours is made that meets `P`. -/
def builtCheck (size align flags : ℕ) (P : KmemCache → ℕ × ℕ × SlabDesc → Bool) : Bool :=
  startKernel.any fun s => (kmemCacheCreate zeroDesc s size align flags 0).any fun r =>
    (readCache r.2 r.1).any fun kc => decide (1 < kc.colour) &&
      (buildSlab (kmemCacheAlloc 1) r.2 kc 1).any (P kc)

theorem exists_of_builtCheck {size align flags : ℕ} {P : KmemCache → ℕ × ℕ × SlabDesc → Bool}
    (h : builtCheck size align flags P = true) : ∃ s s₁ c kc p slabp sd, startKernel = some s ∧
      kmemCacheCreate zeroDesc s size align flags 0 = some (c, s₁) ∧ c ≠ 0 ∧ s₁.mem c = .cache kc ∧
      1 < kc.colour ∧ buildSlab (kmemCacheAlloc 1) s₁ kc 1 = some (p, slabp, sd) ∧
      P kc (p, slabp, sd) = true := by
  obtain ⟨s, hs, h⟩ := (Option.any_eq_true _ _).mp h
  obtain ⟨⟨c, s₁⟩, hcreate, h⟩ := (Option.any_eq_true _ _).mp h
  obtain ⟨kc, hread, h⟩ := (Option.any_eq_true _ _).mp h
  obtain ⟨hcol, h⟩ := Bool.and_eq_true_iff.mp h
  obtain ⟨⟨p, slabp, sd⟩, hbuild, h⟩ := (Option.any_eq_true _ _).mp h
  obtain ⟨hc, hmem⟩ := mem_of_readCache hread
  exact ⟨s, s₁, c, kc, p, slabp, sd, hs, hcreate, hc, hmem, of_decide_eq_true hcol, hbuild, h⟩

/-- A slab of 200-byte objects, with its descriptor and the second of its colours. -/
theorem destroys_own_pages_twoHundred : ∃ s s₁ c kc p slabp sd, startKernel = some s ∧
    kmemCacheCreate zeroDesc s 200 8 0 0 = some (c, s₁) ∧ s₁.mem c = .cache kc ∧ 1 < kc.colour ∧
    buildSlab (kmemCacheAlloc 1) s₁ kc 1 = some (p, slabp, sd) ∧
    freePagesCall kc sd = some (p, kc.gfporder) := by
  have hcheck : builtCheck 200 8 0 (fun _ b => decide (b.1 < 2 ^ 18)) = true := by decide +kernel
  obtain ⟨s, s₁, c, kc, p, slabp, sd, hs, hcreate, hc, hmem, hcol, hbuild, hp⟩ :=
    exists_of_builtCheck hcheck
  exact ⟨s, s₁, c, kc, p, slabp, sd, hs, hcreate, hmem, hcol, hbuild,
    (destroys_own_pages_iff hcreate hc hmem (Or.inr hcol) hbuild).mpr
      ⟨rfl, of_decide_eq_true hp, fun h => absurd rfl h⟩⟩

/-- **Other pages are given back**: the slabs have eight pages and one object of five, and with the
second colour the object starts in the second page. -/
theorem destroys_other_pages : ∃ s s₁ c kc p slabp sd, startKernel = some s ∧
    kmemCacheCreate zeroDesc s 20480 4096 cflgsOffSlab 0 = some (c, s₁) ∧ s₁.mem c = .cache kc ∧
    1 < kc.colour ∧ buildSlab (kmemCacheAlloc 1) s₁ kc 1 = some (p, slabp, sd) ∧
    freePagesCall kc sd = some (p + 1, 3) := by
  have hcheck : builtCheck 20480 4096 cflgsOffSlab (fun kc b =>
      decide (freePagesCall kc b.2.2 = some (b.1 + 1, 3))) = true := by decide +kernel
  obtain ⟨s, s₁, c, kc, p, slabp, sd, hs, hcreate, -, hmem, hcol, hbuild, hcall⟩ :=
    exists_of_builtCheck hcheck
  exact ⟨s, s₁, c, kc, p, slabp, sd, hs, hcreate, hmem, hcol, hbuild, of_decide_eq_true hcall⟩

end YegaKernel.Slab.Destroy
