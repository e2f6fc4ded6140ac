import YegaKernel.Slab.Totality

/-! # What a new descriptor keeps of its memory

`kmem_cache_create` gets the memory for the descriptor from `kmem_cache_alloc`, which does not clear
it, and writes the fields one by one. `limit`, `lists.free_limit`, `gfpflags`, `colour_next`,
`dflags` and `dtor` are not among them; `cache_grow` reads `colour_next`, `kmem_getpages` reads
`gfpflags` and `slab_destroy` reads `dtor`. The other three are never read.

Two runs that start alike, but for what the object held, are compared: they end alike, but for these
fields of the new descriptor. -/

namespace YegaKernel.Slab.OldMemory

open Lib.Links Lib.Word
open Slab.State Slab.Ops Slab.Run Slab.Estimate
open Slab.Init Slab.Totality Function

/-! ### The fields -/

/-- All of a `kmem_cache_t` but its list heads: the fields of `KmemCache` and those that the
operations of the model do not need. -/
structure Descriptor extends KmemCache where
  limit : ℕ
  listsFreeLimit : ℕ
  gfpflags : ℕ
  dflags : ℕ
  name : ℕ
  deriving DecidableEq, Repr

/-- The assignments of `kmem_cache_create` to the descriptor, which held `found`, in their order. -/
def fillIn (found : Descriptor) (name size align flags ctor slabpCache : ℕ) : Descriptor :=
  -- kmem_list3_init
  let d := { found with freeObjects := 0 }
  let d := { d with objsize := size }
  let size := alignTo size align
  -- calculate_slab_order
  let (gfporder, num, leftOver) := calculateSlabOrder size align flags
  let d := { d with num := num, gfporder := gfporder }
  let d := { d with freeLimit := d.num }
  let slabSize := if flags &&& cflgsOffSlab ≠ 0 then sizeofSlab else alignTo sizeofSlab align
  let d := { d with colourOff := cacheLineSize }
  let d := { d with colourOff := if d.colourOff < align then align else d.colourOff }
  let d := { d with colour := leftOver / d.colourOff }
  let d := { d with slabSize := slabSize }
  let d := { d with flags := flags }
  let d := { d with objsize := size }
  let d := { d with ctor := ctor, name := name }
  { d with slabpCache := slabpCache }

/-- What `cache_grow`, `kmem_getpages`, `cache_alloc_refill`, `kmem_cache_free` and `slab_destroy`
read of a descriptor is the same, the list heads apart. -/
structure SameReads (d d' : Descriptor) : Prop where
  fields : d.toKmemCache = d'.toKmemCache
  gfpflags : d.gfpflags = d'.gfpflags

section Fields
variable (found found' : Descriptor) (name size align flags ctor slabpCache : ℕ)

theorem toKmemCache_fillIn : (fillIn found name size align flags ctor slabpCache).toKmemCache =
    cacheDesc found.toKmemCache size align flags ctor slabpCache := rfl

theorem cacheDesc_eq_iff (kc kc' : KmemCache) :
    cacheDesc kc size align flags ctor slabpCache = cacheDesc kc' size align flags ctor slabpCache ↔
      kc.colourNext = kc'.colourNext ∧ kc.dtor = kc'.dtor := by
  unfold cacheDesc
  simp

theorem sameReads_fillIn_iff : SameReads (fillIn found name size align flags ctor slabpCache)
      (fillIn found' name size align flags ctor slabpCache) ↔
    found.colourNext = found'.colourNext ∧ found.gfpflags = found'.gfpflags ∧
      found.dtor = found'.dtor := by
  constructor
  · rintro ⟨hfields, hgfp⟩
    rw [toKmemCache_fillIn, toKmemCache_fillIn, cacheDesc_eq_iff] at hfields
    exact ⟨hfields.1, hgfp, hfields.2⟩
  · rintro ⟨hnext, hgfp, hdtor⟩
    refine ⟨?_, hgfp⟩
    rw [toKmemCache_fillIn, toKmemCache_fillIn, cacheDesc_eq_iff]
    exact ⟨hnext, hdtor⟩

end Fields

/-! ### The list heads -/

/-- The list heads in the descriptor at `c`. -/
def heads (c : ℕ) : List Link :=
  [.list c .slabsFull, .list c .slabsPartial, .list c .slabsFree, .next c]

/-- The states are the same, but for the list heads in the object at `c`. -/
structure SameOutside (c : ℕ) (t t' : Kernel) : Prop where
  state : t' = { t with links := t'.links }
  links : ∀ n, n ∉ heads c → t'.links n = t.links n

theorem links_initListHead (s : Kernel) (n : Link) :
    (initListHead s n).links = update s.links n ⟨n, n⟩ := by
  unfold initListHead LinkStore.setPrev LinkStore.setNext instLinkStoreKernelLink
  simp

theorem links_clearHeads (s : Kernel) (c : ℕ) (n : Link) :
    (initListHead (kmemList3Init s c) (Link.next c)).links n =
      if n ∈ heads c then ⟨n, n⟩ else s.links n := by
  unfold kmemList3Init heads
  simp only [links_initListHead, update_apply, List.mem_cons, List.not_mem_nil, or_false]
  split_ifs <;> simp_all

variable {c : ℕ} {t t' : Kernel}

theorem SameOutside.clearHeads (h : SameOutside c t t') :
    initListHead (kmemList3Init t' c) (Link.next c) = initListHead (kmemList3Init t c) (Link.next c) := by
  have hlinks : (initListHead (kmemList3Init t' c) (Link.next c)).links =
      (initListHead (kmemList3Init t c) (Link.next c)).links := by
    funext n
    rw [links_clearHeads, links_clearHeads]
    split_ifs with hn
    · rfl
    · exact h.links n hn
  have hstate : initListHead (kmemList3Init t' c) (Link.next c) =
      { initListHead (kmemList3Init t c) (Link.next c) with
        links := (initListHead (kmemList3Init t' c) (Link.next c)).links } := by
    rw [h.state]
    rfl
  rw [hstate, hlinks]

theorem SameOutside.readCache {a : ℕ} (h : SameOutside c t t') :
    readCache (kmemList3Init t' c) a = readCache (kmemList3Init t c) a := by
  rw [h.state]
  rfl

theorem SameOutside.cacheCache (h : SameOutside c t t') :
    (kmemList3Init t' c).cacheCache = (kmemList3Init t c).cacheCache := by
  rw [h.state]
  rfl

/-! ### Two runs -/

/-- The end of a `kmem_cache_create` that succeeds: `kc` is stored, and the descriptor put on the
chain. -/
def enterCache (s : Kernel) (c : ℕ) (kc : KmemCache) : Kernel :=
  listAdd (store (initListHead s (Link.next c)) c (.cache kc)) Link.chain (Link.next c)

theorem enterCache_store (s : Kernel) (c : ℕ) (kc kc' : KmemCache) :
    enterCache s c kc' = store (enterCache s c kc) c (.cache kc') := by
  have hmem : update (enterCache s c kc).mem c (.cache kc') = (enterCache s c kc').mem :=
    update_idem _ _ _
  rw [store, hmem]
  rfl

/-- What `kmem_cache_create` does with the object at `c` that it gets, in the state `t`. -/
theorem kmemCacheCreate_at {found : KmemCache} {s : Kernel} {size align flags ctor : ℕ}
    (halloc : kmemCacheAlloc callDepth s s.cacheCache = some (c, t)) (hc : c ≠ 0) (s' : Kernel) :
    kmemCacheCreate found s size align flags ctor = some (c, s') ↔
      ¬ (flags &&& slabHwcacheAlign ≠ 0 ∧ roundToWords size = 0) ∧
      alignTo (roundToWords size) align ≠ 0 ∧
      ∃ cc, readCache (kmemList3Init t c) (kmemList3Init t c).cacheCache = some cc ∧
        (cacheDesc found (roundToWords size) align flags ctor cc.slabpCache).num ≠ 0 ∧
        s' = enterCache (kmemList3Init t c) c
          (cacheDesc found (roundToWords size) align flags ctor cc.slabpCache) := by
  rw [kmemCacheCreate_eq, Option.ite_none_left_eq_some, halloc, Option.bind_some, if_neg hc,
    Option.ite_none_left_eq_some, Option.bind_eq_some_iff]
  refine and_congr_right fun _ => and_congr_right fun _ => exists_congr fun cc =>
    and_congr_right fun _ => ?_
  unfold finishCreate
  split_ifs with hnum
  · -- the object is given back, and the result is NULL
    constructor
    · intro h
      obtain ⟨s₂, -, h⟩ := Option.map_eq_some_iff.mp h
      exact absurd (congrArg Prod.fst h).symm hc
    · rintro ⟨hnum', -⟩
      exact absurd hnum hnum'
  · rw [Option.some.injEq, Prod.mk.injEq]
    constructor
    · rintro ⟨-, rfl⟩
      exact ⟨hnum, rfl⟩
    · rintro ⟨-, rfl⟩
      exact ⟨rfl, rfl⟩

/-- **Two runs of `kmem_cache_create`** that get the object at `c` in states that differ in its
contents only: the object held `found` in one and `found'` in the other, and any list heads. If one
creates the cache so does the other, the states are the same outside the descriptor, and of what is
read of the descriptor later three fields are those that the object held. -/
theorem new_cache_independent_iff (found found' : Descriptor) (name : ℕ) {s s' t t' s₁ : Kernel}
    {size align flags ctor c : ℕ} (hs : kmemCacheAlloc callDepth s s.cacheCache = some (c, t))
    (hs' : kmemCacheAlloc callDepth s' s'.cacheCache = some (c, t')) (hsame : SameOutside c t t')
    (h : kmemCacheCreate found.toKmemCache s size align flags ctor = some (c, s₁)) (hc : c ≠ 0) :
    ∃ d d' : Descriptor, s₁.mem c = .cache d.toKmemCache ∧
      kmemCacheCreate found'.toKmemCache s' size align flags ctor =
        some (c, store s₁ c (.cache d'.toKmemCache)) ∧
      (∃ slabpCache, d = fillIn found name (roundToWords size) align flags ctor slabpCache ∧
        d' = fillIn found' name (roundToWords size) align flags ctor slabpCache) ∧
      (SameReads d d' ↔ found.colourNext = found'.colourNext ∧ found.gfpflags = found'.gfpflags ∧
        found.dtor = found'.dtor) := by
  obtain ⟨hhw, hobj, cc, hcc, hnum, rfl⟩ := (kmemCacheCreate_at hs hc s₁).mp h
  refine ⟨fillIn found name (roundToWords size) align flags ctor cc.slabpCache,
    fillIn found' name (roundToWords size) align flags ctor cc.slabpCache,
    update_self _ _ _, ?_, ⟨cc.slabpCache, rfl, rfl⟩, sameReads_fillIn_iff _ _ _ _ _ _ _ _⟩
  rw [toKmemCache_fillIn, kmemCacheCreate_at hs' hc]
  refine ⟨hhw, hobj, cc, ?_, hnum, ?_⟩
  · rw [hsame.cacheCache, hsame.readCache]
    exact hcc
  · rw [← enterCache_store, enterCache, enterCache, hsame.clearHeads]

/-- What the object may hold: all the words are `w`, but for the three fields, which are zero. -/
def filledWith (w : ℕ) : Descriptor :=
  { freeObjects := w, objsize := w, flags := w, num := w, freeLimit := w, gfporder := w, colour := w,
    colourOff := w, colourNext := 0, slabpCache := w, slabSize := w, ctor := w, dtor := 0, limit := w,
    listsFreeLimit := w, gfpflags := 0, dflags := w, name := w }

/-- An object that held zeros and one that held other words, but zero in the three fields. -/
theorem new_cache_independent_filled : ∃ s s₁ s₂ c d d', startKernel = some s ∧
    kmemCacheCreate (filledWith 0).toKmemCache s 100 8 0 0 = some (c, s₁) ∧
    kmemCacheCreate (filledWith 0xDEADBEEF).toKmemCache s 100 8 0 0 = some (c, s₂) ∧
    s₁.mem c = .cache d.toKmemCache ∧ s₂.mem c = .cache d'.toKmemCache ∧ SameReads d d' := by
  have hcheck : (startKernel.any fun s => (kmemCacheAlloc callDepth s s.cacheCache).any fun r =>
      (kmemCacheCreate (filledWith 0).toKmemCache s 100 8 0 0).any fun r₁ =>
        decide (r.1 ≠ 0 ∧ r₁.1 = r.1)) = true := by decide +kernel
  obtain ⟨s, hs, h⟩ := (Option.any_eq_true _ _).mp hcheck
  obtain ⟨⟨c, t⟩, halloc, h⟩ := (Option.any_eq_true _ _).mp h
  obtain ⟨⟨c₁, s₁⟩, hcreate, h⟩ := (Option.any_eq_true _ _).mp h
  obtain ⟨hc, rfl⟩ : c ≠ 0 ∧ c₁ = c := of_decide_eq_true h
  obtain ⟨d, d', hmem, hcreate', -, hiff⟩ := new_cache_independent_iff (filledWith 0)
    (filledWith 0xDEADBEEF) 0 halloc halloc ⟨rfl, fun _ _ => rfl⟩ hcreate hc
  exact ⟨s, s₁, _, c₁, d, d', hs, hcreate, hcreate', hmem, update_self _ _ _,
    hiff.mpr ⟨rfl, rfl, rfl⟩⟩

/-- **The old words are read**: with `5` in `colour_next` and `7` in `dtor`, the first slab of the
new cache is coloured by `5`, and `slab_destroy` calls the function at `7`. -/
theorem new_cache_keeps_old_words : ∃ s s₁ s₂ c kc kc', startKernel = some s ∧
    kmemCacheCreate (filledWith 0).toKmemCache s 100 8 0 0 = some (c, s₁) ∧
    kmemCacheCreate { (filledWith 0).toKmemCache with colourNext := 5, dtor := 7 } s 100 8 0 0 =
      some (c, s₂) ∧
    readCache s₁ c = some kc ∧ readCache s₂ c = some kc' ∧ kc.colourNext = 0 ∧ kc'.colourNext = 5 ∧
    kc.dtor = 0 ∧ kc'.dtor = 7 := by
  have hcheck : (startKernel.any fun s =>
      (kmemCacheCreate (filledWith 0).toKmemCache s 100 8 0 0).any fun r =>
      (kmemCacheCreate { (filledWith 0).toKmemCache with colourNext := 5, dtor := 7 } s 100 8 0 0).any
      fun r' => (readCache r.2 r.1).any fun kc => (readCache r'.2 r'.1).any fun kc' =>
        decide (r'.1 = r.1 ∧ kc.colourNext = 0 ∧ kc'.colourNext = 5 ∧ kc.dtor = 0 ∧ kc'.dtor = 7)) =
      true := by decide +kernel
  obtain ⟨s, hs, h⟩ := (Option.any_eq_true _ _).mp hcheck
  obtain ⟨⟨c, s₁⟩, hcreate, h⟩ := (Option.any_eq_true _ _).mp h
  obtain ⟨⟨c', s₂⟩, hcreate', h⟩ := (Option.any_eq_true _ _).mp h
  obtain ⟨kc, hkc, h⟩ := (Option.any_eq_true _ _).mp h
  obtain ⟨kc', hkc', h⟩ := (Option.any_eq_true _ _).mp h
  obtain ⟨rfl, hfields⟩ : c' = c ∧ _ := of_decide_eq_true h
  exact ⟨s, s₁, s₂, c', kc, kc', hs, hcreate, hcreate', hkc, hkc', hfields⟩

end YegaKernel.Slab.OldMemory
