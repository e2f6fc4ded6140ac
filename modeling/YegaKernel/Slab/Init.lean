import YegaKernel.Slab.Idle

/-! # `init_slab`

`cache_cache` is set up by hand; the cache of slab descriptors and the caches of `malloc_sizes` are
created from it. When the zone has no page for the first slab of `cache_cache`, none of them is. -/

namespace YegaKernel.Slab.Init

open Lib.Links Lib.Families Lib.Word Lib.NullList
open Buddy.State (Node pageSize buddyGroups)
open Buddy.Ops (allocateBlock PageFree)
open Buddy.Represent (Represents)
open Slab.State Slab.Ops Slab.Invariant Slab.Queues
open Slab.Objects Slab.PageOps Slab.Worlds Slab.Grow
open Slab.Alloc Slab.Free Slab.Create Slab.Idle Function

variable {s : Kernel} {W : World} {B : Queue → List ℕ} {R : ℕ → Prop} {held : List Held} {c : ℕ}

/-! ### Parameters of the caches -/

theorem sane_iff (kc : KmemCache) : Sane kc ↔ 4 ≤ kc.objsize ∧ 0 < kc.num ∧
    kc.gfporder < buddyGroups ∧
    lastOffset kc + headerSize kc + kc.num * kc.objsize ≤ pageSize * 2 ^ kc.gfporder ∧
    (offSlab kc = false → sizeofSlab ≤ kc.slabSize) ∧ (offSlab kc = true → lastOffset kc < pageSize) ∧
    kc.ctor = 0 ∧ kc.dtor = 0 :=
  ⟨fun ⟨h1, h2, h3, h4, h5, h6, h7, h8⟩ => ⟨h1, h2, h3, h4, h5, h6, h7, h8⟩,
    fun ⟨h1, h2, h3, h4, h5, h6, h7, h8⟩ => ⟨h1, h2, h3, h4, h5, h6, h7, h8⟩⟩

instance (kc : KmemCache) : Decidable (Sane kc) := decidable_of_iff' _ (sane_iff kc)

/-- A descriptor whose fields all read as zero. -/
def zeroDesc : KmemCache := ⟨0, 0, 0, 0, 0, 0, 0, 0, 0, 0, 0, 0, 0⟩

/-- The flags of the caches of `malloc_sizes`. -/
def sizeFlags : ℕ := cflgsOffSlab ||| slabHwcacheAlign

/-- The descriptor of the cache for objects of `size` bytes. -/
def sizeDesc (size slabpCache : ℕ) : KmemCache :=
  cacheDesc zeroDesc (roundToWords size) kmallocMinalign sizeFlags 0 slabpCache

/-- The descriptor of the cache of slab descriptors. -/
def slabCacheDesc : KmemCache :=
  cacheDesc zeroDesc (roundToWords sizeofSlab) kmallocMinalign slabHwcacheAlign 0 0

theorem sane_cacheCacheDesc : Sane (cacheCacheDesc sizeofKmemCache 0 0) := by decide +kernel

theorem sane_slabCacheDesc : Sane slabCacheDesc := by decide +kernel

theorem sane_sizeDesc_zero : ∀ size ∈ csSizes, Sane (sizeDesc size 0) ∧
    (sizeDesc size 0).objsize = size ∧ (sizeDesc size 0).colourNext = 0 := by decide +kernel

variable {size : ℕ} {L : ℕ → List ℕ}

/-- The caches of `malloc_sizes` fit, for objects of just the size of their class. -/
theorem sane_sizeDesc (h : size ∈ csSizes) (slabpCache : ℕ) :
    Sane (sizeDesc size slabpCache) ∧ (sizeDesc size slabpCache).objsize = size := by
  obtain ⟨⟨h1, h2, h3, h4, h5, h6, h7, h8⟩, hsize, -⟩ := sane_sizeDesc_zero size h
  exact ⟨⟨h1, h2, h3, h4, h5, h6, h7, h8⟩, hsize⟩

theorem admissible_sizeDesc (h : size ∈ csSizes) (hsc : W.slabCache ∈ W.caches) :
    Admissible W.toLayout (sizeDesc size W.slabCache) where
  sane := (sane_sizeDesc h _).1
  desc _ := hsc
  slabp := rfl
  colour := Nat.zero_le _
  freeObjects := rfl

/-! ### `cache_cache` -/

/-- The caches before the first one is created: `cache_cache` alone. -/
def rootWorld (cacheCache present : ℕ) (pool : ℕ → Prop) : World where
  cacheCache := cacheCache
  csCachep := fun _ => 0
  present := present
  pool := pool
  caches := [cacheCache]
  kc := fun _ => cacheCacheDesc sizeofKmemCache 0 0
  slabCache := 0
  slabs := fun _ => []
  page := fun _ => 0
  colouroff := fun _ => 0
  free := fun _ => []
  colourNext := fun _ => 0

/-- The lists before the first cache is created. -/
def rootLists (cacheCache : ℕ) : Queue → List ℕ
  | .chain => [cacheCache]
  | .list _ _ => []

/-- The state that `kmem_cache_init` has made when it creates the first cache. -/
def rootState (s : Kernel) : Kernel :=
  let s := initListHead s Link.chain
  let s := initListHead s (Link.next s.cacheCache)
  let s := listAdd s Link.chain (Link.next s.cacheCache)
  let s := kmemList3Init s s.cacheCache
  store s s.cacheCache (.cache (cacheCacheDesc sizeofKmemCache 0 0))

theorem not_isSlab_rootWorld (cc n : ℕ) (pool : ℕ → Prop) {c d : ℕ} :
    ¬ (rootWorld cc n pool).IsSlab c d :=
  fun h => absurd h.2 List.not_mem_nil

theorem geometry_rootWorld {cc n : ℕ} {pool : ℕ → Prop} (hpos : 0 < cc)
    (hle : cc + sizeofKmemCache ≤ pageOffset) : Geometry (rootWorld cc n pool).toLayout where
  root := List.mem_cons_self
  root_pos := hpos
  root_le := hle
  root_on := by
    change offSlab (cacheCacheDesc sizeofKmemCache 0 0) = false
    decide +kernel
  root_objsize := by
    change sizeofKmemCache ≤ (cacheCacheDesc sizeofKmemCache 0 0).objsize
    decide +kernel
  root_slabp := rfl
  sane _ _ := sane_cacheCacheDesc
  fits _ _ h := absurd h (not_isSlab_rootWorld cc n pool)
  cache c hc hne := absurd (List.mem_singleton.mp hc) hne
  desc _ _ h := absurd h (not_isSlab_rootWorld cc n pool)
  slabCache := Or.inl rfl
  slabp c _ hoff := by
    have hon : offSlab (cacheCacheDesc sizeofKmemCache 0 0) = false := by decide +kernel
    exact absurd (hon.symm.trans hoff) (by simp)
  slabp_on h := absurd (List.mem_singleton.mp h).symm hpos.ne'

theorem tidy_rootWorld {cc : ℕ} (n : ℕ) (pool : ℕ → Prop) (hpos : 0 < cc) :
    Tidy (rootWorld cc n pool) where
  regular := ⟨fun _ _ => rfl, fun h => absurd (List.mem_singleton.mp h).symm hpos.ne'⟩
  sparse _ _ _ h _ := absurd h.1 (not_isSlab_rootWorld cc n pool)

theorem rings_rootState (s : Kernel) : Rings (rootState s) (IsQueue [s.cacheCache]) queueHead queueNode
    (rootLists s.cacheCache) := by
  have hchain : Rings (initListHead s Link.chain) (IsQueue []) queueHead queueNode
      (fun _ => ([] : List ℕ)) := by
    refine ⟨fun q hq => ?_, fun q q' hq hq' hne => ?_⟩
    · cases q with
      | chain => exact ring_initListHead s Link.chain
      | list c k => exact absurd hq List.not_mem_nil
    · cases q with
      | chain =>
        cases q' with
        | chain => exact absurd rfl hne
        | list c k => exact absurd hq' List.not_mem_nil
      | list c k => exact absurd hq List.not_mem_nil
  have hadd := rings_chainAdd (c := s.cacheCache) hchain List.not_mem_nil
  have hlists := rings_list3Init (c := s.cacheCache) hadd List.not_mem_nil
  have hB : addLists (update (fun _ => []) .chain [s.cacheCache]) s.cacheCache =
      rootLists s.cacheCache := by
    funext q
    cases q with
    | chain => rfl
    | list c k =>
      by_cases hc : c = s.cacheCache
      · rw [hc, addLists_self]; rfl
      · rw [addLists_of_ne _ k hc, update_of_ne (by simp)]; rfl
  rw [hB] at hlists
  exact hlists.transport fun _ _ _ _ => ⟨rfl, rfl⟩

theorem rootState_eq (s : Kernel) : ∃ links, rootState s = { s with
    links := links
    mem := update s.mem s.cacheCache (.cache (cacheCacheDesc sizeofKmemCache 0 0)) } :=
  ⟨_, rfl⟩

theorem zone_rootState (s : Kernel) : (rootState s).zone = s.zone := by
  obtain ⟨links, h⟩ := rootState_eq s
  rw [h]

/-- **`cache_cache` is a cache without slabs.** -/
theorem good_rootState (hr : Represents s.zone L)
    (hn : s.zone.presentPages ≤ 2 ^ 18) (hcs : s.csCachep = fun _ => 0) :
    Good (rootState s) (rootWorld s.cacheCache s.zone.presentPages (PageFree s.zone))
      (rootLists s.cacheCache) (fun _ => False) [] := by
  have hno : ∀ {c d},
      ¬ (rootWorld s.cacheCache s.zone.presentPages (PageFree s.zone)).IsSlab c d :=
    not_isSlab_rootWorld _ _ _
  have hrings := rings_rootState s
  refine ⟨geometry_rootWorld s.cacheCache_pos s.cacheCache_le, ?_, ?_, ?_, ?_⟩
  · refine ⟨rfl, hn, ⟨L, hr, ?_, fun x => ?_⟩, fun _ _ h => absurd h hno, fun _ _ h => absurd h hno,
      fun _ _ h => absurd h hno, fun _ h => h.elim⟩
    · rintro x (h | ⟨c, d, h, -⟩)
      · exact h.elim
      · exact absurd h hno
    · change PageFree s.zone x ↔ _
      rw [hr.pageFree_iff x]
      refine ⟨Or.inl, ?_⟩
      rintro (h | h | ⟨c, d, h, -⟩)
      · exact h
      · exact h.elim
      · exact absurd h hno
  · refine ⟨rfl, hcs, fun c hc => ?_, fun _ _ h => absurd h hno, fun _ _ h => absurd h hno,
      fun _ _ h => absurd h hno, fun _ _ h => absurd h hno, fun _ _ => Nat.zero_le _⟩
    rw [List.mem_singleton.mp hc]
    exact update_self _ _ _
  · refine ⟨hrings, fun c => Iff.rfl, fun _ _ => List.nodup_nil, fun c hc d => ?_⟩
    simp [rootWorld, rootLists]
  · exact ⟨by simp, by simp, by simp, by simp⟩

theorem sorted_rootWorld (cc n : ℕ) (pool : ℕ → Prop) :
    Sorted (rootWorld cc n pool) (rootLists cc) :=
  fun _ _ _ _ hd => absurd hd List.not_mem_nil

/-! ### The cache of slab descriptors -/

theorem kc_setSlabCache (W : World) (c c' : ℕ) :
    ∃ n, (W.setSlabCache c).kc c' = { W.kc c' with slabpCache := n } := by
  by_cases h : c' = W.cacheCache
  · exact ⟨c, by rw [h]; exact update_self _ _ _⟩
  · exact ⟨(W.kc c').slabpCache, update_of_ne h _ _⟩

theorem object_setSlabCache {c' d x : ℕ} : (W.setSlabCache c).Object c' d x ↔ W.Object c' d x := by
  obtain ⟨n, hn⟩ := kc_setSlabCache W c c'
  unfold Layout.Object
  rw [hn]
  rfl

theorem placed_setSlabCache {c' x : ℕ} (h : W.Placed c' x) : (W.setSlabCache c).Placed c' x := by
  obtain ⟨d, hd, hx⟩ := h
  exact ⟨d, hd, object_setSlabCache.mpr hx⟩

theorem offSlab_setSlabCache (hon : ∀ c' ∈ W.caches, offSlab (W.kc c') = false) {c' : ℕ}
    (hc' : c' ∈ W.caches) : offSlab ((W.setSlabCache c).kc c') = false := by
  obtain ⟨n, hn⟩ := kc_setSlabCache W c c'
  rw [hn]
  exact hon c' hc'

theorem geometry_setSlabCache (g : Geometry W.toLayout) (hc : c ∈ W.caches)
    (hon : ∀ c' ∈ W.caches, offSlab (W.kc c') = false) (hsize : sizeofSlab ≤ (W.kc c).objsize) :
    Geometry (W.setSlabCache c).toLayout := by
  have hself : (W.setSlabCache c).kc W.cacheCache =
      { W.kc W.cacheCache with slabpCache := c } := update_self _ _ _
  refine ⟨g.root, g.root_pos, g.root_le, offSlab_setSlabCache hon g.root, ?_, ?_,
    fun c' hc' => ?_, fun c' d' hd' => ?_, fun c' hc' hne => placed_setSlabCache (g.cache c' hc' hne),
    fun c' d' hd' hoff => ?_, Or.inr hc, fun c' hc' hoff => ?_,
    fun _ => ⟨offSlab_setSlabCache hon hc, ?_⟩⟩
  · change sizeofKmemCache ≤ ((W.setSlabCache c).kc W.cacheCache).objsize
    rw [hself]
    exact g.root_objsize
  · exact congrArg KmemCache.slabpCache hself
  · obtain ⟨n, hn⟩ := kc_setSlabCache W c c'
    obtain ⟨h1, h2, h3, h4, h5, h6, h7, h8⟩ := g.sane c' hc'
    rw [hn]
    exact ⟨h1, h2, h3, h4, h5, h6, h7, h8⟩
  · obtain ⟨n, hn⟩ := kc_setSlabCache W c c'
    obtain ⟨h1, h2, h3, h4⟩ := g.fits c' d' hd'
    rw [hn]
    exact ⟨h1, h2, h3, h4⟩
  · exact absurd ((offSlab_setSlabCache hon hd'.1).symm.trans hoff) (by simp)
  · exact absurd ((offSlab_setSlabCache hon hc').symm.trans hoff) (by simp)
  · obtain ⟨n, hn⟩ := kc_setSlabCache W c c
    change sizeofSlab ≤ ((W.setSlabCache c).kc c).objsize
    rw [hn]
    exact hsize

theorem pages_setSlabCache (h : Pages s W.toLayout R) : Pages s (W.setSlabCache c).toLayout R := by
  have hord : ∀ c', ((W.setSlabCache c).kc c').gfporder = (W.kc c').gfporder := by
    intro c'
    obtain ⟨n, hn⟩ := kc_setSlabCache W c c'
    rw [hn]
  have hin : ∀ c' d' x, (W.setSlabCache c).InSlab c' d' x ↔ W.InSlab c' d' x := by
    intro c' d' x
    unfold Layout.InSlab
    rw [hord]
    rfl
  have hown : ∀ x, (W.setSlabCache c).Owned x ↔ W.Owned x := fun x =>
    ⟨fun ⟨c', d', hd', hx⟩ => ⟨c', d', hd', (hin c' d' x).mp hx⟩,
      fun ⟨c', d', hd', hx⟩ => ⟨c', d', hd', (hin c' d' x).mpr hx⟩⟩
  obtain ⟨L, hrep, hL, hpool⟩ := h.rep
  refine ⟨h.present, h.present_le, ⟨L, hrep, ?_, fun x => ?_⟩, fun c' d' hd' => ?_,
    fun c' d' hd' => ?_, fun c' d' hd' x hx => h.back c' d' hd' x ((hin c' d' x).mp hx),
    fun x hR hO => h.reserved x hR ((hown x).mp hO)⟩
  · rintro x (hR | hO)
    · exact hL x (Or.inl hR)
    · exact hL x (Or.inr ((hown x).mp hO))
  · change W.pool x ↔ _
    rw [hpool x, hown x]
  · rw [hord]
    exact h.aligned c' d' hd'
  · rw [hord]
    exact h.bound c' d' hd'

theorem cells_setSlabCache (g : Good s W B R held) :
    Cells (store s W.cacheCache (.cache { W.desc W.cacheCache with slabpCache := c }))
      (W.setSlabCache c) := by
  have hother : ∀ a, a ≠ W.cacheCache →
      (store s W.cacheCache (.cache { W.desc W.cacheCache with slabpCache := c })).mem a = s.mem a :=
    fun a ha => update_of_ne ha _ _
  have hfree : ∀ c' d', W.IsSlab c' d' → ∀ x ∈ W.free d',
      (store s W.cacheCache (.cache { W.desc W.cacheCache with slabpCache := c })).mem x = s.mem x :=
    fun c' d' hd' x hx => hother x (g.free_ne_cache hd' hx g.geometry.root)
  refine ⟨g.cells.root, g.cells.csCachep, fun c' hc' => ?_, fun c' d' hd' => ?_,
    fun c' d' hd' => ?_, fun c' d' hd' x hx => ?_, fun c' d' hd' x hx => ?_, fun c' hc' => ?_⟩
  · by_cases hcc : c' = W.cacheCache
    · have hkc : (W.setSlabCache c).kc W.cacheCache =
          { W.kc W.cacheCache with slabpCache := c } := update_self _ _ _
      rw [hcc, store_mem, update_self]
      unfold World.desc
      rw [hkc]
      rfl
    · have hkc : (W.setSlabCache c).kc c' = W.kc c' := update_of_ne hcc _ _
      rw [hother c' hcc, g.cells.cache c' hc']
      unfold World.desc
      rw [hkc]
      rfl
  · obtain ⟨n, hn⟩ := kc_setSlabCache W c c'
    rw [hother d' (g.cache_ne_slab g.geometry.root hd').symm, g.cells.slab c' d' hd']
    unfold World.slabDesc
    rw [hn]
    rfl
  · refine (g.cells.chain c' d' hd').congr fun x hx => ?_
    unfold word
    rw [hfree c' d' hd' x hx]
  · rw [hfree c' d' hd' x hx]
    exact g.cells.bytes c' d' hd' x hx
  · exact object_setSlabCache.mpr (g.cells.object c' d' hd' x hx)
  · obtain ⟨n, hn⟩ := kc_setSlabCache W c c'
    rw [hn]
    exact g.cells.colour c' hc'

theorem holding_setSlabCache (h : Holding W held) : Holding (W.setSlabCache c) held := by
  refine ⟨h.slab, fun x hx => object_setSlabCache.mpr (h.object x hx), fun x hx => ?_, h.nodup⟩
  obtain ⟨h1, h2, h3⟩ := h.unused x hx
  exact ⟨h1, h2, h3⟩

theorem good_setSlabCache (g : Good s W B R held) (hc : c ∈ W.caches)
    (hon : ∀ c' ∈ W.caches, offSlab (W.kc c') = false) (hsize : sizeofSlab ≤ (W.kc c).objsize) :
    Good (store s W.cacheCache (.cache { W.desc W.cacheCache with slabpCache := c }))
      (W.setSlabCache c) B R held where
  geometry := geometry_setSlabCache g.geometry hc hon hsize
  pages := pages_congr (pages_setSlabCache g.pages) rfl
  cells := cells_setSlabCache g
  lists := lists_congr ⟨g.lists.rings, g.lists.chain, g.lists.nodup, g.lists.mem⟩ rfl
  holding := holding_setSlabCache g.holding

theorem sorted_setSlabCache (h : Sorted W B) : Sorted (W.setSlabCache c) B := by
  intro c' hc' k d hd
  obtain ⟨n, hn⟩ := kc_setSlabCache W c c'
  have := h c' hc' k d hd
  unfold World.Sorts at this ⊢
  rw [hn]
  exact this

theorem tidy_setSlabCache (h : Tidy W) (horder : (W.kc c).gfporder = 0) :
    Tidy (W.setSlabCache c) := by
  have hidle : ∀ c' d, (W.setSlabCache c).Idle c' d → W.Idle c' d := by
    intro c' d hd
    obtain ⟨n, hn⟩ := kc_setSlabCache W c c'
    have hlen := hd.2
    rw [hn] at hlen
    exact ⟨hd.1, hlen⟩
  refine ⟨⟨fun c' hc' => ?_, fun _ => ?_⟩,
    fun c' d d' hd hd' => h.sparse c' d d' (hidle c' d hd) (hidle c' d' hd')⟩
  · obtain ⟨n, hn⟩ := kc_setSlabCache W c c'
    rw [hn]
    exact h.regular.limit c' hc'
  · obtain ⟨n, hn⟩ := kc_setSlabCache W c c
    exact (congrArg KmemCache.gfporder hn).trans horder

/-! ### The caches of `malloc_sizes` -/

theorem tidy_setCs (h : Tidy W) (f : ℕ → ℕ) : Tidy (W.setCs f) :=
  ⟨⟨h.regular.limit, h.regular.order⟩, h.sparse⟩

theorem good_setCs (g : Good s W B R held) (f : ℕ → ℕ) :
    Good { s with csCachep := f } (W.setCs f) B R held := by
  obtain ⟨⟨a1, a2, a3, a4, a5, a6, a7, a8, a9, a10, a11, a12, a13⟩, ⟨p1, p2, p3, p4, p5, p6, p7⟩,
    ⟨c1, -, c3, c4, c5, c6, c7, c8⟩, ⟨l1, l2, l3, l4⟩, ⟨h1, h2, h3, h4⟩⟩ := g
  exact ⟨⟨a1, a2, a3, a4, a5, a6, a7, a8, a9, a10, a11, a12, a13⟩, ⟨p1, p2, p3, p4, p5, p6, p7⟩,
    ⟨c1, rfl, c3, c4, c5, c6, c7, c8⟩, lists_congr ⟨l1, l2, l3, l4⟩ rfl,
    ⟨h1, h2, fun o ho => ⟨(h3 o ho).cache, (h3 o ho).slab, (h3 o ho).free⟩, h4⟩⟩

/-- Every element of `malloc_sizes` has the cache for its size, or none. -/
def Classes (S : Shape) : Prop :=
  ∀ i, S.csCachep i = 0 ∨
    (S.csCachep i ∈ S.caches ∧ (S.kc (S.csCachep i)).objsize = csSizes.getD i 0)

theorem classes_addCache {S : Shape} {kc : KmemCache} (h : Classes S) (hc : c ∉ S.caches) :
    Classes (S.addCache c kc) := by
  intro i
  refine (h i).imp id fun ⟨hmem, hsize⟩ => ⟨List.mem_cons_of_mem _ hmem, ?_⟩
  rw [← hsize]
  exact congrArg KmemCache.objsize (update_of_ne (ne_of_mem_of_not_mem hmem hc) _ _)

theorem classes_setCs {V : World} {i : ℕ} (h : Classes V.toShape)
    (hc : c = 0 ∨ c ∈ V.caches ∧ (V.kc c).objsize = csSizes.getD i 0) :
    Classes (V.setCs (update V.csCachep i c)).toShape := by
  intro j
  change update V.csCachep i c j = 0 ∨ update V.csCachep i c j ∈ V.caches ∧
    (V.kc (update V.csCachep i c j)).objsize = _
  by_cases hj : j = i
  · rw [hj, update_self]
    exact hc
  · rw [update_of_ne hj]
    exact h j

/-- **The loop of `kmem_cache_init`**, with the sizes from the index `i` on. -/
theorem createSizes_spec : ∀ (sizes : List ℕ) (i : ℕ) (s : Kernel) (W : World) (B : Queue → List ℕ),
    Good s W B R held → Sorted W B → W.slabCache ∈ W.caches → Classes W.toShape → Tidy W →
      csSizes.drop i = sizes →
      ∃ s' W' B', createSizes zeroDesc i sizes s = some s' ∧ Good s' W' B' R held ∧ Sorted W' B' ∧
        W'.pool = W.pool ∧ Classes W'.toShape ∧ Tidy W'
  | [], _, s, W, B, g, hsort, _, hcls, htidy, _ => ⟨s, W, B, rfl, g, hsort, rfl, hcls, htidy⟩
  | size :: sizes, i, s, W, B, g, hsort, hsc, hcls, htidy, hi => by
    have hsize : size ∈ csSizes := List.mem_of_mem_drop (hi ▸ List.mem_cons_self)
    have hget : csSizes.getD i 0 = size := by
      rw [List.getD_eq_getElem?_getD, ← List.head?_drop, hi]
      rfl
    have hdrop : csSizes.drop (i + 1) = sizes := by
      rw [← List.drop_drop, hi]
      rfl
    have hpos : ∀ size ∈ csSizes, roundToWords size ≠ 0 ∧
        alignTo (roundToWords size) kmallocMinalign ≠ 0 := by decide +kernel
    obtain ⟨c, s₁, W₁, B₁, heq, hwithin, hsort₁, g₁, hres⟩ := kmemCacheCreate_spec zeroDesc
      size kmallocMinalign sizeFlags 0 g hsort
      (fun h => (hpos size hsize).1 h.2) (hpos size hsize).2
      (fun _ => admissible_sizeDesc hsize hsc)
    rw [createSizes, show cflgsOffSlab ||| slabHwcacheAlign = sizeFlags from rfl, heq]
    simp only [Option.bind_eq_bind, Option.bind_some]
    have g₂ := good_setCs g₁ (update s₁.csCachep i c)
    have hcs := g₁.cells.csCachep
    rcases hres with ⟨rfl, hshape, -⟩ | ⟨hc0, hcn, hshape⟩
    · have hpool : W₁.pool = W.pool := congrArg Shape.pool hshape
      refine ⟨_, W₁.setCs (update s₁.csCachep i 0), B₁, rfl, g₂, hsort₁, hpool, ?_,
        tidy_setCs (htidy.of_shape hshape hwithin g₁) _⟩
      rw [← hshape] at hcls
      rw [hcs]
      exact classes_setCs hcls (Or.inl rfl)
    · have hpool₁ : W₁.pool = W.pool := (congrArg Shape.pool hshape).trans rfl
      rw [if_neg hc0]
      have hcls₁ : Classes W₁.toShape := by
        rw [hshape]
        exact classes_addCache hcls hcn
      have hkc : W₁.kc c = sizeDesc size W.slabCache := by
        rw [show W₁.kc = _ from congrArg Shape.kc hshape]
        exact update_self _ _ _
      have hcin : c ∈ W₁.caches := by
        rw [show W₁.caches = _ from congrArg Shape.caches hshape]
        exact List.mem_cons_self
      have hsc₁ : W₁.slabCache ∈ W₁.caches := by
        rw [show W₁.caches = _ from congrArg Shape.caches hshape,
          show W₁.slabCache = _ from congrArg Shape.slabCache hshape]
        exact List.mem_cons_of_mem _ hsc
      have hcls₂ : Classes (W₁.setCs (update s₁.csCachep i c)).toShape := by
        rw [hcs]
        refine classes_setCs hcls₁ (Or.inr ⟨hcin, ?_⟩)
        rw [hkc, hget]
        exact (sane_sizeDesc hsize _).2
      have htidy₁ : Tidy W₁ :=
        htidy.of_addCache hshape hcn hc0 g.geometry.slabCache rfl hwithin g₁
      obtain ⟨s', W', B', heq', g', hsort', hpool, hcls', htidy'⟩ := createSizes_spec sizes (i + 1) _
        (W₁.setCs (update s₁.csCachep i c)) B₁ g₂ hsort₁ hsc₁ hcls₂ (tidy_setCs htidy₁ _) hdrop
      exact ⟨s', W', B', heq', g', hsort', hpool.trans hpool₁, hcls', htidy'⟩

/-! ### The function -/

theorem kmemCacheCreate_of_null {found : KmemCache} {s₁ : Kernel} {align flags ctor : ℕ}
    (hsize : ¬ (flags &&& slabHwcacheAlign ≠ 0 ∧ roundToWords size = 0))
    (halloc : kmemCacheAlloc callDepth s s.cacheCache = some (0, s₁)) :
    kmemCacheCreate found s size align flags ctor = some (0, s₁) := by
  unfold kmemCacheCreate
  simp only [if_neg hsize, halloc, Option.bind_eq_bind, Option.bind_some, Option.pure_def, if_true]

theorem initSlab_eq {s₁ s₂ : Kernel} {cc : KmemCache}
    (hcreate : kmemCacheCreate zeroDesc (rootState s) sizeofSlab kmallocMinalign slabHwcacheAlign 0 =
      some (c, s₁)) (hread : readCache s₁ s₁.cacheCache = some cc)
    (hs₂ : store s₁ s₁.cacheCache (.cache { cc with slabpCache := c }) = s₂) :
    initSlab zeroDesc s = createSizes zeroDesc 0 csSizes s₂ := by
  change (kmemCacheCreate zeroDesc (rootState s) sizeofSlab kmallocMinalign slabHwcacheAlign 0).bind _ = _
  rw [hcreate]
  simp only [Option.bind_some, Option.bind_eq_bind, hread, hs₂]

/-- `cache_cache` has no free object, and the zone has no page for it. -/
structure Barren (s : Kernel) (W : World) (B : Queue → List ℕ) : Prop where
  good : Good s W B (fun _ => False) []
  sorted : Sorted W B
  noPartial : B (.list W.cacheCache .slabsPartial) = []
  noFree : B (.list W.cacheCache .slabsFree) = []
  noPage : allocateBlock s.zone (W.kc W.cacheCache).gfporder = (none, s.zone)

theorem Barren.create (h : Barren s W B) (found : KmemCache) (size align flags ctor : ℕ)
    (hsize : ¬ (flags &&& slabHwcacheAlign ≠ 0 ∧ roundToWords size = 0)) :
    ∃ s' W', kmemCacheCreate found s size align flags ctor = some (0, s') ∧ Barren s' W' B ∧
      W'.toShape = W.toShape ∧ NoNewIdle W W' := by
  have g := h.good
  have hroot := g.cells.root
  obtain ⟨n, g'⟩ := good_advanceColour g g.geometry.root
  have halloc := kmemCacheAlloc_of_none g g.geometry.root h.noPartial h.noFree h.noPage 1
  exact ⟨_, W.setColour W.cacheCache n,
    kmemCacheCreate_of_null hsize (by rw [hroot]; exact halloc),
    ⟨g', h.sorted, h.noPartial, h.noFree, h.noPage⟩, rfl, fun _ _ h' => h'⟩

theorem store_self (s : Kernel) (a : ℕ) : store s a (s.mem a) = s := by
  unfold store
  rw [update_eq_self]

theorem initSlab_of_none (hr : Represents s.zone L)
    (hn : s.zone.presentPages ≤ 2 ^ 18) (hcs : s.csCachep = fun _ => 0)
    (hnone : allocateBlock s.zone (cacheCacheDesc sizeofKmemCache 0 0).gfporder = (none, s.zone)) :
    ∃ s' W B, initSlab zeroDesc s = some s' ∧ Good s' W B (fun _ => False) [] ∧ Sorted W B ∧
      W.pool = PageFree s.zone ∧ Classes W.toShape ∧ Tidy W := by
  have h₀ : Barren (rootState s)
      (rootWorld s.cacheCache s.zone.presentPages (PageFree s.zone)) (rootLists s.cacheCache) :=
    ⟨good_rootState hr hn hcs, sorted_rootWorld _ _ _, rfl, rfl, by rwa [zone_rootState]⟩
  obtain ⟨s₁, W₁, hcreate, h₁, hshape₁, hidle₁⟩ := h₀.create zeroDesc sizeofSlab
    kmallocMinalign slabHwcacheAlign 0 (by decide)
  have hread : readCache s₁ s₁.cacheCache = some (W₁.desc W₁.cacheCache) := by
    rw [h₁.good.cells.root]
    exact h₁.good.readCache h₁.good.geometry.root
  -- the field `slabp_cache` is NULL, and stays so
  have hslabp : ({ W₁.desc W₁.cacheCache with slabpCache := 0 } : KmemCache) =
      W₁.desc W₁.cacheCache := by
    have h0 : (W₁.desc W₁.cacheCache).slabpCache = 0 :=
      h₁.good.geometry.root_slabp.trans (congrArg Shape.slabCache hshape₁)
    rw [← h0]
  have hstore : store s₁ s₁.cacheCache
      (.cache { W₁.desc W₁.cacheCache with slabpCache := 0 }) = s₁ := by
    rw [hslabp, h₁.good.cells.root, ← h₁.good.cells.cache _ h₁.good.geometry.root]
    exact store_self s₁ _
  obtain ⟨s₂, W₂, hcreate₂, h₂, hshape₂, hidle₂⟩ := h₁.create zeroDesc 32
    kmallocMinalign (cflgsOffSlab ||| slabHwcacheAlign) 0 (by decide)
  refine ⟨_, W₂.setCs (update s₂.csCachep 0 0), rootLists s.cacheCache, ?_,
    good_setCs h₂.good _, h₂.sorted, congrArg Shape.pool (hshape₂.trans hshape₁),
    fun i => Or.inl ?_, tidy_setCs ?_ _⟩
  · rw [initSlab_eq hcreate hread hstore, csSizes, createSizes, hcreate₂]
    rfl
  · have hcs₂ : s₂.csCachep = fun _ => 0 :=
      h₂.good.cells.csCachep.trans (congrArg Shape.csCachep (hshape₂.trans hshape₁))
    change update s₂.csCachep 0 0 i = 0
    rw [hcs₂]
    by_cases hi : i = 0
    · rw [hi, update_self]
    · rw [update_of_ne hi]
  · have htidy₁ := (tidy_rootWorld s.zone.presentPages (PageFree s.zone) s.cacheCache_pos).of_shape
      hshape₁ (within_of_noNewIdle hidle₁) h₁.good
    exact htidy₁.of_shape hshape₂ (within_of_noNewIdle hidle₂) h₂.good

/-- **`init_slab`** returns, over every zone of pages that the kernel maps. -/
theorem initSlab_spec (hr : Represents s.zone L)
    (hn : s.zone.presentPages ≤ 2 ^ 18) (hcs : s.csCachep = fun _ => 0) :
    ∃ s' W B, initSlab zeroDesc s = some s' ∧ Good s' W B (fun _ => False) [] ∧ Sorted W B ∧
      W.pool = PageFree s.zone ∧ Classes W.toShape ∧ Tidy W := by
  by_cases hnone : allocateBlock s.zone (cacheCacheDesc sizeofKmemCache 0 0).gfporder =
      (none, s.zone)
  · exact initSlab_of_none hr hn hcs hnone
  have g₀ := good_rootState hr hn hcs
  have hadm : Admissible
      (rootWorld s.cacheCache s.zone.presentPages (PageFree s.zone)).toLayout slabCacheDesc :=
    ⟨sane_slabCacheDesc, fun h => absurd h (by decide +kernel), rfl, by decide +kernel,
      by decide +kernel⟩
  obtain ⟨c, s₁, W₁, B₁, hcreate, hwithin, hsort₁, g₁, hres⟩ := kmemCacheCreate_spec zeroDesc
    sizeofSlab kmallocMinalign slabHwcacheAlign 0 g₀
    (sorted_rootWorld _ _ _) (by decide) (by decide +kernel) (fun _ => hadm)
  rcases hres with ⟨-, -, hnum | hnone'⟩ | ⟨hc0, hcn, hshape⟩
  · change slabCacheDesc.num = 0 at hnum
    exact absurd hnum (by decide +kernel)
  · exact absurd hnone' hnone
  have hcaches : W₁.caches = [c, s.cacheCache] := congrArg Shape.caches hshape
  have hkc : W₁.kc = update (fun _ => cacheCacheDesc sizeofKmemCache 0 0) c slabCacheDesc :=
    congrArg Shape.kc hshape
  have hcin : c ∈ W₁.caches := by
    rw [hcaches]
    exact List.mem_cons_self
  have hkcc : W₁.kc c = slabCacheDesc := by
    rw [hkc, update_self]
  have hon : ∀ c' ∈ W₁.caches, offSlab (W₁.kc c') = false := by
    intro c' _
    rw [hkc]
    by_cases h : c' = c
    · rw [h, update_self]
      decide +kernel
    · rw [update_of_ne h]
      decide +kernel
  have g₂ := good_setSlabCache g₁ hcin hon (by rw [hkcc]; decide +kernel)
  have hread : readCache s₁ s₁.cacheCache = some (W₁.desc W₁.cacheCache) := by
    rw [g₁.cells.root]
    exact g₁.readCache g₁.geometry.root
  have hcls : Classes (W₁.setSlabCache c).toShape := fun i =>
    Or.inl (congrFun (congrArg Shape.csCachep hshape) i)
  have htidy₁ : Tidy W₁ :=
    (tidy_rootWorld s.zone.presentPages (PageFree s.zone) s.cacheCache_pos).of_addCache hshape hcn hc0
      (Or.inl rfl) rfl hwithin g₁
  obtain ⟨s', W', B', heq, g', hsort', hpool, hcls', htidy'⟩ := createSizes_spec csSizes 0 _
    (W₁.setSlabCache c) B₁ g₂ (sorted_setSlabCache hsort₁) hcin hcls
    (tidy_setSlabCache htidy₁ (by rw [hkcc]; decide +kernel)) rfl
  refine ⟨s', W', B', ?_, g', hsort', hpool.trans (congrArg Shape.pool hshape), hcls', htidy'⟩
  rw [initSlab_eq hcreate hread (by rw [g₁.cells.root])]
  exact heq

end YegaKernel.Slab.Init
