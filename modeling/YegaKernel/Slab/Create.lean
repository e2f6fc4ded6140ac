import YegaKernel.Slab.Free

/-! # `kmem_cache_create`

A new cache has its descriptor from `cache_cache`, starts without slabs and is linked into
`cache_chain`. -/

namespace YegaKernel.Slab.Create

open Lib.Links Lib.Families Lib.Word
open Buddy.State (Node pageSize)
open Buddy.Ops (allocateBlock)
open Slab.State Slab.Ops Slab.Invariant Slab.Queues
open Slab.Objects Slab.PageOps Slab.Worlds Slab.Grow
open Slab.Alloc Slab.Free Function

variable {s : Kernel} {W : World} {B : Queue → List ℕ} {R : ℕ → Prop} {held : List Held}
variable {c e : ℕ} {kc : KmemCache} {caches : List ℕ}

/-! ### The lists of a new cache -/

theorem listHead_apart {I : Queue → Prop} {k : Kind} (hI : ¬ I (.list c k)) :
    ∀ q, I q → ∀ n ∈ queueHead q :: (B q).map (queueNode q), Link.list c k ≠ n := by
  rintro (_ | ⟨c', k'⟩) hq n hn rfl
  · simp [queueHead, queueNode] at hn
  · simp only [queueHead, queueNode, List.mem_cons, List.mem_map, reduceCtorEq, and_false,
      exists_false, or_false] at hn
    rw [Link.list.injEq] at hn
    exact hI (by rw [hn.1, hn.2]; exact hq)

theorem rings_insert {I : Queue → Prop} {k : Kind} (h : Rings s I queueHead queueNode B)
    (hI : ¬ I (.list c k)) :
    Rings (initListHead s (Link.list c k)) (fun q => q = .list c k ∨ I q) queueHead queueNode
      (update B (.list c k) []) := by
  have hap := listHead_apart (B := B) hI
  have hkept : Rings (initListHead s (Link.list c k)) I queueHead queueNode B :=
    h.transport fun q hq n hn => sameLinks_initListHead s (hap q hq n hn)
  have hring : Ring (initListHead s (Link.list c k)) (queueHead (.list c k)) [] :=
    ring_initListHead s (Link.list c k)
  exact hkept.insert hring hap

/-- The three lists of a new cache. -/
def addLists (B : Queue → List ℕ) (c : ℕ) : Queue → List ℕ :=
  update (update (update B (.list c .slabsFull) []) (.list c .slabsPartial)
    []) (.list c .slabsFree) []

theorem addLists_self (B : Queue → List ℕ) (c : ℕ) (k : Kind) : addLists B c (.list c k) = [] := by
  cases k <;> simp [addLists, update]

theorem addLists_of_ne (B : Queue → List ℕ) {c c' : ℕ} (k : Kind) (h : c' ≠ c) :
    addLists B c (.list c' k) = B (.list c' k) := by
  simp [addLists, update, h]

theorem addLists_chain (B : Queue → List ℕ) (c : ℕ) : addLists B c .chain = B .chain := by
  simp [addLists, update]

/-- **`kmem_list3_init`** of a new cache. -/
theorem rings_list3Init (h : Rings s (IsQueue caches) queueHead queueNode B) (hc : c ∉ caches) :
    Rings (kmemList3Init s c) (IsQueue (c :: caches)) queueHead queueNode (addLists B c) := by
  have h1 := rings_insert (c := c) (k := .slabsFull) h hc
  have h2 := rings_insert (c := c) (k := .slabsPartial) h1
    (by rintro (hq | hq); exacts [absurd hq (by simp), hc hq])
  have h3 := rings_insert (c := c) (k := .slabsFree) h2
    (by rintro (hq | hq | hq); exacts [absurd hq (by simp), absurd hq (by simp), hc hq])
  refine h3.congr fun q hq => ⟨?_, rfl⟩
  cases q with
  | chain => exact Or.inr (Or.inr (Or.inr trivial))
  | list c' k =>
    rcases List.mem_cons.mp hq with rfl | hq
    · cases k <;> simp
    · exact Or.inr (Or.inr (Or.inr hq))

theorem rings_chainAdd (h : Rings s (IsQueue caches) queueHead queueNode B) (hc : c ∉ B .chain) :
    Rings (listAdd (initListHead s (Link.next c)) Link.chain (Link.next c)) (IsQueue caches) queueHead
      queueNode (update B .chain (c :: B .chain)) := by
  have hap : ∀ q, IsQueue caches q → ∀ n ∈ queueHead q :: (B q).map (queueNode q),
      Link.next c ≠ n := by
    rintro (_ | ⟨c', k'⟩) hq n hn rfl
    · simp only [queueHead, queueNode, List.mem_cons, List.mem_map, reduceCtorEq, false_or,
        Link.next.injEq, exists_eq_right] at hn
      exact hc hn
    · simp [queueHead, queueNode] at hn
  have hkept : Rings (initListHead s (Link.next c)) (IsQueue caches) queueHead queueNode B :=
    h.transport fun q hq n hn => sameLinks_initListHead s (hap q hq n hn)
  have hq : IsQueue caches .chain := trivial
  exact hkept.listAdd hq hap

/-! ### The world with a new cache -/

section AddCache
variable (hc : c ∉ W.caches)
include hc

variable {c' d' x : ℕ}

theorem kc_addCache (hc' : c' ∈ W.caches) : (W.addCache c kc).kc c' = W.kc c' :=
  update_of_ne (ne_of_mem_of_not_mem hc' hc) _ _

theorem slabs_addCache (hc' : c' ∈ W.caches) : (W.addCache c kc).slabs c' = W.slabs c' :=
  update_of_ne (ne_of_mem_of_not_mem hc' hc) _ _

theorem isSlab_addCache : (W.addCache c kc).IsSlab c' d' ↔ W.IsSlab c' d' := by
  have hself : (W.addCache c kc).slabs c = [] := update_self _ _ _
  have hslabs : c' ∈ W.caches → (W.addCache c kc).slabs c' = W.slabs c' := slabs_addCache hc
  constructor
  · rintro ⟨hc', hd'⟩
    rcases List.mem_cons.mp hc' with rfl | hc'
    · rw [hself] at hd'
      exact absurd hd' List.not_mem_nil
    · exact ⟨hc', hslabs hc' ▸ hd'⟩
  · rintro ⟨hc', hd'⟩
    exact ⟨List.mem_cons_of_mem _ hc', (hslabs hc').symm ▸ hd'⟩

theorem object_addCache (hc' : c' ∈ W.caches) :
    (W.addCache c kc).Object c' d' x ↔ W.Object c' d' x := by
  unfold Layout.Object
  rw [kc_addCache hc hc']
  rfl

theorem inSlab_addCache (hc' : c' ∈ W.caches) :
    (W.addCache c kc).InSlab c' d' x ↔ W.InSlab c' d' x := by
  unfold Layout.InSlab
  rw [kc_addCache hc hc']
  rfl

theorem owned_addCache : (W.addCache c kc).Owned x ↔ W.Owned x := by
  constructor
  · rintro ⟨c', d', hd', hx⟩
    have hold := (isSlab_addCache hc).mp hd'
    exact ⟨c', d', hold, (inSlab_addCache hc hold.1).mp hx⟩
  · rintro ⟨c', d', hd', hx⟩
    exact ⟨c', d', (isSlab_addCache hc).mpr hd', (inSlab_addCache hc hd'.1).mpr hx⟩

theorem placed_addCache (h : W.Placed c' x) : (W.addCache c kc).Placed c' x := by
  obtain ⟨d', hd', hx⟩ := h
  exact ⟨d', (isSlab_addCache hc).mpr hd', (object_addCache hc hd'.1).mpr hx⟩

theorem freeCount_addCache (hc' : c' ∈ W.caches) :
    (W.addCache c kc).freeCount c' = W.freeCount c' := by
  unfold World.freeCount
  rw [slabs_addCache hc hc']
  rfl

theorem desc_addCache (hc' : c' ∈ W.caches) : (W.addCache c kc).desc c' = W.desc c' := by
  have hcol : (W.addCache c kc).colourNext c' = W.colourNext c' :=
    update_of_ne (ne_of_mem_of_not_mem hc' hc) _ _
  unfold World.desc
  rw [freeCount_addCache hc hc', kc_addCache hc hc', hcol]

end AddCache

theorem desc_addCache_self (h0 : kc.freeObjects = 0) : (W.addCache c kc).desc c = kc := by
  have hself : (W.addCache c kc).kc c = kc := update_self _ _ _
  have hslabs : (W.addCache c kc).slabs c = [] := update_self _ _ _
  have hcol : (W.addCache c kc).colourNext c = kc.colourNext := update_self _ _ _
  unfold World.desc World.freeCount
  rw [hself, hslabs, hcol]
  simp only [List.map_nil, List.sum_nil]
  rw [show u32 0 = kc.freeObjects from h0.symm]

/-- The parameters of a new cache: its slabs fit, their descriptors have a cache, and the colour for
the first slab is one of the colours. -/
structure Admissible (W : Layout) (kc : KmemCache) : Prop where
  sane : Sane kc
  desc : offSlab kc = true → W.slabCache ∈ W.caches
  slabp : kc.slabpCache = W.slabCache
  colour : kc.colourNext ≤ kc.colour - 1
  freeObjects : kc.freeObjects = 0

theorem geometry_addCache (hg : Geometry W.toLayout) (hc : c ∉ W.caches) (hc0 : c ≠ 0)
    (hkc : Admissible W.toLayout kc) (hplace : W.Placed W.cacheCache c) :
    Geometry (W.addCache c kc).toLayout where
  root := List.mem_cons_of_mem _ hg.root
  root_pos := hg.root_pos
  root_le := hg.root_le
  root_on := (congrArg offSlab (kc_addCache hc hg.root)).trans hg.root_on
  root_objsize := hg.root_objsize.trans_eq (congrArg KmemCache.objsize (kc_addCache hc hg.root).symm)
  root_slabp := (congrArg KmemCache.slabpCache (kc_addCache hc hg.root)).trans hg.root_slabp
  sane c' hc' := by
    rcases List.mem_cons.mp hc' with rfl | hc'
    · rw [show (W.addCache c' kc).kc c' = kc from update_self _ _ _]
      exact hkc.sane
    · rw [kc_addCache hc hc']
      exact hg.sane c' hc'
  fits c' d' hd' := by
    have hold := (isSlab_addCache hc).mp hd'
    rw [kc_addCache hc hold.1]
    exact hg.fits c' d' hold
  cache c' hc' hne := by
    refine placed_addCache hc ?_
    rcases List.mem_cons.mp hc' with rfl | hc'
    · exact hplace
    · exact hg.cache c' hc' hne
  desc c' d' hd' hoff := by
    have hold := (isSlab_addCache hc).mp hd'
    rw [kc_addCache hc hold.1] at hoff
    exact placed_addCache hc (hg.desc c' d' hold hoff)
  slabCache := hg.slabCache.imp id (List.mem_cons_of_mem _)
  slabp c' hc' hoff := by
    rcases List.mem_cons.mp hc' with rfl | hc'
    · have hself : (W.addCache c' kc).kc c' = kc := update_self _ _ _
      rw [hself] at hoff ⊢
      exact ⟨List.mem_cons_of_mem _ (hkc.desc hoff), hkc.slabp⟩
    · rw [kc_addCache hc hc'] at hoff ⊢
      exact (hg.slabp c' hc' hoff).imp (List.mem_cons_of_mem _) id
  slabp_on hmem := by
    -- the cache of slab descriptors is not the new cache
    have hold : W.slabCache ∈ W.caches := by
      rcases List.mem_cons.mp hmem with heq | hmem
      · rcases hg.slabCache with h0 | hin
        · exact absurd (heq.symm.trans h0) hc0
        · exact hin
      · exact hmem
    have hkc' : (W.addCache c kc).kc (W.addCache c kc).slabCache = W.kc W.slabCache :=
      kc_addCache hc hold
    rw [hkc']
    exact hg.slabp_on hold

theorem pages_addCache (h : Pages s W.toLayout R) (hc : c ∉ W.caches) :
    Pages s (W.addCache c kc).toLayout R := by
  obtain ⟨L, hrep, hL, hpool⟩ := h.rep
  have hold : ∀ {c' d'}, (W.addCache c kc).IsSlab c' d' → W.IsSlab c' d' := (isSlab_addCache hc).mp
  refine ⟨h.present, h.present_le, ⟨L, hrep, ?_, ?_⟩, ?_, ?_, ?_, ?_⟩
  · rintro x (hR | hO)
    · exact hL x (Or.inl hR)
    · exact hL x (Or.inr ((owned_addCache hc).mp hO))
  · intro x
    change W.pool x ↔ _
    rw [hpool x, owned_addCache hc]
  · intro c' d' hd'
    rw [kc_addCache hc (hold hd').1]
    exact h.aligned c' d' (hold hd')
  · intro c' d' hd'
    rw [kc_addCache hc (hold hd').1]
    exact h.bound c' d' (hold hd')
  · intro c' d' hd' x hx
    exact h.back c' d' (hold hd') x ((inSlab_addCache hc (hold hd').1).mp hx)
  · intro x hR hO
    exact h.reserved x hR ((owned_addCache hc).mp hO)

theorem cells_addCache {s' : Kernel} (h : Cells s W) (hu : W.Unused c) (hkc : Admissible W.toLayout kc)
    (hroot : s'.cacheCache = s.cacheCache) (hcs : s'.csCachep = s.csCachep)
    (hmem : s'.mem = update s.mem c (.cache kc)) : Cells s' (W.addCache c kc) := by
  have hc := hu.cache
  have hold : ∀ {c' d'}, (W.addCache c kc).IsSlab c' d' → W.IsSlab c' d' := (isSlab_addCache hc).mp
  have hother : ∀ a, a ≠ c → s'.mem a = s.mem a := fun a ha => by
    rw [hmem, update_of_ne ha]
  have hfree : ∀ c' d', W.IsSlab c' d' → ∀ x ∈ W.free d', s'.mem x = s.mem x := fun c' d' hd' x hx =>
    hother x fun hxc => hu.free c' d' hd' (hxc ▸ hx)
  refine ⟨hroot.trans h.root, hcs.trans h.csCachep, fun c' hc' => ?_, fun c' d' hd' => ?_,
    fun c' d' hd' => ?_, fun c' d' hd' x hx => ?_, fun c' d' hd' x hx => ?_, fun c' hc' => ?_⟩
  · rcases List.mem_cons.mp hc' with rfl | hc'
    · rw [hmem, update_self, desc_addCache_self hkc.freeObjects]
    · rw [hother c' (ne_of_mem_of_not_mem hc' hc), h.cache c' hc', desc_addCache hc hc']
  · have hd := hold hd'
    rw [hother d' (hu.slab c' d' hd).symm, h.slab c' d' hd]
    unfold World.slabDesc
    rw [kc_addCache hc hd.1]
    rfl
  · refine (h.chain c' d' (hold hd')).congr fun x hx => ?_
    unfold word
    rw [hfree c' d' (hold hd') x hx]
  · rw [hfree c' d' (hold hd') x hx]
    exact h.bytes c' d' (hold hd') x hx
  · exact (object_addCache hc (hold hd').1).mpr (h.object c' d' (hold hd') x hx)
  · rcases List.mem_cons.mp hc' with rfl | hc'
    · have hself : (W.addCache c' kc).kc c' = kc := update_self _ _ _
      have hcol : (W.addCache c' kc).colourNext c' = kc.colourNext := update_self _ _ _
      rw [hself, hcol]
      exact hkc.colour
    · have hcol : (W.addCache c kc).colourNext c' = W.colourNext c' :=
        update_of_ne (ne_of_mem_of_not_mem hc' hc) _ _
      rw [kc_addCache hc hc', hcol]
      exact h.colour c' hc'

theorem lists_addCache (h : Lists s W.toLayout B) (hc : c ∉ W.caches) :
    Lists (listAdd (initListHead (store (kmemList3Init s c) c (.cache kc)) (Link.next c)) Link.chain
      (Link.next c)) (W.addCache c kc).toLayout (update (addLists B c) .chain (c :: B .chain)) := by
  have hrings : Rings (store (kmemList3Init s c) c (.cache kc)) (IsQueue (c :: W.caches)) queueHead
      queueNode (addLists B c) :=
    (rings_list3Init h.rings hc).transport fun _ _ _ _ => ⟨rfl, rfl⟩
  have hchain : c ∉ addLists B c .chain := by
    rw [addLists_chain, h.chain]
    exact hc
  have hadd := rings_chainAdd hrings hchain
  have hlist : ∀ c' k, update (addLists B c) .chain (c :: B .chain) (.list c' k) =
      addLists B c (.list c' k) := fun c' k => update_of_ne (by simp) _ _
  refine ⟨hadd, fun c' => ?_, fun c' hc' => ?_, fun c' hc' d => ?_⟩
  · rw [update_self, List.mem_cons, h.chain]
    exact List.mem_cons.symm
  · rcases List.mem_cons.mp hc' with rfl | hc'
    · rw [show (W.addCache c' kc).slabs c' = [] from update_self _ _ _]
      exact List.nodup_nil
    · rw [slabs_addCache hc hc']
      exact h.nodup c' hc'
  · simp only [hlist]
    rcases List.mem_cons.mp hc' with rfl | hc'
    · rw [show (W.addCache c' kc).slabs c' = [] from update_self _ _ _]
      simp [addLists_self]
    · simp only [addLists_of_ne B _ (ne_of_mem_of_not_mem hc' hc)]
      rw [slabs_addCache hc hc']
      exact h.mem c' hc' d

/-- **An object of `cache_cache` becomes a cache.** -/
theorem good_addCache (g : Good s W B R (⟨c, W.cacheCache, e⟩ :: held)) (hsort : Sorted W B)
    (hkc : Admissible W.toLayout kc) :
    ∃ B', Good (listAdd (initListHead (store (kmemList3Init s c) c (.cache kc)) (Link.next c))
      Link.chain (Link.next c)) (W.addCache c kc) B' R held ∧ Sorted (W.addCache c kc) B' := by
  have hu : W.Unused c := g.holding.unused _ List.mem_cons_self
  have he := g.holding.slab _ List.mem_cons_self
  have hobj := g.holding.object _ List.mem_cons_self
  have hc := hu.cache
  have hnd := g.holding.nodup
  rw [List.map_cons, List.nodup_cons] at hnd
  refine ⟨_, ⟨geometry_addCache g.geometry hc (g.object_ne_zero he hobj) hkc ⟨e, he, hobj⟩,
    pages_congr (pages_addCache g.pages hc) rfl, cells_addCache g.cells hu hkc rfl rfl rfl,
    lists_addCache g.lists hc, ?_⟩, ?_⟩
  · refine ⟨fun h hh => (isSlab_addCache hc).mpr (g.holding.slab h (List.mem_cons_of_mem _ hh)),
      fun h hh => (object_addCache hc (g.holding.slab h (List.mem_cons_of_mem _ hh)).1).mpr
        (g.holding.object h (List.mem_cons_of_mem _ hh)), fun h hh => ?_, hnd.2⟩
    have hu' := g.holding.unused h (List.mem_cons_of_mem _ hh)
    refine ⟨fun hmem => ?_, fun c' d' hd' => hu'.slab c' d' ((isSlab_addCache hc).mp hd'),
      fun c' d' hd' => hu'.free c' d' ((isSlab_addCache hc).mp hd')⟩
    rcases List.mem_cons.mp hmem with heq | hmem
    · exact hnd.1 (List.mem_map.mpr ⟨h, hh, heq⟩)
    · exact hu'.cache hmem
  · intro c' hc' k d hd
    rw [update_of_ne (by simp)] at hd
    rcases List.mem_cons.mp hc' with rfl | hc'
    · rw [addLists_self] at hd
      exact absurd hd List.not_mem_nil
    · rw [addLists_of_ne B k (ne_of_mem_of_not_mem hc' hc)] at hd
      have := hsort c' hc' k d hd
      unfold World.Sorts at this ⊢
      rwa [kc_addCache hc hc']

theorem idle_addCache (hc : c ∉ W.caches) {c' d : ℕ} :
    (W.addCache c kc).Idle c' d ↔ W.Idle c' d := by
  unfold World.Idle
  rw [isSlab_addCache hc]
  refine and_congr_right fun hd => ?_
  rw [kc_addCache hc hd.1]
  rfl

/-! ### The function -/

theorem good_list3Init (g : Good s W B R held) (hc : c ∉ W.caches) :
    Good (kmemList3Init s c) W B R held := by
  have hap : ∀ k q, IsQueue W.caches q → ∀ n ∈ queueHead q :: (B q).map (queueNode q),
      Link.list c k ≠ n := fun k => listHead_apart (I := IsQueue W.caches) hc
  refine good_relink g ⟨g.lists.rings.transport fun q hq n hn => ?_, g.lists.chain, g.lists.nodup,
    g.lists.mem⟩ rfl rfl rfl rfl
  exact ((sameLinks_initListHead s (hap _ q hq n hn)).trans
    (sameLinks_initListHead _ (hap _ q hq n hn))).trans (sameLinks_initListHead _ (hap _ q hq n hn))

/-- The result of `kmem_cache_create`: NULL, for the reason `P`, and the caches are what they were,
or the new cache. -/
def Created (W : World) (R : ℕ → Prop) (held : List Held) (kc : KmemCache) (P : Prop)
    (r : Option (ℕ × Kernel)) : Prop :=
  ∃ c s' W' B', r = some (c, s') ∧ IdleWithin W W' ∧ Sorted W' B' ∧ Good s' W' B' R held ∧
    ((c = 0 ∧ W'.toShape = W.toShape ∧ P) ∨
      (c ≠ 0 ∧ c ∉ W.caches ∧ W'.toShape = W.toShape.addCache c kc))

/-- The object for a descriptor that `kmem_cache_create` gets from `cache_cache`, if it gets one, and
the state with its lists set up. -/
theorem kmemCacheAlloc_root (g : Good s W B R held) (hsort : Sorted W B) :
    ∃ c s₁ W₁ B₁, kmemCacheAlloc callDepth s s.cacheCache = some (c, s₁) ∧ W₁.toShape = W.toShape ∧
      NoNewIdle W W₁ ∧ Sorted W₁ B₁ ∧
      ((c = 0 ∧ allocateBlock s.zone (W.kc W.cacheCache).gfporder = (none, s.zone) ∧
          Good s₁ W₁ B₁ R held) ∨
        (c ≠ 0 ∧ c ∉ W.caches ∧ ∃ e, Good s₁ W₁ B₁ R (⟨c, W₁.cacheCache, e⟩ :: held) ∧
          Good (kmemList3Init s₁ c) W₁ B₁ R (⟨c, W₁.cacheCache, e⟩ :: held) ∧
          ∃ cc, readCache (kmemList3Init s₁ c) (kmemList3Init s₁ c).cacheCache = some cc ∧
            cc.slabpCache = W.slabCache)) := by
  have hon : offSlab (W.kc W.cacheCache) = false := g.geometry.root_on
  obtain ⟨c, s₁, W₁, B₁, heq, hshape, hidle, hsort₁, hres⟩ :=
    cacheAllocRefill_spec (kmemCacheAlloc 1) g hsort g.geometry.root
      fun hoff => absurd (hon.symm.trans hoff) (by simp)
  refine ⟨c, s₁, W₁, B₁, by rw [g.cells.root]; exact heq, hshape, hidle, hsort₁, ?_⟩
  rcases hres with ⟨rfl, hP, g₁⟩ | ⟨hc0, e, -, -, g₁⟩
  · exact Or.inl ⟨rfl, hP.resolve_left fun hoff => absurd (hon.symm.trans hoff) (by simp), g₁⟩
  · rw [← show W₁.cacheCache = W.cacheCache from congrArg Shape.cacheCache hshape] at g₁
    have hc : c ∉ W₁.caches := (g₁.holding.unused _ List.mem_cons_self).cache
    have g₂ := good_list3Init g₁ hc
    refine Or.inr ⟨hc0, ?_, e, g₁, g₂, W₁.desc W₁.cacheCache, ?_, ?_⟩
    · rw [← show W₁.caches = W.caches from congrArg Shape.caches hshape]
      exact hc
    · rw [g₂.cells.root]
      exact g₂.readCache g₂.geometry.root
    · exact g₂.geometry.root_slabp.trans (congrArg Shape.slabCache hshape)

/-- **`kmem_cache_create`**. -/
theorem kmemCacheCreate_spec (found : KmemCache) (size align flags ctor : ℕ)
    (g : Good s W B R held) (hsort : Sorted W B)
    (hsize : ¬ (flags &&& slabHwcacheAlign ≠ 0 ∧ roundToWords size = 0))
    (hobj : alignTo (roundToWords size) align ≠ 0)
    (hkc : (cacheDesc found (roundToWords size) align flags ctor W.slabCache).num ≠ 0 →
      Admissible W.toLayout (cacheDesc found (roundToWords size) align flags ctor W.slabCache)) :
    Created W R held (cacheDesc found (roundToWords size) align flags ctor W.slabCache)
      ((cacheDesc found (roundToWords size) align flags ctor W.slabCache).num = 0 ∨
        allocateBlock s.zone (W.kc W.cacheCache).gfporder = (none, s.zone))
      (kmemCacheCreate found s size align flags ctor) := by
  obtain ⟨c, s₁, W₁, B₁, halloc, hshape, hidle, hsort₁, hres⟩ := kmemCacheAlloc_root g hsort
  unfold kmemCacheCreate
  simp only [if_neg hsize, if_neg hobj, halloc, Option.bind_eq_bind, Option.bind_some,
    Option.pure_def]
  rcases hres with ⟨rfl, hnone, g₁⟩ | ⟨hc0, hc, e, g₁, g₂, cc, hread, hslabp⟩
  · exact ⟨0, s₁, W₁, B₁, rfl, fun c' d h => Or.inl (hidle c' d h), hsort₁, g₁,
      Or.inl ⟨rfl, hshape, Or.inr hnone⟩⟩
  · simp only [if_neg hc0, hread, Option.bind_some, hslabp]
    by_cases hnum : (cacheDesc found (roundToWords size) align flags ctor W.slabCache).num = 0
    · rw [if_pos hnum, g₂.cells.root]
      obtain ⟨s', W', B', heq', hshape', hwithin, hsort', g'⟩ := kmemCacheFree_spec g₂ hsort₁
      rw [heq']
      exact ⟨0, s', W', B', rfl, fun c' d h => (hwithin c' d h).imp_left (hidle c' d), hsort', g',
        Or.inl ⟨rfl, hshape'.trans hshape, Or.inl hnum⟩⟩
    · rw [if_neg hnum]
      have hadm := hkc hnum
      have hcaches : W₁.caches = W.caches := congrArg Shape.caches hshape
      have hslab : W₁.slabCache = W.slabCache := congrArg Shape.slabCache hshape
      have hadm₁ : Admissible W₁.toLayout
          (cacheDesc found (roundToWords size) align flags ctor W.slabCache) :=
        ⟨hadm.sane, fun h => by rw [hslab, hcaches]; exact hadm.desc h, hadm.slabp.trans hslab.symm,
          hadm.colour, hadm.freeObjects⟩
      obtain ⟨B', g', hsort'⟩ := good_addCache g₁ hsort₁ hadm₁
      refine ⟨c, _, _, B', rfl, fun c' d h => Or.inl (hidle c' d ?_), hsort', g',
        Or.inr ⟨hc0, hc, ?_⟩⟩
      · rw [← hcaches] at hc
        exact (idle_addCache hc).mp h
      · rw [← hshape]
        rfl

end YegaKernel.Slab.Create
