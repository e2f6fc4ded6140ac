import YegaKernel.Slab.Queues

/-! # Taking and giving back an object

`slab_get_obj` and `slab_put_obj` change the free list of one slab, in the memory of the objects,
with the counters of the slab and of its cache. Everything else the allocator keeps is at other
addresses. -/

namespace YegaKernel.Slab.Objects

open Lib.Links Lib.NullList Lib.Word
open Slab.State Slab.Ops Slab.Invariant Slab.Queues Function

variable {s s' : Kernel} {W : World} {B : Queue → List ℕ} {R : ℕ → Prop} {held : List Held}
variable {c d x : ℕ} {l xs : List ℕ}

/-! ### Counting -/

theorem length_le_num (hnd : l.Nodup) (hobj : ∀ x ∈ l, W.Object c d x) :
    l.length ≤ (W.kc c).num := by
  have hsub : l ⊆ (List.range (W.kc c).num).map fun i => W.sMem d + i * (W.kc c).objsize := by
    intro x hx
    obtain ⟨i, hi, rfl⟩ := hobj x hx
    exact List.mem_map_of_mem (List.mem_range.mpr hi)
  simpa using (List.subperm_of_subset hnd hsub).length_le

theorem mem_of_length (hnd : l.Nodup) (hobj : ∀ x ∈ l, W.Object c d x)
    (hlen : l.length = (W.kc c).num) (hx : W.Object c d x) : x ∈ l := by
  by_contra hmem
  have hle := length_le_num (l := x :: l) (List.nodup_cons.mpr ⟨hmem, hnd⟩)
    (List.forall_mem_cons.mpr ⟨hx, hobj⟩)
  rw [List.length_cons, hlen] at hle
  omega

theorem freeCount_setFree (hnd : (W.slabs c).Nodup) (hd : d ∈ W.slabs c) (l : List ℕ) :
    (W.setFree d l).freeCount c + (W.free d).length = W.freeCount c + l.length := by
  have hperm := List.perm_cons_erase hd
  have hrest : ((W.slabs c).erase d).map (fun e => ((W.setFree d l).free e).length) =
      ((W.slabs c).erase d).map fun e => (W.free e).length := by
    refine List.map_congr_left fun e he => ?_
    have hne : e ≠ d := (hnd.mem_erase_iff.mp he).1
    rw [W.setFree_of_ne hne]
  have hnew := (hperm.map fun e => ((W.setFree d l).free e).length).sum_eq
  have hold := (hperm.map fun e => (W.free e).length).sum_eq
  rw [List.map_cons, List.sum_cons, hrest] at hnew
  rw [List.map_cons, List.sum_cons] at hold
  rw [W.setFree_self] at hnew
  unfold World.freeCount
  change (((W.slabs c).map fun e => ((W.setFree d l).free e).length).sum) + _ = _
  omega

theorem freeCount_setFree_of_notMem (hd : d ∉ W.slabs c) (l : List ℕ) :
    (W.setFree d l).freeCount c = W.freeCount c := by
  refine congrArg List.sum (List.map_congr_left fun e he => ?_)
  have hne : e ≠ d := fun hed => hd (hed ▸ he)
  rw [W.setFree_of_ne hne]

/-! ### A change in one slab -/

/-- The worlds differ in the slab `d` of the cache `c`, which the second one may not have, only. -/
structure Change (W W' : World) (c d : ℕ) : Prop where
  shape : W'.toShape = W.toShape
  old : ∀ c' d', W'.IsSlab c' d' → d' ≠ d → W.IsSlab c' d'
  self : ∀ c', W'.IsSlab c' d → c' = c
  page : ∀ e ≠ d, W'.page e = W.page e
  colouroff : ∀ e ≠ d, W'.colouroff e = W.colouroff e
  free : ∀ e ≠ d, W'.free e = W.free e
  count : ∀ c' ∈ W.caches, c' ≠ c → W'.freeCount c' = W.freeCount c'
  colour : ∀ c' ≠ c, W'.colourNext c' = W.colourNext c'

/-- The address holds a cache, a slab other than `d` or a free object of one. -/
def Kept (W : World) (d a : ℕ) : Prop :=
  a ∈ W.caches ∨ ∃ c' d', W.IsSlab c' d' ∧ d' ≠ d ∧ (a = d' ∨ a ∈ W.free d')

/-- What the memory has for a slab. -/
structure SlabCells (s : Kernel) (W : World) (c d : ℕ) : Prop where
  slab : s.mem d = .slab (W.slabDesc c d)
  chain : Threaded (word s.mem) ((W.free d).headD 0) (W.free d)
  bytes : ∀ x ∈ W.free d, ∃ w, s.mem x = .bytes w
  object : ∀ x ∈ W.free d, W.Object c d x

theorem slabCells_of_ne {W' : World} (g : Good s W B R held) (h : Change W W' c d) (hc : c ∈ W.caches)
    (hkept : ∀ a, Kept W d a → a ≠ c → s'.mem a = s.mem a) {c' d' : ℕ} (hd' : W'.IsSlab c' d')
    (hdd : d' ≠ d) : SlabCells s' W' c' d' := by
  have hkc : W'.kc = W.kc := congrArg Shape.kc h.shape
  have hold := h.old c' d' hd' hdd
  have hmem : ∀ x ∈ W.free d', s'.mem x = s.mem x := fun x hx =>
    hkept x (Or.inr ⟨_, d', hold, hdd, Or.inr hx⟩) (g.free_ne_cache hold hx hc)
  constructor
  · rw [hkept d' (Or.inr ⟨c', d', hold, hdd, Or.inl rfl⟩) (g.cache_ne_slab hc hold).symm,
      g.cells.slab c' d' hold]
    unfold World.slabDesc Layout.sMem
    rw [h.free d' hdd, h.page d' hdd, h.colouroff d' hdd, hkc]
  · rw [h.free d' hdd]
    refine (g.cells.chain c' d' hold).congr fun x hx => ?_
    unfold word
    rw [hmem x hx]
  · intro x hx
    rw [h.free d' hdd] at hx
    rw [hmem x hx]
    exact g.cells.bytes c' d' hold x hx
  · intro x hx
    rw [h.free d' hdd] at hx
    have hobj := g.cells.object c' d' hold x hx
    unfold Layout.Object Layout.sMem at hobj ⊢
    rwa [hkc, h.page d' hdd, h.colouroff d' hdd]

/-- The memory after a change in one slab: its descriptor and that of its cache are written, and
otherwise only at addresses `l` where nothing else is kept. -/
theorem cells_change {W' : World} (g : Good s W B R held) (h : Change W W' c d) (hc : c ∈ W.caches)
    (hroot : s'.cacheCache = s.cacheCache) (hcs : s'.csCachep = s.csCachep)
    (hcolour : W'.colourNext c ≤ (W.kc c).colour - 1) (hcache : s'.mem c = .cache (W'.desc c))
    (hslab : W'.IsSlab c d → SlabCells s' W' c d) (hfresh : ∀ a, Kept W d a → a ≠ d ∧ a ∉ l)
    (hother : ∀ a, a ≠ c → a ≠ d → a ∉ l → s'.mem a = s.mem a) : Cells s' W' := by
  have hkc : W'.kc = W.kc := congrArg Shape.kc h.shape
  have hcaches : W'.caches = W.caches := congrArg Shape.caches h.shape
  -- what is kept and is not `c` is not written
  have hkept : ∀ a, Kept W d a → a ≠ c → s'.mem a = s.mem a := fun a ha hac =>
    hother a hac (hfresh a ha).1 (hfresh a ha).2
  have hslabs : ∀ c' d', W'.IsSlab c' d' → SlabCells s' W' c' d' := by
    intro c' d' hd'
    by_cases hdd : d' = d
    · subst hdd
      obtain rfl := h.self c' hd'
      exact hslab hd'
    · exact slabCells_of_ne g h hc hkept hd' hdd
  refine ⟨(hroot.trans g.cells.root).trans (congrArg Shape.cacheCache h.shape).symm,
    (hcs.trans g.cells.csCachep).trans (congrArg Shape.csCachep h.shape).symm, fun c' hc' => ?_,
    fun c' d' hd' => (hslabs c' d' hd').slab, fun c' d' hd' => (hslabs c' d' hd').chain,
    fun c' d' hd' => (hslabs c' d' hd').bytes, fun c' d' hd' => (hslabs c' d' hd').object,
    fun c' hc' => ?_⟩
  · rw [hcaches] at hc'
    by_cases hcc : c' = c
    · rw [hcc, hcache]
    · rw [hkept c' (Or.inl hc') hcc, g.cells.cache c' hc']
      unfold World.desc
      rw [h.count c' hc' hcc, h.colour c' hcc, hkc]
  · rw [hcaches] at hc'
    rw [hkc]
    by_cases hcc : c' = c
    · rw [hcc]
      exact hcolour
    · rw [h.colour c' hcc]
      exact g.cells.colour c' hc'

/-! ### A changed free list -/

theorem change_setFree (g : Good s W B R held) (hd : W.IsSlab c d) (l : List ℕ) :
    Change W (W.setFree d l) c d where
  shape := rfl
  old _ _ h _ := h
  self _ h := g.pages.cache_unique h hd
  page _ _ := rfl
  colouroff _ _ := rfl
  free _ he := W.setFree_of_ne he l
  count _ hc' hcc := freeCount_setFree_of_notMem
    (fun hmem => hcc (g.pages.cache_unique ⟨hc', hmem⟩ hd)) l
  colour _ _ := rfl

theorem not_kept (g : Good s W B R held) (hd : W.IsSlab c d) (hobj : ∀ x ∈ l, W.Object c d x)
    (hl : ∀ x ∈ l, x ∈ W.free d ∨ W.Unused x) : ∀ a, Kept W d a → a ≠ d ∧ a ∉ l := by
  rintro a (ha | ⟨c', d', hd', hne, rfl | ha⟩)
  · refine ⟨g.cache_ne_slab ha hd, fun hmem => ?_⟩
    rcases hl a hmem with h | h
    · exact g.free_ne_cache hd h ha rfl
    · exact h.cache ha
  · refine ⟨hne, fun hmem => ?_⟩
    rcases hl a hmem with h | h
    · exact g.free_ne_slab hd h hd' rfl
    · exact h.slab c' a hd' rfl
  · refine ⟨g.free_ne_slab hd' ha hd, fun hmem => hne ?_⟩
    exact (g.object_unique hd' hd (g.cells.object c' d' hd' a ha) (hobj a hmem)).2

/-- The memory when the free list of one slab changes: both descriptors are written, and otherwise
only objects that are free then. -/
theorem cells_setFree (g : Good s W B R held) (hd : W.IsSlab c d) (hroot : s'.cacheCache = s.cacheCache)
    (hcs : s'.csCachep = s.csCachep) (hobj : ∀ x ∈ l, W.Object c d x)
    (hl : ∀ x ∈ l, x ∈ W.free d ∨ W.Unused x) (hcache : s'.mem c = .cache ((W.setFree d l).desc c))
    (hslab : s'.mem d = .slab ((W.setFree d l).slabDesc c d))
    (hchain : Threaded (word s'.mem) (l.headD 0) l) (hbytes : ∀ x ∈ l, ∃ w, s'.mem x = .bytes w)
    (hother : ∀ a, a ≠ c → a ≠ d → a ∉ l → s'.mem a = s.mem a) : Cells s' (W.setFree d l) := by
  refine cells_change g (change_setFree g hd l) hd.1 hroot hcs (g.cells.colour c hd.1) hcache
    (fun _ => ⟨hslab, ?_, ?_, ?_⟩) (not_kept g hd hobj hl) hother
  · rwa [W.setFree_self]
  · rwa [W.setFree_self]
  · rwa [W.setFree_self]

theorem pages_congr {V : Layout} (h : Pages s V R) (hz : s'.zone = s.zone) : Pages s' V R := by
  obtain ⟨h1, h2, h3, h4, h5, h6, h7⟩ := h
  rw [← hz] at h1 h3 h6
  exact ⟨h1, h2, h3, h4, h5, h6, h7⟩

theorem unused_setFree (h : W.Unused x) (hx : x ∉ l) : (W.setFree d l).Unused x := by
  refine ⟨h.cache, h.slab, fun c' d' hd' hmem => ?_⟩
  by_cases hdd : d' = d
  · rw [hdd, W.setFree_self] at hmem
    exact hx hmem
  · rw [W.setFree_of_ne hdd] at hmem
    exact h.free c' d' hd' hmem

theorem held_not_free (g : Good s W B R held) (hd : W.IsSlab c d) (hx : x ∈ W.free d) :
    x ∉ held.map Held.addr := by
  intro hmem
  obtain ⟨h, hh, rfl⟩ := List.mem_map.mp hmem
  exact (g.holding.unused h hh).free c d hd hx

/-! ### Arithmetic of the counters -/

theorem sub32_u32_one {n : ℕ} (hn : 0 < n) : sub32 (u32 n) 1 = u32 (n - 1) := by
  unfold sub32 u32
  omega

/-! ### Both descriptors -/

/-- The descriptors of a slab and of its cache are written as the world has them. -/
def writeDescs (s : Kernel) (W : World) (c d : ℕ) : Kernel :=
  store (store s d (.slab (W.slabDesc c d))) c (.cache (W.desc c))

theorem writeDescs_cache (s : Kernel) (W : World) (c d : ℕ) :
    (writeDescs s W c d).mem c = .cache (W.desc c) := update_self _ _ _

theorem writeDescs_slab (s : Kernel) (W : World) (h : d ≠ c) :
    (writeDescs s W c d).mem d = .slab (W.slabDesc c d) := by
  rw [writeDescs, store_mem, update_of_ne h]
  exact update_self _ _ _

theorem writeDescs_of_ne (s : Kernel) (W : World) {a : ℕ} (hc : a ≠ c) (hd : a ≠ d) :
    (writeDescs s W c d).mem a = s.mem a := by
  rw [writeDescs, store_mem, update_of_ne hc, store_mem, update_of_ne hd]

/-! ### Taking an object -/

theorem holding_take (g : Good s W B R held) (hd : W.IsSlab c d) (hfree : W.free d = x :: xs) :
    Holding (W.setFree d xs) (⟨x, c, d⟩ :: held) := by
  have hx : x ∈ W.free d := by rw [hfree]; exact List.mem_cons_self
  have hnd := g.free_nodup hd
  rw [hfree, List.nodup_cons] at hnd
  have hsub : ∀ y ∈ xs, y ∈ W.free d := fun y hy => by rw [hfree]; exact List.mem_cons_of_mem _ hy
  constructor
  · exact List.forall_mem_cons.mpr ⟨hd, g.holding.slab⟩
  · exact List.forall_mem_cons.mpr ⟨g.cells.object c d hd x hx, g.holding.object⟩
  · refine List.forall_mem_cons.mpr ⟨⟨?_, ?_, ?_⟩, fun h hh => ?_⟩
    · exact fun hc => g.free_ne_cache hd hx hc rfl
    · exact fun c' d' hd' => g.free_ne_slab hd hx hd'
    · intro c' d' hd' hmem
      by_cases hdd : d' = d
      · rw [hdd, W.setFree_self] at hmem
        exact hnd.1 hmem
      · rw [W.setFree_of_ne hdd] at hmem
        exact hdd (g.object_unique hd' hd (g.cells.object c' d' hd' x hmem)
          (g.cells.object c d hd x hx)).2
    · exact unused_setFree (g.holding.unused h hh) fun hmem =>
        (g.holding.unused h hh).free c d hd (hsub _ hmem)
  · exact List.nodup_cons.mpr ⟨held_not_free g hd hx, g.holding.nodup⟩

/-- The state behind a call of `slab_get_obj`, with `w` as the rest of the free list. -/
def popped (s : Kernel) (c d : ℕ) (kc : KmemCache) (sd : SlabDesc) (w : ℕ) : Kernel :=
  store (store s d (.slab { sd with freeList := w, inuse := u32 (sd.inuse + 1) })) c
    (.cache { kc with freeObjects := sub32 kc.freeObjects 1 })

theorem slabGetObj_eq {w : ℕ} {sd : SlabDesc} {kc : KmemCache} (hd : d ≠ 0) (hc : c ≠ 0) (hcd : c ≠ d)
    (hsd : s.mem d = .slab sd) (hkc : s.mem c = .cache kc) (hx : sd.freeList = x) (h0 : x ≠ 0)
    (hw : s.mem x = .bytes w) : slabGetObj s c d = some (x, popped s c d kc sd w) := by
  have hkc' : (store s d (.slab { sd with freeList := w, inuse := u32 (sd.inuse + 1) })).mem c =
      .cache kc := (update_of_ne hcd _ _).trans hkc
  unfold slabGetObj popped
  rw [readSlab_of_mem hd hsd]
  simp only [Option.bind_eq_bind, Option.bind_some, hx, readWord_of_mem h0 hw,
    readCache_of_mem hc hkc', Option.pure_def]

theorem popped_eq (g : Good s W B R held) (hd : W.IsSlab c d) (hfree : W.free d = x :: xs) :
    popped s c d (W.desc c) (W.slabDesc c d) (xs.headD 0) = writeDescs s (W.setFree d xs) c d := by
  have hle := length_le_num (g.free_nodup hd) (g.cells.object c d hd)
  have hnum := g.num_lt hd.1
  have hcount := freeCount_setFree (g.lists.nodup c hd.1) hd.2 xs
  rw [hfree, List.length_cons] at hle hcount
  have hslab : ({ W.slabDesc c d with
      freeList := xs.headD 0, inuse := u32 ((W.slabDesc c d).inuse + 1) } : SlabDesc) =
      (W.setFree d xs).slabDesc c d := by
    unfold World.slabDesc
    simp only [W.setFree_self, hfree, List.length_cons, World.setFree_toLayout]
    rw [u32_of_lt (by omega)]
    congr 1
    omega
  have hcache : ({ W.desc c with freeObjects := sub32 (W.desc c).freeObjects 1 } : KmemCache) =
      (W.setFree d xs).desc c := by
    unfold World.desc
    rw [sub32_u32_one (by omega), show W.freeCount c - 1 = (W.setFree d xs).freeCount c by omega]
    rfl
  rw [popped, hslab, hcache, writeDescs]

theorem link_of_free (g : Good s W B R held) (hd : W.IsSlab c d) (hfree : W.free d = x :: xs) :
    s.mem x = .bytes (xs.headD 0) ∧ Threaded (word s.mem) (xs.headD 0) xs := by
  obtain ⟨w, hw⟩ := g.cells.bytes c d hd x (by rw [hfree]; exact List.mem_cons_self)
  have hchain := g.cells.chain c d hd
  rw [hfree] at hchain
  have hword : word s.mem x = w := by rw [word, hw]
  have htail := hchain.2.2
  rw [hword] at htail
  rw [← htail.eq_headD]
  exact ⟨hw, htail⟩

/-- **`slab_get_obj`** hands out the first object of the free list. -/
theorem slabGetObj_spec (g : Good s W B R held) (hd : W.IsSlab c d) (hfree : W.free d = x :: xs) :
    ∃ s', slabGetObj s c d = some (x, s') ∧ s'.links = s.links ∧
      Good s' (W.setFree d xs) B R (⟨x, c, d⟩ :: held) := by
  have hx : x ∈ W.free d := by rw [hfree]; exact List.mem_cons_self
  have hsub : ∀ y ∈ xs, y ∈ W.free d := fun y hy => by rw [hfree]; exact List.mem_cons_of_mem _ hy
  have hcd := g.cache_ne_slab hd.1 hd
  have hx0 := g.object_ne_zero hd (g.cells.object c d hd x hx)
  have hhead : (W.slabDesc c d).freeList = x := by
    unfold World.slabDesc
    rw [hfree]
    rfl
  obtain ⟨hw, htail⟩ := link_of_free g hd hfree
  refine ⟨writeDescs s (W.setFree d xs) c d, ?_, rfl, ?_⟩
  · rw [← popped_eq g hd hfree]
    exact slabGetObj_eq (g.slab_ne_zero hd) (g.cache_ne_zero hd.1) hcd (g.cells.slab c d hd)
      (g.cells.cache c hd.1) hhead hx0 hw
  · refine ⟨g.geometry, pages_congr g.pages rfl, ?_, lists_congr g.lists rfl, holding_take g hd hfree⟩
    have hmem : ∀ y ∈ xs, (writeDescs s (W.setFree d xs) c d).mem y = s.mem y := fun y hy =>
      writeDescs_of_ne s _ (g.free_ne_cache hd (hsub y hy) hd.1) (g.free_ne_slab hd (hsub y hy) hd)
    refine cells_setFree g hd rfl rfl (fun y hy => g.cells.object c d hd y (hsub y hy))
      (fun y hy => Or.inl (hsub y hy)) (writeDescs_cache s _ c d) (writeDescs_slab s _ hcd.symm) ?_
      (fun y hy => ?_) (fun a hac had _ => writeDescs_of_ne s _ hac had)
    · refine htail.congr fun y hy => ?_
      unfold word
      rw [hmem y hy]
    · rw [hmem y hy]
      exact g.cells.bytes c d hd y (hsub y hy)

/-! ### Giving an object back -/

theorem holding_put (g : Good s W B R (⟨x, c, d⟩ :: held)) :
    Holding (W.setFree d (x :: W.free d)) held := by
  obtain ⟨hslab, hobj, hunused, hnd⟩ := g.holding
  have hd : W.IsSlab c d := hslab _ List.mem_cons_self
  rw [List.map_cons, List.nodup_cons] at hnd
  refine ⟨fun h hh => hslab h (List.mem_cons_of_mem _ hh),
    fun h hh => hobj h (List.mem_cons_of_mem _ hh), fun h hh => ?_, hnd.2⟩
  have hu := hunused h (List.mem_cons_of_mem _ hh)
  refine unused_setFree hu fun hmem => ?_
  rcases List.mem_cons.mp hmem with heq | hmem
  · exact hnd.1 (List.mem_map.mpr ⟨h, hh, heq⟩)
  · exact hu.free c d hd hmem

theorem descs_put (g : Good s W B R (⟨x, c, d⟩ :: held)) :
    ({ W.slabDesc c d with freeList := x, inuse := sub32 (W.slabDesc c d).inuse 1 } : SlabDesc) =
        (W.setFree d (x :: W.free d)).slabDesc c d ∧
      ({ W.desc c with freeObjects := u32 ((W.desc c).freeObjects + 1) } : KmemCache) =
        (W.setFree d (x :: W.free d)).desc c := by
  have hd : W.IsSlab c d := g.holding.slab _ List.mem_cons_self
  have hx : W.Object c d x := g.holding.object _ List.mem_cons_self
  have hu : W.Unused x := g.holding.unused _ List.mem_cons_self
  have hnd : (x :: W.free d).Nodup := List.nodup_cons.mpr ⟨hu.free c d hd, g.free_nodup hd⟩
  have hle := length_le_num hnd (List.forall_mem_cons.mpr ⟨hx, g.cells.object c d hd⟩)
  have hnum := g.num_lt hd.1
  have hcount := freeCount_setFree (g.lists.nodup c hd.1) hd.2 (x :: W.free d)
  rw [List.length_cons] at hle hcount
  constructor
  · unfold World.slabDesc
    simp only [W.setFree_self, List.length_cons, World.setFree_toLayout, List.headD_cons]
    rw [sub32_of_le (by omega) (by omega)]
    congr 1
  · unfold World.desc
    rw [u32_add_u32, show W.freeCount c + 1 = (W.setFree d (x :: W.free d)).freeCount c by omega]
    rfl

theorem cells_put (g : Good s W B R (⟨x, c, d⟩ :: held)) :
    Cells (writeDescs (store s x (.bytes ((W.free d).headD 0))) (W.setFree d (x :: W.free d)) c d)
      (W.setFree d (x :: W.free d)) := by
  have hd : W.IsSlab c d := g.holding.slab _ List.mem_cons_self
  have hx : W.Object c d x := g.holding.object _ List.mem_cons_self
  have hu : W.Unused x := g.holding.unused _ List.mem_cons_self
  have hxc : x ≠ c := fun h => hu.cache (h ▸ hd.1)
  have hmemx : (writeDescs (store s x (.bytes ((W.free d).headD 0)))
      (W.setFree d (x :: W.free d)) c d).mem x = .bytes ((W.free d).headD 0) := by
    rw [writeDescs_of_ne _ _ hxc (hu.slab c d hd)]
    exact update_self _ _ _
  have hmem : ∀ y, y ≠ x → y ≠ c → y ≠ d → (writeDescs (store s x (.bytes ((W.free d).headD 0)))
      (W.setFree d (x :: W.free d)) c d).mem y = s.mem y := by
    intro y hyx hyc hyd
    rw [writeDescs_of_ne _ _ hyc hyd]
    exact update_of_ne hyx _ _
  have hmemf : ∀ y ∈ W.free d, (writeDescs (store s x (.bytes ((W.free d).headD 0)))
      (W.setFree d (x :: W.free d)) c d).mem y = s.mem y := fun y hy =>
    hmem y (fun h => hu.free c d hd (h ▸ hy)) (g.free_ne_cache hd hy hd.1)
      (g.free_ne_slab hd hy hd)
  refine cells_setFree g hd rfl rfl (List.forall_mem_cons.mpr ⟨hx, g.cells.object c d hd⟩)
    (fun y hy => ?_) (writeDescs_cache _ _ c d)
    (writeDescs_slab _ _ (g.cache_ne_slab hd.1 hd).symm) ⟨rfl, g.object_ne_zero hd hx, ?_⟩
    (fun y hy => ?_) (fun a hac had hal => ?_)
  · rcases List.mem_cons.mp hy with rfl | hy
    · exact Or.inr hu
    · exact Or.inl hy
  · rw [word, hmemx]
    refine (g.cells.chain c d hd).congr fun y hy => ?_
    unfold word
    rw [hmemf y hy]
  · rcases List.mem_cons.mp hy with rfl | hy
    · exact ⟨_, hmemx⟩
    · rw [hmemf y hy]
      exact g.cells.bytes c d hd y hy
  · exact hmem a (fun h => hal (h ▸ List.mem_cons_self)) hac had

/-- **`slab_put_obj`** with the counter of the cache: the object is the first of the free list. -/
theorem slabPutObj_spec (g : Good s W B R (⟨x, c, d⟩ :: held)) :
    ∃ s₁, slabPutObj s d x = some s₁ ∧ readCache s₁ c = some (W.desc c) ∧ s₁.links = s.links ∧
      Good (store s₁ c (.cache { W.desc c with freeObjects := u32 ((W.desc c).freeObjects + 1) }))
        (W.setFree d (x :: W.free d)) B R held := by
  have hd : W.IsSlab c d := g.holding.slab _ List.mem_cons_self
  have hu : W.Unused x := g.holding.unused _ List.mem_cons_self
  have hcx : c ≠ x := fun h => hu.cache (h ▸ hd.1)
  obtain ⟨hslab, hcache⟩ := descs_put g
  rw [hcache]
  refine ⟨store (store s x (.bytes ((W.free d).headD 0))) d
    (.slab ((W.setFree d (x :: W.free d)).slabDesc c d)), ?_, ?_, rfl, ?_⟩
  · unfold slabPutObj
    rw [g.readSlab hd]
    simp only [Option.bind_eq_bind, Option.bind_some]
    rw [hslab]
    rfl
  · refine readCache_of_mem (g.cache_ne_zero hd.1) ?_
    rw [store_mem, update_of_ne (g.cache_ne_slab hd.1 hd), store_mem,
      update_of_ne hcx, g.cells.cache c hd.1]
  · exact ⟨g.geometry, pages_congr g.pages rfl, cells_put g, lists_congr g.lists rfl, holding_put g⟩

end YegaKernel.Slab.Objects
