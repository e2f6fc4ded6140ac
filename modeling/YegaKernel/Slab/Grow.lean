import YegaKernel.Slab.Worlds

/-! # `cache_grow`

A cache gets a new slab: pages are taken from the zone, the descriptor is placed in front of the
objects or taken from the cache of slab descriptors, and the objects are threaded on the free
list. -/

namespace YegaKernel.Slab.Grow

open Lib.Links Lib.NullList Lib.Word
open Buddy.State (Node pageSize buddyGroups)
open Buddy.Ops (allocateBlock)
open Buddy.FreeBlocks
open Slab.State Slab.Ops Slab.Invariant Slab.Queues
open Slab.Objects Slab.PageOps Slab.Worlds Function

variable {s : Kernel} {W : World} {B : Queue → List ℕ} {R : ℕ → Prop} {held : List Held}
variable {c d p off : ℕ}

/-! ### Threading the objects -/

/-- The memory `m` is the memory `m₀` with the free list `l` of the slab at `d`, which has the
descriptor `sd` otherwise. -/
structure Filled (m₀ m : ℕ → Cell) (sd : SlabDesc) (d : ℕ) (l : List ℕ) : Prop where
  slab : m d = .slab { sd with freeList := l.headD 0 }
  chain : Threaded (word m) (l.headD 0) l
  bytes : ∀ x ∈ l, ∃ w, m x = .bytes w
  other : ∀ a, a ≠ d → a ∉ l → m a = m₀ a

theorem Filled.cons {m₀ m : ℕ → Cell} {sd : SlabDesc} {l : List ℕ} (h : Filled m₀ m sd d l) {x : ℕ}
    (hxd : x ≠ d) (hx0 : x ≠ 0) (hxl : x ∉ l) (hdl : d ∉ l) :
    Filled m₀ (update (update m x (.bytes (l.headD 0))) d
      (.slab { sd with freeList := x })) sd d (x :: l) := by
  have hx : update (update m x (.bytes (l.headD 0))) d
      (.slab { sd with freeList := x }) x = .bytes (l.headD 0) := by
    rw [update_of_ne hxd, update_self]
  have hl : ∀ y ∈ l, update (update m x (.bytes (l.headD 0))) d
      (.slab { sd with freeList := x }) y = m y := by
    intro y hy
    have hyd : y ≠ d := fun hyd => hdl (hyd ▸ hy)
    have hyx : y ≠ x := fun hyx => hxl (hyx ▸ hy)
    rw [update_of_ne hyd, update_of_ne hyx]
  refine ⟨update_self _ _ _, ⟨rfl, hx0, ?_⟩, ?_, fun a had hal => ?_⟩
  · rw [word, hx]
    refine h.chain.congr fun y hy => ?_
    unfold word
    rw [hl y hy]
  · refine List.forall_mem_cons.mpr ⟨⟨_, hx⟩, fun y hy => ?_⟩
    rw [hl y hy]
    exact h.bytes y hy
  · rw [List.mem_cons, not_or] at hal
    rw [update_of_ne had, update_of_ne hal.1]
    exact h.other a had hal.2

/-- The objects from the index `i` on. -/
def objectsFrom (kc : KmemCache) (m i : ℕ) : List ℕ :=
  (List.range' i (kc.num - i)).map fun j => m + j * kc.objsize

theorem objectsFrom_zero (kc : KmemCache) (m : ℕ) : objectsFrom kc m 0 = objectsAt kc m := by
  rw [objectsFrom, objectsAt, Nat.sub_zero, List.range_eq_range']

variable {kc : KmemCache} {i m n₁ n₂ : ℕ}

theorem objectsFrom_succ (m : ℕ) (hi : i < kc.num) :
    objectsFrom kc m i = (m + i * kc.objsize) :: objectsFrom kc m (i + 1) := by
  unfold objectsFrom
  rw [show kc.num - i = (kc.num - (i + 1)) + 1 by omega, List.range'_succ, List.map_cons]

theorem mem_objectsFrom {x : ℕ} (h : x ∈ objectsFrom kc m i) :
    ∃ j, i ≤ j ∧ j < kc.num ∧ x = m + j * kc.objsize := by
  obtain ⟨j, hj, rfl⟩ := List.mem_map.mp h
  rw [List.mem_range'_1] at hj
  exact ⟨j, hj.1, by omega, rfl⟩

theorem object_inj {j : ℕ} (hsize : 0 < kc.objsize)
    (h : m + i * kc.objsize = m + j * kc.objsize) : i = j :=
  Nat.eq_of_mul_eq_mul_right hsize (Nat.add_left_cancel h)

theorem notMem_objectsFrom {x : ℕ} (hsize : 0 < kc.objsize)
    (hne : ∀ j < kc.num, m + j * kc.objsize ≠ d) (hx : x = d ∨ x = m + i * kc.objsize) :
    x ∉ objectsFrom kc m (i + 1) := by
  intro hmem
  obtain ⟨j, hij, hj, hxj⟩ := mem_objectsFrom hmem
  rcases hx with rfl | rfl
  · exact hne j hj hxj.symm
  · have := object_inj hsize hxj
    omega

theorem filled_start (m : ℕ → Cell) (kc : KmemCache) (sd : SlabDesc) (d : ℕ) :
    Filled m (update m d (.slab { sd with freeList := 0 })) sd d
      (objectsFrom kc sd.sMem kc.num) := by
  have hnil : objectsFrom kc sd.sMem kc.num = [] := by simp [objectsFrom]
  rw [hnil]
  exact ⟨update_self _ _ _, rfl, by simp, fun a had _ => update_of_ne had _ _⟩

/-- **The loop of `cache_init_objs`** threads the objects from the last one down. -/
theorem initObjs_spec {sd : SlabDesc} (hd0 : d ≠ 0) (hctor : kc.ctor = 0)
    (hsize : 0 < kc.objsize) (hm : 0 < sd.sMem)
    (hlt : ∀ i < kc.num, sd.sMem + i * kc.objsize < 2 ^ 32)
    (hne : ∀ i < kc.num, sd.sMem + i * kc.objsize ≠ d) {m₀ : ℕ → Cell} :
    ∀ (i : ℕ) (m : ℕ → Cell), i ≤ kc.num → Filled m₀ m sd d (objectsFrom kc sd.sMem i) →
      ∃ m', initObjs kc d i { s with mem := m } = some { s with mem := m' } ∧
        Filled m₀ m' sd d (objectsAt kc sd.sMem)
  | 0, m, _, h => ⟨m, rfl, by rwa [objectsFrom_zero] at h⟩
  | i + 1, m, hi, h => by
    have hstep := h.cons (hne i (by omega)) (by omega) (notMem_objectsFrom hsize hne (Or.inr rfl))
      (notMem_objectsFrom hsize hne (Or.inl rfl))
    rw [← objectsFrom_succ sd.sMem (by omega : i < kc.num)] at hstep
    obtain ⟨m', heq, hfill⟩ := initObjs_spec hd0 hctor hsize hm hlt hne i _ (by omega) hstep
    refine ⟨m', ?_, hfill⟩
    rw [initObjs, readSlab_of_mem hd0 h.slab]
    simp only [Option.bind_eq_bind, Option.bind_some, hctor, ne_eq, not_true_eq_false, if_false]
    rw [u32_of_lt (hlt i (by omega))]
    exact heq

theorem cacheInitObjs_spec (kc : KmemCache) {sd : SlabDesc} (hd0 : d ≠ 0) (hctor : kc.ctor = 0)
    (hsize : 0 < kc.objsize) (hm : 0 < sd.sMem) (hnum : kc.num ≤ 2 ^ 31)
    (hlt : ∀ i < kc.num, sd.sMem + i * kc.objsize < 2 ^ 32)
    (hne : ∀ i < kc.num, sd.sMem + i * kc.objsize ≠ d) (hs : s.mem d = .slab sd) :
    ∃ m, cacheInitObjs s kc d = some { s with mem := m } ∧
      Filled s.mem m sd d (objectsAt kc sd.sMem) := by
  obtain ⟨m, heq, hfill⟩ := initObjs_spec (s := s) hd0 hctor hsize hm hlt hne kc.num _ le_rfl
    (filled_start s.mem kc sd d)
  refine ⟨m, ?_, hfill⟩
  unfold cacheInitObjs
  rw [readSlab_of_mem hd0 hs]
  simp only [Option.bind_eq_bind, Option.bind_some, if_pos hnum]
  exact heq

/-! ### The new slab -/

theorem virtToPage_base (p : ℕ) : virtToPage (base p) = p := by
  have h := inBlock_virtToPage (k := 0) (p := p) (x := base p) le_rfl (by unfold pageSize; omega)
  unfold InBlock at h
  omega

theorem block_le {n k : ℕ} (ht : Taken n k p R) (hn : n ≤ 2 ^ 18) :
    base p + pageSize * 2 ^ k ≤ 2 ^ 32 := by
  have hb := ht.bound
  unfold base pageSize pageOffset
  omega

theorem length_objectsAt (kc : KmemCache) (m : ℕ) : (objectsAt kc m).length = kc.num := by
  simp [objectsAt]

theorem kindOf_all {n : ℕ} (hn : 0 < n) : kindOf n n = .slabsFree := by
  rw [kindOf, if_neg (by omega), if_pos rfl]

theorem object_lt (hs : Sane (W.kc c)) (ht : Taken W.present (W.kc c).gfporder p R)
    (hn : W.present ≤ 2 ^ 18) (hfits : Fits (W.kc c) p off d) {i : ℕ} (hi : i < (W.kc c).num) :
    base p + off + i * (W.kc c).objsize < 2 ^ 32 := by
  have hble := block_le ht hn
  have hmul : (i + 1) * (W.kc c).objsize ≤ (W.kc c).num * (W.kc c).objsize :=
    Nat.mul_le_mul_right _ hi
  rw [Nat.add_mul, Nat.one_mul] at hmul
  have hsize := hs.objsize
  have hobj := hfits.objects
  omega

theorem setupSlab_eq {s₁ s₂ : Kernel} {kc' : KmemCache} {objp : ℕ}
    (hmap : slabMapPages s kc c d objp = s₁) (hinit : cacheInitObjs s₁ kc d = some s₂)
    (hread : readCache (listAddTail s₂ (Link.list c .slabsFree) (Link.slab d)) c = some kc') :
    setupSlab s kc c d objp = some (store (listAddTail s₂ (Link.list c .slabsFree) (Link.slab d)) c
      (.cache { kc' with freeObjects := u32 (kc'.freeObjects + kc'.num) })) := by
  unfold setupSlab
  simp only [hmap, hinit, hread, Option.bind_eq_bind, Option.bind_some, Option.pure_def]

theorem num_le_of_sane (hs : Sane kc) : kc.num ≤ 2 ^ 31 := by
  have hfits := hs.fits
  have horder : 2 ^ kc.gfporder ≤ 2 ^ 10 :=
    Nat.pow_le_pow_right (by norm_num) (Nat.le_of_lt_succ hs.order)
  have hmul : kc.num * 4 ≤ kc.num * kc.objsize := Nat.mul_le_mul_left _ hs.objsize
  unfold pageSize at hfits
  omega

theorem Filled.slabCells {m₀ m : ℕ → Cell} {s' : Kernel}
    (h : Filled m₀ m ⟨off, base p + off, 0, 0, 0⟩ d (objectsAt (W.kc c) (base p + off)))
    (hmem : ∀ a, a ≠ c → s'.mem a = m a) (hdc : d ≠ c)
    (hcl : c ∉ objectsAt (W.kc c) (base p + off)) :
    SlabCells s' (W.addSlab c d p off (objectsAt (W.kc c) (base p + off))) c d := by
  have hself : (W.addSlab c d p off (objectsAt (W.kc c) (base p + off))).free d =
      objectsAt (W.kc c) (base p + off) := update_self _ _ _
  have hoff : (W.addSlab c d p off (objectsAt (W.kc c) (base p + off))).colouroff d = off :=
    update_self _ _ _
  have hsmem : (W.addSlab c d p off (objectsAt (W.kc c) (base p + off))).sMem d = base p + off := by
    unfold Layout.sMem World.addSlab Layout.addSlab
    simp
  have hne : ∀ x ∈ objectsAt (W.kc c) (base p + off), x ≠ c := fun x hx hxc => hcl (hxc ▸ hx)
  refine ⟨?_, ?_, ?_, ?_⟩
  · rw [hmem d hdc, h.slab]
    unfold World.slabDesc
    rw [hself, hsmem, hoff, length_objectsAt]
    congr 2
    exact (Nat.sub_self _).symm
  · rw [hself]
    refine h.chain.congr fun x hx => ?_
    unfold word
    rw [hmem x (hne x hx)]
  · rw [hself]
    intro x hx
    rw [hmem x (hne x hx)]
    exact h.bytes x hx
  · rw [hself]
    intro x hx
    unfold Layout.Object
    rw [hsmem]
    exact mem_objectsAt.mp hx

theorem desc_addSlab_objectsAt (hnew : ∀ c' d', W.IsSlab c' d' → d' ≠ d) (hc : c ∈ W.caches) :
    { W.desc c with freeObjects := u32 ((W.desc c).freeObjects + (W.desc c).num) } =
      (W.addSlab c d p off (objectsAt (W.kc c) (base p + off))).desc c := by
  unfold World.desc
  rw [freeCount_addSlab hnew hc, length_objectsAt, u32_add_u32, Nat.add_comm]
  rfl

theorem sorts_addSlab_objectsAt (hnum : 0 < (W.kc c).num) :
    (W.addSlab c d p off (objectsAt (W.kc c) (base p + off))).Sorts c d .slabsFree := by
  unfold World.Sorts
  rw [show (W.addSlab c d p off (objectsAt (W.kc c) (base p + off))).free d = _ from
    update_self _ _ _, length_objectsAt]
  exact (kindOf_all hnum).symm

/-- The end of `cache_grow`: with the pages and the descriptor there, the slab is set up. -/
theorem setup_spec (g : Good s W B (Reserve R (W.kc c).gfporder p) held) (hc : c ∈ W.caches)
    (ht : Taken W.present (W.kc c).gfporder p R) (hfits : Fits (W.kc c) p off d)
    (hdesc : offSlab (W.kc c) = true → W.Placed W.slabCache d) (hu : W.Unused d)
    (hheld : d ∉ held.map Held.addr) (hd0 : d ≠ 0)
    (hne : ∀ i < (W.kc c).num, base p + off + i * (W.kc c).objsize ≠ d) {kc : KmemCache}
    {n₁ n₂ : ℕ} (hkc : kc = { W.kc c with freeObjects := n₁, colourNext := n₂ }) :
    ∃ s' W' B', setupSlab (initSlabDesc s d (base p) off) kc c d (base p) = some s' ∧
      W'.toShape = W.toShape ∧ Good s' W' B' R held ∧
      (∀ c' d', W.IsSlab c' d' → W'.free d' = W.free d') ∧ W'.Sorts c d .slabsFree ∧
      Moved W.caches B B' c d .slabsFree ∧
      ∀ c' d', W'.IsSlab c' d' → W.IsSlab c' d' ∨ c' = c ∧ d' = d := by
  subst hkc
  have hs := g.geometry.sane c hc
  have hnew : ∀ c' d', W.IsSlab c' d' → d' ≠ d := fun c' d' hd' h => hu.slab c' d' hd' h.symm
  have hcd : c ≠ d := fun h => hu.cache (h ▸ hc)
  have hlt := fun i hi => object_lt (i := i) hs ht g.pages.present_le hfits hi
  have hsm : base p + off < 2 ^ 32 := by simpa using hlt 0 hs.num
  have hbase := base_pos p
  unfold pageOffset at hbase
  -- the zone: the descriptors of the block lead back to the slab
  have hpages1 : Pages (initSlabDesc s d (base p) off) W.toLayout
      (Reserve R (W.kc c).gfporder p) := pages_congr g.pages rfl
  obtain ⟨z, hmap, hpages, hback⟩ := slabMapPages_spec
    { W.kc c with freeObjects := n₁, colourNext := n₂ } (c := c) (d := d) hpages1
    (virtToPage_base p)
  -- the memory: the descriptor, with the objects on its free list
  have hmemd : ({ initSlabDesc s d (base p) off with zone := z } : Kernel).mem d =
      .slab ⟨off, base p + off, 0, 0, 0⟩ := by
    rw [← u32_of_lt hsm]
    exact update_self _ _ _
  have hpos : 0 < (W.kc c).objsize := lt_of_lt_of_le (by norm_num) hs.objsize
  have hnum : (W.kc c).num ≤ 2 ^ 31 := num_le_of_sane hs
  obtain ⟨m, hinit, hfill⟩ := cacheInitObjs_spec
    { W.kc c with freeObjects := n₁, colourNext := n₂ } hd0 hs.ctor hpos
    (by simp only; omega) hnum hlt hne hmemd
  have hother : ∀ a, a ≠ d → a ∉ objectsAt (W.kc c) (base p + off) → m a = s.mem a := by
    intro a had hal
    rw [hfill.other a had hal]
    exact update_of_ne had _ _
  have hcl : c ∉ objectsAt (W.kc c) (base p + off) := fun hmem =>
    (unused_objectsAt g hc hfits hmem).1.cache hc
  have hread : readCache (listAddTail { initSlabDesc s d (base p) off with zone := z, mem := m }
      (Link.list c .slabsFree) (Link.slab d)) c = some (W.desc c) := by
    refine readCache_of_mem (g.cache_ne_zero hc) ?_
    change m c = _
    rw [hother c hcd hcl, g.cells.cache c hc]
  -- the end state, with the count of free objects in the descriptor of the cache
  have hrun := setupSlab_eq hmap hinit hread
  rw [desc_addSlab_objectsAt hnew hc] at hrun
  obtain ⟨B', hgood, hmoved⟩ := good_addSlab
    (store (listAddTail { initSlabDesc s d (base p) off with zone := z, mem := m }
      (Link.list c .slabsFree) (Link.slab d)) c
      (.cache ((W.addSlab c d p off (objectsAt (W.kc c) (base p + off))).desc c)))
    g hc ht hfits hdesc hu hheld rfl rfl rfl rfl (pages_congr hpages rfl) hback
    (update_self _ _ _)
    (hfill.slabCells (fun a hac => update_of_ne hac _ _) hcd.symm hcl)
    (fun a hac had hal => (update_of_ne hac _ _).trans (hother a had hal))
  exact ⟨_, W.addSlab c d p off (objectsAt (W.kc c) (base p + off)), B', hrun, rfl, hgood,
    fun c' d' hd' => free_addSlab hnew hd', sorts_addSlab_objectsAt hs.num, hmoved,
    fun c' d' => (isSlab_addSlab hc).mp⟩

/-! ### The callback -/

/-- The result of a request for an object of the cache `c`: the object, which the caller has then,
or NULL. The caches are what they were. -/
def Allocated (W : World) (R : ℕ → Prop) (held : List Held) (c : ℕ) (r : Option (ℕ × Kernel)) : Prop :=
  ∃ x s' W' B', r = some (x, s') ∧ W'.toShape = W.toShape ∧ NoNewIdle W W' ∧ Sorted W' B' ∧
    ((x = 0 ∧ Good s' W' B' R held) ∨ (x ≠ 0 ∧ ∃ d, Good s' W' B' R (⟨x, c, d⟩ :: held)))

/-- The function serves requests for the caches whose slabs hold their own descriptors. -/
def ServesOn (alloc : Kernel → ℕ → Option (ℕ × Kernel)) : Prop :=
  ∀ {s W B R held}, Good s W B R held → Sorted W B → ∀ c ∈ W.caches, offSlab (W.kc c) = false →
    Allocated W R held c (alloc s c)

theorem good_tail {h : Held} (g : Good s W B R (h :: held)) : Good s W B R held := by
  obtain ⟨h1, h2, h3, h4, h5, h6, h7, h8⟩ := g
  refine ⟨h1, h2, h3, h4, ⟨fun o ho => h5 o (List.mem_cons_of_mem _ ho),
    fun o ho => h6 o (List.mem_cons_of_mem _ ho), fun o ho => h7 o (List.mem_cons_of_mem _ ho), ?_⟩⟩
  exact (List.nodup_cons.mp h8).2

theorem sorted_setup {W' : World} {B' : Queue → List ℕ} (hl : Lists s W.toLayout B)
    (hsort : Sorted W B) (hshape : W'.toShape = W.toShape)
    (hfree : ∀ c' d', W.IsSlab c' d' → W'.free d' = W.free d') (hd : W'.Sorts c d .slabsFree)
    (hB : Moved W.caches B B' c d .slabsFree) : Sorted W' B' := by
  have hcaches : W'.caches = W.caches := congrArg Shape.caches hshape
  have hkc : W'.kc = W.kc := congrArg Shape.kc hshape
  rw [← hcaches] at hB
  refine sorted_of_moved hB (fun c' hc' k e he _ => ?_) hd
  rw [hcaches] at hc'
  have hse := hsort c' hc' k e he
  unfold World.Sorts at hse ⊢
  rwa [hfree c' e (isSlab_of_mem hl hc' he), hkc]

theorem offset_le (g : Good s W B R held) (hc : c ∈ W.caches) :
    u32 (W.colourNext c * (W.kc c).colourOff) = W.colourNext c * (W.kc c).colourOff ∧
      W.colourNext c * (W.kc c).colourOff ≤ lastOffset (W.kc c) := by
  have hs := g.geometry.sane c hc
  have hle : W.colourNext c * (W.kc c).colourOff ≤ lastOffset (W.kc c) :=
    Nat.mul_le_mul_right _ (g.cells.colour c hc)
  have hfits := hs.fits
  have hpow : 2 ^ (W.kc c).gfporder ≤ 2 ^ 10 :=
    Nat.pow_le_pow_right (by norm_num) (Nat.le_of_lt_succ hs.order)
  unfold pageSize at hfits
  exact ⟨u32_of_lt (by omega), hle⟩

theorem nextColour_le (n colour : ℕ) :
    (if colour ≤ u32 (n + 1) then 0 else u32 (n + 1)) ≤ colour - 1 := by
  split_ifs with h
  · exact Nat.zero_le _
  · omega

/-! ### Growing -/

/-- The result of `cache_grow`: there is a slab on `slabs_free` when it succeeds, and `P` when it
fails. At most one slab of the cache, the new one, is idle that was not. -/
def Grown (W : World) (R : ℕ → Prop) (held : List Held) (c : ℕ) (P : Prop)
    (r : Option (Bool × Kernel)) : Prop :=
  ∃ b s' W' B', r = some (b, s') ∧ W'.toShape = W.toShape ∧ Good s' W' B' R held ∧ Sorted W' B' ∧
    (b = true → B' (.list c .slabsFree) ≠ []) ∧ (b = false → P) ∧
    ∃ e, ∀ c' d, W'.Idle c' d → W.Idle c' d ∨ b = true ∧ c' = c ∧ d = e

theorem idle_setup {W' : World} (hshape : W'.toShape = W.toShape)
    (hfree : ∀ c' d', W.IsSlab c' d' → W'.free d' = W.free d')
    (hslab : ∀ c' d', W'.IsSlab c' d' → W.IsSlab c' d' ∨ c' = c ∧ d' = d) {c' d' : ℕ}
    (h : W'.Idle c' d') : W.Idle c' d' ∨ c' = c ∧ d' = d := by
  obtain ⟨hd', hlen⟩ := h
  refine (hslab c' d' hd').imp_left fun hold => ⟨hold, ?_⟩
  rwa [hfree c' d' hold, congrFun (congrArg Shape.kc hshape) c'] at hlen

theorem grown_of_setup
    (g : Good s W B (Reserve R (W.kc c).gfporder p) held) (hsort : Sorted W B) (hc : c ∈ W.caches)
    (ht : Taken W.present (W.kc c).gfporder p R) (hfits : Fits (W.kc c) p off d)
    (hdesc : offSlab (W.kc c) = true → W.Placed W.slabCache d) (hu : W.Unused d)
    (hheld : d ∉ held.map Held.addr) (hd0 : d ≠ 0)
    (hne : ∀ i < (W.kc c).num, base p + off + i * (W.kc c).objsize ≠ d)
    (hkc : kc = { W.kc c with freeObjects := n₁, colourNext := n₂ }) :
    Grown W R held c False
      ((setupSlab (initSlabDesc s d (base p) off) kc c d (base p)).map fun s => (true, s)) := by
  obtain ⟨s', W', B', heq, hshape, hgood, hfree, hsorts, hmoved, hslab⟩ :=
    setup_spec g hc ht hfits hdesc hu hheld hd0 hne hkc
  rw [heq]
  refine ⟨true, s', W', B', rfl, hshape, hgood,
    sorted_setup g.lists hsort hshape hfree hsorts hmoved, fun _ hnil => ?_, by simp,
    d, fun c' d' h => (idle_setup hshape hfree hslab h).imp_right fun h' => ⟨rfl, h'⟩⟩
  have hmem := (hmoved.2 c hc .slabsFree d).mpr (by simp)
  rw [hnil] at hmem
  exact absurd hmem List.not_mem_nil

section Equations
variable {alloc : Kernel → ℕ → Option (ℕ × Kernel)} {s₁ : Kernel} {kc : KmemCache} {objp offset : ℕ}

theorem growAt_of_on (hon : offSlab kc = false) (h0 : u32 (objp + offset) ≠ 0) :
    growAt alloc s kc c objp offset =
      (setupSlab (initSlabDesc s (u32 (objp + offset)) objp (u32 (offset + kc.slabSize))) kc c
        (u32 (objp + offset)) objp).map fun s => (true, s) := by
  unfold growAt allocSlabmgmt
  rw [hon]
  simp only [Bool.false_eq_true, if_false, Option.bind_eq_bind, Option.bind_some, if_neg h0,
    Option.pure_def, Option.map_eq_bind, Function.comp_def]

theorem growAt_of_null (hoff : offSlab kc = true) (halloc : alloc s kc.slabpCache = some (0, s₁)) :
    growAt alloc s kc c objp offset = some (false, kmemFreepages s₁ kc objp) := by
  unfold growAt allocSlabmgmt
  rw [hoff, halloc]
  simp

theorem growAt_of_off (hoff : offSlab kc = true) (halloc : alloc s kc.slabpCache = some (d, s₁))
    (hd : d ≠ 0) : growAt alloc s kc c objp offset =
      (setupSlab (initSlabDesc s₁ d objp offset) kc c d objp).map fun s => (true, s) := by
  unfold growAt allocSlabmgmt
  rw [hoff, halloc]
  simp only [if_true, Option.bind_eq_bind, Option.bind_some, if_neg hd, Option.pure_def,
    Option.map_eq_bind, Function.comp_def]

theorem cacheGrow_of_null (hread : readCache s c = some kc)
    (hget : kmemGetpages (store s c (.cache (advanceColour kc))) kc = (0, s₁)) :
    cacheGrow alloc s c = some (false, s₁) := by
  unfold cacheGrow
  rw [hread]
  simp only [Option.bind_eq_bind, Option.bind_some, hget, Option.pure_def]

theorem cacheGrow_of_pages (hread : readCache s c = some kc)
    (hget : kmemGetpages (store s c (.cache (advanceColour kc))) kc = (objp, s₁)) (h0 : objp ≠ 0) :
    cacheGrow alloc s c = growAt alloc s₁ kc c objp (u32 (kc.colourNext * kc.colourOff)) := by
  unfold cacheGrow
  rw [hread]
  simp only [Option.bind_eq_bind, Option.bind_some, hget]

end Equations

theorem growAt_on (alloc : Kernel → ℕ → Option (ℕ × Kernel))
    (g : Good s W B (Reserve R (W.kc c).gfporder p) held) (hsort : Sorted W B) (hc : c ∈ W.caches)
    (ht : Taken W.present (W.kc c).gfporder p R) (hon : offSlab (W.kc c) = false)
    (hoff : off ≤ lastOffset (W.kc c)) (hcolour : ∃ j, off = j * (W.kc c).colourOff)
    (hkc : kc = { W.kc c with freeObjects := n₁, colourNext := n₂ }) :
    Grown W R held c False (growAt alloc s kc c (base p) off) := by
  have hs := g.geometry.sane c hc
  have hfits := hs.fits
  have hheader := hs.header hon
  have hble := block_le ht g.pages.present_le
  have hbase := base_pos p
  have hroom : headerSize (W.kc c) = (W.kc c).slabSize := by
    rw [headerSize, hon]
    rfl
  have hpos : 0 < (W.kc c).num * (W.kc c).objsize :=
    Nat.mul_pos hs.num (lt_of_lt_of_le (by norm_num) hs.objsize)
  unfold sizeofSlab at hheader
  have hd : u32 (base p + off) = base p + off := u32_of_lt (by omega)
  have hsize : kc.slabSize = (W.kc c).slabSize := by rw [hkc]
  have ho : u32 (off + kc.slabSize) = off + (W.kc c).slabSize := by
    rw [hsize]
    exact u32_of_lt (by omega)
  have hd0 : base p + off ≠ 0 := by
    unfold pageOffset at hbase
    omega
  have hkon : offSlab kc = false := by
    rw [hkc]
    exact hon
  obtain ⟨hu, hheld⟩ := unused_of_reserved g (x := base p + off) (by omega)
    (Or.inr (inBlock_virtToPage (by omega) (by omega)))
  rw [growAt_of_on hkon (by rwa [hd]), hd, ho]
  refine grown_of_setup g hsort hc ht
    ⟨by omega, ?_, fun h => ?_, fun _ => ⟨by omega, by omega⟩⟩ (fun h => ?_) hu hheld hd0
    (fun i _ => by omega) hkc
  · obtain ⟨j, rfl⟩ := hcolour
    exact ⟨j, by rw [hroom]⟩
  · exact absurd (hon.symm.trans h) (by simp)
  · exact absurd (hon.symm.trans h) (by simp)

theorem growAt_off {alloc : Kernel → ℕ → Option (ℕ × Kernel)}
    (halloc : ServesOn alloc) (g : Good s W B (Reserve R (W.kc c).gfporder p) held)
    (hsort : Sorted W B) (hc : c ∈ W.caches) (ht : Taken W.present (W.kc c).gfporder p R)
    (hoffs : offSlab (W.kc c) = true) (hoff : off ≤ lastOffset (W.kc c))
    (hcolour : ∃ j, off = j * (W.kc c).colourOff)
    (hkc : kc = { W.kc c with freeObjects := n₁, colourNext := n₂ }) :
    Grown W R held c True (growAt alloc s kc c (base p) off) := by
  obtain ⟨hsc, hslabp⟩ := g.geometry.slabp c hc hoffs
  have hkoff : offSlab kc = true := by
    rw [hkc]
    exact hoffs
  have hkslabp : kc.slabpCache = W.slabCache := by
    rw [hkc]
    exact hslabp
  obtain ⟨d, s₁, W₁, B₁, heq, hshape, hidle, hsort₁, hres⟩ :=
    halloc g hsort W.slabCache hsc (g.geometry.slabp_on hsc).1
  rw [← hkslabp] at heq
  -- the caches are what they were
  have hkc₁ : W₁.kc c = W.kc c := congrFun (congrArg Shape.kc hshape) c
  have hc₁ : c ∈ W₁.caches := by
    rw [congrArg Shape.caches hshape]
    exact hc
  have hpres : W₁.present = W.present := congrArg Shape.present hshape
  have hsc₁ : W₁.slabCache = W.slabCache := congrArg Shape.slabCache hshape
  rw [← hkc₁] at hres ht hoffs hoff hkc hcolour
  rw [← hpres] at ht
  rcases hres with ⟨rfl, g₁⟩ | ⟨hd0, e, g₁⟩
  · -- without a descriptor the pages go back
    have hord : kc.gfporder = (W₁.kc c).gfporder := by rw [hkc]
    have hpages := g₁.pages
    rw [← hord] at hpages ht
    obtain ⟨z, hfree, hpages'⟩ := kmemFreepages_spec _ _ hpages
      (by rw [hord]; exact (g₁.geometry.sane c hc₁).order) ht (virtToPage_base p)
    rw [growAt_of_null hkoff heq, hfree]
    exact ⟨false, _, W₁, B₁, rfl, hshape, good_rezone g₁ hpages', hsort₁, by simp, by simp,
      0, fun c' d' h => Or.inl (hidle c' d' h)⟩
  · have hs := g₁.geometry.sane c hc₁
    have hfits := hs.fits
    have hfirst := hs.first hoffs
    have hroom : headerSize (W₁.kc c) = 0 := by
      rw [headerSize, hoffs]
      rfl
    have hnd := g₁.holding.nodup
    rw [List.map_cons, List.nodup_cons] at hnd
    have hfit : Fits (W₁.kc c) p off d :=
      ⟨by omega, by rw [hroom]; exact hcolour, fun _ => by omega,
        fun h => absurd (hoffs.symm.trans h) (by simp)⟩
    have hplaced : W₁.Placed W₁.slabCache d := by
      rw [hsc₁]
      exact ⟨e, g₁.holding.slab _ List.mem_cons_self, g₁.holding.object _ List.mem_cons_self⟩
    have hne : ∀ i < (W₁.kc c).num, base p + off + i * (W₁.kc c).objsize ≠ d := fun i hi hid =>
      (unused_objectsAt g₁ hc₁ hfit (mem_objectsAt.mpr ⟨i, hi, rfl⟩)).2 (by rw [hid]; simp)
    obtain ⟨b, s', W', B', heq', hshape', g', hsort', hb, -, e', he'⟩ :=
      grown_of_setup (good_tail g₁) hsort₁ hc₁ ht hfit
      (fun _ => hplaced) (g₁.holding.unused _ List.mem_cons_self) hnd.1 hd0 hne hkc
    rw [growAt_of_off hkoff heq hd0]
    exact ⟨b, s', W', B', heq', hshape'.trans hshape, g', hsort', hb, fun _ => trivial,
      e', fun c' d' h => (he' c' d' h).imp_left (hidle c' d')⟩

theorem grown_of_shape {W₁ : World} {P Q : Prop} {r : Option (Bool × Kernel)}
    (h : W₁.toShape = W.toShape) (hidle : NoNewIdle W W₁) (hPQ : P → Q)
    (hr : Grown W₁ R held c P r) : Grown W R held c Q r := by
  obtain ⟨b, s', W', B', heq, hshape, g', hsort', hb, hP, e, he⟩ := hr
  exact ⟨b, s', W', B', heq, hshape.trans h, g', hsort', hb, fun hf => hPQ (hP hf),
    e, fun c' d h' => (he c' d h').imp_left (hidle c' d)⟩

theorem good_advanceColour (g : Good s W B R held) (hc : c ∈ W.caches) :
    ∃ n, Good (store s c (.cache (advanceColour (W.desc c)))) (W.setColour c n) B R held :=
  ⟨_, good_setColour g hc (nextColour_le (W.colourNext c) (W.kc c).colour)⟩

/-- The beginning of `cache_grow`: there are no pages, or the slab is made on them. -/
theorem cacheGrow_pages (alloc : Kernel → ℕ → Option (ℕ × Kernel)) (g : Good s W B R held)
    (hc : c ∈ W.caches) : ∃ n s₀, s₀ = store s c (.cache (advanceColour (W.desc c))) ∧
      Good s₀ (W.setColour c n) B R held ∧
      ((allocateBlock s.zone (W.kc c).gfporder = (none, s.zone) ∧
        cacheGrow alloc s c = some (false, s₀)) ∨
      ∃ p z s₁, allocateBlock s.zone (W.kc c).gfporder = (some p, z) ∧
        s₁ = { s₀ with zone := setPagesSlab z p (2 ^ (W.kc c).gfporder) } ∧
        Taken W.present (W.kc c).gfporder p R ∧
        Good s₁ (W.setColour c n) B (Reserve R (W.kc c).gfporder p) held ∧
        cacheGrow alloc s c = growAt alloc s₁ (W.desc c) c (base p)
          (W.colourNext c * (W.kc c).colourOff)) := by
  obtain ⟨n, g₀⟩ := good_advanceColour g hc
  have hread := g.readCache hc
  refine ⟨n, _, rfl, g₀, ?_⟩
  rcases kmemGetpages_spec g₀.pages (W.desc c) with ⟨heq, hnone⟩ | ⟨p, z, hab, heq, ht, hpages⟩
  · exact .inl ⟨hnone, cacheGrow_of_null hread heq⟩
  · have hp0 : base p ≠ 0 := by
      have := base_pos p
      unfold pageOffset at this
      omega
    refine .inr ⟨p, z, _, hab, rfl, ht, good_rezone g₀ hpages, ?_⟩
    rw [cacheGrow_of_pages hread heq hp0, ← (offset_le g hc).1]
    rfl

/-- **`cache_grow`** adds a slab, or fails for want of pages or of a descriptor. -/
theorem cacheGrow_spec {alloc : Kernel → ℕ → Option (ℕ × Kernel)} (g : Good s W B R held)
    (hsort : Sorted W B) (hc : c ∈ W.caches) (halloc : offSlab (W.kc c) = true → ServesOn alloc) :
    Grown W R held c
      (offSlab (W.kc c) = true ∨ allocateBlock s.zone (W.kc c).gfporder = (none, s.zone))
      (cacheGrow alloc s c) := by
  -- the next colour is all that the world before has to change
  have hshape : ∀ n, (W.setColour c n).toShape = W.toShape := fun _ => rfl
  have hidle : ∀ n, NoNewIdle W (W.setColour c n) := fun _ _ _ h => h
  have hsort₁ : ∀ n, Sorted (W.setColour c n) B := fun _ => hsort
  obtain ⟨n, s₀, -, g₀, ⟨hnone, hgrow⟩ | ⟨p, z, s₁, -, -, ht, g₁, hgrow⟩⟩ := cacheGrow_pages alloc g hc
  · rw [hgrow]
    exact ⟨false, _, W.setColour c n, B, rfl, hshape n, g₀, hsort₁ n, by simp, fun _ => Or.inr hnone,
      0, fun c' d h => Or.inl (hidle n c' d h)⟩
  · rw [hgrow]
    have hoff := (offset_le g hc).2
    rcases honoff : offSlab (W.kc c)
    · exact grown_of_shape (hshape n) (hidle n) False.elim
        (growAt_on (W := W.setColour c n) alloc g₁ (hsort₁ n) hc ht honoff hoff ⟨_, rfl⟩ rfl)
    · exact grown_of_shape (hshape n) (hidle n) (fun _ => Or.inl rfl)
        (growAt_off (W := W.setColour c n) (halloc honoff) g₁ (hsort₁ n) hc ht honoff hoff ⟨_, rfl⟩ rfl)

end YegaKernel.Slab.Grow
