import YegaKernel.Slab.Alloc

/-! # `kmem_cache_free`

The page descriptors lead from an object to its slab. The object goes back on the free list; a slab
that has no object in use then is kept on `slabs_free`, or destroyed when the cache has more free
objects than its limit, and a slab that was full goes to `slabs_partial`. -/

namespace YegaKernel.Slab.Free

open Lib.Links Lib.Word
open Buddy.State (Node pageSize)
open Buddy.FreeBlocks
open Slab.State Slab.Ops Slab.Invariant Slab.Queues
open Slab.Objects Slab.PageOps Slab.Worlds Slab.Grow
open Slab.Alloc

variable {s : Kernel} {W W₀ : World} {B : Queue → List ℕ} {R : ℕ → Prop} {held : List Held}
variable {c d x : ℕ}

/-! ### From the object to its slab -/

theorem pageCache_eq (g : Good s W B R held) (hd : W.IsSlab c d) (hx : W.Object c d x) :
    pageCache s x = some c := by
  have hback := (g.pages.back c d hd _ (g.geometry.object_inSlab hd hx)).1
  change asAddr (s.zone.links (Node.lru (virtToPage x))).next = some c
  rw [hback]
  rfl

theorem virtToSlab_eq (g : Good s W B R held) (hd : W.IsSlab c d) (hx : W.Object c d x) :
    virtToSlab s x = some d := by
  have hhead := (g.pages.back c d hd _ (g.geometry.object_inSlab hd hx)).2
  have hback := (g.pages.back c d hd (W.page d) (inBlock_start _ _)).1
  unfold virtToSlab virtToHeadPage
  rw [hhead]
  change asAddr (s.zone.links (Node.lru (W.page d))).prev = some d
  rw [hback]
  rfl

/-! ### Destroying a slab -/

/-- The result of giving an object back. -/
def Freed (W : World) (R : ℕ → Prop) (held : List Held) (r : Option Kernel) : Prop :=
  ∃ s' W' B', r = some s' ∧ W'.toShape = W.toShape ∧ IdleWithin W W' ∧ Sorted W' B' ∧
    Good s' W' B' R held

/-- The function takes back objects of caches whose slabs hold their own descriptors. -/
def FreesOn (free : Kernel → ℕ → ℕ → Option Kernel) : Prop :=
  ∀ {s W B R held c x d}, Good s W B R (⟨x, c, d⟩ :: held) → Sorted W B →
    offSlab (W.kc c) = false → Freed W R held (free s c x)

theorem freed_of_shape {W₁ : World} {r : Option Kernel} (h : W₁.toShape = W.toShape)
    (hidle : NoNewIdle W W₁) (hr : Freed W₁ R held r) : Freed W R held r := by
  obtain ⟨s', W', B', heq, hshape, hwithin, hrest⟩ := hr
  exact ⟨s', W', B', heq, hshape.trans h, fun c d h => (hwithin c d h).imp_left (hidle c d), hrest⟩

theorem sorted_removeSlab {B' : Queue → List ℕ} (hsort : SortedBut W B d)
    (hun : Unlinked W.caches B B' d) : Sorted (W.removeSlab c d) B' := by
  intro c' hc' k e he
  obtain ⟨hne, he⟩ := (hun.2 c' hc' k e).mp he
  exact hsort c' hc' k e he hne

theorem good_cons_desc (g : Good s W B R held) (hd : W.IsSlab c d) (hoff : offSlab (W.kc c) = true)
    (hfull : (W.free d).length = (W.kc c).num) {s' : Kernel} {B' : Queue → List ℕ} {R' : ℕ → Prop}
    (g' : Good s' (W.removeSlab c d) B' R' held) :
    ∃ e, Good s' (W.removeSlab c d) B' R' (⟨d, W.slabCache, e⟩ :: held) := by
  have hnot : ∀ {c' d'}, W.IsSlab c' d' → d ∉ W.free d' := fun hd' hmem =>
    g.free_ne_slab hd' hmem hd rfl
  obtain ⟨e, he, hobj⟩ := placed_removeSlab g hd hfull (g.geometry.desc c d hd hoff) (hnot hd)
  have hold : ∀ {c' d'}, (W.removeSlab c d).IsSlab c' d' → W.IsSlab c' d' ∧ d' ≠ d :=
    (isSlab_removeSlab g hd).mp
  have hunused : (W.removeSlab c d).Unused d :=
    ⟨fun hc => g.cache_ne_slab hc hd rfl, fun c' d' hd' => (hold hd').2.symm,
      fun c' d' hd' => hnot (hold hd').1⟩
  refine ⟨e, g'.geometry, g'.pages, g'.cells, g'.lists, ?_⟩
  refine ⟨List.forall_mem_cons.mpr ⟨he, g'.holding.slab⟩,
    List.forall_mem_cons.mpr ⟨hobj, g'.holding.object⟩,
    List.forall_mem_cons.mpr ⟨hunused, g'.holding.unused⟩, List.nodup_cons.mpr ⟨?_, g'.holding.nodup⟩⟩
  intro hmem
  obtain ⟨h, hh, heq⟩ := List.mem_map.mp hmem
  exact (g.holding.unused h hh).slab c d hd heq

/-- The address that `slab_destroy` gives to `kmem_freepages` is in the first page of the slab. -/
theorem virtToPage_sMem (g : Good s W B R held) (hd : W.IsSlab c d)
    (hoff : offSlab (W.kc c) = true) : virtToPage (W.sMem d) = W.page d := by
  have hlt := (g.geometry.fits c d hd).off hoff
  have h := inBlock_virtToPage (k := 0) (p := W.page d) (x := W.sMem d) (Nat.le_add_right _ _)
    (by unfold Layout.sMem; omega)
  unfold InBlock at h
  omega

theorem sub32_sMem (g : Good s W B R held) (hd : W.IsSlab c d) :
    sub32 (W.sMem d) (W.colouroff d) = base (W.page d) := by
  have hfit := (g.geometry.fits c d hd).objects
  have hble := block_le (taken_of_slab g hd) g.pages.present_le
  have hs := g.geometry.sane c hd.1
  have hpos : 0 < (W.kc c).num * (W.kc c).objsize :=
    Nat.mul_pos hs.num (lt_of_lt_of_le (by norm_num) hs.objsize)
  unfold Layout.sMem
  rw [sub32_of_le (by omega) (by omega)]
  omega

theorem desc_removeSlab (hd : W.IsSlab c d)
    (hfull : (W.free d).length = (W.kc c).num) :
    ({ W.desc c with freeObjects := sub32 (W.desc c).freeObjects (W.desc c).num } : KmemCache) =
      (W.removeSlab c d).desc c := by
  have hcount := freeCount_removeSlab hd.2
  have hsub : sub32 (u32 (W.freeCount c)) (W.kc c).num = u32 ((W.removeSlab c d).freeCount c) := by
    unfold sub32 u32
    omega
  unfold World.desc
  rw [← hsub]
  rfl

variable {free : Kernel → ℕ → ℕ → Option Kernel}

/-- **`slab_destroy`**, with the steps of `kmem_cache_free` in front of it: the slab is unlinked and
its objects are not counted any more. `W₀` is the world before the call. -/
theorem destroy_spec (g : Good s W B R held)
    (hd : W.IsSlab c d) (hsort : SortedBut W B d) (hfull : (W.free d).length = (W.kc c).num)
    (hshape : W.toShape = W₀.toShape) (hidle : ∀ c' d', W.Idle c' d' → d' ≠ d → W₀.Idle c' d')
    (hfree : offSlab (W.kc c) = true → FreesOn free) :
    Freed W₀ R held (slabDestroy free (store (listDel Link.null s (Link.slab d)) c
      (.cache { W.desc c with freeObjects := sub32 (W.desc c).freeObjects (W.desc c).num })) c d) := by
  have hs := g.geometry.sane c hd.1
  have hcd := g.cache_ne_slab hd.1 hd
  obtain ⟨B', g', hun⟩ := good_removeSlab g hd hfull
  rw [desc_removeSlab hd hfull]
  have hsort' : Sorted (W.removeSlab c d) B' := sorted_removeSlab hsort hun
  have hreadc := g'.readCache hd.1
  have hreadd : readSlab (store (listDel Link.null s (Link.slab d)) c
      (.cache ((W.removeSlab c d).desc c))) d = some (W.slabDesc c d) := by
    refine readSlab_of_mem (g.slab_ne_zero hd) ?_
    rw [store_mem, Function.update_of_ne hcd.symm]
    exact g.cells.slab c d hd
  have ht := taken_of_slab g hd
  refine freed_of_shape ((show (W.removeSlab c d).toShape = W.toShape from rfl).trans hshape)
    (fun c' d' h => ?_) ?_
  · obtain ⟨hold, hne⟩ := (isSlab_removeSlab g hd).mp h.1
    exact hidle c' d' ⟨hold, h.2⟩ hne
  unfold slabDestroy
  rw [hreadc, hreadd]
  simp only [Option.bind_eq_bind, Option.bind_some]
  have hdtor : ((W.removeSlab c d).desc c).dtor = 0 := hs.dtor
  have hoffs : offSlab ((W.removeSlab c d).desc c) = offSlab (W.kc c) := rfl
  rw [if_neg (not_not_intro hdtor), hoffs]
  rcases hoff : offSlab (W.kc c)
  · obtain ⟨z, hz, hpages⟩ := kmemFreepages_spec ((W.removeSlab c d).desc c)
      (sub32 (W.slabDesc c d).sMem (W.slabDesc c d).colouroff) g'.pages hs.order ht
      ((congrArg virtToPage (sub32_sMem g hd)).trans (virtToPage_base _))
    rw [hz]
    exact ⟨_, W.removeSlab c d, B', rfl, rfl, fun _ _ h => Or.inl h, hsort', good_rezone g' hpages⟩
  · obtain ⟨z, hz, hpages⟩ := kmemFreepages_spec ((W.removeSlab c d).desc c)
      (W.slabDesc c d).sMem g'.pages hs.order ht (virtToPage_sMem g hd hoff)
    rw [hz]
    obtain ⟨e, g''⟩ := good_cons_desc g hd hoff hfull (good_rezone g' hpages)
    obtain ⟨hsc, hslabp⟩ := g.geometry.slabp c hd.1 hoff
    have hcache : ((W.removeSlab c d).desc c).slabpCache = W.slabCache := hslabp
    rw [hcache]
    exact hfree hoff g'' hsort' (g.geometry.slabp_on hsc).1

/-! ### What becomes of the slab -/

/-- **The end of `kmem_cache_free`**: the slab, which the object has gone back to, is settled. `W₀` is
the world before the call. -/
theorem settleSlab_spec {wasFull : Bool}
    (g : Good s W B R held) (hd : W.IsSlab c d) (hsort : SortedBut W B d)
    (hpos : 0 < (W.free d).length) (hfull : wasFull = true ↔ (W.free d).length = 1)
    (hkept : wasFull = false → d ∈ B (.list c .slabsPartial))
    (hshape : W.toShape = W₀.toShape) (hidle : ∀ c' d', W.Idle c' d' → d' ≠ d → W₀.Idle c' d')
    (hfree : offSlab (W.kc c) = true → FreesOn free) :
    Freed W₀ R held (settleSlab free s c d wasFull) := by
  have hle := length_le_num (g.free_nodup hd) (g.cells.object c d hd)
  have hread := g.readSlab hd
  have hinuse : (W.slabDesc c d).inuse = (W.kc c).num - (W.free d).length := rfl
  unfold settleSlab
  rw [hread]
  simp only [Option.bind_eq_bind, Option.bind_some, hinuse]
  by_cases hall : (W.free d).length = (W.kc c).num
  · rw [if_pos (by omega)]
    have hreadc : readCache (listDel Link.null s (Link.slab d)) c = some (W.desc c) :=
      readCache_of_mem (g.cache_ne_zero hd.1) (g.cells.cache c hd.1)
    rw [hreadc]
    simp only [Option.bind_some]
    split_ifs with hlimit
    · exact destroy_spec g hd hsort hall hshape hidle hfree
    · obtain ⟨B', hlists, hmoved⟩ := lists_moveFront g.lists hd .slabsFree
      refine ⟨_, W, B', rfl, hshape, fun c' d' h => ?_, sorted_of_moved hmoved hsort ?_,
        good_relink g hlists rfl rfl rfl rfl⟩
      · by_cases hne : d' = d
        · subst hne
          obtain rfl := g.pages.cache_unique hd h.1
          exact Or.inr (Nat.le_of_not_lt hlimit)
        · exact Or.inl (hidle c' d' h hne)
      · rw [World.Sorts, hall]
        exact (kindOf_all (by omega)).symm
  · rw [if_neg (by omega)]
    have hk : W.Sorts c d .slabsPartial := (kindOf_between hpos (by omega)).symm
    have hwithin : IdleWithin W₀ W := by
      refine fun c' d' h => Or.inl (hidle c' d' h ?_)
      rintro rfl
      obtain rfl := g.pages.cache_unique hd h.1
      exact hall h.2
    cases wasFull with
    | true =>
      obtain ⟨B', hlists, hmoved⟩ := lists_moveBack g.lists hd .slabsPartial
      exact ⟨_, W, B', rfl, hshape, hwithin, sorted_of_moved hmoved hsort hk,
        good_relink g hlists rfl rfl rfl rfl⟩
    | false =>
      exact ⟨s, W, B, rfl, hshape, hwithin,
        sorted_of_sortedBut g.lists hd.1 (hkept rfl) hsort hk, g⟩

/-- **`kmem_cache_free`**, with the nested calls for `free`. -/
theorem cacheFree_spec (g : Good s W B R (⟨x, c, d⟩ :: held)) (hsort : Sorted W B)
    (hfree : offSlab (W.kc c) = true → FreesOn free) : Freed W R held (cacheFree free s c x) := by
  have hd : W.IsSlab c d := g.holding.slab _ List.mem_cons_self
  have hx : W.Object c d x := g.holding.object _ List.mem_cons_self
  have hle := length_le_num (g.free_nodup hd) (g.cells.object c d hd)
  obtain ⟨s₁, hput, hread, -, g₁⟩ := slabPutObj_spec g
  have hself : (W.setFree d (x :: W.free d)).free d = x :: W.free d := W.setFree_self d _
  unfold cacheFree
  rw [virtToSlab_eq g hd hx]
  simp only [Option.bind_eq_bind, Option.bind_some]
  rw [g.readSlab hd, Option.bind_some, g.readCache hd.1, Option.bind_some, hput, Option.bind_some, hread,
    Option.bind_some]
  refine settleSlab_spec g₁ hd (sortedBut_setFree (sortedBut_of_sorted hsort d)) ?_ ?_ ?_ rfl
    (fun c' d' h hne => ⟨h.1, (congrArg List.length (W.setFree_of_ne hne _)).symm.trans h.2⟩) hfree
  · simp
  · rw [hself, decide_eq_true_iff, List.length_cons]
    change (W.kc c).num - (W.free d).length = (W.kc c).num ↔ _
    omega
  · intro hnot
    rw [decide_eq_false_iff_not] at hnot
    change ¬ (W.kc c).num - (W.free d).length = (W.kc c).num at hnot
    -- the slab had free objects and one in use, the object that comes back
    obtain ⟨-, k, hk⟩ := (isSlab_iff g.lists).mp hd
    have hlt : (W.free d).length < (W.kc c).num := by
      refine lt_of_le_of_ne hle fun heq => ?_
      exact (g.holding.unused _ List.mem_cons_self).free c d hd
        (mem_of_length (g.free_nodup hd) (g.cells.object c d hd) heq hx)
    have hkind := hsort c hd.1 k d hk
    rw [World.Sorts, kindOf_between (by omega) hlt] at hkind
    rwa [hkind] at hk

theorem freesOn_kmemCacheFree (depth : ℕ) : FreesOn (kmemCacheFree (depth + 1)) := by
  intro s W B R held c x d g hsort hon
  exact cacheFree_spec g hsort fun hoff => absurd (hon.symm.trans hoff) (by simp)

/-- **`kmem_cache_free`** takes back an object of any cache. -/
theorem kmemCacheFree_spec (g : Good s W B R (⟨x, c, d⟩ :: held)) (hsort : Sorted W B) :
    Freed W R held (kmemCacheFree callDepth s c x) :=
  cacheFree_spec g hsort fun _ => freesOn_kmemCacheFree 0

end YegaKernel.Slab.Free
