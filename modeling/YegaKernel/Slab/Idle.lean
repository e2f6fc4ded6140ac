import YegaKernel.Slab.Create
import YegaKernel.Slab.Apart

/-! # Caches do not hoard

A slab is idle when all its objects are free. Only `kmem_cache_free` makes a slab idle that was not,
and it keeps the slab only if the cache counts no more free objects than its limit, which is the
number of objects of one slab. So a cache has one idle slab at most (`Sparse`). -/

namespace YegaKernel.Slab.Idle

open Lib.Word
open Slab.State Slab.Ops Slab.Invariant Slab.Apart Function

/-- **The parameters that `kmem_cache_create` sets**: the limit of a cache is one slab, and the slabs of
the cache of slab descriptors are single pages. -/
structure Regular (S : Shape) : Prop where
  limit : ∀ c ∈ S.caches, (S.kc c).freeLimit = (S.kc c).num
  order : S.slabCache ∈ S.caches → (S.kc S.slabCache).gfporder = 0

/-- **A cache has one idle slab at most.** -/
def Sparse (W : World) : Prop := ∀ c d d', W.Idle c d → W.Idle c d' → d = d'

structure Tidy (W : World) : Prop where
  regular : Regular W.toShape
  sparse : Sparse W

variable {s : Kernel} {W W' : World} {B : Queue → List ℕ} {R : ℕ → Prop} {held : List Held}
variable {c d d' : ℕ} {kc : KmemCache} {S : Shape}

/-! ### Counting -/

theorem two_mul_num_le (hd : W.Idle c d) (hd' : W.Idle c d') (hne : d ≠ d') :
    2 * (W.kc c).num ≤ W.freeCount c := by
  have hperm := (List.perm_cons_erase hd.1.2).map fun d => (W.free d).length
  have hmem : d' ∈ (W.slabs c).erase d := (List.mem_erase_of_ne (Ne.symm hne)).mpr hd'.1.2
  have hle := List.le_sum_of_mem (List.mem_map_of_mem (f := fun d => (W.free d).length) hmem)
  have hlen := hd.2
  have hlen' := hd'.2
  rw [World.freeCount, hperm.sum_eq, List.map_cons, List.sum_cons]
  omega

theorem sparse_of_within (hreg : Regular W'.toShape) (hs : Sparse W) (hw : IdleWithin W W')
    (g : Good s W' B R held) : Sparse W' := by
  intro c d d' hd hd'
  by_contra hne
  have htwo := two_mul_num_le hd hd' hne
  have hlimit := hreg.limit c hd.1.1
  have hnum := (g.geometry.sane c hd.1.1).num
  have hcount : (W'.desc c).freeObjects = W'.freeCount c := u32_of_lt (freeCount_lt g hd.1.1)
  have hover : ¬ (W'.desc c).freeObjects ≤ (W'.desc c).freeLimit := by
    rw [hcount, show (W'.desc c).freeLimit = (W'.kc c).num from hlimit]
    omega
  exact hne (hs c d d' ((hw c d hd).resolve_right hover) ((hw c d' hd').resolve_right hover))

theorem within_of_noNewIdle (h : NoNewIdle W W') : IdleWithin W W' := fun c d hd => Or.inl (h c d hd)

/-! ### Calls -/

theorem Regular.addCache (h : Regular S) (hc : c ∉ S.caches) (hc0 : c ≠ 0)
    (hsc : S.slabCache = 0 ∨ S.slabCache ∈ S.caches) (hkc : kc.freeLimit = kc.num) :
    Regular (S.addCache c kc) where
  limit c' hc' := by
    change (update S.kc c kc c').freeLimit = (update S.kc c kc c').num
    rcases List.mem_cons.mp hc' with rfl | hc'
    · rwa [update_self]
    · rw [update_of_ne (ne_of_mem_of_not_mem hc' hc)]
      exact h.limit c' hc'
  order hmem := by
    change (update S.kc c kc S.slabCache).gfporder = 0
    -- the cache of slab descriptors is not the new cache
    have hold : S.slabCache ∈ S.caches := by
      rcases List.mem_cons.mp hmem with heq | hmem
      · exact hsc.resolve_left fun h0 => hc0 (heq.symm.trans h0)
      · exact hmem
    rw [update_of_ne (ne_of_mem_of_not_mem hold hc)]
    exact h.order hold

theorem Tidy.of_shape (h : Tidy W) (hshape : W'.toShape = W.toShape) (hw : IdleWithin W W')
    (g : Good s W' B R held) : Tidy W' := by
  have hreg : Regular W'.toShape := hshape ▸ h.regular
  exact ⟨hreg, sparse_of_within hreg h.sparse hw g⟩

theorem Tidy.of_addCache (h : Tidy W) (hshape : W'.toShape = W.toShape.addCache c kc)
    (hc : c ∉ W.caches) (hc0 : c ≠ 0) (hsc : W.slabCache = 0 ∨ W.slabCache ∈ W.caches)
    (hkc : kc.freeLimit = kc.num) (hw : IdleWithin W W') (g : Good s W' B R held) : Tidy W' := by
  have hreg : Regular W'.toShape := hshape ▸ h.regular.addCache hc hc0 hsc hkc
  exact ⟨hreg, sparse_of_within hreg h.sparse hw g⟩

end YegaKernel.Slab.Idle
