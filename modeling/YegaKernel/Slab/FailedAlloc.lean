import YegaKernel.Slab.Run

/-! # Failed allocations

`kmem_cache_alloc` fails when the zone has no block for a new slab, or when the nested call has no
descriptor for it; in the second case the block goes back. Nothing but `colour_next` is changed then
(`noTrace_of_suits`): the nested call fails only if no page is free, so the block was the only one in the
zone and was not split, and `free_block` puts it back as it was.

`setup_paging` maps the low memory, so a read through NULL does not fault: the functions here have the
word at address 0 as a parameter, and agree with those of `Slab.Ops` where these return
(`kmemCacheAllocAt_of_some`). For a cache whose slabs hold no object NULL is returned although a slab
has been made (`trace_createActions`). -/

namespace YegaKernel.Slab.FailedAlloc

open Relation (ReflTransGen)
open Lib.Links Lib.Word
open Buddy.State (Zone Node Page setPageSlab clearPageSlab)
open Buddy.Ops (allocateBlock freeBlock)
open Buddy.FreeBlocks Buddy.Represent Buddy.Spec
open Buddy.Undo
open Buddy.Run (BuddyInvariant)
open Slab.State Slab.Ops Slab.Invariant Slab.Queues
open Slab.PageOps Slab.Worlds Slab.Grow Slab.Alloc
open Slab.Idle Slab.Init Slab.Run Function

/-! ### With the low memory mapped -/

section Functions
variable (low : ℕ)

/-- `*(void **)p`, where `low` is the word at address 0. -/
def readWordAt (s : Kernel) (p : ℕ) : Option ℕ := if p = 0 then some low else readWord s p

/-- `slab_get_obj`. -/
def slabGetObjAt (s : Kernel) (c slabp : ℕ) : Option (ℕ × Kernel) := do
  let sd ← readSlab s slabp
  let objp := sd.freeList
  let next ← readWordAt low s objp
  let s := store s slabp (.slab { sd with freeList := next, inuse := u32 (sd.inuse + 1) })
  let kc ← readCache s c
  return (objp, store s c (.cache { kc with freeObjects := sub32 kc.freeObjects 1 }))

/-- The second part of `cache_alloc_refill`. -/
def takeObjectAt (s : Kernel) (c slabp : ℕ) : Option (ℕ × Kernel) := do
  let (objp, s) ← slabGetObjAt low s c slabp
  let sd ← readSlab s slabp
  if sd.freeList = 0 then
    let s := listDel Link.null s (Link.slab slabp)
    return (objp, listAdd s (Link.list c .slabsFull) (Link.slab slabp))
  else return (objp, s)

def cacheAllocRefillAt (alloc : Kernel → ℕ → Option (ℕ × Kernel)) (s : Kernel) (c : ℕ) :
    Option (ℕ × Kernel) := do
  match ← refillSlab alloc s c with
  | (none, s) => return (0, s)
  | (some slabp, s) => takeObjectAt low s c slabp

/-- `kmem_cache_alloc`, with calls nested at most to the given depth. -/
def kmemCacheAllocAt : ℕ → Kernel → ℕ → Option (ℕ × Kernel)
  | 0, _, _ => none
  | depth + 1, s, c => cacheAllocRefillAt low (kmemCacheAllocAt depth) s c

end Functions

variable {low : ℕ} {s s' : Kernel} {c d : ℕ}

theorem bind_of_some {α β : Type} {x y : Option α} {f g : α → Option β} {r : β}
    (hx : ∀ a, x = some a → y = some a) (hf : ∀ a, f a = some r → g a = some r)
    (h : x.bind f = some r) : y.bind g = some r := by
  obtain ⟨a, ha, hr⟩ := Option.bind_eq_some_iff.mp h
  exact Option.bind_eq_some_iff.mpr ⟨a, hx a ha, hf a hr⟩

theorem readWordAt_of_some {p w : ℕ} (h : readWord s p = some w) : readWordAt low s p = some w := by
  have h0 : p ≠ 0 := by
    rintro rfl
    simp [readWord] at h
  rw [readWordAt, if_neg h0, h]

theorem takeObjectAt_of_some {r : ℕ × Kernel} (h : takeObject s c d = some r) :
    takeObjectAt low s c d = some r := by
  refine bind_of_some (fun a ha => ?_) (fun _ => id) h
  refine bind_of_some (fun _ => id) (fun sd hsd => ?_) ha
  exact bind_of_some (fun w hw => readWordAt_of_some hw) (fun _ => id) hsd

section Extend
variable {alloc alloc' : Kernel → ℕ → Option (ℕ × Kernel)}
variable (hext : ∀ s c r, alloc s c = some r → alloc' s c = some r)
include hext

theorem growAt_of_extends {kc : KmemCache} {objp offset : ℕ} {r : Bool × Kernel}
    (h : growAt alloc s kc c objp offset = some r) : growAt alloc' s kc c objp offset = some r := by
  refine bind_of_some (fun a ha => ?_) (fun _ => id) h
  unfold allocSlabmgmt at ha ⊢
  split_ifs at ha ⊢
  · exact bind_of_some (fun b => hext _ _ b) (fun _ => id) ha
  · exact ha

theorem cacheGrow_of_extends {r : Bool × Kernel} (h : cacheGrow alloc s c = some r) :
    cacheGrow alloc' s c = some r := by
  refine bind_of_some (fun _ => id) (fun kc hkc => ?_) h
  simp only at hkc ⊢
  rcases hget : kmemGetpages (store s c (.cache (advanceColour kc))) kc with ⟨_ | n, s₁⟩
  · rw [hget] at hkc
    exact hkc
  · rw [hget] at hkc
    exact growAt_of_extends hext hkc

theorem refillSlab_of_extends {r : Option ℕ × Kernel} (h : refillSlab alloc s c = some r) :
    refillSlab alloc' s c = some r := by
  refine bind_of_some (fun _ => id) (fun kc hkc => ?_) h
  revert hkc
  simp only
  split_ifs
  · exact id
  · exact bind_of_some (fun a ha => cacheGrow_of_extends hext ha) (fun _ => id)
  · exact id

end Extend

/-- **Where the functions return that fault on NULL, the others return the same.** -/
theorem kmemCacheAllocAt_of_some : ∀ (depth : ℕ) (s : Kernel) (c : ℕ) (r : ℕ × Kernel),
    kmemCacheAlloc depth s c = some r → kmemCacheAllocAt low depth s c = some r
  | 0, _, _, _, h => by simp [kmemCacheAlloc] at h
  | depth + 1, s, c, r, h => by
    refine bind_of_some (fun a ha => refillSlab_of_extends (kmemCacheAllocAt_of_some depth) ha)
      (fun a ha => ?_) h
    rcases a with ⟨_ | d, s₁⟩
    · exact ha
    · exact takeObjectAt_of_some ha

/-! ### What is left unchanged -/

/-- The list heads and the slab descriptors are the same, and the descriptors of caches are but for
`colour_next`. -/
structure SameDescs (s k : Kernel) : Prop where
  links : k.links = s.links
  cache : ∀ c kc, readCache s c = some kc → ∃ n, readCache k c = some { kc with colourNext := n }
  slab : ∀ d, readSlab k d = readSlab s d

/-- **The call has left no trace**, but for `colour_next`: neither in the slab lists, nor in the
descriptors of caches and slabs, nor in the zone. -/
structure NoTrace (s k : Kernel) : Prop extends SameDescs s k where
  zone : Restored s.zone k.zone
  priv : ∀ q, (k.zone.pages q).priv = (s.zone.pages q).priv

theorem SameDescs.trans {k : Kernel} (h : SameDescs s s') (h' : SameDescs s' k) : SameDescs s k := by
  refine ⟨h'.links.trans h.links, fun c kc hkc => ?_, fun d => (h'.slab d).trans (h.slab d)⟩
  obtain ⟨n, hn⟩ := h.cache c kc hkc
  obtain ⟨n', hn'⟩ := h'.cache c { kc with colourNext := n } hn
  exact ⟨n', hn'⟩

theorem SameDescs.rezone (h : SameDescs s s') (z : Zone) : SameDescs s { s' with zone := z } :=
  ⟨h.links, h.cache, h.slab⟩

theorem sameDescs_advanceColour {kc : KmemCache} (h : readCache s c = some kc) :
    SameDescs s (store s c (.cache (advanceColour kc))) := by
  obtain ⟨hc0, hmem⟩ := mem_of_readCache h
  refine ⟨rfl, fun c' kc' hkc' => ?_, fun d => ?_⟩
  · by_cases heq : c' = c
    · subst heq
      obtain rfl := Option.some.inj (h.symm.trans hkc')
      exact ⟨_, readCache_of_mem hc0 (update_self _ _ _)⟩
    · refine ⟨kc'.colourNext, ?_⟩
      unfold readCache at hkc' ⊢
      rwa [store_mem, update_of_ne heq]
  · unfold readSlab
    by_cases heq : d = c
    · subst heq
      rw [store_mem, update_self, hmem]
    · rw [store_mem, update_of_ne heq]

/-! ### The zone -/

section Zone
variable {z z₁ : Zone} {L : ℕ → List ℕ} {order p : ℕ}

theorem foldl_priv {f : Zone → ℕ → Zone} (hf : ∀ z p, (f z p).freePages = z.freePages ∧
    ∀ q, ((f z p).pages q).priv = (z.pages q).priv) : ∀ (l : List ℕ) (z : Zone),
    (l.foldl f z).freePages = z.freePages ∧ ∀ q, ((l.foldl f z).pages q).priv = (z.pages q).priv
  | [], _ => ⟨rfl, fun _ => rfl⟩
  | p :: l, z => by
    obtain ⟨hfree, hpriv⟩ := foldl_priv hf l (f z p)
    exact ⟨hfree.trans (hf z p).1, fun q => (hpriv q).trans ((hf z p).2 q)⟩

theorem updPage_priv {f : Page → Page} (hf : ∀ pg, (f pg).priv = pg.priv) (z : Zone) (p : ℕ) :
    (z.updPage p f).freePages = z.freePages ∧
      ∀ q, ((z.updPage p f).pages q).priv = (z.pages q).priv := by
  refine ⟨rfl, fun q => ?_⟩
  change (update z.pages p (f (z.pages p)) q).priv = (z.pages q).priv
  by_cases h : q = p
  · subst h
    rw [update_self, hf]
  · rw [update_of_ne h]

theorem marked_priv (z : Zone) (p n : ℕ) :
    (clearPagesSlab (setPagesSlab z p n) p n).freePages = z.freePages ∧
      ∀ q, ((clearPagesSlab (setPagesSlab z p n) p n).pages q).priv = (z.pages q).priv := by
  obtain ⟨hfree, hpriv⟩ := foldl_priv (f := setPageSlab) (updPage_priv fun _ => rfl)
    (List.range' p n) z
  obtain ⟨hfree', hpriv'⟩ := foldl_priv (f := clearPageSlab) (updPage_priv fun _ => rfl)
    (List.range' p n) (setPagesSlab z p n)
  exact ⟨hfree'.trans hfree, fun q => (hpriv' q).trans (hpriv q)⟩

/-- **The block goes back as it was**: when no page is free behind `allocate_block`, it was the only
block, of just the order asked for, and `free_block` finds no buddy. -/
theorem restored_of_none (hr : Represents z L) (h : allocateBlock z order = (some p, z₁))
    (hnone : allocateBlock (setPagesSlab z₁ p (2 ^ order)) 0 =
      (none, setPagesSlab z₁ p (2 ^ order))) :
    Restored z (freeBlock (clearPagesSlab (setPagesSlab z₁ p (2 ^ order)) p (2 ^ order)) p order) ∧
      ∀ q, ((freeBlock (clearPagesSlab (setPagesSlab z₁ p (2 ^ order)) p (2 ^ order)) p
        order).pages q).priv = (z.pages q).priv := by
  obtain ⟨current, ps, htook⟩ := took_of_some hr h
  have hfresh : ∀ q, p ≤ q ∧ q < p + 2 ^ order → ¬ Covers (splitLists L order p current ps) q :=
    fun q hq hc => ((htook.covers q).mp hc).2 hq
  have hmarks := marks_setPagesSlab z₁ p (2 ^ order)
  have hmarks' := marks_clearPagesSlab (setPagesSlab z₁ p (2 ^ order)) p (2 ^ order)
  have hr₂ := represents_of_marks htook.rep hmarks hfresh
  have hr₃ := represents_of_marks hr₂ hmarks' hfresh
  -- the block was not split
  have hempty : ∀ k, splitLists L order p current ps k = [] := by
    rcases allocateBlock_spec hr₂ 0 with ⟨-, hall⟩ | ⟨p', z', L', heq, -⟩
    · exact fun k => hall k (Nat.zero_le k)
    · rw [hnone] at heq
      exact absurd (congrArg Prod.fst heq) (by simp)
  obtain rfl : order = current := by
    refine htook.chosen.le.eq_of_not_lt fun hlt => ?_
    have hpart := hempty order
    rw [splitLists, addParts, if_pos ⟨le_rfl, hlt⟩] at hpart
    exact List.cons_ne_nil _ _ hpart
  obtain ⟨hfree, hpriv⟩ := marked_priv z₁ p (2 ^ order)
  have hpres := hmarks'.present.trans (hmarks.present.trans htook.present)
  obtain ⟨hrep, hpres', hfree', hother, -⟩ := freeBlock_splitLists hr htook.chosen hr₃ hpres
  refine ⟨restored_of_represents hr hrep hpres' ?_, fun q => ?_⟩
  · rw [hfree', hfree, htook.freePages, u32_undo]
    exact Nat.mod_mod _ _
  · by_cases hqp : q = p
    · subst hqp
      have hmem : q ∈ L order := by
        rw [htook.chosen.list]
        exact List.mem_cons_self
      exact (hrep.order order q hmem).trans (hr.order order q hmem).symm
    · have hpart : ¬ IsPart order p order q := not_isPart_of_le le_rfl
      rw [hother q hqp hpart, hpriv q, htook.other q hqp hpart]

theorem restored_refl (hr : Represents z L) : Restored z z := restored_of_represents hr hr rfl rfl

end Zone

/-! ### Failures -/

section Failures
variable {alloc : Kernel → ℕ → Option (ℕ × Kernel)} {W : World} {B : Queue → List ℕ}
variable {R : ℕ → Prop} {held : List Held}

theorem cacheGrow_of_zero (g : Good s W B R held) (hsort : Sorted W B) (hc : c ∈ W.caches)
    (halloc : offSlab (W.kc c) = true → ServesOn alloc)
    (h : cacheAllocRefill alloc s c = some (0, s')) : cacheGrow alloc s c = some (false, s') := by
  obtain ⟨o, s₁, W₁, B₁, heq, hshape, g₁, -, ho⟩ := refillSlab_spec g hsort hc halloc
  rw [cacheAllocRefill, heq] at h
  cases o with
  | some d =>
    have hc₁ : c ∈ W₁.caches := by
      rw [congrArg Shape.caches hshape]
      exact hc
    obtain ⟨x, s₂, W₂, B₂, hx, hx0, -⟩ := takeObject_spec g₁ hc₁ ho.2.1 ho.1 ho.2.2
    have h₂ : takeObject s₁ c d = some (0, s') := h
    rw [hx, Option.some.injEq, Prod.mk.injEq] at h₂
    exact absurd h₂.1 hx0
  | none =>
    obtain rfl : s₁ = s' := (Prod.mk.inj (Option.some.inj h)).2
    unfold refillSlab at heq
    rw [g.readCache hc] at heq
    simp only [Option.bind_eq_bind, Option.bind_some] at heq
    split_ifs at heq
    · obtain ⟨d, -, hd⟩ := Option.bind_eq_some_iff.mp heq
      simp at hd
    · obtain ⟨⟨b, s₂⟩, hgrow, hrest⟩ := Option.bind_eq_some_iff.mp heq
      cases b with
      | false =>
        obtain rfl : s₂ = s₁ := (Prod.mk.inj (Option.some.inj hrest)).2
        exact hgrow
      | true =>
        obtain ⟨⟨d, s₃⟩, -, hd⟩ := Option.bind_eq_some_iff.mp hrest
        simp at hd
    · obtain ⟨⟨d, s₃⟩, -, hd⟩ := Option.bind_eq_some_iff.mp heq
      simp at hd

/-- The ways in which `cache_grow` fails: there are no pages, or there is no descriptor for them. -/
theorem cacheGrow_cases (g : Good s W B R held) (hsort : Sorted W B) (hc : c ∈ W.caches)
    (hserves : offSlab (W.kc c) = true → ServesOn alloc)
    (h : cacheGrow alloc s c = some (false, s')) :
    (allocateBlock s.zone (W.kc c).gfporder = (none, s.zone) ∧
      s' = store s c (.cache (advanceColour (W.desc c)))) ∨
    (offSlab (W.kc c) = true ∧ ∃ p z n s₁ s₂, allocateBlock s.zone (W.kc c).gfporder = (some p, z) ∧
      s₁ = { store s c (.cache (advanceColour (W.desc c))) with
        zone := setPagesSlab z p (2 ^ (W.kc c).gfporder) } ∧
      Good s₁ (W.setColour c n) B (Reserve R (W.kc c).gfporder p) held ∧
      alloc s₁ W.slabCache = some (0, s₂) ∧ s' = kmemFreepages s₂ (W.desc c) (base p)) := by
  have hsort₁ : ∀ n, Sorted (W.setColour c n) B := fun _ => hsort
  obtain ⟨n, s₀, rfl, -, ⟨hnone, hgrow⟩ | ⟨p, z, s₁, hab, hs₁, ht, g₁, hgrow⟩⟩ :=
    cacheGrow_pages alloc g hc
  · rw [hgrow] at h
    exact Or.inl ⟨hnone, (Prod.mk.inj (Option.some.inj h)).2.symm⟩
  · rw [hgrow] at h
    rcases honoff : offSlab (W.kc c)
    · -- a descriptor in the slab is there with the pages
      have hgrown : Grown (W.setColour c n) R held c False
          (growAt alloc s₁ (W.desc c) c (base p) (W.colourNext c * (W.kc c).colourOff)) :=
        growAt_on (W := W.setColour c n) alloc g₁ (hsort₁ n) hc ht honoff (offset_le g hc).2 ⟨_, rfl⟩ rfl
      obtain ⟨b, s₃, -, -, hb, -, -, -, -, hfail, -⟩ := hgrown
      rw [h] at hb
      exact (hfail (Prod.mk.inj (Option.some.inj hb)).1.symm).elim
    · obtain ⟨hsc, hslabp⟩ := g.geometry.slabp c hc honoff
      obtain ⟨d, s₂, -, -, hd, -⟩ := hserves honoff g₁ (hsort₁ n) W.slabCache hsc
        (g.geometry.slabp_on hsc).1
      have hslabp' : (W.desc c).slabpCache = W.slabCache := hslabp
      have hdoff : offSlab (W.desc c) = true := honoff
      refine Or.inr ⟨rfl, p, z, n, s₁, s₂, hab, hs₁, g₁, ?_⟩
      rw [← hslabp'] at hd ⊢
      by_cases hd0 : d = 0
      · subst hd0
        rw [growAt_of_null hdoff hd] at h
        exact ⟨hd, (Prod.mk.inj (Option.some.inj h)).2.symm⟩
      · rw [growAt_of_off hdoff hd hd0] at h
        obtain ⟨s₃, -, hs₃⟩ := Option.map_eq_some_iff.mp h
        exact absurd (Prod.mk.inj hs₃).1 (by simp)

/-- **A failed call leaves no trace.** -/
theorem noTrace_of_good (g : Good s W B R held) (hsort : Sorted W B) (htidy : Tidy W)
    (hc : c ∈ W.caches) (h : kmemCacheAlloc callDepth s c = some (0, s')) : NoTrace s s' := by
  obtain ⟨L, hrep, -⟩ := g.pages.rep
  have hdescs := sameDescs_advanceColour (g.readCache hc)
  have hgrow := cacheGrow_of_zero g hsort hc (fun _ => servesOn_kmemCacheAlloc 0) h
  rcases cacheGrow_cases g hsort hc (fun _ => servesOn_kmemCacheAlloc 0) hgrow with
    ⟨-, rfl⟩ | ⟨hoff, p, z, n, s₁, s₂, hab, rfl, g₁, hnull, rfl⟩
  · exact ⟨hdescs, restored_refl hrep, fun _ => rfl⟩
  · -- the nested call has found no page
    obtain ⟨hsc, -⟩ := g.geometry.slabp c hc hoff
    have hon := (g.geometry.slabp_on hsc).1
    have hnot : offSlab (W.kc W.slabCache) = true → ServesOn (kmemCacheAlloc 0) := fun h' =>
      absurd (hon.symm.trans h') (by simp)
    have hgrow₁ := cacheGrow_of_zero (W := W.setColour c n) g₁ hsort hsc hnot hnull
    rcases cacheGrow_cases (W := W.setColour c n) g₁ hsort hsc hnot hgrow₁ with
      ⟨hnone, rfl⟩ | ⟨hoff₁, -⟩
    · have horder : ((W.setColour c n).kc W.slabCache).gfporder = 0 := htidy.regular.order hsc
      rw [horder] at hnone
      obtain ⟨hzone, hpriv⟩ := restored_of_none hrep hab hnone
      have hfree : kmemFreepages (store { store s c (.cache (advanceColour (W.desc c))) with
            zone := setPagesSlab z p (2 ^ (W.kc c).gfporder) } W.slabCache
            (.cache (advanceColour ((W.setColour c n).desc W.slabCache)))) (W.desc c) (base p) =
          { store { store s c (.cache (advanceColour (W.desc c))) with
              zone := setPagesSlab z p (2 ^ (W.kc c).gfporder) } W.slabCache
              (.cache (advanceColour ((W.setColour c n).desc W.slabCache))) with
            zone := freeBlock (clearPagesSlab (setPagesSlab z p (2 ^ (W.kc c).gfporder)) p
              (2 ^ (W.kc c).gfporder)) p (W.kc c).gfporder } := by
        unfold kmemFreepages
        rw [virtToPage_base]
        rfl
      have hdescs₁ := (hdescs.rezone (setPagesSlab z p (2 ^ (W.kc c).gfporder))).trans
        (sameDescs_advanceColour (g₁.readCache hsc))
      change NoTrace s (kmemFreepages _ _ _)
      rw [hfree]
      exact ⟨hdescs₁.rezone _, hzone, hpriv⟩
    · exact absurd (hon.symm.trans hoff₁) (by simp)

end Failures

/-- **A failed call of `kmem_cache_alloc` leaves no trace**, if the slabs of the created caches fit
their pages. -/
theorem noTrace_of_suits {k : Kernel} (hinv : BuddyInvariant k.zone)
    (hn : k.zone.presentPages ≤ 2 ^ 18) (hcs : k.csCachep = fun _ => 0) :
    ∃ k₀, initSlab zeroDesc k = some k₀ ∧ ∀ s, ReflTransGen (Step Suits) ⟨k₀, []⟩ s →
      ∀ c, OnChain s.kernel c → ∀ low k', kmemCacheAllocAt low callDepth s.kernel c = some (0, k') →
        NoTrace s.kernel k' := by
  obtain ⟨k₀, W, B, heq, hs, -⟩ := init_sound hinv hn hcs
  refine ⟨k₀, heq, fun s hrun c hc low k' hnull => ?_⟩
  obtain ⟨W', B', hs', -⟩ := run_sound hs hrun
  have hc' := (onChain_iff hs'.good.lists).mp hc
  obtain ⟨x, k₁, -, -, halloc, -⟩ := alloc_sound hs' hc'
  have heq₁ : kmemCacheAllocAt low callDepth s.kernel c = some (x, k₁) :=
    kmemCacheAllocAt_of_some _ _ _ _ halloc
  rw [hnull] at heq₁
  rw [← heq₁] at halloc
  exact noTrace_of_good hs'.good hs'.sorted hs'.tidy hc' halloc

/-- In a zone of two pages `cache_cache` has the first. For an object of the first cache of `kmalloc`
the second page is taken, and given back. -/
theorem noTrace_two : ∃ s k', runFrom (plainKernel 2 (by decide)) [] = some s ∧
    kmemCacheAllocAt 7 callDepth s.kernel (s.kernel.csCachep 0) = some (0, k') ∧
    k'.zone.freePages = 1 ∧ NoTrace s.kernel k' := by
  obtain ⟨k₀, hinit, hall⟩ := noTrace_of_suits
    (buddyInvariant_plainKernel (n := 2) (by decide) (by decide)) (by decide) rfl
  have hcheck : (runFrom (plainKernel 2 (by decide)) []).any (fun s =>
      decide (Link.next (s.kernel.csCachep 0) ∈ listNodes 64 s.kernel Link.chain) &&
        (kmemCacheAllocAt 7 callDepth s.kernel (s.kernel.csCachep 0)).any fun r =>
          decide (r.1 = 0 ∧ r.2.zone.freePages = 1)) = true := by decide +kernel
  obtain ⟨k₁, s, hinit₁, hs, hrun, hboth⟩ :=
    run_of_check (P := Suits) (fun _ _ ha => by simp at ha) hcheck
  obtain ⟨hchain, hcall⟩ := Bool.and_eq_true_iff.mp hboth
  obtain ⟨⟨x, k'⟩, hcall, hres⟩ := (Option.any_eq_true _ _).mp hcall
  obtain ⟨rfl, hfree⟩ : x = 0 ∧ k'.zone.freePages = 1 := of_decide_eq_true hres
  obtain rfl := Option.some.inj (hinit.symm.trans hinit₁)
  exact ⟨s, k', hs, hcall, hfree, hall s hrun _ ⟨64, of_decide_eq_true hchain⟩ _ _ hcall⟩

/-! ### A cache whose slabs hold no object -/

theorem takeObjectAt_of_null {sd : SlabDesc} {kc : KmemCache} (hsd : readSlab s d = some sd)
    (h0 : sd.freeList = 0) (hkc : readCache s c = some kc) (hne : c ≠ d) :
    ∃ s', takeObjectAt low s c d = some (0, s') ∧ s'.zone = s.zone := by
  obtain ⟨hd0, -⟩ := mem_of_readSlab hsd
  obtain ⟨hc0, hmem⟩ := mem_of_readCache hkc
  have hkc' : ∀ cell, readCache (store s d cell) c = some kc := fun cell =>
    readCache_of_mem hc0 ((update_of_ne hne _ _).trans hmem)
  have hsd' : ∀ sd' cell, readSlab (store (store s d (.slab sd')) c cell) d = some sd' :=
    fun sd' cell => readSlab_of_mem hd0
      ((update_of_ne hne.symm _ _).trans (update_self _ _ _))
  unfold takeObjectAt slabGetObjAt readWordAt
  rw [hsd]
  simp only [Option.bind_eq_bind, Option.bind_some, h0, if_true, hkc', Option.pure_def, hsd']
  split_ifs
  · exact ⟨_, rfl, rfl⟩
  · exact ⟨_, rfl, rfl⟩

/-- With a header of 8192 bytes in each slab `cache_estimate` counts `-1` objects. -/
def createActions : List Action := [.create zeroDesc 100 8192 0]

/-- **NULL is returned, and a page is gone**: a slab is made for the cache, without objects. -/
theorem trace_createActions : BuddyInvariant (plainKernel 64 (by decide)).zone ∧
    ∃ k₀ s, initSlab zeroDesc (plainKernel 64 (by decide)) = some k₀ ∧
      ReflTransGen (Step fun _ _ => True) ⟨k₀, []⟩ s ∧ OnChain s.kernel 0xC0000820 ∧
      ∀ low, ∃ k', kmemCacheAllocAt low callDepth s.kernel 0xC0000820 = some (0, k') ∧
        k'.zone.freePages + 1 = s.kernel.zone.freePages ∧ ¬ NoTrace s.kernel k' := by
  refine ⟨buddyInvariant_plainKernel _ (by decide), ?_⟩
  have hcheck : (runFrom (plainKernel 64 (by decide)) createActions).any (fun s =>
      decide (Link.next 0xC0000820 ∈ listNodes 64 s.kernel Link.chain) &&
        (refillSlab (fun _ _ => none) s.kernel 0xC0000820).any fun r =>
          decide (r.2.zone.freePages + 1 = s.kernel.zone.freePages ∧ r.2.zone.freePages < 64) &&
          r.1.any fun d => decide (0xC0000820 ≠ d) && (readCache r.2 0xC0000820).isSome &&
            (readSlab r.2 d).any fun sd => decide (sd.freeList = 0)) = true := by decide +kernel
  obtain ⟨k₀, s, hinit, -, hrun, hboth⟩ :=
    run_of_check (P := fun _ _ => True) (fun _ _ _ => trivial) hcheck
  obtain ⟨hchain, hrefill⟩ := Bool.and_eq_true_iff.mp hboth
  obtain ⟨⟨o, s₁⟩, hrefill, hres⟩ := (Option.any_eq_true _ _).mp hrefill
  obtain ⟨hpages, ho⟩ := Bool.and_eq_true_iff.mp hres
  obtain ⟨hfree, hlt⟩ : s₁.zone.freePages + 1 = s.kernel.zone.freePages ∧ s₁.zone.freePages < 64 :=
    of_decide_eq_true hpages
  obtain ⟨d, rfl, hd⟩ := (Option.any_eq_true _ _).mp ho
  obtain ⟨hd, hslab⟩ := Bool.and_eq_true_iff.mp hd
  obtain ⟨hne, hread⟩ := Bool.and_eq_true_iff.mp hd
  obtain ⟨kc, hkc⟩ := Option.isSome_iff_exists.mp hread
  obtain ⟨sd, hsd, hnull⟩ := (Option.any_eq_true _ _).mp hslab
  refine ⟨k₀, s, hinit, hrun, ⟨64, of_decide_eq_true hchain⟩, fun low => ?_⟩
  obtain ⟨k', htake, hzone⟩ : ∃ k', takeObjectAt low s₁ 0xC0000820 d = some (0, k') ∧
      k'.zone = s₁.zone :=
    takeObjectAt_of_null hsd (of_decide_eq_true hnull) hkc (of_decide_eq_true hne)
  have hrefill' : refillSlab (kmemCacheAllocAt low 1) s.kernel 0xC0000820 = some (some d, s₁) :=
    refillSlab_of_extends (fun _ _ _ h => absurd h (by simp)) hrefill
  refine ⟨k', ?_, by rw [hzone, hfree], fun h => ?_⟩
  · change cacheAllocRefillAt low (kmemCacheAllocAt low 1) s.kernel 0xC0000820 = _
    rw [cacheAllocRefillAt, hrefill']
    exact htake
  · have hsame := h.zone.freePages
    rw [hzone, u32_of_lt (by omega), u32_of_lt (by omega)] at hsame
    omega

end YegaKernel.Slab.FailedAlloc
