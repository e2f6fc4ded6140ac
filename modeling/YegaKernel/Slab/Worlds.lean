import YegaKernel.Slab.PageOps

/-! # New and old slabs

A reserved block becomes a slab of a cache, and the block of a slab all of whose objects are free
becomes reserved again: what holds before holds after. -/

namespace YegaKernel.Slab.Worlds

open Lib.Links Lib.Families Lib.NullList Lib.Word
open Buddy.State (Node pageSize buddyGroups)
open Buddy.FreeBlocks
open Slab.State Slab.Ops Slab.Invariant Slab.Queues
open Slab.Objects Slab.PageOps Function

variable {s s' : Kernel} {W : World} {B : Queue → List ℕ} {R : ℕ → Prop} {held : List Held}
variable {c d p off : ℕ} {l : List ℕ}

/-! ### States that differ in one part -/

theorem cells_congr (h : Cells s W) (hroot : s'.cacheCache = s.cacheCache)
    (hcs : s'.csCachep = s.csCachep) (hmem : s'.mem = s.mem) : Cells s' W := by
  obtain ⟨h1, h2, h3, h4, h5, h6, h7, h8⟩ := h
  rw [← hroot] at h1
  rw [← hcs] at h2
  rw [← hmem] at h3 h4 h5 h6
  exact ⟨h1, h2, h3, h4, h5, h6, h7, h8⟩

theorem good_relink {B' : Queue → List ℕ} (g : Good s W B R held) (hlists : Lists s' W.toLayout B')
    (hroot : s'.cacheCache = s.cacheCache) (hcs : s'.csCachep = s.csCachep) (hmem : s'.mem = s.mem)
    (hzone : s'.zone = s.zone) : Good s' W B' R held :=
  ⟨g.geometry, pages_congr g.pages hzone, cells_congr g.cells hroot hcs hmem, hlists, g.holding⟩

theorem good_rezone {R' : ℕ → Prop} {z : Buddy.State.Zone} (g : Good s W B R held)
    (hp : Pages { s with zone := z } W.toLayout R') : Good { s with zone := z } W B R' held :=
  ⟨g.geometry, hp, cells_congr g.cells rfl rfl rfl, lists_congr g.lists rfl, g.holding⟩

/-! ### The next colour -/

theorem change_setColour (g : Good s W B R held) (c n : ℕ) : Change W (W.setColour c n) c 0 where
  shape := rfl
  old _ _ h _ := h
  self _ h := absurd rfl (g.slab_ne_zero h)
  page _ _ := rfl
  colouroff _ _ := rfl
  free _ _ := rfl
  count _ _ _ := rfl
  colour _ h := update_of_ne h _ _

theorem good_setColour (g : Good s W B R held) (hc : c ∈ W.caches) {n : ℕ}
    (hn : n ≤ (W.kc c).colour - 1) :
    Good (store s c (.cache { W.desc c with colourNext := n })) (W.setColour c n) B R held := by
  have hcolour : (W.setColour c n).colourNext c = n := update_self _ _ _
  refine ⟨g.geometry, pages_congr g.pages rfl, ?_, lists_congr g.lists rfl,
    ⟨g.holding.slab, g.holding.object, fun h hh => ?_, g.holding.nodup⟩⟩
  · refine cells_change (l := []) g (change_setColour g c n) hc rfl rfl (by rwa [hcolour]) ?_
      (fun h => absurd rfl (g.slab_ne_zero h)) ?_ (fun a hac _ _ => update_of_ne hac _ _)
    · rw [store_mem, update_self]
      unfold World.desc
      rw [hcolour]
      rfl
    · rintro a (ha | ⟨c', d', hd', -, rfl | ha⟩)
      · exact ⟨g.cache_ne_zero ha, List.not_mem_nil⟩
      · exact ⟨g.slab_ne_zero hd', List.not_mem_nil⟩
      · exact ⟨g.object_ne_zero hd' (g.cells.object c' d' hd' a ha), List.not_mem_nil⟩
  · obtain ⟨h1, h2, h3⟩ := g.holding.unused h hh
    exact ⟨h1, h2, h3⟩

/-! ### A new slab -/

theorem mem_slabs_addSlab {c' e : ℕ} :
    e ∈ (W.addSlab c d p off l).slabs c' ↔ e ∈ W.slabs c' ∨ (c' = c ∧ e = d) := by
  unfold World.addSlab Layout.addSlab
  by_cases hcc : c' = c
  · subst hcc
    simp only [update_self, List.mem_cons]
    tauto
  · simp only [update_of_ne hcc]
    tauto

theorem isSlab_addSlab (hc : c ∈ W.caches) {c' d' : ℕ} :
    (W.addSlab c d p off l).IsSlab c' d' ↔ W.IsSlab c' d' ∨ (c' = c ∧ d' = d) := by
  unfold Layout.IsSlab
  rw [mem_slabs_addSlab]
  constructor
  · rintro ⟨h, h' | h'⟩
    · exact Or.inl ⟨h, h'⟩
    · exact Or.inr h'
  · rintro (⟨h, h'⟩ | ⟨rfl, rfl⟩)
    · exact ⟨h, Or.inl h'⟩
    · exact ⟨hc, Or.inr ⟨rfl, rfl⟩⟩

theorem inSlab_addSlab_self {x : ℕ} :
    (W.addSlab c d p off l).InSlab c d x ↔ InBlock (W.kc c).gfporder p x := by
  have hpage : (W.addSlab c d p off l).page d = p := update_self _ _ _
  unfold Layout.InSlab
  rw [hpage]
  rfl

theorem unused_of_reserved (g : Good s W B R held) {x : ℕ} (hx : pageOffset ≤ x)
    (hR : R (virtToPage x)) : W.Unused x ∧ x ∉ held.map Held.addr := by
  have hnot := g.pages.reserved _ hR
  refine ⟨⟨fun hc => ?_, fun c d hd hxd => ?_, fun c d hd hfree => ?_⟩, fun hheld => ?_⟩
  · by_cases hroot : x = W.cacheCache
    · have hle := g.geometry.root_le
      unfold sizeofKmemCache at hle
      omega
    · exact hnot (g.owned_cache hc hroot)
  · exact hnot (hxd ▸ g.owned_slab hd)
  · exact hnot (g.owned_object hd (g.cells.object c d hd x hfree))
  · obtain ⟨h, hh, rfl⟩ := List.mem_map.mp hheld
    exact hnot (g.owned_object (g.holding.slab h hh) (g.holding.object h hh))

section AddSlab

variable (hnew : ∀ c' d', W.IsSlab c' d' → d' ≠ d)
include hnew

theorem object_addSlab {c' d' x : ℕ} (hd' : W.IsSlab c' d') :
    (W.addSlab c d p off l).Object c' d' x ↔ W.Object c' d' x := by
  have hne := hnew c' d' hd'
  unfold Layout.Object Layout.sMem World.addSlab Layout.addSlab
  simp only [update_of_ne hne]

theorem inSlab_addSlab {c' d' x : ℕ} (hd' : W.IsSlab c' d') :
    (W.addSlab c d p off l).InSlab c' d' x ↔ W.InSlab c' d' x := by
  have hne := hnew c' d' hd'
  unfold Layout.InSlab World.addSlab Layout.addSlab
  simp only [update_of_ne hne]

theorem placed_addSlab (hc : c ∈ W.caches) {c' x : ℕ} (h : W.Placed c' x) :
    (W.addSlab c d p off l).Placed c' x := by
  obtain ⟨e, he, hx⟩ := h
  exact ⟨e, (isSlab_addSlab hc).mpr (Or.inl he), (object_addSlab hnew he).mpr hx⟩

theorem geometry_addSlab (hg : Geometry W.toLayout) (hc : c ∈ W.caches)
    (hfits : Fits (W.kc c) p off d) (hdesc : offSlab (W.kc c) = true → W.Placed W.slabCache d) :
    Geometry (W.addSlab c d p off l).toLayout where
  root := hg.root
  root_pos := hg.root_pos
  root_le := hg.root_le
  root_on := hg.root_on
  root_objsize := hg.root_objsize
  root_slabp := hg.root_slabp
  sane := hg.sane
  fits c' d' hd' := by
    rcases (isSlab_addSlab hc).mp hd' with h | ⟨rfl, rfl⟩
    · have hne := hnew c' d' h
      simp only [World.addSlab, Layout.addSlab, update_of_ne hne]
      exact hg.fits c' d' h
    · simp only [World.addSlab, Layout.addSlab, update_self]
      exact hfits
  cache c' hc' hne := placed_addSlab hnew hc (hg.cache c' hc' hne)
  desc c' d' hd' hoff := by
    rcases (isSlab_addSlab hc).mp hd' with h | ⟨rfl, rfl⟩
    · exact placed_addSlab hnew hc (hg.desc c' d' h hoff)
    · exact placed_addSlab hnew hc (hdesc hoff)
  slabCache := hg.slabCache
  slabp := hg.slabp
  slabp_on := hg.slabp_on

theorem owned_addSlab (hc : c ∈ W.caches) {x : ℕ} : (W.addSlab c d p off l).Owned x ↔
    W.Owned x ∨ InBlock (W.kc c).gfporder p x := by
  constructor
  · rintro ⟨c', d', hd', hx⟩
    rcases (isSlab_addSlab hc).mp hd' with h' | ⟨rfl, rfl⟩
    · exact Or.inl ⟨c', d', h', (inSlab_addSlab hnew h').mp hx⟩
    · exact Or.inr (inSlab_addSlab_self.mp hx)
  · rintro (⟨c', d', hd', hx⟩ | hx)
    · exact ⟨c', d', (isSlab_addSlab hc).mpr (Or.inl hd'), (inSlab_addSlab hnew hd').mpr hx⟩
    · exact ⟨c, d, (isSlab_addSlab hc).mpr (Or.inr ⟨rfl, rfl⟩), inSlab_addSlab_self.mpr hx⟩

theorem pages_addSlab (h : Pages s W.toLayout (Reserve R (W.kc c).gfporder p)) (hc : c ∈ W.caches)
    (ht : Taken W.present (W.kc c).gfporder p R) (hback : ∀ x, InBlock (W.kc c).gfporder p x →
      s.zone.links (Node.lru x) = ⟨Node.addr c, Node.addr d⟩ ∧ (s.zone.pages x).firstPage = p) :
    Pages s (W.addSlab c d p off l).toLayout R := by
  have hpage : (W.addSlab c d p off l).page d = p := update_self _ _ _
  have hpage' : ∀ e, e ≠ d → (W.addSlab c d p off l).page e = W.page e := fun e he =>
    update_of_ne he _ _
  obtain ⟨L, hrep, hL, hpool⟩ := h.rep
  refine ⟨h.present, h.present_le, ⟨L, hrep, ?_, ?_⟩, ?_, ?_, ?_, ?_⟩
  · rintro x (hR | hO)
    · exact hL x (Or.inl (Or.inl hR))
    · rcases (owned_addSlab hnew hc).mp hO with hO | hb
      · exact hL x (Or.inr hO)
      · exact hL x (Or.inl (Or.inr hb))
  · intro x
    change W.pool x ↔ _
    rw [hpool x, owned_addSlab hnew hc]
    unfold Reserve
    tauto
  · intro c' d' hd'
    rcases (isSlab_addSlab hc).mp hd' with h' | ⟨rfl, rfl⟩
    · rw [hpage' d' (hnew c' d' h')]
      exact h.aligned c' d' h'
    · rw [hpage]
      exact ht.aligned
  · intro c' d' hd'
    rcases (isSlab_addSlab hc).mp hd' with h' | ⟨rfl, rfl⟩
    · rw [hpage' d' (hnew c' d' h')]
      exact h.bound c' d' h'
    · rw [hpage]
      exact ht.bound
  · intro c' d' hd' x hx
    rcases (isSlab_addSlab hc).mp hd' with h' | ⟨rfl, rfl⟩
    · rw [hpage' d' (hnew c' d' h')]
      exact h.back c' d' h' x ((inSlab_addSlab hnew h').mp hx)
    · rw [hpage]
      exact hback x (inSlab_addSlab_self.mp hx)
  · intro x hR hO
    rcases (owned_addSlab hnew hc).mp hO with hO | hb
    · exact h.reserved x (Or.inl hR) hO
    · exact ht.fresh x hb hR

theorem free_addSlab {c' d' : ℕ} (hd' : W.IsSlab c' d') :
    (W.addSlab c d p off l).free d' = W.free d' := update_of_ne (hnew c' d' hd') _ _

theorem freeCount_addSlab_of_ne {c' : ℕ} (hc' : c' ∈ W.caches) (hne : c' ≠ c) :
    (W.addSlab c d p off l).freeCount c' = W.freeCount c' := by
  have hslabs : (W.addSlab c d p off l).slabs c' = W.slabs c' := update_of_ne hne _ _
  unfold World.freeCount
  rw [hslabs]
  exact congrArg List.sum (List.map_congr_left fun e he => by rw [free_addSlab hnew ⟨hc', he⟩])

theorem freeCount_addSlab (hc : c ∈ W.caches) :
    (W.addSlab c d p off l).freeCount c = l.length + W.freeCount c := by
  have hslabs : (W.addSlab c d p off l).slabs c = d :: W.slabs c := update_self _ _ _
  have hself : (W.addSlab c d p off l).free d = l := update_self _ _ _
  unfold World.freeCount
  rw [hslabs, List.map_cons, List.sum_cons, hself]
  congr 1
  exact congrArg List.sum (List.map_congr_left fun e he => by rw [free_addSlab hnew ⟨hc, he⟩])

theorem change_addSlab (hc : c ∈ W.caches) : Change W (W.addSlab c d p off l) c d where
  shape := rfl
  old c' d' h hne := by
    rcases (isSlab_addSlab hc).mp h with h | ⟨-, rfl⟩
    · exact h
    · exact absurd rfl hne
  self c' h := by
    rcases (isSlab_addSlab hc).mp h with h | ⟨rfl, -⟩
    · exact absurd rfl (hnew c' d h)
    · rfl
  page _ h := update_of_ne h _ _
  colouroff _ h := update_of_ne h _ _
  free _ h := update_of_ne h _ _
  count _ hc' hne := freeCount_addSlab_of_ne hnew hc' hne
  colour _ _ := rfl

theorem holding_addSlab (h : Holding W held) (hc : c ∈ W.caches) (hd : d ∉ held.map Held.addr)
    (hl : ∀ x ∈ l, x ∉ held.map Held.addr) : Holding (W.addSlab c d p off l) held := by
  refine ⟨fun o ho => (isSlab_addSlab hc).mpr (Or.inl (h.slab o ho)),
    fun o ho => (object_addSlab hnew (h.slab o ho)).mpr (h.object o ho), fun o ho => ?_, h.nodup⟩
  have hmem : o.addr ∈ held.map Held.addr := List.mem_map_of_mem ho
  have hu := h.unused o ho
  refine ⟨hu.cache, fun c' d' hd' => ?_, fun c' d' hd' hfree => ?_⟩
  · rcases (isSlab_addSlab hc).mp hd' with h' | ⟨rfl, rfl⟩
    · exact hu.slab c' d' h'
    · exact fun heq => hd (heq ▸ hmem)
  · rcases (isSlab_addSlab hc).mp hd' with h' | ⟨rfl, rfl⟩
    · rw [free_addSlab hnew h'] at hfree
      exact hu.free c' d' h' hfree
    · simp only [World.addSlab, update_self] at hfree
      exact hl _ hfree hmem

theorem lists_addSlab (p off : ℕ) (l : List ℕ) (h : Lists s W.toLayout B) (hc : c ∈ W.caches) :
    ∃ B', Lists (listAddTail (initListHead s (Link.slab d)) (Link.list c .slabsFree) (Link.slab d))
        (W.addSlab c d p off l).toLayout B' ∧ Moved W.caches B B' c d .slabsFree := by
  have hout : ∀ c ∈ W.caches, ∀ k, d ∉ B (.list c k) := fun c' hc' k hmem =>
    hnew c' d (isSlab_of_mem h hc' hmem) rfl
  have hap := slab_apart (W := W.toLayout) hout
  have hinit : Rings (initListHead s (Link.slab d)) (IsQueue W.caches) queueHead queueNode B :=
    h.rings.transport fun q hq n hn => sameLinks_initListHead s (hap q hq n hn)
  have hq : IsQueue W.caches (.list c .slabsFree) := hc
  have hun : Unlinked W.caches B B d := ⟨rfl, fun c' hc' k' e => ⟨fun he =>
    ⟨fun hed => hout c' hc' k' (hed ▸ he), he⟩, And.right⟩⟩
  have hmoved := moved_of_link (W := W.toLayout) (c := c) (k := .slabsFree)
    (l := B (.list c .slabsFree) ++ [d]) hun (by simp [or_comm]) rfl
  refine ⟨_, ⟨hinit.listAddTail hq hap, h.chain, ?_, ?_⟩, hmoved⟩
  · intro c' hc'
    by_cases hcc : c' = c
    · subst hcc
      have hslabs : (W.addSlab c' d p off l).slabs c' = d :: W.slabs c' := update_self _ _ _
      rw [hslabs]
      exact List.nodup_cons.mpr ⟨fun hmem => hnew c' d ⟨hc', hmem⟩ rfl, h.nodup c' hc'⟩
    · have hslabs : (W.addSlab c d p off l).slabs c' = W.slabs c' := update_of_ne hcc _ _
      rw [hslabs]
      exact h.nodup c' hc'
  · intro c' hc' e
    rw [mem_slabs_addSlab, h.mem c' hc' e]
    simp only [hmoved.2 c' hc']
    by_cases hed : e = d
    · subst hed
      simp only [if_true, and_true]
      constructor
      · rintro (⟨k, hk⟩ | hcc)
        · exact absurd hk (hout c' hc' k)
        · exact ⟨_, hcc, rfl⟩
      · rintro ⟨_, hcc, -⟩
        exact Or.inr hcc
    · simp [hed]

end AddSlab

theorem not_unused_of_kept {a : ℕ} (h : Kept W d a) : ¬ W.Unused a := by
  intro hu
  rcases h with h | ⟨c', d', hd', -, rfl | h⟩
  · exact hu.cache h
  · exact hu.slab c' a hd' rfl
  · exact hu.free c' d' hd' h

/-- The addresses of the objects of a slab whose objects start at `m`. -/
def objectsAt (kc : KmemCache) (m : ℕ) : List ℕ :=
  (List.range kc.num).map fun i => m + i * kc.objsize

theorem mem_objectsAt {kc : KmemCache} {m x : ℕ} :
    x ∈ objectsAt kc m ↔ ∃ i < kc.num, x = m + i * kc.objsize := by
  simp [objectsAt, eq_comm]

theorem unused_objectsAt (g : Good s W B (Reserve R (W.kc c).gfporder p) held) (hc : c ∈ W.caches)
    (hfits : Fits (W.kc c) p off d) {x : ℕ} (hx : x ∈ objectsAt (W.kc c) (base p + off)) :
    W.Unused x ∧ x ∉ held.map Held.addr := by
  obtain ⟨i, hi, rfl⟩ := mem_objectsAt.mp hx
  have hobj := hfits.objects
  have hsize := (g.geometry.sane c hc).objsize
  have hmul : (i + 1) * (W.kc c).objsize ≤ (W.kc c).num * (W.kc c).objsize :=
    Nat.mul_le_mul_right _ hi
  rw [Nat.add_mul, Nat.one_mul] at hmul
  have hbase := base_pos p
  exact unused_of_reserved g (by omega)
    (Or.inr (inBlock_virtToPage (by omega) (by omega)))

/-- **A reserved block becomes a slab**, all of whose objects are free. -/
theorem good_addSlab (s' : Kernel) (g : Good s W B (Reserve R (W.kc c).gfporder p) held)
    (hc : c ∈ W.caches) (ht : Taken W.present (W.kc c).gfporder p R) (hfits : Fits (W.kc c) p off d)
    (hdesc : offSlab (W.kc c) = true → W.Placed W.slabCache d) (hu : W.Unused d)
    (hheld : d ∉ held.map Held.addr) (hl : l = objectsAt (W.kc c) (base p + off))
    (hroot : s'.cacheCache = s.cacheCache) (hcs : s'.csCachep = s.csCachep)
    (hlinks : s'.links = (listAddTail (initListHead s (Link.slab d)) (Link.list c .slabsFree)
      (Link.slab d)).links) (hpages : Pages s' W.toLayout (Reserve R (W.kc c).gfporder p))
    (hback : ∀ x, InBlock (W.kc c).gfporder p x →
      s'.zone.links (Node.lru x) = ⟨Node.addr c, Node.addr d⟩ ∧ (s'.zone.pages x).firstPage = p)
    (hcache : s'.mem c = .cache ((W.addSlab c d p off l).desc c))
    (hslab : SlabCells s' (W.addSlab c d p off l) c d)
    (hother : ∀ a, a ≠ c → a ≠ d → a ∉ l → s'.mem a = s.mem a) :
    ∃ B', Good s' (W.addSlab c d p off l) B' R held ∧ Moved W.caches B B' c d .slabsFree := by
  have hnew : ∀ c' d', W.IsSlab c' d' → d' ≠ d := fun c' d' hd' h => hu.slab c' d' hd' h.symm
  have hobj : ∀ x ∈ l, W.Unused x ∧ x ∉ held.map Held.addr := fun x hx =>
    unused_objectsAt g hc hfits (hl ▸ hx)
  obtain ⟨B', hlists, hmoved⟩ := lists_addSlab hnew p off l g.lists hc
  refine ⟨B', ⟨geometry_addSlab hnew g.geometry hc hfits hdesc,
    pages_addSlab hnew hpages hc ht hback, ?_, lists_congr hlists hlinks,
    holding_addSlab hnew g.holding hc hheld fun x hx => (hobj x hx).2⟩, hmoved⟩
  refine cells_change (l := l) g (change_addSlab hnew hc) hc hroot hcs (g.cells.colour c hc) hcache
    (fun _ => hslab) (fun a ha => ⟨?_, ?_⟩) hother
  · rintro rfl
    exact not_unused_of_kept ha hu
  · exact fun hmem => not_unused_of_kept ha (hobj a hmem).1

/-! ### An old slab -/

section RemoveSlab

theorem isSlab_removeSlab (g : Good s W B R held) (hd : W.IsSlab c d) {c' d' : ℕ} :
    (W.removeSlab c d).IsSlab c' d' ↔ W.IsSlab c' d' ∧ d' ≠ d := by
  unfold Layout.IsSlab
  change c' ∈ W.caches ∧ d' ∈ update W.slabs c ((W.slabs c).erase d) c' ↔ _
  by_cases hcc : c' = c
  · subst hcc
    rw [update_self, (g.lists.nodup c' hd.1).mem_erase_iff]
    tauto
  · rw [update_of_ne hcc]
    refine ⟨fun h => ⟨h, ?_⟩, And.left⟩
    rintro rfl
    exact hcc (g.pages.cache_unique h hd)

theorem placed_removeSlab (g : Good s W B R held) (hd : W.IsSlab c d)
    (hfull : (W.free d).length = (W.kc c).num) {c' x : ℕ} (hx : W.Placed c' x)
    (hnot : x ∉ W.free d) : (W.removeSlab c d).Placed c' x := by
  obtain ⟨e, he, hobj⟩ := hx
  refine ⟨e, (isSlab_removeSlab g hd).mpr ⟨he, ?_⟩, hobj⟩
  rintro rfl
  rw [g.pages.cache_unique he hd] at hobj
  exact hnot (mem_of_length (g.free_nodup hd) (g.cells.object c e hd) hfull hobj)

theorem geometry_removeSlab (g : Good s W B R held) (hd : W.IsSlab c d)
    (hfull : (W.free d).length = (W.kc c).num) : Geometry (W.removeSlab c d).toLayout where
  root := g.geometry.root
  root_pos := g.geometry.root_pos
  root_le := g.geometry.root_le
  root_on := g.geometry.root_on
  root_objsize := g.geometry.root_objsize
  root_slabp := g.geometry.root_slabp
  sane := g.geometry.sane
  fits c' d' hd' := g.geometry.fits c' d' ((isSlab_removeSlab g hd).mp hd').1
  cache c' hc' hne := placed_removeSlab g hd hfull (g.geometry.cache c' hc' hne)
    fun hmem => g.free_ne_cache hd hmem hc' rfl
  desc c' d' hd' hoff :=
    have hold := ((isSlab_removeSlab g hd).mp hd').1
    placed_removeSlab g hd hfull (g.geometry.desc c' d' hold hoff)
      fun hmem => g.free_ne_slab hd hmem hold rfl
  slabCache := g.geometry.slabCache
  slabp := g.geometry.slabp
  slabp_on := g.geometry.slabp_on

theorem pages_removeSlab (g : Good s W B R held) (hd : W.IsSlab c d) :
    Pages s (W.removeSlab c d).toLayout (Reserve R (W.kc c).gfporder (W.page d)) := by
  have h := g.pages
  have hold : ∀ {c' d'}, (W.removeSlab c d).IsSlab c' d' → W.IsSlab c' d' ∧ d' ≠ d :=
    (isSlab_removeSlab g hd).mp
  have howned : ∀ x, W.Owned x ↔
      (W.removeSlab c d).Owned x ∨ InBlock (W.kc c).gfporder (W.page d) x := by
    intro x
    constructor
    · rintro ⟨c', d', hd', hx⟩
      by_cases hdd : d' = d
      · subst hdd
        rw [g.pages.cache_unique hd' hd] at hx
        exact Or.inr hx
      · exact Or.inl ⟨c', d', (isSlab_removeSlab g hd).mpr ⟨hd', hdd⟩, hx⟩
    · rintro (⟨c', d', hd', hx⟩ | hx)
      · exact ⟨c', d', (hold hd').1, hx⟩
      · exact ⟨c, d, hd, hx⟩
  obtain ⟨L, hrep, hL, hpool⟩ := h.rep
  refine ⟨h.present, h.present_le, ⟨L, hrep, ?_, ?_⟩, fun c' d' hd' => h.aligned c' d' (hold hd').1,
    fun c' d' hd' => h.bound c' d' (hold hd').1, fun c' d' hd' => h.back c' d' (hold hd').1, ?_⟩
  · rintro x ((hR | hb) | hO)
    · exact hL x (Or.inl hR)
    · exact hL x (Or.inr ((howned x).mpr (Or.inr hb)))
    · exact hL x (Or.inr ((howned x).mpr (Or.inl hO)))
  · intro x
    change W.pool x ↔ _
    rw [hpool x, howned x]
    unfold Reserve
    tauto
  · rintro x (hR | hb) ⟨c', d', hd', hx⟩
    · exact h.reserved x hR ⟨c', d', (hold hd').1, hx⟩
    · exact (hold hd').2 (h.unique (hold hd').1 hd hx hb).2

theorem taken_of_slab (g : Good s W B R held) (hd : W.IsSlab c d) :
    Taken W.present (W.kc c).gfporder (W.page d) R :=
  ⟨g.pages.aligned c d hd, g.pages.bound c d hd, fun x hx hR => g.pages.reserved x hR ⟨c, d, hd, hx⟩⟩

theorem freeCount_removeSlab_of_ne {c' : ℕ} (hne : c' ≠ c) :
    (W.removeSlab c d).freeCount c' = W.freeCount c' := by
  have hslabs : (W.removeSlab c d).slabs c' = W.slabs c' := update_of_ne hne _ _
  unfold World.freeCount
  rw [hslabs]
  rfl

theorem freeCount_removeSlab (hd : d ∈ W.slabs c) :
    (W.removeSlab c d).freeCount c + (W.free d).length = W.freeCount c := by
  have hslabs : (W.removeSlab c d).slabs c = (W.slabs c).erase d := update_self _ _ _
  have hsum := ((List.perm_cons_erase hd).map fun e => (W.free e).length).sum_eq
  unfold World.freeCount
  rw [hslabs, hsum, Nat.add_comm]
  rfl

theorem change_removeSlab (g : Good s W B R held) (hd : W.IsSlab c d) :
    Change W (W.removeSlab c d) c d where
  shape := rfl
  old _ _ h _ := ((isSlab_removeSlab g hd).mp h).1
  self _ h := absurd rfl ((isSlab_removeSlab g hd).mp h).2
  page _ _ := rfl
  colouroff _ _ := rfl
  free _ _ := rfl
  count _ _ hne := freeCount_removeSlab_of_ne hne
  colour _ _ := rfl

theorem holding_removeSlab (g : Good s W B R held) (hd : W.IsSlab c d)
    (hfull : (W.free d).length = (W.kc c).num) : Holding (W.removeSlab c d) held := by
  have h := g.holding
  have hold : ∀ {c' d'}, (W.removeSlab c d).IsSlab c' d' → W.IsSlab c' d' :=
    fun hd' => ((isSlab_removeSlab g hd).mp hd').1
  refine ⟨fun o ho => (isSlab_removeSlab g hd).mpr ⟨h.slab o ho, ?_⟩, h.object, fun o ho => ?_, h.nodup⟩
  · intro hod
    have hobj := h.object o ho
    have hslab := h.slab o ho
    rw [hod] at hobj hslab
    rw [g.pages.cache_unique hslab hd] at hobj
    exact (h.unused o ho).free c d hd
      (mem_of_length (g.free_nodup hd) (g.cells.object c d hd) hfull hobj)
  · have hu := h.unused o ho
    exact ⟨hu.cache, fun c' d' hd' => hu.slab c' d' (hold hd'),
      fun c' d' hd' => hu.free c' d' (hold hd')⟩

theorem lists_removeSlab (g : Good s W B R held) (hd : W.IsSlab c d) :
    ∃ B', Lists (listDel Link.null s (Link.slab d)) (W.removeSlab c d).toLayout B' ∧
      Unlinked W.caches B B' d := by
  obtain ⟨hc, k, hk⟩ := (isSlab_iff g.lists).mp hd
  obtain ⟨B', hr, hun⟩ := rings_unlink g.lists hc hk
  refine ⟨B', ⟨hr, fun e => by rw [hun.1]; exact g.lists.chain e, fun c' hc' => ?_,
    fun c' hc' e => ?_⟩, hun⟩
  · by_cases hcc : c' = c
    · subst hcc
      have hslabs : (W.removeSlab c' d).slabs c' = (W.slabs c').erase d := update_self _ _ _
      rw [hslabs]
      exact (g.lists.nodup c' hc').erase d
    · have hslabs : (W.removeSlab c d).slabs c' = W.slabs c' := update_of_ne hcc _ _
      rw [hslabs]
      exact g.lists.nodup c' hc'
  · have hiff : (W.removeSlab c d).IsSlab c' e ↔ _ := isSlab_removeSlab g hd
    have hmem : e ∈ (W.removeSlab c d).slabs c' ↔ e ∈ W.slabs c' ∧ e ≠ d :=
      ⟨fun h => ⟨(hiff.mp ⟨hc', h⟩).1.2, (hiff.mp ⟨hc', h⟩).2⟩, fun h => (hiff.mpr ⟨⟨hc', h.1⟩, h.2⟩).2⟩
    rw [hmem, g.lists.mem c' hc' e]
    simp only [hun.2 c' hc']
    constructor
    · rintro ⟨⟨k', hk'⟩, hne⟩
      exact ⟨k', hne, hk'⟩
    · rintro ⟨k', hne, hk'⟩
      exact ⟨⟨k', hk'⟩, hne⟩

/-- **A slab all of whose objects are free is given up**: it is unlinked, its objects are not
counted any more, and its block is reserved. -/
theorem good_removeSlab (g : Good s W B R held) (hd : W.IsSlab c d)
    (hfull : (W.free d).length = (W.kc c).num) :
    ∃ B', Good (store (listDel Link.null s (Link.slab d)) c (.cache ((W.removeSlab c d).desc c)))
        (W.removeSlab c d) B' (Reserve R (W.kc c).gfporder (W.page d)) held ∧
      Unlinked W.caches B B' d := by
  obtain ⟨B', hlists, hun⟩ := lists_removeSlab g hd
  refine ⟨B', ⟨geometry_removeSlab g hd hfull, pages_congr (pages_removeSlab g hd) rfl, ?_,
    lists_congr hlists rfl, holding_removeSlab g hd hfull⟩, hun⟩
  refine cells_change (l := []) g (change_removeSlab g hd) hd.1 rfl rfl (g.cells.colour c hd.1)
    (update_self _ _ _) (fun h => absurd rfl ((isSlab_removeSlab g hd).mp h).2)
    (fun a ha => ⟨?_, List.not_mem_nil⟩) (fun a hac _ _ => update_of_ne hac _ _)
  rcases ha with ha | ⟨c', d', hd', hne, rfl | ha⟩
  · exact g.cache_ne_slab ha hd
  · exact hne
  · exact g.free_ne_slab hd' ha hd

end RemoveSlab

end YegaKernel.Slab.Worlds
