import YegaKernel.Slab.Run

/-! # Empty slabs

A cache keeps at most one slab without live objects, in every run whose caches have slabs that fit
their pages (`notHoarded_of_suits`).

Where the slabs of a cache do not fit, `slab_destroy` gives pages of other slabs back. A new slab over
these pages takes the objects of another cache that come back, and goes to the list of that cache; it
does so although its own object is live (`not_notHoarded_hoardActions`). -/

namespace YegaKernel.Slab.Hoarding

open Relation (ReflTransGen)
open Lib.Links Lib.Runs
open Buddy.State (Zone)
open Buddy.Ops (PageFree)
open Buddy.Run (BuddyInvariant)
open Slab.State Slab.Ops Slab.Invariant Slab.Queues
open Slab.Worlds Slab.Grow Slab.Alloc Slab.Idle
open Slab.Init Slab.Run Slab.Objects

/-- The slab has a live object: one that is not on its free list. -/
def hasLive (k : Kernel) (kc : KmemCache) (d : ℕ) : Bool :=
  (readSlab k d).any fun sd => (freeWalk k kc.num sd.freeList).any fun xs =>
    (List.range kc.num).any fun i => decide (sd.sMem + i * kc.objsize ∉ xs)

/-- **The cache does not hoard**: `slabs_free` holds at most one slab, and of the slabs of the cache at
most one has no live object. `z` is the zone before the first call. -/
structure NotHoarded (z : Zone) (k : Kernel) (c : ℕ) : Prop where
  free : ∃ ds : List ℕ, Ring k (Link.list c .slabsFree) (ds.map Link.slab) ∧ ds.length ≤ 1
  owned : ∃ kc, readCache k c = some kc ∧ ∀ ds : List ℕ, ds.Nodup → (∀ d ∈ ds, SlabOf z k c d) →
    ds.length ≤ ds.countP (hasLive k kc) + 1

variable {pool : ℕ → Prop} {s : Session} {W : World} {B : Queue → List ℕ} {c d : ℕ}

theorem length_le_one {l : List ℕ} (hnd : l.Nodup) (h : ∀ x ∈ l, ∀ y ∈ l, x = y) : l.length ≤ 1 := by
  rcases l with _ | ⟨x, _ | ⟨y, l⟩⟩
  · simp
  · simp
  · have heq := h x (by simp) y (by simp)
    subst heq
    simp at hnd

theorem hasLive_of_not_idle (hs : Sound pool s W B) (hd : W.IsSlab c d) (hidle : ¬ W.Idle c d) :
    hasLive s.kernel (W.desc c) d = true := by
  have g := hs.good
  have hle := length_le_num (g.free_nodup hd) (g.cells.object c d hd)
  have hwalk := freeWalk_eq (g.cells.chain c d hd) (g.cells.bytes c d hd) hle
  -- the objects of the slab are more than those on the free list
  have hex : ∃ x ∈ objectsAt (W.kc c) (W.sMem d), x ∉ W.free d := by
    by_contra hall
    push Not at hall
    refine hidle ⟨hd, le_antisymm hle ?_⟩
    have hpos : 0 < (W.kc c).objsize := lt_of_lt_of_le (by norm_num) (g.geometry.sane c hd.1).objsize
    have hnd : (objectsAt (W.kc c) (W.sMem d)).Nodup :=
      List.nodup_range.map fun _ _ heq => object_inj hpos heq
    have hlen := (hnd.subperm hall).length_le
    rwa [length_objectsAt] at hlen
  obtain ⟨x, hx, hnot⟩ := hex
  obtain ⟨i, hi, rfl⟩ := mem_objectsAt.mp hx
  unfold hasLive
  rw [g.readSlab hd, Option.any_some]
  change (freeWalk s.kernel (W.kc c).num ((W.free d).headD 0)).any _ = true
  rw [hwalk, Option.any_some, List.any_eq_true]
  exact ⟨i, List.mem_range.mpr hi, decide_eq_true hnot⟩

/-- **A session that is sound has no cache that hoards.** -/
theorem notHoarded_of_sound {z : Zone} (hs : Sound (PageFree z) s W B) (hc : c ∈ W.caches) :
    NotHoarded z s.kernel c := by
  have g := hs.good
  refine ⟨⟨B (.list c .slabsFree), g.lists.rings.ring (.list c .slabsFree) hc, ?_⟩,
    W.desc c, g.readCache hc, fun ds hnd hds => ?_⟩
  · refine length_le_one (Lib.Families.Rings.nodup g.lists.rings (i := .list c .slabsFree) hc) ?_
    intro x hx y hy
    exact hs.tidy.sparse c x y ((idle_iff g hs.sorted).mpr ⟨hc, hx⟩)
      ((idle_iff g hs.sorted).mpr ⟨hc, hy⟩)
  · have hidle : ∀ d ∈ ds.filter fun d => !hasLive s.kernel (W.desc c) d, W.Idle c d := by
      intro d hd
      obtain ⟨hmem, hlive⟩ := List.mem_filter.mp hd
      by_contra hnot
      rw [hasLive_of_not_idle hs ((slabOf_iff hs).mp (hds d hmem)) hnot] at hlive
      simp at hlive
    have hone := length_le_one (hnd.filter _) fun x hx y hy =>
      hs.tidy.sparse c x y (hidle x hx) (hidle y hy)
    rw [List.length_eq_length_filter_add (hasLive s.kernel (W.desc c)), List.countP_eq_length_filter]
    exact Nat.add_le_add_left hone _

/-- **Empty slabs are not hoarded**, if the slabs of the created caches fit their pages. -/
theorem notHoarded_of_suits {k : Kernel} (hinv : BuddyInvariant k.zone)
    (hn : k.zone.presentPages ≤ 2 ^ 18) (hcs : k.csCachep = fun _ => 0) :
    ∃ k₀, initSlab zeroDesc k = some k₀ ∧ ∀ s, ReflTransGen (Step Suits) ⟨k₀, []⟩ s →
      ∀ c, OnChain s.kernel c → NotHoarded k.zone s.kernel c := by
  obtain ⟨k₀, W, B, heq, hs, -⟩ := init_sound hinv hn hcs
  refine ⟨k₀, heq, fun s hrun c hc => ?_⟩
  obtain ⟨W', B', hs', -⟩ := run_sound hs hrun
  exact notHoarded_of_sound hs' ((onChain_iff hs'.good.lists).mp hc)

/-- After a slab of the cache of 100-byte objects has become empty. -/
def emptyActions : List Action :=
  let c := 0xC0000820
  [.create zeroDesc 100 8 0, .alloc c, .free ⟨0xC0001020, c, 0xC0001000⟩]

theorem notHoarded_emptyActions : ∃ s, runFrom (plainKernel 64 (by decide)) emptyActions = some s ∧
    Link.slab 0xC0001000 ∈ listNodes 1 s.kernel (Link.list 0xC0000820 .slabsFree) ∧
    NotHoarded (plainKernel 64 (by decide)).zone s.kernel 0xC0000820 := by
  obtain ⟨k₀, hinit, hall⟩ := notHoarded_of_suits
    (buddyInvariant_plainKernel (n := 64) (by decide) (by decide)) (by decide) rfl
  have hcheck : (runFrom (plainKernel 64 (by decide)) emptyActions).any (fun s =>
      decide (Link.slab 0xC0001000 ∈ listNodes 1 s.kernel (Link.list 0xC0000820 .slabsFree) ∧
        Link.next 0xC0000820 ∈ listNodes 64 s.kernel Link.chain)) = true := by decide +kernel
  have hsuits : ∀ s, ∀ a ∈ emptyActions, Suits s a := by
    intro s a ha
    simp only [emptyActions, List.mem_cons, List.not_mem_nil, or_false] at ha
    rcases ha with rfl | rfl | rfl
    · exact suits_hundred s
    all_goals trivial
  obtain ⟨k₁, s, hinit₁, hs, hrun, hlist⟩ := run_of_check hsuits hcheck
  obtain ⟨hmem, hchain⟩ := of_decide_eq_true hlist
  obtain rfl := Option.some.inj (hinit.symm.trans hinit₁)
  exact ⟨s, hs, hmem, hall s hrun _ ⟨64, hchain⟩⟩

/-! ### A cache that hoards -/

theorem not_notHoarded_of_two {z : Zone} {k : Kernel} {d' : ℕ} (hne : d ≠ d')
    (hd : OnList k (Link.list c .slabsFree) (Link.slab d))
    (hd' : OnList k (Link.list c .slabsFree) (Link.slab d')) : ¬ NotHoarded z k c := by
  intro h
  obtain ⟨ds, hring, hlen⟩ := h.free
  rw [hring.onList_iff, List.mem_map_of_injective fun _ _ => Link.slab.inj] at hd hd'
  rcases ds with _ | ⟨e, _ | ⟨e', ds⟩⟩
  · exact absurd hd List.not_mem_nil
  · exact hne ((List.mem_singleton.mp hd).trans (List.mem_singleton.mp hd').symm)
  · simp at hlen

/-- The cache `y` has slabs of 8 pages that start at their first, second or third page in turn. Two of
them lie right in front of pages of the cache `x` of 2048-byte objects; the other requests take the
pages in between. The three slabs of `y` are given up, the last two with the wrong pages, and made
again; then an object from each of the two pages of `x` is given back. -/
def hoardActions : List Action :=
  let x := 0xC00284A0
  let y := 0xC0028820
  [.create zeroDesc 20480 4096 cflgsOffSlab, .alloc y, .alloc y, .alloc x, .alloc x, .alloc y, .alloc x, .alloc x,
    .alloc 0xC00285A0, .alloc 0xC0028620, .alloc x, .alloc x,
    .free ⟨0xC0020000, y, 0xC0029020⟩, .free ⟨0xC0001000, y, 0xC0029040⟩,
    .free ⟨0xC0012000, y, 0xC0029080⟩, .alloc y, .alloc y, .alloc y,
    .free ⟨0xC0008000, x, 0xC0029060⟩, .free ⟨0xC0018000, x, 0xC0029100⟩]

/-- **A cache with two slabs on `slabs_free`**: slabs of another cache, with live objects. -/
theorem not_notHoarded_hoardActions : BuddyInvariant (plainKernel 42 (by decide)).zone ∧
    ∃ k₀ s, initSlab zeroDesc (plainKernel 42 (by decide)) = some k₀ ∧
      ReflTransGen (Step fun _ _ => True) ⟨k₀, []⟩ s ∧ OnChain s.kernel 0xC00284A0 ∧
      ¬ NotHoarded (plainKernel 42 (by decide)).zone s.kernel 0xC00284A0 := by
  refine ⟨buddyInvariant_plainKernel _ (by decide), ?_⟩
  have hcheck : (runFrom (plainKernel 42 (by decide)) hoardActions).any (fun s =>
      decide (Link.slab 0xC0029080 ∈ listNodes 2 s.kernel (Link.list 0xC00284A0 .slabsFree) ∧
        Link.slab 0xC0029040 ∈ listNodes 2 s.kernel (Link.list 0xC00284A0 .slabsFree) ∧
        Link.next 0xC00284A0 ∈ listNodes 64 s.kernel Link.chain)) = true := by decide +kernel
  obtain ⟨k₀, s, hinit, -, hrun, hlist⟩ :=
    run_of_check (P := fun _ _ => True) (fun _ _ _ => trivial) hcheck
  obtain ⟨hd, hd', hchain⟩ := of_decide_eq_true hlist
  exact ⟨k₀, s, hinit, hrun, ⟨64, hchain⟩, not_notHoarded_of_two (by decide) ⟨2, hd⟩ ⟨2, hd'⟩⟩

end YegaKernel.Slab.Hoarding
