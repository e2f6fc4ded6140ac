import YegaKernel.Slab.Init
import YegaKernel.Lib.Runs

/-! # The slab allocator over a whole run

A session is a kernel with the objects its clients have. Clients create caches, take objects and
give them back, each once and to its own cache, and write inside their objects. Over every run from
`init_slab` each cache has its slabs on the right lists (`CacheLists`), provided that the slabs of
every cache a client creates fit their pages (`Suits`).

`kmem_cache_create` does not see to that: for a cache whose slabs have no descriptor in front of the
objects, the first object can start behind the first page of the slab, and `slab_destroy` then gives
other pages back than `kmem_getpages` took. -/

namespace YegaKernel.Slab.Run

open Relation (ReflTransGen)
open Lib.Links Lib.NullList Lib.Word Lib.Runs
open Buddy.State (Zone Node Page)
open Buddy.Ops (PageFree addFreeRegionToBuddy)
open Buddy.Run (BuddyInvariant)
open Slab.State Slab.Ops Slab.Invariant Slab.Queues
open Slab.Objects Slab.Alloc Slab.Free Slab.Create
open Slab.Idle Slab.Init Slab.Apart

/-! ### Sessions -/

/-- A kernel, and the objects that clients have. -/
structure Session where
  kernel : Kernel
  live : List Held

/-- What a client can do. `found` is what the object for a new descriptor held before. -/
inductive Action
  | create (found : KmemCache) (size align flags : ℕ)
  | alloc (c : ℕ)
  | free (h : Held)
  | write (h : Held) (x w : ℕ)

/-- The cache is on `cache_chain`. -/
def OnChain (k : Kernel) (c : ℕ) : Prop := OnList k Link.chain (Link.next c)

/-- The function is called, or the word `w` is written at `x`. With an object goes the slab that
`cache_alloc_refill` took it from. -/
def step (s : Session) : Action → Option Session
  | .create found size align flags => do
    let (_, k) ← kmemCacheCreate found s.kernel size align flags 0
    return ⟨k, s.live⟩
  | .alloc c => do
    let (x, k) ← kmemCacheAlloc callDepth s.kernel c
    if x = 0 then return ⟨k, s.live⟩
    let (d, _) ← refillSlab (kmemCacheAlloc 1) s.kernel c
    return ⟨k, ⟨x, c, d.getD 0⟩ :: s.live⟩
  | .free h => do
    let k ← kmemCacheFree callDepth s.kernel h.cache h.addr
    return ⟨k, s.live.erase h⟩
  | .write _ x w => some ⟨store s.kernel x (.bytes w), s.live⟩

/-- What clients promise: they use caches that there are, give back what they have and write inside
it. -/
def Allowed (s : Session) : Action → Prop
  | .create _ _ _ _ => True
  | .alloc c => OnChain s.kernel c
  | .free h => h ∈ s.live
  | .write h x _ => h ∈ s.live ∧
    ∃ kc, readCache s.kernel h.cache = some kc ∧ h.addr ≤ x ∧ x < h.addr + kc.objsize

/-- One allowed action, which satisfies `P`. -/
def Step (P : Session → Action → Prop) : Session → Session → Prop :=
  Acts (fun s a => Allowed s a ∧ P s a) step

/-- **The slabs of a created cache fit their pages.** The descriptor that `kmem_cache_create`
computes from its arguments is `Sane`, the `colour_next` that it leaves as it finds it is one of the
colours, and a cache without descriptors in its slabs is created only if the cache of slab
descriptors exists. -/
def Suits (s : Session) : Action → Prop
  | .create found size align flags =>
    ¬ (flags &&& slabHwcacheAlign ≠ 0 ∧ roundToWords size = 0) ∧
    alignTo (roundToWords size) align ≠ 0 ∧
    ∀ cc, readCache s.kernel s.kernel.cacheCache = some cc →
      let kc := cacheDesc found (roundToWords size) align flags 0 cc.slabpCache
      kc.num ≠ 0 → Sane kc ∧ kc.colourNext ≤ kc.colour - 1 ∧ (offSlab kc = true → cc.slabpCache ≠ 0)
  | _ => True

/-! ### What one action does -/

/-- The session is the state of a world, in which the clients' objects are held. -/
structure Sound (pool : ℕ → Prop) (s : Session) (W : World) (B : Queue → List ℕ) : Prop where
  good : Good s.kernel W B (fun _ => False) s.live
  sorted : Sorted W B
  pool : W.pool = pool
  tidy : Tidy W

variable {pool : ℕ → Prop} {s s' : Session} {W : World} {B : Queue → List ℕ} {c d x : ℕ}

theorem onChain_iff (h : Lists s.kernel W.toLayout B) : OnChain s.kernel c ↔ c ∈ W.caches := by
  have hring : Ring s.kernel Link.chain ((B .chain).map Link.next) := h.rings.ring .chain trivial
  unfold OnChain
  rw [hring.onList_iff, List.mem_map_of_injective fun _ _ => Link.next.inj, h.chain]

theorem onList_iff (h : Lists s.kernel W.toLayout B) (hc : c ∈ W.caches) {k : Kind} :
    OnList s.kernel (Link.list c k) (Link.slab d) ↔ d ∈ B (.list c k) := by
  have hring : Ring s.kernel (Link.list c k) ((B (.list c k)).map Link.slab) :=
    h.rings.ring (.list c k) hc
  rw [hring.onList_iff, List.mem_map_of_injective fun _ _ => Link.slab.inj]

theorem good_perm {s : Kernel} {R : ℕ → Prop} {held held' : List Held} (g : Good s W B R held)
    (h : held.Perm held') : Good s W B R held' := by
  obtain ⟨h1, h2, h3, h4⟩ := g.holding
  refine ⟨g.geometry, g.pages, g.cells, g.lists, fun o ho => h1 o (h.mem_iff.mpr ho),
    fun o ho => h2 o (h.mem_iff.mpr ho), fun o ho => h3 o (h.mem_iff.mpr ho), ?_⟩
  exact (h.map Held.addr).nodup_iff.mp h4

/-- The caches of `W` are caches of `W'`, with the same parameters. -/
def KeepsCaches (W W' : World) : Prop := ∀ c ∈ W.caches, c ∈ W'.caches ∧ W'.kc c = W.kc c

variable {W' : World} {k : Kernel} {z : Zone}

theorem KeepsCaches.trans {W W'' : World} (h : KeepsCaches W W') (h' : KeepsCaches W' W'') :
    KeepsCaches W W'' := fun c hc =>
  ⟨(h' c (h c hc).1).1, ((h' c (h c hc).1).2).trans (h c hc).2⟩

theorem keepsCaches_of_shape {W : World} (h : W'.toShape = W.toShape) : KeepsCaches W W' :=
  fun c hc => ⟨by rw [show W'.caches = _ from congrArg Shape.caches h]; exact hc,
    congrFun (congrArg Shape.kc h) c⟩

theorem keepsCaches_addCache {W : World} {kc : KmemCache} (hc : c ∉ W.caches)
    (h : W'.toShape = W.toShape.addCache c kc) :
    KeepsCaches W W' ∧ c ∈ W'.caches ∧ W'.kc c = kc := by
  have hcaches : W'.caches = c :: W.caches := congrArg Shape.caches h
  have hkc : W'.kc = Function.update W.kc c kc := congrArg Shape.kc h
  rw [KeepsCaches, hcaches, hkc, Function.update_self]
  refine ⟨fun c' hc' => ⟨List.mem_cons_of_mem _ hc', ?_⟩, List.mem_cons_self, rfl⟩
  exact Function.update_of_ne (ne_of_mem_of_not_mem hc' hc) _ _

section
variable (hs : Sound pool s W B)
include hs

theorem create_sound {found : KmemCache} {size align flags : ℕ}
    (hP : Suits s (.create found size align flags)) :
    ∃ c k W' B', kmemCacheCreate found s.kernel size align flags 0 = some (c, k) ∧
      Sound pool ⟨k, s.live⟩ W' B' ∧ KeepsCaches W W' ∧ (c ≠ 0 → c ∈ W'.caches ∧
        W'.kc c = cacheDesc found (roundToWords size) align flags 0 W.slabCache) := by
  obtain ⟨hsize, hobj, hcond⟩ := hP
  have g := hs.good
  have hread : readCache s.kernel s.kernel.cacheCache = some (W.desc W.cacheCache) := by
    rw [g.cells.root]
    exact g.readCache g.geometry.root
  have hslabp : (W.desc W.cacheCache).slabpCache = W.slabCache := g.geometry.root_slabp
  have hkc := hcond _ hread
  rw [hslabp] at hkc
  have hadm : (cacheDesc found (roundToWords size) align flags 0 W.slabCache).num ≠ 0 →
      Admissible W.toLayout (cacheDesc found (roundToWords size) align flags 0 W.slabCache) :=
    fun hnum => ⟨(hkc hnum).1, fun hoff => g.geometry.slabCache.resolve_left ((hkc hnum).2.2 hoff),
      rfl, (hkc hnum).2.1, rfl⟩
  obtain ⟨c, k, W', B', heq, hwithin, hsort, g', hres⟩ :=
    kmemCacheCreate_spec _ _ _ _ _ g hs.sorted hsize hobj hadm
  rcases hres with ⟨rfl, hshape, -⟩ | ⟨hc0, hc, hshape⟩
  · exact ⟨0, k, W', B', heq, ⟨g', hsort, (congrArg Shape.pool hshape).trans hs.pool,
      hs.tidy.of_shape hshape hwithin g'⟩, keepsCaches_of_shape hshape, fun h => absurd rfl h⟩
  · obtain ⟨hkeeps, hnew⟩ := keepsCaches_addCache hc hshape
    exact ⟨c, k, W', B', heq, ⟨g', hsort, ((congrArg Shape.pool hshape).trans rfl).trans hs.pool,
      hs.tidy.of_addCache hshape hc hc0 g.geometry.slabCache rfl hwithin g'⟩, hkeeps, fun _ => hnew⟩

theorem alloc_sound (hc : c ∈ W.caches) :
    ∃ x k W' B', kmemCacheAlloc callDepth s.kernel c = some (x, k) ∧ W'.toShape = W.toShape ∧
      ((x = 0 ∧ Sound pool ⟨k, s.live⟩ W' B') ∨ (x ≠ 0 ∧ ∃ d k₁,
        refillSlab (kmemCacheAlloc 1) s.kernel c = some (some d, k₁) ∧
        Sound pool ⟨k, ⟨x, c, d⟩ :: s.live⟩ W' B')) := by
  obtain ⟨x, k, W', B', heq, hshape, hidle, hsort, hres⟩ :=
    cacheAllocRefill_spec _ hs.good hs.sorted hc fun _ => servesOn_kmemCacheAlloc 0
  have hpool : W'.pool = pool := (congrArg Shape.pool hshape).trans hs.pool
  refine ⟨x, k, W', B', heq, hshape, ?_⟩
  have hwithin := within_of_noNewIdle hidle
  rcases hres with ⟨hx, -, g'⟩ | ⟨hx, d, k₁, hrefill, g'⟩
  · exact Or.inl ⟨hx, g', hsort, hpool, hs.tidy.of_shape hshape hwithin g'⟩
  · exact Or.inr ⟨hx, d, k₁, hrefill, g', hsort, hpool, hs.tidy.of_shape hshape hwithin g'⟩

theorem free_sound {h : Held} (hh : h ∈ s.live) :
    ∃ k W' B', kmemCacheFree callDepth s.kernel h.cache h.addr = some k ∧ W'.toShape = W.toShape ∧
      Sound pool ⟨k, s.live.erase h⟩ W' B' := by
  have g := good_perm hs.good (List.perm_cons_erase hh)
  obtain ⟨k, W', B', heq, hshape, hwithin, hsort, g'⟩ := kmemCacheFree_spec g hs.sorted
  exact ⟨k, W', B', heq, hshape, g', hsort, (congrArg Shape.pool hshape).trans hs.pool,
    hs.tidy.of_shape hshape hwithin g'⟩

theorem write_sound {h : Held} {w : ℕ} (hP : Allowed s (.write h x w)) :
    Sound pool ⟨store s.kernel x (.bytes w), s.live⟩ W B := by
  obtain ⟨hh, kc, hkc, hlo, hhi⟩ := hP
  have hread := hs.good.readCache (hs.good.holding.slab h hh).1
  obtain rfl : W.desc h.cache = kc := Option.some.inj (hread.symm.trans hkc)
  exact ⟨good_write hs.good hh hlo hhi w, hs.sorted, hs.pool, hs.tidy⟩

/-- **An action returns, the session is sound then**, and the caches are still there. -/
theorem step_sound {a : Action} (ha : Allowed s a) (hP : Suits s a) :
    ∃ s' W' B', step s a = some s' ∧ Sound pool s' W' B' ∧ KeepsCaches W W' := by
  cases a with
  | create found size align flags =>
    obtain ⟨c, k, W', B', hcreate, hs', hkeeps, -⟩ := create_sound hs hP
    rw [step, hcreate]
    exact ⟨_, W', B', rfl, hs', hkeeps⟩
  | alloc c =>
    obtain ⟨x, k, W', B', halloc, hshape, hres⟩ := alloc_sound hs ((onChain_iff hs.good.lists).mp ha)
    rw [step, halloc]
    rcases hres with ⟨rfl, hs'⟩ | ⟨hx, d, k₁, hrefill, hs'⟩
    · exact ⟨_, W', B', rfl, hs', keepsCaches_of_shape hshape⟩
    · simp only [Option.bind_eq_bind, Option.bind_some, if_neg hx, hrefill]
      exact ⟨_, W', B', rfl, hs', keepsCaches_of_shape hshape⟩
  | free h =>
    obtain ⟨k, W', B', hfree, hshape, hs'⟩ := free_sound hs ha
    rw [step, hfree]
    exact ⟨_, W', B', rfl, hs', keepsCaches_of_shape hshape⟩
  | write h x w => exact ⟨_, W, B, rfl, write_sound hs ha, keepsCaches_of_shape rfl⟩

/-- **A run keeps the session sound**, and the caches. -/
theorem run_sound (hrun : ReflTransGen (Step Suits) s s') :
    ∃ W' B', Sound pool s' W' B' ∧ KeepsCaches W W' := by
  refine invariant_of_run (I := fun s => ∃ W' B', Sound pool s W' B' ∧ KeepsCaches W W') ?_
    ⟨W, B, hs, keepsCaches_of_shape rfl⟩ hrun
  rintro s₁ s₂ ⟨W₁, B₁, h₁, hkeeps₁⟩ ⟨a, ⟨ha, hP⟩, heq⟩
  obtain ⟨s₂, W₂, B₂, heq₂, h₂, hkeeps₂⟩ := step_sound h₁ ha hP
  obtain rfl := Option.some.inj (heq.symm.trans heq₂)
  exact ⟨W₂, B₂, h₂, hkeeps₁.trans hkeeps₂⟩

end

theorem init_sound (hinv : BuddyInvariant k.zone) (hn : k.zone.presentPages ≤ 2 ^ 18)
    (hcs : k.csCachep = fun _ => 0) :
    ∃ k' W B, initSlab zeroDesc k = some k' ∧ Sound (PageFree k.zone) ⟨k', []⟩ W B ∧
      Classes W.toShape := by
  obtain ⟨L, hrep⟩ := Buddy.Run.buddyInvariant_iff.mp hinv
  obtain ⟨k', W, B, heq, g, hsort, hpool, hcls, htidy⟩ := initSlab_spec hrep hn hcs
  exact ⟨k', W, B, heq, ⟨g, hsort, hpool, htidy⟩, hcls⟩

/-! ### The lists of a cache -/

/-- `d` is a slab of the cache: the descriptor of a page that was free in the zone `z` and is taken
now points to it. -/
def SlabOf (z : Zone) (k : Kernel) (c d : ℕ) : Prop :=
  ∃ p, PageFree z p ∧ ¬ PageFree k.zone p ∧ k.zone.links (Node.lru p) = ⟨Node.addr c, Node.addr d⟩

/-- The objects met from `p` on, up to NULL, if there are at most `fuel` of them. -/
def freeWalk (k : Kernel) : ℕ → ℕ → Option (List ℕ)
  | 0, p => if p = 0 then some [] else none
  | fuel + 1, p =>
    if p = 0 then some []
    else do
      let next ← readWord k p
      let xs ← freeWalk k fuel next
      return p :: xs

/-- The slab with the descriptor `sd` of a cache with the descriptor `kc` is on the list `kind`
rightly, and its free list has the objects that are not in use. -/
structure SlabState (s : Session) (kc : KmemCache) (kind : Kind) (sd : SlabDesc) : Prop where
  full : kind = .slabsFull ↔ sd.inuse = kc.num
  part : kind = .slabsPartial ↔ 0 < sd.inuse ∧ sd.inuse < kc.num
  free : kind = .slabsFree ↔ sd.inuse = 0
  walk : ∃ xs, freeWalk s.kernel kc.num sd.freeList = some xs ∧ xs.length = kc.num - sd.inuse ∧
    xs.Nodup ∧ ∀ x ∈ xs, (∃ i < kc.num, x = sd.sMem + i * kc.objsize) ∧ ∀ h ∈ s.live, h.addr ≠ x

/-- The field `inuse` of a slab. -/
def inuse (k : Kernel) (d : ℕ) : ℕ := ((readSlab k d).map SlabDesc.inuse).getD 0

/-- **The lists of the cache `c` hold the slabs `l`**: each slab of the cache is on one of them, the
right one, and `free_objects` is the number of free objects. `z` is the zone before the first
call. -/
structure CacheLists (z : Zone) (s : Session) (c : ℕ) (kc : KmemCache) (l : Kind → List ℕ) : Prop where
  ring : ∀ kind, Ring s.kernel (Link.list c kind) ((l kind).map Link.slab)
  mem : ∀ d, SlabOf z s.kernel c d ↔ ∃ kind, d ∈ l kind
  once : ∀ d kind kind', d ∈ l kind → d ∈ l kind' → kind = kind'
  slab : ∀ kind, ∀ d ∈ l kind, ∃ sd, readSlab s.kernel d = some sd ∧ SlabState s kc kind sd
  freeObjects : kc.freeObjects = ((l .slabsFull ++ l .slabsPartial ++ l .slabsFree).map fun d =>
    kc.num - inuse s.kernel d).sum

/-- Every cache has its slabs on the right lists, and the next call returns. -/
structure SlabLists (z : Zone) (s : Session) : Prop where
  lists : ∀ c, OnChain s.kernel c → ∃ kc l, readCache s.kernel c = some kc ∧ CacheLists z s c kc l
  alloc : ∀ c, OnChain s.kernel c → (kmemCacheAlloc callDepth s.kernel c).isSome
  free : ∀ h ∈ s.live, (kmemCacheFree callDepth s.kernel h.cache h.addr).isSome

theorem slabOf_iff (hs : Sound (PageFree z) s W B) : SlabOf z s.kernel c d ↔ W.IsSlab c d := by
  obtain ⟨L, hrep, hL, hpool⟩ := hs.good.pages.rep
  rw [hs.pool] at hpool
  constructor
  · rintro ⟨p, hfree, htaken, hlinks⟩
    rcases (hpool p).mp hfree with hcov | hR | ⟨c', d', hd', hin⟩
    · exact absurd ((hrep.pageFree_iff p).mpr hcov) htaken
    · exact hR.elim
    · have heq := (hs.good.pages.back c' d' hd' p hin).1.symm.trans hlinks
      simp only [Buddy.State.ListHead.mk.injEq, Node.addr.injEq] at heq
      rw [← heq.1, ← heq.2]
      exact hd'
  · intro hd
    have hin : W.InSlab c d (W.page d) := Buddy.FreeBlocks.inBlock_start _ _
    have hown : W.Owned (W.page d) := ⟨c, d, hd, hin⟩
    exact ⟨W.page d, (hpool _).mpr (Or.inr (Or.inr hown)),
      fun hf => hL _ (Or.inr hown) ((hrep.pageFree_iff _).mp hf), (hs.good.pages.back c d hd _ hin).1⟩

theorem freeWalk_eq : ∀ {fuel p : ℕ} {l : List ℕ}, Threaded (word k.mem) p l →
    (∀ x ∈ l, ∃ w, k.mem x = .bytes w) → l.length ≤ fuel → freeWalk k fuel p = some l
  | 0, p, [], hp, _, _ => if_pos hp
  | fuel + 1, p, [], hp, _, _ => if_pos hp
  | 0, p, x :: l, _, _, hlen => absurd hlen (by simp)
  | fuel + 1, p, x :: l, ⟨hpx, hx0, hl⟩, hbytes, hlen => by
    subst hpx
    obtain ⟨w, hw⟩ := hbytes p List.mem_cons_self
    have hword : word k.mem p = w := by
      unfold word
      rw [hw]
    rw [hword] at hl
    have hrest := freeWalk_eq hl (fun y hy => hbytes y (List.mem_cons_of_mem _ hy))
      (Nat.le_of_succ_le_succ hlen)
    rw [freeWalk, if_neg hx0, readWord_of_mem hx0 hw]
    simp only [Option.bind_eq_bind, Option.bind_some, hrest]
    rfl

theorem kindOf_iff {f num : ℕ} (hf : f ≤ num) (hnum : 0 < num) :
    (kindOf f num = .slabsFull ↔ num - f = num) ∧
      (kindOf f num = .slabsPartial ↔ 0 < num - f ∧ num - f < num) ∧
      (kindOf f num = .slabsFree ↔ num - f = 0) := by
  unfold kindOf
  split_ifs with h0 hn
  · simp; omega
  · simp; omega
  · simp; omega

theorem slabState_of_sound (hs : Sound pool s W B) (hd : W.IsSlab c d) {kind : Kind}
    (hk : d ∈ B (.list c kind)) : SlabState s (W.desc c) kind (W.slabDesc c d) := by
  have g := hs.good
  have hlen : (W.free d).length ≤ (W.kc c).num :=
    length_le_num (g.free_nodup hd) (g.cells.object c d hd)
  obtain ⟨hfull, hpart, hfree⟩ := kindOf_iff hlen (g.geometry.sane c hd.1).num
  rw [← hs.sorted c hd.1 kind d hk] at hfull hpart hfree
  refine ⟨hfull, hpart, hfree, W.free d, freeWalk_eq (g.cells.chain c d hd) (g.cells.bytes c d hd) hlen,
    ?_, g.free_nodup hd, fun x hx => ⟨g.cells.object c d hd x hx, fun h hh heq => ?_⟩⟩
  · change _ = (W.kc c).num - ((W.kc c).num - (W.free d).length)
    omega
  · exact (g.holding.unused h hh).free c d hd (heq ▸ hx)

theorem slabs_perm (hs : Sound pool s W B) (hc : c ∈ W.caches) :
    (B (.list c .slabsFull) ++ B (.list c .slabsPartial) ++ B (.list c .slabsFree)).Perm (W.slabs c) := by
  have hl := hs.good.lists
  have hnd : ∀ kind, (B (.list c kind)).Nodup := fun kind =>
    Lib.Families.Rings.nodup hl.rings (i := .list c kind) hc
  have hdis : ∀ kind kind', kind ≠ kind' → (B (.list c kind)).Disjoint (B (.list c kind')) :=
    fun kind kind' hne d hd hd' => hne (queue_unique hl hc hc hd hd').2
  rw [List.perm_ext_iff_of_nodup _ (hl.nodup c hc)]
  · intro d
    rw [hl.mem c hc d]
    constructor
    · intro hd
      simp only [List.mem_append] at hd
      rcases hd with (hd | hd) | hd
      · exact ⟨_, hd⟩
      · exact ⟨_, hd⟩
      · exact ⟨_, hd⟩
    · rintro ⟨kind, hd⟩
      simp only [List.mem_append]
      cases kind with
      | slabsFull => exact Or.inl (Or.inl hd)
      | slabsPartial => exact Or.inl (Or.inr hd)
      | slabsFree => exact Or.inr hd
  · refine ((hnd _).append (hnd _) (hdis _ _ (by simp))).append (hnd _) ?_
    rw [List.disjoint_append_left]
    exact ⟨hdis _ _ (by simp), hdis _ _ (by simp)⟩

theorem freeObjects_eq (hs : Sound pool s W B) (hc : c ∈ W.caches) : (W.desc c).freeObjects =
      ((B (.list c .slabsFull) ++ B (.list c .slabsPartial) ++ B (.list c .slabsFree)).map fun d =>
        (W.desc c).num - inuse s.kernel d).sum := by
  have g := hs.good
  rw [((slabs_perm hs hc).map _).sum_eq]
  have hsum : (W.desc c).freeObjects = W.freeCount c := u32_of_lt (freeCount_lt g hc)
  rw [hsum, World.freeCount]
  refine congrArg List.sum (List.map_congr_left fun d hd => ?_)
  have hlen : (W.free d).length ≤ (W.kc c).num :=
    length_le_num (g.free_nodup ⟨hc, hd⟩) (g.cells.object c d ⟨hc, hd⟩)
  unfold inuse
  rw [g.readSlab ⟨hc, hd⟩]
  change _ = (W.kc c).num - ((W.kc c).num - (W.free d).length)
  omega

theorem cacheLists_of_sound (hs : Sound (PageFree z) s W B) (hc : c ∈ W.caches) :
    CacheLists z s c (W.desc c) fun kind => B (.list c kind) where
  ring kind := hs.good.lists.rings.ring (.list c kind) hc
  mem d := by
    rw [slabOf_iff hs, isSlab_iff hs.good.lists, and_iff_right hc]
  once _ _ _ hd hd' := (queue_unique hs.good.lists hc hc hd hd').2
  slab _ d hd :=
    have hd' := isSlab_of_mem hs.good.lists hc hd
    ⟨_, hs.good.readSlab hd', slabState_of_sound hs hd' hd⟩
  freeObjects := freeObjects_eq hs hc

theorem slabLists_of_sound (hs : Sound (PageFree z) s W B) : SlabLists z s where
  lists c hc :=
    have hc' := (onChain_iff hs.good.lists).mp hc
    ⟨_, _, hs.good.readCache hc', cacheLists_of_sound hs hc'⟩
  alloc c hc := by
    obtain ⟨x, k, W', B', heq, -⟩ := alloc_sound hs ((onChain_iff hs.good.lists).mp hc)
    rw [heq]
    rfl
  free h hh := by
    obtain ⟨k, W', B', heq, -⟩ := free_sound hs hh
    rw [heq]
    rfl

/-- **The slabs of every cache are on the right lists after every call**, if the slabs of the
created caches fit their pages. -/
theorem slab_lists_of_suits {k : Kernel} (hinv : BuddyInvariant k.zone)
    (hn : k.zone.presentPages ≤ 2 ^ 18) (hcs : k.csCachep = fun _ => 0) :
    ∃ k₀, initSlab zeroDesc k = some k₀ ∧
      ∀ s, ReflTransGen (Step Suits) ⟨k₀, []⟩ s → SlabLists k.zone s := by
  obtain ⟨k₀, W, B, heq, hs, -⟩ := init_sound hinv hn hcs
  refine ⟨k₀, heq, fun s hrun => ?_⟩
  obtain ⟨W', B', hs', -⟩ := run_sound hs hrun
  exact slabLists_of_sound hs'

/-! ### Fixed runs -/

/-- A kernel before `init_slab`, with `n` pages, all free. -/
def plainKernel (n : ℕ) (h : Buddy.State.sizeofPage * n ≤ 2 ^ 32) : Kernel where
  zone := addFreeRegionToBuddy (Buddy.Run.emptyZone n h) 0 (n - 1)
  mem := fun _ => .bytes 0
  links := fun _ => ⟨Link.null, Link.null⟩
  cacheCache := 0x100000
  csCachep := fun _ => 0
  cacheCache_pos := by decide
  cacheCache_le := by decide

theorem buddyInvariant_plainKernel {n : ℕ} (h : Buddy.State.sizeofPage * n ≤ 2 ^ 32) (hn : 0 < n) :
    BuddyInvariant (plainKernel n h).zone := Buddy.Run.buddyInvariant_region h hn 0

/-- A check that an action is allowed, for runs with at most `64` caches. -/
def allowedCheck (s : Session) : Action → Bool
  | .create _ _ _ _ => true
  | .alloc c => decide (Link.next c ∈ listNodes 64 s.kernel Link.chain)
  | .free h => decide (h ∈ s.live)
  | .write h x _ => decide (h ∈ s.live) &&
    (readCache s.kernel h.cache).any fun kc => decide (h.addr ≤ x ∧ x < h.addr + kc.objsize)

theorem allowed_of_check {a : Action} (h : allowedCheck s a = true) : Allowed s a := by
  cases a with
  | create found size align flags => trivial
  | alloc c => exact ⟨64, of_decide_eq_true h⟩
  | free h' =>
    have hmem : h' ∈ s.live := of_decide_eq_true h
    exact hmem
  | write h' x w =>
    obtain ⟨hmem, hkc⟩ := Bool.and_eq_true_iff.mp h
    obtain ⟨kc, hread, hx⟩ := (Option.any_eq_true _ _).mp hkc
    exact ⟨of_decide_eq_true hmem, kc, hread, of_decide_eq_true hx⟩

/-- `init_slab`, and then the actions. -/
def runFrom (k : Kernel) (as : List Action) : Option Session :=
  (initSlab zeroDesc k).bind fun k₀ => runList allowedCheck step ⟨k₀, []⟩ as

theorem run_of_check {P : Session → Action → Prop} {as : List Action}
    {check : Session → Bool} (hP : ∀ s, ∀ a ∈ as, P s a) (h : (runFrom k as).any check = true) :
    ∃ k₀ s, initSlab zeroDesc k = some k₀ ∧ runFrom k as = some s ∧
      ReflTransGen (Step P) ⟨k₀, []⟩ s ∧ check s = true := by
  obtain ⟨s, hs, hcheck⟩ := (Option.any_eq_true _ _).mp h
  obtain ⟨k₀, hinit, hrun⟩ := Option.bind_eq_some_iff.mp hs
  exact ⟨k₀, s, hinit, hs,
    run_of_runList (fun s a ha hcheck => ⟨allowed_of_check hcheck, hP s a ha⟩) hrun, hcheck⟩

theorem suits_of_onSlab {size align flags : ℕ}
    (hsize : ¬ (flags &&& slabHwcacheAlign ≠ 0 ∧ roundToWords size = 0))
    (halign : alignTo (roundToWords size) align ≠ 0)
    (hsane : Sane (cacheDesc zeroDesc (roundToWords size) align flags 0 0))
    (hon : offSlab (cacheDesc zeroDesc (roundToWords size) align flags 0 0) = false) (s : Session) :
    Suits s (.create zeroDesc size align flags) := by
  refine ⟨hsize, halign, fun cc _ _ => ⟨?_, Nat.zero_le _, fun hoff => ?_⟩⟩
  · obtain ⟨h1, h2, h3, h4, h5, h6, h7, h8⟩ := hsane
    exact ⟨h1, h2, h3, h4, h5, h6, h7, h8⟩
  · exact absurd (hon.symm.trans hoff) (by simp)

theorem suits_hundred : ∀ s, Suits s (.create zeroDesc 100 8 0) :=
  suits_of_onSlab (by decide) (by decide +kernel) (by decide +kernel) (by decide +kernel)

/-- A cache of 100-byte objects is created, and two objects are taken; one is written to and given
back. -/
def hundredActions : List Action :=
  let c := 0xC0000820
  [.create zeroDesc 100 8 0, .alloc c, .alloc c, .write ⟨0xC0001020, c, 0xC0001000⟩ 0xC0001050 7,
    .free ⟨0xC0001020, c, 0xC0001000⟩]

theorem slabLists_hundredActions : ∃ s, runFrom (plainKernel 64 (by decide)) hundredActions = some s ∧
    s.live.length = 1 ∧ SlabLists (plainKernel 64 (by decide)).zone s := by
  obtain ⟨k₀, hinit, hall⟩ := slab_lists_of_suits
    (buddyInvariant_plainKernel (n := 64) (by decide) (by decide)) (by decide) rfl
  have hcheck : (runFrom (plainKernel 64 (by decide)) hundredActions).any
      (fun s => decide (s.live.length = 1)) = true := by decide +kernel
  have hsuits : ∀ s, ∀ a ∈ hundredActions, Suits s a := by
    intro s a ha
    simp only [hundredActions, List.mem_cons, List.not_mem_nil, or_false] at ha
    rcases ha with rfl | rfl | rfl | rfl | rfl
    · exact suits_hundred s
    all_goals trivial
  obtain ⟨k₁, s, hinit₁, hs, hrun, hlen⟩ := run_of_check hsuits hcheck
  obtain rfl := Option.some.inj (hinit.symm.trans hinit₁)
  exact ⟨s, hs, of_decide_eq_true hlen, hall s hrun⟩

/-- A cache of 20480-byte objects for slabs without descriptor, aligned to pages: a slab has 8 pages
and one object, and starts at its first, second, or third page in turn. Four objects are taken, two
given back, two taken again, and one of the first four is given back. -/
def strayActions : List Action :=
  let c := 0xC0000820
  [.create zeroDesc 20480 4096 cflgsOffSlab, .alloc c, .alloc c, .alloc c, .alloc c,
    .free ⟨0xC0008000, c, 0xC0001020⟩, .free ⟨0xC001A000, c, 0xC0001060⟩, .alloc c, .alloc c,
    .free ⟨0xC0020000, c, 0xC0001080⟩]

/-- The last object goes to the slab of an object that is still live, which has no such object. -/
def strayCheck (z : Zone) (s : Session) : Bool :=
  decide (Link.next 0xC0000820 ∈ listNodes 64 s.kernel Link.chain) &&
  decide (((readCache s.kernel 0xC0000820).map fun kc => (kc.num, kc.objsize)) = some (1, 20480)) &&
  decide (PageFree z 27 ∧ ¬ PageFree s.kernel.zone 27 ∧
    s.kernel.zone.links (Node.lru 27) = ⟨Node.addr 0xC0000820, Node.addr 0xC0001060⟩) &&
  decide (((readSlab s.kernel 0xC0001060).map fun sd => (sd.sMem, sd.freeList)) =
    some (0xC001B000, 0xC0020000)) &&
  decide (freeWalk s.kernel 1 0xC0020000 = some [0xC0020000]) &&
  decide (⟨0xC001B000, 0xC0000820, 0xC0001060⟩ ∈ s.live)

theorem not_slabLists_of_strayCheck (h : strayCheck z s = true) : ¬ SlabLists z s := by
  simp only [strayCheck, Bool.and_eq_true, decide_eq_true_eq] at h
  obtain ⟨⟨⟨⟨⟨hchain, hkc⟩, hpage⟩, hslab⟩, hwalk⟩, -⟩ := h
  intro hl
  obtain ⟨kc, l, hread, hlists⟩ := hl.lists _ ⟨64, hchain⟩
  obtain ⟨kind, hd⟩ := (hlists.mem _).mp ⟨27, hpage⟩
  obtain ⟨sd, hsd, hstate⟩ := hlists.slab kind _ hd
  rw [hread, Option.map_some, Option.some.injEq, Prod.mk.injEq] at hkc
  rw [hsd, Option.map_some, Option.some.injEq, Prod.mk.injEq] at hslab
  obtain ⟨xs, hxs, -, -, hmem⟩ := hstate.walk
  rw [hkc.1, hslab.2, hwalk, Option.some.injEq] at hxs
  subst hxs
  obtain ⟨⟨i, hi, heq⟩, -⟩ := hmem _ List.mem_cons_self
  rw [hslab.1, hkc.2] at heq
  omega

/-- **A created cache whose slabs do not fit**: an object is put on the free list of a slab it is
not in, while the object of that slab is live. -/
theorem not_slabLists_strayActions : BuddyInvariant (plainKernel 64 (by decide)).zone ∧
    ∃ k₀ s, initSlab zeroDesc (plainKernel 64 (by decide)) = some k₀ ∧
      ReflTransGen (Step fun _ _ => True) ⟨k₀, []⟩ s ∧
      ¬ SlabLists (plainKernel 64 (by decide)).zone s := by
  refine ⟨buddyInvariant_plainKernel _ (by decide), ?_⟩
  have hcheck : (runFrom (plainKernel 64 (by decide)) strayActions).any
      (strayCheck (plainKernel 64 (by decide)).zone) = true := by decide +kernel
  obtain ⟨k₀, s, hinit, -, hrun, hstray⟩ :=
    run_of_check (P := fun _ _ => True) (fun _ _ _ => trivial) hcheck
  exact ⟨k₀, s, hinit, hrun, not_slabLists_of_strayCheck hstray⟩

end YegaKernel.Slab.Run
