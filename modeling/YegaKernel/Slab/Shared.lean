import YegaKernel.Slab.Run
import YegaKernel.Buddy.Account

/-! # The page allocator and its clients

The pages of the zone go to the slab allocator and to clients of `alloc_pages`, such as
`alloc_kernel_stack`, in any order of calls. A system is a kernel with the objects and the blocks of
pages that its clients have.

`pages_accounted_of_boot`: in every run from `init_zone` and `init_slab`, a page that was not marked
at boot is at any time either free, or in one block of a client, or in one slab; a marked page is
none of these. What the slab allocator keeps or hands out is in pages of its slabs, so it never
meets a client's block. -/

namespace YegaKernel.Slab.Shared

open Relation (ReflTransGen)
open Lib.Links Lib.Runs Lib.Word
open Buddy.State Buddy.Ops Buddy.FreeBlocks
open Buddy.Represent Buddy.Spec Buddy.Init
open Buddy.Account (InBlocks inBlocks_cons inBlocks_perm)
open Slab.State (Kernel KmemCache Link Kind store readCache readSlab virtToPage
  virtToHeadPage pageAddress pageOffset sizeofKmemCache sizeofSlab)
open Slab.Ops Slab.Invariant Slab.PageOps Slab.Init
open Slab.Run

/-! ### Calls for pages -/

/-- `alloc_pages`, which ignores its flags. -/
def allocPages (s : Kernel) (order : ℕ) : Option ℕ × Kernel :=
  let (page, z) := allocateBlock s.zone order
  (page, { s with zone := z })

def freePages (s : Kernel) (page order : ℕ) : Kernel :=
  { s with zone := freeBlock s.zone page order }

def kstackOrder : ℕ := 1

/-- The end of the new stack, or NULL. -/
def allocKernelStack (s : Kernel) : ℕ × Kernel :=
  match allocPages s kstackOrder with
  | (none, s) => (0, s)
  | (some p, s) => (u32 (pageAddress p + pageSize * 2 ^ kstackOrder), s)

/-! ### Systems -/

/-- A kernel, with the objects its clients have and their blocks of pages: first page and order. -/
structure System where
  kernel : Kernel
  live : List Held
  blocks : List (ℕ × ℕ)

/-- The slab allocator and its clients. -/
def System.session (s : System) : Session := ⟨s.kernel, s.live⟩

/-- What clients can do: an action of the slab allocator's clients, a call for pages, and a write of
the word `w` at `x`, in a block of pages. -/
inductive Use
  | slab (a : Action)
  | allocPages (order : ℕ)
  | freePages (b : ℕ × ℕ)
  | kernelStack
  | write (b : ℕ × ℕ) (x w : ℕ)

def use (s : System) : Use → Option System
  | .slab a => (step s.session a).map fun t => ⟨t.kernel, t.live, s.blocks⟩
  | .allocPages order =>
    match allocPages s.kernel order with
    | (none, k) => some ⟨k, s.live, s.blocks⟩
    | (some p, k) => some ⟨k, s.live, (p, order) :: s.blocks⟩
  | .freePages b => some ⟨freePages s.kernel b.1 b.2, s.live, s.blocks.erase b⟩
  | .kernelStack =>
    -- the caller has the end of the stack only
    let (esp, k) := allocKernelStack s.kernel
    if esp = 0 then some ⟨k, s.live, s.blocks⟩
    else some ⟨k, s.live, (virtToPage (esp - pageSize * 2 ^ kstackOrder), kstackOrder) :: s.blocks⟩
  | .write _ x w => some ⟨store s.kernel x (.bytes w), s.live, s.blocks⟩

/-- What clients promise: they give back what they have and write inside it, and the slabs of a cache
they create fit their pages. -/
def MayUse (s : System) : Use → Prop
  | .slab a => Allowed s.session a ∧ Suits s.session a
  | .allocPages _ => True
  | .freePages b => b ∈ s.blocks
  | .kernelStack => True
  | .write b x _ => b ∈ s.blocks ∧ base b.1 ≤ x ∧ x < base b.1 + pageSize * 2 ^ b.2

def Uses : System → System → Prop := Acts MayUse use

/-! ### Where the pages are -/

/-- The page is in the slab `d` of the cache `c`: the cache is on `cache_chain`, the slab on one of its
lists, and the page among those from the first page of the objects on. -/
def SlabPage (k : Kernel) (c d p : ℕ) : Prop :=
  ∃ kc sd kind, OnChain k c ∧ OnList k (Link.list c kind) (Link.slab d) ∧
    readCache k c = some kc ∧ readSlab k d = some sd ∧
    InBlock kc.gfporder (virtToHeadPage k sd.sMem) p

/-- All `m` bytes from `a` on are in pages of one slab. -/
def InOneSlab (k : Kernel) (a m : ℕ) : Prop :=
  ∃ c d, ∀ x, a ≤ x → x < a + m → SlabPage k c d (virtToPage x)

/-- **Every page is accounted for**, where `start` are the pages that were free at first. -/
structure Accounted (start : ℕ → Prop) (s : System) : Prop where
  pages : ∀ p, start p ↔ PageFree s.kernel.zone p ∨ InBlocks s.blocks p ∨
    ∃ c d, SlabPage s.kernel c d p
  free_blocks : ∀ p, PageFree s.kernel.zone p → ¬ InBlocks s.blocks p
  free_slab : ∀ p c d, PageFree s.kernel.zone p → ¬ SlabPage s.kernel c d p
  blocks_slab : ∀ p c d, InBlocks s.blocks p → ¬ SlabPage s.kernel c d p
  slab : ∀ p c d c' d', SlabPage s.kernel c d p → SlabPage s.kernel c' d' p → c = c' ∧ d = d'
  blocks : s.blocks.Pairwise fun b b' => ∀ p, InBlock b.2 b.1 p → ¬ InBlock b'.2 b'.1 p
  object : ∀ h ∈ s.live, ∃ kc, readCache s.kernel h.cache = some kc ∧
    InOneSlab s.kernel h.addr kc.objsize
  cache : ∀ c, OnChain s.kernel c → c ≠ s.kernel.cacheCache →
    InOneSlab s.kernel c sizeofKmemCache
  desc : ∀ c d kind, OnChain s.kernel c → OnList s.kernel (Link.list c kind) (Link.slab d) →
    InOneSlab s.kernel d sizeofSlab

variable {k k' : Kernel} {s s' : System} {W : World} {B : Queue → List ℕ} {R : ℕ → Prop}
variable {held : List Held} {start : ℕ → Prop} {c d p order : ℕ}

/-! ### What the invariant says about pages -/

theorem slabPage_iff (g : Good k W B R held) :
    SlabPage k c d p ↔ W.IsSlab c d ∧ W.InSlab c d p := by
  have hhead : W.IsSlab c d → virtToHeadPage k (W.sMem d) = W.page d := by
    intro hd
    have hfirst : W.Object c d (W.sMem d) := ⟨0, (g.geometry.sane c hd.1).num, by simp⟩
    exact (g.pages.back c d hd _ (g.geometry.object_inSlab hd hfirst)).2
  constructor
  · rintro ⟨kc, sd, kind, hc, hlist, hkc, hsd, hp⟩
    have hc' : c ∈ W.caches := (onChain_iff (s := ⟨k, held⟩) g.lists).mp hc
    have hd : W.IsSlab c d :=
      Queues.isSlab_of_mem g.lists hc' ((onList_iff (s := ⟨k, held⟩) g.lists hc').mp hlist)
    obtain rfl := Option.some.inj ((g.readCache hc').symm.trans hkc)
    obtain rfl := Option.some.inj ((g.readSlab hd).symm.trans hsd)
    refine ⟨hd, ?_⟩
    rw [show (W.slabDesc c d).sMem = W.sMem d from rfl, hhead hd] at hp
    exact hp
  · rintro ⟨hd, hp⟩
    obtain ⟨kind, hkind⟩ := (g.lists.mem c hd.1 d).mp hd.2
    refine ⟨_, _, kind, (onChain_iff (s := ⟨k, held⟩) g.lists).mpr hd.1,
      (onList_iff (s := ⟨k, held⟩) g.lists hd.1).mpr hkind, g.readCache hd.1, g.readSlab hd, ?_⟩
    rw [show (W.slabDesc c d).sMem = W.sMem d from rfl, hhead hd]
    exact hp

theorem inOneSlab_of_slot (g : Good k W B R held) {a m m' : ℕ} (hs : Apart.Slot W.toLayout a m')
    (hm : m ≤ m') (hroot : a ≠ W.cacheCache) : InOneSlab k a m := by
  rcases Apart.slot_cases g.geometry hs with ⟨h, -⟩ | ⟨c, d, hin⟩
  · exact absurd h hroot
  · refine ⟨c, d, fun x hlo hhi => (slabPage_iff g).mpr ⟨hin.slab, ?_⟩⟩
    have hlower := hin.lower
    have hupper := hin.upper
    exact inBlock_virtToPage (by omega) (by omega)

theorem object_ne_root (hg : Geometry W.toLayout) {x : ℕ} (hd : W.IsSlab c d)
    (hx : W.Object c d x) : x ≠ W.cacheCache := by
  have hlo := (hg.object_range hd hx).1
  have hroot := hg.root_le
  have hbase := base_pos (W.page d)
  unfold Layout.sMem at hlo
  have hsize : 0 < sizeofKmemCache := by decide
  omega

theorem slab_ne_root (hg : Geometry W.toLayout) (hd : W.IsSlab c d) : d ≠ W.cacheCache := by
  rcases hoff : State.offSlab (W.kc c)
  · obtain ⟨hle, heq⟩ := (hg.fits c d hd).on hoff
    have hroot := hg.root_le
    have hbase := base_pos (W.page d)
    have hsize : 0 < sizeofKmemCache := by decide
    omega
  · obtain ⟨e, he, hobj⟩ := hg.desc c d hd hoff
    exact object_ne_root hg he hobj

/-! ### One use -/

/-- The system is the state of a world, in which the clients' blocks are reserved. -/
structure SystemSound (start : ℕ → Prop) (s : System) (W : World) (B : Queue → List ℕ) : Prop where
  good : Good s.kernel W B (InBlocks s.blocks) s.live
  sorted : Sorted W B
  pool : W.pool = start
  small : ∀ p, start p → p < 2 ^ 18 - 1
  order : ∀ b ∈ s.blocks, b.2 < buddyGroups
  aligned : ∀ b ∈ s.blocks, 2 ^ b.2 ∣ b.1
  bound : ∀ b ∈ s.blocks, b.1 + 2 ^ b.2 ≤ W.present
  apart : s.blocks.Pairwise fun b b' => ∀ p, InBlock b.2 b.1 p → ¬ InBlock b'.2 b'.1 p

theorem SystemSound.start_of_inBlocks (h : SystemSound start s W B) (hp : InBlocks s.blocks p) :
    start p := by
  obtain ⟨L, -, -, hpool⟩ := h.good.pages.rep
  rw [← h.pool]
  exact (hpool p).mpr (.inr (.inl hp))

/-- **An action of the slab allocator's clients**, while other pages are reserved. -/
theorem step_good {t : Session} (g : Good t.kernel W B R t.live) (hsort : Sorted W B) {a : Action}
    (ha : Allowed t a) (hP : Suits t a) :
    ∃ t' W' B', step t a = some t' ∧ Good t'.kernel W' B' R t'.live ∧ Sorted W' B' ∧
      W'.pool = W.pool ∧ W'.present = W.present := by
  cases a with
  | create found size align flags =>
    obtain ⟨hsize, hobj, hcond⟩ := hP
    have hread : readCache t.kernel t.kernel.cacheCache = some (W.desc W.cacheCache) := by
      rw [g.cells.root]
      exact g.readCache g.geometry.root
    have hslabp : (W.desc W.cacheCache).slabpCache = W.slabCache := g.geometry.root_slabp
    have hkc := hcond _ hread
    rw [hslabp] at hkc
    obtain ⟨c, k, W', B', heq, -, hsort', g', hres⟩ :=
      Create.kmemCacheCreate_spec found size align flags 0 g hsort hsize hobj fun hnum =>
        ⟨(hkc hnum).1, fun hoff => g.geometry.slabCache.resolve_left ((hkc hnum).2.2 hoff), rfl,
          (hkc hnum).2.1, rfl⟩
    rw [step, heq]
    refine ⟨_, W', B', rfl, g', hsort', ?_⟩
    rcases hres with ⟨-, hshape, -⟩ | ⟨-, -, hshape⟩
    · exact ⟨congrArg Shape.pool hshape, congrArg Shape.present hshape⟩
    · exact ⟨(congrArg Shape.pool hshape).trans rfl, (congrArg Shape.present hshape).trans rfl⟩
  | alloc c =>
    obtain ⟨x, k, W', B', heq, hshape, -, hsort', hres⟩ := Alloc.cacheAllocRefill_spec _ g hsort
      ((onChain_iff g.lists).mp ha) fun _ => Alloc.servesOn_kmemCacheAlloc 0
    have hcall : kmemCacheAlloc callDepth t.kernel c = some (x, k) := heq
    rw [step, hcall]
    rcases hres with ⟨rfl, -, g'⟩ | ⟨hx, d, k₁, hrefill, g'⟩
    · exact ⟨_, W', B', rfl, g', hsort', congrArg Shape.pool hshape, congrArg Shape.present hshape⟩
    · simp only [Option.bind_eq_bind, Option.bind_some, if_neg hx, hrefill]
      exact ⟨_, W', B', rfl, g', hsort', congrArg Shape.pool hshape, congrArg Shape.present hshape⟩
  | free h =>
    obtain ⟨k, W', B', heq, hshape, -, hsort', g'⟩ :=
      Free.kmemCacheFree_spec (good_perm g (List.perm_cons_erase ha)) hsort
    rw [step, heq]
    exact ⟨_, W', B', rfl, g', hsort', congrArg Shape.pool hshape, congrArg Shape.present hshape⟩
  | write h x w =>
    obtain ⟨hh, kc, hkc, hlo, hhi⟩ := ha
    have hread := g.readCache (g.holding.slab h hh).1
    obtain rfl : W.desc h.cache = kc := Option.some.inj (hread.symm.trans hkc)
    exact ⟨_, W, B, rfl, Apart.good_write g hh hlo hhi w, hsort, rfl, rfl⟩

theorem inBlocks_cons_eq (b : ℕ × ℕ) (bs : List (ℕ × ℕ)) :
    InBlocks (b :: bs) = Reserve (InBlocks bs) b.2 b.1 := by
  funext x
  exact propext ((inBlocks_cons b bs x).trans or_comm)

theorem SystemSound.allocPages (h : SystemSound start s W B) {z : Zone}
    (heq : allocateBlock s.kernel.zone order = (some p, z)) :
    SystemSound start ⟨{ s.kernel with zone := z }, s.live, (p, order) :: s.blocks⟩ W B := by
  rcases pages_allocateBlock h.good.pages order with hnone | ⟨p', z', heq', ho, htaken, hpages⟩
  · rw [heq] at hnone
    cases hnone
  · rw [heq] at heq'
    cases heq'
    refine ⟨?_, h.sorted, h.pool, h.small, ?_, ?_, ?_, ?_⟩
    · rw [inBlocks_cons_eq]
      exact Worlds.good_rezone h.good hpages
    · exact List.forall_mem_cons.mpr ⟨ho, h.order⟩
    · exact List.forall_mem_cons.mpr ⟨htaken.aligned, h.aligned⟩
    · exact List.forall_mem_cons.mpr ⟨htaken.bound, h.bound⟩
    · exact List.pairwise_cons.mpr
        ⟨fun b hb x hx hxb => htaken.fresh x hx ⟨b, hb, hxb⟩, h.apart⟩

theorem SystemSound.freePages (h : SystemSound start s W B) {b : ℕ × ℕ} (hb : b ∈ s.blocks) :
    SystemSound start ⟨freePages s.kernel b.1 b.2, s.live, s.blocks.erase b⟩ W B := by
  have hperm := List.perm_cons_erase hb
  have hapart := (hperm.pairwise_iff fun hr p hx hy => hr p hy hx).mp h.apart
  obtain ⟨hfirst, hrest⟩ := List.pairwise_cons.mp hapart
  have hpages := h.good.pages
  rw [inBlocks_perm hperm, inBlocks_cons_eq] at hpages
  have htaken : Taken W.present b.2 b.1 (InBlocks (s.blocks.erase b)) :=
    ⟨h.aligned b hb, h.bound b hb, fun x hx => by
      rintro ⟨b', hb', hx'⟩
      exact hfirst b' hb' x hx hx'⟩
  have hsub : ∀ b' ∈ s.blocks.erase b, b' ∈ s.blocks := fun _ hb' => List.mem_of_mem_erase hb'
  exact ⟨Worlds.good_rezone h.good (pages_freeBlock hpages (h.order b hb) htaken), h.sorted, h.pool,
    h.small, fun b' hb' => h.order b' (hsub b' hb'), fun b' hb' => h.aligned b' (hsub b' hb'),
    fun b' hb' => h.bound b' (hsub b' hb'), hrest⟩

/-- The address that `alloc_kernel_stack` returns leads back to the block: it does not wrap around,
as the last page the kernel can map is none of the zone. -/
theorem virtToPage_stack (hp : p + 2 ≤ 2 ^ 18 - 1) :
    u32 (pageAddress p + pageSize * 2 ^ kstackOrder) ≠ 0 ∧
      virtToPage (u32 (pageAddress p + pageSize * 2 ^ kstackOrder) - pageSize * 2 ^ kstackOrder) =
        p := by
  have hend : u32 (pageAddress p + pageSize * 2 ^ kstackOrder) =
      p * 4096 + 0xC0000000 + 8192 := by
    rw [pageAddress_eq (by omega)]
    unfold base pageSize pageOffset kstackOrder
    rw [u32_of_lt (by omega), pow_one]
  rw [hend]
  unfold virtToPage State.pa pageSize pageOffset kstackOrder
  rw [if_pos (by omega)]
  omega

/-- **Every use returns, and the system is sound then.** -/
theorem use_sound (h : SystemSound start s W B) {u : Use} (hu : MayUse s u) :
    ∃ s' W' B', use s u = some s' ∧ SystemSound start s' W' B' := by
  cases u with
  | slab a =>
    obtain ⟨t, W', B', heq, g', hsort', hpool, hpresent⟩ :=
      step_good (t := s.session) h.good h.sorted hu.1 hu.2
    refine ⟨⟨t.kernel, t.live, s.blocks⟩, W', B', by rw [use, heq]; rfl, g', hsort',
      hpool.trans h.pool, h.small, h.order, h.aligned, ?_, h.apart⟩
    rw [hpresent]
    exact h.bound
  | allocPages order =>
    rcases hcall : allocateBlock s.kernel.zone order with ⟨_ | p, z⟩
    · rcases pages_allocateBlock h.good.pages order with hnone | ⟨p, z', heq, -⟩
      · refine ⟨s, W, B, ?_, h⟩
        rw [use, allocPages, hnone]
      · rw [hcall] at heq
        cases heq
    · exact ⟨_, W, B, by rw [use, allocPages, hcall], h.allocPages hcall⟩
  | freePages b => exact ⟨_, W, B, rfl, h.freePages hu⟩
  | kernelStack =>
    rcases hcall : allocateBlock s.kernel.zone kstackOrder with ⟨_ | p, z⟩
    · rcases pages_allocateBlock h.good.pages kstackOrder with hnone | ⟨p, z', heq, -⟩
      · refine ⟨s, W, B, ?_, h⟩
        rw [use, allocKernelStack, allocPages, hnone]
        rfl
      · rw [hcall] at heq
        cases heq
    · have h' := h.allocPages hcall
      have hlast : start (p + 1) := h'.start_of_inBlocks
        ⟨(p, kstackOrder), List.mem_cons_self, Nat.le_succ p, Nat.lt_succ_self (p + 1)⟩
      have hlt := h.small _ hlast
      have hend := virtToPage_stack (p := p) (by omega)
      refine ⟨_, W, B, ?_, h'⟩
      rw [use, allocKernelStack, allocPages, hcall]
      simp only
      rw [if_neg hend.1, hend.2]
  | write b x w =>
    obtain ⟨hb, hlo, hhi⟩ := hu
    have hR : InBlocks s.blocks (virtToPage x) := ⟨b, hb, inBlock_virtToPage hlo hhi⟩
    have hunused := (Worlds.unused_of_reserved h.good ((base_pos _).trans hlo) hR).1
    exact ⟨_, W, B, rfl, Apart.good_store_unused h.good hunused w, h.sorted, h.pool, h.small,
      h.order, h.aligned, h.bound, h.apart⟩

/-! ### Runs -/

/-- **A run keeps the system sound.** -/
theorem uses_sound (h : SystemSound start s W B) (hrun : ReflTransGen Uses s s') :
    ∃ W' B', SystemSound start s' W' B' := by
  refine invariant_of_run (I := fun s => ∃ W B, SystemSound start s W B) ?_ ⟨W, B, h⟩ hrun
  rintro s₁ s₂ ⟨W₁, B₁, h₁⟩ ⟨u, hu, heq⟩
  obtain ⟨s₂, W₂, B₂, heq₂, h₂⟩ := use_sound h₁ hu
  obtain rfl := Option.some.inj (heq.symm.trans heq₂)
  exact ⟨W₂, B₂, h₂⟩

theorem accounted_of_sound (h : SystemSound start s W B) : Accounted start s := by
  have g := h.good
  obtain ⟨L, hrep, hL, hpool⟩ := g.pages.rep
  have hslab : ∀ {p}, W.Owned p ↔ ∃ c d, SlabPage s.kernel c d p := by
    simp only [slabPage_iff g]
    rfl
  have hchain : ∀ {c}, OnChain s.kernel c → c ∈ W.caches := fun hc =>
    (onChain_iff (s := s.session) g.lists).mp hc
  refine ⟨fun p => ?_, fun p hf hb => ?_, fun p c d hf hp => ?_, fun p c d hb hp => ?_,
    fun p c d c' d' hp hp' => ?_, h.apart, fun o ho => ?_, fun c hc hne => ?_,
    fun c d kind hc hlist => ?_⟩
  · rw [← h.pool, hpool p, hrep.pageFree_iff, hslab]
  · exact hL p (.inl hb) ((hrep.pageFree_iff p).mp hf)
  · exact hL p (.inr (hslab.mpr ⟨c, d, hp⟩)) ((hrep.pageFree_iff p).mp hf)
  · exact g.pages.reserved p hb (hslab.mpr ⟨c, d, hp⟩)
  · obtain ⟨hd, hin⟩ := (slabPage_iff g).mp hp
    obtain ⟨hd', hin'⟩ := (slabPage_iff g).mp hp'
    exact g.pages.unique hd hd' hin hin'
  · have hd := g.holding.slab o ho
    have hobj := g.holding.object o ho
    exact ⟨_, g.readCache hd.1,
      inOneSlab_of_slot g (.object hd hobj) le_rfl (object_ne_root g.geometry hd hobj)⟩
  · obtain ⟨m, hm, hslot⟩ := Apart.slot_cache g (hchain hc)
    exact inOneSlab_of_slot g hslot hm (g.cells.root ▸ hne)
  · have hd := Queues.isSlab_of_mem g.lists (hchain hc)
      ((onList_iff (s := s.session) g.lists (hchain hc)).mp hlist)
    obtain ⟨m, hm, hslot⟩ := Apart.slot_slab g hd
    exact inOneSlab_of_slot g hslot hm (slab_ne_root g.geometry hd)

theorem init_systemSound {L : ℕ → List ℕ} (hr : Represents k.zone L)
    (hn : k.zone.presentPages ≤ 2 ^ 18) (hcs : k.csCachep = fun _ => 0)
    (hsmall : ∀ p, PageFree k.zone p → p < 2 ^ 18 - 1) :
    ∃ k₀ W B, initSlab zeroDesc k = some k₀ ∧ SystemSound (PageFree k.zone) ⟨k₀, [], []⟩ W B := by
  obtain ⟨k₀, W, B, heq, g, hsort, hpool, -⟩ := initSlab_spec hr hn hcs
  have hnone : InBlocks [] = fun _ => False := by
    funext p
    simp [InBlocks]
  have hno : ∀ {P : ℕ × ℕ → Prop}, ∀ b ∈ ([] : List (ℕ × ℕ)), P b := fun _ hb =>
    absurd hb List.not_mem_nil
  exact ⟨k₀, W, B, heq, by rw [hnone]; exact g, hsort, hpool, hsmall, hno, hno, hno, .nil⟩

theorem presentPages_testBuddy {z z' : Zone} {L : ℕ → List ℕ} (hr : Represents z L)
    (h : testBuddy z = some z') : z'.presentPages = z.presentPages := by
  obtain ⟨p₁, z₁, p₂, z₂, h₁, h₂, rfl⟩ := testBuddy_eq_some.mp h
  have hnested : Buddy.Undo.Nested z (freeBlock (freeBlock z₂ p₂ 4) p₁ 9) :=
    .round 9 p₁ h₁ (.round 4 p₂ h₂ (.done _) (.done _)) (.done _)
  exact (hnested.kept hr).present

/-- **Every page is accounted for in every run**: the pages without a mark at boot are always divided
into free ones, blocks of clients and slabs, and each call that a client may make returns. -/
theorem pages_accounted_of_boot {memMap : ℕ → Page} {n : ℕ} {h : sizeofPage * n ≤ 2 ^ 32}
    (hp : ∀ p < n, (memMap p).flags &&& pgFlagPrivate ≠ pgFlagPrivate) (hn : n < 2 ^ 18)
    (hinit : initZone (createZone zoneBss memMap n h) = some k.zone)
    (hcs : k.csCachep = fun _ => 0) :
    ∃ k₀, initSlab zeroDesc k = some k₀ ∧ ∀ s, ReflTransGen Uses ⟨k₀, [], []⟩ s →
      Accounted (fun x => x < n ∧ isFlag (memMap x).flags pgFlagTaken = false ∧
        isFlag (memMap x).flags pgFlagReserved = false) s ∧
      ∀ u, MayUse s u → (use s u).isSome := by
  obtain ⟨L, hr, hpresent, hcov, -⟩ := initRegions_spec (h := h) hp
  obtain ⟨hr', -⟩ := testBuddy_spec hr hinit
  have hstart : PageFree k.zone = fun x => x < n ∧ isFlag (memMap x).flags pgFlagTaken = false ∧
      isFlag (memMap x).flags pgFlagReserved = false := by
    funext x
    rw [hr'.pageFree_iff, hcov]
  have hpresent' : k.zone.presentPages = n := (presentPages_testBuddy hr hinit).trans hpresent
  obtain ⟨k₀, W, B, heq, hsound⟩ := init_systemSound hr' (by omega) hcs fun p hp => by
    have hlt : p < n := (hstart ▸ hp : _ ∧ _).1
    omega
  rw [hstart] at hsound
  refine ⟨k₀, heq, fun s hrun => ?_⟩
  obtain ⟨W', B', hsound'⟩ := uses_sound hsound hrun
  refine ⟨accounted_of_sound hsound', fun u hu => ?_⟩
  obtain ⟨s', -, -, hs', -⟩ := use_sound hsound' hu
  rw [hs']
  rfl

/-- A kernel stack, after the boot with 1024 pages. -/
theorem accounted_kernelStack : ∃ z k₀ s, initZone Buddy.Account.plainZone = some z ∧
    initSlab zeroDesc { plainKernel 64 (by decide) with zone := z } = some k₀ ∧
    use ⟨k₀, [], []⟩ .kernelStack = some s ∧ Accounted (fun x => x < 1024) s := by
  obtain ⟨z, hz, -⟩ := Option.map_eq_some_iff.mp Buddy.Account.freePages_plainZone
  obtain ⟨k₀, hk₀, hall⟩ := pages_accounted_of_boot (k := { plainKernel 64 (by decide) with zone := z })
    (fun _ _ => show 0#32 &&& pgFlagPrivate ≠ pgFlagPrivate by decide) (by norm_num) hz rfl
  obtain ⟨s, hs⟩ := Option.isSome_iff_exists.mp ((hall _ .refl).2 .kernelStack trivial)
  refine ⟨z, k₀, s, hz, hk₀, hs, ?_⟩
  have hacc := (hall s (.single ⟨.kernelStack, trivial, hs⟩)).1
  have hstart : (fun x => x < 1024 ∧ isFlag 0#32 pgFlagTaken = false ∧
      isFlag 0#32 pgFlagReserved = false) = fun x => x < 1024 := by
    funext x
    exact propext ⟨And.left, fun h => ⟨h, rfl, rfl⟩⟩
  exact hstart ▸ hacc

end YegaKernel.Slab.Shared
