import YegaKernel.Slab.Run

/-! # `kmalloc` and `kfree` over a whole run

Clients ask for blocks of a size, give each block back once, and write inside their blocks. Over
every run from `init_slab` the blocks are where they belong (`Safe`): in pages taken for the cache
of their size class, apart from each other and from every descriptor, and the page descriptors lead
from a block to its cache and its slab.

A call of `kmalloc` always returns, except for a class whose cache `init_slab` could not create:
there `kmalloc` passes a NULL cache on. -/

namespace YegaKernel.Slab.Kmalloc

open Relation (ReflTransGen)
open Lib.Links Lib.Runs
open Buddy.State (Zone Node)
open Buddy.Ops (PageFree addFreeRegionToBuddy)
open Buddy.Run (BuddyInvariant)
open Slab.State Slab.Ops Slab.Invariant Slab.Free
open Slab.Init Slab.Apart Slab.Run

/-! ### Clients -/

/-- A block that `kmalloc(size)` returned, with the cache and the slab it is from. -/
structure Block where
  addr : ℕ
  size : ℕ
  cache : ℕ
  slab : ℕ
  deriving DecidableEq, Repr

def Block.held (b : Block) : Held := ⟨b.addr, b.cache, b.slab⟩

/-- A kernel, and the blocks that clients have. -/
structure Clients where
  kernel : Kernel
  live : List Block

def Clients.session (s : Clients) : Session := ⟨s.kernel, s.live.map Block.held⟩

inductive Request
  | kmalloc (n : ℕ)
  | kfree (b : Block)
  | write (b : Block) (x w : ℕ)

/-- The field `cs_cachep` of the class that `kmalloc` finds for `n` bytes. -/
def classCache (k : Kernel) (n : ℕ) : ℕ := ((sizeClass n).map k.csCachep).getD 0

/-- The function is called, or the word `w` is written at `x`. -/
def serve (s : Clients) : Request → Option Clients
  | .kmalloc n => do
    let (x, k) ← kmalloc s.kernel n
    if x = 0 then return ⟨k, s.live⟩
    let (d, _) ← refillSlab (kmemCacheAlloc 1) s.kernel (classCache s.kernel n)
    return ⟨k, ⟨x, n, classCache s.kernel n, d.getD 0⟩ :: s.live⟩
  | .kfree b => do
    let k ← kfree s.kernel b.addr
    return ⟨k, s.live.erase b⟩
  | .write _ x w => some ⟨store s.kernel x (.bytes w), s.live⟩

/-- What clients promise: they give back what they have, and write inside it. -/
def Permitted (s : Clients) : Request → Prop
  | .kmalloc _ => True
  | .kfree b => b ∈ s.live
  | .write b x _ => b ∈ s.live ∧
    ∃ kc, readCache s.kernel b.cache = some kc ∧ b.addr ≤ x ∧ x < b.addr + kc.objsize

def Served : Clients → Clients → Prop := Acts Permitted serve

/-! ### Safety -/

/-- The page was free in the zone `z`, is taken now, and is the cache's. -/
def TakenFor (z : Zone) (k : Kernel) (c p : ℕ) : Prop :=
  PageFree z p ∧ ¬ PageFree k.zone p ∧ (k.zone.links (Node.lru p)).next = Node.addr c

/-- A descriptor of a cache or of a slab, or a client's block, by its address. -/
inductive Item
  | cache (c : ℕ)
  | slab (d : ℕ)
  | block (x : ℕ)
  deriving DecidableEq, Repr

def Item.addr : Item → ℕ
  | .cache c => c
  | .slab d => d
  | .block x => x

/-- What there is, with its size: the caches on `cache_chain`, the slabs on their lists, the
blocks. -/
inductive Occupies (s : Clients) : Item → ℕ → Prop
  | cache {c : ℕ} (hc : OnChain s.kernel c) : Occupies s (.cache c) sizeofKmemCache
  | slab {c d : ℕ} {kind : Kind} (hc : OnChain s.kernel c)
      (hd : OnList s.kernel (Link.list c kind) (Link.slab d)) : Occupies s (.slab d) sizeofSlab
  | block {b : Block} {kc : KmemCache} (hb : b ∈ s.live)
      (hkc : readCache s.kernel b.cache = some kc) : Occupies s (.block b.addr) kc.objsize

/-- The block is in a range of the smallest class with room for it, in pages taken for its cache. -/
def Fitting (z : Zone) (s : Clients) (b : Block) : Prop :=
  ∃ kc, readCache s.kernel b.cache = some kc ∧ kc.objsize ∈ csSizes ∧ b.size ≤ kc.objsize ∧
    (∀ m ∈ csSizes, b.size ≤ m → kc.objsize ≤ m) ∧
    ∀ x, b.addr ≤ x → x < b.addr + kc.objsize → TakenFor z s.kernel b.cache (virtToPage x)

/-- **Object safety.** `z` is the zone before the first call. -/
structure Safe (z : Zone) (s : Clients) : Prop where
  fitting : ∀ b ∈ s.live, Fitting z s b
  nodup : (s.live.map Block.addr).Nodup
  apart : ∀ i j m n, Occupies s i m → Occupies s j n → i ≠ j → RangesApart i.addr m j.addr n
  recover : ∀ b ∈ s.live,
    pageCache s.kernel b.addr = some b.cache ∧ virtToSlab s.kernel b.addr = some b.slab
  kfree : ∀ b ∈ s.live, (kfree s.kernel b.addr).isSome
  kmalloc : ∀ n i, sizeClass n = some i → s.kernel.csCachep i ≠ 0 → (kmalloc s.kernel n).isSome

/-! ### One request -/

/-- The clients' session is sound, the caches of `malloc_sizes` are of their class, and each block
is of the class for its size. -/
structure ClientsSound (pool : ℕ → Prop) (s : Clients) (W : World) (B : Queue → List ℕ) : Prop where
  sound : Sound pool s.session W B
  classes : Classes W.toShape
  size : ∀ b ∈ s.live, ∃ i, sizeClass b.size = some i ∧ W.csCachep i = b.cache

variable {pool : ℕ → Prop} {s s' : Clients} {W W' : World} {B B' : Queue → List ℕ}

theorem clientsSound_of_shape (h : ClientsSound pool s W B) (hshape : W'.toShape = W.toShape)
    (hs' : Sound pool s'.session W' B')
    (hlive : ∀ b ∈ s'.live, ∃ i, sizeClass b.size = some i ∧ W.csCachep i = b.cache) :
    ClientsSound pool s' W' B' where
  sound := hs'
  classes := hshape ▸ h.classes
  size b hb := by
    rw [show W'.csCachep = W.csCachep from congrArg Shape.csCachep hshape]
    exact hlive b hb

theorem kmemCacheAlloc_null (k : Kernel) : kmemCacheAlloc callDepth k 0 = none := by
  simp [kmemCacheAlloc, callDepth, cacheAllocRefill, refillSlab, readCache]

theorem class_of_sizeClass (h : ClientsSound pool s W B) (i : ℕ) :
    s.kernel.csCachep i = 0 ∨ (s.kernel.csCachep i ∈ W.caches ∧ W.csCachep i = s.kernel.csCachep i) := by
  have hcs : s.kernel.csCachep = W.csCachep := h.sound.good.cells.csCachep
  rw [hcs]
  exact (h.classes i).imp_right fun hi => ⟨hi.1, rfl⟩

theorem kmalloc_sound (h : ClientsSound pool s W B) {n : ℕ} (hs : serve s (.kmalloc n) = some s') :
    ∃ W' B', ClientsSound pool s' W' B' := by
  rw [serve] at hs
  rcases hi : sizeClass n with _ | i
  · have hnull : kmalloc s.kernel n = some (0, s.kernel) := by
      unfold kmalloc
      rw [hi]
    rw [hnull] at hs
    obtain rfl := Option.some.inj hs
    exact ⟨W, B, h⟩
  · have hcache : classCache s.kernel n = s.kernel.csCachep i := by
      unfold classCache
      rw [hi]
      rfl
    have hmalloc : kmalloc s.kernel n = kmemCacheAlloc callDepth s.kernel (s.kernel.csCachep i) := by
      unfold kmalloc
      rw [hi]
    rw [hmalloc, hcache] at hs
    rcases class_of_sizeClass h i with h0 | ⟨hc, hW⟩
    · rw [h0, kmemCacheAlloc_null] at hs
      exact absurd hs (by simp)
    · obtain ⟨x, k, W', B', halloc, hshape, hres⟩ := alloc_sound h.sound hc
      rw [show kmemCacheAlloc callDepth s.kernel _ = some (x, k) from halloc] at hs
      rcases hres with ⟨rfl, hs'⟩ | ⟨hx, d, k₁, hrefill, hs'⟩
      · obtain rfl := Option.some.inj hs
        exact ⟨W', B', clientsSound_of_shape h hshape hs' h.size⟩
      · rw [Clients.session] at hrefill
        simp only [Option.bind_eq_bind, Option.bind_some, if_neg hx, hrefill] at hs
        obtain rfl := Option.some.inj hs
        refine ⟨W', B', clientsSound_of_shape h hshape hs' fun b hb => ?_⟩
        rcases List.mem_cons.mp hb with rfl | hb
        · exact ⟨i, hi, hW⟩
        · exact h.size b hb

theorem sound_perm {s s' : Session} (hs : Sound pool s W B) (hk : s'.kernel = s.kernel)
    (hp : s.live.Perm s'.live) : Sound pool s' W B := by
  refine ⟨?_, hs.sorted, hs.pool, hs.tidy⟩
  rw [hk]
  exact good_perm hs.good hp

section
variable (h : ClientsSound pool s W B)
include h

theorem recover_of_sound {b : Block} (hb : b ∈ s.live) :
    pageCache s.kernel b.addr = some b.cache ∧ virtToSlab s.kernel b.addr = some b.slab := by
  have hheld : b.held ∈ s.session.live := List.mem_map_of_mem hb
  have g := h.sound.good
  have hslab := g.holding.slab _ hheld
  have hobj := g.holding.object _ hheld
  exact ⟨pageCache_eq g hslab hobj, virtToSlab_eq g hslab hobj⟩

theorem kfree_eq {b : Block} (hb : b ∈ s.live) :
    kfree s.kernel b.addr = kmemCacheFree callDepth s.kernel b.cache b.addr := by
  have hheld : b.held ∈ s.session.live := List.mem_map_of_mem hb
  have g := h.sound.good
  have h0 : b.addr ≠ 0 := g.object_ne_zero (g.holding.slab _ hheld) (g.holding.object _ hheld)
  unfold kfree
  rw [if_neg h0, (recover_of_sound h hb).1]
  rfl

theorem kfree_sound {b : Block} (hb : b ∈ s.live) :
    ∃ k W' B', kfree s.kernel b.addr = some k ∧ ClientsSound pool ⟨k, s.live.erase b⟩ W' B' := by
  have hheld : b.held ∈ s.session.live := List.mem_map_of_mem hb
  obtain ⟨k, W', B', hfree, hshape, hs'⟩ := free_sound h.sound hheld
  refine ⟨k, W', B', (kfree_eq h hb).trans hfree, clientsSound_of_shape h hshape ?_
    fun b' hb' => h.size b' (List.mem_of_mem_erase hb')⟩
  refine sound_perm hs' rfl ?_
  -- both lists are the objects without the one of `b`
  have hmap := (List.perm_cons_erase hb).map Block.held
  exact ((List.perm_cons_erase hheld).symm.trans hmap).cons_inv

theorem serve_sound (hserve : Served s s') : ∃ W' B', ClientsSound pool s' W' B' := by
  obtain ⟨r, hr, hs⟩ := hserve
  cases r with
  | kmalloc n => exact kmalloc_sound h hs
  | kfree b =>
    obtain ⟨k, W', B', hfree, h'⟩ := kfree_sound h hr
    rw [serve, hfree] at hs
    obtain rfl := Option.some.inj hs
    exact ⟨W', B', h'⟩
  | write b x w =>
    obtain rfl := Option.some.inj hs
    have hallowed : Allowed s.session (.write b.held x w) := ⟨List.mem_map_of_mem hr.1, hr.2⟩
    exact ⟨W, B, clientsSound_of_shape h rfl (write_sound h.sound hallowed) h.size⟩

theorem run_clientsSound (hrun : ReflTransGen Served s s') : ∃ W' B', ClientsSound pool s' W' B' :=
  invariant_of_run (I := fun s => ∃ W B, ClientsSound pool s W B)
    (fun _ _ ⟨_, _, h⟩ hstep => serve_sound h hstep) ⟨W, B, h⟩ hrun

end

/-! ### A sound state is safe -/

theorem sizeClass_spec {n i : ℕ} (h : sizeClass n = some i) :
    csSizes.getD i 0 ∈ csSizes ∧ n ≤ csSizes.getD i 0 ∧
      ∀ m ∈ csSizes, n ≤ m → csSizes.getD i 0 ≤ m := by
  have hsorted : csSizes.Pairwise (· < ·) := by decide
  obtain ⟨hi, hle, hfirst⟩ := List.findIdx?_eq_some_iff_getElem.mp h
  have hget : csSizes.getD i 0 = csSizes[i] := List.getD_eq_getElem _ _ hi
  rw [hget]
  refine ⟨List.getElem_mem hi, of_decide_eq_true hle, fun m hm hnm => ?_⟩
  obtain ⟨j, hj, rfl⟩ := List.getElem_of_mem hm
  by_cases hij : i ≤ j
  · rcases Nat.eq_or_lt_of_le hij with rfl | hlt
    · exact le_rfl
    · exact (List.pairwise_iff_getElem.mp hsorted i j hi hj hlt).le
  · exact absurd hnm (by simpa using hfirst j (by omega))

theorem fitting_of_sound {z : Zone} (h : ClientsSound (PageFree z) s W B) {b : Block}
    (hb : b ∈ s.live) : Fitting z s b := by
  have hheld : b.held ∈ s.session.live := List.mem_map_of_mem hb
  have g := h.sound.good
  have hslab : W.IsSlab b.cache b.slab := g.holding.slab _ hheld
  have hobj : W.Object b.cache b.slab b.addr := g.holding.object _ hheld
  obtain ⟨i, hi, hcs⟩ := h.size b hb
  obtain ⟨hmem, hle, hleast⟩ := sizeClass_spec hi
  have hobjsize : (W.kc b.cache).objsize = csSizes.getD i 0 := by
    rcases h.classes i with h0 | ⟨-, hsize⟩
    · exact absurd (hcs.symm.trans h0) (g.cache_ne_zero hslab.1)
    · rw [← hcs]
      exact hsize
  rw [← hobjsize] at hmem hle hleast
  refine ⟨W.desc b.cache, g.readCache hslab.1, hmem, hle, hleast, fun x hlo hhi => ?_⟩
  obtain ⟨hfrom, hto⟩ := g.geometry.object_range hslab hobj
  have hin : W.InSlab b.cache b.slab (virtToPage x) := by
    refine inBlock_virtToPage (((Nat.le_add_right _ _).trans hfrom).trans hlo) ?_
    exact lt_of_lt_of_le hhi hto
  have hown : W.Owned (virtToPage x) := ⟨_, _, hslab, hin⟩
  obtain ⟨L, hrep, hL, hpool⟩ := g.pages.rep
  rw [h.sound.pool] at hpool
  exact ⟨(hpool _).mpr (Or.inr (Or.inr hown)),
    fun hf => hL _ (Or.inr hown) ((hrep.pageFree_iff _).mp hf),
    congrArg Buddy.State.ListHead.next (g.pages.back _ _ hslab _ hin).1⟩

theorem slot_of_occupies (h : ClientsSound pool s W B) {i : Item} {m : ℕ} (hi : Occupies s i m) :
    ∃ m', m ≤ m' ∧ Slot W.toLayout i.addr m' := by
  have g := h.sound.good
  have hchain : ∀ {c}, OnChain s.kernel c → c ∈ W.caches := (onChain_iff (s := s.session) g.lists).mp
  cases hi with
  | cache hc => exact slot_cache g (hchain hc)
  | slab hc hd =>
    have hd' := (onList_iff (s := s.session) g.lists (hchain hc)).mp hd
    exact slot_slab g (Queues.isSlab_of_mem g.lists (hchain hc) hd')
  | @block b kc hb hkc =>
    have hheld : b.held ∈ s.session.live := List.mem_map_of_mem hb
    have hread := g.readCache (g.holding.slab _ hheld).1
    obtain rfl := Option.some.inj (hread.symm.trans hkc)
    exact ⟨_, le_rfl, Slot.object (g.holding.slab _ hheld) (g.holding.object _ hheld)⟩

theorem addr_ne_of_occupies (h : ClientsSound pool s W B) {i j : Item} {m n : ℕ}
    (hi : Occupies s i m) (hj : Occupies s j n) (hne : i ≠ j) : i.addr ≠ j.addr := by
  have g := h.sound.good
  have hchain : ∀ {c}, OnChain s.kernel c → c ∈ W.caches := (onChain_iff (s := s.session) g.lists).mp
  have hslab : ∀ {c d kind}, OnChain s.kernel c → OnList s.kernel (Link.list c kind) (Link.slab d) →
      W.IsSlab c d := fun hc hd => Queues.isSlab_of_mem g.lists (hchain hc)
    ((onList_iff (s := s.session) g.lists (hchain hc)).mp hd)
  have hunused : ∀ {b}, b ∈ s.live → W.Unused b.addr := fun {b} hb =>
    g.holding.unused b.held (List.mem_map_of_mem hb)
  cases hi with
  | @cache c hc =>
    cases hj with
    | cache hc' => exact fun heq => hne (congrArg Item.cache heq)
    | slab hc' hd => exact g.cache_ne_slab (hchain hc) (hslab hc' hd)
    | @block b _ hb _ => exact fun (heq : c = b.addr) => (hunused hb).cache (heq ▸ hchain hc)
  | slab hc hd =>
    cases hj with
    | cache hc' => exact fun heq => g.cache_ne_slab (hchain hc') (hslab hc hd) heq.symm
    | slab hc' hd' => exact fun heq => hne (congrArg Item.slab heq)
    | block hb _ => exact fun heq => (hunused hb).slab _ _ (hslab hc hd) heq.symm
  | @block b _ hb _ =>
    cases hj with
    | @cache c hc' => exact fun (heq : b.addr = c) => (hunused hb).cache (heq ▸ hchain hc')
    | slab hc' hd => exact fun heq => (hunused hb).slab _ _ (hslab hc' hd) heq
    | block hb' _ => exact fun heq => hne (congrArg Item.block heq)

theorem safe_of_sound {z : Zone} (h : ClientsSound (PageFree z) s W B) : Safe z s where
  fitting _ hb := fitting_of_sound h hb
  nodup := by
    have hnodup := h.sound.good.holding.nodup
    rwa [Clients.session, List.map_map] at hnodup
  apart i j m n hi hj hne := by
    obtain ⟨m', hm, hslot⟩ := slot_of_occupies h hi
    obtain ⟨n', hn, hslot'⟩ := slot_of_occupies h hj
    exact (slots_apart h.sound.good hslot hslot' (addr_ne_of_occupies h hi hj hne)).mono hm hn
  recover _ hb := recover_of_sound h hb
  kfree b hb := by
    obtain ⟨k, W', B', hfree, -⟩ := kfree_sound h hb
    rw [hfree]
    rfl
  kmalloc n i hi h0 := by
    have hc := ((class_of_sizeClass h i).resolve_left h0).1
    obtain ⟨x, k, W', B', halloc, -⟩ := alloc_sound h.sound hc
    unfold kmalloc
    rw [hi]
    change (kmemCacheAlloc callDepth s.session.kernel (s.kernel.csCachep i)).isSome = true
    rw [halloc]
    rfl

/-- **Blocks are safe in every run** of `kmalloc`, `kfree` and writes to blocks, from `init_slab`
over any zone that satisfies the buddy invariant, of pages that the kernel maps. -/
theorem safe_of_run {k : Kernel} (hinv : BuddyInvariant k.zone) (hn : k.zone.presentPages ≤ 2 ^ 18)
    (hcs : k.csCachep = fun _ => 0) :
    ∃ k₀, initSlab zeroDesc k = some k₀ ∧
      ∀ s, ReflTransGen Served ⟨k₀, []⟩ s → Safe k.zone s := by
  obtain ⟨k₀, W, B, heq, hs, hcls⟩ := init_sound hinv hn hcs
  have h₀ : ClientsSound (PageFree k.zone) ⟨k₀, []⟩ W B := ⟨hs, hcls, by simp⟩
  refine ⟨k₀, heq, fun s hrun => ?_⟩
  obtain ⟨W', B', h⟩ := run_clientsSound h₀ hrun
  exact safe_of_sound h

/-- A check that a request is permitted. -/
def permittedCheck (s : Clients) : Request → Bool
  | .kmalloc _ => true
  | .kfree b => decide (b ∈ s.live)
  | .write b x _ => decide (b ∈ s.live) &&
    (readCache s.kernel b.cache).any fun kc => decide (b.addr ≤ x ∧ x < b.addr + kc.objsize)

theorem permitted_of_check {r : Request} (h : permittedCheck s r = true) : Permitted s r := by
  cases r with
  | kmalloc n => trivial
  | kfree b =>
    have hmem : b ∈ s.live := of_decide_eq_true h
    exact hmem
  | write b x w =>
    obtain ⟨hmem, hkc⟩ := Bool.and_eq_true_iff.mp h
    obtain ⟨kc, hread, hx⟩ := (Option.any_eq_true _ _).mp hkc
    exact ⟨of_decide_eq_true hmem, kc, hread, of_decide_eq_true hx⟩

/-- Two small blocks and one of two pages are taken; the first is written to and given back. -/
def threeBlocks : List Request :=
  [.kmalloc 48, .kmalloc 8000, .kmalloc 48,
    .write ⟨0xC0001000, 48, 0xC0000120, 0xC0002020⟩ 0xC0001010 7,
    .kfree ⟨0xC0001000, 48, 0xC0000120, 0xC0002020⟩]

theorem safe_threeBlocks : ∃ k₀ s, initSlab zeroDesc (plainKernel 64 (by decide)) = some k₀ ∧
    runList permittedCheck serve ⟨k₀, []⟩ threeBlocks = some s ∧ s.live.length = 2 ∧
      Safe (plainKernel 64 (by decide)).zone s := by
  obtain ⟨k₀, hinit, hall⟩ := safe_of_run
    (buddyInvariant_plainKernel (n := 64) (by decide) (by decide)) (by decide) rfl
  have hcheck : ((initSlab zeroDesc (plainKernel 64 (by decide))).bind fun k₀ =>
      runList permittedCheck serve ⟨k₀, []⟩ threeBlocks).any
      (fun s => decide (s.live.length = 2)) = true := by decide +kernel
  rw [hinit, Option.bind_some] at hcheck
  obtain ⟨s, hs, hlen⟩ := (Option.any_eq_true _ _).mp hcheck
  exact ⟨k₀, s, hinit, hs, of_decide_eq_true hlen,
    hall s (run_of_runList (fun s r _ h => permitted_of_check h) hs)⟩

/-- A kernel before `init_slab` whose free pages are those behind the page `2 ^ 18`. -/
def highKernel (n : ℕ) (h : Buddy.State.sizeofPage * n ≤ 2 ^ 32) : Kernel :=
  { plainKernel n h with
    zone := addFreeRegionToBuddy (Buddy.Run.emptyZone n h) (2 ^ 18 + 1) (n - 1) }

/-- **Pages behind `2 ^ 18` have no address of their own**: `__va` wraps, and a block is handed out in
a page that was not free. -/
theorem not_safe_highKernel : BuddyInvariant (highKernel (2 ^ 18 + 64) (by decide)).zone ∧
    ∃ k₀ s, initSlab zeroDesc (highKernel (2 ^ 18 + 64) (by decide)) = some k₀ ∧
      ReflTransGen Served ⟨k₀, []⟩ s ∧ ¬ Safe (highKernel (2 ^ 18 + 64) (by decide)).zone s := by
  refine ⟨Buddy.Run.buddyInvariant_region _ (by decide) _, ?_⟩
  have hcheck : ((initSlab zeroDesc (highKernel (2 ^ 18 + 64) (by decide))).any fun k₀ =>
      (serve ⟨k₀, []⟩ (.kmalloc 48)).any fun s => s.live.any fun b =>
        decide (¬ PageFree (highKernel (2 ^ 18 + 64) (by decide)).zone (virtToPage b.addr))) = true := by
    decide +kernel
  obtain ⟨k₀, hinit, h⟩ := (Option.any_eq_true _ _).mp hcheck
  obtain ⟨s, hs, h⟩ := (Option.any_eq_true _ _).mp h
  obtain ⟨b, hb, hpage⟩ := List.any_eq_true.mp h
  refine ⟨k₀, s, hinit, .single ⟨.kmalloc 48, trivial, hs⟩, fun hsafe => ?_⟩
  obtain ⟨kc, -, hmem, -, -, htaken⟩ := hsafe.fitting b hb
  have hpos : ∀ m ∈ csSizes, 0 < m := by decide
  have hfree := (htaken b.addr le_rfl (Nat.lt_add_of_pos_right (hpos _ hmem))).1
  exact of_decide_eq_true hpage hfree

end YegaKernel.Slab.Kmalloc
