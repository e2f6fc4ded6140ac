import YegaKernel.Slab.Ops
import YegaKernel.Lib.Families
import YegaKernel.Lib.NullList
import YegaKernel.Buddy.Spec

/-! # What the allocator's memory stands for

A `World` says which caches there are, which slabs each has and in which pages they lie, and which
objects of a slab are free. `Good s W B R held`: the state `s` holds the world `W`, with the lists
`B`; the pages `R` are taken from the zone but are not (yet) a slab's, and the objects `held` are in
the hands of callers.

The parts of `Good` are apart by what they depend on: `Geometry` is about addresses alone and does
not change when an object is taken or given back, `Pages` is about the zone, `Cells` about the
memory, `Lists` about the list heads, and `Holding` about the callers' objects. `Sorted` is apart,
since it does not hold while a slab is between two lists. -/

namespace YegaKernel.Slab.Invariant

open Lib.Links Lib.Families Lib.NullList Lib.Word
open Function (update update_self update_of_ne)
open Buddy.State (Node pageSize buddyGroups)
open Buddy.FreeBlocks Buddy.Represent
open Slab.State

/-! ### Caches and slabs -/

/-- The largest offset at which a slab of the cache can start in its pages. -/
def lastOffset (kc : KmemCache) : ℕ := (kc.colour - 1) * kc.colourOff

/-- The bytes in front of the objects that hold the descriptor, for slabs that hold their own. -/
def headerSize (kc : KmemCache) : ℕ := if offSlab kc then 0 else kc.slabSize

/-- **A cache whose slabs fit their pages**: descriptor, objects and the largest offset together, an
object holds the word of the free list, and a slab without its descriptor starts in its first
page. -/
structure Sane (kc : KmemCache) : Prop where
  objsize : 4 ≤ kc.objsize
  num : 0 < kc.num
  order : kc.gfporder < buddyGroups
  fits : lastOffset kc + headerSize kc + kc.num * kc.objsize ≤ pageSize * 2 ^ kc.gfporder
  header : offSlab kc = false → sizeofSlab ≤ kc.slabSize
  first : offSlab kc = true → lastOffset kc < pageSize
  ctor : kc.ctor = 0
  dtor : kc.dtor = 0

/-- What taking and giving back objects does not change: the caches with their parameters, and the
pages `pool` that the zone had for them at the start. -/
structure Shape where
  cacheCache : ℕ
  csCachep : ℕ → ℕ
  present : ℕ
  pool : ℕ → Prop
  caches : List ℕ
  kc : ℕ → KmemCache
  slabCache : ℕ

/-- The caches with their slabs, by the address of the slab's descriptor. -/
structure Layout extends Shape where
  slabs : ℕ → List ℕ
  page : ℕ → ℕ
  colouroff : ℕ → ℕ

/-- The slabs with their free objects, in the order of the free list. -/
structure World extends Layout where
  free : ℕ → List ℕ
  colourNext : ℕ → ℕ

/-- The address of a page. -/
def base (p : ℕ) : ℕ := p * pageSize + pageOffset

namespace Layout

variable (W : Layout)

def IsSlab (c d : ℕ) : Prop := c ∈ W.caches ∧ d ∈ W.slabs c

def sMem (d : ℕ) : ℕ := base (W.page d) + W.colouroff d

/-- The page lies in the slab. -/
def InSlab (c d x : ℕ) : Prop := InBlock (W.kc c).gfporder (W.page d) x

/-- `x` is the address of an object of the slab. -/
def Object (c d x : ℕ) : Prop := ∃ i < (W.kc c).num, x = W.sMem d + i * (W.kc c).objsize

/-- The page lies in a slab. -/
def Owned (x : ℕ) : Prop := ∃ c d, W.IsSlab c d ∧ W.InSlab c d x

/-- `x` is the address of an object of one of the cache's slabs. -/
def Placed (c x : ℕ) : Prop := ∃ d, W.IsSlab c d ∧ W.Object c d x

end Layout

/-- A slab at its place: the objects end within the pages, they start behind a colour and the room
for a descriptor, and the descriptor is right in front of them or elsewhere. -/
structure Fits (kc : KmemCache) (page colouroff d : ℕ) : Prop where
  objects : colouroff + kc.num * kc.objsize ≤ pageSize * 2 ^ kc.gfporder
  colour : ∃ j, colouroff = j * kc.colourOff + headerSize kc
  off : offSlab kc = true → colouroff < pageSize
  on : offSlab kc = false → kc.slabSize ≤ colouroff ∧ d + kc.slabSize = base page + colouroff

/-- **Addresses**: where slabs, their descriptors and the descriptors of caches are. -/
structure Geometry (W : Layout) : Prop where
  root : W.cacheCache ∈ W.caches
  root_pos : 0 < W.cacheCache
  root_le : W.cacheCache + sizeofKmemCache ≤ pageOffset
  root_on : offSlab (W.kc W.cacheCache) = false
  root_objsize : sizeofKmemCache ≤ (W.kc W.cacheCache).objsize
  root_slabp : (W.kc W.cacheCache).slabpCache = W.slabCache
  sane : ∀ c ∈ W.caches, Sane (W.kc c)
  fits : ∀ c d, W.IsSlab c d → Fits (W.kc c) (W.page d) (W.colouroff d) d
  cache : ∀ c ∈ W.caches, c ≠ W.cacheCache → W.Placed W.cacheCache c
  desc : ∀ c d, W.IsSlab c d → offSlab (W.kc c) = true → W.Placed W.slabCache d
  slabCache : W.slabCache = 0 ∨ W.slabCache ∈ W.caches
  slabp : ∀ c ∈ W.caches, offSlab (W.kc c) = true →
    W.slabCache ∈ W.caches ∧ (W.kc c).slabpCache = W.slabCache
  slabp_on : W.slabCache ∈ W.caches →
    offSlab (W.kc W.slabCache) = false ∧ sizeofSlab ≤ (W.kc W.slabCache).objsize

/-- **Pages**: the slabs have their pages from the zone, and the page descriptors lead back to
them. -/
structure Pages (s : Kernel) (W : Layout) (R : ℕ → Prop) : Prop where
  present : s.zone.presentPages = W.present
  present_le : W.present ≤ 2 ^ 18
  rep : ∃ L, Represents s.zone L ∧ (∀ x, R x ∨ W.Owned x → ¬ Covers L x) ∧
    ∀ x, W.pool x ↔ Covers L x ∨ R x ∨ W.Owned x
  aligned : ∀ c d, W.IsSlab c d → 2 ^ (W.kc c).gfporder ∣ W.page d
  bound : ∀ c d, W.IsSlab c d → W.page d + 2 ^ (W.kc c).gfporder ≤ W.present
  back : ∀ c d, W.IsSlab c d → ∀ x, W.InSlab c d x →
    s.zone.links (Node.lru x) = ⟨Node.addr c, Node.addr d⟩ ∧ (s.zone.pages x).firstPage = W.page d
  reserved : ∀ x, R x → ¬ W.Owned x

/-- The number of free objects of a cache. -/
def World.freeCount (W : World) (c : ℕ) : ℕ := ((W.slabs c).map fun d => (W.free d).length).sum

/-- The descriptor of a cache. -/
def World.desc (W : World) (c : ℕ) : KmemCache :=
  { W.kc c with freeObjects := u32 (W.freeCount c), colourNext := W.colourNext c }

/-- The descriptor of a slab. -/
def World.slabDesc (W : World) (c d : ℕ) : SlabDesc :=
  ⟨W.colouroff d, W.sMem d, (W.kc c).num - (W.free d).length, 0, (W.free d).headD 0⟩

/-- The slab `d` has the free objects `l`. -/
def World.setFree (W : World) (d : ℕ) (l : List ℕ) : World :=
  { W with free := update W.free d l }

@[simp] theorem World.setFree_toLayout (W : World) (d : ℕ) (l : List ℕ) :
    (W.setFree d l).toLayout = W.toLayout := rfl

@[simp] theorem World.setFree_self (W : World) (d : ℕ) (l : List ℕ) : (W.setFree d l).free d = l :=
  update_self _ _ _

theorem World.setFree_of_ne (W : World) {d e : ℕ} (h : e ≠ d) (l : List ℕ) :
    (W.setFree d l).free e = W.free e := update_of_ne h _ _

/-- The cache `c` has the slab `d` in addition. -/
def Layout.addSlab (W : Layout) (c d page colouroff : ℕ) : Layout :=
  { W with
    slabs := update W.slabs c (d :: W.slabs c)
    page := update W.page d page
    colouroff := update W.colouroff d colouroff }

/-- The cache `c` has the slab `d`, with the free objects `l`, in addition. -/
def World.addSlab (W : World) (c d page colouroff : ℕ) (l : List ℕ) : World :=
  { W with
    toLayout := W.toLayout.addSlab c d page colouroff
    free := update W.free d l }

/-- The cache `c` does not have the slab `d` any more. -/
def World.removeSlab (W : World) (c d : ℕ) : World :=
  { W with slabs := update W.slabs c ((W.slabs c).erase d) }

/-- The next slab of the cache `c` has the colour `n`. -/
def World.setColour (W : World) (c n : ℕ) : World :=
  { W with colourNext := update W.colourNext c n }

/-- The cache `c` with the parameters `kc` in addition. -/
def Shape.addCache (S : Shape) (c : ℕ) (kc : KmemCache) : Shape :=
  { S with caches := c :: S.caches, kc := update S.kc c kc }

/-- The cache `c` with the parameters `kc`, and without slabs, in addition. -/
def World.addCache (W : World) (c : ℕ) (kc : KmemCache) : World :=
  { W with
    toShape := W.toShape.addCache c kc
    slabs := update W.slabs c []
    colourNext := update W.colourNext c kc.colourNext }

/-- The cache `c` is the cache of slab descriptors. -/
def World.setSlabCache (W : World) (c : ℕ) : World :=
  { W with
    kc := update W.kc W.cacheCache { W.kc W.cacheCache with slabpCache := c }
    slabCache := c }

/-- The table `malloc_sizes` has the caches `f`. -/
def World.setCs (W : World) (f : ℕ → ℕ) : World := { W with csCachep := f }

/-- The first word of an object. -/
def word (mem : ℕ → Cell) (x : ℕ) : ℕ :=
  match mem x with
  | .bytes w => w
  | _ => 0

/-- **Memory**: the descriptors, and the free lists through the objects. -/
structure Cells (s : Kernel) (W : World) : Prop where
  root : s.cacheCache = W.cacheCache
  csCachep : s.csCachep = W.csCachep
  cache : ∀ c ∈ W.caches, s.mem c = .cache (W.desc c)
  slab : ∀ c d, W.IsSlab c d → s.mem d = .slab (W.slabDesc c d)
  chain : ∀ c d, W.IsSlab c d → Threaded (word s.mem) ((W.free d).headD 0) (W.free d)
  bytes : ∀ c d, W.IsSlab c d → ∀ x ∈ W.free d, ∃ w, s.mem x = .bytes w
  object : ∀ c d, W.IsSlab c d → ∀ x ∈ W.free d, W.Object c d x
  colour : ∀ c ∈ W.caches, W.colourNext c ≤ (W.kc c).colour - 1

/-! ### Lists -/

/-- The lists: `cache_chain`, and three of each cache. -/
inductive Queue
  | chain
  | list (c : ℕ) (k : Kind)
  deriving DecidableEq

def queueHead : Queue → Link
  | .chain => .chain
  | .list c k => .list c k

def queueNode : Queue → ℕ → Link
  | .chain, c => .next c
  | .list _ _, d => .slab d

/-- The lists there are when the caches are `caches`. -/
def IsQueue (caches : List ℕ) : Queue → Prop
  | .chain => True
  | .list c _ => c ∈ caches

/-- The list for a slab with `free` of its `num` objects free. -/
def kindOf (free num : ℕ) : Kind :=
  if free = 0 then .slabsFull else if free = num then .slabsFree else .slabsPartial

/-- **Lists**: the caches are on `cache_chain`, and every slab is on a list of its cache. -/
structure Lists (s : Kernel) (W : Layout) (B : Queue → List ℕ) : Prop where
  rings : Rings s (IsQueue W.caches) queueHead queueNode B
  chain : ∀ c, c ∈ B .chain ↔ c ∈ W.caches
  nodup : ∀ c ∈ W.caches, (W.slabs c).Nodup
  mem : ∀ c ∈ W.caches, ∀ d, d ∈ W.slabs c ↔ ∃ k, d ∈ B (.list c k)

/-- The slab `d` of the cache `c` may be on the list `k`. -/
def World.Sorts (W : World) (c d : ℕ) (k : Kind) : Prop :=
  k = kindOf (W.free d).length (W.kc c).num

/-- **Every slab is on the list for the number of its free objects.** -/
def Sorted (W : World) (B : Queue → List ℕ) : Prop :=
  ∀ c ∈ W.caches, ∀ k, ∀ d ∈ B (.list c k), W.Sorts c d k

/-- ... except perhaps the slab `d₀`. -/
def SortedBut (W : World) (B : Queue → List ℕ) (d₀ : ℕ) : Prop :=
  ∀ c ∈ W.caches, ∀ k, ∀ d ∈ B (.list c k), d ≠ d₀ → W.Sorts c d k

/-! ### Idle slabs -/

/-- All objects of the slab are free. -/
def World.Idle (W : World) (c d : ℕ) : Prop := W.IsSlab c d ∧ (W.free d).length = (W.kc c).num

/-- No slab of `W'` is idle that was not idle in `W`. -/
def NoNewIdle (W W' : World) : Prop := ∀ c d, W'.Idle c d → W.Idle c d

/-- A slab of `W'` is idle that was not in `W` only if its cache counts no more free objects than its
limit. -/
def IdleWithin (W W' : World) : Prop :=
  ∀ c d, W'.Idle c d → W.Idle c d ∨ (W'.desc c).freeObjects ≤ (W'.desc c).freeLimit

/-! ### Objects of callers -/

/-- An object that a caller has, with the cache and the slab it is from. -/
structure Held where
  addr : ℕ
  cache : ℕ
  slab : ℕ
  deriving DecidableEq, Repr

/-- The allocator keeps nothing at the address. -/
structure World.Unused (W : World) (x : ℕ) : Prop where
  cache : x ∉ W.caches
  slab : ∀ c d, W.IsSlab c d → x ≠ d
  free : ∀ c d, W.IsSlab c d → x ∉ W.free d

structure Holding (W : World) (held : List Held) : Prop where
  slab : ∀ h ∈ held, W.IsSlab h.cache h.slab
  object : ∀ h ∈ held, W.Object h.cache h.slab h.addr
  unused : ∀ h ∈ held, W.Unused h.addr
  nodup : (held.map Held.addr).Nodup

/-- **The state `s` holds the world `W`.** -/
structure Good (s : Kernel) (W : World) (B : Queue → List ℕ) (R : ℕ → Prop) (held : List Held) :
    Prop where
  geometry : Geometry W.toLayout
  pages : Pages s W.toLayout R
  cells : Cells s W
  lists : Lists s W.toLayout B
  holding : Holding W held

/-! ### Reading the memory -/

section Reading
variable {s : Kernel} {W : World} {B : Queue → List ℕ} {R : ℕ → Prop} {held : List Held}

theorem base_pos (p : ℕ) : pageOffset ≤ base p := Nat.le_add_left _ _

theorem inBlock_virtToPage {k p x : ℕ} (hlo : base p ≤ x) (hhi : x < base p + pageSize * 2 ^ k) :
    InBlock k p (virtToPage x) := by
  have hx : pageOffset ≤ x := (base_pos p).trans hlo
  unfold base at hlo hhi
  unfold InBlock virtToPage pa
  rw [if_pos hx]
  constructor
  · rw [Nat.le_div_iff_mul_le (by unfold pageSize; omega)]
    omega
  · rw [Nat.div_lt_iff_lt_mul (by unfold pageSize; omega), Nat.add_mul]
    rw [Nat.mul_comm pageSize (2 ^ k)] at hhi
    omega

section
variable (hg : Geometry W.toLayout)
include hg

theorem Geometry.object_range {c d x : ℕ} (hd : W.IsSlab c d) (hx : W.Object c d x) :
    W.sMem d ≤ x ∧ x + (W.kc c).objsize ≤ base (W.page d) + pageSize * 2 ^ (W.kc c).gfporder := by
  obtain ⟨i, hi, rfl⟩ := hx
  have hfit := (hg.fits c d hd).objects
  have hmul : (i + 1) * (W.kc c).objsize ≤ (W.kc c).num * (W.kc c).objsize :=
    Nat.mul_le_mul_right _ hi
  rw [Nat.add_mul, Nat.one_mul] at hmul
  unfold Layout.sMem
  omega

theorem Geometry.object_inSlab {c d x : ℕ} (hd : W.IsSlab c d)
    (hx : W.Object c d x) : W.InSlab c d (virtToPage x) := by
  obtain ⟨hlo, hhi⟩ := hg.object_range hd hx
  have hsize := (hg.sane c hd.1).objsize
  refine inBlock_virtToPage ((Nat.le_add_right _ _).trans hlo) ?_
  omega

theorem Geometry.header_range {c d : ℕ} (hd : W.IsSlab c d)
    (hon : offSlab (W.kc c) = false) : base (W.page d) ≤ d ∧ d + sizeofSlab ≤ W.sMem d := by
  obtain ⟨hle, heq⟩ := (hg.fits c d hd).on hon
  have hsize := (hg.sane c hd.1).header hon
  unfold Layout.sMem
  omega

theorem Geometry.header_inSlab {c d : ℕ} (hd : W.IsSlab c d)
    (hon : offSlab (W.kc c) = false) : W.InSlab c d (virtToPage d) := by
  obtain ⟨hlo, hhi⟩ := hg.header_range hd hon
  have hfit := (hg.fits c d hd).objects
  refine inBlock_virtToPage hlo ?_
  unfold Layout.sMem sizeofSlab at hhi
  omega

end

theorem Pages.unique (hp : Pages s W.toLayout R) {c d c' d' x : ℕ} (hd : W.IsSlab c d)
    (hd' : W.IsSlab c' d') (hx : W.InSlab c d x) (hx' : W.InSlab c' d' x) : c = c' ∧ d = d' := by
  have h := (hp.back c d hd x hx).1.symm.trans (hp.back c' d' hd' x hx').1
  simpa using h

theorem Pages.cache_unique (hp : Pages s W.toLayout R) {c c' d : ℕ} (hd : W.IsSlab c d)
    (hd' : W.IsSlab c' d) : c = c' :=
  (hp.unique hd hd' (inBlock_start _ _) (inBlock_start _ _)).1

namespace Good

variable (g : Good s W B R held)
include g

variable {c d c' x : ℕ}

theorem object_unique {d' : ℕ} (hd : W.IsSlab c d) (hd' : W.IsSlab c' d')
    (hx : W.Object c d x) (hx' : W.Object c' d' x) : c = c' ∧ d = d' :=
  g.pages.unique hd hd' (g.geometry.object_inSlab hd hx) (g.geometry.object_inSlab hd' hx')

/-- Everything the allocator keeps is `cache_cache` or in the pages of a slab: caches ... -/
theorem owned_cache (hc : c ∈ W.caches) (hne : c ≠ W.cacheCache) : W.Owned (virtToPage c) := by
  obtain ⟨d, hd, hobj⟩ := g.geometry.cache c hc hne
  exact ⟨_, d, hd, g.geometry.object_inSlab hd hobj⟩

theorem owned_slab (hd : W.IsSlab c d) : W.Owned (virtToPage d) := by
  rcases hoff : offSlab (W.kc c)
  · exact ⟨c, d, hd, g.geometry.header_inSlab hd hoff⟩
  · obtain ⟨e, he, hobj⟩ := g.geometry.desc c d hd hoff
    exact ⟨_, e, he, g.geometry.object_inSlab he hobj⟩

theorem owned_object (hd : W.IsSlab c d) (hx : W.Object c d x) :
    W.Owned (virtToPage x) := ⟨c, d, hd, g.geometry.object_inSlab hd hx⟩

theorem object_ne_zero (hd : W.IsSlab c d) (hx : W.Object c d x) : x ≠ 0 := by
  have hlo := (g.geometry.object_range hd hx).1
  have := base_pos (W.page d)
  unfold Layout.sMem at hlo
  unfold pageOffset at this
  omega

theorem cache_ne_zero (hc : c ∈ W.caches) : c ≠ 0 := by
  by_cases hroot : c = W.cacheCache
  · have := g.geometry.root_pos
    omega
  · obtain ⟨d, hd, hobj⟩ := g.geometry.cache c hc hroot
    exact g.object_ne_zero hd hobj

theorem slab_ne_zero (hd : W.IsSlab c d) : d ≠ 0 := by
  rcases hoff : offSlab (W.kc c)
  · have hlo := (g.geometry.header_range hd hoff).1
    have := base_pos (W.page d)
    unfold pageOffset at this
    omega
  · obtain ⟨e, he, hobj⟩ := g.geometry.desc c d hd hoff
    exact g.object_ne_zero he hobj

theorem readCache (hc : c ∈ W.caches) : readCache s c = some (W.desc c) :=
  readCache_of_mem (g.cache_ne_zero hc) (g.cells.cache c hc)

theorem readSlab (hd : W.IsSlab c d) : readSlab s d = some (W.slabDesc c d) :=
  readSlab_of_mem (g.slab_ne_zero hd) (g.cells.slab c d hd)

theorem cache_ne_slab (hc : c ∈ W.caches) (hd : W.IsSlab c' d) : c ≠ d := by
  rintro rfl
  have := (g.cells.cache c hc).symm.trans (g.cells.slab c' c hd)
  simp at this

theorem free_ne_cache (hd : W.IsSlab c d) (hx : x ∈ W.free d) (hc : c' ∈ W.caches) : x ≠ c' := by
  rintro rfl
  obtain ⟨w, hw⟩ := g.cells.bytes c d hd x hx
  have := (g.cells.cache x hc).symm.trans hw
  simp at this

theorem free_ne_slab {d' : ℕ} (hd : W.IsSlab c d) (hx : x ∈ W.free d)
    (hd' : W.IsSlab c' d') : x ≠ d' := by
  rintro rfl
  obtain ⟨w, hw⟩ := g.cells.bytes c d hd x hx
  have := (g.cells.slab c' x hd').symm.trans hw
  simp at this

theorem free_nodup (hd : W.IsSlab c d) : (W.free d).Nodup := (g.cells.chain c d hd).nodup

theorem num_lt (hc : c ∈ W.caches) : (W.kc c).num < 2 ^ 32 := by
  have hs := g.geometry.sane c hc
  have hfits := hs.fits
  have hpow : 2 ^ (W.kc c).gfporder ≤ 2 ^ 10 :=
    Nat.pow_le_pow_right (by norm_num) (Nat.le_of_lt_succ hs.order)
  have hmul : (W.kc c).num * 4 ≤ (W.kc c).num * (W.kc c).objsize := Nat.mul_le_mul_left _ hs.objsize
  unfold pageSize at hfits
  omega

end Good

end Reading

end YegaKernel.Slab.Invariant
