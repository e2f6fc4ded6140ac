import YegaKernel.Slab.State
import YegaKernel.Lib.Loops

/-! # The slab allocator

The functions of `slab.c`. The result is `none` when the code follows a NULL pointer, takes one kind
of memory for another, or calls through a pointer (`ctor`, `dtor`): what is in such a function is
not known. A NULL result of a function that returns is the address `0`.

`kmem_cache_alloc` and `kmem_cache_free` call themselves for the cache of slab descriptors; the
model has the depth of the calls as a bound. -/

namespace YegaKernel.Slab.Ops

open Lib.Links Lib.Word Lib.Loops Function
open Buddy.State (Zone Node Page pageSize buddyGroups)
open Buddy.Ops (allocateBlock freeBlock)
open Slab.State

/-- `ALIGN` of `kernel.h`. -/
def alignTo (x a : ℕ) : ℕ := u32 (x + sub32 a 1) &&& (2 ^ 32 - 1 - sub32 a 1)

/-- `cache_line_size()`. -/
def cacheLineSize : ℕ := 32

def kmallocMinalign : ℕ := 8

/-! ### Pages -/

/-- The loop of `SetPageSlab` over `n` pages from `p` on. -/
def setPagesSlab (z : Zone) (p n : ℕ) : Zone :=
  (List.range' p n).foldl Buddy.State.setPageSlab z

/-- The loop of `ClearPageSlab` over `n` pages from `p` on. -/
def clearPagesSlab (z : Zone) (p n : ℕ) : Zone :=
  (List.range' p n).foldl Buddy.State.clearPageSlab z

def kmemGetpages (s : Kernel) (kc : KmemCache) : ℕ × Kernel :=
  match allocateBlock s.zone kc.gfporder with
  | (none, z) => (0, { s with zone := z })
  | (some p, z) => (pageAddress p, { s with zone := setPagesSlab z p (2 ^ kc.gfporder) })

def kmemFreepages (s : Kernel) (kc : KmemCache) (addr : ℕ) : Kernel :=
  let page := virtToPage addr
  let z := clearPagesSlab s.zone page (2 ^ kc.gfporder)
  { s with zone := freeBlock z page kc.gfporder }

/-- The body of the loop of `slab_map_pages`. -/
def mapPage (c slabp first : ℕ) (z : Zone) (p : ℕ) : Zone :=
  let z := z.updPage p fun pg => { pg with firstPage := first }
  { z with links := update z.links (Node.lru p) ⟨Node.addr c, Node.addr slabp⟩ }

def slabMapPages (s : Kernel) (kc : KmemCache) (c slabp objp : ℕ) : Kernel :=
  let page := virtToPage objp
  { s with zone := (List.range' page (2 ^ kc.gfporder)).foldl (mapPage c slabp page) s.zone }

/-! ### Slabs -/

/-- The end of `alloc_slabmgmt`: the descriptor is filled in. -/
def initSlabDesc (s : Kernel) (slabp objp colourOff : ℕ) : Kernel :=
  let s := initListHead s (Link.slab slabp)
  store s slabp (.slab ⟨colourOff, u32 (objp + colourOff), 0, 0, 0⟩)

def allocSlabmgmt (alloc : Kernel → ℕ → Option (ℕ × Kernel)) (s : Kernel) (kc : KmemCache)
    (objp colourOff : ℕ) : Option (ℕ × Kernel) :=
  if offSlab kc then do
    let (slabp, s) ← alloc s kc.slabpCache
    if slabp = 0 then return (0, s)
    return (slabp, initSlabDesc s slabp objp colourOff)
  else
    let slabp := u32 (objp + colourOff)
    some (slabp, initSlabDesc s slabp objp (u32 (colourOff + kc.slabSize)))

/-- The loop of `cache_init_objs`, from the object with index `i - 1` down to the first. -/
def initObjs (kc : KmemCache) (slabp : ℕ) : ℕ → Kernel → Option Kernel
  | 0, s => some s
  | i + 1, s => do
    let sd ← readSlab s slabp
    let objp := u32 (sd.sMem + i * kc.objsize)
    let s := store s objp (.bytes sd.freeList)
    let s := store s slabp (.slab { sd with freeList := objp })
    if kc.ctor ≠ 0 then none else initObjs kc slabp i s

/-- `cache_init_objs`. The loop counts in an `int`: with `num - 1` beyond its range it does not
run. -/
def cacheInitObjs (s : Kernel) (kc : KmemCache) (slabp : ℕ) : Option Kernel := do
  let sd ← readSlab s slabp
  let s := store s slabp (.slab { sd with freeList := 0 })
  initObjs kc slabp (if kc.num ≤ 2 ^ 31 then kc.num else 0) s

/-- The end of `cache_grow`, with the memory at `objp` and the descriptor at `slabp`. -/
def setupSlab (s : Kernel) (kc : KmemCache) (c slabp objp : ℕ) : Option Kernel := do
  let s := slabMapPages s kc c slabp objp
  let s ← cacheInitObjs s kc slabp
  let s := listAddTail s (Link.list c .slabsFree) (Link.slab slabp)
  let kc ← readCache s c
  return store s c (.cache { kc with freeObjects := u32 (kc.freeObjects + kc.num) })

/-- The part of `cache_grow` behind `kmem_getpages`, which has given the pages at `objp`. -/
def growAt (alloc : Kernel → ℕ → Option (ℕ × Kernel)) (s : Kernel) (kc : KmemCache)
    (c objp offset : ℕ) : Option (Bool × Kernel) := do
  let (slabp, s) ← allocSlabmgmt alloc s kc objp offset
  if slabp = 0 then return (false, kmemFreepages s kc objp)
  let s ← setupSlab s kc c slabp objp
  return (true, s)

/-- The colour for the slab after the next one: `colour_next` advances, and starts over behind the
last colour. -/
def advanceColour (kc : KmemCache) : KmemCache :=
  let next := u32 (kc.colourNext + 1)
  { kc with colourNext := if kc.colour ≤ next then 0 else next }

/-- `cache_grow`, as it is called: without memory of its own. -/
def cacheGrow (alloc : Kernel → ℕ → Option (ℕ × Kernel)) (s : Kernel) (c : ℕ) :
    Option (Bool × Kernel) := do
  let kc ← readCache s c
  let offset := u32 (kc.colourNext * kc.colourOff)
  let s := store s c (.cache (advanceColour kc))
  match kmemGetpages s kc with
  | (0, s) => return (false, s)
  | (objp, s) => growAt alloc s kc c objp offset

def slabGetObj (s : Kernel) (c slabp : ℕ) : Option (ℕ × Kernel) := do
  let sd ← readSlab s slabp
  let objp := sd.freeList
  let next ← readWord s objp
  let s := store s slabp (.slab { sd with freeList := next, inuse := u32 (sd.inuse + 1) })
  let kc ← readCache s c
  return (objp, store s c (.cache { kc with freeObjects := sub32 kc.freeObjects 1 }))

def slabPutObj (s : Kernel) (slabp objp : ℕ) : Option Kernel := do
  let sd ← readSlab s slabp
  let s := store s objp (.bytes sd.freeList)
  return store s slabp (.slab { sd with freeList := objp, inuse := sub32 sd.inuse 1 })

def slabDestroy (free : Kernel → ℕ → ℕ → Option Kernel) (s : Kernel) (c slabp : ℕ) :
    Option Kernel := do
  let kc ← readCache s c
  let sd ← readSlab s slabp
  if kc.dtor ≠ 0 then none
  else if offSlab kc then free (kmemFreepages s kc sd.sMem) kc.slabpCache slabp
  else some (kmemFreepages s kc (sub32 sd.sMem sd.colouroff))

/-! ### Objects -/

/-- A slab from `slabs_free` is moved to `slabs_partial`. -/
def takeFreeSlab (s : Kernel) (c : ℕ) : Option (ℕ × Kernel) := do
  let slabp ← listEntry (LinkStore.next s (Link.list c .slabsFree))
  let s := listDel Link.null s (Link.slab slabp)
  return (slabp, listAdd s (Link.list c .slabsPartial) (Link.slab slabp))

/-- The first part of `cache_alloc_refill`: the slab to take an object from, which is on
`slabs_partial` then. -/
def refillSlab (alloc : Kernel → ℕ → Option (ℕ × Kernel)) (s : Kernel) (c : ℕ) :
    Option (Option ℕ × Kernel) := do
  let _ ← readCache s c
  let entry := LinkStore.next s (Link.list c .slabsPartial)
  if entry ≠ Link.list c .slabsPartial then
    let slabp ← listEntry entry
    return (some slabp, s)
  else if LinkStore.next s (Link.list c .slabsFree) = Link.list c .slabsFree then
    let (grown, s) ← cacheGrow alloc s c
    if !grown then return (none, s)
    let (slabp, s) ← takeFreeSlab s c
    return (some slabp, s)
  else
    let (slabp, s) ← takeFreeSlab s c
    return (some slabp, s)

/-- The second part of `cache_alloc_refill`: an object is taken, and a slab without free objects
goes to `slabs_full`. -/
def takeObject (s : Kernel) (c slabp : ℕ) : Option (ℕ × Kernel) := do
  let (objp, s) ← slabGetObj s c slabp
  let sd ← readSlab s slabp
  if sd.freeList = 0 then
    let s := listDel Link.null s (Link.slab slabp)
    return (objp, listAdd s (Link.list c .slabsFull) (Link.slab slabp))
  else return (objp, s)

def cacheAllocRefill (alloc : Kernel → ℕ → Option (ℕ × Kernel)) (s : Kernel) (c : ℕ) :
    Option (ℕ × Kernel) := do
  match ← refillSlab alloc s c with
  | (none, s) => return (0, s)
  | (some slabp, s) => takeObject s c slabp

/-- `kmem_cache_alloc`, with calls nested at most to the given depth. -/
def kmemCacheAlloc : ℕ → Kernel → ℕ → Option (ℕ × Kernel)
  | 0, _, _ => none
  | depth + 1, s, c => cacheAllocRefill (kmemCacheAlloc depth) s c

/-- The end of `kmem_cache_free`: what happens to the slab the object went back to. -/
def settleSlab (free : Kernel → ℕ → ℕ → Option Kernel) (s : Kernel) (c slabp : ℕ) (wasFull : Bool) :
    Option Kernel := do
  let sd ← readSlab s slabp
  if sd.inuse = 0 then
    let s := listDel Link.null s (Link.slab slabp)
    let kc ← readCache s c
    if kc.freeLimit < kc.freeObjects then
      let s := store s c (.cache { kc with freeObjects := sub32 kc.freeObjects kc.num })
      slabDestroy free s c slabp
    else return listAdd s (Link.list c .slabsFree) (Link.slab slabp)
  else if wasFull then
    let s := listDel Link.null s (Link.slab slabp)
    return listAddTail s (Link.list c .slabsPartial) (Link.slab slabp)
  else return s

/-- `kmem_cache_free`, with the nested calls for `free`. -/
def cacheFree (free : Kernel → ℕ → ℕ → Option Kernel) (s : Kernel) (c objp : ℕ) : Option Kernel := do
  let slabp ← virtToSlab s objp
  let sd ← readSlab s slabp
  let kc ← readCache s c
  let wasFull := decide (sd.inuse = kc.num)
  let s ← slabPutObj s slabp objp
  let kc ← readCache s c
  let s := store s c (.cache { kc with freeObjects := u32 (kc.freeObjects + 1) })
  settleSlab free s c slabp wasFull

/-- `kmem_cache_free`, with calls nested at most to the given depth. -/
def kmemCacheFree : ℕ → Kernel → ℕ → ℕ → Option Kernel
  | 0, _, _, _ => none
  | depth + 1, s, c, objp => cacheFree (kmemCacheFree depth) s c objp

/-- The depth of the calls. A cache of slab descriptors keeps its own descriptors in its slabs, so a
call for it makes no further one. -/
def callDepth : ℕ := 2

/-! ### Caches -/

def slabMgmtSize (align : ℕ) : ℕ := alignTo sizeofSlab align

/-- `cache_estimate`: the space left over and the number of objects, for objects of `objsize >
0`. -/
def cacheEstimate (gfporder objsize align flags : ℕ) : ℕ × ℕ :=
  let slabSize := pageSize * 2 ^ gfporder
  if flags &&& cflgsOffSlab ≠ 0 then
    let nrObjs := slabSize / objsize
    (sub32 slabSize (u32 (nrObjs * objsize)), nrObjs)
  else
    let nrObjs := (slabSize - sizeofSlab) / objsize
    let nrObjs :=
      if slabSize < u32 (slabMgmtSize align + nrObjs * objsize) then sub32 nrObjs 1 else nrObjs
    (sub32 (sub32 slabSize (u32 (nrObjs * objsize))) (slabMgmtSize align), nrObjs)

/-- The loop over the orders in `calculate_slab_order` and `kmem_cache_init`: the first order from
`gfporder` on with room for an object. The result is the order, the number of objects and the space
left over. If no order has room the number is zero, and `kmem_cache_create` fails without a look at
the space; the caches of `kmem_cache_init` fit into the first order. -/
def orderLoop (objsize align flags : ℕ) : ℕ → ℕ → ℕ × ℕ × ℕ
  | 0, gfporder => (gfporder, 0, 0)
  | fuel + 1, gfporder =>
    let (leftOver, num) := cacheEstimate gfporder objsize align flags
    if num = 0 then orderLoop objsize align flags fuel (gfporder + 1) else (gfporder, num, leftOver)

/-- `calculate_slab_order`, over the orders up to `KMALLOC_MAX_ORDER`. -/
def calculateSlabOrder (objsize align flags : ℕ) : ℕ × ℕ × ℕ :=
  orderLoop objsize align flags buddyGroups 0

/-- The lists of `kmem_list3_init`. -/
def kmemList3Init (s : Kernel) (c : ℕ) : Kernel :=
  let s := initListHead s (Link.list c .slabsFull)
  let s := initListHead s (Link.list c .slabsPartial)
  initListHead s (Link.list c .slabsFree)

/-- The size rounded up to words. -/
def roundToWords (size : ℕ) : ℕ :=
  if size &&& 3 ≠ 0 then u32 (size + 3) &&& (2 ^ 32 - 1 - 3) else size

/-- The descriptor that `kmem_cache_create` fills in. `found` is what the object held before: the
fields `colour_next` and `dtor` are not set. -/
def cacheDesc (found : KmemCache) (size align flags ctor slabpCache : ℕ) : KmemCache :=
  let objsize := alignTo size align
  let (gfporder, num, leftOver) := calculateSlabOrder objsize align flags
  let colourOff := if cacheLineSize < align then align else cacheLineSize
  let slabSize := if flags &&& cflgsOffSlab ≠ 0 then sizeofSlab else alignTo sizeofSlab align
  { freeObjects := 0
    objsize := objsize
    flags := flags
    num := num
    freeLimit := num
    gfporder := gfporder
    colour := leftOver / colourOff
    colourOff := colourOff
    colourNext := found.colourNext
    slabpCache := slabpCache
    slabSize := slabSize
    ctor := ctor
    dtor := found.dtor }

/-- `kmem_cache_create`. The loop that computes `ralign`, which has no effect, does not end for the
size `0`; an object size `0` is a division by zero. -/
def kmemCacheCreate (found : KmemCache) (s : Kernel) (size align flags ctor : ℕ) :
    Option (ℕ × Kernel) := do
  let size := roundToWords size
  if flags &&& slabHwcacheAlign ≠ 0 ∧ size = 0 then none
  let (c, s) ← kmemCacheAlloc callDepth s s.cacheCache
  if c = 0 then return (0, s)
  let s := kmemList3Init s c
  if alignTo size align = 0 then none
  let cc ← readCache s s.cacheCache
  let kc := cacheDesc found size align flags ctor cc.slabpCache
  if kc.num = 0 then
    let s ← kmemCacheFree callDepth s s.cacheCache c
    return (0, s)
  let s := store s c (.cache kc)
  let s := initListHead s (Link.next c)
  return (c, listAdd s Link.chain (Link.next c))

/-- The descriptor of `cache_cache`, for the objects of `kmem_cache_init`'s argument `objsize`. The
flags are those of a variable that nothing has written. -/
def cacheCacheDesc (objsize ctor dtor : ℕ) : KmemCache :=
  let objsize := alignTo objsize cacheLineSize
  let (gfporder, num, leftOver) := orderLoop objsize cacheLineSize 0 buddyGroups 0
  { freeObjects := 0
    objsize := objsize
    flags := 0
    num := num
    freeLimit := num
    gfporder := gfporder
    colour := leftOver / cacheLineSize
    colourOff := cacheLineSize
    colourNext := 0
    slabpCache := 0
    slabSize := alignTo sizeofSlab cacheLineSize
    ctor := ctor
    dtor := dtor }

/-- The values of `cs_size` in `malloc_sizes`. -/
def csSizes : List ℕ :=
  [32, 64, 96, 128, 192, 256, 512, 1024, 2048, 4096, 8192, 16384, 32768, 65536, 131072]

/-- The loop of `kmem_cache_init` over `malloc_sizes`, which ends at the first failure. -/
def createSizes (found : KmemCache) : ℕ → List ℕ → Kernel → Option Kernel
  | _, [], s => some s
  | i, size :: sizes, s => do
    let (c, s) ← kmemCacheCreate found s size kmallocMinalign (cflgsOffSlab ||| slabHwcacheAlign) 0
    let s := { s with csCachep := update s.csCachep i c }
    if c = 0 then return s
    createSizes found (i + 1) sizes s

/-- `kmem_cache_init`, for `cache_cache`. -/
def kmemCacheInit (found : KmemCache) (s : Kernel) (objsize ctor dtor : ℕ) : Option Kernel := do
  let s := initListHead s Link.chain
  let s := initListHead s (Link.next s.cacheCache)
  let s := listAdd s Link.chain (Link.next s.cacheCache)
  let s := kmemList3Init s s.cacheCache
  let s := store s s.cacheCache (.cache (cacheCacheDesc objsize ctor dtor))
  let (c, s) ← kmemCacheCreate found s sizeofSlab kmallocMinalign slabHwcacheAlign 0
  let cc ← readCache s s.cacheCache
  let s := store s s.cacheCache (.cache { cc with slabpCache := c })
  createSizes found 0 csSizes s

def initSlab (found : KmemCache) (s : Kernel) : Option Kernel :=
  kmemCacheInit found s sizeofKmemCache 0 0

/-! ### The interface -/

/-- The search loop of `kmalloc`: the index of the first class with room for `size` bytes. -/
def sizeClass (size : ℕ) : Option ℕ := csSizes.findIdx? fun csSize => size ≤ csSize

def kmalloc (s : Kernel) (size : ℕ) : Option (ℕ × Kernel) :=
  match sizeClass size with
  | none => some (0, s)
  | some i => kmemCacheAlloc callDepth s (s.csCachep i)

/-- The cache that `kfree` finds for an object. -/
def pageCache (s : Kernel) (objp : ℕ) : Option ℕ :=
  asAddr (LinkStore.next s.zone (Node.lru (virtToPage objp)))

def kfree (s : Kernel) (objp : ℕ) : Option Kernel :=
  if objp = 0 then some s
  else do
    let c ← pageCache s objp
    kmemCacheFree callDepth s c objp

end YegaKernel.Slab.Ops
