import YegaKernel.Buddy.Ops

/-! # The memory of the slab allocator

The allocator keeps cache descriptors (`kmem_cache_t`), slab descriptors (`slab_t`) and objects in
pages that it takes from the buddy allocator; the descriptors are objects themselves, except for
`cache_cache`, which is a variable of the kernel. The memory is modelled as what lies at the address
of each of these: a cache descriptor, a slab descriptor, or the bytes of an object, of which the
allocator reads and writes the first word. Taking one for another is a fault, as is following a NULL
pointer; that no two of them overlap is a result about their addresses, not part of the model.

The list heads in the descriptors are kept apart from the other fields, as one store of list
nodes. -/

namespace YegaKernel.Slab.State

open Lib.Links Lib.Word Buddy.State Function

/-! ### Descriptors -/

/-- `sizeof(struct kmem_cache)`. -/
def sizeofKmemCache : ℕ := 104

/-- `sizeof(struct slab_s)`. -/
def sizeofSlab : ℕ := 28

/-- A `slab_t`, without its list head. -/
structure SlabDesc where
  colouroff : ℕ
  sMem : ℕ
  inuse : ℕ
  free : ℕ
  freeList : ℕ
  deriving DecidableEq, Repr, Inhabited

/-- A `kmem_cache_t`, without its list heads. -/
structure KmemCache where
  freeObjects : ℕ
  objsize : ℕ
  flags : ℕ
  num : ℕ
  freeLimit : ℕ
  gfporder : ℕ
  colour : ℕ
  colourOff : ℕ
  colourNext : ℕ
  slabpCache : ℕ
  slabSize : ℕ
  ctor : ℕ
  dtor : ℕ
  deriving DecidableEq, Repr, Inhabited

def cflgsOffSlab : ℕ := 0x80000000

def slabHwcacheAlign : ℕ := 0x00002000

def offSlab (kc : KmemCache) : Bool := kc.flags &&& cflgsOffSlab ≠ 0

/-- What lies at an address: the bytes of an object, with their first word, or a descriptor. -/
inductive Cell
  | bytes (word : ℕ)
  | slab (sd : SlabDesc)
  | cache (kc : KmemCache)
  deriving DecidableEq, Repr

/-! ### Lists -/

/-- The three lists of a cache. -/
inductive Kind
  | slabsFull
  | slabsPartial
  | slabsFree
  deriving DecidableEq, Repr

/-- What a list word can point to: the lists of the cache at `c`, the field `list` of the slab at
`d`, `cache_chain`, and the field `next` of the cache at `c`. -/
inductive Link
  | null
  | list (c : ℕ) (k : Kind)
  | slab (d : ℕ)
  | chain
  | next (c : ℕ)
  deriving DecidableEq, Repr

/-- A `struct list_head`. -/
structure ListHead where
  next : Link
  prev : Link
  deriving DecidableEq, Repr

def pageOffset : ℕ := 0xC0000000

/-- **The state**: the zone, the memory and the lists, the address of the variable `cache_cache`,
which is below the pages, and the field `cs_cachep` of the elements of `malloc_sizes`. -/
structure Kernel where
  zone : Zone
  mem : ℕ → Cell
  links : Link → ListHead
  cacheCache : ℕ
  csCachep : ℕ → ℕ
  cacheCache_pos : 0 < cacheCache
  cacheCache_le : cacheCache + sizeofKmemCache ≤ pageOffset

instance : LinkStore Kernel Link where
  next s n := (s.links n).next
  prev s n := (s.links n).prev
  setNext s n v := { s with links := update s.links n { s.links n with next := v } }
  setPrev s n v := { s with links := update s.links n { s.links n with prev := v } }

/-- The slab whose `list` field the node is. -/
def listEntry : Link → Option ℕ
  | .slab d => some d
  | _ => none

/-! ### Access -/

/-- A cache descriptor is read through the pointer `c`. -/
def readCache (s : Kernel) (c : ℕ) : Option KmemCache :=
  if c = 0 then none
  else match s.mem c with
    | .cache kc => some kc
    | _ => none

/-- A slab descriptor is read through the pointer `d`. -/
def readSlab (s : Kernel) (d : ℕ) : Option SlabDesc :=
  if d = 0 then none
  else match s.mem d with
    | .slab sd => some sd
    | _ => none

/-- The first word of an object is read through the pointer `p`. -/
def readWord (s : Kernel) (p : ℕ) : Option ℕ :=
  if p = 0 then none
  else match s.mem p with
    | .bytes w => some w
    | _ => none

variable {s : Kernel}

theorem readCache_of_mem {c : ℕ} {kc : KmemCache} (h0 : c ≠ 0)
    (h : s.mem c = .cache kc) : readCache s c = some kc := by
  rw [readCache, if_neg h0, h]

theorem readSlab_of_mem {d : ℕ} {sd : SlabDesc} (h0 : d ≠ 0)
    (h : s.mem d = .slab sd) : readSlab s d = some sd := by
  rw [readSlab, if_neg h0, h]

theorem readWord_of_mem {p w : ℕ} (h0 : p ≠ 0) (h : s.mem p = .bytes w) :
    readWord s p = some w := by
  rw [readWord, if_neg h0, h]

theorem mem_of_readCache {c : ℕ} {kc : KmemCache} (h : readCache s c = some kc) :
    c ≠ 0 ∧ s.mem c = .cache kc := by
  unfold readCache at h
  rcases hm : s.mem c with w | sd | kc'
  all_goals simp_all

theorem mem_of_readSlab {d : ℕ} {sd : SlabDesc} (h : readSlab s d = some sd) :
    d ≠ 0 ∧ s.mem d = .slab sd := by
  unfold readSlab at h
  rcases hm : s.mem d with w | sd' | kc
  all_goals simp_all

/-- What lies at `a` is overwritten. -/
def store (s : Kernel) (a : ℕ) (cell : Cell) : Kernel :=
  { s with mem := update s.mem a cell }

@[simp] theorem store_mem (s : Kernel) (a : ℕ) (cell : Cell) :
    (store s a cell).mem = update s.mem a cell := rfl

@[simp] theorem store_zone (s : Kernel) (a : ℕ) (cell : Cell) : (store s a cell).zone = s.zone := rfl

/-! ### Pages and addresses -/

def pa (x : ℕ) : ℕ := if pageOffset ≤ x then x - pageOffset else x

/-- `virt_to_page`, as the index of the page. -/
def virtToPage (x : ℕ) : ℕ := pa x / pageSize

/-- `page_address` of the page with index `p`. -/
def pageAddress (p : ℕ) : ℕ := u32 (p * pageSize + pageOffset)

def virtToHeadPage (s : Kernel) (x : ℕ) : ℕ := (s.zone.pages (virtToPage x)).firstPage

/-- The address in a list word of a page descriptor. -/
def asAddr : Node → Option ℕ
  | .addr a => some a
  | _ => none

def virtToSlab (s : Kernel) (x : ℕ) : Option ℕ :=
  asAddr (LinkStore.prev s.zone (Node.lru (virtToHeadPage s x)))

end YegaKernel.Slab.State
