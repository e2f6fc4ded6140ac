import YegaKernel.Lib.Links
import Mathlib.Data.BitVec
import Mathlib.Logic.Function.Basic

/-! # The zone

`zone_t`, its array of page descriptors and its eleven free areas, as `zone.h` has them.

A page descriptor is named by its index in `zone_mem_map`; the descriptors are in a function of the
index, of which the first `presentPages` are the array. The list heads (`lru` of every page and
`free_list` of every area) are kept apart from the other fields, as one store of list nodes: the
node `lru p` is the field of page `p`, the node `area k` that of `free_area[k]`. The slab allocator
stores the addresses of its descriptors in the same two words; `addr a` is such a word.

The mask macros of `zone.h` have no parentheses, so `~PG_FLAG_private` is `(~1) << 4`: clearing the
flag clears the four bits below it as well. -/

namespace YegaKernel.Buddy.State

open Lib.Links Function

/-- `BUDDY_GROUPS`, the number of orders. -/
def buddyGroups : ℕ := 11

/-- `sizeof(struct page)`. -/
def sizeofPage : ℕ := 36

def pageSize : ℕ := 4096

/-- What a list word can point to. -/
inductive Node
  | null
  | area (k : ℕ)
  | lru (p : ℕ)
  | addr (a : ℕ)
  deriving DecidableEq, Repr

/-- A `struct list_head`. -/
structure ListHead where
  next : Node
  prev : Node
  deriving DecidableEq, Repr

/-- A page descriptor, without its list head. `firstPage` is the index of the page that
`first_page` points to. -/
structure Page where
  pageNo : ℕ
  flags : BitVec 32
  priv : ℕ
  firstPage : ℕ
  deriving DecidableEq, Repr

/-- **The zone.** Its array of descriptors lies in a 32-bit address space. -/
structure Zone where
  freePages : ℕ
  presentPages : ℕ
  pages : ℕ → Page
  links : Node → ListHead
  nrFree : ℕ → ℕ
  present_le : sizeofPage * presentPages ≤ 2 ^ 32

theorem Zone.present_lt (z : Zone) : z.presentPages < 2 ^ 31 := by
  have := z.present_le
  unfold sizeofPage at this
  omega

/-! ### List nodes of the zone -/

instance : LinkStore Zone Node where
  next z n := (z.links n).next
  prev z n := (z.links n).prev
  setNext z n v := { z with links := update z.links n { z.links n with next := v } }
  setPrev z n v := { z with links := update z.links n { z.links n with prev := v } }

/-! The list operations change the links only. -/

@[simp] theorem listDel_pages (z : Zone) (n : Node) : (listDel Node.null z n).pages = z.pages := rfl

@[simp] theorem listAdd_pages (z : Zone) (h n : Node) : (listAdd z h n).pages = z.pages := rfl

/-! ### Flags -/

/-- `1 << 4`, `PG_FLAG_private`. -/
def pgFlagPrivate : BitVec 32 := 1#32 <<< 4

/-- `1 << 6`, `PG_FLAG_TAKEN`. -/
def pgFlagTaken : BitVec 32 := 1#32 <<< 6

/-- `1 << 7`, `PG_FLAG_RESERVED`. -/
def pgFlagReserved : BitVec 32 := 1#32 <<< 7

/-- `1 << 8`, `PG_FLAG_slab`. -/
def pgFlagSlab : BitVec 32 := 1#32 <<< 8

/-- `IS_FLAG` of `mm.h`. -/
def isFlag (var flag : BitVec 32) : Bool := var &&& flag = flag

def Zone.updPage (z : Zone) (p : ℕ) (f : Page → Page) : Zone :=
  { z with pages := update z.pages p (f (z.pages p)) }

/-- `page->flags &= ~PG_FLAG_private`, with the mask the macro expands to. -/
def clearPagePrivate (z : Zone) (p : ℕ) : Zone :=
  z.updPage p fun pg => { pg with flags := pg.flags &&& ((~~~1#32) <<< 4) }

/-- `page->flags &= ~PG_FLAG_slab`, with the mask the macro expands to. -/
def clearPageSlab (z : Zone) (p : ℕ) : Zone :=
  z.updPage p fun pg => { pg with flags := pg.flags &&& ((~~~1#32) <<< 8) }

def setPagePrivate (z : Zone) (p : ℕ) : Zone :=
  z.updPage p fun pg => { pg with flags := pg.flags ||| pgFlagPrivate }

def setPageSlab (z : Zone) (p : ℕ) : Zone :=
  z.updPage p fun pg => { pg with flags := pg.flags ||| pgFlagSlab }

/-- `page->private = order`. -/
def setPrivate (z : Zone) (p order : ℕ) : Zone := z.updPage p fun pg => { pg with priv := order }

def pagePrivate (z : Zone) (p : ℕ) : Bool := (z.pages p).flags &&& pgFlagPrivate = pgFlagPrivate

def pageIsBuddy (z : Zone) (buddy order : ℕ) : Bool :=
  pagePrivate z buddy && (z.pages buddy).priv = order

/-- `area->nr_free` replaced. -/
def setNrFree (z : Zone) (k n : ℕ) : Zone := { z with nrFree := update z.nrFree k n }

end YegaKernel.Buddy.State
