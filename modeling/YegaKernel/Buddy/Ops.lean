import YegaKernel.Buddy.State
import YegaKernel.Lib.Word
import Mathlib.Data.Nat.Log

/-! # The buddy allocator

`allocate_block`, `free_block` and `add_free_region_to_buddy` of `buddy.c`. A page is its index, a
null result is `none`. The counters are unsigned words. Each loop has the number of its remaining
iterations as a bound; the bound given is never reached before the loop's own exit. -/

namespace YegaKernel.Buddy.Ops

open Lib.Links Lib.Word Buddy.State

/-- The page whose `lru` field the node is. -/
def listEntry : Node → ℕ
  | .lru p => p
  | _ => 0

/-- The search loop of `allocate_block`: the first order from `order` on with a block. -/
def findOrder (z : Zone) (order : ℕ) : Option ℕ :=
  (List.range' order (buddyGroups - order)).find? fun k => !listIsEmpty z (Node.area k)

/-- The split loop of `allocate_block`, from `current_order` and `size`: the upper half goes to the
list one order below, until the block has the order asked for. -/
def splitBlock (order page : ℕ) : ℕ → ℕ → Zone → Zone
  | 0, _, z => z
  | current + 1, size, z =>
    if order < current + 1 then
      let size := size / 2
      let buddy := page + size
      let z := listAdd z (Node.area current) (Node.lru buddy)
      let z := setNrFree z current (u32 (z.nrFree current + 1))
      let z := setPrivate z buddy current
      let z := setPagePrivate z buddy
      splitBlock order page current size z
    else z

def allocateBlock (z : Zone) (order : ℕ) : Option ℕ × Zone :=
  match findOrder z order with
  | none => (none, z)
  | some current =>
    let page := listEntry (LinkStore.next z (Node.area current))
    let z := listDel Node.null z (Node.lru page)
    let z := clearPagePrivate z page
    let z := setPrivate z page 0
    let z := setNrFree z current (sub32 (z.nrFree current) 1)
    let z := { z with freePages := sub32 z.freePages (2 ^ order) }
    (some page, splitBlock order page current (2 ^ current) z)

/-- The first page of the first block on the list of order `k`. -/
def firstOf (z : Zone) (k : ℕ) : ℕ := listEntry (LinkStore.next z (Node.area k))

theorem allocateBlock_of_none {z : Zone} {order : ℕ} (hk : findOrder z order = none) :
    allocateBlock z order = (none, z) := by
  rw [allocateBlock, hk]

theorem allocateBlock_fst {z : Zone} {order k : ℕ} (hk : findOrder z order = some k) :
    (allocateBlock z order).1 = some (firstOf z k) := by
  rw [allocateBlock, hk]
  rfl

/-- The merge loop of `free_block`: as long as the buddy is a free block of the same order, it is
taken off its list and the two are one block of the next order. -/
def mergeBlock : ℕ → ℕ → ℕ → Zone → ℕ × ℕ × Zone
  | 0, order, pageIdx, z => (order, pageIdx, z)
  | fuel + 1, order, pageIdx, z =>
    if order < buddyGroups - 1 then
      let buddyIdx := pageIdx ^^^ 2 ^ order
      if z.presentPages ≤ buddyIdx then (order, pageIdx, z)
      else if !pageIsBuddy z buddyIdx order then (order, pageIdx, z)
      else
        let z := listDel Node.null z (Node.lru buddyIdx)
        let z := setNrFree z order (sub32 (z.nrFree order) 1)
        let z := clearPagePrivate z buddyIdx
        let z := setPrivate z buddyIdx 0
        mergeBlock fuel (order + 1) (pageIdx &&& buddyIdx) z
    else (order, pageIdx, z)

def freeBlock (z : Zone) (page order : ℕ) : Zone :=
  let z := { z with freePages := u32 (z.freePages + 2 ^ order) }
  let (order, pageIdx, z) := mergeBlock buddyGroups order page z
  let z := setPrivate z pageIdx order
  let z := setPagePrivate z pageIdx
  let z := listAdd z (Node.area order) (Node.lru pageIdx)
  setNrFree z order (u32 (z.nrFree order + 1))

/-- `__builtin_ctz`: the index of the lowest bit that is set, for a number that is not zero. -/
def builtinCtz (n : ℕ) : ℕ := ((List.range 32).find? fun i => n.testBit i).getD 32

/-- The order of the next block of a region: the alignment of its first page or the logarithm of the
number of pages left, whichever is less, and at most the last order. The logarithm is the source's
loop of shifts. -/
def regionOrder (current remaining : ℕ) : ℕ :=
  let alignment := if current ≠ 0 then builtinCtz current else buddyGroups
  let sizeOrder := Nat.log2 remaining
  let maxOrder := if alignment < sizeOrder then alignment else sizeOrder
  if buddyGroups ≤ maxOrder then buddyGroups - 1 else maxOrder

/-- The loop of `add_free_region_to_buddy`. -/
def addRegionLoop : ℕ → ℕ → ℕ → Zone → Zone
  | 0, _, _, z => z
  | fuel + 1, current, fin, z =>
    if current ≤ fin then
      let maxOrder := regionOrder current (fin - current + 1)
      addRegionLoop fuel (current + 2 ^ maxOrder) fin (freeBlock z current maxOrder)
    else z

def addFreeRegionToBuddy (z : Zone) (start fin : ℕ) : Zone :=
  addRegionLoop (fin + 1 - start) start fin z

/-- The pages on `free_area[k].free_list`, in list order. -/
def freeList (z : Zone) (k : ℕ) : List ℕ :=
  (listNodes (z.presentPages + 1) z (Node.area k)).map listEntry

/-- The page lies in a block on a free list. -/
def PageFree (z : Zone) (x : ℕ) : Prop :=
  ∃ k < buddyGroups, ∃ p ∈ freeList z k, p ≤ x ∧ x < p + 2 ^ k

instance (z : Zone) (x : ℕ) : Decidable (PageFree z x) := by
  unfold PageFree; infer_instance

end YegaKernel.Buddy.Ops
