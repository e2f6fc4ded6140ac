import YegaKernel.Lib.Links
import YegaKernel.Fs.Disk
import Mathlib.Data.BitVec

/-! # The buffer cache

`fs/buffer.c`. The buffer heads are numbered in the order in which `create_buffer_cache` gets them
from the slab allocator; the data of a buffer is its own 1024 bytes. Every head is on two intrusive
lists at once, through its fields `b_hash` and `b_free`.

The four hash chains are an array that is followed in memory by the free list, so the element behind
the last one is `buffer_cache.b_free`. An index further out, a list node of the wrong kind taken for
a buffer head, a NULL buffer and a modulus by zero are faults; so is a loop of `getblk` or of a list
traversal that does not come to its end. -/

namespace YegaKernel.Fs.Buffer

open Lib.Links Fs.Disk Function

/-- `DEV_NO`, the number of hash chains and the device the kernel uses. -/
def devNo : ℕ := 4

def buffers : ℕ := 100

def bufferSize : ℕ := 1024

/-- What a list word can point to: the heads in `buffer_cache`, the fields of buffer head `b`. -/
inductive Link
  | null
  | hash (i : ℕ)
  | free
  | hashOf (b : ℕ)
  | freeOf (b : ℕ)
  deriving DecidableEq, Repr

/-- A `struct list_head`. -/
structure ListHead where
  next : Link
  prev : Link
  deriving DecidableEq, Repr

/-- A `struct buffer_head`, without its list heads; `bData` is `none` for a NULL pointer. -/
structure BufferHead where
  flags : BitVec 16
  bCount : ℕ
  bData : Option Bytes
  bDev : ℕ
  bBlocknr : ℕ

/-- **The buffer cache** and the disk behind it. -/
structure Cache where
  heads : ℕ → BufferHead
  links : Link → ListHead
  disk : Sectors

inductive Fault
  | divideByZero
  | wildPointer
  | nullPointer
  | spinning
  deriving DecidableEq, Repr

instance : LinkStore Cache Link where
  next s n := (s.links n).next
  prev s n := (s.links n).prev
  setNext s n v := { s with links := update s.links n { s.links n with next := v } }
  setPrev s n v := { s with links := update s.links n { s.links n with prev := v } }

/-! The list operations change the links only. -/

@[simp] theorem listDel_heads (s : Cache) (n : Link) : (listDel Link.null s n).heads = s.heads := rfl

@[simp] theorem listAdd_heads (s : Cache) (h n : Link) : (listAdd s h n).heads = s.heads := rfl

@[simp] theorem listAddTail_heads (s : Cache) (h n : Link) : (listAddTail s h n).heads = s.heads := rfl

/-! ### Flags -/

/-- `1 << 0`, `BH_lock`. -/
def bhLock : BitVec 16 := 1#16 <<< 0

/-- `1 << 1`, `BH_dirty`. -/
def bhDirty : BitVec 16 := 1#16 <<< 1

/-- `1 << 3`, `BH_delay`. -/
def bhDelay : BitVec 16 := 1#16 <<< 3

/-- `1 << 5`, `BH_old`. -/
def bhOld : BitVec 16 := 1#16 <<< 5

/-- `IS_FLAG` of `mm.h`. -/
def isFlag (var flag : BitVec 16) : Bool := var &&& flag = flag

def Cache.updHead (s : Cache) (b : ℕ) (f : BufferHead → BufferHead) : Cache :=
  { s with heads := update s.heads b (f (s.heads b)) }

theorem updHead_links (s : Cache) (b : ℕ) (f : BufferHead → BufferHead) :
    (s.updHead b f).links = s.links := rfl

/-- `SET_FLAG` of the flags of a buffer. -/
def setFlag (s : Cache) (b : ℕ) (flag : BitVec 16) : Cache :=
  s.updHead b fun bh => { bh with flags := bh.flags ||| flag }

/-- `CLEAR_FLAG` of the flags of a buffer. -/
def clearFlag (s : Cache) (b : ℕ) (flag : BitVec 16) : Cache :=
  s.updHead b fun bh => { bh with flags := bh.flags &&& ~~~flag }

def lockedBuffer (s : Cache) (b : ℕ) : Cache := setFlag s b bhLock

def unlockedBuffer (s : Cache) (b : ℕ) : Cache := clearFlag s b bhLock

/-! ### Hash chains -/

def hashFn (bno devno : ℕ) : Except Fault ℕ :=
  if devno = 0 then .error .divideByZero else .ok (bno % devno)

/-- `&buffer_cache.b_hash[index]`. -/
def hashHead (index : ℕ) : Except Fault Link :=
  if index < devNo then .ok (.hash index)
  else if index = devNo then .ok .free else .error .wildPointer

/-- The loop of `search_hash`, at the node `run`. -/
def searchFrom (s : Cache) (head : Link) (dev blocknr : ℕ) : ℕ → Link → Except Fault (Option ℕ)
  | 0, _ => .error .spinning
  | fuel + 1, run =>
    if run = head then .ok none
    else match run with
      | .hashOf b =>
        if (s.heads b).bBlocknr = blocknr ∧ (s.heads b).bDev = dev then .ok (some b)
        else searchFrom s head dev blocknr fuel (LinkStore.next s run)
      | _ => .error .wildPointer

def searchHash (fuel : ℕ) (s : Cache) (dev blocknr : ℕ) : Except Fault (Option ℕ) := do
  let head ← hashHead (← hashFn blocknr dev)
  searchFrom s head dev blocknr fuel (LinkStore.next s head)

/-! ### Getting and releasing a buffer -/

/-- Scenario 3 of `getblk`: the delayed write of a buffer off the free list, which goes back to the
front of it. -/
def writeDelayed (s : Cache) (b : ℕ) (data : Bytes) : Cache :=
  let s := { s with disk := diskWriteBlk s.disk (s.heads b).bBlocknr data }
  let s := clearFlag s b bhDelay
  listAdd s .free (.freeOf b)

/-- Scenario 2 of `getblk`: a buffer off the free list becomes the buffer of the block. The chain it
goes to is `hash_fn(dev_no, blocknr)`, with the arguments in this order. -/
def recycle (s : Cache) (b dev blocknr : ℕ) : Except Fault (ℕ × Cache) := do
  let s := listDel .null s (.hashOf b)
  let s := s.updHead b fun bh => { bh with bDev := dev, bBlocknr := blocknr }
  let head ← hashHead (← hashFn dev blocknr)
  return (b, lockedBuffer (listAdd s head (.hashOf b)) b)

/-- `getblk`; the fuel bounds the rounds of its loop and the walk of a hash chain. -/
def getblkLoop (walk : ℕ) : ℕ → Cache → ℕ → ℕ → Except Fault (ℕ × Cache)
  | 0, _, _, _ => .error .spinning
  | fuel + 1, s, dev, blocknr => do
    match ← searchHash walk s dev blocknr with
    | some b =>
      -- scenario 5: the buffer is locked
      if isFlag (s.heads b).flags bhLock then getblkLoop walk fuel s dev blocknr
      else return (b, lockedBuffer (listDel .null s (.freeOf b)) b)
    | none =>
      -- scenario 4: no buffer is free
      if listIsEmpty s Link.free then getblkLoop walk fuel s dev blocknr
      else match LinkStore.next s Link.free with
        | .freeOf b =>
          let s := listDel .null s (.freeOf b)
          if isFlag (s.heads b).flags bhDelay then
            match (s.heads b).bData with
            | some data => getblkLoop walk fuel (writeDelayed s b data) dev blocknr
            | none => .error .nullPointer
          else recycle s b dev blocknr
        | _ => .error .wildPointer

def getblk (fuel : ℕ) (s : Cache) (dev blocknr : ℕ) : Except Fault (ℕ × Cache) :=
  getblkLoop fuel fuel s dev blocknr

def brelse (s : Cache) (b : ℕ) : Cache :=
  let s :=
    if !isFlag (s.heads b).flags bhDirty && !isFlag (s.heads b).flags bhOld
    then listAddTail s .free (.freeOf b) else listAdd s .free (.freeOf b)
  unlockedBuffer s b

/-! ### Reading and writing a block -/

/-- `bread`: one sector, into the first half of the buffer. -/
def bread (fuel : ℕ) (s : Cache) (dev blocknr : ℕ) : Except Fault (ℕ × Cache) := do
  let (b, s) ← getblk fuel s dev blocknr
  if isFlag (s.heads b).flags bhDirty then return (b, s)
  else match (s.heads b).bData with
    | some data =>
      let data := diskRead s.disk (s.heads b).bBlocknr data
      return (b, s.updHead b fun bh => { bh with bData := some data })
    | none => .error .nullPointer

/-- `bwrite`: the whole buffer, that is two sectors. -/
def bwrite (s : Cache) (b : ℕ) : Except Fault Cache :=
  match (s.heads b).bData with
  | some data =>
    .ok (brelse { s with disk := diskWrite s.disk (s.heads b).bBlocknr data bufferSize } b)
  | none => .error .nullPointer

/-! ### Initialisation -/

/-- `binit` of a head that holds whatever its memory held; `data` is what `kmalloc` returns. -/
def binit (s : Cache) (b : ℕ) (data : Option Bytes) (dev blocknr : ℕ) : Cache :=
  let s := s.updHead b fun bh => { bh with flags := 0, bData := data }
  if data.isNone then s
  else
    let s := s.updHead b fun bh => { bh with bDev := dev, bBlocknr := blocknr, bCount := 0 }
    initListNull .null (initListNull .null s (.hashOf b)) (.freeOf b)

/-- One round of the loop over the buffers. -/
def addBuffer (data : ℕ → Option Bytes) (s : Cache) (b : ℕ) : Cache :=
  let s := binit s b (data b) devNo b
  let s := listAdd s (.hash (b % devNo)) (.hashOf b)
  listAdd s .free (.freeOf b)

/-- The heads in `buffer_cache`, all empty. -/
def initHeads (s : Cache) : Cache :=
  initListHead ((List.range devNo).foldl (fun s i => initListHead s (.hash i)) s) .free

/-- The initialisation in `create_buffer_cache`: `got` heads are allocated before the slab allocator
fails, or all of them, and `data b` is the memory `binit` gets for the head `b`. -/
def createBufferCache (s : Cache) (got : ℕ) (data : ℕ → Option Bytes) : Cache :=
  (List.range (min got buffers)).foldl (addBuffer data) (initHeads s)

end YegaKernel.Fs.Buffer
