import YegaKernel.Fs.Ufs.Model

/-! # The cache of in-core inodes

`fs/ufs/ufs.c`: `iget`, `iput` and `create_inode_cache`. The in-core inodes are numbered in the
order in which they are allocated. As in the buffer cache, each is on two intrusive lists, through
its fields `i_hash` and `i_free`, and the heads in `i_cache` are four hash chains with the free list
behind them.

A pointer is an `Option`; the use of a NULL pointer is a fault. In `iget` the variable `inode` is
the result of `search_hash`, also on the path of an inode that is not cached. -/

namespace YegaKernel.Fs.Ufs.InodeCache

open Lib.Links Lib.Bytes Lib.Word Function
open Fs.Disk (Bytes)
open Fs.Buffer (Fault Link ListHead devNo hashFn hashHead)
open Fs.Ufs.Model

def inodes : ℕ := 30

/-- A `struct inode`, without its list heads: the part that is a `struct d_inode`, and the rest. -/
structure Inode where
  dinode : Bytes
  iState : ℕ
  iCount : ℕ

/-- **The inodes in core** and the lists in `i_cache`. -/
structure ICache where
  inode : ℕ → Inode
  links : Link → ListHead

instance : LinkStore ICache Link where
  next c n := (c.links n).next
  prev c n := (c.links n).prev
  setNext c n v := { c with links := update c.links n { c.links n with next := v } }
  setPrev c n v := { c with links := update c.links n { c.links n with prev := v } }
  apart_symm := @Ne.symm Link
  apart_irrefl := @Ne.irrefl Link

def ICache.upd (c : ICache) (i : ℕ) (f : Inode → Inode) : ICache :=
  { c with inode := update c.inode i (f (c.inode i)) }

/-- A pointer is used. -/
def deref : Option ℕ → Except Fault ℕ
  | some i => .ok i
  | none => .error .nullPointer

/-! ### Flags -/

def iFlags (dinode : Bytes) : ℕ := load dinode 32 4
def iDev (dinode : Bytes) : ℕ := load dinode 36 4

/-- `IS_FLAG(inode->i_flags, I_lock)`, where `I_lock` is `1 << 0`. -/
def isLocked (c : ICache) (i : ℕ) : Bool := iFlags (c.inode i).dinode &&& 1 = 1

/-- `IS_FLAG(inode->i_state, I_DIRTY)`, where `I_DIRTY` is `1 << 1`. -/
def isDirty (c : ICache) (i : ℕ) : Bool := (c.inode i).iState &&& 2 = 2

def setFlags (c : ICache) (i v : ℕ) : ICache :=
  c.upd i fun inode => { inode with dinode := store inode.dinode 32 4 v }

def lockedInode (c : ICache) (i : ℕ) : ICache := setFlags c i (iFlags (c.inode i).dinode ||| 1)

def unlockedInode (c : ICache) (i : ℕ) : ICache :=
  setFlags c i (iFlags (c.inode i).dinode &&& (2 ^ 32 - 1 - 1))

def setCount (c : ICache) (i v : ℕ) : ICache := c.upd i fun inode => { inode with iCount := v }

/-! ### Hash chains -/

/-- The loop of `search_hash`, at the node `run`. -/
def searchFrom (c : ICache) (head : Link) (dev inum : ℕ) : ℕ → Link → Except Fault (Option ℕ)
  | 0, _ => .error .spinning
  | fuel + 1, run =>
    if run = head then .ok none
    else match run with
      | .hashOf i =>
        if iNo (c.inode i).dinode = inum ∧ iDev (c.inode i).dinode = dev then .ok (some i)
        else searchFrom c head dev inum fuel (LinkStore.next c run)
      | _ => .error .wildPointer

def searchHash (fuel : ℕ) (c : ICache) (dev inum : ℕ) : Except Fault (Option ℕ) := do
  let head ← hashHead (← hashFn inum dev)
  searchFrom c head dev inum fuel (LinkStore.next c head)

section Functions
variable {σ : Type} (ops : BufferOps σ) (super : Option ℕ)

/-- `read_inode` of an in-core inode; `super` is the buffer that the global of that name points
into. -/
def readInode (c : ICache) (s : σ) (i : ℕ) : Except Fault (ICache × σ) := do
  let bh ← deref super
  let (dinode, s) ← getDinode ops bh s (iNo (c.inode i).dinode)
  return (c.upd i fun inode => { inode with dinode := copy inode.dinode 0 dinodeSize dinode }, s)

/-! ### Getting and putting an inode -/

/-- A hit of `iget`. -/
def takeInode (c : ICache) (i : ℕ) : ICache :=
  let c := if (c.inode i).iCount = 0 then listDel .null c (.freeOf i) else c
  lockedInode (setCount c i (u32 ((c.inode i).iCount + 1))) i

/-- The end of `iget`: an inode off the free list is used for the number, and read from the disk.
The chain it goes to is `hash_fn(dev_no, i_no)`, with the arguments in this order. -/
def loadInode (c : ICache) (s : σ) (inode : Option ℕ) (dev inum : ℕ) :
    Except Fault (Option ℕ × ICache × σ) := do
  let i ← deref inode
  let c := listDel .null c (.freeOf i)
  let c := c.upd i fun inode => { inode with dinode := store inode.dinode 100 4 inum }
  let c := listDel .null c (.hashOf i)
  let head ← hashHead (← hashFn dev (iNo (c.inode i).dinode))
  let c := listAdd c head (.hashOf i)
  let (c, s) ← readInode ops super c s i
  return (some i, lockedInode (setCount c i (u32 ((c.inode i).iCount + 1))) i, s)

/-- The loop of `iget`; the fuel bounds its rounds and the walk of a hash chain. -/
def igetLoop (walk : ℕ) : ℕ → ICache → σ → ℕ → ℕ → Except Fault (Option ℕ × ICache × σ)
  | 0, _, _, _, _ => .error .spinning
  | fuel + 1, c, s, dev, inum => do
    let inode ← searchHash walk c dev inum
    match inode with
    | some i =>
      if isLocked c i then igetLoop walk fuel c s dev inum
      else return (some i, takeInode c i, s)
    | none =>
      if listIsEmpty c Link.free then return (none, c, s)
      else loadInode ops super c s inode dev inum

/-- **`iget`**: the inode, or `none` for NULL. -/
def iget (fuel : ℕ) (c : ICache) (s : σ) (dev inum : ℕ) : Except Fault (Option ℕ × ICache × σ) :=
  igetLoop ops super fuel fuel c s dev inum

/-- **`iput`.** -/
def iput (c : ICache) (s : σ) (i : ℕ) : Except Fault (ICache × σ) := do
  let c := lockedInode c i
  let c := setCount c i (sub32 (c.inode i).iCount 1)
  let s ← if (c.inode i).iCount = 0 ∧ isDirty c i then do
      writeInode ops (← deref super) s (c.inode i).dinode
    else .ok s
  let c := listAddTail c .free (.freeOf i)
  return (unlockedInode c i, s)

/-! ### Initialisation -/

/-- The words that `inode_init` sets. -/
def inodeFields (dev inum : ℕ) : List (ℕ × ℕ × ℕ) :=
  [(100, 4, inum), (36, 4, dev), (0, 2, 0), (26, 2, 0), (2, 2, 0), (24, 2, 0), (32, 4, 0), (4, 4, 0),
    (8, 4, 0), (16, 4, 0), (12, 4, 0), (28, 4, 0)]

/-- `inode_init` of an inode that holds whatever its memory held; `i_state` stays as it is. -/
def inodeInit (c : ICache) (i dev inum : ℕ) : ICache :=
  (initListNull .null c (.hashOf i)).upd i fun inode => { inode with
    dinode := storeAll inode.dinode (inodeFields dev inum), iCount := 0 }

/-- One round of the loop over the inodes. -/
def addInode (c : ICache) (i : ℕ) : ICache :=
  let c := inodeInit c i devNo i
  let c := listAdd c (.hash (i % devNo)) (.hashOf i)
  listAdd c .free (.freeOf i)

/-- The heads in `i_cache`, all empty. -/
def initHeads (c : ICache) : ICache :=
  initListHead ((List.range devNo).foldl (fun c i => initListHead c (.hash i)) c) .free

/-- The loops of `create_inode_cache`: `got` inodes are allocated before the slab allocator fails,
or all of them. -/
def addInodes (c : ICache) (got : ℕ) : ICache :=
  (List.range (min got inodes)).foldl addInode (initHeads c)

/-- **`create_inode_cache`.** It ends with `test_icache`, which gets inode 16 and keeps it. -/
def createInodeCache (fuel : ℕ) (c : ICache) (s : σ) (got : ℕ) :
    Except Fault (Option ℕ × ICache × σ) := iget ops super fuel (addInodes c got) s devNo 16

end Functions

end YegaKernel.Fs.Ufs.InodeCache
