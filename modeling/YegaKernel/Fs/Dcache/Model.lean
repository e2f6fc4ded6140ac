import YegaKernel.Lib.Links
import YegaKernel.Lib.Word
import Mathlib.Data.BitVec

/-! # The dentry cache

`fs/ext2/dcache.c`. A dentry is named by the address of its object, and so is an inode; a pointer
that may be NULL is an `Option`. A string is the list of its characters, the bytes before the zero,
so that `strcmp` finds two strings equal if the lists are.

Every dentry has four list heads in it. `d_hash` links it into a bucket of `dentry_hashtable`,
`d_subdirs` is the head of the list of its children, and `d_child` is the node by which it is on the
list of its parent, or on the list `i_dentry` of its inode. The words at address zero can be written
like others, since the first page is mapped: `list_del` of a node that is unlinked already writes
there and goes on. The models of `buffer.c` and `ufs.c` have such a cell for their list words too; a
fault there is the use of a buffer or an inode at NULL, whose fields would be the memory from address
zero on, which is not in these models.

The objects of the slab cache that are in use are `live`; the object that `kmem_cache_alloc` gives
is an argument. A traversal that takes a node of another kind for a `d_hash`, or does not come back
to its head, is a fault. -/

namespace YegaKernel.Fs.Dcache.Model

open Lib.Links Lib.Word Function

def dentryHashSize : ℕ := 256

def dcacheUnhashed : BitVec 32 := 2#32

/-- `sizeof(dentry->d_name)`. -/
def dNameSize : ℕ := 30

/-- What a list word can point to: the buckets of `dentry_hashtable`, the list heads in the dentry
`d`, and `i_dentry` in the inode `i`. -/
inductive Link
  | null
  | bucket (i : ℕ)
  | hashOf (d : ℕ)
  | childOf (d : ℕ)
  | subdirsOf (d : ℕ)
  | lruOf (d : ℕ)
  | dentryOf (i : ℕ)
  deriving DecidableEq, Repr

/-- A `struct list_head`. -/
structure ListHead where
  next : Link
  prev : Link
  deriving DecidableEq, Repr

/-- A `struct dentry`, without its list heads. -/
structure Dentry where
  dCount : ℕ
  dFlags : BitVec 32
  dInode : Option ℕ
  dParent : ℕ
  dName : List UInt8
  deriving DecidableEq

/-- **The dentry cache**: the dentries, all list heads, and the objects in use. -/
structure DentryCache where
  dentries : ℕ → Dentry
  links : Link → ListHead
  live : List ℕ

inductive Fault
  | wildPointer
  | spinning
  deriving DecidableEq, Repr

instance : LinkStore DentryCache Link where
  next s n := (s.links n).next
  prev s n := (s.links n).prev
  setNext s n v := { s with links := update s.links n { s.links n with next := v } }
  setPrev s n v := { s with links := update s.links n { s.links n with prev := v } }

/-- A dentry is written to. -/
def DentryCache.upd (s : DentryCache) (d : ℕ) (f : Dentry → Dentry) : DentryCache :=
  { s with dentries := update s.dentries d (f (s.dentries d)) }

/-! ### The code -/

/-- A `char`, which is signed, as an operand of `unsigned int` arithmetic. -/
def charWord (c : UInt8) : ℕ := if c < 128 then c.toNat else 2 ^ 32 - 256 + c.toNat

def dHash (parent : Option ℕ) (name : List UInt8) : ℕ :=
  let hash := name.foldl (fun hash c => u32 (hash * 31 + charWord c)) 0
  let hash := match parent with
    | some p => hash ^^^ p
    | none => hash
  hash % dentryHashSize

/-- `dcache_init`; `created` says whether `kmem_cache_create` succeeds. -/
def dcacheInit (created : Bool) (s : DentryCache) : DentryCache :=
  if created then
    (List.range dentryHashSize).foldl (fun s i => initListHead s (.bucket i)) { s with live := [] }
  else s

/-- The fields that `d_alloc` gives to a new dentry; `strncpy` leaves room for the zero. -/
def newDentry (d : ℕ) (parent : Option ℕ) (name : Option (List UInt8)) : Dentry where
  dCount := 1
  dFlags := 0
  dInode := none
  dParent := parent.getD d
  dName := (name.getD []).take (dNameSize - 1)

/-- A new dentry before it is linked to its parent. -/
def initDentry (s : DentryCache) (d : ℕ) (parent : Option ℕ) (name : Option (List UInt8)) :
    DentryCache :=
  let s := { s with live := d :: s.live }
  let s := s.upd d fun _ => newDentry d parent name
  let s := initListHead s (.lruOf d)
  let s := initListHead s (.childOf d)
  let s := initListHead s (.subdirsOf d)
  initListHead s (.hashOf d)

/-- `d_alloc`; `obj` is what `kmem_cache_alloc` gives. -/
def dAlloc (s : DentryCache) (obj : Option ℕ) (parent : Option ℕ) (name : Option (List UInt8)) :
    Option ℕ × DentryCache :=
  match obj with
  | none => (none, s)
  | some d =>
    let s := initDentry s d parent name
    let s := match parent with
      | some p => if p ≠ d then listAdd s (.subdirsOf p) (.childOf d) else s
      | none => s
    (some d, s)

def dInstantiate (s : DentryCache) (dentry inode : Option ℕ) : DentryCache :=
  match dentry, inode with
  | some d, some i =>
    listAdd (s.upd d fun e => { e with dInode := some i }) (.dentryOf i) (.childOf d)
  | _, _ => s

/-- `d_alloc_root`; the name is `"/"`. -/
def dAllocRoot (s : DentryCache) (obj rootInode : Option ℕ) : Option ℕ × DentryCache :=
  match rootInode with
  | none => (none, s)
  | some i =>
    match dAlloc s obj none (some [47]) with
    | (some d, s) =>
      (some d, listAdd (s.upd d fun e => { e with dInode := some i }) (.dentryOf i) (.childOf d))
    | (none, s) => (none, s)

/-- The loop of `d_lookup`, at the node `tmp`. -/
def lookupFrom (s : DentryCache) (head : Link) (parent : ℕ) (name : List UInt8) :
    ℕ → Link → Except Fault (Option ℕ)
  | 0, _ => .error .spinning
  | fuel + 1, tmp =>
    if tmp = head then .ok none
    else match tmp with
      | .hashOf d =>
        if (s.dentries d).dParent = parent ∧ (s.dentries d).dName = name then .ok (some d)
        else lookupFrom s head parent name fuel (LinkStore.next s tmp)
      | _ => .error .wildPointer

/-- `dentry->d_count++`. -/
def countUp (s : DentryCache) (d : ℕ) : DentryCache :=
  s.upd d fun e => { e with dCount := u32 (e.dCount + 1) }

/-- `d_lookup`; the fuel bounds the traversal of the bucket. -/
def dLookup (fuel : ℕ) (s : DentryCache) (parent : Option ℕ) (name : Option (List UInt8)) :
    Except Fault (Option ℕ × DentryCache) :=
  match parent, name with
  | some p, some n => do
    let head := Link.bucket (dHash (some p) n)
    match ← lookupFrom s head p n fuel (LinkStore.next s head) with
    | some d => return (some d, countUp s d)
    | none => return (none, s)
  | _, _ => .ok (none, s)

/-- The bucket of a dentry. -/
def bucketOf (s : DentryCache) (d : ℕ) : ℕ :=
  dHash (some (s.dentries d).dParent) (s.dentries d).dName

/-- The end of `d_add` and of `d_rehash`: the dentry goes to the front of its bucket. -/
def enterHash (s : DentryCache) (d : ℕ) : DentryCache :=
  let s := listAdd s (.bucket (bucketOf s d)) (.hashOf d)
  s.upd d fun e => { e with dFlags := e.dFlags &&& ~~~dcacheUnhashed }

def dAdd (s : DentryCache) (dentry inode : Option ℕ) : DentryCache :=
  match dentry with
  | none => s
  | some d =>
    let s := if inode.isSome then dInstantiate s (some d) inode else s
    enterHash s d

/-- `dentry->d_flags & DCACHE_UNHASHED`. -/
def Unhashed (s : DentryCache) (d : ℕ) : Prop := (s.dentries d).dFlags &&& dcacheUnhashed ≠ 0

instance (s : DentryCache) (d : ℕ) : Decidable (Unhashed s d) :=
  inferInstanceAs (Decidable (_ ≠ _))

def dUnhashed (s : DentryCache) (dentry : Option ℕ) : Bool :=
  match dentry with
  | none => false
  | some d => Unhashed s d

def dDelete (s : DentryCache) (dentry : Option ℕ) : DentryCache :=
  match dentry with
  | none => s
  | some d =>
    if ¬ Unhashed s d then
      (listDel .null s (.hashOf d)).upd d fun e => { e with dFlags := e.dFlags ||| dcacheUnhashed }
    else s

def dput (s : DentryCache) (dentry : Option ℕ) : DentryCache :=
  match dentry with
  | none => s
  | some d =>
    let s := s.upd d fun e => { e with dCount := sub32 e.dCount 1 }
    if (s.dentries d).dCount = 0 then
      let s := if (s.dentries d).dParent ≠ d then listDel .null s (.childOf d) else s
      let s := dDelete s (some d)
      -- `kmem_cache_free`
      { s with live := s.live.erase d }
    else s

def dget (s : DentryCache) (dentry : Option ℕ) : Option ℕ × DentryCache :=
  match dentry with
  | none => (none, s)
  | some d => (some d, countUp s d)

def dRehash (s : DentryCache) (dentry : Option ℕ) : DentryCache :=
  match dentry with
  | none => s
  | some d => if ¬ dUnhashed s (some d) then s else enterHash s d

def dMove (s : DentryCache) (dentry target : Option ℕ) : DentryCache :=
  match dentry, target with
  | some d, some t =>
    let s := dDelete s (some d)
    let s := s.upd d fun e => { e with dParent := (s.dentries t).dParent }
    dAdd s (some d) (s.dentries d).dInode
  | _, _ => s

/-! ### What the parts leave alone -/

section Frames
variable (s : DentryCache) (d : ℕ) (f : Dentry → Dentry)

@[simp] theorem upd_live : (s.upd d f).live = s.live := rfl

@[simp] theorem upd_self : (s.upd d f).dentries d = f (s.dentries d) := update_self ..

theorem upd_of_ne {e : ℕ} (h : e ≠ d) : (s.upd d f).dentries e = s.dentries e :=
  update_of_ne h ..

theorem sameLinks_upd (n : Link) : SameLinks s (s.upd d f) n := ⟨rfl, rfl⟩

@[simp] theorem listAdd_dentries (h n : Link) : (listAdd s h n).dentries = s.dentries := rfl

@[simp] theorem listDel_dentries (n : Link) : (listDel Link.null s n).dentries = s.dentries := rfl

end Frames

section NewDentry
variable (s : DentryCache) (d : ℕ) (parent : Option ℕ) (name : Option (List UInt8))

theorem dAlloc_dentries : (dAlloc s (some d) parent name).2.dentries =
    update s.dentries d (newDentry d parent name) := by
  cases parent with
  | none => rfl
  | some p =>
    rw [dAlloc]
    split <;> rfl

@[simp] theorem dAlloc_self :
    (dAlloc s (some d) parent name).2.dentries d = newDentry d parent name := by
  rw [dAlloc_dentries, update_self]

theorem dAlloc_of_ne {e : ℕ} (h : e ≠ d) :
    (dAlloc s (some d) parent name).2.dentries e = s.dentries e := by
  rw [dAlloc_dentries, update_of_ne h]

@[simp] theorem dAlloc_live : (dAlloc s (some d) parent name).2.live = d :: s.live := by
  cases parent with
  | none => rfl
  | some p =>
    rw [dAlloc]
    split <;> rfl

end NewDentry

@[simp] theorem dDelete_live (s : DentryCache) (dentry : Option ℕ) :
    (dDelete s dentry).live = s.live := by
  cases dentry with
  | none => rfl
  | some d =>
    rw [dDelete]
    split <;> rfl

@[simp] theorem enterHash_live (s : DentryCache) (d : ℕ) : (enterHash s d).live = s.live := rfl

@[simp] theorem dInstantiate_live (s : DentryCache) (dentry inode : Option ℕ) :
    (dInstantiate s dentry inode).live = s.live := by
  cases dentry <;> cases inode <;> rfl

@[simp] theorem dAdd_live (s : DentryCache) (dentry inode : Option ℕ) :
    (dAdd s dentry inode).live = s.live := by
  cases dentry with
  | none => rfl
  | some d =>
    rw [dAdd]
    split <;> simp

@[simp] theorem dRehash_live (s : DentryCache) (dentry : Option ℕ) :
    (dRehash s dentry).live = s.live := by
  cases dentry with
  | none => rfl
  | some d =>
    rw [dRehash]
    split <;> rfl

theorem dInstantiate_self (s : DentryCache) (d i : ℕ) :
    (dInstantiate s (some d) (some i)).dentries d = { s.dentries d with dInode := some i } :=
  update_self ..

theorem dInstantiate_of_ne (s : DentryCache) {d e : ℕ} (i : ℕ) (h : e ≠ d) :
    (dInstantiate s (some d) (some i)).dentries e = s.dentries e :=
  update_of_ne h ..

/-! Entering the hash table and leaving it change the flags of a dentry only. -/

theorem enterHash_dentries (s : DentryCache) (d e : ℕ) :
    ∃ f, (enterHash s d).dentries e = { s.dentries e with dFlags := f } := by
  rw [enterHash]
  by_cases hed : e = d
  · subst hed
    rw [upd_self]
    exact ⟨_, rfl⟩
  · rw [upd_of_ne _ _ _ hed]
    exact ⟨_, rfl⟩

theorem dDelete_dentries (s : DentryCache) (d e : ℕ) :
    ∃ f, (dDelete s (some d)).dentries e = { s.dentries e with dFlags := f } := by
  rw [dDelete]
  split
  · by_cases hed : e = d
    · subst hed
      rw [upd_self]
      exact ⟨_, rfl⟩
    · rw [upd_of_ne _ _ _ hed]
      exact ⟨_, rfl⟩
  · exact ⟨_, rfl⟩

theorem dDelete_of_ne (s : DentryCache) {d e : ℕ} (h : e ≠ d) :
    (dDelete s (some d)).dentries e = s.dentries e := by
  rw [dDelete]
  split
  · exact upd_of_ne _ _ _ h
  · rfl

/-! ### The parts of `dput` -/

/-- What `dput` does to the lists before it calls `d_delete`. -/
def unlinkChild (s : DentryCache) (d : ℕ) : DentryCache :=
  if (s.dentries d).dParent ≠ d then listDel .null s (.childOf d) else s

theorem unlinkChild_dentries (s : DentryCache) (d : ℕ) :
    (unlinkChild s d).dentries = s.dentries := by
  rw [unlinkChild]
  split <;> rfl

theorem unlinkChild_live (s : DentryCache) (d : ℕ) : (unlinkChild s d).live = s.live := by
  rw [unlinkChild]
  split <;> rfl

/-- The end of `dput`, when the count is zero. -/
def discard (s : DentryCache) (d : ℕ) : DentryCache :=
  let s := dDelete (unlinkChild s d) (some d)
  { s with live := s.live.erase d }

theorem dput_of_zero {s : DentryCache} {d : ℕ} (hzero : sub32 (s.dentries d).dCount 1 = 0) :
    dput s (some d) = discard (s.upd d fun e => { e with dCount := sub32 e.dCount 1 }) d := by
  rw [dput, if_pos (by rw [upd_self]; exact hzero)]
  rfl

theorem dput_of_ne_zero {s : DentryCache} {d : ℕ} (hne : sub32 (s.dentries d).dCount 1 ≠ 0) :
    dput s (some d) = s.upd d fun e => { e with dCount := sub32 e.dCount 1 } := by
  rw [dput, if_neg (by rw [upd_self]; exact hne)]

theorem discard_dentries (s : DentryCache) (d e : ℕ) :
    ∃ f, (discard s d).dentries e = { s.dentries e with dFlags := f } := by
  rw [← unlinkChild_dentries s d]
  exact dDelete_dentries _ d e

theorem discard_live (s : DentryCache) (d : ℕ) : (discard s d).live = s.live.erase d := by
  rw [← unlinkChild_live s d, ← dDelete_live (unlinkChild s d) (some d)]
  rfl

theorem dput_of_ne (s : DentryCache) {d e : ℕ} (h : e ≠ d) :
    (dput s (some d)).dentries e = s.dentries e := by
  by_cases hzero : sub32 (s.dentries d).dCount 1 = 0
  · rw [dput_of_zero hzero]
    refine (dDelete_of_ne _ h).trans ?_
    rw [unlinkChild_dentries, upd_of_ne _ _ _ h]
  · rw [dput_of_ne_zero hzero, upd_of_ne _ _ _ h]

theorem dput_dCount (s : DentryCache) (d : ℕ) :
    ((dput s (some d)).dentries d).dCount = sub32 (s.dentries d).dCount 1 := by
  by_cases hzero : sub32 (s.dentries d).dCount 1 = 0
  · rw [dput_of_zero hzero]
    obtain ⟨f, hf⟩ := discard_dentries (s.upd d fun e => { e with dCount := sub32 e.dCount 1 }) d d
    rw [hf, upd_self]
  · rw [dput_of_ne_zero hzero, upd_self]

theorem dput_live (s : DentryCache) (d : ℕ) : (dput s (some d)).live =
    if sub32 (s.dentries d).dCount 1 = 0 then s.live.erase d else s.live := by
  by_cases hzero : sub32 (s.dentries d).dCount 1 = 0
  · rw [dput_of_zero hzero, discard_live, if_pos hzero, upd_live]
  · rw [dput_of_ne_zero hzero, if_neg hzero, upd_live]

theorem apart_of_ne (a b : Link) (h : a ≠ b) : LinkStore.Apart DentryCache a b := h

end YegaKernel.Fs.Dcache.Model
