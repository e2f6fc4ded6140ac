import YegaKernel.Lib.Strings
import YegaKernel.Fs.Dcache.Model

/-! # Path lookup

`fs/ext2/namei.c`, and `ext2_lookup` of `ext2_dir.c`, which the walk calls through `i_op->lookup`.

Two services come from outside. `alloc` is `kmem_cache_alloc`: the object it gives when the objects
in use are `live` (a walk never allocates twice with the same objects in use). `search` is the part
of `ext2_lookup` that reads the directory and gets the inode by `iget`; it may change the rest `ω`
of the kernel. It gives the inode and whether it is a directory, or nothing, for a name that is not
there and for an `iget` that fails. -/

namespace YegaKernel.Fs.Dcache.Namei

open Lib.Strings Fs.Dcache.Model

/-! ### Components -/

/-- `'.'`. -/
def dot : UInt8 := 46

def skipSlashes : List UInt8 → List UInt8
  | [] => []
  | c :: path => if c = slash then skipSlashes path else c :: path

/-- The copying loop of `get_component`, with room for so many characters. -/
def copyComponent : ℕ → List UInt8 → List UInt8 × List UInt8
  | 0, path => ([], path)
  | _ + 1, [] => ([], [])
  | room + 1, c :: path =>
    if c = slash then ([], c :: path)
    else (c :: (copyComponent room path).1, (copyComponent room path).2)

/-- `get_component`: the component and the rest of the path. A component that is too long is cut
off, and the rest of it is the next one. -/
def getComponent (path : List UInt8) (maxLen : ℕ) : List UInt8 × List UInt8 :=
  copyComponent (maxLen - 1) (skipSlashes path)

theorem length_skipSlashes (path : List UInt8) : (skipSlashes path).length ≤ path.length := by
  induction path with
  | nil => exact le_rfl
  | cons c path ih =>
    rw [skipSlashes]
    split
    · exact ih.trans (Nat.le_succ _)
    · exact le_rfl

theorem length_copyComponent (room : ℕ) (path : List UInt8) :
    (copyComponent room path).1.length + (copyComponent room path).2.length = path.length := by
  induction room generalizing path with
  | zero => simp [copyComponent]
  | succ room ih =>
    cases path with
    | nil => rfl
    | cons c path =>
      rw [copyComponent]
      split
      · simp
      · have := ih path
        simp only [List.length_cons]
        omega

theorem length_getComponent (path : List UInt8) (maxLen : ℕ) :
    (getComponent path maxLen).1.length + (getComponent path maxLen).2.length ≤ path.length :=
  (length_copyComponent _ _).trans_le (length_skipSlashes path)

/-- The components that the loop of `link_path_walk` takes off the path one after the other. -/
def components (path : List UInt8) : List (List UInt8) :=
  if _ : (getComponent path 64).1 = [] then []
  else (getComponent path 64).1 :: components (getComponent path 64).2
termination_by path.length
decreasing_by
  have hlen := length_getComponent path 64
  have hpos := List.length_pos_iff.mpr ‹(getComponent path 64).1 ≠ []›
  omega

/-! ### The walk -/

/-- The dentry cache, which inodes have a `lookup` operation, and the rest of the kernel. -/
structure Vfs (ω : Type) where
  cache : DentryCache
  lookupOp : ℕ → Bool
  rest : ω

/-- **What the walk calls**: objects are not given twice, and the inodes are those in core. -/
structure Services (inodes : Set ℕ) (ω : Type) where
  alloc : List ℕ → Option ℕ
  search : ω → ℕ → List UInt8 → Option (ℕ × Bool) × ω
  fresh : ∀ live d, alloc live = some d → d ∉ live
  incore : ∀ w dir name i isDir, (search w dir name).1 = some (i, isDir) → i ∈ inodes

variable {inodes : Set ℕ} {ω : Type}

/-- `ext2_lookup`: the inode found gets the operations of a directory or of a file, of which only
those of a directory have a `lookup`. -/
def ext2Lookup (sv : Services inodes ω) (v : Vfs ω) (dir dentry : ℕ) : Option ℕ × Vfs ω :=
  match sv.search v.rest dir (v.cache.dentries dentry).dName with
  | (some (i, isDir), rest) =>
    (some dentry, ⟨dInstantiate v.cache (some dentry) (some i), Function.update v.lookupOp i isDir, rest⟩)
  | (none, rest) => (none, { v with rest := rest })

/-- The part of `do_lookup` behind the dentry cache: a new dentry, filled in by the file system. -/
def lookupNew (sv : Services inodes ω) (v : Vfs ω) (parent dir : ℕ) (name : List UInt8) :
    Option ℕ × Vfs ω :=
  match dAlloc v.cache (sv.alloc v.cache.live) (some parent) (some name) with
  | (none, cache) => (none, { v with cache := cache })
  | (some d, cache) =>
    let v := { v with cache := cache }
    if v.lookupOp dir then
      match ext2Lookup sv v dir d with
      | (some result, v) => (some result, v)
      | (none, v) => (none, { v with cache := dput v.cache (some d) })
    else (none, { v with cache := dput v.cache (some d) })

def doLookup (sv : Services inodes ω) (fuel : ℕ) (v : Vfs ω) (parent : ℕ) (name : List UInt8) :
    Except Fault (Option ℕ × Vfs ω) :=
  if name = [] then .ok (none, v)
  else match (v.cache.dentries parent).dInode with
    | none => .ok (none, v)
    | some dir => do
      match ← dLookup fuel v.cache (some parent) (some name) with
      | (some d, cache) => return (some d, { v with cache := cache })
      | (none, cache) => return lookupNew sv { v with cache := cache } parent dir name

/-- The dentry behind `".."`. -/
def dotDot (s : DentryCache) (d : ℕ) : ℕ :=
  if (s.dentries d).dParent ≠ d then (s.dentries d).dParent else d

/-- The loop of `link_path_walk`; `none` where a component is not found. -/
def walkComponents (sv : Services inodes ω) (fuel : ℕ) :
    Vfs ω → ℕ → List (List UInt8) → Except Fault (Option ℕ × Vfs ω)
  | v, dentry, [] => .ok (some dentry, v)
  | v, dentry, component :: rest =>
    if component = [dot] then walkComponents sv fuel v dentry rest
    else if component = [dot, dot] then walkComponents sv fuel v (dotDot v.cache dentry) rest
    else do
      match ← doLookup sv fuel v dentry component with
      | (some d, v) => walkComponents sv fuel v d rest
      | (none, v) => return (none, v)

/-- A `struct nameidata`. -/
structure NameIdata where
  dentry : Option ℕ
  flags : ℕ
  lastType : ℕ
  lastName : Option (List UInt8)

def linkPathWalk (sv : Services inodes ω) (fuel : ℕ) (v : Vfs ω) (path : Option (List UInt8))
    (nd : NameIdata) : Except Fault (ℤ × NameIdata × Vfs ω) :=
  match path, nd.dentry with
  | some path, some dentry => do
    match ← walkComponents sv fuel v dentry (components (skipSlashes path)) with
    | (some d, v) => return (0, { nd with dentry := some d }, v)
    | (none, v) => return (-1, nd, v)
  | _, _ => .ok (-1, nd, v)

/-- The loop of `path_lookup` that walks up to the root. -/
def toRoot (s : DentryCache) : ℕ → ℕ → Except Fault ℕ
  | 0, _ => .error .spinning
  | fuel + 1, d =>
    if (s.dentries d).dParent ≠ d then toRoot s fuel (s.dentries d).dParent else .ok d

/-- Where the walk of a path starts: an absolute one at the root. -/
def startFrom (s : DentryCache) (fuel : ℕ) (path : List UInt8) (d : ℕ) : Except Fault ℕ :=
  if path.head? = some slash then toRoot s fuel d else .ok d

def pathLookup (sv : Services inodes ω) (fuel : ℕ) (v : Vfs ω) (path : Option (List UInt8))
    (flags : ℕ) (nd : NameIdata) : Except Fault (ℤ × NameIdata × Vfs ω) :=
  match path with
  | none => .ok (-1, nd, v)
  | some p =>
    let nd := { nd with flags := flags, lastType := 0, lastName := none }
    match nd.dentry with
    | none => .ok (-1, nd, v)
    | some d => do
      let start ← startFrom v.cache fuel p d
      linkPathWalk sv fuel v (some p) { nd with dentry := some start }

def pathRelease (v : Vfs ω) (nd : NameIdata) : NameIdata × Vfs ω :=
  match nd.dentry with
  | some d => ({ nd with dentry := none }, { v with cache := dput v.cache (some d) })
  | none => (nd, v)

end YegaKernel.Fs.Dcache.Namei
