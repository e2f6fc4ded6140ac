import YegaKernel.Lib.Parts
import YegaKernel.Fs.Ufs.SearchDir

/-! # Paths of UFS

`namei` of `ufs.c` with `next_token`. The inode behind an inode number is the one on the disk, which
`iget` returns and `iput` gives back; which inodes are got and put is kept in two lists.

`next_token` is called where a slash is, and returns the index before it: the token that is looked for
is empty, and the loop comes back to the same slash. Where no slash is, `end` is not assigned; what is
in it then is a parameter, one value for each round. So no component of a path is ever looked for.

* `nameiLoop_slash`, `nameiLoop_spins` : what a round does at a slash, and how it may go on elsewhere;
* `resolves_iff` : the paths that `namei` resolves. -/

namespace YegaKernel.Fs.Ufs.Namei

open Lib.Bytes Lib.Strings Lib.Parts
open Fs.Disk (Bytes)
open Fs.Buffer (Fault)
open Fs.Ufs.SearchDir

/-! ### The code -/

/-- The inodes by their numbers, and the blocks. -/
structure Tree where
  dinode : ℕ → Bytes
  disk : ℕ → Bytes

/-- The two directories of `current`. -/
structure Task where
  root : ℕ
  pwd : ℕ

/-- The inodes that were got with `iget` and put with `iput`. -/
structure Refs where
  got : List ℕ
  put : List ℕ

/-- `iput(work); work = iget(DEV_NO, inode)`. -/
def Refs.change (refs : Refs) (work inode : ℕ) : Refs := ⟨inode :: refs.got, work :: refs.put⟩

/-- A `size_t` as an `int`. -/
def intOf (n : ℕ) : ℤ := if n % 2 ^ 32 < 2 ^ 31 then n % 2 ^ 32 else n % 2 ^ 32 - 2 ^ 32

/-- The loop of `next_token`. -/
def tokenEnd (str : List UInt8) (len stop : ℕ) : ℕ :=
  if stop < len ∧ str.getD stop 0 ≠ slash then tokenEnd str len (stop + 1) else stop
termination_by len - stop

def nextToken (str : List UInt8) (start len : ℕ) : ℤ := tokenEnd str len start - 1

/-- `search_dir(work, token, …)`. -/
def searchIn (fuel : ℕ) (tree : Tree) (work : ℕ) (token : List UInt8) : Except Fault ℕ :=
  (searchDir blockOps fuel (tree.dinode work) (chars token) token.length ⟨tree.disk, [], []⟩).map
    Prod.fst

section Code
variable (tree : Tree) (path : List UInt8) (len : ℤ) (junk : ℕ → Int32) (walk : ℕ)

/-- The loop of `namei`; `junk` is what `end` has in it in each round before it is assigned. -/
def nameiLoop : ℕ → ℕ → ℤ → ℕ → ℕ → Refs → Except Fault (Option ℕ × Refs)
  | 0, _, _, _, _, _ => .error .spinning
  | fuel + 1, round, index, inode, work, refs =>
    if index < len then
      -- a read in front of the string
      if index < 0 then .error .wildPointer
      else if path.getD index.toNat 0 = slash then do
        let stop := nextToken path index.toNat len.toNat
        let token := (path.drop index.toNat).take (stop - index + 1).toNat
        let inode ← searchIn walk tree work token
        if inode = minusOne then return (none, refs)
        else nameiLoop fuel (round + 1) (stop + 1) inode inode (refs.change work inode)
      else
        nameiLoop fuel (round + 1) ((junk round).toInt + 1) inode inode (refs.change work inode)
    else .ok (some work, refs)

end Code

/-- Where the walk along a path starts. -/
def start (task : Task) (path : List UInt8) : ℕ := if path.getD 0 0 = slash then task.root else task.pwd

/-- **`namei`**: the inode, or NULL, and the inodes that were got and put. The length is an `int`. -/
def namei (tree : Tree) (task : Task) (junk : ℕ → Int32) (fuel : ℕ) (path : List UInt8) :
    Except Fault (Option ℕ × Refs) :=
  if intOf path.length ≤ 0 then .ok (none, ⟨[], []⟩)
  else nameiLoop tree path (intOf path.length) junk fuel fuel 0
    (if path.getD 0 0 = slash then 1 else 0) 0 (start task path) ⟨[], []⟩

/-! ### What it ought to do -/

/-- What `search_dir` returns. -/
def search (tree : Tree) (dir : ℕ) (name : List UInt8) : ℕ :=
  match firstSlot (tree.disk (iBlocks (tree.dinode dir) 0)) name with
  | some k => load (tree.disk (iBlocks (tree.dinode dir) 0)) (20 * k) 4
  | none => minusOne

/-- The searches and `iget`s for the components one after the other. -/
def resolve (tree : Tree) : ℕ → List (List UInt8) → Option ℕ
  | dir, [] => some dir
  | dir, c :: cs => if search tree dir c = minusOne then none else resolve tree (search tree dir c) cs

/-- **The path is resolved**, whatever `end` has in it: `namei` ends, returns the inode at the end of
the components, or NULL if one of them is not found, and has put all others that it got. -/
def Resolves (tree : Tree) (task : Task) (path : List UInt8) : Prop :=
  ∀ junk, ∃ r refs, (∃ n, ∀ fuel ≥ n, namei tree task junk fuel path = .ok (r, refs)) ∧
    r = resolve tree (start task path) (parts slash path) ∧
    ∀ i, refs.got.count i ≤ refs.put.count i + if r = some i then 1 else 0

/-- **The condition on the path and the tree.** The path is `/`; or it begins with two slashes, the
first word of the root is -1, and a component is not found; or it is so long that its length is
negative, and a component is not found. -/
inductive Suits (tree : Tree) (task : Task) (path : List UInt8) : Prop
  | root (hpath : path = [slash])
  | slashes (hpath : [slash, slash] <+: path) (hword : search tree task.root [] = minusOne)
      (hnone : resolve tree (start task path) (parts slash path) = none)
  | long (hlong : 2 ^ 31 ≤ path.length)
      (hnone : resolve tree (start task path) (parts slash path) = none)

/-! ### Rounds -/

section Rounds
variable {tree : Tree} {path : List UInt8} {len : ℤ} {junk : ℕ → Int32} {walk index : ℕ}

/-- `search` is what `search_dir` returns; a size is less than `2 ^ 32`, so that it reads at most `2 ^ 22`
blocks. -/
theorem searchIn_eq {name : List UInt8} (hname : 0 ∉ name) (hwalk : 2 ^ 22 < walk) (dir : ℕ) :
    searchIn walk tree dir name = .ok (search tree dir name) := by
  have hsize : iSize (tree.dinode dir) < 2 ^ 32 := load_lt _ _ 4
  have hfuel : iSize (tree.dinode dir) / uBlkSize + 1 < walk := by
    rw [uBlkSize]
    omega
  rw [searchIn, searchDir_eq hname rfl hfuel, search]
  rcases firstSlot (tree.disk (iBlocks (tree.dinode dir) 0)) name with _ | k <;> rfl

theorem nextToken_of_slash (hchar : path.getD index 0 = slash) :
    nextToken path index len.toNat = index - 1 := by
  rw [nextToken, tokenEnd, if_neg fun h => h.2 hchar]

section
variable (hindex : (index : ℤ) < len)
include hindex

/-- **A round at a slash** looks for the empty name, and comes back to the slash. -/
theorem nameiLoop_slash (hchar : path.getD index 0 = slash)
    (hwalk : 2 ^ 22 < walk) (fuel round inode work : ℕ) (refs : Refs) :
    nameiLoop tree path len junk walk (fuel + 1) round index inode work refs =
      if search tree work [] = minusOne then .ok (none, refs)
      else nameiLoop tree path len junk walk fuel (round + 1) index (search tree work [])
        (search tree work []) (refs.change work (search tree work [])) := by
  have hempty : ((index : ℤ) - 1 - index + 1).toNat = 0 := by omega
  have hback : (index : ℤ) - 1 + 1 = index := by omega
  rw [nameiLoop, if_pos hindex, if_neg (by omega), Int.toNat_natCast, if_pos hchar]
  simp only [nextToken_of_slash hchar, hempty, List.take_zero, hback]
  rw [searchIn_eq (by simp) hwalk]
  rfl

/-- **Elsewhere** the loop need not come to an end: `end` may be the index before. -/
theorem nameiLoop_spins (hchar : path.getD index 0 ≠ slash)
    (hjunk : ∀ round, (junk round).toInt + 1 = index) (fuel round inode work : ℕ) (refs : Refs) :
    nameiLoop tree path len junk walk fuel round index inode work refs = .error .spinning := by
  induction fuel generalizing round inode work refs with
  | zero => rfl
  | succ fuel ih =>
    rw [nameiLoop, if_pos hindex, if_neg (by omega), Int.toNat_natCast, if_neg hchar, hjunk]
    exact ih _ _ _ _

theorem nameiLoop_leaks (hchar : path.getD index 0 = slash)
    (hwalk : 2 ^ 22 < walk) {fuel round inode work : ℕ} {refs refs' : Refs} {r : Option ℕ}
    (hwork : work ∈ refs.got) (hput : ∀ x ∈ refs.put, search tree x [] ≠ minusOne)
    (hrun : nameiLoop tree path len junk walk fuel round index inode work refs = .ok (r, refs')) :
    r = none ∧ ∃ i ∈ refs'.got, i ∉ refs'.put := by
  induction fuel generalizing round inode work refs with
  | zero => exact absurd hrun (by simp [nameiLoop])
  | succ fuel ih =>
    rw [nameiLoop_slash hindex hchar hwalk] at hrun
    by_cases hword : search tree work [] = minusOne
    · rw [if_pos hword] at hrun
      obtain ⟨rfl, rfl⟩ := Prod.mk.inj (Except.ok.inj hrun)
      exact ⟨rfl, work, hwork, fun hmem => hput work hmem hword⟩
    · rw [if_neg hword] at hrun
      refine ih List.mem_cons_self (fun x hx => ?_) hrun
      rcases List.mem_cons.mp hx with rfl | hx
      · exact hword
      · exact hput x hx

end

end Rounds

/-! ### The paths that are resolved -/

section Resolves
variable {tree : Tree} {task : Task} {path : List UInt8}

theorem intOf_of_lt {n : ℕ} (hlt : n < 2 ^ 31) : intOf n = n := by
  rw [intOf, if_pos (by omega)]
  omega

theorem intOf_neg {n : ℕ} (hlong : 2 ^ 31 ≤ n) (hlt : n < 2 ^ 32) : intOf n < 0 := by
  rw [intOf, if_neg (by omega)]
  omega

theorem resolves_of_run {r : Option ℕ} (hrun : ∀ junk, ∀ fuel > 2 ^ 22,
      namei tree task junk fuel path = .ok (r, ⟨[], []⟩))
    (hr : r = resolve tree (start task path) (parts slash path)) : Resolves tree task path := by
  intro junk
  refine ⟨r, ⟨[], []⟩, ⟨2 ^ 22 + 1, fun fuel hfuel => hrun junk fuel (by omega)⟩, hr, fun i => ?_⟩
  exact Nat.zero_le _

theorem namei_long (hlong : 2 ^ 31 ≤ path.length) (hlt : path.length < 2 ^ 32) (junk : ℕ → Int32)
    (fuel : ℕ) : namei tree task junk fuel path = .ok (none, ⟨[], []⟩) := by
  rw [namei, if_pos (intOf_neg hlong hlt).le]

variable {rest : List UInt8} {c : UInt8}

theorem namei_slash (hlt : (slash :: rest).length < 2 ^ 31) (junk : ℕ → Int32)
    (fuel : ℕ) : namei tree task junk fuel (slash :: rest) = nameiLoop tree (slash :: rest)
      (slash :: rest).length junk fuel fuel 0 (1 : ℕ) 0 task.root ⟨[], []⟩ := by
  rw [namei, intOf_of_lt hlt, if_neg (by simp only [List.length_cons]; omega)]
  rfl

theorem namei_char (hc : c ≠ slash) (hlt : (c :: rest).length < 2 ^ 31)
    (junk : ℕ → Int32) (fuel : ℕ) : namei tree task junk fuel (c :: rest) = nameiLoop tree (c :: rest)
      (c :: rest).length junk fuel fuel 0 (0 : ℕ) 0 task.pwd ⟨[], []⟩ := by
  have hhead : (c :: rest).getD 0 0 ≠ slash := hc
  rw [namei, intOf_of_lt hlt, if_neg (by simp only [List.length_cons]; omega), start, if_neg hhead,
    if_neg hhead]
  rfl

theorem not_resolves_of_char {index dir : ℕ} (hindex : index < path.length)
    (hchar : path.getD index 0 ≠ slash) {junk : ℕ → Int32}
    (hjunk : ∀ round, (junk round).toInt + 1 = index)
    (hrun : ∀ fuel, namei tree task junk fuel path = nameiLoop tree path path.length junk fuel fuel 0
      index 0 dir ⟨[], []⟩) : ¬ Resolves tree task path := by
  intro h
  obtain ⟨r, refs, ⟨n, hn⟩, -, -⟩ := h junk
  have hspin := hn n le_rfl
  rw [hrun, nameiLoop_spins (by omega) hchar hjunk] at hspin
  exact absurd hspin (by simp)

theorem not_resolves_relative (hc : c ≠ slash)
    (hlt : (c :: rest).length < 2 ^ 31) : ¬ Resolves tree task (c :: rest) :=
  not_resolves_of_char (Nat.succ_pos _) hc (fun _ => rfl) (namei_char hc hlt fun _ => -1)

theorem not_resolves_absolute (hc : c ≠ slash)
    (hlt : (slash :: c :: rest).length < 2 ^ 31) : ¬ Resolves tree task (slash :: c :: rest) :=
  not_resolves_of_char (Nat.succ_lt_succ (Nat.succ_pos _)) hc (fun _ => rfl)
    (namei_slash hlt fun _ => 0)

theorem resolves_root : Resolves tree task [slash] := by
  have hparts : parts slash [slash] = [] := by rw [parts_sep_cons, parts_nil]
  have hresolve : resolve tree (start task [slash]) [] = some task.root := rfl
  refine resolves_of_run (fun junk fuel hfuel => ?_) (hparts ▸ hresolve.symm)
  obtain ⟨fuel, rfl⟩ : ∃ f, fuel = f + 1 := ⟨fuel - 1, by omega⟩
  rfl

theorem resolves_slashes (hlt : (slash :: slash :: rest).length < 2 ^ 31) :
    Resolves tree task (slash :: slash :: rest) ↔ search tree task.root [] = minusOne ∧
      resolve tree task.root (parts slash (slash :: slash :: rest)) = none := by
  have hindex : ((1 : ℕ) : ℤ) < (slash :: slash :: rest).length := by
    simp only [List.length_cons]
    omega
  have hchar : (slash :: slash :: rest).getD 1 0 = slash := rfl
  constructor
  · intro h
    obtain ⟨r, refs, ⟨n, hn⟩, hr, hput⟩ := h fun _ => 0
    have hrun := hn (n + 2 ^ 22 + 1) (by omega)
    rw [namei_slash hlt, nameiLoop_slash hindex hchar (by omega)] at hrun
    by_cases hword : search tree task.root [] = minusOne
    · rw [if_pos hword] at hrun
      obtain ⟨rfl, -⟩ := Prod.mk.inj (Except.ok.inj hrun)
      exact ⟨hword, hr.symm⟩
    · rw [if_neg hword] at hrun
      obtain ⟨rfl, i, hgot, hnot⟩ := nameiLoop_leaks hindex hchar (by omega) List.mem_cons_self
        (fun x hx => List.mem_singleton.mp hx ▸ hword) hrun
      have hcount := hput i
      rw [List.count_eq_zero_of_not_mem hnot, if_neg (by simp)] at hcount
      have hpos := List.count_pos_iff.mpr hgot
      omega
  · rintro ⟨hword, hnone⟩
    refine resolves_of_run (fun junk fuel hfuel => ?_) hnone.symm
    obtain ⟨fuel, rfl⟩ : ∃ f, fuel = f + 1 := ⟨fuel - 1, by omega⟩
    rw [namei_slash hlt, nameiLoop_slash hindex hchar (by omega), if_pos hword]

theorem Suits.head_slash (h : Suits tree task path) (hshort : path.length < 2 ^ 31) :
    path.head? = some slash := by
  rcases h with hpath | ⟨hpath, -, -⟩ | ⟨hlong, -⟩
  · rw [hpath, List.head?_cons]
  · obtain ⟨rest, rfl⟩ := hpath
    rfl
  · exact absurd hlong (not_le.mpr hshort)

theorem suits_cons_cons {d : UInt8} (hshort : (slash :: d :: rest).length < 2 ^ 31) :
    Suits tree task (slash :: d :: rest) ↔ d = slash ∧ search tree task.root [] = minusOne ∧
      resolve tree task.root (parts slash (slash :: d :: rest)) = none := by
  constructor
  · rintro (hpath | ⟨hpath, hword, hnone⟩ | ⟨hlong, -⟩)
    · exact absurd hpath (by simp)
    · have hd := List.IsPrefix.getElem hpath (i := 1) (by simp)
      exact ⟨hd.symm, hword, hnone⟩
    · exact absurd hlong (not_le.mpr hshort)
  · rintro ⟨rfl, hword, hnone⟩
    exact .slashes ⟨rest, rfl⟩ hword hnone

theorem resolves_long (hlong : 2 ^ 31 ≤ path.length) (hlt : path.length < 2 ^ 32) :
    Resolves tree task path ↔ resolve tree (start task path) (parts slash path) = none := by
  constructor
  · intro h
    obtain ⟨r, refs, ⟨n, hn⟩, hr, -⟩ := h fun _ => 0
    have hrun := hn n le_rfl
    rw [namei_long hlong hlt] at hrun
    obtain ⟨rfl, -⟩ := Prod.mk.inj (Except.ok.inj hrun)
    exact hr.symm
  · exact fun hnone => resolves_of_run (fun junk fuel _ => namei_long hlong hlt junk fuel) hnone.symm

theorem suits_long (hlong : 2 ^ 31 ≤ path.length) :
    Suits tree task path ↔ resolve tree (start task path) (parts slash path) = none := by
  constructor
  · rintro (hpath | ⟨-, -, hnone⟩ | ⟨-, hnone⟩)
    · exact absurd hlong (by simp [hpath])
    · exact hnone
    · exact hnone
  · exact .long hlong

theorem resolves_iff_suits (hne : path ≠ []) (hlt : path.length < 2 ^ 32) :
    Resolves tree task path ↔ Suits tree task path := by
  by_cases hlong : 2 ^ 31 ≤ path.length
  · rw [resolves_long hlong hlt, suits_long hlong]
  have hshort := not_le.mp hlong
  obtain ⟨c, rest, rfl⟩ := List.exists_cons_of_ne_nil hne
  by_cases hc : c = slash
  · subst hc
    rcases rest with _ | ⟨d, rest⟩
    · exact iff_of_true resolves_root (.root rfl)
    · rw [suits_cons_cons hshort]
      by_cases hd : d = slash
      · subst hd
        rw [resolves_slashes hshort, and_iff_right rfl]
      · exact iff_of_false (not_resolves_absolute hd hshort) fun h => hd h.1
  · refine iff_of_false (not_resolves_relative hc hshort) fun h => hc ?_
    exact Option.some.inj (h.head_slash hshort)

/-- **`namei` resolves a path** exactly under the condition: it never looks for a component. The strings
are those that fit into the memory. -/
theorem resolves_iff (tree : Tree) (task : Task) (path : CString) (hne : path.chars ≠ [])
    (hfits : path.chars.length < 2 ^ 32) :
    Resolves tree task path.chars ↔ Suits tree task path.chars := resolves_iff_suits hne hfits

end Resolves

/-- A disk of zeros. -/
def emptyTree : Tree := ⟨fun _ _ => 0, fun _ _ => 0⟩

/-- The path `/` is resolved. -/
theorem resolves_iff_slash : Resolves emptyTree ⟨1, 1⟩ [slash] :=
  (resolves_iff emptyTree ⟨1, 1⟩ ⟨[slash], by decide⟩ (by decide) (by decide)).mpr (.root rfl)

/-- A root directory, inode 1, whose block 200 has the entry `a` of inode 2. -/
def oneFile : Tree where
  dinode i := if i = 1 then storeAll (fun _ => 0) [(4, 4, 20), (40, 4, 200)] else fun _ => 0
  disk b := if b = 200 then storeAll (fun _ => 0) [(0, 4, 2), (4, 1, 97)] else fun _ => 0

/-- In a root directory with a file `a`, of inode 2, neither `/a` nor `a` is resolved, and `//` is not the
root. -/
theorem not_resolves_oneFile :
    resolve oneFile 1 (parts slash [slash, 97]) = some 2 ∧ ¬ Resolves oneFile ⟨1, 1⟩ [slash, 97] ∧
      ¬ Resolves oneFile ⟨1, 1⟩ [97] ∧ ¬ Resolves oneFile ⟨1, 1⟩ [slash, slash] := by
  refine ⟨by decide +kernel, not_resolves_absolute (by decide) (by decide),
    not_resolves_relative (by decide) (by decide), fun h => ?_⟩
  have hword := ((resolves_slashes (by decide)).mp h).1
  exact absurd hword (by decide +kernel)

end YegaKernel.Fs.Ufs.Namei
