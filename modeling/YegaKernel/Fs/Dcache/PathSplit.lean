import YegaKernel.Fs.Dcache.Namei
import YegaKernel.Lib.Parts
import YegaKernel.Lib.Strings

/-! # A path is split at its slashes

`link_path_walk` as the loop it is, for any `do_lookup` and any state behind it (`walkLoop`); the walk
of `Namei` over the components is this loop (`linkPathWalk_eq`). With a partial function for
`do_lookup` the walk should be the fold over the maximal parts of the path without a slash
(`descend`), with the same lookups. `component` has room for 63 bytes of a name, and a longer one is
looked up in pieces: the walk is the fold exactly if every name the fold looks up has less than 64
bytes (`splitsAtSlashes_iff`). -/

namespace YegaKernel.Fs.Dcache.PathSplit

open Fs.Dcache.Model Fs.Dcache.Namei
open Lib.Parts Lib.Strings

/-! ### The loop -/

section Loop

variable {σ : Type} (lookup : σ → ℕ → List UInt8 → Except Fault (Option ℕ × σ)) (up : σ → ℕ → ℕ)

/-- The loop of `link_path_walk`: `none` where a component is not found. -/
def walkLoop : ℕ → σ → ℕ → List UInt8 → Except Fault (Option ℕ × σ)
  | 0, _, _, _ => .error .spinning
  | fuel + 1, s, dentry, path =>
    if path = [] then .ok (some dentry, s)
    else
      let component := (getComponent path 64).1
      let rest := (getComponent path 64).2
      if component = [] then .ok (some dentry, s)
      else if component = [dot] then walkLoop fuel s dentry rest
      else if component = [dot, dot] then walkLoop fuel s (up s dentry) rest
      else do
        match ← lookup s dentry component with
        | (some d, s) => walkLoop fuel s d rest
        | (none, s) => return (none, s)

/-- The same over a list of components. -/
def walkList : σ → ℕ → List (List UInt8) → Except Fault (Option ℕ × σ)
  | s, dentry, [] => .ok (some dentry, s)
  | s, dentry, component :: rest =>
    if component = [dot] then walkList s dentry rest
    else if component = [dot, dot] then walkList s (up s dentry) rest
    else do
      match ← lookup s dentry component with
      | (some d, s) => walkList s d rest
      | (none, s) => return (none, s)

/-- **The loop comes to its end**: each round takes something off the path, and what it takes off are
the components. -/
theorem walkLoop_eq {fuel : ℕ} (s : σ) (dentry : ℕ) {path : List UInt8} (hfuel : path.length < fuel) :
    walkLoop lookup up fuel s dentry path = walkList lookup up s dentry (components path) := by
  induction fuel generalizing s dentry path with
  | zero => omega
  | succ fuel ih =>
    rw [walkLoop, components]
    by_cases hnil : path = []
    · subst hnil
      rfl
    rw [if_neg hnil]
    by_cases hc : (getComponent path 64).1 = []
    · rw [if_pos hc, dif_pos hc, walkList]
    have hlen := length_getComponent path 64
    have hpos := List.length_pos_iff.mpr hc
    have hrest : (getComponent path 64).2.length < fuel := by omega
    rw [dif_neg hc, walkList]
    simp only [if_neg hc, ih _ _ hrest]

/-- `link_path_walk` from a dentry: what it returns, the `dentry` of the `nameidata` it leaves, and
the state. -/
def linkPathWalkWith (fuel : ℕ) (s : σ) (path : List UInt8) (start : ℕ) :
    Except Fault (ℤ × ℕ × σ) := do
  match ← walkLoop lookup up fuel s start (skipSlashes path) with
  | (some d, s) => return (0, d, s)
  | (none, s) => return (-1, start, s)

end Loop

theorem linkPathWalk_eq {inodes : Set ℕ} {ω : Type} (sv : Services inodes ω) {fuel n : ℕ} (v : Vfs ω)
    {path : List UInt8} {nd : NameIdata} {start : ℕ} (hd : nd.dentry = some start)
    (hfuel : path.length < n) : linkPathWalk sv fuel v (some path) nd =
      (linkPathWalkWith (doLookup sv fuel) (fun v => dotDot v.cache) n v path start).map
        fun r => (r.1, { nd with dentry := some r.2.1 }, r.2.2) := by
  have hlist : ∀ (names : List (List UInt8)) (v : Vfs ω) (d : ℕ),
      walkComponents sv fuel v d names =
        walkList (doLookup sv fuel) (fun v => dotDot v.cache) v d names := by
    intro names
    induction names with
    | nil => exact fun _ _ => rfl
    | cons name names ih =>
      intro v d
      rw [walkComponents, walkList]
      simp only [ih]
      rcases doLookup sv fuel v d name with e | ⟨_ | d', v'⟩ <;> rfl
  have hn : (skipSlashes path).length < n := (length_skipSlashes path).trans_lt hfuel
  obtain ⟨_, flags, lastType, lastName⟩ := nd
  subst hd
  rw [linkPathWalkWith, walkLoop_eq _ _ _ _ hn]
  simp only [linkPathWalk, hlist]
  rcases walkList (doLookup sv fuel) (fun v => dotDot v.cache) v start
    (components (skipSlashes path)) with e | ⟨_ | d, v'⟩
  · rfl
  · rfl
  · rfl

/-! ### The components -/

theorem skipSlashes_eq (path : List UInt8) : skipSlashes path = path.dropWhile fun c => c = slash := by
  induction path with
  | nil => rfl
  | cons c path ih =>
    rw [skipSlashes, List.dropWhile_cons, ih]
    simp

theorem length_copyComponent_le (room : ℕ) (path : List UInt8) :
    (copyComponent room path).1.length ≤ room := by
  induction room generalizing path with
  | zero => simp [copyComponent]
  | succ room ih =>
    rcases path with _ | ⟨c, path⟩
    · simp [copyComponent]
    · rw [copyComponent]
      split
      · simp
      · simpa using ih path

theorem copyComponent_of_fits {room : ℕ} {path : List UInt8}
    (h : (path.takeWhile fun c => c ≠ slash).length ≤ room) : copyComponent room path =
      (path.takeWhile fun c => c ≠ slash, path.dropWhile fun c => c ≠ slash) := by
  induction room generalizing path with
  | zero =>
    have hnil := List.length_eq_zero_iff.mp (Nat.le_zero.mp h)
    have hwhole : path = path.takeWhile (fun c => c ≠ slash) ++ path.dropWhile fun c => c ≠ slash :=
      List.takeWhile_append_dropWhile.symm
    rw [hnil, List.nil_append] at hwhole
    rw [copyComponent, hnil, ← hwhole]
  | succ room ih =>
    rcases path with _ | ⟨c, path⟩
    · rfl
    rw [copyComponent]
    by_cases hc : c = slash
    · rw [if_pos hc, List.takeWhile_cons_of_neg (by simpa using hc),
        List.dropWhile_cons_of_neg (by simpa using hc)]
    · rw [List.takeWhile_cons_of_pos (by simpa using hc), List.length_cons] at h
      rw [if_neg hc, ih (by omega), List.takeWhile_cons_of_pos (by simpa using hc),
        List.dropWhile_cons_of_pos (by simpa using hc)]

theorem length_of_mem_components {path name : List UInt8} (h : name ∈ components path) :
    name.length < 64 := by
  induction hn : path.length using Nat.strong_induction_on generalizing path with
  | _ n ih =>
    rw [components] at h
    by_cases hc : (getComponent path 64).1 = []
    · rw [dif_pos hc] at h
      exact absurd h List.not_mem_nil
    rw [dif_neg hc] at h
    have hlen := length_getComponent path 64
    have hpos := List.length_pos_iff.mpr hc
    rcases List.mem_cons.mp h with rfl | h
    · exact Nat.lt_succ_of_le (length_copyComponent_le 63 _)
    · exact ih _ (by omega) h rfl

/-- **A path as the loop sees it**: it is over, or a part comes first, which is the next component if
it fits. -/
theorem components_cases (path : List UInt8) : (parts slash path = [] ∧ components path = []) ∨
      ∃ name rest, rest.length < path.length ∧ parts slash path = name :: parts slash rest ∧
        (name.length < 64 → components path = name :: components rest) := by
  have hparts : parts slash (skipSlashes path) = parts slash path := by
    rw [skipSlashes_eq, parts_dropWhile]
  by_cases hnil : skipSlashes path = []
  · left
    rw [hnil, parts_nil] at hparts
    rw [components, dif_pos (by rw [getComponent, hnil]; rfl)]
    exact ⟨hparts.symm, rfl⟩
  · right
    have hhead : (skipSlashes path).head? ≠ some slash := by
      intro hh
      have hnot := List.head?_dropWhile_not (fun c => decide (c = slash)) path
      rw [← skipSlashes_eq, hh] at hnot
      simp at hnot
    have hcons := parts_cons hnil hhead
    rw [hparts] at hcons
    have hname := ne_nil_of_mem_parts (hcons ▸ List.mem_cons_self)
    have hwhole := congrArg List.length
      (List.takeWhile_append_dropWhile (p := fun c => decide (c ≠ slash)) (l := skipSlashes path))
    rw [List.length_append] at hwhole
    have hpos := List.length_pos_iff.mpr hname
    have hskip := length_skipSlashes path
    refine ⟨_, _, by omega, hcons, fun hshort => ?_⟩
    have hget : getComponent path 64 = _ := copyComponent_of_fits (Nat.le_of_lt_succ hshort)
    rw [components, hget, dif_neg hname]

/-! ### The walk and the fold -/

section Fold

variable (f : ℕ → List UInt8 → Option ℕ) (parent : ℕ → ℕ)

/-- `do_lookup` as a partial function, with a record of the calls. -/
def recorded (calls : List (ℕ × List UInt8)) (d : ℕ) (name : List UInt8) :
    Except Fault (Option ℕ × List (ℕ × List UInt8)) :=
  .ok (f d name, calls ++ [(d, name)])

/-- `dentry->d_parent`, or the dentry itself. -/
def upOf (d : ℕ) : ℕ := if parent d ≠ d then parent d else d

/-- `link_path_walk`, with the lookups it made in order. -/
def linkPathWalkOf (fuel : ℕ) (path : List UInt8) (start : ℕ) :
    Except Fault (ℤ × ℕ × List (ℕ × List UInt8)) :=
  linkPathWalkWith (recorded f) (fun _ => upOf parent) fuel [] path start

/-- **The fold over the names of a path**: the dentry it ends at, if no lookup fails, and the lookups
it made. -/
def descend : ℕ → List (List UInt8) → Option ℕ × List (ℕ × List UInt8)
  | d, [] => (some d, [])
  | d, name :: names =>
    if name = [dot] then descend d names
    else if name = [dot, dot] then descend (parent d) names
    else match f d name with
      | some d' => ((descend d' names).1, (d, name) :: (descend d' names).2)
      | none => (none, [(d, name)])

/-- What the walk has to return for what the fold gives. -/
def outcome (start : ℕ) : Option ℕ × List (ℕ × List UInt8) → ℤ × ℕ × List (ℕ × List UInt8)
  | (some d, calls) => (0, d, calls)
  | (none, calls) => (-1, start, calls)

/-- **The walk splits the path at its slashes**: it comes to its end, with the result of the fold over
the parts of the path and by the same lookups, or with -1 and the dentry it started from if one of them
fails. -/
def SplitsAtSlashes (path : CString) (start : ℕ) : Prop :=
  ∃ n, ∀ fuel ≥ n, linkPathWalkOf f parent fuel path.chars start =
    .ok (outcome start (descend f parent start (parts slash path.chars)))

theorem upOf_eq (d : ℕ) : upOf parent d = parent d := by
  by_cases h : parent d = d
  · rw [upOf, if_neg (not_not.mpr h), h]
  · rw [upOf, if_pos h]

theorem walkList_recorded (calls : List (ℕ × List UInt8)) (d : ℕ) (names : List (List UInt8)) :
    walkList (recorded f) (fun _ => upOf parent) calls d names =
      .ok ((descend f parent d names).1, calls ++ (descend f parent d names).2) := by
  induction names generalizing calls d with
  | nil => rw [walkList, descend, List.append_nil]
  | cons name names ih =>
    rw [walkList, descend]
    by_cases h1 : name = [dot]
    · rw [if_pos h1, if_pos h1, ih]
    rw [if_neg h1, if_neg h1]
    by_cases h2 : name = [dot, dot]
    · rw [if_pos h2, if_pos h2, ih, upOf_eq]
    rw [if_neg h2, if_neg h2, recorded]
    simp only [bind, Except.bind]
    rcases f d name with _ | d'
    · rfl
    · simp only [ih, List.append_assoc, List.singleton_append]

theorem linkPathWalkOf_eq {fuel : ℕ} {path : List UInt8} (start : ℕ) (hfuel : path.length < fuel) :
    linkPathWalkOf f parent fuel path start =
      .ok (outcome start (descend f parent start (components (skipSlashes path)))) := by
  have hn : (skipSlashes path).length < fuel := (length_skipSlashes path).trans_lt hfuel
  rw [linkPathWalkOf, linkPathWalkWith, walkLoop_eq _ _ _ _ hn, walkList_recorded]
  rcases descend f parent start (components (skipSlashes path)) with ⟨_ | d, calls⟩ <;> rfl

theorem descend_components {path : List UInt8} {d : ℕ}
    (h : ∀ c ∈ (descend f parent d (parts slash path)).2, c.2.length < 64) :
    descend f parent d (components path) = descend f parent d (parts slash path) := by
  induction hn : path.length using Nat.strong_induction_on generalizing path d with
  | _ n ih =>
    rcases components_cases path with ⟨hp, hc⟩ | ⟨name, rest, hlt, hp, hc⟩
    · rw [hp, hc]
    rw [hp, descend] at h
    rw [hp, descend]
    subst hn
    by_cases h1 : name = [dot]
    · rw [if_pos h1] at h ⊢
      rw [hc (by simp [h1]), descend, if_pos h1, ih _ hlt h rfl]
    rw [if_neg h1] at h ⊢
    by_cases h2 : name = [dot, dot]
    · rw [if_pos h2] at h ⊢
      rw [hc (by simp [h2]), descend, if_neg h1, if_pos h2, ih _ hlt h rfl]
    -- the name is looked up, so that it is one of the short ones
    rw [if_neg h2] at h ⊢
    rcases hf : f d name with _ | d'
    · rw [hf] at h
      rw [hc (h (d, name) (by simp)), descend, if_neg h1, if_neg h2, hf]
    · rw [hf] at h
      have hrest := ih _ hlt (fun c hc => h c (List.mem_cons_of_mem _ hc)) rfl
      rw [hc (h (d, name) (by simp)), descend, if_neg h1, if_neg h2, hf]
      simp only [hrest]

theorem mem_of_mem_descend {names : List (List UInt8)} {d : ℕ} {c : ℕ × List UInt8}
    (h : c ∈ (descend f parent d names).2) : c.2 ∈ names := by
  induction names generalizing d with
  | nil => exact absurd h List.not_mem_nil
  | cons name names ih =>
    rw [descend] at h
    split_ifs at h
    · exact List.mem_cons_of_mem _ (ih h)
    · exact List.mem_cons_of_mem _ (ih h)
    · rcases hf : f d name with _ | d' <;> rw [hf] at h
      · rw [List.mem_singleton.mp h]
        exact List.mem_cons_self
      · rcases List.mem_cons.mp h with rfl | h
        · exact List.mem_cons_self
        · exact List.mem_cons_of_mem _ (ih h)

theorem outcome_calls (start : ℕ) (r : Option ℕ × List (ℕ × List UInt8)) :
    (outcome start r).2.2 = r.2 := by
  obtain ⟨_ | d, calls⟩ := r <;> rfl

/-- **The walk splits a path at its slashes exactly if the names looked up fit** into `component`. -/
theorem splitsAtSlashes_iff (path : CString) (start : ℕ) :
    SplitsAtSlashes f parent path start ↔
      ∀ c ∈ (descend f parent start (parts slash path.chars)).2, c.2.length < 64 := by
  have hparts : parts slash (skipSlashes path.chars) = parts slash path.chars := by
    rw [skipSlashes_eq, parts_dropWhile]
  constructor
  · rintro ⟨n, h⟩ c hc
    have heq := h (max n (path.chars.length + 1)) (le_max_left _ _)
    rw [linkPathWalkOf_eq f parent start (by omega), Except.ok.injEq] at heq
    have hcalls := congrArg (fun r => r.2.2) heq
    simp only [outcome_calls] at hcalls
    exact length_of_mem_components (mem_of_mem_descend f parent (hcalls ▸ hc))
  · intro h
    refine ⟨path.chars.length + 1, fun fuel hfuel => ?_⟩
    rw [← hparts] at h
    rw [linkPathWalkOf_eq f parent start (by omega), descend_components f parent h, hparts]

end Fold

/-- A name of 64 bytes. -/
def longName : CString := ⟨List.replicate 64 97, by decide⟩

/-- A lookup that finds this name, and no other, in dentry 0. -/
def knowsLong (d : ℕ) (name : List UInt8) : Option ℕ :=
  if d = 0 ∧ name = longName.chars then some 1 else none

/-- The walk asks for the first 63 bytes of the name, does not find them, and returns -1. -/
theorem not_splitsAtSlashes_long :
    linkPathWalkOf knowsLong id 65 longName.chars 0 = .ok (-1, 0, [(0, List.replicate 63 97)]) ∧
      descend knowsLong id 0 (parts slash longName.chars) = (some 1, [(0, longName.chars)]) ∧
      ¬ SplitsAtSlashes knowsLong id longName 0 := by
  have hwalk : linkPathWalkOf knowsLong id 65 longName.chars 0 =
      .ok (-1, 0, [(0, List.replicate 63 97)]) := by decide +kernel
  have hfold : descend knowsLong id 0 (parts slash longName.chars) =
      (some 1, [(0, longName.chars)]) := by decide +kernel
  refine ⟨hwalk, hfold, ?_⟩
  rintro ⟨n, h⟩
  have hcode : linkPathWalkOf knowsLong id 65 longName.chars 0 = _ :=
    linkPathWalkOf_eq knowsLong id 0 (by decide)
  have hspec := h (max n 65) (le_max_left _ _)
  rw [linkPathWalkOf_eq knowsLong id 0 (lt_of_lt_of_le (by decide) (le_max_right n 65)), ← hcode,
    hwalk, hfold] at hspec
  exact absurd hspec (by decide)

end YegaKernel.Fs.Dcache.PathSplit
