import YegaKernel.Fs.Dcache.HashRun
import YegaKernel.Fs.Dcache.Namei
import YegaKernel.Lib.Loops

/-! # The references of a path lookup

`d_lookup` takes a reference on every component that is in the cache, `path_release` drops one on
the dentry where the walk ends, and nobody drops the others. A `Trail` follows a path over the
dentries as they are before the call: it records the dentries that are found in the cache. The
counts are as before if and only if the walk finds just the dentry where it ends, or ends in a new
dentry or fails without a find (`balanced_iff`). -/

namespace YegaKernel.Fs.Dcache.Walk

open Lib.Links Lib.Word Lib.Loops Lib.Strings Function
open Fs.Dcache.Model Fs.Dcache.Hash Fs.Dcache.Namei
open Fs.Dcache.HashRun (zeroCache InodeHead)

variable {inodes : Set ℕ} {ω : Type}

/-! ### Following a path over the dentries that are there -/

/-- **A place on the way**: a dentry that was there before, the inodes of the new dentries above it
with the last one in front, and the dentries found in the cache; the objects in use, the inodes with
a `lookup` operation and the rest of the kernel as they are then. -/
structure Trail (ω : Type) where
  base : ℕ
  above : List ℕ
  hits : List ℕ
  live : List ℕ
  lookupOp : ℕ → Bool
  rest : ω

section Trail
variable (sv : Services inodes ω) (s : DentryCache) (hashed : List ℕ)

/-- The inode of the place. -/
def Trail.inode (t : Trail ω) : Option ℕ :=
  match t.above with
  | [] => (s.dentries t.base).dInode
  | i :: _ => some i

/-- `".."`. -/
def Trail.up (t : Trail ω) : Trail ω :=
  match t.above with
  | [] => { t with base := dotDot s t.base }
  | _ :: above => { t with above := above }

/-- What the cache has for the name; below a new dentry it has nothing. -/
def Trail.found (t : Trail ω) (name : List UInt8) : Option ℕ :=
  match t.above with
  | [] => cached s hashed t.base name
  | _ :: _ => none

/-- A component that is not in the cache. -/
def Trail.create (t : Trail ω) (dir : ℕ) (name : List UInt8) : Option (Trail ω) :=
  match sv.alloc t.live with
  | none => none
  | some d =>
    if t.lookupOp dir then
      match sv.search t.rest dir (name.take (dNameSize - 1)) with
      | (some (i, isDir), rest) =>
        some { t with
          above := i :: t.above
          live := d :: t.live
          lookupOp := update t.lookupOp i isDir
          rest := rest }
      | (none, _) => none
    else none

/-- A component other than `"."` and `".."`; `none` where it is not found. -/
def Trail.enter (t : Trail ω) (name : List UInt8) : Option (Trail ω) :=
  match t.inode s with
  | none => none
  | some dir =>
    match t.found s hashed name with
    | some d => some { t with base := d, hits := d :: t.hits }
    | none => t.create sv dir name

/-- The components one after the other: the last place, and whether all were found. -/
def Trail.follow : Trail ω → List (List UInt8) → Trail ω × Bool
  | t, [] => (t, true)
  | t, component :: rest =>
    if component = [dot] then t.follow rest
    else if component = [dot, dot] then (t.up s).follow rest
    else match t.enter sv s hashed component with
      | some t' => t'.follow rest
      | none => (t, false)

end Trail

/-- Where the trail of a path starts. -/
def Trail.start (v : Vfs ω) (fuel : ℕ) (path : List UInt8) (d : ℕ) : Trail ω where
  base := (startFrom v.cache fuel path d).toOption.getD d
  above := []
  hits := []
  live := v.cache.live
  lookupOp := v.lookupOp
  rest := v.rest

/-- **What the cache may have of the path**: the dentry where the walk ends, once, and nothing if
the walk ends in a new dentry or fails. -/
def Settled (sv : Services inodes ω) (fuel : ℕ) (v : Vfs ω) (hashed : List ℕ) (path : List UInt8)
    (d : ℕ) : Prop :=
  let r := (Trail.start v fuel path d).follow sv v.cache hashed (components (skipSlashes path))
  r.1.hits = if r.2 ∧ r.1.above = [] then [r.1.base] else []

/-- **The counts balance**: after the lookup, and the release if it succeeds, every dentry that was
there is there, with the same count. -/
def Balanced (sv : Services inodes ω) (fuel : ℕ) (v : Vfs ω) (path : List UInt8) (flags : ℕ)
    (nd : NameIdata) : Prop :=
  ∃ r nd' v', pathLookup sv fuel v (some path) flags nd = .ok (r, nd', v') ∧
    let after := if r = 0 then (pathRelease v' nd').2.cache else v'.cache
    ∀ d ∈ v.cache.live,
      d ∈ after.live ∧ (after.dentries d).dCount = (v.cache.dentries d).dCount

/-- **A dentry tree with counts**: the hash table is in order, every dentry has its parent in use,
its way to the root comes to an end, and it is counted at least once. -/
structure DentryTree (inodes : Set ℕ) (K : Link → Prop) (fuel : ℕ) (s : DentryCache)
    (hashed : List ℕ) : Prop where
  table : Table K s hashed
  inodes : ∀ i ∈ inodes, K (.dentryOf i)
  parent : ∀ d ∈ s.live, (s.dentries d).dParent ∈ s.live
  count : ∀ d ∈ s.live, 0 < (s.dentries d).dCount ∧ (s.dentries d).dCount < 2 ^ 32
  rooted : ∀ d ∈ s.live, ∃ r, toRoot s fuel d = .ok r
  fuel : hashed.length < fuel

/-! ### The trail describes the walk -/

/-- The dentries that were there are as before, but for a reference on each hit. -/
def Kept (s : DentryCache) (hits : List ℕ) (s' : DentryCache) : Prop :=
  ∀ d ∈ s.live, d ∈ s'.live ∧ s'.dentries d =
    { s.dentries d with dCount := u32 ((s.dentries d).dCount + hits.count d) }

/-- The dentry `cur` is reached from `base` by new dentries with these inodes. -/
def OnTop (s : DentryCache) (old : List ℕ) (base : ℕ) : List ℕ → ℕ → Prop
  | [], cur => cur = base
  | i :: above, cur => cur ∈ s.live ∧ cur ∉ old ∧ (s.dentries cur).dInode = some i ∧
      (s.dentries cur).dParent ≠ cur ∧ OnTop s old base above (s.dentries cur).dParent

/-- **The walk is where the trail says.** -/
structure Matches (inodes : Set ℕ) (s : DentryCache) (hashed : List ℕ) (v : Vfs ω) (cur : ℕ)
    (t : Trail ω) : Prop where
  table : ∃ K, Table K v.cache hashed ∧ ∀ i ∈ inodes, K (.dentryOf i)
  kept : Kept s t.hits v.cache
  live : v.cache.live = t.live
  ops : v.lookupOp = t.lookupOp
  rest : v.rest = t.rest
  base : t.base ∈ s.live
  top : OnTop v.cache s.live t.base t.above cur

variable {sv : Services inodes ω} {K : Link → Prop} {fuel : ℕ} {s s' : DentryCache} {hashed : List ℕ}
  {v : Vfs ω} {cur : ℕ} {t : Trail ω}

theorem OnTop.mono {old : List ℕ} {base : ℕ} {above : List ℕ} (h : OnTop s old base above cur)
    (hs : ∀ e ∈ s.live, e ∉ old → e ∈ s'.live ∧ (s'.dentries e).dInode = (s.dentries e).dInode ∧
      (s'.dentries e).dParent = (s.dentries e).dParent) : OnTop s' old base above cur := by
  induction above generalizing cur with
  | nil => exact h
  | cons i above ih =>
    obtain ⟨hlive, hold, hinode, hne, htop⟩ := h
    obtain ⟨hlive', hinode', hparent'⟩ := hs cur hlive hold
    refine ⟨hlive', hold, hinode'.trans hinode, ?_, ?_⟩
    · rwa [hparent']
    · rw [hparent']
      exact ih htop

theorem Matches.cur_live (h : Matches inodes s hashed v cur t) : cur ∈ v.cache.live := by
  have htop := h.top
  cases habove : t.above with
  | nil =>
    rw [habove] at htop
    rw [htop]
    exact (h.kept t.base h.base).1
  | cons i above =>
    rw [habove] at htop
    exact htop.1

theorem Matches.inode_eq (h : Matches inodes s hashed v cur t) :
    (v.cache.dentries cur).dInode = t.inode s := by
  have htop := h.top
  unfold Trail.inode
  cases habove : t.above with
  | nil =>
    rw [habove] at htop
    rw [htop, (h.kept t.base h.base).2]
  | cons i above =>
    rw [habove] at htop
    exact htop.2.2.1

theorem Matches.cached_eq (htree : DentryTree inodes K fuel s hashed)
    (h : Matches inodes s hashed v cur t) (name : List UInt8) :
    cached v.cache hashed cur name = t.found s hashed name := by
  have htop := h.top
  have hold : ∀ d ∈ hashed, (v.cache.dentries d).dParent = (s.dentries d).dParent ∧
      (v.cache.dentries d).dName = (s.dentries d).dName := by
    intro d hd
    rw [(h.kept d (htree.table.live d hd)).2]
    exact ⟨rfl, rfl⟩
  unfold Trail.found
  cases habove : t.above with
  | nil =>
    rw [habove] at htop
    rw [htop]
    refine List.find?_congr fun d hd => ?_
    rw [(hold d hd).1, (hold d hd).2]
  | cons i above =>
    -- the parents of the hashed dentries were there before, so that none is the new dentry
    rw [habove] at htop
    refine List.find?_eq_none.mpr fun d hd => ?_
    rw [(hold d hd).1]
    simp only [decide_eq_true_eq, not_and]
    rintro rfl
    exact absurd (htree.parent d (htree.table.live d hd)) htop.2.1

theorem Matches.up (htree : DentryTree inodes K fuel s hashed) (h : Matches inodes s hashed v cur t) :
    Matches inodes s hashed v (dotDot v.cache cur) (t.up s) := by
  have htop := h.top
  unfold Trail.up
  cases habove : t.above with
  | nil =>
    rw [habove] at htop
    have hdot : dotDot v.cache cur = dotDot s t.base := by
      rw [htop, dotDot, dotDot, (h.kept t.base h.base).2]
    refine ⟨h.table, h.kept, h.live, h.ops, h.rest, ?_, ?_⟩
    · dsimp only
      rw [dotDot]
      split
      · exact htree.parent _ h.base
      · exact h.base
    · exact hdot
  | cons i above =>
    rw [habove] at htop
    refine ⟨h.table, h.kept, h.live, h.ops, h.rest, h.base, ?_⟩
    have hdot : dotDot v.cache cur = (v.cache.dentries cur).dParent := if_pos htop.2.2.2.1
    rw [hdot]
    exact htop.2.2.2.2

theorem u32_succ (n : ℕ) : u32 (u32 n + 1) = u32 (n + 1) := by
  unfold u32
  omega

theorem Matches.hit (htree : DentryTree inodes K fuel s hashed) (h : Matches inodes s hashed v cur t)
    {name : List UInt8} {d : ℕ} (hf : t.found s hashed name = some d) :
    Matches inodes s hashed { v with cache := countUp v.cache d } d
      { t with base := d, hits := d :: t.hits } := by
  have habove : t.above = [] := by
    unfold Trail.found at hf
    cases habove : t.above with
    | nil => rfl
    | cons i above =>
      rw [habove] at hf
      simp at hf
  have hd : d ∈ s.live := by
    rw [Trail.found, habove] at hf
    exact htree.table.live d (List.mem_of_find?_eq_some hf)
  obtain ⟨K', htable, hinodes⟩ := h.table
  refine ⟨⟨K', htable.countUp d, hinodes⟩, fun e he => ⟨(h.kept e he).1, ?_⟩, h.live, h.ops, h.rest,
    hd, ?_⟩
  · by_cases hed : e = d
    · subst hed
      rw [countUp, upd_self, (h.kept e he).2, List.count_cons_self]
      rw [u32_succ, Nat.add_assoc]
    · rw [countUp, upd_of_ne _ _ _ hed, (h.kept e he).2, List.count_cons_of_ne (Ne.symm hed)]
  · rw [habove]
    rfl

/-! ### A new dentry -/

/-- What a lookup has led to: the next place, or a failure that has left the dentries alone. -/
def Outcome (inodes : Set ℕ) (s : DentryCache) (hashed hits : List ℕ) :
    Option ℕ × Vfs ω → Option (Trail ω) → Prop
  | (some d, v), some t => Matches inodes s hashed v d t
  | (none, v), none => Kept s hits v.cache
  | _, _ => False

theorem Kept.dput {hits : List ℕ} {d : ℕ} (h : Kept s hits s') (hd : d ∉ s.live) :
    Kept s hits (dput s' (some d)) := by
  intro e he
  have hed : e ≠ d := fun hed => hd (hed ▸ he)
  refine ⟨?_, by rw [dput_of_ne _ hed]; exact (h e he).2⟩
  rw [dput_live]
  split
  · exact (List.mem_erase_of_ne hed).mpr (h e he).1
  · exact (h e he).1

theorem Matches.filled (h : Matches inodes s hashed v cur t) {d : ℕ} (hd : d ∉ v.cache.live)
    (name : List UInt8) {i : ℕ} (hi : i ∈ inodes) (isDir : Bool) (rest : ω) :
    Matches inodes s hashed
      ⟨dInstantiate (dAlloc v.cache (some d) (some cur) (some name)).2 (some d) (some i),
        update v.lookupOp i isDir, rest⟩ d { t with
        above := i :: t.above
        live := d :: t.live
        lookupOp := update t.lookupOp i isDir
        rest := rest } := by
  have hne : ∀ e ∈ v.cache.live, e ≠ d := fun e he hed => hd (hed ▸ he)
  have hsame : ∀ e ∈ v.cache.live,
      (dInstantiate (dAlloc v.cache (some d) (some cur) (some name)).2 (some d) (some i)).dentries e =
        v.cache.dentries e := by
    intro e he
    rw [dInstantiate_of_ne _ _ (hne e he), dAlloc_of_ne _ _ _ _ (hne e he)]
  have hself : (dInstantiate (dAlloc v.cache (some d) (some cur) (some name)).2 (some d)
      (some i)).dentries d = { newDentry d (some cur) (some name) with dInode := some i } := by
    rw [dInstantiate_self, dAlloc_self]
  obtain ⟨K', htable, hinodes⟩ := h.table
  have hgrow : ∀ i ∈ inodes, grow K' d (.dentryOf i) :=
    fun i hi => Or.inl (Or.inl (Or.inl (hinodes i hi)))
  have hcur := h.cur_live
  have hparent : ∀ p, some cur = some p → p ∈ v.cache.live := by
    rintro p ⟨⟩
    exact hcur
  have halloc := htable.dAlloc hd hparent (some name)
  refine ⟨⟨grow K' d, halloc.dInstantiate (by simp) (hgrow i hi), hgrow⟩, fun e he => ⟨?_, ?_⟩, ?_, ?_,
    rfl, h.base, ?_, fun hold => hd (h.kept d hold).1, ?_, ?_, ?_⟩
  · simp [(h.kept e he).1]
  · rw [hsame e (h.kept e he).1]
    exact (h.kept e he).2
  · simp [h.live]
  · simp [h.ops]
  · simp
  · rw [hself]
  · rw [hself]
    exact hne cur hcur
  · rw [hself]
    exact h.top.mono fun e he _ => ⟨by simp [he], by rw [hsame e he], by rw [hsame e he]⟩

theorem Matches.create (h : Matches inodes s hashed v cur t) (dir : ℕ) (name : List UInt8) :
    Outcome inodes s hashed t.hits (lookupNew sv v cur dir name) (t.create sv dir name) := by
  unfold lookupNew Trail.create
  rw [h.live]
  cases halloc : sv.alloc t.live with
  | none => exact h.kept
  | some d =>
    have hfresh : d ∉ v.cache.live := by
      rw [h.live]
      exact sv.fresh _ _ halloc
    have hnew : d ∉ s.live := fun hd => hfresh (h.kept d hd).1
    have hkept : Kept s t.hits (dAlloc v.cache (some d) (some cur) (some name)).2 := by
      intro e he
      have hed : e ≠ d := fun hed => hnew (hed ▸ he)
      rw [dAlloc_of_ne _ _ _ _ hed]
      exact ⟨by simp [(h.kept e he).1], (h.kept e he).2⟩
    have hname : ((dAlloc v.cache (some d) (some cur) (some name)).2.dentries d).dName =
        name.take (dNameSize - 1) := by
      rw [dAlloc_self]
      rfl
    rw [show dAlloc v.cache (some d) (some cur) (some name) =
      (some d, (dAlloc v.cache (some d) (some cur) (some name)).2) from rfl]
    dsimp only
    rw [h.ops]
    by_cases hop : t.lookupOp dir = true
    · rw [if_pos hop, if_pos hop, ext2Lookup]
      rw [hname, h.rest]
      rcases hsearch : sv.search t.rest dir (name.take (dNameSize - 1)) with ⟨_ | ⟨i, isDir⟩, rest⟩
      · exact hkept.dput hnew
      · have hi := sv.incore t.rest dir _ i isDir (by rw [hsearch])
        have hfilled := h.filled hfresh name hi isDir rest
        rw [h.ops] at hfilled
        exact hfilled
    · rw [if_neg hop, if_neg hop]
      exact hkept.dput hnew

/-! ### The walk -/

theorem Matches.enter (htree : DentryTree inodes K fuel s hashed) (h : Matches inodes s hashed v cur t)
    {name : List UInt8} (hname : name ≠ []) : ∃ out, doLookup sv fuel v cur name = .ok out ∧
      Outcome inodes s hashed t.hits out (t.enter sv s hashed name) := by
  unfold doLookup Trail.enter
  rw [if_neg hname, h.inode_eq]
  cases hinode : t.inode s with
  | none => exact ⟨_, rfl, h.kept⟩
  | some dir =>
    obtain ⟨K', htable, -⟩ := h.table
    rw [htable.dLookup_eq cur name htree.fuel, h.cached_eq htree]
    cases hfound : t.found s hashed name with
    | none => exact ⟨_, rfl, h.create dir name⟩
    | some d => exact ⟨_, rfl, h.hit htree hfound⟩

/-- How the walk ends: at the place of the trail, or in a failure. -/
def Ends (inodes : Set ℕ) (s : DentryCache) (hashed : List ℕ) (r : Trail ω × Bool) :
    Option ℕ × Vfs ω → Prop
  | (some d, v) => r.2 = true ∧ Matches inodes s hashed v d r.1
  | (none, v) => r.2 = false ∧ Kept s r.1.hits v.cache

/-- **The walk follows the trail.** -/
theorem Matches.walk (sv : Services inodes ω) (htree : DentryTree inodes K fuel s hashed)
    {cs : List (List UInt8)} (hcs : ∀ c ∈ cs, c ≠ []) (h : Matches inodes s hashed v cur t) :
    ∃ out, walkComponents sv fuel v cur cs = .ok out ∧
      Ends inodes s hashed (t.follow sv s hashed cs) out := by
  induction cs generalizing v cur t with
  | nil => exact ⟨_, rfl, rfl, h⟩
  | cons c cs ih =>
    have hrest : ∀ c ∈ cs, c ≠ [] := fun c hc => hcs c (List.mem_cons_of_mem _ hc)
    unfold walkComponents Trail.follow
    by_cases hdot : c = [dot]
    · rw [if_pos hdot, if_pos hdot]
      exact ih hrest h
    rw [if_neg hdot, if_neg hdot]
    by_cases hdots : c = [dot, dot]
    · rw [if_pos hdots, if_pos hdots]
      exact ih hrest (h.up htree)
    rw [if_neg hdots, if_neg hdots]
    obtain ⟨⟨next, v'⟩, hlookup, hout⟩ := h.enter htree (hcs c List.mem_cons_self)
    rw [hlookup]
    cases henter : t.enter sv s hashed c with
    | none =>
      rw [henter] at hout
      cases next with
      | none => exact ⟨_, rfl, rfl, hout⟩
      | some d => exact hout.elim
    | some t' =>
      rw [henter] at hout
      cases next with
      | none => exact hout.elim
      | some d => exact ih hrest hout

/-! ### The hits of a trail -/

theorem Trail.enter_hits {t' : Trail ω} {name : List UInt8} (h : t.enter sv s hashed name = some t') :
    t'.hits = t.hits ∨ ∃ d ∈ hashed, t'.hits = d :: t.hits := by
  unfold Trail.enter at h
  split at h
  · simp at h
  · split at h
    · rename_i d hfound
      obtain rfl := Option.some.inj h
      refine Or.inr ⟨d, ?_, rfl⟩
      unfold Trail.found at hfound
      split at hfound
      · exact List.mem_of_find?_eq_some hfound
      · simp at hfound
    · unfold Trail.create at h
      split at h
      · simp at h
      · split at h
        · split at h
          · obtain rfl := Option.some.inj h
            exact Or.inl rfl
          · simp at h
        · simp at h

theorem Trail.up_hits (t : Trail ω) (s : DentryCache) : (t.up s).hits = t.hits := by
  unfold Trail.up
  split <;> rfl

theorem Trail.follow_hits (sv : Services inodes ω) (s : DentryCache) (hashed : List ℕ)
    (cs : List (List UInt8)) (t : Trail ω) :
    (t.follow sv s hashed cs).1.hits.length ≤ t.hits.length + cs.length ∧
      ∀ d ∈ (t.follow sv s hashed cs).1.hits, d ∈ t.hits ∨ d ∈ hashed := by
  induction cs generalizing t with
  | nil => exact ⟨le_rfl, fun d hd => Or.inl hd⟩
  | cons c cs ih =>
    unfold Trail.follow
    have hone : t.hits.length + cs.length ≤ t.hits.length + (c :: cs).length := by simp
    split
    · exact ⟨(ih t).1.trans hone, (ih t).2⟩
    split
    · have hup := ih (t.up s)
      rw [Trail.up_hits] at hup
      exact ⟨hup.1.trans hone, hup.2⟩
    split
    · rename_i t' henter
      obtain ⟨hlen, hmem⟩ := ih t'
      rcases Trail.enter_hits henter with hhits | ⟨d, hd, hhits⟩
      · rw [hhits] at hlen hmem
        exact ⟨hlen.trans hone, hmem⟩
      · rw [hhits] at hlen hmem
        refine ⟨by simp only [List.length_cons] at hlen ⊢; omega, fun e he => ?_⟩
        rcases hmem e he with he | he
        · rcases List.mem_cons.mp he with rfl | he
          · exact Or.inr hd
          · exact Or.inl he
        · exact Or.inr he
    · exact ⟨Nat.le_add_right _ _, fun d hd => Or.inl hd⟩

theorem components_ne_nil {path c : List UInt8} (h : c ∈ components path) : c ≠ [] := by
  fun_induction components path with
  | case1 path hnil => simp at h
  | case2 path hne ih =>
    rcases List.mem_cons.mp h with rfl | h
    · exact hne
    · exact ih h

theorem length_components (path : List UInt8) : (components path).length ≤ path.length := by
  fun_induction components path with
  | case1 path hnil => exact Nat.zero_le _
  | case2 path hne ih =>
    have hlen := length_getComponent path 64
    have hpos := List.length_pos_iff.mpr hne
    rw [List.length_cons]
    omega

/-! ### The counts -/

theorem u32_add_eq_iff {c k : ℕ} (hc : c < 2 ^ 32) (hk : k < 2 ^ 32) : u32 (c + k) = c ↔ k = 0 := by
  unfold u32
  omega

theorem sub32_add_eq_iff {c k : ℕ} (hc : c < 2 ^ 32) (hk : k < 2 ^ 32) :
    sub32 (u32 (c + k)) 1 = c ↔ k = 1 := by
  unfold sub32 u32
  omega

theorem Kept.balanced_iff_hits (htree : DentryTree inodes K fuel s hashed) {hits : List ℕ}
    (h : Kept s hits s') (hlen : hits.length < 2 ^ 32) (hsub : ∀ d ∈ hits, d ∈ s.live) :
    (∀ d ∈ s.live, d ∈ s'.live ∧ (s'.dentries d).dCount = (s.dentries d).dCount) ↔ hits = [] := by
  have hiff : ∀ d ∈ s.live, (s'.dentries d).dCount = (s.dentries d).dCount ↔ hits.count d = 0 := by
    intro d hd
    rw [(h d hd).2]
    exact u32_add_eq_iff (htree.count d hd).2 (List.count_le_length.trans_lt hlen)
  constructor
  · intro hall
    refine List.eq_nil_iff_forall_not_mem.mpr fun d hd => ?_
    have hd' := hsub d hd
    exact List.count_eq_zero.mp ((hiff d hd').mp (hall d hd').2) hd
  · rintro rfl d hd
    exact ⟨(h d hd).1, (hiff d hd).mpr List.count_nil⟩

theorem Kept.balanced_dput_iff (htree : DentryTree inodes K fuel s hashed) {hits : List ℕ} {base : ℕ}
    (h : Kept s hits s') (hlen : hits.length < 2 ^ 32) (hsub : ∀ d ∈ hits, d ∈ s.live)
    (hbase : base ∈ s.live) : (∀ d ∈ s.live, d ∈ (Model.dput s' (some base)).live ∧
      ((Model.dput s' (some base)).dentries d).dCount = (s.dentries d).dCount) ↔ hits = [base] := by
  have hbound : ∀ d, hits.count d < 2 ^ 32 := fun d => List.count_le_length.trans_lt hlen
  have hiff : ∀ d ∈ s.live, ((Model.dput s' (some base)).dentries d).dCount =
      (s.dentries d).dCount ↔ hits.count d = [base].count d := by
    intro d hd
    by_cases hdb : d = base
    · subst hdb
      rw [dput_dCount, (h d hd).2, List.count_singleton_self]
      exact sub32_add_eq_iff (htree.count d hd).2 (hbound d)
    · rw [dput_of_ne _ hdb, (h d hd).2, List.count_singleton]
      simp only [beq_iff_eq, Ne.symm hdb, if_false]
      exact u32_add_eq_iff (htree.count d hd).2 (hbound d)
  constructor
  · intro hall
    refine List.perm_singleton.mp (List.perm_iff_count.mpr fun d => ?_)
    by_cases hd : d ∈ s.live
    · exact (hiff d hd).mp (hall d hd).2
    · rw [List.count_eq_zero.mpr fun hm => hd (hsub d hm), List.count_eq_zero.mpr fun hm => ?_]
      rw [List.mem_singleton.mp hm] at hd
      exact hd hbase
  · rintro rfl d hd
    have hcount := (hiff d hd).mpr rfl
    refine ⟨?_, hcount⟩
    -- the count of the released dentry is as before, and was not zero
    rw [dput_live, if_neg fun hzero => ?_]
    · exact (h d hd).1
    · have hb := (hiff base hbase).mpr rfl
      rw [dput_dCount, hzero] at hb
      exact absurd hb (htree.count base hbase).1.ne

/-! ### Path lookup -/

theorem toRoot_live (hparent : ∀ d ∈ s.live, (s.dentries d).dParent ∈ s.live) {n d r : ℕ}
    (hd : d ∈ s.live) (h : toRoot s n d = .ok r) : r ∈ s.live := by
  induction n generalizing d with
  | zero => simp [toRoot] at h
  | succ n ih =>
    rw [toRoot] at h
    split at h
    · exact ih (hparent d hd) h
    · rwa [← Except.ok.inj h]

theorem DentryTree.start (htree : DentryTree inodes K fuel s hashed) {d : ℕ} (hd : d ∈ s.live)
    (path : List UInt8) : ∃ r ∈ s.live, startFrom s fuel path d = .ok r := by
  unfold startFrom
  split
  · obtain ⟨r, hr⟩ := htree.rooted d hd
    exact ⟨r, toRoot_live htree.parent hd hr, hr⟩
  · exact ⟨d, hd, rfl⟩

theorem DentryTree.matches_start (htree : DentryTree inodes K fuel v.cache hashed) {path : List UInt8}
    {d r : ℕ} (hr : r ∈ v.cache.live) (hstart : startFrom v.cache fuel path d = .ok r) :
    Matches inodes v.cache hashed v r (Trail.start v fuel path d) := by
  have hbase : (Trail.start v fuel path d).base = r := by
    rw [Trail.start, hstart]
    rfl
  refine ⟨⟨K, htree.table, htree.inodes⟩, fun e he => ⟨he, ?_⟩, rfl, rfl, rfl, ?_, ?_⟩
  · simp only [Trail.start, List.count_nil, Nat.add_zero, u32_of_lt (htree.count e he).2]
  · rwa [hbase]
  · exact hbase.symm

theorem pathLookup_eq {nd : NameIdata} {d r : ℕ} {path : List UInt8} (hnd : nd.dentry = some d)
    (hstart : startFrom v.cache fuel path d = .ok r) {found : Option ℕ} {v' : Vfs ω}
    (hwalk : walkComponents sv fuel v r (components (skipSlashes path)) = .ok (found, v'))
    (flags : ℕ) : pathLookup sv fuel v (some path) flags nd =
      .ok (if found.isSome then 0 else -1, ⟨some (found.getD r), flags, 0, none⟩, v') := by
  simp only [pathLookup, hnd, hstart, linkPathWalk, hwalk, Bind.bind, Except.bind]
  cases found <;> rfl

theorem balanced_of_pathLookup {nd nd' : NameIdata} {path : List UInt8} {flags : ℕ} {r : ℤ}
    {v' : Vfs ω} (h : pathLookup sv fuel v (some path) flags nd = .ok (r, nd', v')) :
    Balanced sv fuel v path flags nd ↔ ∀ d ∈ v.cache.live,
      d ∈ (if r = 0 then (pathRelease v' nd').2.cache else v'.cache).live ∧
        ((if r = 0 then (pathRelease v' nd').2.cache else v'.cache).dentries d).dCount =
          (v.cache.dentries d).dCount := by
  constructor
  · rintro ⟨r₁, nd₁, v₁, h₁, hall⟩
    rw [h] at h₁
    obtain ⟨rfl, hrest⟩ := Prod.mk.inj (Except.ok.inj h₁)
    obtain ⟨rfl, rfl⟩ := Prod.mk.inj hrest
    exact hall
  · exact fun hall => ⟨r, nd', v', h, hall⟩

/-- **The references of a path lookup balance if and only if the cache has no more of the path than
the dentry where the walk ends**, for every tree with counts, every path and every start. -/
theorem balanced_iff {inodes : Set ℕ} {ω : Type} (sv : Services inodes ω) {K : Link → Prop} {fuel : ℕ}
    {v : Vfs ω} {hashed : List ℕ} (htree : DentryTree inodes K fuel v.cache hashed) {nd : NameIdata}
    {d : ℕ} (hd : d ∈ v.cache.live) (hnd : nd.dentry = some d) {path : List UInt8}
    (hpath : path.length < 2 ^ 32) (flags : ℕ) :
    Balanced sv fuel v path flags nd ↔ Settled sv fuel v hashed path d := by
  obtain ⟨r, hr, hstart⟩ := htree.start hd path
  obtain ⟨⟨found, v'⟩, hwalk, hends⟩ := (htree.matches_start hr hstart).walk sv htree
    fun _ hc => components_ne_nil hc
  obtain ⟨hlen, hmem⟩ := Trail.follow_hits sv v.cache hashed (components (skipSlashes path))
    (Trail.start v fuel path d)
  rw [balanced_of_pathLookup (pathLookup_eq hnd hstart hwalk flags), Settled]
  generalize (Trail.start v fuel path d).follow sv v.cache hashed (components (skipSlashes path)) = t
    at hends hlen hmem ⊢
  obtain ⟨t, ok⟩ := t
  have hbound : t.hits.length < 2 ^ 32 := by
    have h₁ := length_components (skipSlashes path)
    have h₂ := length_skipSlashes path
    have h₃ : (Trail.start v fuel path d).hits.length = 0 := rfl
    dsimp only at hlen
    omega
  have hsub : ∀ e ∈ t.hits, e ∈ v.cache.live := by
    intro e he
    rcases hmem e he with h | h
    · simp [Trail.start] at h
    · exact htree.table.live e h
  cases found with
  | none =>
    obtain ⟨rfl, hkept⟩ := hends
    simpa using hkept.balanced_iff_hits htree hbound hsub
  | some e =>
    obtain ⟨rfl, hmatch⟩ := hends
    have htop := hmatch.top
    simp only [Option.isSome_some, if_true, true_and, Option.getD_some, pathRelease]
    cases habove : t.above with
    | nil =>
      rw [habove] at htop
      rw [htop, if_pos rfl]
      exact hmatch.kept.balanced_dput_iff htree hbound hsub hmatch.base
    | cons i above =>
      rw [habove] at htop
      rw [if_neg (by simp)]
      exact (hmatch.kept.dput htop.2.1).balanced_iff_hits htree hbound hsub

/-! ### A root, and a root with a child in the cache -/

/-- No object is left, and no directory has an entry. -/
def idleServices : Services {64} Unit where
  alloc _ := none
  search w _ _ := (none, w)
  fresh := by simp
  incore := by simp

/-- A root with an inode. -/
def rootCache (s : DentryCache) : DentryCache :=
  dInstantiate (dAlloc s (some 4096) none (some [slash])).2 (some 4096) (some 64)

/-- The root with a child `"a"`, which is hashed. -/
def childCache (s : DentryCache) : DentryCache :=
  enterHash (dAlloc (rootCache s) (some 8192) (some 4096) (some [97])).2 8192

theorem rootCache_root (s : DentryCache) : (rootCache s).dentries 4096 =
    { newDentry 4096 none (some [slash]) with dInode := some 64 } := by
  rw [rootCache, dInstantiate_self, dAlloc_self]

theorem rootCache_live (hlive : s.live = []) : (rootCache s).live = [4096] := by
  simp [rootCache, hlive]

theorem childCache_live (hlive : s.live = []) : (childCache s).live = [8192, 4096] := by
  simp [childCache, rootCache_live hlive]

theorem childCache_root (s : DentryCache) :
    (childCache s).dentries 4096 = (rootCache s).dentries 4096 := by
  rw [childCache, enterHash, upd_of_ne _ _ _ (by decide), listAdd_dentries,
    dAlloc_of_ne _ _ _ _ (by decide)]

theorem childCache_child (s : DentryCache) : ∃ f, (childCache s).dentries 8192 =
    { newDentry 8192 (some 4096) (some [97]) with dFlags := f } := by
  obtain ⟨f, hf⟩ := enterHash_dentries (dAlloc (rootCache s) (some 8192) (some 4096) (some [97])).2
    8192 8192
  exact ⟨f, hf⟩

section Start
variable (htable : Table K s []) (hlive : s.live = []) (hinode : K (.dentryOf 64))
include htable hlive hinode

theorem table_rootCache : Table (grow K 4096) (rootCache s) [] := by
  have halloc : Table (grow K 4096) (dAlloc s (some 4096) none (some [slash])).2 [] :=
    htable.dAlloc (by simp [hlive]) (by simp) _
  exact halloc.dInstantiate (by simp) (Or.inl (Or.inl (Or.inl hinode)))

theorem tree_rootCache : DentryTree {64} (grow K 4096) 1 (rootCache s) [] := by
  have hroot := rootCache_root s
  refine ⟨table_rootCache htable hlive hinode, fun i hi => ?_, fun d hd => ?_, fun d hd => ?_,
    fun d hd => ⟨4096, ?_⟩, by simp⟩
  · rw [Set.mem_singleton_iff.mp hi]
    exact Or.inl (Or.inl (Or.inl hinode))
  all_goals
    rw [rootCache_live hlive, List.mem_singleton] at hd
    rw [hd]
  · rw [hroot, rootCache_live hlive]
    simp [newDentry]
  · rw [hroot]
    simp [newDentry]
  · simp [toRoot, hroot, newDentry]

theorem tree_childCache : DentryTree {64} (grow (grow K 4096) 8192) 2 (childCache s) [8192] := by
  have hroot := (childCache_root s).trans (rootCache_root s)
  obtain ⟨f, hchild⟩ := childCache_child s
  have hparent : ∀ p, some 4096 = some p → p ∈ (rootCache s).live := by
    simp [rootCache_live hlive]
  have halloc := (table_rootCache htable hlive hinode).dAlloc (d := 8192)
    (by simp [rootCache_live hlive]) hparent (some [97])
  refine ⟨halloc.enterHash (by simp) (by simp), fun i hi => ?_, fun d hd => ?_, fun d hd => ?_,
    fun d hd => ⟨4096, ?_⟩, by simp⟩
  · rw [Set.mem_singleton_iff.mp hi]
    exact Or.inl (Or.inl (Or.inl (Or.inl (Or.inl (Or.inl hinode)))))
  all_goals
    rw [childCache_live hlive, List.mem_cons, List.mem_singleton] at hd
    rcases hd with rfl | rfl
  · rw [hchild, childCache_live hlive]
    simp [newDentry]
  · rw [hroot, childCache_live hlive]
    simp [newDentry]
  · rw [hchild]
    simp [newDentry]
  · rw [hroot]
    simp [newDentry]
  · simp [toRoot, hchild, hroot, newDentry]
  · simp [toRoot, hroot, newDentry]

end Start

theorem components_a : components [97] = [[97]] := by
  simp [components, getComponent, copyComponent, skipSlashes, slash]

theorem settled_childCache (s : DentryCache) :
    Settled idleServices 2 ⟨childCache s, fun _ => true, ()⟩ [8192] [97] 4096 := by
  have hroot := (childCache_root s).trans (rootCache_root s)
  obtain ⟨f, hchild⟩ := childCache_child s
  have hfound : cached (childCache s) [8192] 4096 [97] = some 8192 := by
    simp [cached, hchild, newDentry, dNameSize]
  have hskip : skipSlashes [97] = [97] := by decide
  have hstart : startFrom (childCache s) 2 [97] 4096 = .ok 4096 := rfl
  simp only [Settled, hskip, components_a, Trail.follow, Trail.enter, Trail.inode, Trail.found,
    Trail.start, hstart, Except.toOption, Option.getD_some, hroot, hfound]
  simp [dot]

theorem zeroCache_table : Table (InodeHead {64}) (dcacheInit true zeroCache) [] ∧
    (dcacheInit true zeroCache).live = [] := by
  refine table_dcacheInit ?_ ?_
  · rintro n ⟨i, -, rfl⟩
    trivial
  · exact fun n _ => ⟨Or.inr rfl, Or.inr rfl⟩

theorem balanced_cached_child : ∃ s K, DentryTree {64} K 2 s [8192] ∧
    Balanced idleServices 2 ⟨s, fun _ => true, ()⟩ [97] 0 ⟨some 4096, 0, 0, none⟩ := by
  obtain ⟨htable, hlive⟩ := zeroCache_table
  generalize dcacheInit true zeroCache = s at htable hlive
  have htree := tree_childCache htable hlive ⟨64, rfl, rfl⟩
  refine ⟨childCache s, _, htree, (balanced_iff idleServices htree ?_ rfl ?_ 0).mpr ?_⟩
  · simp [childCache_live hlive]
  · simp
  · exact settled_childCache s

/-- **The lookup of `"/"`** takes no reference on the root, and its release frees it. -/
theorem not_balanced_root : ∃ s K, DentryTree {64} K 1 s [] ∧ s.live = [4096] ∧
    ¬ Balanced idleServices 1 ⟨s, fun _ => true, ()⟩ [slash] 0 ⟨some 4096, 0, 0, none⟩ := by
  obtain ⟨htable, hlive⟩ := zeroCache_table
  generalize dcacheInit true zeroCache = s at htable hlive
  have htree := tree_rootCache htable hlive ⟨64, rfl, rfl⟩
  have hroot := rootCache_root s
  refine ⟨rootCache s, _, htree, rootCache_live hlive, fun hbal => ?_⟩
  have hstart : startFrom (rootCache s) 1 [slash] 4096 = .ok 4096 := by
    simp [startFrom, toRoot, hroot, newDentry]
  have hcomp : components (skipSlashes [slash]) = [] := by
    simp [skipSlashes, components, getComponent, copyComponent]
  have hwalk : walkComponents idleServices 1 ⟨rootCache s, fun _ => true, ()⟩ 4096
      (components (skipSlashes [slash])) = .ok (some 4096, ⟨rootCache s, fun _ => true, ()⟩) := by
    rw [hcomp]
    rfl
  rw [balanced_of_pathLookup (pathLookup_eq rfl hstart hwalk 0)] at hbal
  have hgone := (hbal 4096 (by simp [rootCache_live hlive])).1
  simp [pathRelease, dput_live, hroot, newDentry, sub32, rootCache_live hlive] at hgone

end YegaKernel.Fs.Dcache.Walk
