import YegaKernel.Fs.Dcache.Tree
import YegaKernel.Lib.Runs

/-! # Runs of the dentry tree

The calls that build and change the tree, on dentries that are in use. Three of them break the
lists: `d_instantiate`, and with it `d_add`, links a dentry that is on the list of its parent to the
list of its inode by the same node; `d_move` changes `d_parent` without moving the node, and links a
dentry with an inode once more; `dput` frees a root that is on the list of its inode. `Suits` keeps
clear of these cases, and in every run that does the lists are right in every state
(`treeOk_of_run`).

The list `i_dentry` has to be there in the first place: `inode_init` leaves NULL in it, which is no
circular list (`not_treeOk_of_null`). -/

namespace YegaKernel.Fs.Dcache.TreeRun

open Lib.Links Lib.Families Lib.Word Lib.Runs
open Fs.Dcache.Model Fs.Dcache.Hash Fs.Dcache.Tree
open Relation (ReflTransGen)

/-- A call, with the object that `kmem_cache_alloc` gives. -/
inductive Call
  | alloc (obj parent : Option ℕ) (name : Option (List UInt8))
  | allocRoot (obj inode : Option ℕ)
  | instantiate (d : ℕ) (inode : Option ℕ)
  | add (d : ℕ) (inode : Option ℕ)
  | move (d target : ℕ)
  | put (d : ℕ)

/-- The code of a call. -/
def perform (s : DentryCache) : Call → DentryCache
  | .alloc obj parent name => (dAlloc s obj parent name).2
  | .allocRoot obj inode => (dAllocRoot s obj inode).2
  | .instantiate d inode => dInstantiate s (some d) inode
  | .add d inode => dAdd s (some d) inode
  | .move d target => dMove s (some d) (some target)
  | .put d => dput s (some d)

def step (s : DentryCache) (c : Call) : Option DentryCache := some (perform s c)

/-- **The calls of a run**: a new object is not in use, dentries and inodes that are passed
exist. -/
def Valid (inodes : Set ℕ) (s : DentryCache) : Call → Prop
  | .alloc obj parent _ =>
    (∀ d, obj = some d → d ∉ s.live) ∧ ∀ p, parent = some p → p ∈ s.live
  | .allocRoot obj inode => (∀ d, obj = some d → d ∉ s.live) ∧ ∀ i, inode = some i → i ∈ inodes
  | .instantiate d inode => d ∈ s.live ∧ ∀ i, inode = some i → i ∈ inodes
  | .add d inode => d ∈ s.live ∧ ∀ i, inode = some i → i ∈ inodes
  | .move d target => d ∈ s.live ∧ target ∈ s.live
  | .put d => d ∈ s.live

/-- A root that has no inode yet. -/
def FreeRoot (s : DentryCache) (d : ℕ) : Prop :=
  (s.dentries d).dParent = d ∧ (s.dentries d).dInode = none

/-- **The calls that keep the lists right**: an inode is given to a root that has none; `d_move` is
for a dentry without an inode and a target with the same parent; and a dentry that is freed has no
children and is not a root with an inode. -/
def Suits (s : DentryCache) : Call → Prop
  | .alloc _ _ _ => True
  | .allocRoot _ _ => True
  | .instantiate d inode => inode = none ∨ FreeRoot s d
  | .add d inode => inode = none ∨ FreeRoot s d
  | .move d target =>
    (s.dentries d).dInode = none ∧ (s.dentries target).dParent = (s.dentries d).dParent
  | .put d => sub32 (s.dentries d).dCount 1 = 0 →
    ((s.dentries d).dParent = d → (s.dentries d).dInode = none) ∧
      ∀ e ∈ s.live, (s.dentries e).dParent = d → e = d

variable {inodes : Set ℕ} {H : Link → Prop} {s s' : DentryCache} {B : Owner → List ℕ} {d : ℕ}

/-! ### The steps -/

/-- The lists are in order, whatever they hold. -/
def Sound (inodes : Set ℕ) (s : DentryCache) : Prop := ∃ H B, Forest inodes H s B

section
variable (h : Sound inodes s)
include h

theorem sound_instantiate (hd : d ∈ s.live) {inode : Option ℕ}
    (hinode : ∀ i, inode = some i → i ∈ inodes) (hsuit : inode = none ∨ FreeRoot s d) :
    Sound inodes (dInstantiate s (some d) inode) := by
  cases inode with
  | none => exact h
  | some i =>
    obtain ⟨H, B, hf⟩ := h
    obtain ⟨hroot, hnone⟩ := hsuit.resolve_left (by simp)
    exact ⟨H, _, hf.dInstantiate hd hroot hnone (hinode i rfl)⟩

theorem sound_alloc {obj parent : Option ℕ} (hobj : ∀ d, obj = some d → d ∉ s.live)
    (hparent : ∀ p, parent = some p → p ∈ s.live) (name : Option (List UInt8)) :
    Sound inodes (dAlloc s obj parent name).2 := by
  cases obj with
  | none => exact h
  | some d =>
    obtain ⟨H, B, hf⟩ := h
    obtain ⟨B', hf'⟩ := hf.dAlloc (hobj d rfl) hparent name
    exact ⟨_, B', hf'⟩

theorem sound_allocRoot {obj inode : Option ℕ}
    (hobj : ∀ d, obj = some d → d ∉ s.live) (hinode : ∀ i, inode = some i → i ∈ inodes) :
    Sound inodes (dAllocRoot s obj inode).2 := by
  cases inode with
  | none => exact h
  | some i =>
    have hnew : Sound inodes (dAlloc s obj none (some [47])).2 :=
      sound_alloc h hobj (by simp) (some [47])
    cases obj with
    | none => exact hnew
    | some d =>
      have hfree : FreeRoot (dAlloc s (some d) none (some [47])).2 d := by
        rw [FreeRoot, dAlloc_self]
        exact ⟨rfl, rfl⟩
      exact sound_instantiate hnew (by simp) hinode (Or.inr hfree)

theorem sound_enterHash (hd : d ∈ s.live) : Sound inodes (enterHash s d) := by
  obtain ⟨H, B, hf⟩ := h
  exact ⟨H, B, hf.enterHash hd⟩

theorem sound_add (hd : d ∈ s.live) {inode : Option ℕ}
    (hinode : ∀ i, inode = some i → i ∈ inodes) (hsuit : inode = none ∨ FreeRoot s d) :
    Sound inodes (dAdd s (some d) inode) := by
  have hinst := sound_instantiate h hd hinode hsuit
  cases inode with
  | none => exact sound_enterHash h hd
  | some i => exact sound_enterHash hinst (by simpa using hd)

theorem sound_move {target : ℕ} (hd : d ∈ s.live) (hnone : (s.dentries d).dInode = none)
    (hsame : (s.dentries target).dParent = (s.dentries d).dParent) :
    Sound inodes (dMove s (some d) (some target)) := by
  obtain ⟨H, B, hf⟩ := h
  obtain ⟨f, hfd⟩ := dDelete_dentries s d d
  obtain ⟨g, hgt⟩ := dDelete_dentries s d target
  have hparent : ((dDelete s (some d)).dentries target).dParent =
      ((dDelete s (some d)).dentries d).dParent := by rw [hgt, hfd, hsame]
  have hup := (hf.dDelete hd).upd d (f := fun e =>
    { e with dParent := ((dDelete s (some d)).dentries target).dParent }) hparent rfl
  have hinode : (((dDelete s (some d)).upd d fun e => { e with
      dParent := ((dDelete s (some d)).dentries target).dParent }).dentries d).dInode = none := by
    rw [upd_self, hfd]
    exact hnone
  rw [dMove, hinode]
  exact ⟨H, B, hup.enterHash (by simpa using hd)⟩

theorem sound_put (hd : d ∈ s.live) (hsuit : Suits s (.put d)) :
    Sound inodes (dput s (some d)) := by
  obtain ⟨H, B, hf⟩ := h
  by_cases hzero : sub32 (s.dentries d).dCount 1 = 0
  · obtain ⟨hroot, hleaf⟩ := hsuit hzero
    exact ⟨H, _, hf.free hd hzero hroot hleaf⟩
  · rw [dput_of_ne_zero hzero]
    exact ⟨H, B, hf.upd d rfl rfl⟩

theorem sound_perform {c : Call} (hc : Valid inodes s c) (hsuit : Suits s c) :
    Sound inodes (perform s c) := by
  cases c with
  | alloc obj parent name => exact sound_alloc h hc.1 hc.2 name
  | allocRoot obj inode => exact sound_allocRoot h hc.1 hc.2
  | instantiate d inode => exact sound_instantiate h hc.1 hc.2 hsuit
  | add d inode => exact sound_add h hc.1 hc.2 hsuit
  | move d target => exact sound_move h hc.1 hsuit.1 hsuit.2
  | put d => exact sound_put h hc hsuit

end

/-! ### The start -/

/-- The buckets of the hash table. -/
def BucketNode (n : Link) : Prop := ∃ i < dentryHashSize, n = .bucket i

theorem sound_init (hs : ∀ i ∈ inodes, Ring s (.dentryOf i) []) :
    Sound inodes (dcacheInit true s) := by
  obtain ⟨hlinked, hsame, hlive⟩ :=
    initBuckets_spec (List.range dentryHashSize) { s with live := [] }
  have hnil : (dcacheInit true s).live = [] := hlive
  have hbucket : ∀ i < dentryHashSize, Linked (dcacheInit true s) (.bucket i) (.bucket i) :=
    fun i hi => hlinked i (Or.inl (List.mem_range.mpr hi))
  refine ⟨BucketNode, fun _ => [], ⟨fun o ho => ?_, fun o o' ho ho' hne a ha b hb => ?_⟩,
    fun o ho e => ?_, by simp [hnil], by simp [hnil], by simp [hnil], ?_, fun i hi => ⟨i, hi, rfl⟩,
    by simp [hnil], ?_⟩
  · cases o with
    | parent p => simp [Owner.Here, hnil] at ho
    | inode i =>
      refine (hs i ho).transport fun n hn => hsame n ?_
      rw [List.mem_singleton.mp hn]
      simp
  · refine apart_of_ne _ _ fun heq => hne ?_
    cases o <;> cases o' <;> simp_all [Owner.head]
  · simp [hnil]
  · rintro n ⟨i, -, rfl⟩
    trivial
  · rintro n ⟨i, hi, rfl⟩
    rw [(hbucket i hi).1, (hbucket i hi).2]
    exact ⟨Or.inl ⟨i, hi, rfl⟩, Or.inl ⟨i, hi, rfl⟩⟩

/-! ### Runs -/

/-- **The lists are right along every run that keeps to `Suits`**, if they are at the start. A
dentry that is freed leaves its list, and every other list holds the same dentries in the same
order. -/
theorem treeOk_of_run {inodes : Set ℕ} {s₀ s : DentryCache}
    (hs : ∀ i ∈ inodes, Ring s₀ (.dentryOf i) [])
    (hrun : ReflTransGen (Acts (fun s c => Valid inodes s c ∧ Suits s c) step) (dcacheInit true s₀) s) :
    TreeOk inodes s ∧ ∀ d, Valid inodes s (.put d) → Suits s (.put d) →
      sub32 (s.dentries d).dCount 1 = 0 → ∀ o : Owner, o.Here inodes (dput s (some d)).live →
        ∀ ds : List ℕ, Ring s o.head (ds.map .childOf) →
          Ring (dput s (some d)) o.head ((ds.erase d).map .childOf) := by
  have hinit := sound_init hs
  generalize dcacheInit true s₀ = t at hinit hrun
  obtain ⟨H, B, hf⟩ : Sound inodes s := by
    refine invariant_of_run (I := Sound inodes) ?_ hinit hrun
    rintro s₁ s₂ h ⟨c, ⟨hc, hsuit⟩, hstep⟩
    obtain rfl := Option.some.inj hstep
    exact sound_perform h hc hsuit
  refine ⟨hf.treeOk, fun d hd hsuit hzero o ho ds hring => ?_⟩
  obtain ⟨hroot, hleaf⟩ := hsuit hzero
  have hfree := hf.free hd hzero hroot hleaf
  have ho' : o.Here inodes s.live := by
    rw [dput_of_zero hzero, discard_live] at ho
    cases o with
    | parent p => exact List.mem_of_mem_erase ho
    | inode i => exact ho
  have hds : ds = B o :=
    List.map_injective_iff.mpr (fun _ _ h => Link.childOf.inj h) (hring.unique (hf.rings.ring o ho'))
  rw [hds]
  exact hfree.rings.ring o ho

/-- Every inode has an empty list; the other words are zero. -/
def emptyLists : DentryCache where
  dentries _ := ⟨0, 0, none, 0, []⟩
  links
    | .dentryOf i => ⟨.dentryOf i, .dentryOf i⟩
    | _ => ⟨.null, .null⟩
  live := []

theorem emptyLists_ring (i : ℕ) : Ring emptyLists (.dentryOf i) [] := ring_nil ⟨rfl, rfl⟩

theorem emptyLists_live : (dcacheInit true emptyLists).live = [] :=
  (initBuckets_spec (List.range dentryHashSize) emptyLists).2.2

/-- The runs of `treeOk_of_run`, with one inode. -/
abbrev SuitedRun : DentryCache → DentryCache → Prop :=
  ReflTransGen (Acts (fun s c => Valid {64} s c ∧ Suits s c) step)

theorem run_childFreed (hlive : s.live = [4096]) (hroot : (s.dentries 4096).dParent = 4096) :
    ∃ s', SuitedRun s s' ∧ s'.live = [4096] := by
  have hself := dAlloc_self s 8192 (some 4096) (some [97])
  have hparent : ((dAlloc s (some 8192) (some 4096) (some [97])).2.dentries 4096).dParent = 4096 := by
    rw [dAlloc_of_ne _ _ _ _ (by decide), hroot]
  have hzero : sub32 ((dAlloc s (some 8192) (some 4096) (some [97])).2.dentries 8192).dCount 1 = 0 := by
    rw [hself]
    rfl
  have h₁ : SuitedRun s _ :=
    .single ⟨.alloc (some 8192) (some 4096) (some [97]), by simp [Valid, Suits, hlive], rfl⟩
  refine ⟨_, h₁.tail ⟨.put 8192, ⟨by simp [Valid, perform], fun _ => ⟨?_, ?_⟩⟩, rfl⟩, ?_⟩
  · exact fun _ => rfl
  · intro e he
    rw [perform, dAlloc_live, hlive] at he
    rcases List.mem_cons.mp he with rfl | he
    · exact fun _ => rfl
    · rw [List.mem_singleton.mp he, perform, hparent]
      exact fun h => h
  · rw [perform, perform, dput_of_zero hzero, discard_live, upd_live, dAlloc_live, hlive]
    rfl

theorem run_freedChild (h : s.live = []) : ∃ s', SuitedRun s s' ∧ s'.live = [4096] := by
  have hroot : (dAllocRoot s (some 4096) (some 64)).2 =
      dInstantiate (dAlloc s (some 4096) none (some [47])).2 (some 4096) (some 64) := rfl
  have h₁ : SuitedRun s (dAllocRoot s (some 4096) (some 64)).2 :=
    .single ⟨.allocRoot (some 4096) (some 64), by simp [Valid, Suits, h], rfl⟩
  obtain ⟨s', h₂, hlive⟩ := run_childFreed (s := (dAllocRoot s (some 4096) (some 64)).2)
    (by simp [hroot, h]) rfl
  exact ⟨s', h₁.trans h₂, hlive⟩

theorem treeOk_of_run_freedChild : ∃ s, s.live = [4096] ∧ TreeOk {64} s := by
  obtain ⟨s, hrun, hlive⟩ := run_freedChild emptyLists_live
  exact ⟨s, hlive, (treeOk_of_run (fun i _ => emptyLists_ring i) hrun).1⟩

/-! ### What breaks the lists -/

theorem not_treeOk_of_null {i : ℕ} (hi : i ∈ inodes)
    (hnull : LinkStore.next s (Link.dentryOf i) = .null) : ¬ TreeOk inodes s := by
  intro h
  obtain ⟨ds, hring, -⟩ := h (.inode i) hi
  have hmem := hring.next_mem
  rw [Owner.head, hnull] at hmem
  simp at hmem

/-- **A child with an inode**: every call of the run is valid, and the lists are not right. -/
theorem not_treeOk_instantiated_child : (∀ i, Ring emptyLists (.dentryOf i) []) ∧
    ∃ s, ReflTransGen (Acts (Valid {64}) step) (dcacheInit true emptyLists) s ∧
      ¬ TreeOk {64} s := by
  refine ⟨emptyLists_ring, ?_⟩
  have hlive := emptyLists_live
  generalize dcacheInit true emptyLists = s at hlive ⊢
  have h₁ : ReflTransGen (Acts (Valid {64}) step) s _ :=
    .single ⟨.alloc (some 4096) none (some [47]), by simp [Valid, hlive], rfl⟩
  have h₂ := h₁.tail ⟨.alloc (some 8192) (some 4096) (some [97]), by simp [Valid, perform, hlive], rfl⟩
  have h₃ := h₂.tail ⟨.instantiate 8192 (some 64), by simp [Valid, perform, hlive], rfl⟩
  refine ⟨_, h₃, fun hok => ?_⟩
  have hself : (perform (perform (perform s (.alloc (some 4096) none (some [47])))
      (.alloc (some 8192) (some 4096) (some [97]))) (.instantiate 8192 (some 64))).dentries 8192 =
      { newDentry 8192 (some 4096) (some [97]) with dInode := some 64 } := by
    refine (dInstantiate_self _ 8192 64).trans ?_
    simp only [perform, dAlloc_self]
  have hroot := hok.root_of_inode (d := 8192) (i := 64) (by simp [perform])
    (by rw [hself]; simp [newDentry, perform]) rfl (by rw [hself])
  rw [hself] at hroot
  simp [newDentry] at hroot

end YegaKernel.Fs.Dcache.TreeRun
