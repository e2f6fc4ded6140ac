import YegaKernel.Fs.Dcache.Hash
import YegaKernel.Lib.Runs

/-! # The hash table as a partial map

The calls `d_alloc`, `d_add`, `d_delete`, `d_rehash` and `d_lookup`, in any order from
`dcache_init`. `Book` is what they should amount to: which dentries are hashed, the one hashed last
in front, and which were deleted and not hashed since. `d_lookup` then finds the first hashed dentry
that has the parent and the name (`dLookup_refines_book`).

`d_rehash` puts back a dentry that was deleted. On one that was never hashed it does nothing, as on
one that is hashed: a new dentry does not have the flag `DCACHE_UNHASHED`. -/

namespace YegaKernel.Fs.Dcache.HashRun

open Lib.Links Lib.Word Lib.Runs Function
open Fs.Dcache.Model Fs.Dcache.Hash
open Relation (ReflTransGen)

/-! ### The partial map -/

/-- **What the calls amount to**: the parent and the name of each dentry, the hashed dentries with
the one hashed last in front, the deleted ones that were not hashed since, and how many lookups
there were. -/
structure Book where
  key : ℕ → ℕ × List UInt8
  hashed : List ℕ
  deleted : List ℕ
  lookups : ℕ

/-- Nothing is hashed yet. -/
def Book.blank : Book := ⟨fun _ => (0, []), [], [], 0⟩

/-- The dentry most recently hashed, and not deleted since, with the parent and the name. -/
def Book.find (b : Book) (parent : ℕ) (name : List UInt8) : Option ℕ :=
  b.hashed.find? fun d => b.key d = (parent, name)

/-- A call, with the object that `kmem_cache_alloc` gives and the fuel of a traversal. -/
inductive Call
  | alloc (obj parent : Option ℕ) (name : Option (List UInt8))
  | add (d : ℕ) (inode : Option ℕ)
  | delete (d : ℕ)
  | rehash (d : ℕ)
  | lookup (fuel : ℕ) (parent : Option ℕ) (name : Option (List UInt8))

def Book.hash (b : Book) (d : ℕ) : Book :=
  { b with hashed := d :: b.hashed, deleted := b.deleted.filter (· ≠ d) }

/-- What a call does to the partial map. -/
def Book.note (b : Book) : Call → Book
  | .alloc none _ _ => b
  | .alloc (some d) parent name =>
    { b with key := update b.key d (parent.getD d, name.getD []) }
  | .add d _ => b.hash d
  | .delete d => { b with hashed := b.hashed.erase d, deleted := b.deleted.insert d }
  | .rehash d => if d ∈ b.deleted then b.hash d else b
  | .lookup _ _ _ => { b with lookups := b.lookups + 1 }

/-! ### Runs -/

/-- The code of a call. -/
def perform (s : DentryCache) : Call → Except Fault DentryCache
  | .alloc obj parent name => .ok (dAlloc s obj parent name).2
  | .add d inode => .ok (dAdd s (some d) inode)
  | .delete d => .ok (dDelete s (some d))
  | .rehash d => .ok (dRehash s (some d))
  | .lookup fuel parent name => (dLookup fuel s parent name).map Prod.snd

/-- One call, by the code and in the book. -/
def step (σ : DentryCache × Book) (c : Call) : Option (DentryCache × Book) :=
  (perform σ.1 c).toOption.map fun s => (s, σ.2.note c)

/-- **The calls of a run**: a new object is not in use, dentries and inodes that are passed exist, a
name fits into `d_name`, `d_add` is for a dentry that is not hashed, and no traversal is cut
short. -/
def Allowed (inodes : Set ℕ) (σ : DentryCache × Book) : Call → Prop
  | .alloc obj parent name => (∀ d, obj = some d → d ∉ σ.1.live) ∧
      (∀ p, parent = some p → p ∈ σ.1.live) ∧ (name.getD []).length ≤ 29
  | .add d inode => d ∈ σ.1.live ∧ d ∉ σ.2.hashed ∧ ∀ i, inode = some i → i ∈ inodes
  | .delete d => d ∈ σ.1.live
  | .rehash d => d ∈ σ.1.live
  | .lookup fuel _ _ => σ.1.live.length < fuel

/-- The calls made one after the other. -/
abbrev Run (inodes : Set ℕ) : DentryCache × Book → DentryCache × Book → Prop :=
  ReflTransGen (Acts (Allowed inodes) step)

/-! ### The book describes the cache -/

/-- **The cache is as the book says.** -/
structure Refines (inodes : Set ℕ) (K : Link → Prop) (s : DentryCache) (b : Book) : Prop where
  table : Table K s b.hashed
  key : ∀ d ∈ s.live, b.key d = ((s.dentries d).dParent, (s.dentries d).dName)
  deleted : ∀ d ∈ s.live, d ∈ b.deleted ↔ Unhashed s d
  inodes : ∀ i ∈ inodes, K (.dentryOf i)
  count : ∀ d ∈ s.live, (s.dentries d).dCount ≤ b.lookups + 1
  known : ∀ d ∈ b.deleted, d ∈ s.live

variable {inodes : Set ℕ} {K : Link → Prop} {s s' : DentryCache} {b : Book} {d : ℕ}

section
variable (h : Refines inodes K s b)
include h

theorem Refines.find_eq (parent : ℕ) (name : List UInt8) :
    cached s b.hashed parent name = b.find parent name := by
  refine List.find?_congr fun d hd => ?_
  rw [h.key d (h.table.live d hd)]
  simp

/-- **`d_lookup` finds what the book says.** -/
theorem Refines.dLookup_eq (parent : ℕ) (name : List UInt8) {fuel : ℕ}
    (hfuel : s.live.length < fuel) :
    dLookup fuel s (some parent) (some name) = .ok (answer s (b.find parent name)) := by
  have hlen := h.table.length_le
  rw [h.table.dLookup_eq parent name (by omega), h.find_eq]

theorem Refines.dCount_add_one (hd : d ∈ s.live) (hb : b.lookups + 2 < 2 ^ 32) :
    ((countUp s d).dentries d).dCount = (s.dentries d).dCount + 1 := by
  have hc := h.count d hd
  rw [countUp, upd_self]
  exact u32_of_lt (by omega)

theorem Refines.find_live {parent : ℕ} {name : List UInt8}
    (hf : b.find parent name = some d) : d ∈ s.live :=
  h.table.live d (List.mem_of_find?_eq_some hf)

end

/-! ### One lemma for each call -/

section
variable (h : Refines inodes K s b)
include h

theorem Refines.alloc (hd : d ∉ s.live) {parent : Option ℕ}
    (hparent : ∀ p, parent = some p → p ∈ s.live) {name : Option (List UInt8)}
    (hname : (name.getD []).length ≤ 29) :
    Refines inodes (grow K d) (dAlloc s (some d) parent name).2
      (b.note (.alloc (some d) parent name)) := by
  have hne : ∀ e ∈ s.live, e ≠ d := fun e he hed => hd (hed ▸ he)
  refine ⟨h.table.dAlloc hd hparent name, fun e he => ?_, fun e he => ?_,
    fun i hi => Or.inl (Or.inl (Or.inl (h.inodes i hi))), fun e he => ?_, fun e he => ?_⟩
  · rw [dAlloc_live] at he
    rcases List.mem_cons.mp he with rfl | he
    · simp only [Book.note, update_self, dAlloc_self, newDentry]
      rw [show dNameSize - 1 = 29 from rfl, List.take_of_length_le hname]
    · simp only [Book.note, update_of_ne (hne e he), dAlloc_of_ne _ _ _ _ (hne e he)]
      exact h.key e he
  · rw [dAlloc_live] at he
    rcases List.mem_cons.mp he with rfl | he
    · have hflag : ¬ Unhashed (dAlloc s (some e) parent name).2 e := by
        rw [Unhashed, dAlloc_self]
        simp [newDentry]
      exact iff_of_false (fun hm => hd (h.known e hm)) hflag
    · simp only [Unhashed, dAlloc_of_ne _ _ _ _ (hne e he)]
      exact h.deleted e he
  · rw [dAlloc_live] at he
    rcases List.mem_cons.mp he with rfl | he
    · rw [dAlloc_self]
      exact Nat.le_add_left 1 b.lookups
    · rw [dAlloc_of_ne _ _ _ _ (hne e he)]
      exact h.count e he
  · rw [dAlloc_live]
    exact List.mem_cons_of_mem _ (h.known e he)

theorem Refines.of_table {hashed deleted : List ℕ}
    (htable : Table K s' hashed) (hlive : s'.live = s.live)
    (hsame : ∀ e, (s'.dentries e).dParent = (s.dentries e).dParent ∧
      (s'.dentries e).dName = (s.dentries e).dName ∧ (s'.dentries e).dCount = (s.dentries e).dCount)
    (hdeleted : ∀ e ∈ s.live, e ∈ deleted ↔ Unhashed s' e) (hknown : ∀ e ∈ deleted, e ∈ s.live) :
    Refines inodes K s' { b with hashed := hashed, deleted := deleted } := by
  refine ⟨htable, fun e he => ?_, ?_, h.inodes, fun e he => ?_, ?_⟩
  · rw [hlive] at he
    rw [(hsame e).1, (hsame e).2.1]
    exact h.key e he
  · rwa [hlive]
  · rw [hlive] at he
    rw [(hsame e).2.2]
    exact h.count e he
  · rwa [hlive]

section
variable (hd : d ∈ s.live)
include hd

theorem Refines.hash (hnot : d ∉ b.hashed) : Refines inodes K (enterHash s d) (b.hash d) := by
  refine h.of_table (h.table.enterHash hd hnot) rfl (fun e => ?_) (fun e he => ?_) fun e he => ?_
  · obtain ⟨f, hf⟩ := enterHash_dentries s d e
    rw [hf]
    exact ⟨rfl, rfl, rfl⟩
  · rw [unhashed_enterHash, List.mem_filter, h.deleted e he, and_comm]
    simp
  · exact h.known e (List.mem_of_mem_filter he)

theorem Refines.instantiate {i : ℕ} (hi : i ∈ inodes) :
    Refines inodes K (dInstantiate s (some d) (some i)) b := by
  refine h.of_table (h.table.dInstantiate hd (h.inodes i hi)) rfl (fun e => ?_) (fun e he => ?_)
    h.known
  · by_cases hed : e = d
    · subst hed
      rw [dInstantiate_self]
      exact ⟨rfl, rfl, rfl⟩
    · rw [dInstantiate_of_ne _ _ hed]
      exact ⟨rfl, rfl, rfl⟩
  · rw [h.deleted e he]
    by_cases hed : e = d
    · subst hed
      rw [Unhashed, Unhashed, dInstantiate_self]
    · rw [Unhashed, Unhashed, dInstantiate_of_ne _ _ hed]

theorem Refines.add (hnot : d ∉ b.hashed)
    {inode : Option ℕ} (hinode : ∀ i, inode = some i → i ∈ inodes) :
    Refines inodes K (dAdd s (some d) inode) (b.note (.add d inode)) := by
  cases inode with
  | none => exact h.hash hd hnot
  | some i => exact (h.instantiate hd (hinode i rfl)).hash hd hnot

theorem Refines.delete : Refines inodes K (dDelete s (some d)) (b.note (.delete d)) := by
  refine h.of_table (h.table.dDelete hd) (dDelete_live s _) (fun e => ?_) (fun e he => ?_)
    fun e he => ?_
  · obtain ⟨f, hf⟩ := dDelete_dentries s d e
    rw [hf]
    exact ⟨rfl, rfl, rfl⟩
  · rw [unhashed_dDelete, List.mem_insert_iff, h.deleted e he]
  · rcases List.mem_insert_iff.mp he with rfl | he
    · exact hd
    · exact h.known e he

theorem Refines.rehash : Refines inodes K (dRehash s (some d)) (b.note (.rehash d)) := by
  by_cases hu : Unhashed s d
  · have hm := (h.deleted d hd).mpr hu
    simp only [dRehash, dUnhashed, hu, decide_true, not_true_eq_false, if_false, Book.note, hm,
      if_true]
    exact h.hash hd fun hh => h.table.flag d hh hu
  · have hm : d ∉ b.deleted := fun hm => hu ((h.deleted d hd).mp hm)
    simpa only [dRehash, dUnhashed, hu, decide_false, Bool.false_eq_true, not_false_eq_true, if_true,
      Book.note, hm, if_false] using h

end

theorem Refines.countUp (d : ℕ) :
    Refines inodes K (countUp s d) { b with lookups := b.lookups + 1 } := by
  have hfield : ∀ e, ((Model.countUp s d).dentries e).dParent = (s.dentries e).dParent ∧
      ((Model.countUp s d).dentries e).dName = (s.dentries e).dName ∧
      ((Model.countUp s d).dentries e).dFlags = (s.dentries e).dFlags ∧
      ((Model.countUp s d).dentries e).dCount ≤ (s.dentries e).dCount + 1 := by
    intro e
    by_cases hed : e = d
    · subst hed
      rw [Model.countUp, upd_self]
      exact ⟨rfl, rfl, rfl, Nat.mod_le _ _⟩
    · rw [Model.countUp, upd_of_ne _ _ _ hed]
      exact ⟨rfl, rfl, rfl, Nat.le_succ _⟩
  refine ⟨h.table.countUp d, fun e he => ?_, fun e he => ?_, h.inodes, fun e he => ?_, h.known⟩
  · rw [(hfield e).1, (hfield e).2.1]
    exact h.key e he
  · rw [Unhashed, (hfield e).2.2.1]
    exact h.deleted e he
  · exact (hfield e).2.2.2.trans (Nat.succ_le_succ (h.count e he))

theorem Refines.missed : Refines inodes K s { b with lookups := b.lookups + 1 } :=
  ⟨h.table, h.key, h.deleted, h.inodes, fun e he => (h.count e he).trans (Nat.le_succ _), h.known⟩

theorem Refines.lookup {fuel : ℕ} (hfuel : s.live.length < fuel)
    (parent : Option ℕ) (name : Option (List UInt8)) : ∃ r, dLookup fuel s parent name = .ok r ∧
      Refines inodes K r.2 (b.note (.lookup fuel parent name)) := by
  cases parent with
  | none => exact ⟨(none, s), rfl, h.missed⟩
  | some p =>
    cases name with
    | none => exact ⟨(none, s), rfl, h.missed⟩
    | some n =>
      refine ⟨_, h.dLookup_eq p n hfuel, ?_⟩
      cases b.find p n with
      | none => exact h.missed
      | some d => exact h.countUp d

/-- **Every call is carried out as the book says.** -/
theorem Refines.step {c : Call} (hc : Allowed inodes (s, b) c) :
    ∃ s' K', perform s c = .ok s' ∧ Refines inodes K' s' (b.note c) := by
  cases c with
  | alloc obj parent name =>
    cases obj with
    | none => exact ⟨s, K, rfl, h⟩
    | some d => exact ⟨_, _, rfl, h.alloc (hc.1 d rfl) hc.2.1 hc.2.2⟩
  | add d inode => exact ⟨_, K, rfl, h.add hc.1 hc.2.1 hc.2.2⟩
  | delete d => exact ⟨_, K, rfl, h.delete hc⟩
  | rehash d => exact ⟨_, K, rfl, h.rehash hc⟩
  | lookup fuel parent name =>
    obtain ⟨r, hr, hrefines⟩ := h.lookup hc parent name
    exact ⟨r.2, K, by rw [perform, hr]; rfl, hrefines⟩

end

/-! ### Runs -/

/-- The list heads of the inodes before any dentry is there. -/
def InodeHead (inodes : Set ℕ) (n : Link) : Prop := ∃ i ∈ inodes, n = .dentryOf i

theorem refines_init (hs : Confined (InodeHead inodes) .null s) :
    Refines inodes (InodeHead inodes) (dcacheInit true s) .blank := by
  have htree : ∀ n, InodeHead inodes n → TreeNode n := by
    rintro n ⟨i, -, rfl⟩
    trivial
  obtain ⟨htable, hlive⟩ := table_dcacheInit htree hs
  exact ⟨htable, by simp [hlive], by simp [hlive], fun i hi => ⟨i, hi, rfl⟩, by simp [hlive],
    by simp [Book.blank]⟩

theorem refines_of_run (hs : Confined (InodeHead inodes) .null s) {σ : DentryCache × Book}
    (hrun : Run inodes (dcacheInit true s, .blank) σ) : ∃ K, Refines inodes K σ.1 σ.2 := by
  have hinit := refines_init hs
  generalize dcacheInit true s = s at hinit hrun
  refine invariant_of_run (I := fun σ => ∃ K, Refines inodes K σ.1 σ.2) ?_ ⟨_, hinit⟩ hrun
  rintro σ σ' ⟨K, h⟩ ⟨c, hc, hstep⟩
  obtain ⟨s', K', hperform, h'⟩ := h.step hc
  rw [HashRun.step, hperform] at hstep
  obtain rfl := Option.some.inj hstep
  exact ⟨K', h'⟩

/-- **The dentry hash is a partial map.** After any calls no further call faults, and `d_lookup`
gives the dentry most recently hashed and not since deleted with the parent and the name: it counts
one reference to it and changes nothing else. If there is none it gives NULL and changes nothing.
The count is an `unsigned int`, so it goes up by one unless there were about `2 ^ 32` lookups
before. -/
theorem dLookup_refines_book {inodes : Set ℕ} {s₀ s : DentryCache} {b : Book}
    (hs : Confined (InodeHead inodes) .null s₀)
    (hrun : Run inodes (dcacheInit true s₀, .blank) (s, b)) :
    (∀ c, Allowed inodes (s, b) c → (step (s, b) c).isSome) ∧
    ∀ (parent : ℕ) (name : List UInt8) (fuel : ℕ), s.live.length < fuel →
      (b.find parent name = none → dLookup fuel s (some parent) (some name) = .ok (none, s)) ∧
      ∀ d, b.find parent name = some d →
        dLookup fuel s (some parent) (some name) = .ok (some d, countUp s d) ∧
        (b.lookups + 2 < 2 ^ 32 →
          ((countUp s d).dentries d).dCount = (s.dentries d).dCount + 1) := by
  obtain ⟨K, h⟩ := refines_of_run hs hrun
  refine ⟨fun c hc => ?_, fun parent name fuel hfuel => ⟨fun hf => ?_, fun d hf => ⟨?_, ?_⟩⟩⟩
  · obtain ⟨s', K', hperform, -⟩ := h.step hc
    rw [step, hperform]
    rfl
  · rw [h.dLookup_eq parent name hfuel, hf]
    rfl
  · rw [h.dLookup_eq parent name hfuel, hf]
    rfl
  · exact h.dCount_add_one (h.find_live hf)

/-- A root and a child `"a"`, which is hashed, deleted and hashed again. -/
def childAgain : List Call :=
  [.alloc (some 4096) none (some [47]), .alloc (some 8192) (some 4096) (some [97]), .add 8192 none,
    .delete 8192, .rehash 8192]

theorem run_childAgain {s : DentryCache} (h : s.live = []) :
    ∃ s', Run ∅ (s, .blank) (s', childAgain.foldl Book.note .blank) ∧ s'.live = [8192, 4096] := by
  have h₁ : Run ∅ (s, .blank) _ :=
    .single ⟨.alloc (some 4096) none (some [47]), by simp [Allowed, h], rfl⟩
  have h₂ := h₁.tail ⟨.alloc (some 8192) (some 4096) (some [97]), by simp [Allowed, h], rfl⟩
  have h₃ := h₂.tail ⟨.add 8192 none, by simp [Allowed, h, Book.note, Book.blank], rfl⟩
  have h₄ := h₃.tail ⟨.delete 8192, by simp [Allowed, h], rfl⟩
  have h₅ := h₄.tail ⟨.rehash 8192, by simp [Allowed, h], rfl⟩
  exact ⟨_, h₅, by simp [h]⟩

/-- Memory in which every word is zero. -/
def zeroCache : DentryCache := ⟨fun _ => ⟨0, 0, none, 0, []⟩, fun _ => ⟨.null, .null⟩, []⟩

theorem dLookup_refines_book_again : ∃ s b, Run ∅ (dcacheInit true zeroCache, .blank) (s, b) ∧
    dLookup 3 s (some 4096) (some [97]) = .ok (some 8192, countUp s 8192) := by
  have hconf : Confined (InodeHead ∅) .null zeroCache := by
    rintro n ⟨i, hi, -⟩
    exact absurd hi (Set.notMem_empty i)
  have hlive : (dcacheInit true zeroCache).live = [] :=
    (initBuckets_spec (List.range dentryHashSize) zeroCache).2.2
  obtain ⟨s, hrun, hs⟩ := run_childAgain hlive
  refine ⟨s, _, hrun, ?_⟩
  have hall := (dLookup_refines_book hconf hrun).2 4096 [97] 3 (by simp [hs])
  exact (hall.2 8192 (by decide)).1

end YegaKernel.Fs.Dcache.HashRun
