import YegaKernel.Buddy.Run
import YegaKernel.Lib.LinkLoops

/-! # Tearing down the buddy system

`free_buddy_system` takes every block off its list and writes nothing else: the counters `nr_free`,
the flags `PG_FLAG_private` and the fields `private` stay as they are. So the lists are empty
afterwards (`freeBuddySystem_spec`), but a page that was the first of a free block still looks like
one to `free_block`, which then unlinks it although it is on no list.

`tearsDown_iff`: the zone that is left is a valid empty zone exactly if there was no free block. -/

namespace YegaKernel.Buddy.Teardown

open Lib.Links Lib.Word Lib.Dyadic
open Buddy.State Buddy.Ops Buddy.FreeBlocks
open Buddy.Represent Buddy.Spec Buddy.Run

/-- One round of `free_buddy_system`: the list of order `k`. -/
def freeArea (fuel : ℕ) (z : Zone) (k : ℕ) : Option Zone :=
  (listForEachDel (listDel Node.null) fuel z (Node.area k)).map fun r =>
    initListHead r.2 (Node.area k)

def freeBuddySystem (fuel : ℕ) (z : Zone) : Option Zone :=
  (List.range buddyGroups).foldlM (freeArea fuel) z

/-! ### The lists afterwards -/

/-- The zones differ in their links only. -/
structure SameCells (z z' : Zone) : Prop where
  present : z'.presentPages = z.presentPages
  pages : z'.pages = z.pages
  nrFree : z'.nrFree = z.nrFree

/-- The lists of the first `j` orders have been emptied, the others are as they were. -/
structure Emptied (z₀ : Zone) (L : ℕ → List ℕ) (j : ℕ) (z : Zone) : Prop where
  cells : SameCells z₀ z
  ring : ∀ k < buddyGroups, Ring z (Node.area k) (if k < j then [] else (L k).map Node.lru)

variable {z₀ z : Zone} {L : ℕ → List ℕ}

theorem sameCells_listForEachDel {fuel : ℕ} {head : Node} {r : List Node × Zone}
    (hz : SameCells z₀ z) (h : listForEachDel (listDel Node.null) fuel z head = some r) :
    SameCells z₀ r.2 :=
  listForEachDel_keeps (fun _ _ hs => ⟨hs.present, hs.pages, hs.nrFree⟩) hz h

/-- The nodes of the list of order `j` are not on the list of another order, whether that has been
emptied or not. -/
theorem apart_rings (hr : Represents z₀ L) {i j k : ℕ} (hjk : k ≠ j) :
    ∀ b ∈ Node.area k :: (if k < i then [] else (L k).map Node.lru),
      ∀ n ∈ Node.area j :: (L j).map Node.lru, n ≠ b := by
  intro b hb n hn
  refine hr.nodes_ne hjk n hn b ?_
  split_ifs at hb with hk
  · rw [List.mem_singleton.mp hb]
    exact List.mem_cons_self
  · exact hb

/-- **One round** empties one more list. -/
theorem Emptied.freeArea (hr : Represents z₀ L) {j : ℕ}
    (hj : j < buddyGroups) (h : Emptied z₀ L j z) :
    ∃ z', (∀ fuel, z₀.presentPages < fuel → freeArea fuel z j = some z') ∧
      Emptied z₀ L (j + 1) z' := by
  have hring : Ring z (Node.area j) ((L j).map Node.lru) := by
    simpa using h.ring j hj
  obtain ⟨z', hloop, hempty, hframe⟩ := Ring.listForEachDel_eq Node.null _ hring
  have hlen : ((L j).map Node.lru).length ≤ z₀.presentPages := by
    rw [List.length_map]
    exact length_le_present hr.blocks
  have hcells := sameCells_listForEachDel h.cells (hloop (z₀.presentPages + 1) (by omega))
  refine ⟨initListHead z' (Node.area j), fun fuel hf => ?_,
    ⟨hcells.present, hcells.pages, hcells.nrFree⟩, fun k hk => ?_⟩
  · unfold Teardown.freeArea
    rw [hloop fuel (by omega)]
    rfl
  · by_cases hkj : k = j
    · subst hkj
      rw [if_pos (Nat.lt_succ_self k)]
      exact ring_initListHead z' (Node.area k)
    · have hsame : (k < j + 1) = (k < j) := by
        rw [eq_iff_iff]
        omega
      simp only [hsame]
      refine (h.ring k hk).transport fun b hb => ?_
      have hap := apart_rings hr hkj b hb
      exact (hframe b hap).trans (sameLinks_initListHead z' (hap _ List.mem_cons_self))

theorem emptied_rounds (hr : Represents z L) : ∀ j ≤ buddyGroups,
    ∃ z', (∀ fuel, z.presentPages < fuel →
      (List.range j).foldlM (freeArea fuel) z = some z') ∧ Emptied z L j z' := by
  intro j
  induction j with
  | zero =>
    intro _
    exact ⟨z, fun _ _ => rfl, ⟨rfl, rfl, rfl⟩, fun k hk => by simpa using hr.ring k hk⟩
  | succ j ih =>
    intro hj
    obtain ⟨z₁, hrun, hz₁⟩ := ih (by omega)
    obtain ⟨z', hround, hz'⟩ := hz₁.freeArea hr (by omega)
    refine ⟨z', fun fuel hf => ?_, hz'⟩
    rw [List.range_succ, List.foldlM_append, hrun fuel hf]
    simp [hround fuel hf]

/-- **`free_buddy_system` ends, with every list empty** and every other cell of the zone as it
was. -/
theorem freeBuddySystem_spec (h : BuddyInvariant z) :
    ∃ z', (∀ fuel, z.presentPages < fuel → freeBuddySystem fuel z = some z') ∧ SameCells z z' ∧
      ∀ k < buddyGroups, Ring z' (Node.area k) [] := by
  obtain ⟨L, hr⟩ := buddyInvariant_iff.mp h
  obtain ⟨z', hrun, hz'⟩ := emptied_rounds hr buddyGroups le_rfl
  exact ⟨z', hrun, hz'.cells, fun k hk => by simpa [hk] using hz'.ring k hk⟩

theorem freeList_of_ring_nil {k : ℕ} (h : Ring z (Node.area k) []) : freeList z k = [] := by
  unfold freeList
  rw [h.listNodes_eq (Nat.zero_le _)]
  rfl

/-! ### The next `free_block` -/

/-- The merge loop of `free_block`, which also records what it unlinks: the zone at that moment and
the page. -/
def mergeUnlinking : ℕ → ℕ → ℕ → Zone → List (Zone × ℕ) × (ℕ × ℕ × Zone)
  | 0, order, pageIdx, z => ([], order, pageIdx, z)
  | fuel + 1, order, pageIdx, z =>
    if order < buddyGroups - 1 then
      let buddyIdx := pageIdx ^^^ 2 ^ order
      if z.presentPages ≤ buddyIdx then ([], order, pageIdx, z)
      else if !pageIsBuddy z buddyIdx order then ([], order, pageIdx, z)
      else
        let z₁ := listDel Node.null z (Node.lru buddyIdx)
        let z₁ := setNrFree z₁ order (sub32 (z₁.nrFree order) 1)
        let z₁ := clearPagePrivate z₁ buddyIdx
        let z₁ := setPrivate z₁ buddyIdx 0
        let r := mergeUnlinking fuel (order + 1) (pageIdx &&& buddyIdx) z₁
        ((z, buddyIdx) :: r.1, r.2)
    else ([], order, pageIdx, z)

/-- The pages `free_block` unlinks, each with the zone it is unlinked in. -/
def freeBlockUnlinks (z : Zone) (page order : ℕ) : List (Zone × ℕ) :=
  (mergeUnlinking buddyGroups order page { z with freePages := u32 (z.freePages + 2 ^ order) }).1

/-- The page is on a free list. -/
def Listed (z : Zone) (p : ℕ) : Prop := ∃ k < buddyGroups, p ∈ freeList z k

instance (z : Zone) (p : ℕ) : Decidable (Listed z p) := by unfold Listed; infer_instance

/-- **`free_block` of any aligned run unlinks only pages that are on a list.** -/
def UnlinksListed (z : Zone) : Prop :=
  ∀ page order, order < buddyGroups → 2 ^ order ∣ page → page + 2 ^ order ≤ z.presentPages →
    ∀ u ∈ freeBlockUnlinks z page order, Listed u.1 u.2

theorem freeBlockUnlinks_nil (h : ∀ p < z.presentPages, pagePrivate z p = false)
    (page order : ℕ) : freeBlockUnlinks z page order = [] := by
  unfold freeBlockUnlinks buddyGroups
  rw [mergeUnlinking]
  simp only
  split_ifs with h1 h2 h3
  · rfl
  · rfl
  · have hp : pagePrivate z (page ^^^ 2 ^ order) = false := h _ (not_le.mp h2)
    simp only [pageIsBuddy, Bool.not_eq_eq_eq_not, Bool.not_true, Bool.and_eq_false_imp,
      not_forall] at h3
    obtain ⟨hpriv, -⟩ := h3
    exact absurd hpriv (by simpa [pagePrivate] using hp)
  · rfl

/-! ### The zone that is left -/

/-- **The teardown leaves a valid empty zone**: it ends; all lists are empty and all counters 0, no
page has the flag, the buddy invariant holds, and a later `free_block` unlinks only pages that are
on a list. -/
def TearsDown (z : Zone) : Prop :=
  ∃ z', (∀ fuel, z.presentPages < fuel → freeBuddySystem fuel z = some z') ∧
    (∀ k < buddyGroups, freeList z' k = []) ∧ BuddyInvariant z' ∧
    (∀ k < buddyGroups, z'.nrFree k = 0) ∧ (∀ p < z'.presentPages, pagePrivate z' p = false) ∧
    UnlinksListed z'

theorem pagePrivate_congr {z' : Zone} (h : SameCells z z') (p : ℕ) :
    pagePrivate z' p = pagePrivate z p := by
  unfold pagePrivate
  rw [h.pages]

theorem not_private_of_empty (h : BuddyInvariant z)
    (hempty : ∀ k < buddyGroups, freeList z k = []) {p : ℕ} (hp : p < z.presentPages) :
    pagePrivate z p = false := by
  rw [Bool.eq_false_iff]
  intro hpriv
  obtain ⟨k, hk, hpk⟩ := (h.flag p hp).mp hpriv
  rw [hempty k hk] at hpk
  exact absurd hpk List.not_mem_nil

theorem buddyInvariant_of_empty (hring : ∀ k < buddyGroups, Ring z (Node.area k) [])
    (hnr : ∀ k < buddyGroups, z.nrFree k = 0)
    (hflag : ∀ p < z.presentPages, pagePrivate z p = false) : BuddyInvariant z := by
  refine buddyInvariant_iff.mpr ⟨fun _ => [], blocks_empty _, hring, hnr, fun p hp => ?_, by simp⟩
  rw [hflag p hp]
  simp

/-- **The teardown leaves a valid empty zone exactly if there was nothing to tear down**: if there
was a free block, its first page keeps the flag. -/
theorem tearsDown_iff (z : Zone) (h : BuddyInvariant z) :
    TearsDown z ↔ ∀ k < buddyGroups, freeList z k = [] := by
  obtain ⟨z₁, hrun, hcells, hrings⟩ := freeBuddySystem_spec h
  constructor
  · rintro ⟨z', hrun', -, -, -, hflag, -⟩ k hk
    have hz : z' = z₁ := Option.some.inj
      ((hrun' _ (Nat.lt_succ_self _)).symm.trans (hrun _ (Nat.lt_succ_self _)))
    subst hz
    rw [List.eq_nil_iff_forall_not_mem]
    intro p hp
    have hlt : p < z.presentPages := by
      have := h.inRange k hk p hp
      have : 0 < 2 ^ k := by positivity
      omega
    have hpriv : pagePrivate z p = true := (h.flag p hlt).mpr ⟨k, hk, hp⟩
    have hnot := hflag p (by rwa [hcells.present])
    rw [pagePrivate_congr hcells, hpriv] at hnot
    exact absurd hnot (by simp)
  · intro hempty
    have hnr : ∀ k < buddyGroups, z₁.nrFree k = 0 := fun k hk => by
      rw [hcells.nrFree, h.nrFree k hk, hempty k hk, List.length_nil]
    have hflag : ∀ p < z₁.presentPages, pagePrivate z₁ p = false := fun p hp => by
      rw [pagePrivate_congr hcells]
      exact not_private_of_empty h hempty (by rwa [← hcells.present])
    refine ⟨z₁, hrun, fun k hk => freeList_of_ring_nil (hrings k hk),
      buddyInvariant_of_empty hrings hnr hflag, hnr, hflag, fun page order _ _ _ u hu => ?_⟩
    rw [freeBlockUnlinks_nil hflag] at hu
    exact absurd hu List.not_mem_nil

theorem tearsDown_emptyZone : TearsDown (emptyZone 2 (by decide)) := by
  refine (tearsDown_iff _ ?_).mpr fun k hk => freeList_of_ring_nil ?_
  · exact buddyInvariant_iff.mpr ⟨_, (zeroed_emptyZone 2 (by decide)).represents⟩
  · exact (zeroed_emptyZone 2 (by decide)).represents.ring k hk

/-- Two pages, of which page 1 is free. -/
def onePageFree : Zone := freeBlock (emptyZone 2 (by decide)) 1 0

theorem buddyInvariant_onePageFree : BuddyInvariant onePageFree := by
  refine buddyInvariant_of_reachable (zeroed_emptyZone 2 (by decide)) ?_
  refine Relation.ReflTransGen.single (Step.free 1 0 (by decide) (by decide) (by decide) ?_)
  intro x hx hx'
  interval_cases x
  decide

/-- After the teardown of a zone with page 1 free, freeing page 0 unlinks page 1, which is on no
list. -/
theorem teardown_leaves_flag : BuddyInvariant onePageFree ∧ ¬ TearsDown onePageFree ∧
    ∃ z', freeBuddySystem 3 onePageFree = some z' ∧ z'.nrFree 0 = 1 ∧ pagePrivate z' 1 = true ∧
      ∃ u ∈ freeBlockUnlinks z' 0 0, u.2 = 1 ∧ ¬ Listed u.1 u.2 := by
  have hcheck : ((freeBuddySystem 3 onePageFree).any fun z' =>
      decide (z'.nrFree 0 = 1 ∧ pagePrivate z' 1 = true ∧
        ∃ u ∈ freeBlockUnlinks z' 0 0, u.2 = 1 ∧ ¬ Listed u.1 u.2)) = true := by decide +kernel
  obtain ⟨z', hrun, hz'⟩ := (Option.any_eq_true _ _).mp hcheck
  have hz := of_decide_eq_true hz'
  refine ⟨buddyInvariant_onePageFree, ?_, z', hrun, hz⟩
  rintro ⟨z₁, hrun', -, -, hnr, -⟩
  have hsame : z₁ = z' := Option.some.inj ((hrun' 3 (by decide)).symm.trans hrun)
  subst hsame
  exact absurd ((hnr 0 (by decide)).symm.trans hz.1) (by decide)

end YegaKernel.Buddy.Teardown
