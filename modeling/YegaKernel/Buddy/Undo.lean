import YegaKernel.Buddy.Run

/-! # Freeing undoes allocating

`allocate_block` takes the first block of the first list that is not empty, and the lists of the
smaller orders down to the one asked for were empty: they hold one part of the block each
afterwards. `free_block` of the page it returned finds these parts one after the other and puts the
block back in front of its list. So the lists are as before, with their order, and with them the
counters and the flags. The field `private` of a part is `0` then, whatever it was before.

The same holds for calls that are properly nested (`Nested`), since `free_block` depends on what the
zone represents only. -/

namespace YegaKernel.Buddy.Undo

open Lib.Links Lib.Word Lib.Dyadic
open Buddy.State Buddy.Ops Buddy.FreeBlocks
open Buddy.Represent Buddy.Spec Buddy.Run Function

/-- `q` is the first page of a part of the block at `p`, which has the order `current` and is split
down to `order`. -/
def IsPart (order p current q : ℕ) : Prop := ∃ k, order ≤ k ∧ k < current ∧ q = p + 2 ^ k

/-- The lists, the counters and the flags are the same. -/
structure Restored (z z' : Zone) : Prop where
  present : z'.presentPages = z.presentPages
  lists : ∀ k < buddyGroups, freeList z' k = freeList z k
  nrFree : ∀ k < buddyGroups, z'.nrFree k = z.nrFree k
  freePages : u32 z'.freePages = u32 z.freePages
  flag : ∀ q < z.presentPages, pagePrivate z' q = pagePrivate z q

/-- **Properly nested calls**: what is allocated is freed after all that is allocated later. -/
inductive Nested : Zone → Zone → Prop
  | done (z : Zone) : Nested z z
  | fail {z z' : Zone} (order : ℕ) (h : (allocateBlock z order).1 = none)
      (rest : Nested (allocateBlock z order).2 z') : Nested z z'
  | round {z z₁ z₂ z' : Zone} (order p : ℕ) (h : allocateBlock z order = (some p, z₁))
      (inner : Nested z₁ z₂) (rest : Nested (freeBlock z₂ p order) z') : Nested z z'

variable {z z' : Zone} {L : ℕ → List ℕ} {order p current q : ℕ} {ps : List ℕ}

theorem restored_of_represents (hr : Represents z L) (hr' : Represents z' L)
    (hpres : z'.presentPages = z.presentPages) (hfp : u32 z'.freePages = u32 z.freePages) :
    Restored z z' where
  present := hpres
  lists k hk := by rw [hr.freeList_eq hk, hr'.freeList_eq hk]
  nrFree k hk := by rw [hr.nrFree k hk, hr'.nrFree k hk]
  freePages := hfp
  flag q hq := by rw [Bool.eq_iff_iff, hr.flag q hq, hr'.flag q (hpres ▸ hq)]

/-! ### Splitting leaves the other descriptors -/

theorem not_isPart_of_le (h : current ≤ order) : ¬ IsPart order p current q := by
  rintro ⟨k, h1, h2, -⟩
  omega

theorem not_isPart_self : ¬ IsPart order p current p := by
  rintro ⟨k, -, -, hk⟩
  have : 0 < 2 ^ k := by positivity
  omega

theorem splitBlock_pages (order p q : ℕ) : ∀ (current : ℕ) (z : Zone), order ≤ current →
    ¬ IsPart order p current q →
      (splitBlock order p current (2 ^ current) z).pages q = z.pages q
  | 0, _, _, _ => rfl
  | current + 1, z, ho, hq => by
    by_cases hoc : order < current + 1
    · have hne : q ≠ p + 2 ^ current := fun h => hq ⟨current, by omega, by omega, h⟩
      have hq' : ¬ IsPart order p current q := fun ⟨k, h1, h2, h3⟩ => hq ⟨k, h1, by omega, h3⟩
      rw [splitBlock_succ hoc, splitBlock_pages order p q current _ (by omega) hq',
        putBlock_pages_of_ne z current hne]
    · rw [splitBlock, if_neg hoc]

/-- `allocate_block` writes to the descriptors of the page it returns and of the parts only. -/
theorem allocateBlock_pages (hr : Represents z L) (hf : findOrder z order = some current)
    (h : allocateBlock z order = (some p, z')) (hqp : q ≠ p) (hq : ¬ IsPart order p current q) :
    z'.pages q = z.pages q := by
  obtain ⟨p', ps, hch, heq, -⟩ := allocateBlock_split hr hf
  rw [heq, Prod.mk.injEq, Option.some.injEq] at h
  obtain ⟨rfl, rfl⟩ := h
  rw [splitBlock_pages order p' q current _ hch.le hq]
  exact takeBlock_pages_of_ne z current hqp

/-- `allocate_block` leaves `0` in the field `private` of the page it returns. -/
theorem allocateBlock_priv (hr : Represents z L) (h : allocateBlock z order = (some p, z')) :
    (z'.pages p).priv = 0 := by
  rcases hf : findOrder z order with _ | current
  · rw [allocateBlock, hf] at h
    exact absurd (congrArg Prod.fst h) (by simp)
  · obtain ⟨p', ps, hch, heq, -⟩ := allocateBlock_split hr hf
    rw [heq, Prod.mk.injEq, Option.some.injEq] at h
    obtain ⟨rfl, rfl⟩ := h
    rw [splitBlock_pages order p' p' current _ hch.le not_isPart_self]
    exact takeBlock_priv z current p'

/-! ### Merging finds the parts -/

/-- **The merge loop retraces the split loop**: it takes the parts off their lists one after the
other, up to the order of the block. -/
theorem mergeBlock_parts (hlt : current < buddyGroups) (hal : 2 ^ current ∣ p)
    (hstop : current + 1 < buddyGroups → buddy current p ∉ L current) :
    ∀ (fuel order : ℕ) (z : Zone), order ≤ current → buddyGroups ≤ order + fuel →
      (∀ k, order ≤ k → k < current → L k = []) → Represents z (addParts L order p current) →
      ∃ z', mergeBlock fuel order p z = (current, p, z') ∧ Represents z' L ∧
        z'.presentPages = z.presentPages ∧ z'.freePages = z.freePages ∧
        (∀ q, ¬ IsPart order p current q → z'.pages q = z.pages q) ∧
        ∀ q, IsPart order p current q → (z'.pages q).priv = 0 := by
  intro fuel
  induction fuel with
  | zero =>
    omega
  | succ fuel ih =>
    intro order z hoc hfuel hnil hr
    rcases Nat.eq_or_lt_of_le hoc with rfl | hoc
    · -- the block is whole again, and its buddy is not free
      rw [addParts_self] at hr
      refine ⟨z, mergeBlock_stop fun hgo => ?_, hr, rfl, rfl, fun _ _ => rfl,
        fun q hq => absurd hq (not_isPart_of_le le_rfl)⟩
      exact hstop (by omega) ((hr.pageIsBuddy_iff hgo.2.1).mp hgo.2.2)
    · obtain ⟨hbuddy, hand⟩ := buddy_of_lower (dvd_trans (pow_dvd_pow 2 hoc) hal)
      have hlist : addParts L order p current order = [] ++ (p + 2 ^ order) :: [] := by
        rw [addParts, if_pos ⟨le_rfl, hoc⟩, hnil order le_rfl hoc, List.nil_append]
      have hmem : p + 2 ^ order ∈ addParts L order p current order := by rw [hlist]; simp
      have hb : p + 2 ^ order < z.presentPages := (inBlock_start order _).lt_bound hr.blocks hmem
      have htake := hr.takeBlock hlist
      rw [List.append_nil, update_addParts (hnil order le_rfl hoc)] at htake
      obtain ⟨z', heq, hr', hpres, hfp, hother, hparts⟩ := ih (order + 1) _ hoc (by omega)
        (fun k hk hkc => hnil k (by omega) hkc) htake
      have hself := takeBlock_priv z order (p + 2 ^ order)
      refine ⟨z', ?_, hr', hpres, hfp, fun q hq => ?_, fun q hq => ?_⟩
      · rw [mergeBlock_succ (by omega) (by rwa [hbuddy])
          (by rw [hbuddy]; exact (hr.pageIsBuddy_iff hb).mpr hmem), hand, hbuddy]
        exact heq
      · have hne : q ≠ p + 2 ^ order := fun h => hq ⟨order, le_rfl, hoc, h⟩
        have hrest : ¬ IsPart (order + 1) p current q := by
          rintro ⟨k, h1, h2, h3⟩
          exact hq ⟨k, by omega, h2, h3⟩
        rw [hother q hrest, takeBlock_pages_of_ne z order hne]
      · by_cases hq' : IsPart (order + 1) p current q
        · exact hparts q hq'
        · obtain ⟨k, h1, h2, rfl⟩ := hq
          obtain rfl : k = order := by
            by_contra hk
            exact hq' ⟨k, by omega, h2, rfl⟩
          rw [hother _ hq', hself]

/-! ### One allocation and its free -/

theorem buddy_not_mem_tail (hL : Blocks z.presentPages L) (hlist : L current = p :: ps)
    (hc : current + 1 < buddyGroups) : buddy current p ∉ update L current ps current := by
  rw [update_self]
  intro hmem
  have hp : p ∈ L current := by rw [hlist]; simp
  exact hL.coalesced current hc p hp (by rw [hlist]; exact List.mem_cons_of_mem p hmem)

/-- **`free_block` after the split**: whatever has happened in between, the block is put back. -/
theorem freeBlock_splitLists (hr : Represents z L) (hch : Chosen L order p current ps) {z₂ : Zone}
    (hr₂ : Represents z₂ (splitLists L order p current ps))
    (hpres : z₂.presentPages = z.presentPages) : Represents (freeBlock z₂ p order) L ∧
      (freeBlock z₂ p order).presentPages = z.presentPages ∧
      (freeBlock z₂ p order).freePages = u32 (z₂.freePages + 2 ^ order) ∧
      (∀ q, q ≠ p → ¬ IsPart order p current q → (freeBlock z₂ p order).pages q = z₂.pages q) ∧
      ∀ q, IsPart order p current q → ((freeBlock z₂ p order).pages q).priv = 0 := by
  have hpk : p ∈ L current := by rw [hch.list]; simp
  have hk' : L current = [] ++ p :: ps := hch.list
  have hal := hr.blocks.aligned current p hpk
  have hstop := buddy_not_mem_tail hr.blocks hch.list
  have hnil : ∀ k, order ≤ k → k < current → update L current ps k = [] := by
    intro k hk hkc
    rw [update_of_ne hkc.ne]
    exact hch.below k hk hkc
  obtain ⟨z', heq, hr', hpres', hfp', hother, hparts⟩ := mergeBlock_parts hch.lt hal hstop
    buddyGroups order { z₂ with freePages := u32 (z₂.freePages + 2 ^ order) } hch.le (by omega) hnil
    (hr₂.withFreePages _)
  have hz : freeBlock z₂ p order = putBlock z' current p := by
    unfold freeBlock
    simp only
    rw [heq]
    rfl
  have hfree : ∀ x, InBlock current p x → ¬ Covers (update L current ps) x := by
    intro x hx hc
    exact ((hr.blocks.covers_erase hk' x).mp hc).2 hx
  have hbound : p + 2 ^ current ≤ z'.presentPages := by
    rw [hpres']
    rw [hpres]
    exact hr.blocks.bound current p hpk
  have hput := hr'.putBlock hch.lt hal hbound hfree hstop
  rw [update_idem, update_self, ← hch.list, update_eq_self] at hput
  rw [hz]
  refine ⟨hput, hpres'.trans hpres, hfp', fun q hqp hq => ?_, fun q hq => ?_⟩
  · rw [putBlock_pages_of_ne z' current hqp]
    exact hother q hq
  · have hqp : q ≠ p := by
      obtain ⟨k, -, -, h⟩ := hq
      have hpos : 0 < 2 ^ k := by positivity
      omega
    rw [putBlock_pages_of_ne z' current hqp]
    exact hparts q hq

theorem u32_undo (n m : ℕ) : u32 (sub32 n m + m) = u32 n := by
  unfold u32 sub32
  omega

/-- What `allocate_block` has done when it returns the page `p`. -/
structure Took (z z₁ : Zone) (L : ℕ → List ℕ) (order p current : ℕ) (ps : List ℕ) : Prop where
  found : findOrder z order = some current
  chosen : Chosen L order p current ps
  rep : Represents z₁ (splitLists L order p current ps)
  covers : ∀ x, Covers (splitLists L order p current ps) x ↔ Covers L x ∧ ¬ InBlock order p x
  present : z₁.presentPages = z.presentPages
  freePages : z₁.freePages = sub32 z.freePages (2 ^ order)
  other : ∀ q, q ≠ p → ¬ IsPart order p current q → z₁.pages q = z.pages q

theorem took_of_some (hr : Represents z L) {z₁ : Zone} (h : allocateBlock z order = (some p, z₁)) :
    ∃ current ps, Took z z₁ L order p current ps := by
  rcases hf : findOrder z order with _ | current
  · rw [allocateBlock, hf] at h
    exact absurd (congrArg Prod.fst h) (by simp)
  · have hpages := fun q => allocateBlock_pages (q := q) hr hf h
    obtain ⟨p', ps, hch, heq, hmv, hcov, -, hfp⟩ := allocateBlock_split hr hf
    rw [h] at heq hmv hfp
    obtain rfl : p = p' := by simpa using congrArg Prod.fst heq
    exact ⟨current, ps, hf, hch, hmv.rep, hcov, hmv.present, hfp, hpages⟩

variable {z₁ : Zone}

theorem Took.order_eq (h : Took z z₁ L order p current ps) (hr : Represents z L) :
    (z.pages p).priv = current :=
  hr.order current p (by rw [h.chosen.list]; simp)

theorem Took.part (h : Took z z₁ L order p current ps) (hr : Represents z L)
    (hq : IsPart order p current q) : Covers L q ∧ ∀ k, q ∉ L k := by
  obtain ⟨k, -, hkc, rfl⟩ := hq
  have hpk : p ∈ L current := by rw [h.chosen.list]; simp
  have hpos : 0 < 2 ^ k := by positivity
  have hin : InBlock current p (p + 2 ^ k) :=
    ⟨by omega, Nat.add_lt_add_left (Nat.pow_lt_pow_right (by norm_num) hkc) p⟩
  refine ⟨⟨current, p, hpk, hin⟩, fun j hj => ?_⟩
  have := (hr.blocks.eq_of_inBlock hpk hj hin (inBlock_start j _)).2
  omega

theorem Took.mem_of_mem (h : Took z z₁ L order p current ps) {k : ℕ} (hq : q ∈ L k)
    (hqp : q ≠ p) : q ∈ splitLists L order p current ps k := by
  have hmem : q ∈ update L current ps k := by
    by_cases hk : k = current
    · subst hk
      rw [h.chosen.list, List.mem_cons] at hq
      rw [update_self]
      exact hq.resolve_left hqp
    · rwa [update_of_ne hk]
  rw [splitLists, addParts]
  split_ifs
  · exact List.mem_cons_of_mem _ hmem
  · exact hmem

/-! ### Nested calls -/

/-- **What nested calls leave**: the same blocks; and where `private` has changed, it is `0` and the
page is inside a free block. -/
structure Kept (L : ℕ → List ℕ) (z z' : Zone) : Prop where
  rep : Represents z' L
  present : z'.presentPages = z.presentPages
  freePages : u32 z'.freePages = u32 z.freePages
  priv : ∀ q, (z'.pages q).priv = (z.pages q).priv ∨
    Covers L q ∧ (∀ k, q ∉ L k) ∧ (z'.pages q).priv = 0

theorem Kept.refl (hr : Represents z L) : Kept L z z := ⟨hr, rfl, rfl, fun _ => Or.inl rfl⟩

theorem Kept.trans {z'' : Zone} (h : Kept L z z') (h' : Kept L z' z'') : Kept L z z'' := by
  refine ⟨h'.rep, h'.present.trans h.present, h'.freePages.trans h.freePages, fun q => ?_⟩
  rcases h'.priv q with heq | hzero
  · rcases h.priv q with heq' | ⟨hc, hk, hzero⟩
    · exact Or.inl (heq.trans heq')
    · exact Or.inr ⟨hc, hk, heq.trans hzero⟩
  · exact Or.inr hzero

/-- **A round**: an allocation, nested calls, and the free. -/
theorem Took.kept {z₂ : Zone} (h : Took z z₁ L order p current ps) (hr : Represents z L)
    (hk : Kept (splitLists L order p current ps) z₁ z₂) : Kept L z (freeBlock z₂ p order) := by
  obtain ⟨hrep, hpres, hfp, hother, hparts⟩ := freeBlock_splitLists hr h.chosen hk.rep
    (hk.present.trans h.present)
  have hpk : p ∈ L current := by rw [h.chosen.list]; simp
  refine ⟨hrep, hpres, ?_, fun q => ?_⟩
  · have hmid := hk.freePages
    rw [h.freePages] at hmid
    rw [hfp, ← u32_undo z.freePages (2 ^ order)]
    unfold u32 at hmid ⊢
    omega
  · by_cases hqp : q = p
    · subst hqp
      exact Or.inl ((hrep.order current q hpk).trans (hr.order current q hpk).symm)
    · by_cases hq : IsPart order p current q
      · obtain ⟨hc, hno⟩ := h.part hr hq
        exact Or.inr ⟨hc, hno, hparts q hq⟩
      · rw [hother q hqp hq]
        rcases hk.priv q with heq | ⟨hc, hno, hzero⟩
        · exact Or.inl (by rw [heq, h.other q hqp hq])
        · exact Or.inr ⟨((h.covers q).mp hc).1, fun k hqk => hno k (h.mem_of_mem hqk hqp), hzero⟩

theorem Nested.kept (h : Nested z z') : ∀ {L : ℕ → List ℕ}, Represents z L → Kept L z z' := by
  induction h with
  | done z => exact Kept.refl
  | @fail z z' order hnone rest ih =>
    intro L hr
    rcases allocateBlock_spec hr order with ⟨heq, -⟩ | ⟨p, z₁, L', heq, -⟩
    · rw [heq] at ih
      exact ih hr
    · rw [heq] at hnone
      exact absurd hnone (by simp)
  | @round z z₁ z₂ z' order p heq inner rest ihInner ihRest =>
    intro L hr
    obtain ⟨current, ps, htook⟩ := took_of_some hr heq
    have hround := htook.kept hr (ihInner htook.rep)
    exact hround.trans (ihRest hround.rep)

/-- Allocating and freeing at once: `private` is as before but for the parts. -/
theorem Took.priv_freeBlock (h : Took z z₁ L order p current ps) (hr : Represents z L)
    (q : ℕ) : (IsPart order p current q → ((freeBlock z₁ p order).pages q).priv = 0) ∧
      (¬ IsPart order p current q → ((freeBlock z₁ p order).pages q).priv = (z.pages q).priv) := by
  obtain ⟨hrep, -, -, hother, hparts⟩ := freeBlock_splitLists hr h.chosen h.rep h.present
  refine ⟨hparts q, fun hq => ?_⟩
  by_cases hqp : q = p
  · subst hqp
    have hpk : q ∈ L current := by rw [h.chosen.list]; simp
    exact (hrep.order current q hpk).trans (hr.order current q hpk).symm
  · rw [hother q hqp hq, h.other q hqp hq]

/-! ### The result -/

/-- The page is in a free block, but not the first page of it. -/
def Inside (z : Zone) (q : ℕ) : Prop := PageFree z q ∧ pagePrivate z q = false

theorem Kept.restored (h : Kept L z z') (hr : Represents z L) :
    Restored z z' ∧ ∀ q, (z'.pages q).priv = (z.pages q).priv ∨
      Inside z q ∧ (z'.pages q).priv = 0 := by
  refine ⟨restored_of_represents hr h.rep h.present h.freePages, fun q => ?_⟩
  refine (h.priv q).imp_right fun ⟨hc, hno, hzero⟩ => ⟨⟨(hr.pageFree_iff q).mpr hc, ?_⟩, hzero⟩
  obtain ⟨k, r, hrk, hin⟩ := hc
  rw [Bool.eq_false_iff, ne_eq, hr.flag q (hin.lt_bound hr.blocks hrk)]
  rintro ⟨j, hj⟩
  exact hno j hj

/-- **Freeing undoes allocating**, at once and around properly nested calls. The lists, the counters
and the flags are restored, and so is `private`, except that it is set to `0` on the first pages of
the parts that were split off. -/
theorem freeBlock_undoes_allocateBlock (hinv : BuddyInvariant z) :
    (∀ order p z₁, allocateBlock z order = (some p, z₁) →
      Restored z (freeBlock z₁ p order) ∧
      ∀ q, (IsPart order p (z.pages p).priv q → ((freeBlock z₁ p order).pages q).priv = 0) ∧
        (¬ IsPart order p (z.pages p).priv q →
          ((freeBlock z₁ p order).pages q).priv = (z.pages q).priv)) ∧
    ∀ z', Nested z z' →
      (Restored z z' ∧
        ∀ q, (z'.pages q).priv = (z.pages q).priv ∨ Inside z q ∧ (z'.pages q).priv = 0) ∧
      ((∀ q, Inside z q → (z.pages q).priv = 0) → ∀ q, (z'.pages q).priv = (z.pages q).priv) := by
  obtain ⟨L, hr⟩ := buddyInvariant_iff.mp hinv
  refine ⟨fun order p z₁ h => ?_, fun z' h => ?_⟩
  · obtain ⟨current, ps, htook⟩ := took_of_some hr h
    rw [htook.order_eq hr]
    exact ⟨((htook.kept hr (Kept.refl htook.rep)).restored hr).1, htook.priv_freeBlock hr⟩
  · obtain ⟨hres, hpriv⟩ := (h.kept hr).restored hr
    refine ⟨⟨hres, hpriv⟩, fun hzero q => ?_⟩
    rcases hpriv q with heq | ⟨hin, hq⟩
    · exact heq
    · rw [hq, hzero q hin]

theorem eight_pages_fit : sizeofPage * 8 ≤ 2 ^ 32 := by decide

/-- A zone of eight free pages. -/
def eightFree : Zone := addFreeRegionToBuddy (emptyZone 8 eight_pages_fit) 0 7

theorem buddyInvariant_eightFree : BuddyInvariant eightFree :=
  buddyInvariant_region eight_pages_fit (by decide) 0

/-- Of eight pages two are taken, then one, and both blocks are given back. -/
theorem freeBlock_undoes_eightFree :
    let z₁ := (allocateBlock eightFree 1).2
    let z₂ := (allocateBlock z₁ 0).2
    (∃ p q, allocateBlock eightFree 1 = (some p, z₁) ∧ allocateBlock z₁ 0 = (some q, z₂) ∧
      Restored eightFree (freeBlock (freeBlock z₂ q 0) p 1)) := by
  intro z₁ z₂
  have h₁ : allocateBlock eightFree 1 = (some 0, z₁) := Prod.ext (by decide +kernel) rfl
  have h₂ : allocateBlock z₁ 0 = (some 2, z₂) := Prod.ext (by decide +kernel) rfl
  refine ⟨0, 2, h₁, h₂, ?_⟩
  exact ((freeBlock_undoes_allocateBlock buddyInvariant_eightFree).2 _
    (.round 1 0 h₁ (.round 0 2 h₂ (.done _) (.done _)) (.done _))).1.1

/-! ### A value that is not restored -/

/-- A page that is not the first one of a block may have any value in `private`. -/
theorem Represents.setPrivate (hr : Represents z L) (hq : ∀ k, q ∉ L k) (n : ℕ) :
    Represents (setPrivate z q n) L := by
  have hpages : ∀ x, ((State.setPrivate z q n).pages x).flags = (z.pages x).flags := by
    intro x
    by_cases hx : x = q
    · subst hx
      simp [State.setPrivate, Zone.updPage]
    · simp [State.setPrivate, Zone.updPage, update_of_ne hx]
  refine ⟨hr.blocks, fun k hk => (hr.ring k hk).transport fun _ _ => ⟨rfl, rfl⟩, hr.nrFree,
    fun x hx => ?_, fun k x hx => ?_⟩
  · unfold pagePrivate
    rw [hpages]
    exact hr.flag x hx
  · have hne : x ≠ q := fun h => hq k (h ▸ hx)
    simp only [State.setPrivate, Zone.updPage, update_of_ne hne]
    exact hr.order k x hx

/-- Eight free pages, where page 4 has the value 7 in its field `private`. -/
def staleFour : Zone := setPrivate eightFree 4 7

theorem buddyInvariant_staleFour : BuddyInvariant staleFour := by
  obtain ⟨L, hr⟩ := buddyInvariant_iff.mp buddyInvariant_eightFree
  refine buddyInvariant_iff.mpr ⟨L, Represents.setPrivate hr (fun k hk => ?_) 7⟩
  have hflag := (hr.flag 4 (by decide)).mpr ⟨k, hk⟩
  exact absurd hflag (by decide +kernel)

/-- **The field `private` of page 4 is not restored** when a page is taken and given back. -/
theorem private_lost_staleFour : BuddyInvariant staleFour ∧
    (allocateBlock staleFour 0).1 = some 0 ∧ (staleFour.pages 4).priv = 7 ∧
    ((freeBlock (allocateBlock staleFour 0).2 0 0).pages 4).priv = 0 :=
  ⟨buddyInvariant_staleFour, by decide +kernel, by decide +kernel, by decide +kernel⟩

end YegaKernel.Buddy.Undo
