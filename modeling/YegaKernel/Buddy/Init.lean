import YegaKernel.Buddy.Undo
import Mathlib.Logic.Function.Iterate

/-! # Setting up the zone

`create_zone` of `mm.c`, and `init_zone` with the self-test it ends with. The scan of `init_zone`
gives to the allocator exactly the pages with neither mark (`initRegions_spec`).

`test_buddy` frees what its two allocations returned without looking; where one returned a null
pointer, `free_block` is called on it, and the result is `none`. -/

namespace YegaKernel.Buddy.Init

open Lib.Links Lib.Word Lib.Dyadic
open Buddy.State Buddy.Ops Buddy.FreeBlocks
open Buddy.Represent Buddy.Spec Buddy.Run Buddy.Undo

/-! ### The code -/

/-- `create_zone`, on the zone as it was, the descriptors of `mem_map` and their number. -/
def createZone (z : Zone) (memMap : ℕ → Page) (totalramPages : ℕ)
    (h : sizeofPage * totalramPages ≤ 2 ^ 32) : Zone :=
  let z : Zone := { z with presentPages := totalramPages, present_le := h }
  let z := { z with freePages := (fun n => u32 (n + 1))^[z.presentPages] z.freePages }
  let z := { z with pages := memMap }
  (List.range buddyGroups).foldl (fun z k => initListHead z (Node.area k)) z

/-- The first loop of `init_zone`. -/
def initPages (z : Zone) : Zone :=
  (List.range z.presentPages).foldl
    (fun z i => initListHead (z.updPage i fun pg => { pg with pageNo := i }) (Node.lru i)) z

/-- The page is taken or reserved. -/
def marked (z : Zone) (i : ℕ) : Bool :=
  isFlag (z.pages i).flags pgFlagTaken || isFlag (z.pages i).flags pgFlagReserved

/-- The loop that skips marked pages. -/
def skipMarked (z : Zone) : ℕ → ℕ → ℕ
  | 0, i => i
  | fuel + 1, i => if i < z.presentPages ∧ marked z i then skipMarked z fuel (i + 1) else i

/-- The scan of `init_zone` from `iCnt`, where the pages from `iPrev` on are free; it returns the
last `iPrev`. -/
def scanLoop : ℕ → ℕ → ℕ → Zone → ℕ × Zone
  | 0, _, iPrev, z => (iPrev, z)
  | fuel + 1, iCnt, iPrev, z =>
    if iCnt < z.presentPages then
      if marked z iCnt then
        let z := if iPrev < iCnt then addFreeRegionToBuddy z iPrev (iCnt - 1) else z
        let iCnt := skipMarked z (z.presentPages - iCnt) iCnt
        scanLoop fuel iCnt iCnt z
      else scanLoop fuel (iCnt + 1) iPrev z
    else (iPrev, z)

/-- `init_zone` up to its self-test. -/
def initRegions (z : Zone) : Zone :=
  let z := initPages z
  let iCnt := skipMarked z z.presentPages 0
  let (iPrev, z) := scanLoop (z.presentPages + 1) iCnt iCnt z
  if iPrev < z.presentPages then addFreeRegionToBuddy z iPrev (z.presentPages - 1) else z

def testBuddy (z : Zone) : Option Zone :=
  let (page1, z) := allocateBlock z 9
  let (page2, z) := allocateBlock z 4
  match page2 with
  | none => none
  | some page2 =>
    let z := freeBlock z page2 4
    match page1 with
    | none => none
    | some page1 => some (freeBlock z page1 9)

def initZone (z : Zone) : Option Zone := testBuddy (initRegions z)

/-! ### Marks -/

theorem isFlag_private_mask (f : BitVec 32) :
    isFlag (f &&& ((~~~1#32) <<< 4)) pgFlagTaken = isFlag f pgFlagTaken ∧
      isFlag (f &&& ((~~~1#32) <<< 4)) pgFlagReserved = isFlag f pgFlagReserved := by
  unfold isFlag
  rw [BitVec.and_assoc, BitVec.and_assoc]
  exact ⟨rfl, rfl⟩

theorem isFlag_private_or (f : BitVec 32) :
    isFlag (f ||| pgFlagPrivate) pgFlagTaken = isFlag f pgFlagTaken ∧
      isFlag (f ||| pgFlagPrivate) pgFlagReserved = isFlag f pgFlagReserved := by
  have h : ∀ c : BitVec 32, pgFlagPrivate &&& c = 0#32 → (f ||| pgFlagPrivate) &&& c = f &&& c := by
    intro c hc
    rw [BitVec.and_comm, BitVec.and_or_distrib_left, BitVec.and_comm c pgFlagPrivate, hc,
      BitVec.or_zero, BitVec.and_comm]
  unfold isFlag
  rw [h _ (by decide), h _ (by decide)]
  exact ⟨rfl, rfl⟩

theorem marked_takeBlock (z : Zone) (k p i : ℕ) : marked (takeBlock z k p) i = marked z i := by
  by_cases h : i = p
  · subst h
    have h1 := isFlag_private_mask (z.pages i).flags
    unfold marked
    rw [← h1.1, ← h1.2]
    simp [takeBlock, setNrFree, setPrivate, clearPagePrivate, Zone.updPage]
  · unfold marked
    rw [takeBlock_pages_of_ne z k h]

theorem marked_putBlock (z : Zone) (k p i : ℕ) : marked (putBlock z k p) i = marked z i := by
  by_cases h : i = p
  · subst h
    have h1 := isFlag_private_or (z.pages i).flags
    unfold marked
    rw [← h1.1, ← h1.2]
    simp [putBlock, setNrFree, setPrivate, setPagePrivate, Zone.updPage]
  · unfold marked
    rw [putBlock_pages_of_ne z k h]

theorem marked_mergeBlock (i : ℕ) : ∀ (fuel order idx : ℕ) (z : Zone),
    marked (mergeBlock fuel order idx z).2.2 i = marked z i := by
  intro fuel
  induction fuel with
  | zero => intros; rfl
  | succ fuel ih =>
    intro order idx z
    by_cases hgo : order < buddyGroups - 1 ∧ buddy order idx < z.presentPages ∧
        pageIsBuddy z (buddy order idx) order = true
    · rw [mergeBlock_succ hgo.1 hgo.2.1 hgo.2.2, ih, marked_takeBlock]
    · rw [mergeBlock_stop hgo]

theorem marked_freeBlock (z : Zone) (p order i : ℕ) : marked (freeBlock z p order) i = marked z i := by
  have h := marked_mergeBlock i buddyGroups order p { z with freePages := u32 (z.freePages + 2 ^ order) }
  exact (marked_putBlock _ _ _ i).trans h

theorem marked_addRegionLoop (fin i : ℕ) : ∀ (fuel current : ℕ) (z : Zone),
    marked (addRegionLoop fuel current fin z) i = marked z i := by
  intro fuel
  induction fuel with
  | zero => intros; rfl
  | succ fuel ih =>
    intro current z
    rw [addRegionLoop]
    split_ifs
    · rw [ih, marked_freeBlock]
    · rfl

/-! ### The scan -/

theorem skipMarked_spec (z : Zone) : ∀ (fuel i : ℕ), i ≤ z.presentPages →
    z.presentPages ≤ i + fuel → i ≤ skipMarked z fuel i ∧ skipMarked z fuel i ≤ z.presentPages ∧
      (∀ x, i ≤ x → x < skipMarked z fuel i → marked z x = true) ∧
      (skipMarked z fuel i < z.presentPages → marked z (skipMarked z fuel i) = false)
  | 0, i, hi, hf => by
    rw [skipMarked]
    exact ⟨le_rfl, hi, fun x h1 h2 => by omega, fun h => by omega⟩
  | fuel + 1, i, hi, hf => by
    rw [skipMarked]
    split_ifs with h
    · obtain ⟨h1, h2, h3, h4⟩ := skipMarked_spec z fuel (i + 1) (by omega) (by omega)
      refine ⟨by omega, h2, fun x hx hx' => ?_, h4⟩
      rcases Nat.eq_or_lt_of_le hx with rfl | hx
      · exact h.2
      · exact h3 x hx hx'
    · refine ⟨le_rfl, hi, fun x h1 h2 => by omega, fun hlt => ?_⟩
      rw [Bool.eq_false_iff]
      exact fun hm => h ⟨hlt, hm⟩

/-- **The state of the scan**: of the pages below `i` exactly the unmarked ones are free, and
`free_pages` has grown by their number. -/
structure Scanned (z₀ z : Zone) (L : ℕ → List ℕ) (i : ℕ) : Prop where
  moves : Moves z₀ z (fun _ => []) L
  marks : ∀ x, marked z x = marked z₀ x
  covers : ∀ x, Covers L x ↔ x < i ∧ marked z₀ x = false
  count : u32 z.freePages = u32 (z₀.freePages + total L)

variable {z₀ z : Zone} {L : ℕ → List ℕ}

theorem Scanned.addRegion {i j : ℕ} (h : Scanned z₀ z L i)
    (hij : i < j) (hj : j ≤ z₀.presentPages) (hun : ∀ x, i ≤ x → x < j → marked z₀ x = false) :
    ∃ L', Scanned z₀ (addFreeRegionToBuddy z i (j - 1)) L' j := by
  have hfresh : ∀ x, i ≤ x → x ≤ j - 1 → x < z.presentPages ∧ ¬ Covers L x := fun x hx hx' =>
    ⟨by rw [h.moves.present]; omega, fun hc => by
      have := (h.covers x).mp hc
      omega⟩
  obtain ⟨L', hmv, hcov, htot, hfp⟩ := addFreeRegionToBuddy_spec h.moves.rep hfresh
  refine ⟨L', h.moves.trans hmv fun x hx => Or.inr ((hcov x).mpr (Or.inl hx)), fun x => ?_,
    fun x => ?_, ?_⟩
  · exact (marked_addRegionLoop _ x _ _ z).trans (h.marks x)
  · rw [hcov, h.covers]
    constructor
    · rintro (⟨h1, h2⟩ | ⟨h1, h2⟩)
      · exact ⟨by omega, h2⟩
      · exact ⟨by omega, hun x h1 (by omega)⟩
    · rintro ⟨h1, h2⟩
      by_cases hx : x < i
      · exact Or.inl ⟨hx, h2⟩
      · exact Or.inr (by omega)
  · have hc := h.count
    rw [hfp, htot]
    unfold u32 at hc ⊢
    omega

theorem Scanned.skip {i j : ℕ} (h : Scanned z₀ z L i) (hij : i ≤ j)
    (hm : ∀ x, i ≤ x → x < j → marked z₀ x = true) : Scanned z₀ z L j := by
  refine ⟨h.moves, h.marks, fun x => ?_, h.count⟩
  rw [h.covers]
  constructor
  · rintro ⟨h1, h2⟩
    exact ⟨by omega, h2⟩
  · rintro ⟨h1, h2⟩
    refine ⟨?_, h2⟩
    by_contra hx
    rw [hm x (by omega) h1] at h2
    exact absurd h2 (by simp)

theorem scanLoop_spec : ∀ (fuel iCnt iPrev : ℕ) (z : Zone) (L : ℕ → List ℕ),
    Scanned z₀ z L iPrev → iPrev ≤ iCnt → iCnt ≤ z₀.presentPages →
      (∀ x, iPrev ≤ x → x < iCnt → marked z₀ x = false) → z₀.presentPages < iCnt + fuel →
      ∃ iPrev' z' L', scanLoop fuel iCnt iPrev z = (iPrev', z') ∧ Scanned z₀ z' L' iPrev' ∧
        ∀ x, iPrev' ≤ x → x < z₀.presentPages → marked z₀ x = false := by
  intro fuel
  induction fuel with
  | zero => omega
  | succ fuel ih =>
    intro iCnt iPrev z L hs hle hpres hun hf
    rw [scanLoop]
    by_cases hlt : iCnt < z.presentPages
    · rw [if_pos hlt]
      by_cases hmk : marked z iCnt = true
      · rw [if_pos hmk]
        simp only
        obtain ⟨L1, hs1⟩ : ∃ L', Scanned z₀
            (if iPrev < iCnt then addFreeRegionToBuddy z iPrev (iCnt - 1) else z) L' iCnt := by
          split_ifs with hreg
          · exact hs.addRegion hreg hpres hun
          · obtain rfl : iPrev = iCnt := by omega
            exact ⟨L, hs⟩
        generalize (if iPrev < iCnt then addFreeRegionToBuddy z iPrev (iCnt - 1) else z) = z1 at hs1 ⊢
        have hp1 := hs1.moves.present
        obtain ⟨h1, h2, h3, h4⟩ := skipMarked_spec z1 (z1.presentPages - iCnt) iCnt (by omega)
          (by omega)
        generalize skipMarked z1 (z1.presentPages - iCnt) iCnt = j at h1 h2 h3 h4 ⊢
        have hij : iCnt < j := by
          by_contra hc
          obtain rfl : j = iCnt := by omega
          have := h4 (by rw [hp1, ← hs.moves.present]; exact hlt)
          rw [hs1.marks, ← hs.marks, hmk] at this
          exact absurd this (by simp)
        have hs2 := hs1.skip h1 fun x hx hx' => by rw [← hs1.marks]; exact h3 x hx hx'
        exact ih j j z1 L1 hs2 le_rfl (by omega) (fun x hx hx' => by omega) (by omega)
      · rw [if_neg hmk]
        refine ih (iCnt + 1) iPrev z L hs (by omega) (by rw [← hs.moves.present]; exact hlt)
          (fun x hx hx' => ?_) (by omega)
        rcases Nat.lt_succ_iff_lt_or_eq.mp hx' with hx' | rfl
        · exact hun x hx hx'
        · rw [← hs.marks]
          exact Bool.eq_false_iff.mpr hmk
    · rw [if_neg hlt]
      have := hs.moves.present
      exact ⟨iPrev, z, L, rfl, hs, fun x hx hx' => hun x hx (by omega)⟩

/-! ### The loops that initialise -/

theorem initPages_loop (z : Zone) : ∀ n, (List.range n).foldl
    (fun z i => initListHead (z.updPage i fun pg => { pg with pageNo := i }) (Node.lru i)) z =
      { z with
        pages := fun p => if p < n then { z.pages p with pageNo := p } else z.pages p
        links := fun m => match m with
          | .lru p => if p < n then ⟨Node.lru p, Node.lru p⟩ else z.links (Node.lru p)
          | m => z.links m }
  | 0 => by
    obtain ⟨_, _, _, links, _, _⟩ := z
    simp only [List.range_zero, List.foldl_nil, Nat.not_lt_zero, if_false]
    congr 1
    funext m
    cases m <;> rfl
  | n + 1 => by
    rw [List.range_succ, List.foldl_append, initPages_loop z n]
    simp only [List.foldl_cons, List.foldl_nil, initListHead, LinkStore.setNext, LinkStore.setPrev,
      Zone.updPage]
    congr 1
    · funext p
      by_cases hp : p = n
      · subst hp; simp
      · rw [Function.update_of_ne hp]
        have : p < n + 1 ↔ p < n := by omega
        simp only [this]
    · funext m
      rcases m with _ | k | p | a
      · simp
      · simp
      · by_cases hp : p = n
        · subst hp; simp
        · have : p < n + 1 ↔ p < n := by omega
          simp [hp, this]
      · simp

/-- What the first loop of `init_zone` leaves: page numbers, and list heads linked to themselves. -/
theorem initPages_eq (z : Zone) : initPages z = { z with
      pages := fun p => if p < z.presentPages then { z.pages p with pageNo := p } else z.pages p
      links := fun m => match m with
        | .lru p => if p < z.presentPages then ⟨Node.lru p, Node.lru p⟩ else z.links (Node.lru p)
        | m => z.links m } :=
  initPages_loop z z.presentPages

theorem initAreas_loop (z : Zone) : ∀ n,
    (List.range n).foldl (fun z k => initListHead z (Node.area k)) z =
      { z with links := fun m => match m with
        | .area k => if k < n then ⟨Node.area k, Node.area k⟩ else z.links (Node.area k)
        | m => z.links m }
  | 0 => by
    obtain ⟨_, _, _, links, _, _⟩ := z
    simp only [List.range_zero, List.foldl_nil, Nat.not_lt_zero, if_false]
    congr 1
    funext m
    cases m <;> rfl
  | n + 1 => by
    rw [List.range_succ, List.foldl_append, initAreas_loop z n]
    simp only [List.foldl_cons, List.foldl_nil, initListHead, LinkStore.setNext, LinkStore.setPrev]
    congr 1
    funext m
    rcases m with _ | k | p | a
    · simp
    · by_cases hk : k = n
      · subst hk; simp
      · have : k < n + 1 ↔ k < n := by omega
        simp [hk, this]
    · simp
    · simp

theorem count_loop (a : ℕ) : ∀ m, u32 ((fun n => u32 (n + 1))^[m] a) = u32 (a + m)
  | 0 => rfl
  | m + 1 => by
    have ih := count_loop a m
    rw [Function.iterate_succ_apply']
    unfold u32 at ih ⊢
    omega

/-- The zone in its zeroed static storage. -/
def zoneBss : Zone where
  freePages := 0
  presentPages := 0
  pages := fun _ => ⟨0, 0#32, 0, 0⟩
  links := fun _ => ⟨Node.null, Node.null⟩
  nrFree := fun _ => 0
  present_le := by decide

/-- **A zone before the scan**: its lists are empty, and no page has the flag `PG_FLAG_private`. The
marks of the pages are arbitrary. -/
structure Unfilled (z : Zone) : Prop where
  lists : ∀ k < buddyGroups, z.links (Node.area k) = ⟨Node.area k, Node.area k⟩
  counts : ∀ k < buddyGroups, z.nrFree k = 0
  flags : ∀ p < z.presentPages, pagePrivate z p = false

section Scan
variable {z : Zone}

theorem presentPages_initPages (z : Zone) : (initPages z).presentPages = z.presentPages := by
  rw [initPages_eq]

theorem freePages_initPages (z : Zone) : (initPages z).freePages = z.freePages := by
  rw [initPages_eq]

theorem flags_initPages (z : Zone) (p : ℕ) : ((initPages z).pages p).flags = (z.pages p).flags := by
  rw [initPages_eq]
  simp only
  split_ifs <;> rfl

theorem marked_initPages (z : Zone) (p : ℕ) : marked (initPages z) p = marked z p := by
  unfold marked
  rw [flags_initPages]

theorem Unfilled.represents (hz : Unfilled z) : Represents (initPages z) fun _ => [] := by
  have hlinks : ∀ k, (initPages z).links (Node.area k) = z.links (Node.area k) := fun k => by
    rw [initPages_eq]
  refine ⟨blocks_empty _, fun k hk => ?_, fun k hk => ?_, fun p hp => ?_, by simp⟩
  · refine ⟨List.pairwise_singleton _ _, ?_⟩
    rw [List.map_nil, List.cons_append, List.nil_append, List.isChain_cons_cons]
    have hk' := (hlinks k).trans (hz.lists k hk)
    exact ⟨⟨congrArg ListHead.next hk', congrArg ListHead.prev hk'⟩, .singleton _⟩
  · rw [initPages_eq]
    exact hz.counts k hk
  · rw [presentPages_initPages] at hp
    have hflag := hz.flags p hp
    unfold pagePrivate at hflag ⊢
    rw [flags_initPages, hflag]
    simp

theorem Unfilled.scanned (hz : Unfilled z) : Scanned (initPages z) (initPages z) (fun _ => []) 0 :=
  ⟨Moves.refl hz.represents, fun _ => rfl, fun x => by simp [Covers], rfl⟩

/-- **The scan of `init_zone`** hands over exactly the pages with neither mark. -/
theorem Unfilled.initRegions (hz : Unfilled z) : ∃ L, Represents (initRegions z) L ∧
    (initRegions z).presentPages = z.presentPages ∧
    (∀ x, Covers L x ↔ x < z.presentPages ∧ marked z x = false) ∧
    u32 (initRegions z).freePages = u32 (z.freePages + total L) := by
  have hs := hz.scanned
  have hpres := presentPages_initPages z
  have hmark := marked_initPages z
  have hcount := freePages_initPages z
  unfold Init.initRegions
  simp only
  generalize initPages z = z₀ at hs hmark hpres hcount ⊢
  obtain ⟨h1, h2, h3, -⟩ := skipMarked_spec z₀ z₀.presentPages 0 (Nat.zero_le _) (by omega)
  obtain ⟨iPrev, z', L', heq, hs', hrest⟩ := scanLoop_spec (z₀.presentPages + 1) _ _ z₀ _
    (hs.skip h1 h3) le_rfl h2 (fun x hx hx' => by omega) (by omega)
  rw [heq]
  obtain ⟨L, hsL⟩ : ∃ L, Scanned z₀ (if iPrev < z'.presentPages then
      addFreeRegionToBuddy z' iPrev (z'.presentPages - 1) else z') L z₀.presentPages := by
    have hp' := hs'.moves.present
    split_ifs with hlt
    · rw [hp']
      exact hs'.addRegion (by omega) le_rfl fun x hx hx' => hrest x hx (by omega)
    · refine ⟨L', hs'.moves, hs'.marks, fun x => ?_, hs'.count⟩
      have hb : Covers L' x → x < z₀.presentPages := by
        rintro ⟨k, p, hpk, hx⟩
        have := hx.lt_bound hs'.moves.rep.blocks hpk
        omega
      have := hs'.covers x
      constructor
      · exact fun hc => ⟨hb hc, (this.mp hc).2⟩
      · exact fun hc => this.mpr ⟨by omega, hc.2⟩
  refine ⟨L, hsL.moves.rep, hsL.moves.present.trans hpres, fun x => ?_, ?_⟩
  · rw [hsL.covers, hpres, hmark]
  · rw [hsL.count, hcount]

end Scan

section Create
variable {memMap : ℕ → Page} {n : ℕ} {h : sizeofPage * n ≤ 2 ^ 32}

theorem unfilled_createZone (hp : ∀ p < n, (memMap p).flags &&& pgFlagPrivate ≠ pgFlagPrivate) :
    Unfilled (createZone zoneBss memMap n h) := by
  unfold createZone
  rw [initAreas_loop]
  refine ⟨fun k hk => if_pos hk, fun _ _ => rfl, fun p hpn => ?_⟩
  exact decide_eq_false (hp p hpn)

/-- **The scan after `create_zone`**, which has counted all pages as free already. -/
theorem initRegions_spec (hp : ∀ p < n, (memMap p).flags &&& pgFlagPrivate ≠ pgFlagPrivate) :
    ∃ L, Represents (initRegions (createZone zoneBss memMap n h)) L ∧
      (initRegions (createZone zoneBss memMap n h)).presentPages = n ∧
      (∀ x, Covers L x ↔ x < n ∧ isFlag (memMap x).flags pgFlagTaken = false ∧
        isFlag (memMap x).flags pgFlagReserved = false) ∧
      u32 (initRegions (createZone zoneBss memMap n h)).freePages = u32 (n + total L) := by
  obtain ⟨L, hr, hpres, hcov, hcount⟩ := (unfilled_createZone (h := h) hp).initRegions
  have heq : createZone zoneBss memMap n h =
      { createZone zoneBss memMap n h with presentPages := n, present_le := h, pages := memMap } := by
    rw [createZone, initAreas_loop]
  have hfree : u32 (createZone zoneBss memMap n h).freePages = u32 n := by
    rw [createZone, initAreas_loop]
    rw [count_loop]
    simp [zoneBss]
  refine ⟨L, hr, ?_, fun x => ?_, ?_⟩
  · rw [hpres, heq]
  · rw [hcov, heq]
    simp only [marked, Bool.or_eq_false_iff]
  · rw [hcount]
    unfold u32 at hfree ⊢
    omega

end Create

/-! ### The self-test -/

theorem testBuddy_eq_some {z' : Zone} : testBuddy z = some z' ↔ ∃ p₁ z₁ p₂ z₂,
    allocateBlock z 9 = (some p₁, z₁) ∧ allocateBlock z₁ 4 = (some p₂, z₂) ∧
      freeBlock (freeBlock z₂ p₂ 4) p₁ 9 = z' := by
  unfold testBuddy
  rcases h₁ : allocateBlock z 9 with ⟨_ | p₁, z₁⟩ <;>
    rcases h₂ : allocateBlock z₁ 4 with ⟨_ | p₂, z₂⟩ <;> simp [h₂]

/-- A completed self-test leaves the free blocks, and `free_pages`, as they were. -/
theorem testBuddy_spec {z' : Zone} (hr : Represents z L) (h : testBuddy z = some z') :
    Represents z' L ∧ u32 z'.freePages = u32 z.freePages ∧ ∃ x, Covers L x := by
  obtain ⟨p₁, z₁, p₂, z₂, h₁, h₂, rfl⟩ := testBuddy_eq_some.mp h
  have hnested : Nested z (freeBlock (freeBlock z₂ p₂ 4) p₁ 9) :=
    .round 9 p₁ h₁ (.round 4 p₂ h₂ (.done _) (.done _)) (.done _)
  have hkept := hnested.kept hr
  obtain ⟨current, ps, htook⟩ := took_of_some hr h₁
  have hp : p₁ ∈ L current := by rw [htook.chosen.list]; simp
  exact ⟨hkept.rep, hkept.freePages, p₁, current, p₁, hp, inBlock_start current p₁⟩

/-! ### What the scan hands over -/

/-- **The loop of `add_free_region_to_buddy`** from `current` on, round by round, until it ends. -/
inductive RegionLoop (fin : ℕ) : ℕ → Zone → Zone → Prop
  | exit {current : ℕ} (z : Zone) (h : fin < current) : RegionLoop fin current z z
  | round {current : ℕ} {z z' : Zone} (h : current ≤ fin)
      (rest : RegionLoop fin (current + 2 ^ regionOrder current (fin - current + 1))
        (freeBlock z current (regionOrder current (fin - current + 1))) z') :
      RegionLoop fin current z z'

theorem regionLoop_addRegionLoop (fin : ℕ) : ∀ (fuel current : ℕ) (z : Zone),
    fin + 1 ≤ current + fuel → RegionLoop fin current z (addRegionLoop fuel current fin z)
  | 0, current, z, hf => .exit z (by omega)
  | fuel + 1, current, z, hf => by
    rw [addRegionLoop]
    by_cases hc : current ≤ fin
    · rw [if_pos hc]
      have hpos : 0 < 2 ^ regionOrder current (fin - current + 1) := by positivity
      exact .round hc (regionLoop_addRegionLoop fin fuel _ _ (by omega))
    · rw [if_neg hc]
      exact .exit z (by omega)

theorem existsUnique_block (hr : Represents z L) {x : ℕ} (h : PageFree z x) :
    ∃! b : ℕ × ℕ, b.1 < buddyGroups ∧ b.2 ∈ freeList z b.1 ∧ InBlock b.1 b.2 x := by
  obtain ⟨k, hk, p, hp, hx⟩ := h
  refine ⟨(k, p), ⟨hk, hp, hx⟩, fun b ⟨hj, hq, hxb⟩ => ?_⟩
  rw [hr.freeList_eq hk] at hp
  rw [hr.freeList_eq hj] at hq
  by_contra hne
  rw [Prod.ext_iff, not_and_or] at hne
  have hapart := hr.blocks.disjoint b.1 k b.2 hq p hp hne
  unfold InBlock at hxb
  omega

/-- **`init_zone` hands over exactly the unreserved pages**: a page is in a block on a free list if
and only if it has neither mark, then it is in one block only, and that block is once on its list.
The loop that adds a region ends, whatever the region. -/
theorem initRegions_hands_over {z : Zone} (hz : Unfilled z) :
    (∀ x, PageFree (initRegions z) x ↔ x < z.presentPages ∧
      isFlag (z.pages x).flags pgFlagTaken = false ∧
        isFlag (z.pages x).flags pgFlagReserved = false) ∧
    (∀ x, PageFree (initRegions z) x → ∃! b : ℕ × ℕ, b.1 < buddyGroups ∧
      b.2 ∈ freeList (initRegions z) b.1 ∧ InBlock b.1 b.2 x) ∧
    (∀ k < buddyGroups, (freeList (initRegions z) k).Nodup) ∧
    ∀ y start fin, RegionLoop fin start y (addFreeRegionToBuddy y start fin) := by
  obtain ⟨L, hr, -, hcov, -⟩ := hz.initRegions
  refine ⟨fun x => ?_, fun x => existsUnique_block hr, fun k hk => ?_, fun y start fin => ?_⟩
  · rw [hr.pageFree_iff, hcov, marked, Bool.or_eq_false_iff]
  · rw [hr.freeList_eq hk]
    exact hr.blocks.nodup k
  · exact regionLoop_addRegionLoop fin (fin + 1 - start) start y (by omega)

/-- The zone of `n` pages with the marks given, whose other fields are zero. -/
def markedZone (n : ℕ) (h : sizeofPage * n ≤ 2 ^ 32) (taken reserved : ℕ → Bool) : Zone :=
  { emptyZone n h with pages := fun p => ⟨0,
      (if taken p then pgFlagTaken else 0#32) ||| (if reserved p then pgFlagReserved else 0#32),
      0, 0⟩ }

theorem unfilled_markedZone (n : ℕ) (h : sizeofPage * n ≤ 2 ^ 32) (taken reserved : ℕ → Bool) :
    Unfilled (markedZone n h taken reserved) := by
  refine ⟨fun _ _ => rfl, fun _ _ => rfl, fun p _ => ?_⟩
  unfold pagePrivate markedZone
  simp only
  split_ifs <;> decide

/-- Of seven pages the first and the third are marked: the other five are in three blocks. -/
theorem initRegions_hands_over_seven :
    let z := markedZone 7 (by decide) (fun p => p = 0) fun p => p = 2
    Unfilled z ∧ (∀ x, PageFree (initRegions z) x ↔ x = 1 ∨ 3 ≤ x ∧ x < 7) ∧
      freeList (initRegions z) 0 = [6, 3, 1] ∧ freeList (initRegions z) 1 = [4] := by
  intro z
  have hz : Unfilled z := unfilled_markedZone 7 _ _ _
  refine ⟨hz, fun x => ?_, by decide +kernel, by decide +kernel⟩
  rw [(initRegions_hands_over hz).1 x]
  constructor
  · rintro ⟨hx, hmarks⟩
    change x < 7 at hx
    interval_cases x <;> revert hmarks <;> decide +kernel
  · intro hx
    have hx7 : x < 7 := by omega
    refine ⟨hx7, ?_⟩
    interval_cases x <;> revert hx <;> decide +kernel

end YegaKernel.Buddy.Init
