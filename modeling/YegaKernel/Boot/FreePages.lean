import YegaKernel.Boot.Ownership
import YegaKernel.Boot.UsablePages
import YegaKernel.Lib.Runs

/-! # Page frames handed out during `init_mem`

`get_free_page` returns the physical address of a page frame, and 0 where all frames are taken. As 0
is also the address of the frame 0, its callers can tell the two apart only as long as this frame is
marked as taken (`not_distinguishable_of_low`). `create_mem_map` marks it, but `copy_mem_map` clears
the marks of all frames below `max_low_pfn` (`not_distinguishable_of_copy`).

The system: `copy_mem_map` calls `get_free_page` for each page of the new array, copies the
descriptors, frees the old array and clears the marks; from then on frames are handed out, some are
filled with a page table, and frames are released, in any order. -/

namespace YegaKernel.Boot.FreePages

open Relation (ReflTransGen)
open Lib.Word Lib.Loops Lib.Runs
open Buddy.State Boot.FirstFit Boot.MemoryMap
open Boot.PageArray Boot.UsablePages Boot.Paging
open Boot.Ownership (visitBlocks_mem)

/-! ### The code -/

/-- `get_free_page`: the address of the frame, and 0 where none is left. -/
def getFreePageAddr (totalram : ℕ) (pages : ℕ → Page) : ℕ × (ℕ → Page) :=
  match getFreePage totalram pages with
  | none => (0, pages)
  | some (iCnt, pages) => (u32 (iCnt * pageSize), pages)

def releasePage (phyAddr : ℕ) (pages : ℕ → Page) : ℕ → Page :=
  let page := phyAddr / pageSize
  Function.update pages page { pages page with flags := (pages page).flags &&& ~~~pgFlagTaken }

/-- What `init_mem` is doing. -/
inductive Phase
  | /-- the loop of `copy_mem_map` after `calls` calls -/
    copying (calls : ℕ)
  | running

/-- **The state**: `mem_map`, the local `phy_start` of `copy_mem_map`, the descriptors, and the
results of `get_free_page` whose frame has not been released since. -/
structure InitMem where
  phase : Phase
  memMap : ℕ
  phyStart : ℕ
  pages : ℕ → Page
  out : List ℕ

/-- The calls. A store into `mem_map` that is not one of `get_free_page` or `release_page` leaves
the descriptors as `garbage`. -/
inductive Action
  | /-- `get_free_page` -/
    get
  | /-- `memcpy`, `kbfree` and the loop that clears the marks, at the end of `copy_mem_map` -/
    copy (garbage : ℕ → Page)
  | /-- `get_free_page`, and a store to the frame as in `setup_paging` and `test_mmu` -/
    table (garbage : ℕ → Page)
  | /-- `release_page` -/
    release (phyAddr : ℕ)

/-- One action. -/
def step (mbi : MultibootInfo) (s : InitMem) : Action → Option InitMem
  | .get =>
    let r := getFreePageAddr (totalramPages mbi) s.pages
    match s.phase with
    | .copying calls =>
      if calls < pageReq (totalramPages mbi) then
        some ⟨.copying (calls + 1), s.memMap, if calls = 0 then r.1 else s.phyStart, r.2, r.1 :: s.out⟩
      else none
    | .running => some ⟨.running, s.memMap, s.phyStart, r.2, r.1 :: s.out⟩
  | .copy garbage =>
    match s.phase with
    | .copying calls =>
      if calls = pageReq (totalramPages mbi) then
        let pages := movedPages s.phyStart s.memMap (totalramPages mbi) garbage s.pages
        some ⟨.running, s.phyStart, s.phyStart, forRange 0 (maxLowPfn mbi) (fun _ => clearMarks) pages,
          s.out⟩
      else none
    | .running => none
  | .table garbage =>
    match s.phase with
    | .copying _ => none
    | .running =>
      let r := getFreePageAddr (totalramPages mbi) s.pages
      let pages := storedPages r.1 s.memMap (totalramPages mbi) garbage r.2
      some ⟨.running, s.memMap, s.phyStart, pages, r.1 :: s.out⟩
  | .release phyAddr =>
    match s.phase with
    | .copying _ => none
    | .running => some ⟨.running, s.memMap, s.phyStart, releasePage phyAddr s.pages,
        s.out.filter fun a => a / pageSize ≠ phyAddr / pageSize⟩

/-- The state when `create_mem_map` has returned. -/
def created (memMap : ℕ) (pages : ℕ → Page) : InitMem := ⟨.copying 0, memMap, 0, pages, []⟩

/-! ### What a caller can tell -/

/-- **A failure can be told from a success**: the next `get_free_page` returns 0 only if every frame
is taken; any other result is a frame that was not taken, and differs from all results not released
since. -/
structure Distinguishable (totalram : ℕ) (s : InitMem) : Prop where
  failure : (getFreePageAddr totalram s.pages).1 = 0 → ∀ i < totalram, taken (s.pages i) = true
  success : (getFreePageAddr totalram s.pages).1 ≠ 0 → ∃ i < totalram,
    (getFreePageAddr totalram s.pages).1 = i * pageSize ∧ taken (s.pages i) = false ∧
      (getFreePageAddr totalram s.pages).1 ∉ s.out

section Get
variable {totalram : ℕ} {pages : ℕ → Page}

/-- **`get_free_page`** fails if all frames are taken, and takes the lowest one otherwise. -/
theorem getFreePageAddr_cases (hn : totalram ≤ 2 ^ 20) (pages : ℕ → Page) :
    (getFreePageAddr totalram pages = (0, pages) ∧ ∀ i < totalram, taken (pages i) = true) ∨
      ∃ i pages', getFreePageAddr totalram pages = (i * pageSize, pages') ∧
        Takes totalram pages pages' [i] ∧ ∀ j < i, taken (pages j) = true := by
  unfold getFreePageAddr
  rcases hg : getFreePage totalram pages with _ | ⟨i, pages'⟩
  · left
    refine ⟨rfl, fun i hi => ?_⟩
    unfold getFreePage at hg
    split at hg
    · rename_i hnone
      have hnot := List.find?_eq_none.mp hnone i (List.mem_range.mpr hi)
      rw [decide_eq_true_eq] at hnot
      rw [← Bool.not_eq_false]
      exact fun hz => hnot ((and_shift_eq_zero _ (by norm_num)).mpr hz)
    · exact absurd hg (by simp)
  · right
    obtain ⟨htake, hmin⟩ := getFreePage_spec hg
    have hlt := htake.lt i List.mem_cons_self
    refine ⟨i, pages', ?_, htake, hmin⟩
    simp only
    rw [u32_of_lt (by unfold pageSize; omega)]

theorem not_distinguishable_of_low {s : InitMem} (hn : totalram ≤ 2 ^ 20) (h0 : 0 < totalram)
    (hfree : taken (s.pages 0) = false) : ¬ Distinguishable totalram s := by
  intro hd
  rcases getFreePageAddr_cases hn s.pages with ⟨-, hall⟩ | ⟨i, pages', heq, -, hmin⟩
  · rw [hall 0 h0] at hfree
    exact absurd hfree (by simp)
  · -- the frame taken is the lowest one
    obtain rfl : i = 0 := by
      by_contra hi
      rw [hmin 0 (Nat.pos_of_ne_zero hi)] at hfree
      exact absurd hfree (by simp)
    have hzero : (getFreePageAddr totalram s.pages).1 = 0 := by rw [heq, Nat.zero_mul]
    rw [hd.failure hzero 0 h0] at hfree
    exact absurd hfree (by simp)

end Get

/-! ### The frames that stay marked -/

/-- **The marks in order**: the frame 0 is taken, and so is every frame handed out. -/
structure Marked (totalram : ℕ) (pages : ℕ → Page) (out : List ℕ) : Prop where
  low : 0 < totalram → taken (pages 0) = true
  out : ∀ a ∈ out, a = 0 ∨ ∃ i < totalram, a = i * pageSize ∧ taken (pages i) = true

section Marked
variable {totalram : ℕ} {pages pages' : ℕ → Page} {out : List ℕ}

theorem Marked.distinguishable {s : InitMem} (hm : Marked totalram s.pages s.out)
    (hn : totalram ≤ 2 ^ 20) : Distinguishable totalram s := by
  rcases getFreePageAddr_cases hn s.pages with ⟨heq, hall⟩ | ⟨i, pages', heq, htake, -⟩
  · exact ⟨fun _ => hall, fun hne => absurd (by rw [heq]) hne⟩
  · have hlt := htake.lt i List.mem_cons_self
    have hfresh := htake.fresh i List.mem_cons_self
    have hpos : 0 < i * pageSize := by
      refine Nat.mul_pos (Nat.pos_of_ne_zero ?_) (by decide)
      rintro rfl
      rw [hm.low hlt] at hfresh
      exact absurd hfresh (by simp)
    refine ⟨fun hzero => ?_, fun _ => ⟨i, hlt, by rw [heq], hfresh, ?_⟩⟩
    · rw [heq] at hzero
      exact absurd hzero (Nat.pos_iff_ne_zero.mp hpos)
    · rw [heq]
      intro hmem
      -- a result that is still out belongs to a frame that is taken
      rcases hm.out _ hmem with hzero | ⟨j, -, hij, htaken⟩
      · exact absurd hzero (Nat.pos_iff_ne_zero.mp hpos)
      · obtain rfl := Nat.eq_of_mul_eq_mul_right (by decide) hij
        rw [htaken] at hfresh
        exact absurd hfresh (by simp)

theorem Marked.mono (hm : Marked totalram pages out)
    (hp : ∀ i < totalram, taken (pages i) = true → taken (pages' i) = true) :
    Marked totalram pages' out := by
  refine ⟨fun h0 => hp 0 h0 (hm.low h0), fun a ha => ?_⟩
  rcases hm.out a ha with hzero | ⟨i, hi, rfl, htaken⟩
  · exact Or.inl hzero
  · exact Or.inr ⟨i, hi, rfl, hp i hi htaken⟩

theorem Marked.get (hm : Marked totalram pages out) (hn : totalram ≤ 2 ^ 20) {a : ℕ}
    (hget : getFreePageAddr totalram pages = (a, pages')) : Marked totalram pages' (a :: out) := by
  rcases getFreePageAddr_cases hn pages with ⟨heq, -⟩ | ⟨i, pages'', heq, htake, -⟩
  · obtain ⟨rfl, rfl⟩ := Prod.mk.inj (heq.symm.trans hget)
    exact ⟨hm.low, List.forall_mem_cons.mpr ⟨Or.inl rfl, hm.out⟩⟩
  · obtain ⟨rfl, rfl⟩ := Prod.mk.inj (heq.symm.trans hget)
    have hmore : Marked totalram pages'' out :=
      hm.mono fun j _ hj => by rw [htake.taken j, hj, Bool.true_or]
    refine ⟨hmore.low, List.forall_mem_cons.mpr ⟨Or.inr ⟨i, ?_, rfl, ?_⟩, hmore.out⟩⟩
    · exact htake.lt i List.mem_cons_self
    · rw [htake.taken i]
      simp

theorem not_meets_get {memMap : ℕ} (hn : totalram ≤ 2 ^ 20)
    (harray : ∀ i, Meets (i * pageSize) memMap totalram →
      i ≠ 0 ∧ (i < totalram → taken (pages i) = true)) {a : ℕ}
    (hget : getFreePageAddr totalram pages = (a, pages')) : ¬ Meets a memMap totalram := by
  rcases getFreePageAddr_cases hn pages with ⟨heq, -⟩ | ⟨i, pages'', heq, htake, -⟩
  · obtain ⟨rfl, rfl⟩ := Prod.mk.inj (heq.symm.trans hget)
    intro hmeets
    exact (harray 0 (by rwa [Nat.zero_mul])).1 rfl
  · obtain ⟨rfl, rfl⟩ := Prod.mk.inj (heq.symm.trans hget)
    intro hmeets
    have hfresh := htake.fresh i List.mem_cons_self
    rw [(harray i hmeets).2 (htake.lt i List.mem_cons_self)] at hfresh
    exact absurd hfresh (by simp)

theorem releasePage_of_ne {phyAddr i : ℕ} (hi : i ≠ phyAddr / pageSize) :
    releasePage phyAddr pages i = pages i := Function.update_of_ne hi _ _

theorem Marked.release (hm : Marked totalram pages out) {phyAddr : ℕ} (h0 : phyAddr / pageSize ≠ 0) :
    Marked totalram (releasePage phyAddr pages)
      (out.filter fun a => a / pageSize ≠ phyAddr / pageSize) := by
  refine ⟨fun hpos => ?_, fun a ha => ?_⟩
  · rw [releasePage_of_ne (Ne.symm h0)]
    exact hm.low hpos
  · obtain ⟨hmem, hother⟩ := List.mem_filter.mp ha
    rcases hm.out a hmem with hzero | ⟨i, hi, rfl, htaken⟩
    · exact Or.inl hzero
    · have hne : i ≠ phyAddr / pageSize := by
        rw [decide_eq_true_eq, Nat.mul_div_cancel _ (by decide)] at hother
        exact hother
      exact Or.inr ⟨i, hi, rfl, by rwa [releasePage_of_ne hne]⟩

end Marked

/-! ### Runs -/

/-- **What an action has to satisfy** in the state before it: no marks are cleared by `copy_mem_map`
and the descriptors arrive as they were, a page table is written only while the frames of the
array are taken and the frame 0 is not one of them, and the frame 0 is not released. -/
def Careful (mbi : MultibootInfo) (s : InitMem) : Action → Prop
  | .get => True
  | .copy _ => maxLowPfn mbi = 0 ∧ MovesIntact s.phyStart s.memMap (totalramPages mbi)
  | .table _ => ∀ i, Meets (i * pageSize) s.memMap (totalramPages mbi) →
      i ≠ 0 ∧ (i < totalramPages mbi → taken (s.pages i) = true)
  | .release phyAddr => phyAddr / pageSize ≠ 0

variable {mbi : MultibootInfo} {s s' : InitMem}

/-- What an action does to the descriptors and the results. -/
def effect (mbi : MultibootInfo) (s : InitMem) : Action → (ℕ → Page) × List ℕ
  | .get =>
    let r := getFreePageAddr (totalramPages mbi) s.pages
    (r.2, r.1 :: s.out)
  | .copy garbage =>
    (forRange 0 (maxLowPfn mbi) (fun _ => clearMarks)
      (movedPages s.phyStart s.memMap (totalramPages mbi) garbage s.pages), s.out)
  | .table garbage =>
    let r := getFreePageAddr (totalramPages mbi) s.pages
    (storedPages r.1 s.memMap (totalramPages mbi) garbage r.2, r.1 :: s.out)
  | .release phyAddr =>
    (releasePage phyAddr s.pages, s.out.filter fun a => a / pageSize ≠ phyAddr / pageSize)

theorem step_effect {a : Action} (hs : step mbi s a = some s') :
    s'.pages = (effect mbi s a).1 ∧ s'.out = (effect mbi s a).2 := by
  unfold step at hs
  cases a with
  | get =>
    rcases hphase : s.phase with calls | _
    · simp only [hphase, Option.ite_none_right_eq_some, Option.some.injEq] at hs
      rw [← hs.2]
      exact ⟨rfl, rfl⟩
    · simp only [hphase, Option.some.injEq] at hs
      rw [← hs]
      exact ⟨rfl, rfl⟩
  | copy garbage =>
    rcases hphase : s.phase with calls | _
    · simp only [hphase, Option.ite_none_right_eq_some, Option.some.injEq] at hs
      rw [← hs.2]
      exact ⟨rfl, rfl⟩
    · simp [hphase] at hs
  | table garbage =>
    rcases hphase : s.phase with calls | _
    · simp [hphase] at hs
    · simp only [hphase, Option.some.injEq] at hs
      rw [← hs]
      exact ⟨rfl, rfl⟩
  | release phyAddr =>
    rcases hphase : s.phase with calls | _
    · simp [hphase] at hs
    · simp only [hphase, Option.some.injEq] at hs
      rw [← hs]
      exact ⟨rfl, rfl⟩

theorem Marked.step (hm : Marked (totalramPages mbi) s.pages s.out) {a : Action} (ha : Careful mbi s a)
    (hs : step mbi s a = some s') : Marked (totalramPages mbi) s'.pages s'.out := by
  have hn : totalramPages mbi ≤ 2 ^ 20 := (totalramPages_lt mbi).le
  obtain ⟨hpages, hout⟩ := step_effect hs
  rw [hpages, hout]
  rcases hget : getFreePageAddr (totalramPages mbi) s.pages with ⟨addr, pages'⟩
  cases a with
  | get =>
    simp only [effect, hget]
    exact hm.get hn hget
  | copy garbage =>
    obtain ⟨hlow, hintact⟩ := ha
    rw [effect, movedPages_of_intact hintact, hlow]
    exact hm
  | table garbage =>
    simp only [effect, hget, storedPages_of_not_meets (not_meets_get hn ha hget)]
    exact hm.get hn hget
  | release phyAddr => exact hm.release ha

/-- `create_mem_map` leaves the frame 0 marked, unless a block starts inside the last page of the
address space, whose `page_start` wraps around to 0. -/
theorem marked_created {fuel memMap : ℕ} {h : Heap} {blocks : List MemoryBlock} {pages : ℕ → Page}
    (hc : createMemMap fuel h mbi blocks = some (memMap, pages))
    (hb : ∀ b ∈ blocks, b.start ≤ 0xFFFFF000) : Marked (totalramPages mbi) pages [] := by
  obtain ⟨-, -, visited, hvisited, hbits⟩ := createMemMap_spec hc
  refine ⟨fun h0 => ?_, by simp⟩
  rw [← Bool.not_eq_false, (hbits 0 h0).1]
  rintro ⟨b, hmem, hstart, -⟩
  obtain ⟨hblock, hne, -⟩ := visitBlocks_mem blocks fuel 0 visited hvisited b hmem
  have hle := hb b hblock
  unfold pageStart u32 pageSize at hstart
  simp only at hstart
  split_ifs at hstart <;> omega

theorem maxLowPfn_le_totalram (mbi : MultibootInfo) : maxLowPfn mbi ≤ totalramPages mbi := by
  unfold maxLowPfn
  simp only
  split_ifs <;> omega

/-- **`copy_mem_map` frees the frame 0** on every machine with a frame below `mem_lower`. -/
theorem not_distinguishable_of_copy {garbage : ℕ → Page} (hlow : maxLowPfn mbi ≠ 0)
    (hs : step mbi s (.copy garbage) = some s') : ¬ Distinguishable (totalramPages mbi) s' := by
  have hle := maxLowPfn_le_totalram mbi
  refine not_distinguishable_of_low (totalramPages_lt mbi).le (by omega) ?_
  rw [(step_effect hs).1]
  simp only [effect]
  rw [forRange_apply, if_pos ⟨Nat.zero_le 0, Nat.pos_of_ne_zero hlow⟩]
  exact (bits_clearMarks _).1

theorem step_get_copying {n : ℕ} (hphase : s.phase = .copying n) (hn : n < pageReq (totalramPages mbi)) :
    ∃ s', step mbi s .get = some s' ∧ s'.phase = .copying (n + 1) := by
  unfold step
  simp only [hphase, if_pos hn]
  exact ⟨_, rfl, rfl⟩

theorem run_calls (mbi : MultibootInfo) (memMap : ℕ) (pages : ℕ → Page) :
    ∀ n ≤ pageReq (totalramPages mbi), ∃ s,
      ReflTransGen (Acts (fun _ _ => True) (step mbi)) (created memMap pages) s ∧ s.phase = .copying n
  | 0, _ => ⟨_, .refl, rfl⟩
  | n + 1, hn => by
    obtain ⟨s, hrun, hphase⟩ := run_calls mbi memMap pages n (by omega)
    obtain ⟨s', hstep, hphase'⟩ := step_get_copying hphase (Nat.lt_of_succ_le hn)
    exact ⟨s', hrun.tail ⟨.get, trivial, hstep⟩, hphase'⟩

/-- **Every machine with a frame below `mem_lower`** gets into a state in which a success of
`get_free_page` looks like a failure: the one in which `copy_mem_map` returns. -/
theorem reaches_indistinguishable (hlow : maxLowPfn mbi ≠ 0) (memMap : ℕ) (pages : ℕ → Page) :
    ∃ s, ReflTransGen (Acts (fun _ _ => True) (step mbi)) (created memMap pages) s ∧
      ¬ Distinguishable (totalramPages mbi) s := by
  obtain ⟨s, hrun, hphase⟩ := run_calls mbi memMap pages _ le_rfl
  have hcopy : ∃ s', step mbi s (.copy s.pages) = some s' := by
    unfold step
    simp only [hphase, if_true]
    exact ⟨_, rfl⟩
  obtain ⟨s', hstep⟩ := hcopy
  exact ⟨s', hrun.tail ⟨_, trivial, hstep⟩, not_distinguishable_of_copy hlow hstep⟩

/-- A machine of 1 MiB that reports 3 KiB of low memory. -/
def noLowMemory : MultibootInfo := ⟨64, 3, 0, 0, 0⟩

/-- A check that an action is careful; stores to frames are left out. -/
def carefulCheck (s : InitMem) : Action → Bool
  | .get => true
  | .copy _ => decide (MovesIntact s.phyStart s.memMap (totalramPages noLowMemory))
  | .table _ => false
  | .release phyAddr => decide (phyAddr / pageSize ≠ 0)

theorem careful_of_check {a : Action} (h : carefulCheck s a = true) : Careful noLowMemory s a := by
  cases a with
  | get => trivial
  | copy garbage =>
    have hintact : MovesIntact s.phyStart s.memMap _ := of_decide_eq_true h
    exact ⟨by decide, hintact⟩
  | table garbage => exact absurd h (by simp [carefulCheck])
  | release phyAddr =>
    have hne : phyAddr / pageSize ≠ 0 := of_decide_eq_true h
    exact hne

/-- The calls of `copy_mem_map`, then a frame is taken, released and taken again. -/
def carefulActions : List Action :=
  [.get, .get, .get, .copy fun _ => zeroPage, .get, .release 0x13000, .get]

/-- The start of the run and its end. -/
def carefulRun : Option ((ℕ × (ℕ → Page)) × InitMem) := do
  let r ← createMemMap 12 (initHeap 0 fun _ => 0) noLowMemory [⟨0x10000, 0x20000⟩]
  let s ← runList carefulCheck (step noLowMemory) (created r.1 r.2) carefulActions
  return (r, s)

end YegaKernel.Boot.FreePages
