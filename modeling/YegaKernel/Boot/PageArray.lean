import YegaKernel.Boot.FirstFit
import YegaKernel.Boot.MemoryMap
import YegaKernel.Buddy.State
import YegaKernel.Lib.Loops

/-! # The array of page descriptors at boot time

`machine_specific_memory_setup`, `create_mem_map`, `get_free_page` and `copy_mem_map` of `mm.c`. The
descriptors of `mem_map` are a function of the index: a store behind the end of the array changes no
descriptor of it.

* The loop of `create_mem_map` over the memory blocks uses its counter for the pages of a block as
  well. The next block it looks at is the one whose index follows the last page (`visitBlocks`).
* `~PG_FLAG_TAKEN` without parentheses is `(~1) << 6`.
* `memcpy` copies upwards. Where the place of the copy overlaps the array from above, the array is
  destroyed before it is read; what the copy reads as is then the parameter `garbage`.
* `kbfree(mem_map)` comes after the copy and sets `is_freed` in the header in front of the old array.
  Where the header lies in the new array, the descriptors are `garbage` as well. -/

namespace YegaKernel.Boot.PageArray

open Lib.Word Lib.Loops Function
open Buddy.State Boot.FirstFit Boot.MemoryMap

/-! ### The code -/

/-- `phy_layout.totalram_pages`. -/
def totalramPages (mbi : MultibootInfo) : ℕ := u32 (mbi.memUpper * 1024 + 1024 * 1024) / pageSize

/-- `phy_layout.max_low_pfn`. -/
def maxLowPfn (mbi : MultibootInfo) : ℕ :=
  let lowmemLimitPfn := u32 (mbi.memLower * 1024) / pageSize
  if totalramPages mbi < lowmemLimitPfn then totalramPages mbi else lowmemLimitPfn

/-- `page_start` of a memory block. The fields of a block have 64 bits, `phy_start` has 32. -/
def pageStart (b : MemoryBlock) : ℕ :=
  let phyStart := u32 b.start
  let phyStart :=
    if phyStart % pageSize = 0 then phyStart else u32 (phyStart - phyStart % pageSize + pageSize)
  phyStart / pageSize

/-- `page_end` of a memory block. -/
def pageEnd (b : MemoryBlock) : ℕ :=
  let phyEnd := u32 b.fin
  let phyEnd := if phyEnd % pageSize = 0 then phyEnd else phyEnd - phyEnd % pageSize + pageSize - 1
  sub32 phyEnd 1 / pageSize

/-- The blocks whose pages the loop of `create_mem_map` clears, from the index `iCnt` on. `none`
where the fuel runs out. -/
def visitBlocks (blocks : List MemoryBlock) : ℕ → ℕ → Option (List MemoryBlock)
  | 0, _ => none
  | fuel + 1, iCnt =>
    if iCnt < maxMemoryBlocks then
      let b := blocks.getD iCnt ⟨0, 0⟩
      if b.start = 0 ∨ b.fin = 0 then visitBlocks blocks fuel (iCnt + 1)
      else
        -- the inner loop leaves the counter behind the last page
        let iCnt := max (pageStart b) (pageEnd b + 1)
        (visitBlocks blocks fuel (iCnt + 1)).map (b :: ·)
    else some []

/-- A descriptor after `memset`. -/
def zeroPage : Page := ⟨0, 0#32, 0, 0⟩

def markPage (i : ℕ) (pg : Page) : Page :=
  { pg with flags := pg.flags ||| (pgFlagTaken ||| pgFlagReserved), pageNo := i }

/-- `flags &= ~PG_FLAG_TAKEN` and `flags &= ~PG_FLAG_RESERVED`, with the masks of the macros. -/
def unmarkPage (pg : Page) : Page :=
  { pg with flags := pg.flags &&& ((~~~1#32) <<< 6) &&& ((~~~1#32) <<< 7) }

/-- The two `CLEAR_FLAG`s of `copy_mem_map`. -/
def clearMarks (pg : Page) : Page :=
  { pg with flags := pg.flags &&& (~~~pgFlagTaken) &&& (~~~pgFlagReserved) }

/-- `create_mem_map`: the address of the array and the descriptors. `none` where there is no room
for the array, or the loop does not end. -/
def createMemMap (fuel : ℕ) (h : Heap) (mbi : MultibootInfo) (blocks : List MemoryBlock) :
    Option (ℕ × (ℕ → Page)) := do
  let (memMap, _) ← kalloc fuel h (u32 (totalramPages mbi * sizeofPage))
  if memMap = 0 then none
  else
    let visited ← visitBlocks blocks fuel 0
    let pages := forRange 0 (totalramPages mbi) markPage fun _ => zeroPage
    some (memMap, visited.foldl
      (fun pages b => forRange (pageStart b) (pageEnd b + 1) (fun _ => unmarkPage) pages) pages)

/-- `get_free_page`: the number of the page. `none` where no page is left. -/
def getFreePage (totalram : ℕ) (pages : ℕ → Page) : Option (ℕ × (ℕ → Page)) :=
  match (List.range totalram).find? fun i => (pages i).flags &&& pgFlagTaken = 0#32 with
  | none => none
  | some i =>
    some (i, update pages i { pages i with flags := (pages i).flags ||| pgFlagTaken })

/-- `n` calls of `get_free_page`. -/
def getFreePages (totalram : ℕ) : ℕ → (ℕ → Page) → Option (List ℕ × (ℕ → Page))
  | 0, pages => some ([], pages)
  | n + 1, pages => do
    let (p, pages) ← getFreePage totalram pages
    let (ps, pages) ← getFreePages totalram n pages
    some (p :: ps, pages)

/-- `page_req` of `copy_mem_map`. -/
def pageReq (totalram : ℕ) : ℕ := u32 (sizeofPage * totalram) / pageSize + 1

/-- The copy upwards of `n` bytes from `src` to `dest` reads no byte that it has written. -/
def CopyIntact (dest src n : ℕ) : Prop := dest ≤ src ∨ src + n ≤ dest

instance (dest src n : ℕ) : Decidable (CopyIntact dest src n) :=
  inferInstanceAs (Decidable (_ ∨ _))

/-- The byte `is_freed` of the block at `src` is not among the `n` bytes from `dest` on. -/
def HeaderApart (dest src n : ℕ) : Prop := src - 8 < dest ∨ dest + n ≤ src - 8

instance (dest src n : ℕ) : Decidable (HeaderApart dest src n) :=
  inferInstanceAs (Decidable (_ ∨ _))

/-- `memcpy` and `kbfree(mem_map)`: the descriptors that the new array at `dest` holds. -/
def movedPages (dest memMap totalram : ℕ) (garbage pages : ℕ → Page) : ℕ → Page :=
  let pages := if CopyIntact dest memMap (sizeofPage * totalram) then pages else garbage
  if HeaderApart dest memMap (sizeofPage * totalram) then pages else garbage

/-- `copy_mem_map`: the first page of the new array, and the descriptors. -/
def copyMemMap (mbi : MultibootInfo) (memMap : ℕ) (garbage : ℕ → Page) (pages : ℕ → Page) :
    Option (ℕ × (ℕ → Page)) := do
  let (ps, pages) ← getFreePages (totalramPages mbi) (pageReq (totalramPages mbi)) pages
  let first := ps.headD 0
  let pages := movedPages (first * pageSize) memMap (totalramPages mbi) garbage pages
  some (first, forRange 0 (maxLowPfn mbi) (fun _ => clearMarks) pages)

/-- **The descriptors arrive as they were** at the new array. -/
def MovesIntact (dest memMap totalram : ℕ) : Prop :=
  CopyIntact dest memMap (sizeofPage * totalram) ∧ HeaderApart dest memMap (sizeofPage * totalram)

instance (dest memMap totalram : ℕ) : Decidable (MovesIntact dest memMap totalram) :=
  inferInstanceAs (Decidable (_ ∧ _))

variable {memMap : ℕ} {mbi : MultibootInfo} {pages : ℕ → Page}

theorem movedPages_of_intact {dest totalram : ℕ} (h : MovesIntact dest memMap totalram)
    (garbage pages : ℕ → Page) : movedPages dest memMap totalram garbage pages = pages := by
  unfold movedPages
  rw [if_pos h.1, if_pos h.2]

/-- The frame at `a` and the array of descriptors overlap. -/
def Meets (a memMap totalram : ℕ) : Prop :=
  a < memMap + sizeofPage * totalram ∧ memMap < a + pageSize

instance (a memMap totalram : ℕ) : Decidable (Meets a memMap totalram) :=
  inferInstanceAs (Decidable (_ ∧ _))

/-- The descriptors after a store to the frame at `a`. -/
def storedPages (a memMap totalram : ℕ) (garbage pages : ℕ → Page) : ℕ → Page :=
  if Meets a memMap totalram then garbage else pages

/-! ### Flags as bits -/

theorem and_shift (f : BitVec 32) (k : ℕ) :
    f &&& (1#32 <<< k) = if f.getLsbD k then 1#32 <<< k else 0#32 := by
  refine BitVec.eq_of_getLsbD_eq fun i hi => ?_
  rcases lt_trichotomy i k with hlt | rfl | hgt
  · split <;> simp [hlt]
  · rw [BitVec.getLsbD_and]
    cases h : f.getLsbD i <;> simp [hi]
  · split <;> simp [show i - k ≠ 0 by omega]

theorem shift_ne_zero {k : ℕ} (hk : k < 32) : 1#32 <<< k ≠ 0#32 := by
  intro h
  have hbit := congrArg (fun v => v.getLsbD k) h
  simp [hk] at hbit

theorem isFlag_shift (f : BitVec 32) {k : ℕ} (hk : k < 32) :
    isFlag f (1#32 <<< k) = f.getLsbD k := by
  rw [isFlag, and_shift]
  cases f.getLsbD k <;> simp [(shift_ne_zero hk).symm]

theorem and_shift_eq_zero (f : BitVec 32) {k : ℕ} (hk : k < 32) :
    f &&& (1#32 <<< k) = 0#32 ↔ f.getLsbD k = false := by
  rw [and_shift]
  cases f.getLsbD k <;> simp [shift_ne_zero hk]

/-- The bit of `PG_FLAG_TAKEN`. -/
def taken (pg : Page) : Bool := pg.flags.getLsbD 6

/-- The bit of `PG_FLAG_RESERVED`. -/
def reserved (pg : Page) : Bool := pg.flags.getLsbD 7

/-- The bit of `PG_FLAG_private`. -/
def isPrivate (pg : Page) : Bool := pg.flags.getLsbD 4

theorem bits_markPage (i : ℕ) (pg : Page) : taken (markPage i pg) = true ∧
    reserved (markPage i pg) = true ∧ isPrivate (markPage i pg) = isPrivate pg := by
  simp [taken, reserved, isPrivate, markPage, pgFlagTaken, pgFlagReserved]

theorem bits_unmarkPage (pg : Page) : taken (unmarkPage pg) = false ∧
    reserved (unmarkPage pg) = false ∧ isPrivate (unmarkPage pg) = false := by
  simp [taken, reserved, isPrivate, unmarkPage]

theorem bits_clearMarks (pg : Page) : taken (clearMarks pg) = false ∧
    reserved (clearMarks pg) = false ∧ isPrivate (clearMarks pg) = isPrivate pg := by
  simp [taken, reserved, isPrivate, clearMarks, pgFlagTaken, pgFlagReserved]

/-! ### Taking pages -/

/-- The pages `ps` are taken, one after the other, and nothing else changes. -/
structure Takes (totalram : ℕ) (pages pages' : ℕ → Page) (ps : List ℕ) : Prop where
  lt : ∀ p ∈ ps, p < totalram
  fresh : ∀ p ∈ ps, taken (pages p) = false
  nodup : ps.Nodup
  taken : ∀ i, taken (pages' i) = (taken (pages i) || decide (i ∈ ps))
  reserved : ∀ i, reserved (pages' i) = reserved (pages i)
  private_eq : ∀ i, isPrivate (pages' i) = isPrivate (pages i)

section Takes
variable {totalram : ℕ} {pages pages' pages'' : ℕ → Page}

theorem Takes.nil : Takes totalram pages pages [] :=
  ⟨by simp, by simp, List.nodup_nil, by simp, fun _ => rfl, fun _ => rfl⟩

theorem Takes.cons {p : ℕ} {ps : List ℕ} (h : Takes totalram pages pages' [p])
    (h' : Takes totalram pages' pages'' ps) : Takes totalram pages pages'' (p :: ps) := by
  have hp : p ∉ ps := by
    intro hmem
    have hfresh := h'.fresh p hmem
    rw [h.taken p] at hfresh
    simp at hfresh
  refine ⟨List.forall_mem_cons.mpr ⟨h.lt p (by simp), h'.lt⟩,
    List.forall_mem_cons.mpr ⟨h.fresh p (by simp), fun q hq => ?_⟩, List.nodup_cons.mpr ⟨hp, h'.nodup⟩,
    fun i => ?_, fun i => (h'.reserved i).trans (h.reserved i),
    fun i => (h'.private_eq i).trans (h.private_eq i)⟩
  · have hfresh := h'.fresh q hq
    rw [h.taken q, Bool.or_eq_false_iff] at hfresh
    exact hfresh.1
  · rw [h'.taken, h.taken, Bool.or_assoc]
    simp

/-- **`get_free_page`** takes the lowest page that is not taken. -/
theorem getFreePage_spec {p : ℕ} (h : getFreePage totalram pages = some (p, pages')) :
    Takes totalram pages pages' [p] ∧ ∀ i < p, taken (pages i) = true := by
  unfold getFreePage at h
  split at h
  · exact absurd h (by simp)
  · rename_i q hq
    rw [Option.some.injEq, Prod.mk.injEq] at h
    obtain ⟨rfl, rfl⟩ := h
    rw [List.find?_range_eq_some] at hq
    obtain ⟨hfree, hlt, hlow⟩ := hq
    have hfresh : taken (pages q) = false := by
      rw [decide_eq_true_eq] at hfree
      exact (and_shift_eq_zero _ (by norm_num)).mp hfree
    have hpage : ∀ i k, pgFlagTaken.getLsbD k = false → ((update pages q
        { pages q with flags := (pages q).flags ||| pgFlagTaken }) i).flags.getLsbD k =
          (pages i).flags.getLsbD k := by
      intro i k hk
      by_cases hi : i = q
      · subst hi
        rw [update_self, BitVec.getLsbD_or, hk, Bool.or_false]
      · rw [update_of_ne hi]
    refine ⟨⟨by simpa using List.mem_range.mp hlt, by simpa using hfresh, by simp, fun i => ?_,
      fun i => hpage i 7 (by decide), fun i => hpage i 4 (by decide)⟩, fun i hi => ?_⟩
    · by_cases hi : i = q
      · subst hi
        simp [taken, pgFlagTaken]
      · simp [hi]
    · have hnot := hlow i hi
      rw [Bool.not_eq_true', decide_eq_false_iff_not] at hnot
      rw [← Bool.not_eq_false]
      exact fun hz => hnot ((and_shift_eq_zero _ (by norm_num)).mpr hz)

theorem getFreePages_succ {n : ℕ} {ps : List ℕ}
    (h : getFreePages totalram (n + 1) pages = some (ps, pages'')) :
    ∃ p pages' qs, ps = p :: qs ∧ getFreePage totalram pages = some (p, pages') ∧
      getFreePages totalram n pages' = some (qs, pages'') := by
  rw [getFreePages] at h
  simp only [Option.bind_eq_bind, Option.bind_eq_some_iff, Option.some.injEq, Prod.mk.injEq,
    Prod.exists] at h
  obtain ⟨p, pages', hp, qs, pages₂, hqs, rfl, rfl⟩ := h
  exact ⟨p, pages', qs, rfl, hp, hqs⟩

/-- **Several calls** take the lowest pages: what is not taken afterwards lies behind `n` pages, and
so does the last page taken. -/
theorem getFreePages_spec : ∀ {n : ℕ} {ps : List ℕ} {pages : ℕ → Page},
    getFreePages totalram n pages = some (ps, pages') → Takes totalram pages pages' ps ∧
      ∀ lo, (∀ i < totalram, taken (pages i) = false → lo ≤ i) →
        (∀ i < totalram, taken (pages' i) = false → lo + n ≤ i) ∧
          (n ≠ 0 → ∃ p ∈ ps, lo + n ≤ p + 1)
  | 0, ps, pages, h => by
    obtain ⟨rfl, rfl⟩ := h
    exact ⟨Takes.nil, fun lo hlo => ⟨hlo, fun hn => absurd rfl hn⟩⟩
  | n + 1, ps, pages, h => by
    obtain ⟨p, pages₁, qs, rfl, hp, hqs⟩ := getFreePages_succ h
    obtain ⟨htake, hmin⟩ := getFreePage_spec hp
    obtain ⟨htakes, hrest⟩ := getFreePages_spec hqs
    refine ⟨htake.cons htakes, fun lo hlo => ?_⟩
    have hple := hlo p (htake.lt p (by simp)) (htake.fresh p (by simp))
    have hstart : ∀ j < totalram, taken (pages₁ j) = false → lo + 1 ≤ j := by
      intro j hj hjfree
      rw [htake.taken j, Bool.or_eq_false_iff] at hjfree
      have hjp : j ≠ p := by simpa using hjfree.2
      -- the page taken is the lowest one, so `j` lies behind it
      have hpj : ¬ j < p := fun hlt => by
        rw [hmin j hlt] at hjfree
        exact absurd hjfree.1 (by simp)
      omega
    obtain ⟨hbehind, hlast⟩ := hrest (lo + 1) hstart
    refine ⟨fun i hi hfree => ?_, fun _ => ?_⟩
    · have := hbehind i hi hfree
      omega
    · by_cases hn : n = 0
      · exact ⟨p, List.mem_cons_self, by omega⟩
      · obtain ⟨q, hq, hqn⟩ := hlast hn
        exact ⟨q, List.mem_cons_of_mem _ hq, by omega⟩

end Takes

/-! ### `create_mem_map` and `copy_mem_map` -/

/-- The page belongs to the pages of one of the blocks. -/
def InBlocks (blocks : List MemoryBlock) (x : ℕ) : Prop :=
  ∃ b ∈ blocks, pageStart b ≤ x ∧ x ≤ pageEnd b

theorem visitBlocks_dropLast (blocks : List MemoryBlock) : ∀ (fuel iCnt : ℕ)
    (vs : List MemoryBlock), visitBlocks blocks fuel iCnt = some vs → ∀ b ∈ vs.dropLast, pageEnd b ≤ 7
  | 0, _, _, h => absurd h (by simp [visitBlocks])
  | fuel + 1, iCnt, vs, h => by
    rw [visitBlocks] at h
    simp only at h
    split_ifs at h with hlt hskip
    · exact visitBlocks_dropLast blocks fuel _ vs h
    · rw [Option.map_eq_some_iff] at h
      obtain ⟨ws, hws, rfl⟩ := h
      rcases ws with _ | ⟨c, ws⟩
      · simp
      · intro b hb
        rw [List.dropLast_cons_cons, List.mem_cons] at hb
        rcases hb with rfl | hb
        · -- the loop went on, so its counter was below ten
          by_contra hbig
          rcases fuel with _ | fuel
          · exact absurd hws (by simp [visitBlocks])
          · rw [visitBlocks, if_neg (by unfold maxMemoryBlocks; omega)] at hws
            exact absurd hws (by simp)
        · exact visitBlocks_dropLast blocks fuel _ (c :: ws) hws b hb
    · rw [Option.some.injEq] at h
      subst h
      simp

theorem bits_unmarkBlocks : ∀ (vs : List MemoryBlock) (pages : ℕ → Page) (x : ℕ),
    let pages' := vs.foldl
      (fun pages b => forRange (pageStart b) (pageEnd b + 1) (fun _ => unmarkPage) pages) pages
    (InBlocks vs x → taken (pages' x) = false ∧ reserved (pages' x) = false) ∧
      (¬ InBlocks vs x → pages' x = pages x) ∧
      (isPrivate (pages x) = false → isPrivate (pages' x) = false)
  | [], pages, x => ⟨fun ⟨b, hb, _⟩ => absurd hb List.not_mem_nil, fun _ => rfl, fun h => h⟩
  | b :: vs, pages, x => by
    obtain ⟨h1, h2, h3⟩ := bits_unmarkBlocks vs
      (forRange (pageStart b) (pageEnd b + 1) (fun _ => unmarkPage) pages) x
    have hcons : InBlocks (b :: vs) x ↔ (pageStart b ≤ x ∧ x ≤ pageEnd b) ∨ InBlocks vs x := by
      simp [InBlocks]
    simp only [List.foldl_cons]
    rw [forRange_apply] at h2 h3
    refine ⟨fun hin => ?_, fun hnot => ?_, fun hp => h3 ?_⟩
    · by_cases hvs : InBlocks vs x
      · exact h1 hvs
      · have hb := (hcons.mp hin).resolve_right hvs
        rw [h2 hvs, if_pos ⟨hb.1, by omega⟩]
        exact ⟨(bits_unmarkPage _).1, (bits_unmarkPage _).2.1⟩
    · rw [hcons, not_or] at hnot
      rw [h2 hnot.2, if_neg (by omega)]
    · split_ifs
      · exact (bits_unmarkPage _).2.2
      · exact hp

/-- **`create_mem_map`** leaves exactly the pages of the blocks it visits without marks. -/
theorem createMemMap_spec {fuel : ℕ} {h : Heap} {blocks : List MemoryBlock}
    (hc : createMemMap fuel h mbi blocks = some (memMap, pages)) :
    memMap ≠ 0 ∧ (∃ h', kalloc fuel h (u32 (totalramPages mbi * sizeofPage)) = some (memMap, h')) ∧
      ∃ visited, visitBlocks blocks fuel 0 = some visited ∧ ∀ x < totalramPages mbi,
        (taken (pages x) = false ↔ InBlocks visited x) ∧
        (reserved (pages x) = false ↔ InBlocks visited x) ∧ isPrivate (pages x) = false := by
  unfold createMemMap at hc
  simp only [Option.bind_eq_bind, Option.bind_eq_some_iff, Prod.exists] at hc
  obtain ⟨a, h', hk, hc⟩ := hc
  split_ifs at hc with ha
  rw [Option.bind_eq_some_iff] at hc
  obtain ⟨visited, hv, hc⟩ := hc
  obtain ⟨rfl, rfl⟩ := hc
  refine ⟨ha, ⟨h', hk⟩, visited, hv, fun x hx => ?_⟩
  obtain ⟨h1, h2, h3⟩ := bits_unmarkBlocks visited
    (forRange 0 (totalramPages mbi) markPage fun _ => zeroPage) x
  rw [forRange_apply, if_pos ⟨Nat.zero_le x, hx⟩] at h2 h3
  obtain ⟨hm1, hm2, hm3⟩ := bits_markPage x zeroPage
  refine ⟨⟨fun hf => ?_, fun hin => (h1 hin).1⟩, ⟨fun hf => ?_, fun hin => (h1 hin).2⟩,
    h3 (hm3.trans rfl)⟩
  · by_contra hnot
    rw [h2 hnot, hm1] at hf
    exact absurd hf (by simp)
  · by_contra hnot
    rw [h2 hnot, hm2] at hf
    exact absurd hf (by simp)

theorem copyMemMap_first {first : ℕ} {garbage pages' : ℕ → Page}
    (h : copyMemMap mbi memMap garbage pages = some (first, pages')) :
    first < totalramPages mbi ∧ taken (pages first) = false ∧ ∀ i < first, taken (pages i) = true := by
  unfold copyMemMap at h
  simp only [Option.bind_eq_bind, Option.bind_eq_some_iff, Option.some.injEq, Prod.mk.injEq,
    Prod.exists] at h
  obtain ⟨ps, pages₁, hps, hfirst, rfl⟩ := h
  obtain ⟨p, pages₂, qs, rfl, hp, -⟩ := getFreePages_succ hps
  obtain ⟨htake, hmin⟩ := getFreePage_spec hp
  obtain rfl : p = first := hfirst
  exact ⟨htake.lt p (by simp), htake.fresh p (by simp), hmin⟩

/-- **`copy_mem_map`**, where the descriptors arrive as they were: `page_req` pages from `first` on are
taken, and the marks of the low pages are cleared. -/
theorem copyMemMap_spec {first : ℕ} {garbage pages' : ℕ → Page}
    (h : copyMemMap mbi memMap garbage pages = some (first, pages'))
    (hcopy : MovesIntact (first * pageSize) memMap (totalramPages mbi)) :
    ∃ ps pages₁, Takes (totalramPages mbi) pages pages₁ ps ∧
      (∀ i, first ≤ i → i < first + pageReq (totalramPages mbi) → i < totalramPages mbi →
        taken (pages₁ i) = true) ∧ (∃ p ∈ ps, first + pageReq (totalramPages mbi) ≤ p + 1) ∧
      ∀ i, pages' i = if i < maxLowPfn mbi then clearMarks (pages₁ i) else pages₁ i := by
  unfold copyMemMap at h
  simp only [Option.bind_eq_bind, Option.bind_eq_some_iff, Option.some.injEq, Prod.mk.injEq,
    Prod.exists] at h
  obtain ⟨ps, pages₁, hps, hfirst, rfl⟩ := h
  obtain ⟨htakes, hspec⟩ := getFreePages_spec hps
  obtain ⟨p, pages₂, qs, rfl, hp, -⟩ := getFreePages_succ hps
  obtain ⟨-, hmin⟩ := getFreePage_spec hp
  obtain rfl : p = first := hfirst
  obtain ⟨hbehind, hlast⟩ := hspec p fun i _ hfree => by
    by_contra hlt
    rw [hmin i (by omega)] at hfree
    exact absurd hfree (by simp)
  refine ⟨_, pages₁, htakes, fun i hi hi' hn => ?_,
    hlast (Nat.succ_ne_zero _), fun i => ?_⟩
  · by_contra hfree
    have := hbehind i hn (by simpa using hfree)
    omega
  · rw [forRange_apply, List.headD_cons, movedPages_of_intact hcopy]
    simp

end YegaKernel.Boot.PageArray
