import YegaKernel.Boot.PageArray

/-! # The page tables

`count_pgdir_entries`, `setup_paging` and `test_mmu` of `mm.c`, and the two-level walk of the
processor. The page directory and the page frames are the state; a frame is named by the physical
addresses of its words. The array of descriptors at `memMap` is in frames too: where a frame that is
written to overlaps it, the descriptors read as the parameter `garbage` from then on. -/

namespace YegaKernel.Boot.Paging

open Lib.Word
open Buddy.State Boot.FirstFit Boot.MemoryMap
open Boot.PageArray Function

/-! ### The code -/

/-- `PG_TABLE_ENTRIES` and `PG_DIR_ENTRIES`. -/
def pgTableEntries : ℕ := 1024

def pageOffset : ℕ := 0xC0000000

def countPgdirEntries (presentPages : ℕ) : ℕ :=
  u32 (presentPages * pageSize) / (pageSize * pgTableEntries)

def pgdIndex (phyAddr : ℕ) : ℕ := phyAddr / (pgTableEntries * pageSize)

/-- `swapper_pg_dir` and the words of physical memory. -/
structure PageTables where
  pgDir : ℕ → ℕ
  mem : ℕ → ℕ

/-- `(addr & 0xFFFFF000) | PG_PRESENT | PG_RW`. -/
def entryOf (addr : ℕ) : ℕ := (addr &&& highMask 12) ||| 1 ||| 2

/-- The loop that fills the table at `pgPtr` from the entry `jCnt` on. -/
def fillTable (totalRam pgPtr : ℕ) : ℕ → ℕ → ℕ → (ℕ → ℕ) → ℕ × (ℕ → ℕ)
  | 0, _, phyAddr, mem => (phyAddr, mem)
  | n + 1, jCnt, phyAddr, mem =>
    if phyAddr < totalRam then
      fillTable totalRam pgPtr n (jCnt + 1) (u32 (phyAddr + pageSize))
        (update mem (pgPtr + 4 * jCnt) (entryOf phyAddr))
    else (phyAddr, mem)

/-- The loop of `setup_paging` from the directory entry `iCnt` on: the pages of the tables, the
descriptors and the tables. `none` where `get_free_page` finds no page. -/
def pagingLoop (totalram memMap : ℕ) (garbage : ℕ → Page) : ℕ → ℕ → ℕ → (ℕ → Page) → PageTables →
    Option (List ℕ × (ℕ → Page) × PageTables)
  | 0, _, _, pages, pt => some ([], pages, pt)
  | n + 1, iCnt, phyAddr, pages, pt => do
    let (page, pages) ← getFreePage totalram pages
    let tempAddr := u32 (page * pageSize)
    let pgDir := update pt.pgDir (pgdIndex pageOffset + iCnt) (entryOf tempAddr)
    let pgDir := update pgDir iCnt (entryOf tempAddr)
    let (phyAddr, mem) :=
      fillTable (u32 (totalram * pageSize)) tempAddr pgTableEntries 0 phyAddr pt.mem
    let (tables, pages, pt) ← pagingLoop totalram memMap garbage n (iCnt + 1) phyAddr
      (storedPages tempAddr memMap totalram garbage pages) ⟨pgDir, mem⟩
    some (page :: tables, pages, pt)

/-- `test_mmu`: a page is taken, written to and released. -/
def testMmu (totalram memMap : ℕ) (garbage pages : ℕ → Page) (pt : PageTables) :
    Option ((ℕ → Page) × PageTables) := do
  let (page, pages) ← getFreePage totalram pages
  let mem := update pt.mem (u32 (page * pageSize)) 0x5555
  let pages := storedPages (u32 (page * pageSize)) memMap totalram garbage pages
  let pages :=
    update pages page { pages page with flags := (pages page).flags &&& ~~~pgFlagTaken }
  some (pages, { pt with mem := mem })

def setupPaging (totalram pgdirEntries memMap : ℕ) (garbage pages : ℕ → Page) (pt : PageTables) :
    Option (List ℕ × (ℕ → Page) × PageTables) := do
  let (tables, pages, pt) ← pagingLoop totalram memMap garbage pgdirEntries 0 0 pages pt
  let (pages, pt) ← testMmu totalram memMap garbage pages pt
  some (tables, pages, pt)

/-- The walk of the processor: the physical address, and whether it may be written to. -/
def walk (pt : PageTables) (va : ℕ) : Option (ℕ × Bool) :=
  let pde := pt.pgDir (va / 2 ^ 22)
  if pde &&& 1 = 0 then none
  else
    let pte := pt.mem ((pde &&& highMask 12) + 4 * (va / 2 ^ 12 % 2 ^ 10))
    if pte &&& 1 = 0 then none
    else some ((pte &&& highMask 12) + va % 2 ^ 12, pde &&& 2 ≠ 0 ∧ pte &&& 2 ≠ 0)

/-! ### Entries -/

section Entries
variable {k : ℕ}

theorem entryOf_page (hk : k < 2 ^ 20) : entryOf (k * pageSize) = k * pageSize + 3 := by
  unfold entryOf
  rw [and_highMask (x := k * pageSize) (by unfold pageSize; omega) (by norm_num)]
  unfold pageSize
  rw [show k * 4096 / 2 ^ 12 * 2 ^ 12 = 2 ^ 12 * k by omega, Nat.or_assoc,
    ← Nat.two_pow_add_eq_or_of_lt (by decide : 1 ||| 2 < 2 ^ 12)]
  change 2 ^ 12 * k + 3 = _
  omega

theorem entry_bits (hk : k < 2 ^ 20) : (k * pageSize + 3) &&& 1 ≠ 0 ∧
    (k * pageSize + 3) &&& 2 ≠ 0 ∧ (k * pageSize + 3) &&& highMask 12 = k * pageSize := by
  unfold pageSize
  refine ⟨?_, ?_, ?_⟩
  · rw [Nat.and_one_is_mod]
    omega
  · intro h
    have hbit := congrArg (fun n => n.testBit 1) h
    rw [Nat.testBit_and] at hbit
    have h1 : (k * 4096 + 3).testBit 1 = true := by
      rw [Nat.testBit_eq_decide_div_mod_eq]
      simp only [decide_eq_true_eq]
      omega
    rw [h1, Bool.true_and, Nat.zero_testBit] at hbit
    exact absurd hbit (by decide)
  · rw [and_highMask (x := k * 4096 + 3) (by omega) (by norm_num)]
    omega

end Entries

/-! ### The tables that the loop fills -/

theorem fillTable_spec (totalRam pgPtr : ℕ) (hram : totalRam < 2 ^ 32) : ∀ (n jCnt phyAddr : ℕ)
    (mem : ℕ → ℕ), phyAddr + n * pageSize ≤ totalRam →
      (fillTable totalRam pgPtr n jCnt phyAddr mem).1 = phyAddr + n * pageSize ∧
      (∀ i < n, (fillTable totalRam pgPtr n jCnt phyAddr mem).2 (pgPtr + 4 * (jCnt + i)) =
        entryOf (phyAddr + i * pageSize)) ∧
      ∀ a, a < pgPtr + 4 * jCnt ∨ pgPtr + 4 * (jCnt + n) ≤ a →
        (fillTable totalRam pgPtr n jCnt phyAddr mem).2 a = mem a
  | 0, jCnt, phyAddr, mem, _ => ⟨by simp [fillTable], by simp, fun _ _ => rfl⟩
  | n + 1, jCnt, phyAddr, mem, h => by
    unfold pageSize at h
    have hstep : u32 (phyAddr + pageSize) = phyAddr + pageSize :=
      u32_of_lt (by unfold pageSize; omega)
    rw [fillTable, if_pos (by omega), hstep]
    obtain ⟨hphy, hfill, hframe⟩ := fillTable_spec totalRam pgPtr hram n (jCnt + 1)
      (phyAddr + pageSize) (update mem (pgPtr + 4 * jCnt) (entryOf phyAddr))
      (by unfold pageSize; omega)
    refine ⟨by rw [hphy]; ring, fun i hi => ?_, fun a ha => ?_⟩
    · rcases i with _ | i
      · rw [hframe _ (Or.inl (by omega)), Nat.add_zero, update_self, Nat.zero_mul, Nat.add_zero]
      · rw [show jCnt + (i + 1) = jCnt + 1 + i by omega, hfill i (by omega),
          show phyAddr + pageSize + i * pageSize = phyAddr + (i + 1) * pageSize by ring]
    · rw [hframe a (by omega), update_of_ne (by omega)]

/-- The tables of the directory entries from `iCnt` on map the pages in order, from both halves of
the directory. -/
def Filled (iCnt : ℕ) (tables : List ℕ) (pt : PageTables) : Prop :=
  ∀ k t, tables[k]? = some t →
    pt.pgDir (iCnt + k) = entryOf (t * pageSize) ∧
    pt.pgDir (pgdIndex pageOffset + (iCnt + k)) = entryOf (t * pageSize) ∧
    ∀ j < pgTableEntries, pt.mem (t * pageSize + 4 * j) =
      entryOf (((iCnt + k) * pgTableEntries + j) * pageSize)

theorem filled_cons {iCnt t : ℕ} {ts : List ℕ} {pt : PageTables}
    (hlow : pt.pgDir iCnt = entryOf (t * pageSize))
    (hhigh : pt.pgDir (pgdIndex pageOffset + iCnt) = entryOf (t * pageSize))
    (hmem : ∀ j < pgTableEntries, pt.mem (t * pageSize + 4 * j) =
      entryOf ((iCnt * pgTableEntries + j) * pageSize))
    (hrest : Filled (iCnt + 1) ts pt) : Filled iCnt (t :: ts) pt := by
  intro k t' hk
  rcases k with _ | k
  · obtain rfl : t = t' := by simpa using hk
    exact ⟨hlow, hhigh, hmem⟩
  · have hk' := hrest k t' (by simpa using hk)
    rwa [show iCnt + 1 + k = iCnt + (k + 1) by omega] at hk'

section Loop
variable {totalram memMap n iCnt phyAddr : ℕ} {garbage pages pages' : ℕ → Page}
  {pt pt' : PageTables} {tables : List ℕ}

theorem pagingLoop_succ
    (h : pagingLoop totalram memMap garbage (n + 1) iCnt phyAddr pages pt = some (tables, pages', pt')) :
    ∃ t ts pages₁, tables = t :: ts ∧ getFreePage totalram pages = some (t, pages₁) ∧
      pagingLoop totalram memMap garbage n (iCnt + 1)
        (fillTable (u32 (totalram * pageSize)) (u32 (t * pageSize)) pgTableEntries 0 phyAddr pt.mem).1
        (storedPages (u32 (t * pageSize)) memMap totalram garbage pages₁)
        ⟨update (update pt.pgDir (pgdIndex pageOffset + iCnt)
          (entryOf (u32 (t * pageSize)))) iCnt (entryOf (u32 (t * pageSize))),
          (fillTable (u32 (totalram * pageSize)) (u32 (t * pageSize)) pgTableEntries 0 phyAddr
            pt.mem).2⟩ = some (ts, pages', pt') := by
  rw [pagingLoop] at h
  simp only [Option.bind_eq_bind, Option.bind_eq_some_iff, Option.some.injEq, Prod.mk.injEq,
    Prod.exists] at h
  obtain ⟨t, pages₁, ht, ts, pages₂, pt₂, hrest, rfl, rfl, rfl⟩ := h
  exact ⟨t, ts, pages₁, rfl, ht, hrest⟩

theorem storedPages_of_not_meets {a : ℕ} (h : ¬ Meets a memMap totalram) (pages : ℕ → Page) :
    storedPages a memMap totalram garbage pages = pages := if_neg h

/-- A page that `get_free_page` finds has a 32-bit address. -/
theorem u32_of_getFreePage (hram : totalram < 2 ^ 20) {t : ℕ}
    (ht : getFreePage totalram pages = some (t, pages')) : u32 (t * pageSize) = t * pageSize := by
  have hlt := (getFreePage_spec ht).1.lt t List.mem_cons_self
  exact u32_of_lt (by unfold pageSize; omega)

/-- The frames of the array are taken. -/
def ArrayTaken (totalram memMap : ℕ) (pages : ℕ → Page) : Prop :=
  ∀ x < totalram, Meets (x * pageSize) memMap totalram → taken (pages x) = true

theorem ArrayTaken.getFreePage {t : ℕ} (ha : ArrayTaken totalram memMap pages)
    (ht : getFreePage totalram pages = some (t, pages')) :
    ¬ Meets (t * pageSize) memMap totalram ∧ ArrayTaken totalram memMap pages' := by
  obtain ⟨htake, -⟩ := getFreePage_spec ht
  refine ⟨fun hm => ?_, fun x hx hm => ?_⟩
  · have hfresh := htake.fresh t List.mem_cons_self
    rw [ha t (htake.lt t List.mem_cons_self) hm] at hfresh
    exact absurd hfresh (by simp)
  · rw [htake.taken x, ha x hx hm, Bool.true_or]

/-- **No table is written over the array** while its frames are taken. -/
theorem not_meets_of_arrayTaken (hram : totalram < 2 ^ 20)
    (h : pagingLoop totalram memMap garbage n iCnt phyAddr pages pt = some (tables, pages', pt'))
    (ha : ArrayTaken totalram memMap pages) : ∀ t ∈ tables, ¬ Meets (t * pageSize) memMap totalram := by
  induction n generalizing iCnt phyAddr pages pt tables with
  | zero =>
    rw [pagingLoop, Option.some.injEq, Prod.mk.injEq] at h
    rw [← h.1]
    simp
  | succ n ih =>
    obtain ⟨t, ts, pages₁, rfl, ht, hrest⟩ := pagingLoop_succ h
    obtain ⟨hm, ha₁⟩ := ha.getFreePage ht
    rw [u32_of_getFreePage hram ht, storedPages_of_not_meets hm] at hrest
    exact List.forall_mem_cons.mpr ⟨hm, ih hrest ha₁⟩

theorem pagingLoop_pages (hram : totalram < 2 ^ 20)
    (h : pagingLoop totalram memMap garbage n iCnt phyAddr pages pt = some (tables, pages', pt'))
    (hm : ∀ t ∈ tables, ¬ Meets (t * pageSize) memMap totalram) :
    getFreePages totalram n pages = some (tables, pages') := by
  induction n generalizing iCnt phyAddr pages pt tables with
  | zero =>
    obtain ⟨rfl, rfl, -⟩ := h
    rfl
  | succ n ih =>
    obtain ⟨t, ts, pages₁, rfl, ht, hrest⟩ := pagingLoop_succ h
    rw [List.forall_mem_cons] at hm
    rw [u32_of_getFreePage hram ht, storedPages_of_not_meets hm.1] at hrest
    rw [getFreePages, ht]
    simp only [Option.bind_eq_bind, Option.bind_some]
    rw [ih hrest hm.2]
    rfl

theorem pgdIndex_pageOffset : pgdIndex pageOffset = 768 := by decide

/-- **The loop of `setup_paging`** over directory entries whose tables are full, and not written over
the array. -/
theorem pagingLoop_spec (hram : totalram < 2 ^ 20)
    (h : pagingLoop totalram memMap garbage n iCnt phyAddr pages pt = some (tables, pages', pt'))
    (hmeets : ∀ t ∈ tables, ¬ Meets (t * pageSize) memMap totalram)
    (hphy : phyAddr = iCnt * pgTableEntries * pageSize) (hle : (iCnt + n) * pgTableEntries ≤ totalram)
    (hdir : iCnt + n ≤ 256) : tables.length = n ∧ Filled iCnt tables pt' ∧
      (∀ i, i < iCnt ∨ (iCnt + n ≤ i ∧ i < 768 + iCnt) → pt'.pgDir i = pt.pgDir i) ∧
      ∀ a, (∀ t ∈ tables, a < t * pageSize ∨ t * pageSize + pageSize ≤ a) → pt'.mem a = pt.mem a := by
  induction n generalizing iCnt phyAddr pages pt tables with
  | zero =>
    obtain ⟨rfl, -, rfl⟩ := h
    exact ⟨rfl, fun k t ht => absurd ht (by simp), fun _ _ => rfl, fun _ _ => rfl⟩
  | succ n ih =>
    have hnodup := (getFreePages_spec (pagingLoop_pages hram h hmeets)).1.nodup
    obtain ⟨t, ts, pages₁, rfl, ht, hrest⟩ := pagingLoop_succ h
    have hmem : t ∉ ts := (List.nodup_cons.mp hnodup).1
    rw [List.forall_mem_cons] at hmeets
    have haddr : u32 (t * pageSize) = t * pageSize := u32_of_getFreePage hram ht
    have htotal : u32 (totalram * pageSize) = totalram * pageSize :=
      u32_of_lt (by unfold pageSize; omega)
    rw [haddr, htotal, pgdIndex_pageOffset, storedPages_of_not_meets hmeets.1] at hrest
    obtain ⟨hnext, hfill, hframe⟩ := fillTable_spec (totalram * pageSize) (t * pageSize)
      (by unfold pageSize; omega) pgTableEntries 0 phyAddr pt.mem
      (by
        rw [hphy, ← Nat.add_mul]
        refine Nat.mul_le_mul_right _ (le_trans ?_ hle)
        rw [← Nat.succ_mul]
        exact Nat.mul_le_mul_right _ (by omega))
    obtain ⟨hlen, hfilled, hdirs, hmems⟩ := ih hrest hmeets.2
      (by rw [hnext, hphy]; ring) (by rwa [Nat.add_assoc, Nat.add_comm 1 n]) (by omega)
    refine ⟨by rw [List.length_cons, hlen], ?_, fun i hi => ?_, fun a ha => ?_⟩
    · -- the tables behind the first one are other pages and other entries
      refine filled_cons ?_ ?_ (fun j hj => ?_) hfilled
      · rw [hdirs iCnt (Or.inl (by omega))]
        exact update_self _ _ _
      · rw [pgdIndex_pageOffset, hdirs (768 + iCnt) (Or.inr (by omega))]
        simp only
        rw [update_of_ne (by omega), update_self]
      · unfold pgTableEntries at hj
        rw [hmems _ fun t' ht' => ?_]
        · have hentry := hfill j hj
          rw [Nat.zero_add] at hentry
          simp only
          rw [hentry, hphy, Nat.add_mul]
        · have hne : t ≠ t' := fun he => hmem (he ▸ ht')
          unfold pageSize
          omega
    · rw [hdirs i (by omega)]
      simp only
      rw [update_of_ne (by omega), update_of_ne (by omega)]
    · rw [hmems a fun t' ht' => ha t' (List.mem_cons_of_mem _ ht')]
      refine hframe a ?_
      rw [Nat.mul_zero, Nat.add_zero, Nat.zero_add, show 4 * pgTableEntries = pageSize from rfl]
      exact ha t List.mem_cons_self

/-- **`test_mmu`** writes to the lowest page that is not taken, and leaves the descriptors if the array
is not there. -/
theorem testMmu_spec (hram : totalram < 2 ^ 20)
    (h : testMmu totalram memMap garbage pages pt = some (pages', pt')) :
    pt'.pgDir = pt.pgDir ∧ ∃ p < totalram, taken (pages p) = false ∧
      (∀ i < p, taken (pages i) = true) ∧ (∀ a, a ≠ p * pageSize → pt'.mem a = pt.mem a) ∧
      (¬ Meets (p * pageSize) memMap totalram → Takes totalram pages pages' []) := by
  unfold testMmu at h
  simp only [Option.bind_eq_bind, Option.bind_eq_some_iff, Option.some.injEq, Prod.mk.injEq,
    Prod.exists] at h
  obtain ⟨p, pages₁, hp, rfl, rfl⟩ := h
  obtain ⟨htake, hmin⟩ := getFreePage_spec hp
  rw [u32_of_getFreePage hram hp]
  refine ⟨rfl, p, htake.lt p (by simp), htake.fresh p (by simp), hmin,
    fun a ha => update_of_ne ha _ _, fun hm => ?_⟩
  rw [storedPages_of_not_meets hm]
  refine ⟨by simp, by simp, List.nodup_nil, fun i => ?_, fun i => ?_, fun i => ?_⟩
  · by_cases hi : i = p
    · subst hi
      rw [htake.fresh i (by simp)]
      simp [taken, pgFlagTaken]
    · have := htake.taken i
      simpa [hi] using this
  · rw [← htake.reserved i]
    by_cases hi : i = p
    · subst hi
      simp [reserved, pgFlagTaken]
    · rw [update_of_ne hi]
  · rw [← htake.private_eq i]
    by_cases hi : i = p
    · subst hi
      simp [isPrivate, pgFlagTaken]
    · rw [update_of_ne hi]

theorem setupPaging_cases
    (h : setupPaging totalram n memMap garbage pages pt = some (tables, pages', pt')) :
    ∃ pages₁ pt₁, pagingLoop totalram memMap garbage n 0 0 pages pt = some (tables, pages₁, pt₁) ∧
      testMmu totalram memMap garbage pages₁ pt₁ = some (pages', pt') := by
  unfold setupPaging at h
  simp only [Option.bind_eq_bind, Option.bind_eq_some_iff, Option.some.injEq, Prod.mk.injEq,
    Prod.exists] at h
  obtain ⟨ts, pages₁, pt₁, hloop, pages₂, pt₂, htest, rfl, rfl, rfl⟩ := h
  exact ⟨pages₁, pt₁, hloop, htest⟩

/-- **What `setup_paging` does to the descriptors**, if no table and not the page of `test_mmu` is
written over the array. -/
theorem setupPaging_takes (hram : totalram < 2 ^ 20)
    (h : setupPaging totalram n memMap garbage pages pt = some (tables, pages', pt'))
    (hmeets : ∀ t ∈ tables, ¬ Meets (t * pageSize) memMap totalram)
    (htest : ∀ p < totalram, taken (pages p) = false → p ∉ tables →
      (∀ i < p, taken (pages i) = true ∨ i ∈ tables) → ¬ Meets (p * pageSize) memMap totalram) :
    Takes totalram pages pages' tables := by
  obtain ⟨pages₁, pt₁, hloop, hmmu⟩ := setupPaging_cases h
  have htakes := (getFreePages_spec (pagingLoop_pages hram hloop hmeets)).1
  obtain ⟨-, p, hp, hfree, hmin, -, hsame⟩ := testMmu_spec hram hmmu
  rw [htakes.taken p, Bool.or_eq_false_iff, decide_eq_false_iff_not] at hfree
  have hsame := hsame (htest p hp hfree.1 hfree.2 fun i hi => by
    have htk := hmin i hi
    rwa [htakes.taken i, Bool.or_eq_true, decide_eq_true_eq] at htk)
  refine ⟨htakes.lt, htakes.fresh, htakes.nodup, fun i => ?_,
    fun i => (hsame.reserved i).trans (htakes.reserved i),
    fun i => (hsame.private_eq i).trans (htakes.private_eq i)⟩
  rw [hsame.taken i, htakes.taken i]
  simp

/-- While the frames of the array are taken, nothing is written over it. -/
theorem setupPaging_takes_of_arrayTaken (hram : totalram < 2 ^ 20)
    (h : setupPaging totalram n memMap garbage pages pt = some (tables, pages', pt'))
    (ha : ArrayTaken totalram memMap pages) : Takes totalram pages pages' tables := by
  obtain ⟨pages₁, pt₁, hloop, -⟩ := setupPaging_cases h
  refine setupPaging_takes hram h (not_meets_of_arrayTaken hram hloop ha) fun p hp hfree _ _ hm => ?_
  rw [ha p hp hm] at hfree
  exact absurd hfree (by simp)

/-- **`setup_paging`** for directory entries whose tables are full, and not written over the array. -/
theorem setupPaging_spec (hram : totalram < 2 ^ 20) (hn : n * pgTableEntries ≤ totalram)
    (hdir : n ≤ 256)
    (h : setupPaging totalram n memMap garbage pages pt = some (tables, pages', pt'))
    (hmeets : ∀ t ∈ tables, ¬ Meets (t * pageSize) memMap totalram) :
    tables.length = n ∧ Filled 0 tables pt' ∧ (∀ t ∈ tables, t < totalram) ∧
      ∀ i, n ≤ i → i < 768 → pt'.pgDir i = pt.pgDir i := by
  obtain ⟨pages₁, pt₁, hloop, htest⟩ := setupPaging_cases h
  obtain ⟨hlen, hfilled, hdirs, -⟩ := pagingLoop_spec hram hloop hmeets (by simp)
    (by simpa using hn) (by omega)
  have htakes := (getFreePages_spec (pagingLoop_pages hram hloop hmeets)).1
  obtain ⟨hpg, p, hp, hfree, -, hmem, -⟩ := testMmu_spec hram htest
  have htaken : ∀ t ∈ tables, taken (pages₁ t) = true := fun t ht => by
    rw [htakes.taken t]
    simp [ht]
  refine ⟨hlen, fun k t hk => ?_, htakes.lt, fun i hi hi' => ?_⟩
  · obtain ⟨h1, h2, h3⟩ := hfilled k t hk
    rw [hpg]
    refine ⟨h1, h2, fun j hj => ?_⟩
    rw [hmem _ ?_, h3 j hj]
    -- the page that the test writes to is not taken, so it is not the table
    have ht := List.mem_of_getElem? hk
    have hne : t ≠ p := by
      rintro rfl
      rw [htaken t ht] at hfree
      exact absurd hfree (by simp)
    unfold pgTableEntries at hj
    unfold pageSize
    omega
  · rw [hpg]
    exact hdirs i (Or.inr ⟨by omega, by omega⟩)

end Loop

/-! ### The walk -/

theorem walk_filled {tables : List ℕ} {pt : PageTables} (hf : Filled 0 tables pt)
    (hlt : ∀ t ∈ tables, t < 2 ^ 20) {k j o : ℕ} (hk : k < tables.length) (hj : j < pgTableEntries)
    (ho : o < pageSize) (hkj : k * pgTableEntries + j < 2 ^ 20) {va : ℕ}
    (hva : va = (k * pgTableEntries + j) * pageSize + o ∨
      va = pageOffset + (k * pgTableEntries + j) * pageSize + o) :
    walk pt va = some ((k * pgTableEntries + j) * pageSize + o, true) := by
  have hget : tables[k]? = some tables[k] := List.getElem?_eq_getElem hk
  obtain ⟨hlow, hhigh, hmem⟩ := hf k _ hget
  have ht := hlt _ (List.getElem_mem hk)
  generalize tables[k] = t at *
  rw [entryOf_page ht, Nat.zero_add] at hlow hhigh
  have hentry := hmem j hj
  rw [Nat.zero_add, entryOf_page hkj] at hentry
  obtain ⟨hp1, hp2, hp3⟩ := entry_bits ht
  obtain ⟨hq1, hq2, hq3⟩ := entry_bits hkj
  have hpde : pt.pgDir (va / 2 ^ 22) = t * pageSize + 3 := by
    rcases hva with rfl | rfl
    · rw [← hlow]
      congr 1
      unfold pgTableEntries pageSize at *
      omega
    · rw [← hhigh, pgdIndex_pageOffset]
      congr 1
      unfold pgTableEntries pageSize pageOffset at *
      omega
  have hidx : va / 2 ^ 12 % 2 ^ 10 = j := by
    unfold pgTableEntries pageSize pageOffset at *
    omega
  have hoff : va % 2 ^ 12 = o := by
    unfold pgTableEntries pageSize pageOffset at *
    omega
  unfold walk
  rw [hpde, if_neg hp1, hp3, hidx, hentry, if_neg hq1, hq3, hoff]
  simp [hp2, hq2]

/-! ### Which memory is mapped -/

/-- **All memory is mapped**, from 0 on and from `PAGE_OFFSET` on, and only entries of the directory
are used. -/
def MapsAllRam (totalram pgdirEntries : ℕ) (pt : PageTables) : Prop :=
  (∀ p < totalram, ∀ o < pageSize,
    walk pt (p * pageSize + o) = some (p * pageSize + o, true) ∧
    walk pt (pageOffset + p * pageSize + o) = some (p * pageSize + o, true)) ∧
  ∀ i < pgdirEntries, pgdIndex pageOffset + i < pgTableEntries

theorem totalramPages_lt (mbi : MultibootInfo) : totalramPages mbi < 2 ^ 20 := by
  have := u32_lt (mbi.memUpper * 1024 + 1024 * 1024)
  unfold totalramPages pageSize
  omega

theorem countPgdirEntries_eq {totalram : ℕ} (h : totalram < 2 ^ 20) :
    countPgdirEntries totalram = totalram / pgTableEntries := by
  unfold countPgdirEntries
  rw [u32_of_lt (by unfold pageSize; omega), Nat.mul_comm pageSize, Nat.mul_div_mul_right _ _ (by decide)]

section Mapped
variable {totalram memMap : ℕ} {garbage pages pages' : ℕ → Page} {mem : ℕ → ℕ} {tables : List ℕ}
variable {pt : PageTables}

theorem walk_unmapped (hlt : totalram < 2 ^ 20) (hn : totalram / pgTableEntries ≤ 256)
    (h : setupPaging totalram (totalram / pgTableEntries) memMap garbage pages ⟨fun _ => 0, mem⟩ =
      some (tables, pages', pt)) (hmeets : ∀ t ∈ tables, ¬ Meets (t * pageSize) memMap totalram) :
    walk pt (totalram / pgTableEntries * pgTableEntries * pageSize) = none := by
  obtain ⟨-, -, -, hdirs⟩ := setupPaging_spec hlt (Nat.div_mul_le_self _ _) hn h hmeets
  have hidx : totalram / pgTableEntries * pgTableEntries * pageSize / 2 ^ 22 =
      totalram / pgTableEntries := by
    unfold pgTableEntries pageSize
    omega
  unfold walk
  rw [hidx, hdirs _ le_rfl (by omega)]
  exact if_pos (Nat.zero_and 1)

theorem mapsAllRam_of_dvd (hle : totalram ≤ 2 ^ 18) (hdvd : pgTableEntries ∣ totalram)
    (h : setupPaging totalram (totalram / pgTableEntries) memMap garbage pages ⟨fun _ => 0, mem⟩ =
      some (tables, pages', pt)) (hmeets : ∀ t ∈ tables, ¬ Meets (t * pageSize) memMap totalram) :
    MapsAllRam totalram (totalram / pgTableEntries) pt := by
  have hn : totalram / pgTableEntries ≤ 256 := by unfold pgTableEntries; omega
  obtain ⟨hlen, hfilled, hall, -⟩ := setupPaging_spec (by omega) (Nat.div_mul_le_self _ _) hn h hmeets
  have hlt : ∀ t ∈ tables, t < 2 ^ 20 := fun t ht => by
    have := hall t ht
    omega
  refine ⟨fun p hp o ho => ?_, fun i hi => ?_⟩
  · have hpos : 0 < pgTableEntries := by decide
    have hk : p / pgTableEntries < tables.length := by
      rw [hlen]
      exact Nat.div_lt_div_of_lt_of_dvd hdvd hp
    have hj : p % pgTableEntries < pgTableEntries := Nat.mod_lt _ hpos
    have hsplit : p / pgTableEntries * pgTableEntries + p % pgTableEntries = p :=
      Nat.div_add_mod' p pgTableEntries
    have hp20 : p / pgTableEntries * pgTableEntries + p % pgTableEntries < 2 ^ 20 := by
      omega
    have h1 := walk_filled hfilled hlt hk hj ho hp20 (Or.inl rfl)
    have h2 := walk_filled hfilled hlt hk hj ho hp20 (Or.inr rfl)
    rw [hsplit] at h1 h2
    exact ⟨h1, h2⟩
  · rw [pgdIndex_pageOffset]
    unfold pgTableEntries at *
    omega

end Mapped

/-- What the boot loader passes for the given number of pages, at least 256. -/
def infoOfPages (n : ℕ) : MultibootInfo := ⟨64, 639, (n - 256) * 4, 0, 0⟩

/-- Paging is set up for `n` pages that are all free, with the descriptors at 2 MiB. -/
def pagingOf (n : ℕ) : Option (List ℕ × (ℕ → Page) × PageTables) :=
  setupPaging n (countPgdirEntries n) 0x200000 (fun _ => zeroPage) (fun _ => zeroPage)
    ⟨fun _ => 0, fun _ => 0⟩

theorem exists_pagingOf {n : ℕ} (h : (pagingOf n).any fun r => decide (r.1 = [0])) :
    ∃ pages pt, pagingOf n = some ([0], pages, pt) := by
  obtain ⟨⟨tables, pages, pt⟩, hr, htables⟩ := (Option.any_eq_true _ _).mp h
  obtain rfl : tables = [0] := of_decide_eq_true htables
  exact ⟨pages, pt, hr⟩

theorem not_meets_first {n : ℕ} : ∀ t ∈ [0], ¬ Meets (t * pageSize) 0x200000 n := by
  rintro t ht ⟨-, hlt⟩
  rw [List.mem_singleton.mp ht] at hlt
  exact absurd hlt (by decide)

end YegaKernel.Boot.Paging
