import YegaKernel.Boot.PageArray

/-! # The pages that `create_mem_map` clears

A page is usable if the whole of it lies in a block of `free_memory_blocks`. `create_mem_map` clears
the marks of other pages, for two reasons.

* It clears the pages that start in a block (`startsIn_iff`). Where the end of the block is not
  aligned, the last of them is not inside.
* Its counter is used for the pages of a block as well, so that the loop goes on with the block
  whose index follows the number of the page behind the last one. It comes to the blocks that are
  `Reached`, some of them perhaps twice, and to no other.

So it is right exactly for the contents of `free_memory_blocks` where neither matters
(`ExactBlocks`). -/

namespace YegaKernel.Boot.UsablePages

open Lib.Word Buddy.State
open Boot.FirstFit Boot.MemoryMap Boot.PageArray

/-! ### The blocks -/

/-- `free_memory_blocks[i]`. -/
def blockAt (blocks : List MemoryBlock) (i : ℕ) : MemoryBlock := blocks.getD i ⟨0, 0⟩

/-- The entry is not skipped. -/
def Used (blocks : List MemoryBlock) (i : ℕ) : Prop :=
  i < maxMemoryBlocks ∧ (blockAt blocks i).start ≠ 0 ∧ (blockAt blocks i).fin ≠ 0

/-- The whole page lies in the block. -/
def WholePage (b : MemoryBlock) (p : ℕ) : Prop :=
  b.start ≤ p * pageSize ∧ (p + 1) * pageSize ≤ b.fin

/-- Where the pages of a block start: its start as a word, or 0 where it cannot be rounded up. -/
def phyStart (b : MemoryBlock) : ℕ :=
  if 2 ^ 32 - pageSize < u32 b.start then 0 else u32 b.start

/-- The page starts in the block. -/
def StartsIn (b : MemoryBlock) (p : ℕ) : Prop := phyStart b ≤ p * pageSize ∧ p * pageSize < b.fin

/-- The number of the page behind the pages of a block. -/
def pageBehind (b : MemoryBlock) : ℕ := max (pageStart b) (pageEnd b + 1)

/-- The first entry in use from the index `lo` on. -/
def FirstUsed (blocks : List MemoryBlock) (lo i : ℕ) : Prop :=
  lo ≤ i ∧ Used blocks i ∧ ∀ j, lo ≤ j → j < i → ¬ Used blocks j

/-- **The loop comes to the entry**, if its counter is `lo`: it is the first one in use, or the loop
comes to it from behind the pages of the first one. -/
inductive Reached (blocks : List MemoryBlock) : ℕ → ℕ → Prop
  | first {lo i : ℕ} (h : FirstUsed blocks lo i) : Reached blocks lo i
  | next {lo i j : ℕ} (h : FirstUsed blocks lo i)
      (rest : Reached blocks (pageBehind (blockAt blocks i) + 1) j) : Reached blocks lo j

/-- A page is usable if the whole of it lies in one of the blocks. -/
def Usable (blocks : List MemoryBlock) (p : ℕ) : Prop :=
  ∃ i, Used blocks i ∧ WholePage (blockAt blocks i) p

/-- **What `create_mem_map` should leave**: the marks are clear on the usable pages only. -/
def FreesUsable (n : ℕ) (blocks : List MemoryBlock) (pages : ℕ → Page) : Prop :=
  ∀ p < n, taken (pages p) = false ∧ reserved (pages p) = false ↔ Usable blocks p

/-- **The contents that are handled well**: a usable page starts in a block that the loop comes to,
and where such a block ends inside a page, or its start is changed by the rounding, the pages that
start in it without being inside are usable all the same. -/
structure ExactBlocks (blocks : List MemoryBlock) : Prop where
  seen : ∀ i p, Used blocks i → WholePage (blockAt blocks i) p →
    ∃ j, Reached blocks 0 j ∧ StartsIn (blockAt blocks j) p
  ends : ∀ j, Reached blocks 0 j → (blockAt blocks j).fin % pageSize ≠ 0 →
    StartsIn (blockAt blocks j) ((blockAt blocks j).fin / pageSize) →
      Usable blocks ((blockAt blocks j).fin / pageSize)
  starts : ∀ j p, Reached blocks 0 j → phyStart (blockAt blocks j) ≠ (blockAt blocks j).start →
    StartsIn (blockAt blocks j) p → Usable blocks p

/-! ### The pages of one block -/

theorem pageStart_le_iff (b : MemoryBlock) (p : ℕ) :
    pageStart b ≤ p ↔ phyStart b ≤ p * pageSize := by
  unfold pageStart phyStart
  simp only
  unfold u32 pageSize
  split_ifs <;> omega

variable {b : MemoryBlock}

theorem le_pageEnd_iff (h0 : b.fin ≠ 0) (h : b.fin < 2 ^ 32) (p : ℕ) :
    p ≤ pageEnd b ↔ p * pageSize < b.fin := by
  unfold pageEnd
  simp only
  rw [u32_of_lt h]
  unfold sub32 pageSize
  split_ifs <;> omega

theorem startsIn_iff (h0 : b.fin ≠ 0) (h : b.fin < 2 ^ 32) (p : ℕ) :
    pageStart b ≤ p ∧ p ≤ pageEnd b ↔ StartsIn b p := by
  rw [pageStart_le_iff, le_pageEnd_iff h0 h]
  rfl

theorem StartsIn.cases {p : ℕ} (h : StartsIn b p) (hs : phyStart b = b.start) :
    WholePage b p ∨ b.fin % pageSize ≠ 0 ∧ p = b.fin / pageSize := by
  unfold StartsIn at h
  unfold WholePage
  unfold pageSize at *
  omega

/-! ### The blocks of the loop -/

section Loop
variable {blocks : List MemoryBlock}

variable {lo j : ℕ}

theorem Reached.used (h : Reached blocks lo j) : Used blocks j := by
  induction h with
  | first h => exact h.2.1
  | next _ _ ih => exact ih

theorem firstUsed_succ {i : ℕ} (h : ¬ Used blocks lo) :
    FirstUsed blocks lo i ↔ FirstUsed blocks (lo + 1) i := by
  constructor
  · rintro ⟨hle, hused, hlow⟩
    have hne : lo ≠ i := fun heq => h (heq ▸ hused)
    exact ⟨by omega, hused, fun j hj hj' => hlow j (by omega) hj'⟩
  · rintro ⟨hle, hused, hlow⟩
    refine ⟨by omega, hused, fun j hj hj' => ?_⟩
    rcases Nat.eq_or_lt_of_le hj with rfl | hj
    · exact h
    · exact hlow j hj hj'

theorem reached_succ (h : ¬ Used blocks lo) : Reached blocks lo j ↔ Reached blocks (lo + 1) j := by
  constructor
  · rintro (hf | ⟨hf, rest⟩)
    · exact .first ((firstUsed_succ h).mp hf)
    · exact .next ((firstUsed_succ h).mp hf) rest
  · rintro (hf | ⟨hf, rest⟩)
    · exact .first ((firstUsed_succ h).mpr hf)
    · exact .next ((firstUsed_succ h).mpr hf) rest

theorem FirstUsed.of_used (h : Used blocks lo) : FirstUsed blocks lo lo :=
  ⟨le_rfl, h, fun _ hj hj' => absurd hj (by omega)⟩

theorem FirstUsed.eq_of_used {i : ℕ} (h : Used blocks lo) (hf : FirstUsed blocks lo i) :
    i = lo := by
  obtain ⟨hle, -, hlow⟩ := hf
  by_contra hne
  exact hlow lo le_rfl (by omega) h

theorem reached_of_used (h : Used blocks lo) :
    Reached blocks lo j ↔ j = lo ∨ Reached blocks (pageBehind (blockAt blocks lo) + 1) j := by
  constructor
  · rintro (hf | ⟨hf, rest⟩)
    · exact Or.inl (hf.eq_of_used h)
    · rw [hf.eq_of_used h] at rest
      exact Or.inr rest
  · rintro (rfl | rest)
    · exact .first (.of_used h)
    · exact .next (.of_used h) rest

/-- **A loop that ends has visited the blocks that are reached.** -/
theorem mem_visitBlocks : ∀ (fuel iCnt : ℕ) (vs : List MemoryBlock),
    visitBlocks blocks fuel iCnt = some vs →
      ∀ b, b ∈ vs ↔ ∃ j, Reached blocks iCnt j ∧ blockAt blocks j = b
  | 0, _, _, h => absurd h (by simp [visitBlocks])
  | fuel + 1, iCnt, vs, h => by
    intro b
    rw [visitBlocks] at h
    simp only at h
    split_ifs at h with hlt hskip
    · have hnot : ¬ Used blocks iCnt := fun hu => hskip.elim hu.2.1 hu.2.2
      simp only [reached_succ hnot]
      exact mem_visitBlocks fuel _ vs h b
    · rw [not_or] at hskip
      rw [Option.map_eq_some_iff] at h
      obtain ⟨ws, hws, rfl⟩ := h
      have hused : Used blocks iCnt := ⟨hlt, hskip.1, hskip.2⟩
      rw [List.mem_cons, mem_visitBlocks fuel _ ws hws b]
      simp only [reached_of_used hused]
      constructor
      · rintro (rfl | ⟨j, hj, rfl⟩)
        · exact ⟨iCnt, Or.inl rfl, rfl⟩
        · exact ⟨j, Or.inr hj, rfl⟩
      · rintro ⟨j, rfl | hj, rfl⟩
        · exact Or.inl rfl
        · exact Or.inr ⟨j, hj, rfl⟩
    · rw [Option.some.injEq] at h
      subst h
      -- behind the last entry nothing is in use
      have hnone : ∀ i, ¬ FirstUsed blocks iCnt i := fun i hf => by
        have := hf.1
        have := hf.2.1.1
        omega
      refine ⟨fun hb => absurd hb List.not_mem_nil, ?_⟩
      rintro ⟨j, hf | ⟨hf, -⟩, -⟩
      · exact absurd hf (hnone j)
      · exact absurd hf (hnone _)

end Loop

/-! ### The result -/

section Result
variable {fuel : ℕ} {h : Heap} {mbi : MultibootInfo} {blocks : List MemoryBlock} {memMap : ℕ}
  {pages : ℕ → Page}

theorem totalramPages_mul_lt (mbi : MultibootInfo) : totalramPages mbi * pageSize < 2 ^ 32 :=
  lt_of_le_of_lt (Nat.div_mul_le_self _ _) (u32_lt _)

section
variable (hends : ∀ b ∈ blocks, b.fin ≤ totalramPages mbi * pageSize)
include hends

theorem fin_le_of_ends (i : ℕ) : (blockAt blocks i).fin ≤ totalramPages mbi * pageSize := by
  unfold blockAt
  rw [List.getD_eq_getElem?_getD]
  rcases hget : blocks[i]? with _ | b
  · exact Nat.zero_le _
  · exact hends b (List.mem_of_getElem? hget)

theorem createMemMap_clears (hc : createMemMap fuel h mbi blocks = some (memMap, pages)) {p : ℕ}
    (hp : p < totalramPages mbi) : taken (pages p) = false ∧ reserved (pages p) = false ↔
      ∃ j, Reached blocks 0 j ∧ StartsIn (blockAt blocks j) p := by
  obtain ⟨-, -, visited, hvis, hbits⟩ := createMemMap_spec hc
  obtain ⟨htaken, hreserved, -⟩ := hbits p hp
  rw [htaken, hreserved, and_self]
  have hmem := mem_visitBlocks fuel 0 visited hvis
  have hpages : ∀ j, Reached blocks 0 j → (pageStart (blockAt blocks j) ≤ p ∧
      p ≤ pageEnd (blockAt blocks j) ↔ StartsIn (blockAt blocks j) p) := fun j hj =>
    startsIn_iff hj.used.2.2 ((fin_le_of_ends hends j).trans_lt (totalramPages_mul_lt mbi)) p
  constructor
  · rintro ⟨b, hb, hin⟩
    obtain ⟨j, hj, rfl⟩ := (hmem b).mp hb
    exact ⟨j, hj, (hpages j hj).mp hin⟩
  · rintro ⟨j, hj, hin⟩
    exact ⟨blockAt blocks j, (hmem _).mpr ⟨j, hj, rfl⟩, (hpages j hj).mpr hin⟩

theorem lt_totalram_of_startsIn
    {j p : ℕ} (hp : p * pageSize < (blockAt blocks j).fin) : p < totalramPages mbi :=
  lt_of_mul_lt_mul_right (hp.trans_le (fin_le_of_ends hends j)) (Nat.zero_le _)

end

/-- **`create_mem_map` clears the marks of the usable pages only, exactly if** the contents of
`free_memory_blocks` are handled well. -/
theorem freesUsable_iff (hends : ∀ b ∈ blocks, b.fin ≤ totalramPages mbi * pageSize)
    (hc : createMemMap fuel h mbi blocks = some (memMap, pages)) :
    FreesUsable (totalramPages mbi) blocks pages ↔ ExactBlocks blocks := by
  constructor
  · intro hfree
    have husable : ∀ j p, Reached blocks 0 j → StartsIn (blockAt blocks j) p → Usable blocks p :=
      fun j p hj hin => by
        have hp := lt_totalram_of_startsIn hends hin.2
        exact (hfree p hp).mp ((createMemMap_clears hends hc hp).mpr ⟨j, hj, hin⟩)
    refine ⟨fun i p hi hw => ?_, fun j hj _ hin => husable j _ hj hin,
      fun j p hj _ hin => husable j p hj hin⟩
    have hstart : p * pageSize < (blockAt blocks i).fin := by
      have := hw.2
      unfold pageSize at this ⊢
      omega
    have hp := lt_totalram_of_startsIn hends hstart
    exact (createMemMap_clears hends hc hp).mp ((hfree p hp).mpr ⟨i, hi, hw⟩)
  · intro hex p hp
    rw [createMemMap_clears hends hc hp]
    constructor
    · rintro ⟨j, hj, hin⟩
      by_cases hs : phyStart (blockAt blocks j) = (blockAt blocks j).start
      · rcases hin.cases hs with hw | ⟨hend, rfl⟩
        · exact ⟨j, hj.used, hw⟩
        · exact hex.ends j hj hend hin
      · exact hex.starts j p hj hs hin
    · rintro ⟨i, hi, hw⟩
      exact hex.seen i p hi hw

end Result

/-! ### Two machines of 4 MiB -/

/-- What the boot loader passes for 4 MiB of memory. -/
def fourMiB : MultibootInfo := ⟨64, 639, 3072, 0, 0⟩

/-- The usual contents: the low memory starts at 0 and is skipped, the memory behind the kernel
image is one block with an aligned end. -/
def usualBlocks : List MemoryBlock := [⟨0, 0x9fc00⟩, ⟨0x210000, 0x400000⟩]

/-- There is a hole behind the kernel image, and the block before it ends inside a page. -/
def holeBlocks : List MemoryBlock := [⟨0, 0x9fc00⟩, ⟨0x210000, 0x2ff800⟩, ⟨0x300000, 0x400000⟩]

/-- `create_mem_map` on a machine of 4 MiB, with the heap as it starts. -/
def createWith (blocks : List MemoryBlock) : Option (ℕ × (ℕ → Page)) :=
  createMemMap 12 (initHeap 0 fun _ => 0) fourMiB blocks

theorem totalramPages_fourMiB : totalramPages fourMiB = 1024 := by decide

theorem used_usualBlocks {i : ℕ} (h : Used usualBlocks i) : i = 1 := by
  obtain ⟨hlt, hstart, -⟩ := h
  unfold maxMemoryBlocks at hlt
  by_contra hne
  interval_cases i <;> first | exact hne rfl | exact hstart rfl

/-- The usual contents are handled well. -/
theorem freesUsable_usualBlocks : ∃ memMap pages,
    createWith usualBlocks = some (memMap, pages) ∧ FreesUsable 1024 usualBlocks pages := by
  have hsome : (createWith usualBlocks).isSome := by
    unfold createWith createMemMap
    decide +kernel
  obtain ⟨⟨memMap, pages⟩, hc⟩ := Option.isSome_iff_exists.mp hsome
  have hends : ∀ b ∈ usualBlocks, b.fin ≤ totalramPages fourMiB * pageSize := by decide
  refine ⟨memMap, pages, hc, ?_⟩
  rw [← totalramPages_fourMiB]
  refine (freesUsable_iff hends hc).mpr ⟨fun i p hi hw => ?_, fun j hj hend => ?_,
    fun j p hj hstart => ?_⟩
  · obtain rfl := used_usualBlocks hi
    have hfirst : FirstUsed usualBlocks 0 1 := ⟨by decide, hi, fun j _ hj hused => by
      have := used_usualBlocks hused
      omega⟩
    refine ⟨1, .first hfirst, hw.1, ?_⟩
    have := hw.2
    unfold pageSize at this ⊢
    omega
  · obtain rfl := used_usualBlocks hj.used
    exact absurd (by decide) hend
  · obtain rfl := used_usualBlocks hj.used
    exact absurd (by decide) hstart

/-- **With a hole a usable page stays marked**, and the marks of a page that is not usable are
cleared. -/
theorem not_freesUsable_holeBlocks : (∀ b ∈ holeBlocks, b.fin ≤ 1024 * pageSize) ∧
    ∃ memMap pages, createWith holeBlocks = some (memMap, pages) ∧
      (Usable holeBlocks 0x300 ∧ taken (pages 0x300) = true) ∧
      ¬ Usable holeBlocks 0x2ff ∧ taken (pages 0x2ff) = false ∧ reserved (pages 0x2ff) = false := by
  have hsome : (createWith holeBlocks).isSome := by
    unfold createWith createMemMap
    decide +kernel
  obtain ⟨⟨memMap, pages⟩, hc⟩ := Option.isSome_iff_exists.mp hsome
  obtain ⟨-, -, visited, hvis, hbits⟩ := createMemMap_spec hc
  have hvisited : visitBlocks holeBlocks 12 0 = some [⟨0x210000, 0x2ff800⟩] := by decide
  rw [hvisited, Option.some.injEq] at hvis
  subst hvis
  refine ⟨by decide, memMap, pages, hc, ⟨⟨2, ⟨by decide, by decide, by decide⟩, by decide, by decide⟩,
    ?_⟩, ?_, ?_, ?_⟩
  · rw [← Bool.not_eq_false, (hbits 0x300 (by decide)).1]
    rintro ⟨b, hb, -, hend⟩
    rw [List.mem_singleton.mp hb] at hend
    exact absurd hend (by decide)
  · rintro ⟨i, ⟨hlt, hstart, -⟩, hwhole⟩
    unfold maxMemoryBlocks at hlt
    unfold WholePage at hwhole
    interval_cases i <;> revert hstart hwhole <;> decide
  · exact (hbits 0x2ff (by decide)).1.mpr ⟨_, List.mem_singleton.mpr rfl, by decide, by decide⟩
  · exact (hbits 0x2ff (by decide)).2.1.mpr ⟨_, List.mem_singleton.mpr rfl, by decide, by decide⟩

end YegaKernel.Boot.UsablePages
