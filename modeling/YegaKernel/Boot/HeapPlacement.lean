import YegaKernel.Boot.Requests
import YegaKernel.Boot.PageArray

/-! # Where the page descriptors are built

`initialize_memeory_manager` puts a heap of `HEAP_SIZE` bytes behind the start of the first memory
block, whatever the size of the block, and runs `test_allocator` on it. The test leaves two blocks
of 96 bytes together, and `create_mem_map` gets the array of page descriptors behind them: it starts
`12 + 96` bytes behind the start of the heap (`memMap_eq`). So the array lies in the memory block
exactly if it ends there (`memMap_inside_iff`). -/

namespace YegaKernel.Boot.HeapPlacement

open Lib.Word Lib.NullList Function
open Buddy.State (Page sizeofPage pageSize)
open Boot.FirstFit Boot.MemoryMap Boot.PageArray
open Boot.Requests

/-! ### The code -/

/-- The words `f 0`, `f 1`, ... are stored in the array of `n` words at `p`. -/
def fillWords (p : ℕ) (f : ℕ → ℕ) : ℕ → Heap → Heap
  | 0, h => h
  | n + 1, h => (fillWords p f n h).store (u32 (p + 4 * n)) (f n)

/-- The array of `n` words at `p` holds `f 0`, `f 1`, ... -/
def holdsWords (h : Heap) (p : ℕ) (f : ℕ → ℕ) (n : ℕ) : Bool :=
  (List.range n).all fun i => h.mem (u32 (p + 4 * i)) = f i

/-- `test_allocator`; `none` where the test fails. -/
def testAllocator (fuel : ℕ) (h : Heap) : Option Heap := do
  let (arr1, h) ← kalloc fuel h (10 * 4)
  guard (arr1 ≠ 0)
  let h := fillWords arr1 (fun i => i * 2) 10 h
  guard (holdsWords h arr1 (fun i => i * 2) 10)
  let (arr2, h) ← kalloc fuel h (5 * 4)
  guard (arr2 ≠ 0)
  let h := fillWords arr2 (fun i => i + 100) 5 h
  let h := kbfree h arr1
  let (arr3, h) ← kalloc fuel h (8 * 4)
  guard (arr3 ≠ 0)
  let h := fillWords arr3 (fun i => i + 200) 8 h
  guard (holdsWords h arr2 (fun i => i + 100) 5)
  return h

/-- `initialize_memeory_manager`: the blocks of memory and the heap. `none` where it fails. -/
def initializeMemeoryManager (fuel : ℕ) (entryAt : ℕ → MmapEntry) (kernelEnd : ℕ)
    (mbi : MultibootInfo) (mem : ℕ → ℕ) : Option (List MemoryBlock × Heap) := do
  let blocks ← findAvailableMemory entryAt kernelEnd mbi fuel
  guard (blocks.length ≠ 0)
  let h ← testAllocator fuel (initHeap (blocks.getD 0 ⟨0, 0⟩).start mem)
  return (blocks, h)

/-! ### The test -/

variable {fuel p : ℕ} {h h' : Heap} {blocks : List MemoryBlock}

theorem testAllocator_cases (ht : testAllocator fuel h = some h') :
    ∃ arr1 h₁, kalloc fuel h 40 = some (arr1, h₁) ∧ arr1 ≠ 0 ∧
    ∃ arr2 h₂, kalloc fuel (fillWords arr1 (fun i => i * 2) 10 h₁) 20 = some (arr2, h₂) ∧ arr2 ≠ 0 ∧
    ∃ arr3 h₃, kalloc fuel (kbfree (fillWords arr2 (fun i => i + 100) 5 h₂) arr1) 32 =
        some (arr3, h₃) ∧ arr3 ≠ 0 ∧ h' = fillWords arr3 (fun i => i + 200) 8 h₃ ∧
      holdsWords h' arr2 (fun i => i + 100) 5 = true := by
  unfold testAllocator at ht
  simp only [Option.bind_eq_bind, Option.bind_eq_some_iff, Prod.exists, Option.guard_eq_some', exists_const,
    Option.pure_def, Option.some.injEq] at ht
  obtain ⟨arr1, h₁, hk₁, hn₁, -, arr2, h₂, hk₂, hn₂, arr3, h₃, hk₃, hn₃, hw, rfl⟩ := ht
  exact ⟨arr1, h₁, hk₁, hn₁, arr2, h₂, hk₂, hn₂, arr3, h₃, hk₃, hn₃, rfl, hw⟩

/-- **The heap from `hs` on is in order**, and `kalloc_ptr` is `used` bytes behind its start. -/
structure Placed (hs used : ℕ) (h : Heap) (live : List (ℕ × ℕ)) (bs : List ℕ) : Prop where
  dvd : 4096 ∣ hs
  lt : hs + heapSize < 2 ^ 32
  room : used ≤ heapSize
  ordered : Ordered h live bs
  start_eq : h.heapStart = hs
  end_eq : h.heapEnd = hs + heapSize
  ptr_eq : h.kallocPtr = hs + used

section Placed
variable {hs used fuel req p : ℕ} {h h' : Heap} {live : List (ℕ × ℕ)} {bs : List ℕ}

theorem Placed.tiled (hp : Placed hs used h live bs) : HeapTiled h bs where
  start_pos := hp.ordered.start_pos
  start_dvd := hp.start_eq ▸ hp.dvd
  end_eq := by rw [hp.end_eq, hp.start_eq]
  end_lt := hp.end_eq ▸ hp.lt
  ptr_le := by rw [hp.ptr_eq, hp.end_eq]; exact Nat.add_le_add_left hp.room _
  threaded := hp.ordered.threaded
  tiles := hp.ordered.tiles

theorem Placed.fill (hp : Placed hs used h live bs) {a : ℕ × ℕ} (ha : a ∈ live) (f : ℕ → ℕ) :
    ∀ {n : ℕ}, 4 * n ≤ a.2 → Placed hs used (fillWords a.1 f n h) live bs
  | 0, _ => hp
  | n + 1, hn => by
    have ih := hp.fill ha f (n := n) (by omega)
    obtain ⟨b, hb, hab, -, hsz⟩ := ih.ordered.held a ha
    have hend := (ih.ordered.tiles.mem_range b hb).2
    have hbound := ih.ordered.bound
    unfold width at hend
    have hword : u32 (a.1 + 4 * n) = a.1 + 4 * n := u32_of_lt (by omega)
    refine ⟨hp.dvd, hp.lt, hp.room, ?_, ih.start_eq, ih.end_eq, ih.ptr_eq⟩
    exact ih.ordered.write _ ha (by omega) (by omega)

theorem Placed.isFreed_eq (hp : Placed hs used h live bs) {a : ℕ × ℕ} (ha : a ∈ live) {b : ℕ}
    (hb : a.1 = b + sizeofHeapBlock) : isFreed h b = 0 := by
  obtain ⟨c, -, hac, hfree, -⟩ := hp.ordered.held a ha
  obtain rfl : c = b := by omega
  exact hfree

theorem not_refused (hk : kalloc fuel h req = some (p, h')) (hp0 : p ≠ 0) : ¬ Refused h req := by
  intro hr
  rw [kalloc_of_refused hr, Option.some.injEq, Prod.mk.injEq] at hk
  exact hp0 hk.1.symm

theorem Placed.kalloc_new (hp : Placed hs used h live bs)
    (hall : ∀ b ∈ bs, ∃ a ∈ live, a.1 = b + sizeofHeapBlock)
    (hk : kalloc fuel h req = some (p, h')) (hp0 : p ≠ 0) : p = hs + used + sizeofHeapBlock ∧
      h' = newBlock h (alignUp req 8) ((0 :: bs).getLast (List.cons_ne_nil _ _)) := by
  rcases hp.tiled.kalloc_cases (not_refused hk hp0) hk with ⟨b, hb, hfit, -⟩ | ⟨-, rfl, rfl⟩
  · obtain ⟨a, ha, hab⟩ := hall b hb
    exact absurd (hp.isFreed_eq ha hab) hfit.1
  · exact ⟨by rw [hp.ptr_eq], rfl⟩

theorem Placed.newBlock (hp : Placed hs used h live bs) {n r : ℕ} (hle : r ≤ n)
    (hroom : used + (n + sizeofHeapBlock) ≤ heapSize) : Placed hs (used + (n + sizeofHeapBlock))
      (newBlock h n ((0 :: bs).getLast (List.cons_ne_nil _ _)))
      ((hs + used + sizeofHeapBlock, r) :: live) (bs ++ [hs + used]) := by
  have hlt := hp.lt
  have hptr := hp.ptr_eq
  obtain ⟨hstart, hend, -, hnew⟩ :=
    @newBlock_globals h n ((0 :: bs).getLast (List.cons_ne_nil _ _))
  have hord := hp.ordered.hold_newBlock hle (by omega)
  rw [hptr] at hord
  refine ⟨hp.dvd, hlt, hroom, hord, hstart.trans hp.start_eq, hend.trans hp.end_eq, ?_⟩
  rw [hnew, u32_of_lt (n := n + _) (by omega), u32_of_lt (by omega), hptr, Nat.add_assoc]

theorem Placed.kbfree {r : ℕ} {a : ℕ × ℕ} {c : ℕ}
    (hp : Placed hs used h [a, (hs + sizeofHeapBlock, r)] [hs, c]) :
    Placed hs used (kbfree h (hs + sizeofHeapBlock)) [a] [hs, c] ∧
      isFreed (kbfree h (hs + sizeofHeapBlock)) hs = 1 := by
  have ho := hp.ordered
  have hmem : (hs + sizeofHeapBlock, r) ∈ [a, (hs + sizeofHeapBlock, r)] := by simp
  have hnext : next h hs ≠ 0 := by
    have hlink : next h hs = c := ho.threaded.2.2.1
    rw [hlink]
    exact ho.threaded.ne_zero c (by simp)
  have hfree := ho.kbfree hmem hnext
  have hne : a ≠ (hs + sizeofHeapBlock, r) := by
    rintro rfl
    exact absurd ho.distinct (by simp)
  have herase : [a, (hs + sizeofHeapBlock, r)].erase (hs + sizeofHeapBlock, r) = [a] := by
    rw [List.erase_cons_tail (by simpa using hne), List.erase_cons_head]
  obtain ⟨d, -, hd, hkb⟩ := ho.kbfree_eq hmem
  obtain rfl : d = hs := by simpa using hd.symm
  simp only [if_neg hnext] at hkb
  rw [herase] at hfree
  rw [hkb] at hfree ⊢
  exact ⟨⟨hp.dvd, hp.lt, hp.room, hfree, hp.start_eq, hp.end_eq, hp.ptr_eq⟩, isFreed_setFreed h d 1⟩

theorem Placed.kalloc_first {a : ℕ × ℕ} {c : ℕ} (hp : Placed hs used h [a] [hs, c])
    (ha : a.1 = c + sizeofHeapBlock) (hf : isFreed h hs ≠ 0)
    (hfit : hs + (alignUp req 8 + sizeofHeapBlock) ≤ c) (hreq : req + 9 < 2 ^ 32)
    (hk : kalloc fuel h req = some (p, h')) (hp0 : p ≠ 0) :
    p = hs + sizeofHeapBlock ∧ Placed hs used h' [(hs + sizeofHeapBlock, req), a] [hs, c] := by
  have hsize : alignUp req 8 ≤ size h hs := by
    have hnext : c = h.heapStart + width h hs := hp.ordered.tiles.2.1
    rw [hp.start_eq, width] at hnext
    omega
  rcases hp.tiled.kalloc_cases (not_refused hk hp0) hk with ⟨b, hb, hbfit, rfl, rfl⟩ | ⟨hnone, -⟩
  · -- the other block is live
    have hbs : b = hs := by
      rcases List.mem_cons.mp hb with hb | hb
      · exact hb
      · have hbc : b = c := by simpa using hb
        exact absurd (hp.isFreed_eq List.mem_cons_self (hbc ▸ ha)) hbfit.1
    subst hbs
    refine ⟨rfl, hp.dvd, hp.lt, hp.room, ?_, hp.start_eq, hp.end_eq, hp.ptr_eq⟩
    exact hp.ordered.hold_freed List.mem_cons_self hf ((le_alignUp hreq).trans hsize)
  · exact absurd ⟨hf, hsize⟩ (hnone hs List.mem_cons_self)

/-- **The test** on a new heap leaves two live blocks of 96 bytes together. -/
theorem placed_testAllocator (hp : Placed hs 0 h [] []) (ht : testAllocator fuel h = some h') :
    Placed hs 96 h' [(hs + 12, 32), (hs + 72, 20)] [hs, hs + 60] := by
  obtain ⟨arr1, h₁, hk₁, hn₁, arr2, h₂, hk₂, hn₂, arr3, h₃, hk₃, hn₃, rfl, -⟩ := testAllocator_cases ht
  have h40 : alignUp 40 8 = 48 := by decide
  have h20 : alignUp 20 8 = 24 := by decide
  have h32 : alignUp 32 8 = 40 := by decide
  -- the first array is in a new block, and so is the second one
  obtain ⟨harr1, hh₁⟩ := hp.kalloc_new (by simp) hk₁ hn₁
  have hp₁ : Placed hs 60 h₁ [(hs + 12, 40)] [hs] := by
    rw [hh₁, h40]
    exact hp.newBlock (r := 40) (n := 48) (by norm_num) (by decide)
  obtain rfl : arr1 = hs + 12 := harr1
  replace hp₁ := hp₁.fill List.mem_cons_self (fun i => i * 2) (n := 10) (by norm_num)
  obtain ⟨harr2, hh₂⟩ := hp₁.kalloc_new (by simp [sizeofHeapBlock]) hk₂ hn₂
  have hp₂ : Placed hs 96 h₂ [(hs + 72, 20), (hs + 12, 40)] [hs, hs + 60] := by
    rw [hh₂, h20]
    exact hp₁.newBlock (r := 20) (n := 24) (by norm_num) (by decide)
  obtain rfl : arr2 = hs + 72 := harr2
  replace hp₂ := hp₂.fill List.mem_cons_self (fun i => i + 100) (n := 5) (by norm_num)
  -- the third one is in the block of the first one again
  obtain ⟨hp₃, hfreed⟩ := hp₂.kbfree
  obtain ⟨harr3, hp₄⟩ := hp₃.kalloc_first rfl (by rw [hfreed]; norm_num)
    (by unfold sizeofHeapBlock; omega) (by norm_num) hk₃ hn₃
  obtain rfl : arr3 = hs + 12 := harr3
  exact hp₄.fill List.mem_cons_self (fun i => i + 200) (n := 8) (by norm_num)

end Placed

/-! ### A heap at the address 0 -/

theorem store_of_ne (h : Heap) {a x : ℕ} (v : ℕ) (hx : x ≠ a) : (h.store a v).mem x = h.mem x :=
  update_of_ne hx _ _

theorem fillWords_globals (p : ℕ) (f : ℕ → ℕ) (h : Heap) : ∀ n,
    (fillWords p f n h).kallocPtr = h.kallocPtr ∧ (fillWords p f n h).head = h.head
  | 0 => ⟨rfl, rfl⟩
  | n + 1 => fillWords_globals p f h n

theorem fillWords_outside {x : ℕ} (f : ℕ → ℕ) (h : Heap) : ∀ {n : ℕ}, p + 4 * n < 2 ^ 32 →
    x < p ∨ p + 4 * n ≤ x → (fillWords p f n h).mem x = h.mem x
  | 0, _, _ => rfl
  | n + 1, hn, hx => by
    have hword : u32 (p + 4 * n) = p + 4 * n := u32_of_lt (by omega)
    rw [fillWords, hword, store_of_ne _ _ (by omega)]
    exact fillWords_outside f h (by omega) (by omega)

theorem fillWords_inside {i : ℕ} (f : ℕ → ℕ) (h : Heap) : ∀ {n : ℕ}, p + 4 * n < 2 ^ 32 → i < n →
    (fillWords p f n h).mem (p + 4 * i) = f i
  | n + 1, hn, hi => by
    have hword : u32 (p + 4 * n) = p + 4 * n := u32_of_lt (by omega)
    rw [fillWords, hword]
    rcases Nat.eq_or_lt_of_le (Nat.le_of_lt_succ hi) with rfl | hlt
    · exact update_self _ _ _
    · rw [store_of_ne _ _ (by omega)]
      exact fillWords_inside f h (by omega) hlt

/-- A request to a heap without a list gets a new block at `kalloc_ptr`, and its array is filled. -/
theorem fill_first_block {req k n size : ℕ} (hhead : h.head = 0)
    (hptr : h.kallocPtr = k) (hsize : alignUp req 8 = size)
    (hk : kalloc fuel h req = some (p, h')) (hp : p ≠ 0) (f : ℕ → ℕ) (hn : 4 * n ≤ size)
    (hlt : k + (size + sizeofHeapBlock) < 2 ^ 32) :
    p = k + sizeofHeapBlock ∧ ∃ g, fillWords p f n h' = g ∧ g.head = k ∧
      g.kallocPtr = k + (size + sizeofHeapBlock) ∧ g.mem k = size ∧ g.mem (k + 4) = 0 ∧
      g.mem (k + 8) = 0 ∧ ∀ x < k, g.mem x = h.mem x := by
  rw [kalloc_of_not_refused (not_refused hk hp), hhead, hsize, Option.map_eq_some_iff] at hk
  obtain ⟨⟨curr, prev⟩, hs, heq⟩ := hk
  rcases fuel with _ | fuel
  · exact absurd hs (by simp [search])
  obtain ⟨rfl, rfl⟩ := hs
  rw [afterSearch, if_neg (not_not_intro rfl), Prod.mk.injEq, hptr, u32_of_lt (by omega)] at heq
  obtain ⟨rfl, rfl⟩ := heq
  obtain ⟨hfptr, hfhead⟩ := fillWords_globals (k + sizeofHeapBlock) f (newBlock h size 0) n
  obtain ⟨-, -, hhead', hptr'⟩ := @newBlock_globals h size 0
  obtain ⟨h1, h2, h3⟩ := @newBlock_header h 0 size (Or.inl hhead)
  rw [hptr] at h1 h2 h3
  -- the array lies behind the header
  have hlow : ∀ x < k + sizeofHeapBlock,
      (fillWords (k + sizeofHeapBlock) f n (newBlock h size 0)).mem x = (newBlock h size 0).mem x :=
    fun x hx => fillWords_outside f _ (by omega) (Or.inl hx)
  refine ⟨rfl, _, rfl, ?_, ?_, (hlow _ (by unfold sizeofHeapBlock; omega)).trans h1,
    (hlow _ (by unfold sizeofHeapBlock; omega)).trans h2,
    (hlow _ (by unfold sizeofHeapBlock; omega)).trans h3, fun x hx => ?_⟩
  · rw [hfhead, hhead', if_pos hhead, hptr]
  · rw [hfptr, hptr', hptr, u32_of_lt (n := size + _) (by omega), u32_of_lt hlt]
  · rw [hlow x (by omega)]
    exact newBlock_mem (by omega) (Or.inl hhead)

theorem kalloc_of_single {req b : ℕ} (hhead : h.head = b) (hb : b ≠ 0)
    (hfreed : isFreed h b = 0) (hnext : next h b = 0) (hk : kalloc fuel h req = some (p, h'))
    (hp : p ≠ 0) : p = u32 (h.kallocPtr + sizeofHeapBlock) := by
  rw [kalloc_of_not_refused (not_refused hk hp), Option.map_eq_some_iff] at hk
  obtain ⟨⟨curr, prev⟩, hs, heq⟩ := hk
  have hlist : Threaded (next h) h.head [b] := ⟨hhead, hb, hnext⟩
  rcases search_spec h (alignUp req 8) fuel h.head 0 [b] hlist with
    ⟨hnone, -⟩ | hnew | ⟨c, hc, pr, -, hcf, -⟩
  · exact absurd (hs.symm.trans hnone) (by simp)
  · obtain ⟨rfl, -⟩ := Prod.mk.inj (Option.some.inj (hs.symm.trans hnew))
    rw [afterSearch, if_neg (not_not_intro rfl), Prod.mk.injEq] at heq
    exact heq.1.symm
  · exact absurd ((List.mem_singleton.mp hc) ▸ hfreed) hcf

/-- A heap at the address 0 fails the test: its first block is not on the list, the release of the
block moves `kalloc_ptr` back over it, and the third array is laid over the second one. -/
theorem testAllocator_at_zero (hhead : h.head = 0) (hptr : h.kallocPtr = 0) :
    testAllocator fuel h ≠ some h' := by
  intro ht
  obtain ⟨arr1, h₁, hk₁, hn₁, arr2, h₂, hk₂, hn₂, arr3, h₃, hk₃, hn₃, rfl, hholds⟩ :=
    testAllocator_cases ht
  obtain ⟨rfl, g₁, hg₁, hhead₁, hptr₁, hsize₁, -, hnext₁, -⟩ := fill_first_block hhead hptr
    (show _ = 48 by decide) hk₁ hn₁ (fun i => i * 2) (n := 10) (by norm_num) (by norm_num [sizeofHeapBlock])
  rw [hg₁] at hk₂
  obtain ⟨rfl, g₂, hg₂, hhead₂, hptr₂, -, hfreed₂, hnext₂, hlow⟩ := fill_first_block hhead₁ hptr₁
    (show _ = 24 by decide) hk₂ hn₂ (fun i => i + 100) (n := 5) (by norm_num) (by norm_num [sizeofHeapBlock])
  rw [hg₂] at hk₃
  -- the first block has no successor
  have hkb : kbfree g₂ (0 + sizeofHeapBlock) = { setFreed g₂ 0 1 with kallocPtr := 36 } := by
    have hnext : next (setFreed g₂ 0 1) 0 = 0 :=
      (store_of_ne g₂ 1 (by norm_num)).trans ((hlow 8 (by norm_num [sizeofHeapBlock])).trans hnext₁)
    have hsize : size (setFreed g₂ 0 1) 0 = 48 :=
      (store_of_ne g₂ 1 (by norm_num)).trans ((hlow 0 (by norm_num [sizeofHeapBlock])).trans hsize₁)
    have hptr : (setFreed g₂ 0 1).kallocPtr = 96 := hptr₂
    rw [kbfree, if_neg (by norm_num [sizeofHeapBlock])]
    simp only [show sub32 (0 + sizeofHeapBlock) sizeofHeapBlock = 0 from rfl]
    rw [if_pos hnext, hsize, hptr]
    rfl
  rw [hkb] at hk₃
  have hhead : Heap.head { setFreed g₂ 0 1 with kallocPtr := 36 } = 60 := hhead₂
  have hfreed : isFreed { setFreed g₂ 0 1 with kallocPtr := 36 } 60 = 0 :=
    (store_of_ne (a := 4) (x := 64) g₂ 1 (by norm_num)).trans hfreed₂
  have hnext : next { setFreed g₂ 0 1 with kallocPtr := 36 } 60 = 0 :=
    (store_of_ne (a := 4) (x := 68) g₂ 1 (by norm_num)).trans hnext₂
  obtain rfl : arr3 = 48 := kalloc_of_single hhead (by norm_num) hfreed hnext hk₃ hn₃
  -- the third array covers the first word of the second one
  have hover := fillWords_inside (p := 48) (i := 6) (n := 8) (fun i => i + 200) h₃ (by norm_num)
    (by norm_num)
  have hheld := List.all_eq_true.mp hholds 0 (by simp)
  rw [decide_eq_true_eq] at hheld
  exact absurd (hover.symm.trans hheld) (by norm_num)

/-! ### The array of page descriptors -/

/-- **The heap after the test**: it starts above 0 and ends below 4 GiB, since the test fails
otherwise. -/
theorem placed_of_test {start : ℕ} {mem : ℕ → ℕ}
    (ht : testAllocator fuel (initHeap start mem) = some h) :
    Placed (alignUp start 4096) 96 h [(alignUp start 4096 + 12, 32), (alignUp start 4096 + 72, 20)]
      [alignUp start 4096, alignUp start 4096 + 60] := by
  have hdvd : 4096 ∣ alignUp start 4096 := dvd_alignUp start (k := 12) (by norm_num)
  have hpos : 0 < alignUp start 4096 := by
    rcases Nat.eq_zero_or_pos (alignUp start 4096) with hzero | hpos
    · exact absurd ht (testAllocator_at_zero rfl hzero)
    · exact hpos
  have hlt : alignUp start 4096 + heapSize < 2 ^ 32 := by
    by_contra hwrap
    obtain ⟨arr1, h₁, hk₁, hn₁, -⟩ := testAllocator_cases ht
    refine not_refused hk₁ hn₁ ?_
    have hword : alignUp start 4096 < 2 ^ 32 := lt_of_le_of_lt Nat.and_le_left (u32_lt _)
    change u32 (alignUp start 4096 + heapSize) < u32 (alignUp start 4096 + u32 (alignUp 40 8 + 12))
    rw [show u32 (alignUp 40 8 + 12) = 60 by decide]
    unfold u32 heapSize at *
    omega
  exact placed_testAllocator ⟨hdvd, hlt, Nat.zero_le _, ordered_initHeap hpos mem, rfl, u32_of_lt hlt, rfl⟩
    ht

theorem initializeMemeoryManager_cases {kernelEnd : ℕ} {entryAt : ℕ → MmapEntry}
    {mbi : MultibootInfo} {mem : ℕ → ℕ}
    (hi : initializeMemeoryManager fuel entryAt kernelEnd mbi mem = some (blocks, h)) :
    findAvailableMemory entryAt kernelEnd mbi fuel = some blocks ∧ blocks.length ≠ 0 ∧
      testAllocator fuel (initHeap (blocks.getD 0 ⟨0, 0⟩).start mem) = some h := by
  unfold initializeMemeoryManager at hi
  simp only [Option.bind_eq_bind, Option.bind_eq_some_iff, Option.guard_eq_some', exists_const,
    Option.pure_def, Option.some.injEq, Prod.mk.injEq] at hi
  obtain ⟨blocks, hfind, hlen, h, ht, rfl, rfl⟩ := hi
  exact ⟨hfind, hlen, ht⟩

theorem memMap_eq {hs : ℕ} {mbi : MultibootInfo} {memMap : ℕ}
    {pages : ℕ → Page} (hp : Placed hs 96 h [(hs + 12, 32), (hs + 72, 20)] [hs, hs + 60])
    (hc : createMemMap fuel h mbi blocks = some (memMap, pages)) : memMap = hs + 108 := by
  obtain ⟨hne, ⟨h', hk⟩, -⟩ := createMemMap_spec hc
  exact (hp.kalloc_new (by simp [sizeofHeapBlock]) hk hne).1

theorem start_lt_of_mem_parseMap {entryAt : ℕ → MmapEntry} {kernelEnd mmapEnd : ℕ} :
    ∀ {fuel a : ℕ} {blocks blocks' : List MemoryBlock}, (∀ b ∈ blocks, b.start < 2 ^ 32) →
      parseMap entryAt kernelEnd mmapEnd fuel a blocks = some blocks' → ∀ b ∈ blocks', b.start < 2 ^ 32
  | 0, _, _, _, _, h => absurd h (by simp [parseMap])
  | fuel + 1, a, blocks, blocks', hb, h => by
    rw [parseMap] at h
    by_cases ha : a < mmapEnd
    · rw [if_pos ha] at h
      refine start_lt_of_mem_parseMap (fun b hmem => ?_) h
      split_ifs at hmem with htype
      · rcases List.mem_append.mp hmem with hmem | hmem
        · exact hb b hmem
        · rw [List.mem_singleton.mp hmem, freeBlockOf_eq]
          have hend : entryEnd (entryAt a) < 2 ^ 32 := u32_lt _
          have hstart : entryStart (entryAt a) < 2 ^ 32 := u32_lt _
          unfold cutStart
          split_ifs
          · simp only; omega
          · exact hstart
      · exact hb b hmem
    · rw [if_neg ha, Option.some.injEq] at h
      exact h ▸ hb

/-- **The array lies in the memory block** that the heap was carved from. -/
def InsideBlock (b : MemoryBlock) (memMap totalram : ℕ) : Prop :=
  b.start ≤ memMap ∧ memMap + totalram * sizeofPage ≤ b.fin

/-- An address of 32 bits is rounded up unless that wraps around. -/
theorem le_alignUp_page_iff {x : ℕ} (hx : x < 2 ^ 32) :
    x ≤ alignUp x 4096 + 108 ↔ x + 4097 < 2 ^ 32 := by
  have heq : alignUp x 4096 = u32 (x + (4096 + 1)) / 4096 * 4096 := alignUp_eq x (k := 12) (by norm_num)
  rw [heq]
  unfold u32
  omega

/-- **Where the page descriptors are built**, for every memory map and every amount of memory for
which both functions succeed: the array lies in the first memory block exactly if the start of the
block is rounded up without wrapping around and the array ends in the block. -/
theorem memMap_inside_iff {fuel fuel' kernelEnd memMap : ℕ} {entryAt : ℕ → MmapEntry}
    {mbi : MultibootInfo} {mem : ℕ → ℕ} {blocks : List MemoryBlock} {h : Heap} {pages : ℕ → Page}
    (hi : initializeMemeoryManager fuel entryAt kernelEnd mbi mem = some (blocks, h))
    (hc : createMemMap fuel' h mbi blocks = some (memMap, pages)) :
    InsideBlock (blocks.getD 0 ⟨0, 0⟩) memMap (totalramPages mbi) ↔
      (blocks.getD 0 ⟨0, 0⟩).start + 4097 < 2 ^ 32 ∧
        alignUp (blocks.getD 0 ⟨0, 0⟩).start 4096 + 108 + totalramPages mbi * sizeofPage ≤
          (blocks.getD 0 ⟨0, 0⟩).fin := by
  obtain ⟨hfind, hlen, ht⟩ := initializeMemeoryManager_cases hi
  have hp := placed_of_test ht
  have hmem : blocks.getD 0 ⟨0, 0⟩ ∈ blocks := by
    rw [← List.getElem_eq_getD (h := Nat.pos_of_ne_zero hlen)]
    exact List.getElem_mem _
  have hstart : (blocks.getD 0 ⟨0, 0⟩).start < 2 ^ 32 := by
    unfold findAvailableMemory at hfind
    split_ifs at hfind
    · rw [Option.some.injEq] at hfind
      exact absurd (hfind ▸ hmem) List.not_mem_nil
    · exact start_lt_of_mem_parseMap (by simp) hfind _ hmem
  rw [memMap_eq hp hc, InsideBlock]
  exact and_congr_left fun _ => le_alignUp_page_iff hstart

/-- The memory map of a machine with 639 KiB of memory below 1 MiB and `upper` KiB above it. -/
def entryOfMachine (upper : ℕ) (a : ℕ) : MmapEntry :=
  if a = 0x9000 then ⟨20, 0, 639 * 1024, 1⟩
  else if a = 0x9000 + 24 then ⟨20, 639 * 1024, 385 * 1024, 2⟩
  else ⟨20, 2 ^ 20, upper * 1024, 1⟩

/-- What the boot loader says about it. -/
def infoOfMachine (upper : ℕ) : MultibootInfo :=
  ⟨1 <<< 6, 639, upper, 72, 0x9000⟩

/-- `initialize_memeory_manager` and `create_mem_map` on this machine. -/
def bootMachine (upper : ℕ) : Option ((List MemoryBlock × Heap) × (ℕ × (ℕ → Page))) := do
  let (blocks, h) ← initializeMemeoryManager 9 (entryOfMachine upper) 0x220000 (infoOfMachine upper) fun _ => 0
  let (memMap, pages) ← createMemMap 9 h (infoOfMachine upper) blocks
  return ((blocks, h), (memMap, pages))

theorem bootMachine_of_check {upper : ℕ} {check : (List MemoryBlock × Heap) × (ℕ × (ℕ → Page)) → Bool}
    (hcheck : (bootMachine upper).any check = true) : ∃ blocks h memMap pages,
      initializeMemeoryManager 9 (entryOfMachine upper) 0x220000 (infoOfMachine upper) (fun _ => 0) =
        some (blocks, h) ∧ createMemMap 9 h (infoOfMachine upper) blocks = some (memMap, pages) ∧
      check ((blocks, h), (memMap, pages)) = true := by
  obtain ⟨⟨⟨blocks, h⟩, memMap, pages⟩, hrun, hvalues⟩ := (Option.any_eq_true _ _).mp hcheck
  simp only [bootMachine, Option.bind_eq_bind, Option.bind_eq_some_iff, Option.pure_def, Prod.exists,
    Option.some.injEq, Prod.mk.injEq] at hrun
  obtain ⟨_, _, hi, _, _, hc, ⟨rfl, rfl⟩, rfl, rfl⟩ := hrun
  exact ⟨_, _, _, _, hi, hc, hvalues⟩

/-- The array of a machine with 64 MiB lies in the first block. -/
theorem memMap_inside_small : ∃ blocks h memMap pages,
    initializeMemeoryManager 9 (entryOfMachine 64512) 0x220000 (infoOfMachine 64512) (fun _ => 0) =
        some (blocks, h) ∧
      createMemMap 9 h (infoOfMachine 64512) blocks = some (memMap, pages) ∧
      InsideBlock (blocks.getD 0 ⟨0, 0⟩) memMap (totalramPages (infoOfMachine 64512)) := by
  have hcheck : ((bootMachine 64512).any fun r => decide (r.1.1.getD 0 ⟨0, 0⟩ = ⟨0, 639 * 1024⟩)) = true := by
    decide +kernel
  obtain ⟨blocks, h, memMap, pages, hi, hc, hblock⟩ := bootMachine_of_check hcheck
  have hblock : blocks.getD 0 ⟨0, 0⟩ = ⟨0, 639 * 1024⟩ := of_decide_eq_true hblock
  refine ⟨blocks, h, memMap, pages, hi, hc, (memMap_inside_iff hi hc).mpr ?_⟩
  rw [hblock]
  decide

/-- In a machine with 80 MiB the array, which starts at `0x106c`, goes beyond the block, which ends
at `0x9fc00`. -/
theorem memMap_outside : ∃ blocks h memMap pages,
    initializeMemeoryManager 9 (entryOfMachine 80896) 0x220000 (infoOfMachine 80896) (fun _ => 0) =
        some (blocks, h) ∧
      createMemMap 9 h (infoOfMachine 80896) blocks = some (memMap, pages) ∧
      ¬ InsideBlock (blocks.getD 0 ⟨0, 0⟩) memMap (totalramPages (infoOfMachine 80896)) := by
  have hcheck : ((bootMachine 80896).any fun r =>
      decide (r.1.1.getD 0 ⟨0, 0⟩ = ⟨0, 0x9fc00⟩ ∧ r.2.1 = 0x106c)) = true := by
    decide +kernel
  obtain ⟨blocks, h, memMap, pages, hi, hc, hvalues⟩ := bootMachine_of_check hcheck
  have hvalues : blocks.getD 0 ⟨0, 0⟩ = ⟨0, 0x9fc00⟩ ∧ memMap = 0x106c := of_decide_eq_true hvalues
  refine ⟨blocks, h, memMap, pages, hi, hc, ?_⟩
  rw [hvalues.1, hvalues.2, InsideBlock]
  decide

end YegaKernel.Boot.HeapPlacement
