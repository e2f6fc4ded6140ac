import YegaKernel.Boot.FirstFit

/-! # Requests to the first-fit heap

What `kalloc` returns for a request, in every state of the heap.

* `ALIGNUP`, the size of the header and `kalloc_ptr` are added modulo `2 ^ 32` before the only
  comparison with `heap_end`, and a block that is used again is not compared at all. A request gets
  less than it asks for exactly if one of the sums overflows and the comparison does not notice
  (`enough_iff`).
* The comparison stands in front of the search. A freed block that is large enough is used again
  exactly if there is also room for a new one (`reuses_iff`). -/

namespace YegaKernel.Boot.Requests

open Lib.Word Lib.NullList Boot.FirstFit Relation

/-! ### Heaps that are tiled -/

/-- **The blocks `bs` tile the heap** from `heap_start` to `kalloc_ptr`, with the bounds that
`initialize_memeory_manager` gives it. -/
structure HeapTiled (h : Heap) (bs : List ℕ) : Prop where
  start_pos : 0 < h.heapStart
  start_dvd : 4096 ∣ h.heapStart
  end_eq : h.heapEnd = h.heapStart + heapSize
  end_lt : h.heapEnd < 2 ^ 32
  ptr_le : h.kallocPtr ≤ h.heapEnd
  threaded : Threaded (next h) h.head bs
  tiles : Tiles (width h) h.heapStart bs h.kallocPtr

/-- The block is freed and has room for `req` bytes. -/
def Fits (h : Heap) (req b : ℕ) : Prop := isFreed h b ≠ 0 ∧ req ≤ size h b

instance (h : Heap) (req b : ℕ) : Decidable (Fits h req b) := inferInstanceAs (Decidable (_ ∧ _))

/-- The request fails at the comparison with `heap_end`. -/
def Refused (h : Heap) (req : ℕ) : Prop :=
  h.heapEnd < u32 (h.kallocPtr + u32 (alignUp req 8 + sizeofHeapBlock))

instance (h : Heap) (req : ℕ) : Decidable (Refused h req) := inferInstanceAs (Decidable (_ < _))

/-- **The payload at `p` is enough for a request**: the header in front of it says so, and the bytes
are bytes of the heap. -/
structure Enough (h : Heap) (p req : ℕ) : Prop where
  size : req ≤ size h (sub32 p sizeofHeapBlock)
  start : h.heapStart ≤ p
  fin : p + req ≤ h.heapEnd
  no_wrap : p + req < 2 ^ 32

/-! ### What `kalloc` returns -/

/-- The result of `kalloc` for the block that its search stops at. -/
def afterSearch (h : Heap) (req curr prev : ℕ) : ℕ × Heap :=
  if curr ≠ 0 then (u32 (curr + sizeofHeapBlock), setFreed h curr 0)
  else (u32 (h.kallocPtr + sizeofHeapBlock), newBlock h req prev)

section Kalloc
variable {h : Heap} {bs : List ℕ} {fuel req p : ℕ} {h' : Heap}

theorem kalloc_of_refused (hr : Refused h req) (fuel : ℕ) : kalloc fuel h req = some (0, h) :=
  if_pos hr

theorem kalloc_of_not_refused (hr : ¬ Refused h req) (fuel : ℕ) : kalloc fuel h req =
    (search h (alignUp req 8) fuel h.head 0).map fun r => afterSearch h (alignUp req 8) r.1 r.2 := by
  rw [show kalloc fuel h req = _ from if_neg hr]
  rcases search h (alignUp req 8) fuel h.head 0 with _ | ⟨curr, prev⟩
  · rfl
  · by_cases hc : curr = 0
    · simp [afterSearch, hc]
    · simp [afterSearch, hc]

theorem HeapTiled.ordered (ht : HeapTiled h bs) : Ordered h [] bs :=
  ⟨ht.start_pos, ht.threaded, ht.tiles, lt_of_le_of_lt ht.ptr_le ht.end_lt, by simp, List.nodup_nil⟩

theorem HeapTiled.header_lt (ht : HeapTiled h bs) : h.kallocPtr + sizeofHeapBlock < 2 ^ 32 := by
  obtain ⟨m, hm⟩ := ht.start_dvd
  have hend := ht.end_eq
  have hlt := ht.end_lt
  have hle := ht.ptr_le
  unfold heapSize at hend
  unfold sizeofHeapBlock
  omega

theorem HeapTiled.block_le (ht : HeapTiled h bs) {b : ℕ} (hb : b ∈ bs) :
    h.heapStart ≤ b ∧ b + sizeofHeapBlock + size h b ≤ h.kallocPtr := by
  obtain ⟨hlo, hhi⟩ := ht.tiles.mem_range b hb
  unfold width at hhi
  exact ⟨hlo, by omega⟩

theorem not_fits_of_search (h : Heap) (req : ℕ) : ∀ {fuel a prev pr : ℕ} {l : List ℕ},
    Threaded (next h) a l → search h req fuel a prev = some (0, pr) → ∀ b ∈ l, ¬ Fits h req b
  | 0, _, _, _, _, _, hs => absurd hs (by simp [search])
  | _ + 1, _, _, _, [], _, _ => by simp
  | fuel + 1, a, prev, pr, b :: l, ⟨hab, hb, hl⟩, hs => by
    obtain rfl := hab
    rw [search, if_neg hb] at hs
    by_cases hfit : isFreed h a ≠ 0 ∧ req ≤ size h a
    · rw [if_pos hfit, Option.some.injEq, Prod.mk.injEq] at hs
      exact absurd hs.1 hb
    · rw [if_neg hfit] at hs
      exact List.forall_mem_cons.mpr ⟨hfit, not_fits_of_search h req hl hs⟩

/-- **The results of `kalloc`** where it is not refused: a block that fits, or a new one if there is
none. -/
theorem HeapTiled.kalloc_cases (ht : HeapTiled h bs) (hr : ¬ Refused h req)
    (hk : kalloc fuel h req = some (p, h')) :
    (∃ b ∈ bs, Fits h (alignUp req 8) b ∧ p = b + sizeofHeapBlock ∧ h' = setFreed h b 0) ∨
      (∀ b ∈ bs, ¬ Fits h (alignUp req 8) b) ∧ p = h.kallocPtr + sizeofHeapBlock ∧
        h' = newBlock h (alignUp req 8) ((0 :: bs).getLast (List.cons_ne_nil _ _)) := by
  rw [kalloc_of_not_refused hr, Option.map_eq_some_iff] at hk
  obtain ⟨⟨curr, prev⟩, hs, heq⟩ := hk
  have hres : (p, h') = afterSearch h (alignUp req 8) curr prev := heq.symm
  rcases search_spec h (alignUp req 8) fuel h.head 0 bs ht.threaded with
    ⟨hnone, -⟩ | hnew | ⟨b, hb, pr, hold, hfit⟩
  · exact absurd (hs.symm.trans hnone) (by simp)
  · obtain ⟨rfl, rfl⟩ := Prod.mk.inj (Option.some.inj (hs.symm.trans hnew))
    rw [afterSearch, if_neg (by simp), u32_of_lt ht.header_lt, Prod.mk.injEq] at hres
    exact Or.inr ⟨not_fits_of_search h _ ht.threaded hs, hres⟩
  · obtain ⟨rfl, rfl⟩ := Prod.mk.inj (Option.some.inj (hs.symm.trans hold))
    have hin := (ht.block_le hb).2
    have hlt := ht.header_lt
    rw [afterSearch, if_pos (ht.threaded.ne_zero curr hb), u32_of_lt (by omega), Prod.mk.injEq] at hres
    exact Or.inl ⟨curr, hb, hfit, hres⟩

/-! ### Requests that get enough -/

theorem le_alignUp (hreq : req + 9 < 2 ^ 32) : req ≤ alignUp req 8 := by
  have heq : alignUp req 8 = (req + 9) / 8 * 8 := alignUp_two_pow (k := 3) (by norm_num) (by omega)
  omega

theorem alignUp_le_of_overflow (hlt : req < 2 ^ 32) (hreq : 2 ^ 32 ≤ req + 9) : alignUp req 8 ≤ 8 := by
  have hle : alignUp req 8 ≤ u32 (req + 9) := Nat.and_le_left
  have hword : u32 (req + 9) ≤ 8 := by unfold u32; omega
  exact hle.trans hword

theorem size_setFreed (h : Heap) (b v : ℕ) : size (setFreed h b v) b = size h b :=
  Function.update_of_ne (by omega) _ _

/-- A block that is used again is enough exactly if `ALIGNUP` does not overflow. -/
theorem HeapTiled.enough_reused (ht : HeapTiled h bs) (hlt : req < 2 ^ 32) {b : ℕ} (hb : b ∈ bs)
    (hfit : Fits h (alignUp req 8) b) :
    Enough (setFreed h b 0) (b + sizeofHeapBlock) req ↔ req + 9 < 2 ^ 32 := by
  obtain ⟨hlo, hhi⟩ := ht.block_le hb
  have hptr := ht.ptr_le
  have hend := ht.end_lt
  have hnode : sub32 (b + sizeofHeapBlock) sizeofHeapBlock = b := by
    rw [sub32_of_le (by omega) (Nat.le_add_left _ _), Nat.add_sub_cancel]
  constructor
  · intro hen
    have hsize := hen.size
    have hstart := ht.end_eq
    rw [hnode, size_setFreed] at hsize
    unfold heapSize at hstart
    omega
  · intro hreq
    have hsize := (le_alignUp hreq).trans hfit.2
    refine ⟨?_, by change h.heapStart ≤ _; omega, by change _ ≤ h.heapEnd; omega, by omega⟩
    rwa [hnode, size_setFreed]

/-- A new block is enough exactly if `ALIGNUP` does not overflow and the block ends in the heap. -/
theorem HeapTiled.enough_new (ht : HeapTiled h bs) (hlt : req < 2 ^ 32) :
    Enough (newBlock h (alignUp req 8) ((0 :: bs).getLast (List.cons_ne_nil _ _)))
        (h.kallocPtr + sizeofHeapBlock) req ↔
      req + 9 < 2 ^ 32 ∧ h.kallocPtr + sizeofHeapBlock + req ≤ h.heapEnd := by
  have hheader := ht.header_lt
  have hend := ht.end_lt
  have hlo := ht.tiles.le
  have hnode : sub32 (h.kallocPtr + sizeofHeapBlock) sizeofHeapBlock = h.kallocPtr := by
    rw [sub32_of_le hheader (Nat.le_add_left _ _), Nat.add_sub_cancel]
  have hsize := (newBlock_header (alignUp req 8) ht.ordered.prev_lt).1
  obtain ⟨hs, he, -⟩ := @newBlock_globals h (alignUp req 8) ((0 :: bs).getLast (List.cons_ne_nil _ _))
  constructor
  · intro hen
    have hle := hen.size
    have hfin := hen.fin
    rw [hnode, hsize] at hle
    by_contra hover
    have := alignUp_le_of_overflow hlt (by omega)
    omega
  · rintro ⟨hreq, hfin⟩
    refine ⟨?_, by omega, by rw [he]; exact hfin, by omega⟩
    rw [hnode, hsize]
    exact le_alignUp hreq

/-- **`kalloc` returns enough**, for every request and every heap that is tiled, exactly if the
request is refused, or rounding it up does not overflow and there is a freed block for it or the
bytes asked for fit in front of `heap_end`. -/
theorem enough_iff (ht : HeapTiled h bs) (hlt : req < 2 ^ 32) :
    (∀ fuel p h', kalloc fuel h req = some (p, h') → p ≠ 0 → Enough h' p req) ↔
      Refused h req ∨ req + 9 < 2 ^ 32 ∧ ((∃ b ∈ bs, Fits h (alignUp req 8) b) ∨
        h.kallocPtr + sizeofHeapBlock + req ≤ h.heapEnd) := by
  by_cases hr : Refused h req
  · refine ⟨fun _ => Or.inl hr, fun _ fuel p h' hk hp => ?_⟩
    rw [kalloc_of_refused hr, Option.some.injEq, Prod.mk.injEq] at hk
    exact absurd hk.1.symm hp
  rw [or_iff_right hr]
  have hhead : sizeofHeapBlock ≠ 0 := by decide
  constructor
  · intro hall
    obtain ⟨fuel, hsome⟩ := ht.ordered.heapInvariant.terminates req
    obtain ⟨⟨p, h'⟩, hk⟩ := Option.isSome_iff_exists.mp hsome
    rcases ht.kalloc_cases hr hk with ⟨b, hb, hfit, rfl, rfl⟩ | ⟨-, rfl, rfl⟩
    · exact ⟨(ht.enough_reused hlt hb hfit).mp (hall _ _ _ hk (by omega)), Or.inl ⟨b, hb, hfit⟩⟩
    · obtain ⟨hreq, hfin⟩ := (ht.enough_new hlt).mp (hall _ _ _ hk (by omega))
      exact ⟨hreq, Or.inr hfin⟩
  · rintro ⟨hreq, hroom⟩ fuel p h' hk -
    rcases ht.kalloc_cases hr hk with ⟨b, hb, hfit, rfl, rfl⟩ | ⟨hnone, rfl, rfl⟩
    · exact (ht.enough_reused hlt hb hfit).mpr hreq
    · refine (ht.enough_new hlt).mpr ⟨hreq, hroom.resolve_left ?_⟩
      rintro ⟨b, hb, hfit⟩
      exact hnone b hb hfit

end Kalloc

theorem heapTiled_initHeap {start : ℕ} (hpos : 0 < alignUp start 4096)
    (hlt : alignUp start 4096 + heapSize < 2 ^ 32) (mem : ℕ → ℕ) : HeapTiled (initHeap start mem) [] where
  start_pos := hpos
  start_dvd := dvd_alignUp start (k := 12) (by norm_num)
  end_eq := u32_of_lt hlt
  end_lt := u32_lt _
  ptr_le := (Nat.le_add_right _ _).trans (u32_of_lt hlt).ge
  threaded := rfl
  tiles := rfl

/-- A request of a hundred bytes to a new heap gets enough. -/
theorem enough_hundred : ∃ h', kalloc 1 (initHeap 0x200000 fun _ => 0) 100 = some (0x20100c, h') ∧
    Enough h' 0x20100c 100 := by
  have hall := (enough_iff (@heapTiled_initHeap 0x200000 (by decide) (by decide) fun _ => 0)
    (show 100 < 2 ^ 32 by norm_num)).mpr (Or.inr ⟨by norm_num, Or.inr (by decide)⟩)
  exact ⟨_, rfl, hall 1 _ _ rfl (by decide)⟩

/-- **A request of almost 4 GiB** to a new heap gets a block of zero bytes. -/
theorem not_enough_overflow : HeapTiled (initHeap 0x200000 fun _ => 0) [] ∧ ∃ h',
    kalloc 1 (initHeap 0x200000 fun _ => 0) (2 ^ 32 - 5) = some (0x20100c, h') ∧
      size h' (sub32 0x20100c sizeofHeapBlock) = 0 ∧ ¬ Enough h' 0x20100c (2 ^ 32 - 5) := by
  refine ⟨heapTiled_initHeap (by decide) (by decide) _, _, rfl, by decide, fun hen => ?_⟩
  exact absurd hen.no_wrap (by decide)

/-! ### Blocks that are used again -/

/-- The walk along the links from `a` comes to the block `b`. -/
inductive OnList (h : Heap) : ℕ → ℕ → Prop
  | here {a : ℕ} (ha : a ≠ 0) : OnList h a a
  | behind {a b : ℕ} (ha : a ≠ 0) (rest : OnList h (next h a) b) : OnList h a b

/-- **The first block from `a` on that fits.** The list may be damaged: it need not end. -/
inductive Found (h : Heap) (req : ℕ) : ℕ → ℕ → Prop
  | here {a : ℕ} (ha : a ≠ 0) (hfit : Fits h req a) : Found h req a a
  | behind {a b : ℕ} (ha : a ≠ 0) (hfit : ¬ Fits h req a) (rest : Found h req (next h a) b) :
      Found h req a b

/-- **The request is answered with a freed block**: `kalloc` returns the payload of a block of the
list that is freed and large enough, and changes its mark only. -/
def Reuses (h : Heap) (req : ℕ) : Prop :=
  ∃ fuel b, OnList h h.head b ∧ Fits h (alignUp req 8) b ∧ u32 (b + sizeofHeapBlock) ≠ 0 ∧
    kalloc fuel h req = some (u32 (b + sizeofHeapBlock), setFreed h b 0)

section Reuse
variable {h : Heap} {req a b : ℕ}

theorem OnList.exists_found (hb : OnList h a b) (hfit : Fits h req b) : ∃ c, Found h req a c := by
  induction hb with
  | here ha => exact ⟨_, .here ha hfit⟩
  | @behind a b ha _ ih =>
    by_cases ha' : Fits h req a
    · exact ⟨a, .here ha ha'⟩
    · obtain ⟨c, hc⟩ := ih hfit
      exact ⟨c, .behind ha ha' hc⟩

theorem Found.spec (hb : Found h req a b) : b ≠ 0 ∧ OnList h a b ∧ Fits h req b := by
  induction hb with
  | here ha hfit => exact ⟨ha, .here ha, hfit⟩
  | behind ha _ _ ih => exact ⟨ih.1, .behind ha ih.2.1, ih.2.2⟩

theorem Found.search_eq (hb : Found h req a b) (prev : ℕ) :
    ∃ fuel pr, search h req fuel a prev = some (b, pr) := by
  induction hb generalizing prev with
  | here ha hfit => exact ⟨1, prev, by rw [search, if_neg ha]; exact if_pos hfit⟩
  | behind ha hfit _ ih =>
    obtain ⟨fuel, pr, hs⟩ := ih _
    exact ⟨fuel + 1, pr, by rw [search, if_neg ha]; exact (if_neg hfit).trans hs⟩

theorem Found.eq_of_search (hb : Found h req a b) {fuel prev c pr : ℕ}
    (hs : search h req fuel a prev = some (c, pr)) : c = b := by
  induction hb generalizing fuel prev with
  | here ha hfit =>
    rcases fuel with _ | fuel
    · exact absurd hs (by simp [search])
    · rw [search, if_neg ha, if_pos (show _ ∧ _ from hfit), Option.some.injEq, Prod.mk.injEq] at hs
      exact hs.1.symm
  | behind ha hfit _ ih =>
    rcases fuel with _ | fuel
    · exact absurd hs (by simp [search])
    · rw [search, if_neg ha, if_neg (show ¬ (_ ∧ _) from hfit)] at hs
      exact ih hs

/-- **Freed blocks are used again**, in every heap with a block that fits, exactly if there is room
for a new block as well. The second condition is about a block whose header ends at the last address:
its payload would be at the address `0`. -/
theorem reuses_iff (hb : OnList h h.head b) (hfit : Fits h (alignUp req 8) b) :
    Reuses h req ↔ u32 (h.kallocPtr + u32 (alignUp req 8 + sizeofHeapBlock)) ≤ h.heapEnd ∧
      ∀ c, Found h (alignUp req 8) h.head c → u32 (c + sizeofHeapBlock) ≠ 0 := by
  constructor
  · rintro ⟨fuel, c, hc, hcfit, hne, hk⟩
    have hr : ¬ Refused h req := by
      intro hr
      rw [kalloc_of_refused hr, Option.some.injEq, Prod.mk.injEq] at hk
      exact hne hk.1.symm
    refine ⟨Nat.le_of_not_lt hr, fun c' hc' => ?_⟩
    rw [kalloc_of_not_refused hr, Option.map_eq_some_iff] at hk
    obtain ⟨⟨curr, prev⟩, hs, heq⟩ := hk
    obtain rfl : curr = c' := hc'.eq_of_search hs
    have hp : (afterSearch h (alignUp req 8) curr prev).1 = u32 (c + sizeofHeapBlock) :=
      congrArg Prod.fst heq
    rw [afterSearch, if_pos hc'.spec.1] at hp
    exact fun hzero => hne (hp.symm.trans hzero)
  · rintro ⟨hroom, hne⟩
    obtain ⟨c, hc⟩ := hb.exists_found hfit
    obtain ⟨hc0, hlist, hcfit⟩ := hc.spec
    obtain ⟨fuel, pr, hs⟩ := hc.search_eq 0
    refine ⟨fuel, c, hlist, hcfit, hne c hc, ?_⟩
    rw [kalloc_of_not_refused (Nat.not_lt.mpr hroom), hs, Option.map_some, afterSearch, if_pos hc0]

end Reuse

/-- The first of two blocks is freed, with room behind them. -/
theorem reuses_two_blocks : Reuses
    (kbfree (afterKalloc 2 (afterKalloc 1 (initHeap 0x200000 fun _ => 0) 8) 16) 0x20100c) 8 := by
  have hlist : OnList (kbfree (afterKalloc 2 (afterKalloc 1 (initHeap 0x200000 fun _ => 0) 8) 16)
      0x20100c) 0x201000 0x201000 := .here (by decide)
  refine (reuses_iff (b := 0x201000) hlist (by decide)).mpr ⟨by decide, fun c hc => ?_⟩
  have hfirst : Found (kbfree (afterKalloc 2 (afterKalloc 1 (initHeap 0x200000 fun _ => 0) 8) 16)
      0x20100c) (alignUp 8 8) 0x201000 0x201000 := .here (by decide) (by decide)
  obtain ⟨fuel, pr, hs⟩ := hc.search_eq 0
  rw [hfirst.eq_of_search hs]
  decide

theorem kalloc_eq_afterKalloc {fuel req p : ℕ} {h : Heap}
    (hp : (kalloc fuel h req).map Prod.fst = some p) :
    kalloc fuel h req = some (p, afterKalloc fuel h req) := by
  obtain ⟨⟨q, h'⟩, hk, hq⟩ := Option.map_eq_some_iff.mp hp
  rw [afterKalloc, hk, Option.map_some, Option.getD_some, ← hq]

/-- Most of the heap is taken, a small block behind it as well, and the first one is freed. -/
def drainedHeap : Heap :=
  kbfree (afterKalloc 2 (afterKalloc 1 (initHeap 0x200000 fun _ => 0) 1048000) 8) 0x20100c

/-- **A heap without room behind its blocks**: a request of 1000 bytes fails although a block of
1048008 bytes is freed. -/
theorem not_reuses_drainedHeap :
    ReflTransGen (fun s s' => ∃ c, Step s c s') (initHeap 0x200000 fun _ => 0, [])
      (drainedHeap, [(0x300de0, 8)]) ∧
    OnList drainedHeap drainedHeap.head 0x201000 ∧ isFreed drainedHeap 0x201000 ≠ 0 ∧
    size drainedHeap 0x201000 = 1048008 ∧ alignUp 1000 8 = 1008 ∧
    (∀ fuel, kalloc fuel drainedHeap 1000 = some (0, drainedHeap)) ∧ ¬ Reuses drainedHeap 1000 := by
  have hr : Refused drainedHeap 1000 := by decide
  refine ⟨?_, .here (by decide), by decide, by decide, by decide, kalloc_of_refused hr, ?_⟩
  · have h1 : ReflTransGen (fun s s' => ∃ c, Step s c s') (initHeap 0x200000 fun _ => 0, [])
        (afterKalloc 1 (initHeap 0x200000 fun _ => 0) 1048000, [(0x20100c, 1048000)]) :=
      .single ⟨.kalloc 1048000, Step.kalloc 1 0x20100c (by decide) (kalloc_eq_afterKalloc (by decide))⟩
    have h2 := h1.tail
      ⟨.kalloc 8, Step.kalloc 2 0x300de0 (by decide) (kalloc_eq_afterKalloc (by decide))⟩
    exact h2.tail ⟨.kbfree 0x20100c, Step.kbfree (0x20100c, 1048000) (by decide)⟩
  · rintro ⟨fuel, b, -, -, hne, hk⟩
    rw [kalloc_of_refused hr, Option.some.injEq, Prod.mk.injEq] at hk
    exact hne hk.1.symm

end YegaKernel.Boot.Requests
