import YegaKernel.Lib.Word
import YegaKernel.Lib.NullList
import Mathlib.Logic.Relation

/-! # The first-fit heap of `allocator.c`

`kalloc` hands out the first freed block that is large enough, else a new block at `kalloc_ptr`;
`kbfree` marks a block as freed and, for the last block of the list, moves `kalloc_ptr` back over
it.

The memory is a function from the addresses of 32-bit words to their values. A header occupies three
words: the size of the payload, `is_freed`, and the link to the next header. -/

namespace YegaKernel.Boot.FirstFit

open Lib.Word Lib.NullList Function Relation

/-! ### The code -/

/-- `sizeof(heap_block_t)`. -/
def sizeofHeapBlock : ℕ := 12

def heapSize : ℕ := 256 * 4096

/-- The globals of the heap, and the memory. -/
structure Heap where
  heapStart : ℕ
  heapEnd : ℕ
  kallocPtr : ℕ
  head : ℕ
  mem : ℕ → ℕ

def size (h : Heap) (b : ℕ) : ℕ := h.mem b

def isFreed (h : Heap) (b : ℕ) : ℕ := h.mem (b + 4)

def next (h : Heap) (b : ℕ) : ℕ := h.mem (b + 8)

/-- A store to the word at `a`. -/
def Heap.store (h : Heap) (a v : ℕ) : Heap := { h with mem := update h.mem a v }

def setSize (h : Heap) (b v : ℕ) : Heap := h.store b v

def setFreed (h : Heap) (b v : ℕ) : Heap := h.store (b + 4) v

def setNext (h : Heap) (b v : ℕ) : Heap := h.store (b + 8) v

/-- The search loop of `kalloc`: the block it stops at (null behind the last one) and the one before
it. `none` where the fuel runs out. -/
def search (h : Heap) (req : ℕ) : ℕ → ℕ → ℕ → Option (ℕ × ℕ)
  | 0, _, _ => none
  | fuel + 1, curr, prev =>
    if curr = 0 then some (curr, prev)
    else if isFreed h curr ≠ 0 ∧ req ≤ size h curr then some (curr, prev)
    else search h req fuel (next h curr) curr

/-- The new block that `kalloc` writes at `kalloc_ptr` and links behind `prev`. -/
def newBlock (h : Heap) (req prev : ℕ) : Heap :=
  let curr := h.kallocPtr
  let h := setSize h curr req
  let h := setFreed h curr 0
  let h := setNext h curr 0
  let h := if h.head = 0 then { h with head := curr } else setNext h prev curr
  { h with kallocPtr := u32 (h.kallocPtr + u32 (req + sizeofHeapBlock)) }

/-- `kalloc`; the result is the address of the payload, or null. -/
def kalloc (fuel : ℕ) (h : Heap) (req : ℕ) : Option (ℕ × Heap) :=
  let req := alignUp req 8
  if h.heapEnd < u32 (h.kallocPtr + u32 (req + sizeofHeapBlock)) then some (0, h)
  else
    match search h req fuel h.head 0 with
    | none => none
    | some (curr, prev) =>
      if curr ≠ 0 then some (u32 (curr + sizeofHeapBlock), setFreed h curr 0)
      else some (u32 (h.kallocPtr + sizeofHeapBlock), newBlock h req prev)

def kbfree (h : Heap) (ptr : ℕ) : Heap :=
  if ptr = 0 then h
  else
    let node := sub32 ptr sizeofHeapBlock
    let h := setFreed h node 1
    if next h node = 0 then
      { h with kallocPtr := sub32 h.kallocPtr (u32 (size h node + sizeofHeapBlock)) }
    else h

/-- The heap that `initialize_memeory_manager` sets up in the memory block from `start`. -/
def initHeap (start : ℕ) (mem : ℕ → ℕ) : Heap where
  heapStart := alignUp start 4096
  heapEnd := u32 (alignUp start 4096 + heapSize)
  kallocPtr := alignUp start 4096
  head := 0
  mem := mem

/-! ### Runs -/

/-- What a client does. -/
inductive Call where
  | kalloc (req : ℕ)
  | kbfree (ptr : ℕ)
  | write (a v : ℕ)

/-- One call, on the heap and the addresses of the live allocations with the sizes that were asked
for. A client frees what is live, and writes the words inside of it. -/
inductive Step : Heap × List (ℕ × ℕ) → Call → Heap × List (ℕ × ℕ) → Prop
  | kalloc {h h' : Heap} {live : List (ℕ × ℕ)} {req : ℕ} (fuel p : ℕ) (hp : p ≠ 0)
      (heq : kalloc fuel h req = some (p, h')) : Step (h, live) (.kalloc req) (h', (p, req) :: live)
  | refused {h h' : Heap} {live : List (ℕ × ℕ)} {req : ℕ} (fuel : ℕ)
      (heq : kalloc fuel h req = some (0, h')) : Step (h, live) (.kalloc req) (h', live)
  | kbfree {h : Heap} {live : List (ℕ × ℕ)} (a : ℕ × ℕ) (ha : a ∈ live) :
      Step (h, live) (.kbfree a.1) (kbfree h a.1, live.erase a)
  | write {h : Heap} {live : List (ℕ × ℕ)} (a : ℕ × ℕ) {w v : ℕ} (ha : a ∈ live) (hw : a.1 ≤ w)
      (hw' : w + 4 ≤ a.1 + a.2) : Step (h, live) (.write w v) (h.store w v, live)

/-- The calls after which the heap stays in order: the end of the block that a request asks for is
an address, and the block freed is not the last one of the list. -/
def Safe (h : Heap) : Call → Prop
  | .kalloc req => h.kallocPtr + ((req + 9) / 8 * 8 + sizeofHeapBlock) < 2 ^ 32
  | .kbfree ptr => next h (ptr - sizeofHeapBlock) ≠ 0
  | .write _ _ => True

instance (h : Heap) : DecidablePred (Safe h)
  | .kalloc _ => inferInstanceAs (Decidable (_ < _))
  | .kbfree _ => inferInstanceAs (Decidable (_ ≠ _))
  | .write _ _ => inferInstanceAs (Decidable True)

/-- The number of bytes a block takes. -/
def width (h : Heap) (b : ℕ) : ℕ := sizeofHeapBlock + size h b

/-- The size of the payload at `p`, from the header in front of it. -/
def payload (h : Heap) (p : ℕ) : ℕ := size h (p - sizeofHeapBlock)

/-- **The heap is in order**, with the given live allocations. -/
structure HeapInvariant (h : Heap) (live : List (ℕ × ℕ)) : Prop where
  blocks : ∃ bs, Threaded (next h) h.head bs ∧ bs.Nodup ∧
    Tiles (width h) h.heapStart bs h.kallocPtr ∧
    ∀ b ∈ bs, ∀ a ∈ live, b + sizeofHeapBlock ≤ a.1 ∨ a.1 + payload h a.1 ≤ b
  fits : ∀ a ∈ live, a.2 ≤ payload h a.1
  disjoint : live.Pairwise fun a c =>
    a.1 + payload h a.1 ≤ c.1 ∨ c.1 + payload h c.1 ≤ a.1
  terminates : ∀ req, ∃ fuel, (kalloc fuel h req).isSome

/-! ### The steps of a run -/

/-- What the steps keep: the blocks `bs` are linked and fill the heap, and the live allocations are
the payloads of different blocks that are not freed. -/
structure Ordered (h : Heap) (live : List (ℕ × ℕ)) (bs : List ℕ) : Prop where
  start_pos : 0 < h.heapStart
  threaded : Threaded (next h) h.head bs
  tiles : Tiles (width h) h.heapStart bs h.kallocPtr
  bound : h.kallocPtr < 2 ^ 32
  held : ∀ a ∈ live, ∃ b ∈ bs, a.1 = b + sizeofHeapBlock ∧ isFreed h b = 0 ∧ a.2 ≤ size h b
  distinct : (live.map Prod.fst).Nodup

section Ordered
variable {h : Heap} {live : List (ℕ × ℕ)} {bs : List ℕ}

theorem Ordered.eq_of_header (ho : Ordered h live bs) {b c i j : ℕ} (hb : b ∈ bs) (hc : c ∈ bs)
    (hi : i < sizeofHeapBlock) (hj : j < sizeofHeapBlock) (heq : b + i = c + j) : b = c := by
  by_contra hne
  have := ho.tiles.apart b hb c hc hne
  unfold width at this
  omega

theorem Ordered.store (ho : Ordered h live bs) {w v : ℕ}
    (hw : ∀ b ∈ bs, w < b ∨ b + sizeofHeapBlock ≤ w) : Ordered (h.store w v) live bs := by
  have hread : ∀ b ∈ bs, ∀ i < sizeofHeapBlock, (h.store w v).mem (b + i) = h.mem (b + i) := by
    intro b hb i hi
    exact update_of_ne (by have := hw b hb; omega) _ _
  refine ⟨ho.start_pos, ho.threaded.congr fun b hb => hread b hb 8 (by decide),
    ho.tiles.congr fun b hb => ?_, ho.bound, fun a ha => ?_, ho.distinct⟩
  · exact congrArg (sizeofHeapBlock + ·) (hread b hb 0 (by decide))
  · obtain ⟨b, hb, hab, hf, hs⟩ := ho.held a ha
    exact ⟨b, hb, hab, (hread b hb 4 (by decide)).trans hf, hs.trans (hread b hb 0 (by decide)).ge⟩

theorem Ordered.setFreed (ho : Ordered h live bs) {c v : ℕ} (hc : c ∈ bs) {live' : List (ℕ × ℕ)}
    (hlive : ∀ a ∈ live', ∃ b ∈ bs, a.1 = b + sizeofHeapBlock ∧
      isFreed (setFreed h c v) b = 0 ∧ a.2 ≤ size h b) (hd : (live'.map Prod.fst).Nodup) :
    Ordered (setFreed h c v) live' bs := by
  have hread : ∀ b ∈ bs, ∀ i < sizeofHeapBlock, i ≠ 4 →
      (FirstFit.setFreed h c v).mem (b + i) = h.mem (b + i) := by
    intro b hb i hi hne
    refine update_of_ne (fun heq => ?_) _ _
    have := ho.eq_of_header hb hc hi (by decide : 4 < sizeofHeapBlock) heq
    omega
  refine ⟨ho.start_pos, ho.threaded.congr fun b hb => hread b hb 8 (by decide) (by decide),
    ho.tiles.congr fun b hb => ?_, ho.bound, fun a ha => ?_, hd⟩
  · exact congrArg (sizeofHeapBlock + ·) (hread b hb 0 (by decide) (by decide))
  · obtain ⟨b, hb, hab, hf, hs⟩ := hlive a ha
    exact ⟨b, hb, hab, hf, hs.trans (hread b hb 0 (by decide) (by decide)).ge⟩

theorem isFreed_setFreed (h : Heap) (c v : ℕ) : isFreed (setFreed h c v) c = v :=
  update_self _ _ _

theorem isFreed_setFreed_of_ne (h : Heap) {b c : ℕ} (v : ℕ) (hne : b ≠ c) :
    isFreed (setFreed h c v) b = isFreed h b :=
  update_of_ne (by omega) _ _

theorem Ordered.kbfree_eq (ho : Ordered h live bs) {a : ℕ × ℕ} (ha : a ∈ live) :
    ∃ c ∈ bs, a.1 = c + sizeofHeapBlock ∧ kbfree h a.1 =
      if next h c = 0 then { FirstFit.setFreed h c 1 with kallocPtr := h.kallocPtr - width h c }
      else FirstFit.setFreed h c 1 := by
  obtain ⟨c, hc, hac, -, -⟩ := ho.held a ha
  have hbound := (ho.tiles.mem_range c hc).2
  have hlt := ho.bound
  unfold width at hbound
  have hpos : 0 < sizeofHeapBlock := by decide
  have hnode : sub32 a.1 sizeofHeapBlock = c := by
    rw [sub32_of_le (by omega) (by omega)]
    omega
  have hnext : next (FirstFit.setFreed h c 1) c = next h c := update_of_ne (by omega) _ _
  have hsize : size (FirstFit.setFreed h c 1) c = size h c := update_of_ne (by omega) _ _
  refine ⟨c, hc, hac, ?_⟩
  unfold kbfree
  simp only
  rw [if_neg (by omega), hnode, hnext, hsize, u32_of_lt (by omega),
    show (FirstFit.setFreed h c 1).kallocPtr = h.kallocPtr from rfl, sub32_of_le hlt (by omega), width,
    Nat.add_comm sizeofHeapBlock]

/-- **A block is freed** that is not the last one. -/
theorem Ordered.kbfree (ho : Ordered h live bs) {a : ℕ × ℕ} (ha : a ∈ live)
    (hsafe : Safe h (.kbfree a.1)) : Ordered (kbfree h a.1) (live.erase a) bs := by
  obtain ⟨c, hc, hac, heq⟩ := ho.kbfree_eq ha
  have hlast : next h (a.1 - sizeofHeapBlock) ≠ 0 := hsafe
  rw [heq, if_neg (by rwa [hac, Nat.add_sub_cancel] at hlast)]
  refine ho.setFreed hc (fun e he => ?_) (ho.distinct.sublist (List.erase_sublist.map _))
  obtain ⟨b, hb, heb, hf, hs⟩ := ho.held e (List.mem_of_mem_erase he)
  -- the block of a remaining allocation is another one, since no address is live twice
  have hne : b ≠ c := by
    rintro rfl
    have hperm := (List.perm_cons_erase ha).map Prod.fst
    have hnd := (List.nodup_cons.mp (hperm.nodup_iff.mp ho.distinct)).1
    exact hnd (List.mem_map.mpr ⟨e, he, heb.trans hac.symm⟩)
  exact ⟨b, hb, heb, (isFreed_setFreed_of_ne h 1 hne).trans hf, hs⟩

/-- **The search** visits the list of blocks: it ends at a freed block that is large enough, or
behind the last block, if the fuel exceeds the number of blocks. -/
theorem search_spec (h : Heap) (req : ℕ) : ∀ (fuel a prev : ℕ) (l : List ℕ), Threaded (next h) a l →
    (search h req fuel a prev = none ∧ fuel ≤ l.length) ∨
      search h req fuel a prev = some (0, (prev :: l).getLast (List.cons_ne_nil _ _)) ∨
      ∃ b ∈ l, ∃ pr, search h req fuel a prev = some (b, pr) ∧ isFreed h b ≠ 0 ∧ req ≤ size h b
  | 0, _, _, _, _ => Or.inl ⟨rfl, Nat.zero_le _⟩
  | fuel + 1, a, prev, [], ht => by
    right; left
    have ha : a = 0 := ht
    rw [search, if_pos ha, ha]
    rfl
  | fuel + 1, a, prev, b :: l, ⟨hab, hb, hl⟩ => by
    obtain rfl := hab
    rw [search, if_neg hb]
    by_cases hfit : isFreed h a ≠ 0 ∧ req ≤ size h a
    · right; right
      exact ⟨a, List.mem_cons_self, prev, if_pos hfit, hfit⟩
    · rw [if_neg hfit, List.getLast_cons (List.cons_ne_nil _ _)]
      rcases search_spec h req fuel (next h a) a l hl with ⟨heq, hf⟩ | heq | ⟨b, hbl, hrest⟩
      · exact Or.inl ⟨heq, Nat.succ_le_succ hf⟩
      · exact Or.inr (Or.inl heq)
      · exact Or.inr (Or.inr ⟨b, List.mem_cons_of_mem _ hbl, hrest⟩)

section NewBlock
variable {req prev : ℕ}

theorem newBlock_mem {x : ℕ} (hx : x < h.kallocPtr) (hp : h.head = 0 ∨ x ≠ prev + 8) :
    (newBlock h req prev).mem x = h.mem x := by
  have h0 : x ≠ h.kallocPtr := by omega
  have h4 : x ≠ h.kallocPtr + 4 := by omega
  have h8 : x ≠ h.kallocPtr + 8 := by omega
  by_cases hh : h.head = 0
  · simp [newBlock, setSize, FirstFit.setFreed, setNext, Heap.store, hh, h0, h4, h8]
  · simp [newBlock, setSize, FirstFit.setFreed, setNext, Heap.store, hh, h0, h4, h8,
      hp.resolve_left hh]

theorem newBlock_header (req : ℕ) (hp : h.head = 0 ∨ prev + 8 < h.kallocPtr) :
    size (newBlock h req prev) h.kallocPtr = req ∧ isFreed (newBlock h req prev) h.kallocPtr = 0 ∧
      next (newBlock h req prev) h.kallocPtr = 0 := by
  by_cases hh : h.head = 0
  · simp [newBlock, setSize, FirstFit.setFreed, setNext, Heap.store, hh, size, isFreed, next]
  · have h0 : h.kallocPtr ≠ prev + 8 := by omega
    have h4 : h.kallocPtr ≠ prev + 4 := by omega
    have h8 : h.kallocPtr ≠ prev := by omega
    simp [newBlock, setSize, FirstFit.setFreed, setNext, Heap.store, hh, size, isFreed, next, h0, h4,
      h8]

theorem newBlock_next_prev (hh : h.head ≠ 0) : next (newBlock h req prev) prev = h.kallocPtr := by
  simp [newBlock, setSize, FirstFit.setFreed, setNext, Heap.store, hh, next]

theorem newBlock_globals : (newBlock h req prev).heapStart = h.heapStart ∧
    (newBlock h req prev).heapEnd = h.heapEnd ∧
    (newBlock h req prev).head = (if h.head = 0 then h.kallocPtr else h.head) ∧
    (newBlock h req prev).kallocPtr = u32 (h.kallocPtr + u32 (req + sizeofHeapBlock)) := by
  by_cases hh : h.head = 0 <;>
    simp [newBlock, setSize, FirstFit.setFreed, setNext, Heap.store, hh]

end NewBlock

section
variable (ho : Ordered h live bs)
include ho

theorem Ordered.list_cases : (bs = [] ∧ h.head = 0) ∨ ∃ us t, bs = us ++ [t] ∧ h.head ≠ 0 ∧ t ∈ bs ∧
      (0 :: bs).getLast (List.cons_ne_nil _ _) = t := by
  rcases List.eq_nil_or_concat bs with hnil | ⟨us, t, hbs⟩
  · subst hnil
    exact Or.inl ⟨rfl, ho.threaded⟩
  · right
    rw [List.concat_eq_append] at hbs
    subst hbs
    refine ⟨us, t, rfl, fun hh => ?_, by simp, by simp⟩
    rcases us with _ | ⟨b, us⟩
    · exact ho.threaded.2.1 (ho.threaded.1.symm.trans hh)
    · exact ho.threaded.2.1 (ho.threaded.1.symm.trans hh)

theorem Ordered.prev_lt :
    h.head = 0 ∨ (0 :: bs).getLast (List.cons_ne_nil _ _) + 8 < h.kallocPtr := by
  rcases ho.list_cases with ⟨-, hh⟩ | ⟨us, t, -, -, ht, heq⟩
  · exact Or.inl hh
  · have := (ho.tiles.mem_range t ht).2
    unfold width sizeofHeapBlock at this
    omega

/-- **A new block** behind the last one. -/
theorem Ordered.newBlock {req : ℕ} (hfit : h.kallocPtr + (req + sizeofHeapBlock) < 2 ^ 32) :
    Ordered (newBlock h req ((0 :: bs).getLast (List.cons_ne_nil _ _))) live (bs ++ [h.kallocPtr]) := by
  have hend : ∀ b ∈ bs, b + sizeofHeapBlock + size h b ≤ h.kallocPtr := fun b hb => by
    have := (ho.tiles.mem_range b hb).2
    unfold width at this
    omega
  have hcases := ho.list_cases
  have hprev := ho.prev_lt
  generalize (0 :: bs).getLast (List.cons_ne_nil _ _) = prev at hcases hprev ⊢
  -- every word of an old header but the link of the last block is as before
  have hread : ∀ b ∈ bs, ∀ i < sizeofHeapBlock, i ≠ 8 ∨ b ≠ prev →
      (FirstFit.newBlock h req prev).mem (b + i) = h.mem (b + i) := by
    intro b hb i hi hne
    refine newBlock_mem (by have := hend b hb; omega) ?_
    rcases hcases with ⟨-, hh⟩ | ⟨us, t, -, -, ht, rfl⟩
    · exact Or.inl hh
    · right
      intro heq
      have := ho.eq_of_header hb ht hi (by decide : 8 < sizeofHeapBlock) heq
      omega
  obtain ⟨hsize, hfreed, hnext⟩ := newBlock_header req hprev
  obtain ⟨hstart, -, hhead, hptr⟩ := @newBlock_globals h req prev
  have hsizes : ∀ b ∈ bs, size (FirstFit.newBlock h req prev) b = size h b := fun b hb =>
    hread b hb 0 (by decide) (Or.inl (by decide))
  have hlo := ho.tiles.le
  have hpos := ho.start_pos
  refine ⟨by rw [hstart]; exact hpos, ?_, ?_, ?_, fun a ha => ?_, ho.distinct⟩
  · rw [hhead]
    rcases hcases with ⟨rfl, hh⟩ | ⟨us, t, rfl, hh, ht, rfl⟩
    · rw [if_pos hh]
      exact ⟨rfl, by omega, hnext⟩
    · rw [if_neg hh, List.append_assoc]
      have hnd := ho.threaded.nodup
      refine ho.threaded.snoc (fun d hd => ?_) (newBlock_next_prev hh) (by omega) hnext
      refine hread d (List.mem_append_left _ hd) 8 (by decide) (Or.inr ?_)
      rintro rfl
      exact (List.nodup_append.mp hnd).2.2 d hd d (by simp) rfl
  · have htiles : Tiles (width (FirstFit.newBlock h req prev)) h.heapStart bs h.kallocPtr :=
      ho.tiles.congr fun b hb => congrArg (sizeofHeapBlock + ·) (hsizes b hb)
    have hall := htiles.snoc
    rw [width, hsize, Nat.add_comm sizeofHeapBlock] at hall
    rwa [hstart, hptr, u32_of_lt (n := req + _) (by omega), u32_of_lt hfit]
  · exact u32_lt _
  · obtain ⟨b, hb, hab, hf, hs⟩ := ho.held a ha
    exact ⟨b, List.mem_append_left _ hb, hab, (hread b hb 4 (by decide) (Or.inl (by decide))).trans hf,
      hs.trans (hsizes b hb).ge⟩

theorem Ordered.hold {b req : ℕ} (hb : b ∈ bs) (hf : isFreed h b = 0)
    (hs : req ≤ size h b) (hnew : ∀ a ∈ live, a.1 ≠ b + sizeofHeapBlock) :
    Ordered h ((b + sizeofHeapBlock, req) :: live) bs := by
  refine ⟨ho.start_pos, ho.threaded, ho.tiles, ho.bound,
    List.forall_mem_cons.mpr ⟨⟨b, hb, rfl, hf, hs⟩, ho.held⟩, List.nodup_cons.mpr ⟨fun hmem => ?_,
      ho.distinct⟩⟩
  obtain ⟨a, ha, heq⟩ := List.mem_map.mp hmem
  exact hnew a ha heq

theorem Ordered.hold_newBlock {req req' : ℕ} (hle : req ≤ req')
    (hsum : h.kallocPtr + (req' + sizeofHeapBlock) < 2 ^ 32) :
    Ordered (FirstFit.newBlock h req' ((0 :: bs).getLast (List.cons_ne_nil _ _)))
      ((h.kallocPtr + sizeofHeapBlock, req) :: live) (bs ++ [h.kallocPtr]) := by
  obtain ⟨hsize, hfreed, -⟩ := newBlock_header req' ho.prev_lt
  refine (ho.newBlock hsum).hold (by simp) hfreed (hle.trans hsize.ge) fun a ha hab => ?_
  obtain ⟨b, hb, hab', -⟩ := ho.held a ha
  have := (ho.tiles.mem_range b hb).2
  unfold width sizeofHeapBlock at this
  omega

theorem Ordered.hold_freed {b req : ℕ} (hb : b ∈ bs) (hf : isFreed h b ≠ 0) (hs : req ≤ size h b) :
    Ordered (FirstFit.setFreed h b 0) ((b + sizeofHeapBlock, req) :: live) bs := by
  have hnot : ∀ a ∈ live, a.1 ≠ b + sizeofHeapBlock := by
    intro a ha hab
    obtain ⟨c, -, hac, hfree, -⟩ := ho.held a ha
    obtain rfl : c = b := by omega
    exact hf hfree
  have hmark : Ordered (FirstFit.setFreed h b 0) live bs := by
    refine ho.setFreed hb (fun a ha => ?_) ho.distinct
    obtain ⟨c, hc, hac, hfree, hsz⟩ := ho.held a ha
    have hne : c ≠ b := fun hcb => hnot a ha (by rw [hac, hcb])
    exact ⟨c, hc, hac, (isFreed_setFreed_of_ne h 0 hne).trans hfree, hsz⟩
  have hsize : size (FirstFit.setFreed h b 0) b = size h b := update_of_ne (by omega) _ _
  exact hmark.hold hb (isFreed_setFreed h b 0) (by omega) hnot

theorem Ordered.write {a : ℕ × ℕ} {w : ℕ} (v : ℕ) (ha : a ∈ live)
    (hw : a.1 ≤ w) (hw' : w + 4 ≤ a.1 + a.2) : Ordered (h.store w v) live bs := by
  refine ho.store fun b hb => ?_
  obtain ⟨c, hc, hac, -, hsz⟩ := ho.held a ha
  by_cases hbc : b = c
  · omega
  · have := ho.tiles.apart b hb c hc hbc
    unfold width at this
    omega

/-- **`kalloc`** keeps the heap in order and makes the payload live that it returns. -/
theorem Ordered.kalloc {fuel req p : ℕ} {h' : Heap}
    (hsafe : Safe h (.kalloc req)) (heq : kalloc fuel h req = some (p, h')) :
    (p = 0 ∧ h' = h) ∨ ∃ bs', Ordered h' ((p, req) :: live) bs' := by
  have hsum : h.kallocPtr + ((req + 9) / 8 * 8 + sizeofHeapBlock) < 2 ^ 32 := hsafe
  have hreq : alignUp req 8 = (req + 9) / 8 * 8 := alignUp_two_pow (k := 3) (by norm_num) (by omega)
  have hle : req ≤ (req + 9) / 8 * 8 := by omega
  unfold FirstFit.kalloc at heq
  rw [hreq] at heq
  generalize (req + 9) / 8 * 8 = req' at hsum hle heq
  simp only at heq
  split_ifs at heq with hfull
  · simp only [Option.some.injEq, Prod.mk.injEq] at heq
    exact Or.inl ⟨heq.1.symm, heq.2.symm⟩
  right
  rcases search_spec h req' fuel h.head 0 bs ho.threaded with ⟨hs, -⟩ | hs | ⟨b, hb, pr, hs, hf, hfit⟩
  · rw [hs] at heq
    exact absurd heq (by simp)
  · -- no freed block is large enough
    rw [hs] at heq
    obtain ⟨rfl, rfl⟩ := heq
    rw [u32_of_lt (by omega)]
    exact ⟨_, ho.hold_newBlock hle hsum⟩
  · -- a freed block is used again
    rw [hs] at heq
    simp only [ne_eq, ho.threaded.ne_zero b hb, not_false_eq_true, if_true, Option.some.injEq,
      Prod.mk.injEq] at heq
    obtain ⟨rfl, rfl⟩ := heq
    have hend := (ho.tiles.mem_range b hb).2
    rw [u32_of_lt (by omega)]
    exact ⟨bs, ho.hold_freed hb hf (hle.trans hfit)⟩

theorem Ordered.step {s' : Heap × List (ℕ × ℕ)} {c : Call} (hsafe : Safe h c)
    (hs : Step (h, live) c s') : ∃ bs', Ordered s'.1 s'.2 bs' := by
  cases hs with
  | kalloc fuel p hp heq =>
    rcases ho.kalloc hsafe heq with ⟨hp0, -⟩ | hok
    · exact absurd hp0 hp
    · exact hok
  | refused fuel heq =>
    rcases ho.kalloc hsafe heq with ⟨-, rfl⟩ | ⟨bs', hok⟩
    · exact ⟨bs, ho⟩
    · obtain ⟨b, -, hb, -⟩ := hok.held _ List.mem_cons_self
      exact absurd hb (by unfold sizeofHeapBlock; omega)
  | kbfree a ha => exact ⟨bs, ho.kbfree ha hsafe⟩
  | write a ha hw hw' => exact ⟨bs, ho.write _ ha hw hw'⟩

/-- A safe call leaves the bounds of the heap, and does not move `kalloc_ptr` beyond the end. -/
theorem Ordered.step_bounds {s' : Heap × List (ℕ × ℕ)} {c : Call}
    (hsafe : Safe h c) (hs : Step (h, live) c s') : s'.1.heapStart = h.heapStart ∧
      s'.1.heapEnd = h.heapEnd ∧ (h.kallocPtr ≤ h.heapEnd → s'.1.kallocPtr ≤ h.heapEnd) := by
  have hkalloc : ∀ {fuel req p : ℕ} {h' : Heap}, FirstFit.kalloc fuel h req = some (p, h') →
      h'.heapStart = h.heapStart ∧ h'.heapEnd = h.heapEnd ∧
        (h.kallocPtr ≤ h.heapEnd → h'.kallocPtr ≤ h.heapEnd) := by
    intro fuel req p h' heq
    unfold FirstFit.kalloc at heq
    simp only at heq
    split_ifs at heq with hfull
    · rw [Option.some.injEq, Prod.mk.injEq] at heq
      rw [← heq.2]
      exact ⟨rfl, rfl, id⟩
    · split at heq
      · exact absurd heq (by simp)
      · split_ifs at heq with hcurr
        · rw [Option.some.injEq, Prod.mk.injEq] at heq
          rw [← heq.2]
          exact ⟨rfl, rfl, id⟩
        · rw [Option.some.injEq, Prod.mk.injEq] at heq
          rw [← heq.2]
          obtain ⟨hstart, hend, -, hptr⟩ := newBlock_globals (h := h)
          exact ⟨hstart, hend, fun _ => by rw [hptr]; exact Nat.le_of_not_lt hfull⟩
  cases hs with
  | kalloc fuel p hp heq => exact hkalloc heq
  | refused fuel heq => exact hkalloc heq
  | kbfree a ha =>
    obtain ⟨c, -, hac, heq⟩ := ho.kbfree_eq ha
    have hlast : next h (a.1 - sizeofHeapBlock) ≠ 0 := hsafe
    rw [heq, if_neg (by rwa [hac, Nat.add_sub_cancel] at hlast)]
    exact ⟨rfl, rfl, id⟩
  | write a ha hw hw' => exact ⟨rfl, rfl, id⟩

/-- **A heap in order** has the properties of its clients. -/
theorem Ordered.heapInvariant : HeapInvariant h live := by
  have hpay : ∀ a ∈ live, ∃ b ∈ bs, a.1 = b + sizeofHeapBlock ∧ payload h a.1 = size h b ∧
      a.2 ≤ size h b := by
    intro a ha
    obtain ⟨b, hb, hab, -, hs⟩ := ho.held a ha
    exact ⟨b, hb, hab, by rw [payload, hab, Nat.add_sub_cancel], hs⟩
  refine ⟨⟨bs, ho.threaded, ho.threaded.nodup, ho.tiles, fun b hb a ha => ?_⟩, fun a ha => ?_, ?_,
    fun req => ?_⟩
  · obtain ⟨c, hc, hac, hp, -⟩ := hpay a ha
    by_cases hbc : b = c
    · omega
    · have := ho.tiles.apart b hb c hc hbc
      unfold width at this
      omega
  · obtain ⟨b, -, -, hp, hs⟩ := hpay a ha
    omega
  · refine (List.pairwise_map.mp ho.distinct).imp_of_mem fun {a c} ha hc hne => ?_
    obtain ⟨b, hb, hab, hpa, -⟩ := hpay a ha
    obtain ⟨d, hd, hcd, hpc, -⟩ := hpay c hc
    have := ho.tiles.apart b hb d hd (by omega)
    unfold width at this
    omega
  · refine ⟨bs.length + 1, ?_⟩
    unfold FirstFit.kalloc
    simp only
    split_ifs
    · rfl
    · rcases search_spec h (alignUp req 8) (bs.length + 1) h.head 0 bs ho.threaded with
        ⟨-, hf⟩ | hs | ⟨b, hb, pr, hs, -⟩
      · omega
      · rw [hs]
        rfl
      · rw [hs]
        simp only
        split_ifs <;> rfl

end

end Ordered

/-! ### Whole runs -/

/-- One call that is safe. -/
def SafeStep (s s' : Heap × List (ℕ × ℕ)) : Prop := ∃ c, Safe s.1 c ∧ Step s c s'

theorem ordered_initHeap {start : ℕ} (hstart : 0 < alignUp start 4096) (mem : ℕ → ℕ) :
    Ordered (initHeap start mem) [] [] :=
  ⟨hstart, rfl, rfl, lt_of_le_of_lt Nat.and_le_left (u32_lt _), by simp, List.nodup_nil⟩

theorem ordered_of_safe_run {start : ℕ} (hstart : 0 < alignUp start 4096) (mem : ℕ → ℕ)
    {s : Heap × List (ℕ × ℕ)} (hrun : ReflTransGen SafeStep (initHeap start mem, []) s) :
    (∃ bs, Ordered s.1 s.2 bs) ∧ s.1.heapStart = alignUp start 4096 ∧
      s.1.heapEnd = u32 (alignUp start 4096 + heapSize) ∧
      (alignUp start 4096 ≤ s.1.heapEnd → s.1.kallocPtr ≤ s.1.heapEnd) := by
  induction hrun with
  | refl => exact ⟨⟨[], ordered_initHeap hstart mem⟩, rfl, rfl, id⟩
  | tail _ hs ih =>
    obtain ⟨⟨bs, ho⟩, hst, hend, hptr⟩ := ih
    obtain ⟨c, hsafe, hs⟩ := hs
    obtain ⟨hst', hend', hptr'⟩ := ho.step_bounds hsafe hs
    refine ⟨ho.step hsafe hs, hst'.trans hst, hend'.trans hend, fun hle => ?_⟩
    rw [hend'] at hle ⊢
    exact hptr' (hptr hle)

/-- **The heap is in order in every run of safe calls.** -/
theorem heapInvariant_of_safe_run {start : ℕ} (hstart : 0 < alignUp start 4096) (mem : ℕ → ℕ)
    {s : Heap × List (ℕ × ℕ)} (hrun : ReflTransGen SafeStep (initHeap start mem, []) s) :
    HeapInvariant s.1 s.2 := by
  obtain ⟨⟨bs, ho⟩, -⟩ := ordered_of_safe_run hstart mem hrun
  exact ho.heapInvariant

/-- The heap after a request. -/
def afterKalloc (fuel : ℕ) (h : Heap) (req : ℕ) : Heap := ((kalloc fuel h req).map Prod.snd).getD h

/-- Two requests, and the release of the first one. -/
theorem heapInvariant_two_blocks : HeapInvariant
    (kbfree (afterKalloc 2 (afterKalloc 1 (initHeap 0x200000 fun _ => 0) 8) 16) 0x20100c)
    [(0x201028, 16)] := by
  have h1 : ReflTransGen SafeStep (initHeap 0x200000 fun _ => 0, [])
      (afterKalloc 1 (initHeap 0x200000 fun _ => 0) 8, [(0x20100c, 8)]) :=
    .single ⟨.kalloc 8, by decide, Step.kalloc 1 0x20100c (by decide) rfl⟩
  have h2 := h1.tail ⟨.kalloc 16, by decide, Step.kalloc 2 0x201028 (by decide) rfl⟩
  exact heapInvariant_of_safe_run (by decide) _
    (h2.tail ⟨.kbfree 0x20100c, by decide, Step.kbfree (0x20100c, 8) (by decide)⟩)

/-- **Freeing the last block always breaks the heap**: the block stays in the list, and `kalloc_ptr`
moves below it. -/
theorem Ordered.not_heapInvariant_kbfree_last {h : Heap} {live : List (ℕ × ℕ)} {bs : List ℕ}
    (ho : Ordered h live bs) {a : ℕ × ℕ} (ha : a ∈ live)
    (hlast : next h (a.1 - sizeofHeapBlock) = 0) (live' : List (ℕ × ℕ)) :
    ¬ HeapInvariant (FirstFit.kbfree h a.1) live' := by
  obtain ⟨c, hc, hac, heq⟩ := ho.kbfree_eq ha
  rw [hac, Nat.add_sub_cancel] at hlast
  rw [heq, if_pos hlast]
  rintro ⟨⟨bs', ht', -, htiles', -⟩, -, -, -⟩
  -- the list and the sizes are as before, so the tiling ends where it ended before
  have hmark : Ordered (FirstFit.setFreed h c 1) [] bs := ho.setFreed hc (by simp) List.nodup_nil
  obtain rfl : bs' = bs := ht'.unique hmark.threaded
  have hsame : h.kallocPtr - width h c = h.kallocPtr := htiles'.unique hmark.tiles
  have hend := (ho.tiles.mem_range c hc).2
  have hwidth : 0 < width h c := by unfold width sizeofHeapBlock; omega
  omega

/-- A request, its release and two more requests. -/
def overlapHeap : Heap :=
  let h := afterKalloc 1 (initHeap 0x200000 fun _ => 0) 8
  let h := kbfree h 0x20100c
  afterKalloc 2 (afterKalloc 2 h 8) 100

/-- A run that frees the last block: two live allocations get the same address. -/
theorem overlap_after_kbfree_last :
    ReflTransGen (fun s s' => ∃ c, Step s c s') (initHeap 0x200000 fun _ => 0, [])
      (overlapHeap, [(0x20100c, 100), (0x20100c, 8)]) ∧
    ¬ HeapInvariant overlapHeap [(0x20100c, 100), (0x20100c, 8)] := by
  constructor
  · have h1 : ReflTransGen (fun s s' => ∃ c, Step s c s') (initHeap 0x200000 fun _ => 0, [])
        (afterKalloc 1 (initHeap 0x200000 fun _ => 0) 8, [(0x20100c, 8)]) :=
      .single ⟨.kalloc 8, Step.kalloc 1 0x20100c (by decide) rfl⟩
    have h2 := h1.tail ⟨.kbfree 0x20100c, Step.kbfree (0x20100c, 8) (by decide)⟩
    have h3 := h2.tail ⟨.kalloc 8, Step.kalloc 2 0x20100c (by decide) rfl⟩
    exact h3.tail ⟨.kalloc 100, Step.kalloc 2 0x20100c (by decide) rfl⟩
  · intro hinv
    have hdis := (List.pairwise_cons.mp hinv.disjoint).1 (0x20100c, 8) (by simp)
    revert hdis
    decide

end YegaKernel.Boot.FirstFit
