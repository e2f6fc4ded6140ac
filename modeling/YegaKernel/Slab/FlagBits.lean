import YegaKernel.Slab.Run

/-! # The bits of the page flags

Four calls write to the flag words of pages: `allocate_block` and `free_block` mean to write to
`PG_FLAG_private`, `kmem_getpages` and `kmem_freepages` to `PG_FLAG_slab` as well. Setting a flag sets
its bit, but the masks that clear one clear all bits below it too: bits 0 to 4 and bits 0 to 8.

The bit of a page after a call is given by the pages it clears a flag of (`flagBit_allocateBlock`,
`flagBit_freeBlock`, `flagBit_kmemFreepages`). From this follows `flagBits_iff`: when a call leaves all
other bits alone, and when `kmem_freepages` takes `PG_FLAG_slab` from the pages `kmem_getpages` gave it
to. -/

namespace YegaKernel.Slab.FlagBits

open Lib.Links Lib.Word Lib.Dyadic
open Buddy.State Buddy.Ops Buddy.Represent Buddy.Spec
open Slab.State (Kernel KmemCache pageAddress virtToPage pageOffset pa)
open Slab.Ops Slab.PageOps Slab.Run

/-- Bit `i` of the flags of page `q`. -/
def flagBit (z : Zone) (q i : ℕ) : Bool := (z.pages q).flags.getLsbD i

/-! ### Masks -/

theorem mask_getLsbD (f : BitVec 32) (k i : ℕ) :
    (f &&& ((~~~1#32) <<< k)).getLsbD i = (f.getLsbD i && decide (k < i)) := by
  rw [BitVec.getLsbD_and, BitVec.getLsbD_shiftLeft, BitVec.getLsbD_not, BitVec.getLsbD_one]
  by_cases hi : i < 32
  · by_cases hk : k < i
    · simp [hi, hk, show ¬ i < k by omega, show i - k < 32 by omega, show i - k ≠ 0 by omega]
    · by_cases heq : i = k
      · simp [heq]
      · simp [hk, show i < k by omega]
  · simp [BitVec.getLsbD_of_ge f i (by omega)]

theorem private_getLsbD (i : ℕ) : pgFlagPrivate.getLsbD i = decide (i = 4) := by
  by_cases hi : i < 32
  · interval_cases i <;> rfl
  · rw [BitVec.getLsbD_of_ge _ i (by omega), decide_eq_false (by omega)]

theorem slab_getLsbD (i : ℕ) : pgFlagSlab.getLsbD i = decide (i = 8) := by
  by_cases hi : i < 32
  · interval_cases i <;> rfl
  · rw [BitVec.getLsbD_of_ge _ i (by omega), decide_eq_false (by omega)]

/-! ### The steps -/

section Steps
variable (z : Zone) (p q i : ℕ)

theorem flagBit_updPage (f : Page → Page) : flagBit (z.updPage p f) q i =
    if q = p then (f (z.pages p)).flags.getLsbD i else flagBit z q i := by
  by_cases h : q = p
  · subst h
    simp [flagBit, Zone.updPage]
  · simp [flagBit, Zone.updPage, h]

theorem flagBit_takeBlock (k : ℕ) : flagBit (takeBlock z k p) q i =
    (flagBit z q i && (decide (q ≠ p) || decide (4 < i))) := by
  by_cases h : q = p
  · subst h
    have hflags : ((takeBlock z k q).pages q).flags =
        (z.pages q).flags &&& ((~~~1#32) <<< 4) := by
      simp [takeBlock, setNrFree, setPrivate, clearPagePrivate, Zone.updPage]
    rw [flagBit, hflags, mask_getLsbD]
    simp [flagBit]
  · rw [flagBit, takeBlock_pages_of_ne z k h]
    simp [flagBit, h]

theorem flagBit_putBlock (k : ℕ) (hi : i ≠ 4) : flagBit (putBlock z k p) q i = flagBit z q i := by
  by_cases h : q = p
  · subst h
    have hflags : ((putBlock z k q).pages q).flags = (z.pages q).flags ||| pgFlagPrivate := by
      simp [putBlock, setNrFree, setPrivate, setPagePrivate, Zone.updPage]
    rw [flagBit, hflags, BitVec.getLsbD_or, private_getLsbD]
    simp [flagBit, hi]
  · rw [flagBit, putBlock_pages_of_ne z k h]
    rfl

theorem flagBit_clearPageSlab : flagBit (clearPageSlab z p) q i =
    (flagBit z q i && (decide (q ≠ p) || decide (8 < i))) := by
  rw [clearPageSlab, flagBit_updPage]
  by_cases h : q = p
  · subst h
    rw [if_pos rfl, mask_getLsbD]
    simp [flagBit]
  · simp [h]

theorem flagBit_setPageSlab : flagBit (setPageSlab z p) q i =
    (flagBit z q i || (decide (q = p) && decide (i = 8))) := by
  rw [setPageSlab, flagBit_updPage]
  by_cases h : q = p
  · subst h
    rw [if_pos rfl, BitVec.getLsbD_or, slab_getLsbD]
    simp [flagBit]
  · simp [h]

end Steps

/-! ### The loops -/

/-- The page lies in the block of `n` pages at `p`. -/
def InRun (p n q : ℕ) : Prop := p ≤ q ∧ q < p + n

instance (p n q : ℕ) : Decidable (InRun p n q) := by
  unfold InRun
  infer_instance

theorem inRun_succ (p n q : ℕ) : InRun p (n + 1) q ↔ q = p ∨ InRun (p + 1) n q := by
  unfold InRun
  omega

theorem not_inRun_zero (p q : ℕ) : ¬ InRun p 0 q := by
  unfold InRun
  omega

theorem flagBit_clearPagesSlab (q i : ℕ) : ∀ (n p : ℕ) (z : Zone),
    flagBit (clearPagesSlab z p n) q i =
      (flagBit z q i && (decide (¬ InRun p n q) || decide (8 < i)))
  | 0, p, z => by
    simp [clearPagesSlab, not_inRun_zero]
  | n + 1, p, z => by
    have hstep : clearPagesSlab z p (n + 1) = clearPagesSlab (clearPageSlab z p) (p + 1) n := by
      rfl
    rw [hstep, flagBit_clearPagesSlab q i n (p + 1), flagBit_clearPageSlab]
    simp only [inRun_succ, not_or]
    by_cases hq : q = p <;> by_cases hi : 8 < i <;> simp [hq, hi]

theorem flagBit_setPagesSlab (q i : ℕ) : ∀ (n p : ℕ) (z : Zone),
    flagBit (setPagesSlab z p n) q i = (flagBit z q i || (decide (InRun p n q) && decide (i = 8)))
  | 0, p, z => by
    simp [setPagesSlab, not_inRun_zero]
  | n + 1, p, z => by
    have hstep : setPagesSlab z p (n + 1) = setPagesSlab (setPageSlab z p) (p + 1) n := by
      rfl
    rw [hstep, flagBit_setPagesSlab q i n (p + 1), flagBit_setPageSlab]
    simp only [inRun_succ]
    by_cases hq : q = p <;> by_cases hi : i = 8 <;> simp [hq, hi]

/-! ### Allocating -/

theorem flagBit_splitBlock (order p q : ℕ) {i : ℕ} (hi : i ≠ 4) : ∀ (current : ℕ) (z : Zone),
    flagBit (splitBlock order p current (2 ^ current) z) q i = flagBit z q i
  | 0, _ => rfl
  | current + 1, z => by
    by_cases h : order < current + 1
    · rw [splitBlock_succ h, flagBit_splitBlock order p q hi current, flagBit_putBlock _ _ _ _ _ hi]
    · rw [splitBlock, if_neg h]

variable {z : Zone} {k i : ℕ} {s : Kernel} {kc : KmemCache}

/-- **The bits after `allocate_block`**, `PG_FLAG_private` apart. -/
theorem flagBit_allocateBlock {order : ℕ} (hk : findOrder z order = some k) (q : ℕ)
    {i : ℕ} (hi : i ≠ 4) : flagBit (allocateBlock z order).2 q i =
      (flagBit z q i && (decide (q ≠ firstOf z k) || decide (4 < i))) := by
  rw [allocateBlock, hk]
  rw [flagBit_splitBlock order _ q hi]
  exact flagBit_takeBlock z (firstOf z k) q i k

/-! ### Freeing -/

/-- The buddies a block is joined with from order to order, as long as the test says that the buddy
is free. -/
def joined (isFree : ℕ → ℕ → Bool) : ℕ → ℕ → ℕ → List ℕ
  | 0, _, _ => []
  | fuel + 1, order, idx =>
    if order < buddyGroups - 1 ∧ isFree (buddy order idx) order = true then
      buddy order idx :: joined isFree fuel (order + 1) (idx &&& buddy order idx)
    else []

/-- The test of `free_block`. -/
def isFreeBuddy (z : Zone) (b order : ℕ) : Bool := decide (b < z.presentPages) && pageIsBuddy z b order

/-- **The bits after the merge loop**: the joined buddies lose theirs. The test may be the one of an
earlier zone, as the loop has changed only pages of the block it is at. -/
theorem flagBit_mergeBlock {isFree : ℕ → ℕ → Bool} (q i : ℕ) : ∀ (fuel order idx : ℕ) (z : Zone),
    (∀ b, b / 2 ^ order ≠ idx / 2 ^ order → isFree b = isFreeBuddy z b) →
      flagBit (mergeBlock fuel order idx z).2.2 q i =
        (flagBit z q i && (decide (q ∉ joined isFree fuel order idx) || decide (4 < i))) := by
  intro fuel
  induction fuel with
  | zero =>
    simp [mergeBlock, joined]
  | succ fuel ih =>
    intro order idx z htest
    have hbuddy := htest (buddy order idx) (div_buddy_ne order idx)
    rw [joined, hbuddy]
    by_cases hgo : order < buddyGroups - 1 ∧ isFreeBuddy z (buddy order idx) order = true
    · obtain ⟨hin, hpriv⟩ : buddy order idx < z.presentPages ∧
          pageIsBuddy z (buddy order idx) order = true := by
        simpa [isFreeBuddy] using hgo.2
      have hnext : ∀ b, b / 2 ^ (order + 1) ≠ (idx &&& buddy order idx) / 2 ^ (order + 1) →
          isFree b = isFreeBuddy (takeBlock z order (buddy order idx)) b := by
        intro b hb
        rw [div_succ_and_buddy] at hb
        have hne : b ≠ buddy order idx := fun h => hb (by rw [h, div_succ_buddy])
        rw [htest b (div_ne_of_div_succ_ne hb)]
        unfold isFreeBuddy pageIsBuddy pagePrivate
        rw [takeBlock_pages_of_ne z order hne]
        rfl
      rw [if_pos hgo, mergeBlock_succ hgo.1 hin hpriv, ih _ _ _ hnext, flagBit_takeBlock]
      by_cases hq : q = buddy order idx <;> by_cases hi : 4 < i <;> simp [hq, hi]
    · have hstop : mergeBlock (fuel + 1) order idx z = (order, idx, z) := by
        refine mergeBlock_stop fun hm => hgo ⟨hm.1, ?_⟩
        simpa [isFreeBuddy] using hm.2
      rw [if_neg hgo, hstop]
      simp

/-- **The bits after `free_block`**, `PG_FLAG_private` apart. -/
theorem flagBit_freeBlock (z : Zone) (page order q : ℕ) {i : ℕ} (hi : i ≠ 4) :
    flagBit (freeBlock z page order) q i = (flagBit z q i &&
        (decide (q ∉ joined (isFreeBuddy z) buddyGroups order page) || decide (4 < i))) := by
  have hput : ∃ k p, freeBlock z page order = putBlock (mergeBlock buddyGroups order page
      { z with freePages := u32 (z.freePages + 2 ^ order) }).2.2 k p := ⟨_, _, rfl⟩
  obtain ⟨k, p, hput⟩ := hput
  rw [hput, flagBit_putBlock _ _ _ _ _ hi]
  exact flagBit_mergeBlock q i buddyGroups order page _ fun _ _ => rfl

/-! ### Pages of a cache -/

theorem pagePrivate_eq (z : Zone) (q : ℕ) : pagePrivate z q = flagBit z q 4 := by
  have hmask : ((z.pages q).flags &&& pgFlagPrivate = pgFlagPrivate) ↔
      (z.pages q).flags.getLsbD 4 = true := by
    constructor
    · intro h
      have hbit := congrArg (fun f => f.getLsbD 4) h
      simpa [BitVec.getLsbD_and, private_getLsbD] using hbit
    · intro h
      refine BitVec.eq_of_getLsbD_eq fun i _ => ?_
      rw [BitVec.getLsbD_and, private_getLsbD]
      by_cases hi : i = 4
      · simp [hi, h]
      · simp [hi]
  unfold pagePrivate flagBit
  rw [Bool.eq_iff_iff, decide_eq_true_iff]
  exact hmask

/-- The test of `free_block` once the pages of the block have lost their flags: they are no buddies
any more. -/
def isOtherBuddy (z : Zone) (page n b order : ℕ) : Bool :=
  !decide (InRun page n b) && isFreeBuddy z b order

theorem isFreeBuddy_clearPagesSlab (z : Zone) (page n b : ℕ) :
    isFreeBuddy (clearPagesSlab z page n) b = isOtherBuddy z page n b := by
  have hmarks := marks_clearPagesSlab z page n
  unfold isOtherBuddy isFreeBuddy pageIsBuddy
  rw [hmarks.present]
  by_cases hin : InRun page n b
  · have hbit : pagePrivate (clearPagesSlab z page n) b = false := by
      rw [pagePrivate_eq, flagBit_clearPagesSlab]
      simp [hin]
    simp [hin, hbit]
  · have hsame : (clearPagesSlab z page n).pages b = z.pages b := (hmarks.outside b hin).2
    unfold pagePrivate
    rw [hsame]
    simp [hin]

theorem kmemGetpages_of_some (hk : findOrder s.zone kc.gfporder = some k) :
    kmemGetpages s kc = (pageAddress (firstOf s.zone k), { s with
      zone := setPagesSlab (allocateBlock s.zone kc.gfporder).2 (firstOf s.zone k)
        (2 ^ kc.gfporder) }) := by
  have halloc : allocateBlock s.zone kc.gfporder =
      (some (firstOf s.zone k), (allocateBlock s.zone kc.gfporder).2) :=
    Prod.ext (allocateBlock_fst hk) rfl
  rw [kmemGetpages, halloc]

/-- **The bits after `kmem_getpages`**, `PG_FLAG_private` apart. -/
theorem flagBit_kmemGetpages
    (hk : findOrder s.zone kc.gfporder = some k) (q : ℕ) {i : ℕ} (hi : i ≠ 4) :
    flagBit (kmemGetpages s kc).2.zone q i =
      (flagBit s.zone q i && (decide (q ≠ firstOf s.zone k) || decide (4 < i)) ||
        (decide (InRun (firstOf s.zone k) (2 ^ kc.gfporder) q) && decide (i = 8))) := by
  rw [← flagBit_allocateBlock hk q hi, ← flagBit_setPagesSlab, kmemGetpages_of_some hk]

/-- The buddies the block at `page` is joined with when `kmem_freepages` gives it back. -/
def joinedPages (z : Zone) (page order : ℕ) : List ℕ :=
  joined (isOtherBuddy z page (2 ^ order)) buddyGroups order page

/-- **The bits after `kmem_freepages`**, `PG_FLAG_private` apart. -/
theorem flagBit_kmemFreepages (s : Kernel) (kc : KmemCache) (addr q : ℕ) {i : ℕ} (hi : i ≠ 4) :
    flagBit (kmemFreepages s kc addr).zone q i = (flagBit s.zone q i &&
        (decide (¬ InRun (virtToPage addr) (2 ^ kc.gfporder) q) || decide (8 < i)) &&
        (decide (q ∉ joinedPages s.zone (virtToPage addr) kc.gfporder) || decide (4 < i))) := by
  have htest : isFreeBuddy (clearPagesSlab s.zone (virtToPage addr) (2 ^ kc.gfporder)) =
      isOtherBuddy s.zone (virtToPage addr) (2 ^ kc.gfporder) :=
    funext fun b => isFreeBuddy_clearPagesSlab _ _ _ b
  rw [joinedPages, ← htest, ← flagBit_clearPagesSlab, ← flagBit_freeBlock _ _ _ _ hi, kmemFreepages]

/-! ### The calls -/

/-- A call that writes to page flags. -/
inductive Call
  | allocate (order : ℕ)
  | free (page order : ℕ)
  | getpages (kc : KmemCache)
  | freepages (kc : KmemCache) (addr : ℕ)

def Call.run (s : Kernel) : Call → Kernel
  | .allocate order => { s with zone := (allocateBlock s.zone order).2 }
  | .free page order => { s with zone := freeBlock s.zone page order }
  | .getpages kc => (kmemGetpages s kc).2
  | .freepages kc addr => kmemFreepages s kc addr

/-- The bits the call is about: `PG_FLAG_private`, and `PG_FLAG_slab` for a cache. -/
def Call.own : Call → List ℕ
  | .allocate _ => [4]
  | .free _ _ => [4]
  | .getpages _ => [4, 8]
  | .freepages _ _ => [4, 8]

/-- **The call leaves all other bits of every page alone.** -/
def OwnBitsOnly (s : Kernel) (c : Call) : Prop :=
  ∀ q i, i ∉ c.own → flagBit (c.run s).zone q i = flagBit s.zone q i

/-- These bits of the page are clear. -/
def Clear (z : Zone) (q : ℕ) (bits : List ℕ) : Prop := ∀ i ∈ bits, flagBit z q i = false

/-- The bits that the masks clear by mistake are clear: bits 0 to 3 of the page that is allocated, or
of the buddies that are joined, and bits 0 to 3 and 5 to 7 of the pages of a cache. -/
def Call.NothingToLose (s : Kernel) : Call → Prop
  | .allocate order =>
    ∀ k, findOrder s.zone order = some k → Clear s.zone (firstOf s.zone k) [0, 1, 2, 3]
  | .free page order =>
    ∀ b ∈ joined (isFreeBuddy s.zone) buddyGroups order page, Clear s.zone b [0, 1, 2, 3]
  | .getpages kc =>
    ∀ k, findOrder s.zone kc.gfporder = some k → Clear s.zone (firstOf s.zone k) [0, 1, 2, 3]
  | .freepages kc addr =>
    (∀ q, InRun (virtToPage addr) (2 ^ kc.gfporder) q → Clear s.zone q [0, 1, 2, 3, 5, 6, 7]) ∧
      ∀ b ∈ joinedPages s.zone (virtToPage addr) kc.gfporder, Clear s.zone b [0, 1, 2, 3]

theorem mem_low : i ∈ [0, 1, 2, 3] ↔ i < 4 := by
  simp only [List.mem_cons, List.not_mem_nil, or_false]
  omega

theorem own_private (c : Call) : 4 ∈ c.own := by
  cases c <;> simp [Call.own]

theorem own_lt (c : Call) : ∀ i < 4, i ∉ c.own := by
  cases c <;> simp [Call.own] <;> omega

theorem ne_private {c : Call} (hi : i ∉ c.own) : i ≠ 4 := fun h => hi (h ▸ own_private c)

/-- The mask of bit `k` misses a bit above it, and the pages it is not used on. -/
theorem mask_misses {P : Prop} [Decidable P] {k i : ℕ} (hne : i ≠ k) (h : ¬ (P ∧ i < k)) :
    (decide (¬ P) || decide (k < i)) = true := by
  rw [Bool.or_eq_true, decide_eq_true_iff, decide_eq_true_iff]
  by_cases hP : P
  · have hle : ¬ i < k := fun hlt => h ⟨hP, hlt⟩
    omega
  · exact .inl hP

theorem kept_iff_clear {z' : Zone} {S : ℕ → Prop} [DecidablePred S] {own : List ℕ}
    (hown : ∀ i < 4, i ∉ own) (h4 : 4 ∈ own) (h : ∀ q i, i ∉ own →
      flagBit z' q i = (flagBit z q i && (decide (¬ S q) || decide (4 < i)))) :
    (∀ q i, i ∉ own → flagBit z' q i = flagBit z q i) ↔ ∀ q, S q → Clear z q [0, 1, 2, 3] := by
  constructor
  · intro hsame q hq i hi
    have hlt : i < 4 := mem_low.mp hi
    rw [← hsame q i (hown i hlt), h q i (hown i hlt)]
    simp [hq, show ¬ 4 < i by omega]
  · intro hclear q i hi
    have hne : i ≠ 4 := fun heq => hi (heq ▸ h4)
    rw [h q i hi]
    by_cases hq : S q ∧ i < 4
    · rw [hclear q hq.1 i (mem_low.mpr hq.2)]
      rfl
    · rw [mask_misses hne hq, Bool.and_true]

/-- A call that takes `PG_FLAG_private` from the block that `allocate_block` finds. -/
theorem kept_iff_firstOf_clear {z' : Zone} {order : ℕ} {own : List ℕ} (hown : ∀ i < 4, i ∉ own)
    (h4 : 4 ∈ own) (hnone : findOrder z order = none → z' = z)
    (hsome : ∀ k, findOrder z order = some k → ∀ q i, i ∉ own →
      flagBit z' q i = (flagBit z q i && (decide (q ≠ firstOf z k) || decide (4 < i)))) :
    (∀ q i, i ∉ own → flagBit z' q i = flagBit z q i) ↔
      ∀ k, findOrder z order = some k → Clear z (firstOf z k) [0, 1, 2, 3] := by
  cases hk : findOrder z order with
  | none =>
    rw [hnone hk]
    exact ⟨fun _ _ h => (Option.some_ne_none _ h.symm).elim, fun _ _ _ _ => rfl⟩
  | some k =>
    rw [kept_iff_clear hown h4 (hsome k hk), forall_eq]
    exact ⟨fun h _ hk' => Option.some.inj hk' ▸ h, fun h => h k rfl⟩

theorem allocate_ownBitsOnly (s : Kernel) (order : ℕ) :
    OwnBitsOnly s (.allocate order) ↔ (Call.allocate order).NothingToLose s := by
  refine kept_iff_firstOf_clear (own_lt (.allocate order)) (own_private (.allocate order)) ?_ ?_
  · intro hk
    change (allocateBlock s.zone order).2 = s.zone
    rw [allocateBlock_of_none hk]
  · intro k hk q i hi
    exact flagBit_allocateBlock hk q (ne_private hi)

theorem free_ownBitsOnly (s : Kernel) (page order : ℕ) :
    OwnBitsOnly s (.free page order) ↔ (Call.free page order).NothingToLose s :=
  kept_iff_clear (own_lt (.free page order)) (own_private (.free page order))
    fun q _ hi => flagBit_freeBlock s.zone page order q (ne_private hi)

theorem getpages_ownBitsOnly (s : Kernel) (kc : KmemCache) :
    OwnBitsOnly s (.getpages kc) ↔ (Call.getpages kc).NothingToLose s := by
  refine kept_iff_firstOf_clear (own_lt (.getpages kc)) (own_private (.getpages kc)) ?_ ?_
  · intro hk
    change (kmemGetpages s kc).2.zone = s.zone
    rw [kmemGetpages, allocateBlock_of_none hk]
  · intro k hk q i hi
    have h8 : i ≠ 8 := fun h => hi (by rw [h]; simp [Call.own])
    have hbit := flagBit_kmemGetpages hk q (ne_private hi)
    rw [decide_eq_false h8, Bool.and_false, Bool.or_false] at hbit
    exact hbit

theorem mem_lost : i ∈ [0, 1, 2, 3, 5, 6, 7] ↔ i < 8 ∧ i ≠ 4 := by
  simp only [List.mem_cons, List.not_mem_nil, or_false]
  omega

theorem freepages_ownBitsOnly (s : Kernel) (kc : KmemCache) (addr : ℕ) :
    OwnBitsOnly s (.freepages kc addr) ↔ (Call.freepages kc addr).NothingToLose s := by
  have hbit : ∀ q i, i ≠ 4 → flagBit ((Call.freepages kc addr).run s).zone q i = _ :=
    fun q i hi => flagBit_kmemFreepages s kc addr q hi
  constructor
  · intro hsame
    refine ⟨fun q hq i hi => ?_, fun b hb i hi => ?_⟩
    · obtain ⟨hlt, hne⟩ := mem_lost.mp hi
      rw [← hsame q i (by simp [Call.own]; omega), hbit q i hne]
      simp [hq, show ¬ 8 < i by omega]
    · have hlt : i < 4 := mem_low.mp hi
      rw [← hsame b i (own_lt _ i hlt), hbit b i (by omega)]
      simp [hb, show ¬ 4 < i by omega]
  · rintro ⟨hrun, hjoined⟩ q i hi
    have hne : i ≠ 4 := ne_private hi
    have h8 : i ≠ 8 := fun h => hi (by rw [h]; simp [Call.own])
    rw [hbit q i hne]
    by_cases hq : InRun (virtToPage addr) (2 ^ kc.gfporder) q ∧ i < 8
    · rw [hrun q hq.1 i (mem_lost.mpr ⟨hq.2, hne⟩)]
      rfl
    · by_cases hb : q ∈ joinedPages s.zone (virtToPage addr) kc.gfporder ∧ i < 4
      · rw [hjoined q hb.1 i (mem_low.mpr hb.2)]
        rfl
      · rw [mask_misses h8 hq, mask_misses hne hb, Bool.and_true, Bool.and_true]

/-! ### Giving the pages back -/

/-- **`kmem_freepages` of what `kmem_getpages` gave takes `PG_FLAG_slab` from exactly these pages.** -/
def GivesBack (s : Kernel) (kc : KmemCache) : Prop :=
  ∀ p, (allocateBlock s.zone kc.gfporder).1 = some p → ∀ q,
    flagBit (kmemFreepages (kmemGetpages s kc).2 kc (kmemGetpages s kc).1).zone q 8 =
      (flagBit s.zone q 8 && decide (¬ InRun p (2 ^ kc.gfporder) q))

/-- The address of a page leads back to it if it does not wrap around. -/
theorem virtToPage_pageAddress_iff (p : ℕ) : virtToPage (pageAddress p) = p ↔ p < 2 ^ 18 := by
  unfold virtToPage pageAddress pa u32 pageSize pageOffset
  split_ifs <;> omega

theorem flagBit_pair (hk : findOrder s.zone kc.gfporder = some k) (q : ℕ) :
    flagBit (kmemFreepages (kmemGetpages s kc).2 kc (kmemGetpages s kc).1).zone q 8 =
      ((flagBit s.zone q 8 || decide (InRun (firstOf s.zone k) (2 ^ kc.gfporder) q)) &&
        decide (¬ InRun (virtToPage (pageAddress (firstOf s.zone k))) (2 ^ kc.gfporder) q)) := by
  rw [flagBit_kmemFreepages _ _ _ _ (by norm_num), flagBit_kmemGetpages hk _ (by norm_num),
    kmemGetpages_of_some hk]
  simp

theorem eq_of_inRun {p p' n : ℕ} (hn : 0 < n) (h : ∀ q, InRun p n q → InRun p' n q) : p' = p := by
  have hfirst := h p ⟨by omega, by omega⟩
  have hlast := h (p + n - 1) ⟨by omega, by omega⟩
  unfold InRun at hfirst hlast
  omega

theorem givesBack_iff (s : Kernel) (kc : KmemCache) : GivesBack s kc ↔
    ∀ k, findOrder s.zone kc.gfporder = some k → firstOf s.zone k < 2 ^ 18 := by
  constructor
  · intro hback k hk
    rw [← virtToPage_pageAddress_iff]
    refine eq_of_inRun (Nat.two_pow_pos kc.gfporder) fun q hq => ?_
    have hbit := hback _ (allocateBlock_fst hk) q
    rw [flagBit_pair hk] at hbit
    simpa [hq] using hbit
  · intro hlt p hp q
    cases hk : findOrder s.zone kc.gfporder with
    | none =>
      rw [allocateBlock_of_none hk] at hp
      cases hp
    | some k =>
      obtain rfl := Option.some.inj ((allocateBlock_fst hk).symm.trans hp)
      rw [flagBit_pair hk, (virtToPage_pageAddress_iff _).mpr (hlt k hk)]
      by_cases hq : InRun (firstOf s.zone k) (2 ^ kc.gfporder) q <;> simp [hq]

/-! ### The result -/

/-- **A call writes to its own flags only** if and only if the bits the masks clear by mistake are
clear, **and the pages of a cache lose `PG_FLAG_slab` when they are given back** if and only if the
first of them is below page `2 ^ 18`, whose address would wrap around. -/
theorem flagBits_iff (s : Kernel) (c : Call) (kc : KmemCache) :
    (OwnBitsOnly s c ↔ c.NothingToLose s) ∧
      (GivesBack s kc ↔ ∀ k, findOrder s.zone kc.gfporder = some k → firstOf s.zone k < 2 ^ 18) := by
  refine ⟨?_, givesBack_iff s kc⟩
  cases c with
  | allocate order => exact allocate_ownBitsOnly s order
  | free page order => exact free_ownBitsOnly s page order
  | getpages kc => exact getpages_ownBitsOnly s kc
  | freepages kc addr => exact freepages_ownBitsOnly s kc addr

/-- The kernel with more bits set in the flags of a page. -/
def withFlags (s : Kernel) (q : ℕ) (bits : BitVec 32) : Kernel :=
  { s with zone := s.zone.updPage q fun pg => { pg with flags := pg.flags ||| bits } }

/-- In a zone of two free pages, the first of them locked (bit 0) and taken (bit 6): `allocate_block`
unlocks the page, and it is not taken any more when `kmem_freepages` has it. -/
theorem masks_wipe_flags :
    let s := withFlags (plainKernel 2 (by decide)) 0 0x41#32
    let kc : KmemCache := default
    let s₁ := (kmemGetpages s kc).2
    let s₂ := kmemFreepages s₁ kc (kmemGetpages s kc).1
    (flagBit s.zone 0 0 = true ∧ flagBit ((Call.allocate 0).run s).zone 0 0 = false) ∧
      (flagBit s₁.zone 0 6 = true ∧ flagBit s₂.zone 0 6 = false) ∧
      ¬ OwnBitsOnly s (.allocate 0) ∧
      ¬ OwnBitsOnly s₁ (.freepages kc (kmemGetpages s kc).1) := by
  intro s kc s₁ s₂
  have hlocked : flagBit s.zone 0 0 = true ∧ flagBit ((Call.allocate 0).run s).zone 0 0 = false := by
    decide +kernel
  have htaken : flagBit s₁.zone 0 6 = true ∧ flagBit s₂.zone 0 6 = false := by
    decide +kernel
  refine ⟨hlocked, htaken, fun hown => ?_, fun hown => ?_⟩
  · have hsame := hown 0 0 (by decide)
    rw [hlocked.1, hlocked.2] at hsame
    cases hsame
  · have hsame : flagBit s₂.zone 0 6 = flagBit s₁.zone 0 6 := hown 0 6 (by simp [Call.own])
    rw [htaken.1, htaken.2] at hsame
    cases hsame

end YegaKernel.Slab.FlagBits
