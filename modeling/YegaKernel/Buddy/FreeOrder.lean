import YegaKernel.Buddy.Account

/-! # The order of frees does not matter

The free blocks are determined by the free pages (`blocks_unique`): where two coalesced families of
dyadic blocks cover the same pages, a block of one that is finer than the block of the other around
it would leave two free buddies somewhere inside. So after blocks have been freed in any order the
lists hold the same blocks.

`free_block` also leaves the same `private` in every page descriptor. A page that is no start of a
free block keeps the value that `allocate_block` gave it, which is `0` for the start of an allocated
block: that is what it gets as well when it has been the start of a free block in between
(`Resting`).

`free_blocks_of_calls`: what is on the free lists after a run of allocations and frees does not depend
on the run, only on the pages that are out. -/

namespace YegaKernel.Buddy.FreeOrder

open Lib.Links Lib.Word Lib.Dyadic Relation
open Buddy.State Buddy.Ops Buddy.FreeBlocks
open Buddy.Represent Buddy.Spec Buddy.Run Buddy.Undo Buddy.Account

/-! ### The free pages determine the blocks -/

section Unique
variable {n n' : ℕ} {L L' : ℕ → List ℕ}

theorem inBlock_parent {k p : ℕ} (h : 2 ^ k ∣ p) :
    InBlock (k + 1) (p &&& buddy k p) p ∧ InBlock (k + 1) (p &&& buddy k p) (buddy k p) :=
  ⟨(inBlock_merge h p).mpr (Or.inl (inBlock_start k p)),
    (inBlock_merge h (buddy k p)).mpr (Or.inr (inBlock_start k _))⟩

theorem inBlock_of_nested {k j p q x y : ℕ} (hp : 2 ^ k ∣ p) (hq : 2 ^ j ∣ q) (hkj : k ≤ j)
    (hpx : InBlock k p x) (hqx : InBlock j q x) (hy : InBlock k p y) : InBlock j q y := by
  obtain ⟨h1, h2⟩ := nested hp hq hkj hpx.1 hpx.2 hqx.1 hqx.2
  exact ⟨h1.trans hy.1, lt_of_lt_of_le hy.2 h2⟩

theorem no_finer (hL : Blocks n L) {j q : ℕ} (hj : j < buddyGroups) (hq : 2 ^ j ∣ q)
    (hcov : ∀ x, InBlock j q x → Covers L x) : ∀ k, k < j → ∀ p ∈ L k, ¬ InBlock j q p := by
  intro k
  -- from a block inside to a smaller one inside
  induction k using Nat.strong_induction_on with
  | _ k ih =>
    intro hkj p hp hin
    have hal := hL.aligned k p hp
    obtain ⟨hpar, hpar'⟩ := inBlock_parent hal
    have hpal : 2 ^ (k + 1) ∣ p &&& buddy k p := (merge hal).1
    have hb : InBlock j q (buddy k p) := inBlock_of_nested hpal hq hkj hpar hin hpar'
    obtain ⟨i, r, hr, hbr⟩ := hcov _ hb
    have hral := hL.aligned i r hr
    have hbal : 2 ^ k ∣ buddy k p := by
      rcases (merge hal).2 with ⟨-, h2⟩ | ⟨-, h2⟩
      · rw [h2]
        exact hal.add dvd_rfl
      · exact (Nat.dvd_add_left dvd_rfl).mp (h2 ▸ hal)
    rcases Nat.lt_trichotomy i k with hik | rfl | hki
    · refine ih i hik (hik.trans hkj) r hr ?_
      exact inBlock_of_nested hral hq (hik.trans hkj).le hbr hb (inBlock_start i r)
    · have hrb : r = buddy i p := by
        obtain ⟨h1, h2⟩ := nested hral hbal le_rfl hbr.1 hbr.2 le_rfl (inBlock_start i _).2
        omega
      exact hL.coalesced i (by omega) p hp (hrb ▸ hr)
    · have hpr : InBlock i r p := inBlock_of_nested hpal hral hki hpar' hbr hpar
      exact hki.ne (hL.eq_of_inBlock hp hr (inBlock_start k p) hpr).1

theorem mem_of_covers (hL : Blocks n L) (hL' : Blocks n' L')
    (hcov : ∀ x, Covers L x ↔ Covers L' x) {k p : ℕ} (hp : p ∈ L k) : p ∈ L' k := by
  have hal := hL.aligned k p hp
  obtain ⟨j, q, hq, hpq⟩ := (hcov p).mp (covers_of_mem hp)
  have hal' := hL'.aligned j q hq
  rcases Nat.lt_trichotomy j k with hjk | rfl | hkj
  · have hin : InBlock k p q :=
      inBlock_of_nested hal' hal hjk.le hpq (inBlock_start k p) (inBlock_start j q)
    exact absurd hin (no_finer hL' (lt_of_mem hL hp) hal
      (fun x hx => (hcov x).mp ⟨k, p, hp, hx⟩) j hjk q hq)
  · obtain ⟨h1, h2⟩ := nested hal hal' le_rfl le_rfl (inBlock_start j p).2 hpq.1 hpq.2
    obtain rfl : p = q := by omega
    exact hq
  · exact absurd hpq (no_finer hL (lt_of_mem hL' hq) hal'
      (fun x hx => (hcov x).mpr ⟨j, q, hq, hx⟩) k hkj p hp)

/-- **Coalesced blocks are determined by the pages they cover.** -/
theorem blocks_unique (hL : Blocks n L) (hL' : Blocks n' L') (hcov : ∀ x, Covers L x ↔ Covers L' x)
    (k p : ℕ) : p ∈ L k ↔ p ∈ L' k :=
  ⟨mem_of_covers hL hL' hcov, mem_of_covers hL' hL fun x => (hcov x).symm⟩

end Unique

/-! ### The field `private` -/

/-- A page without the flag `private` has the value `f` in the field, which is `0` for the
others. -/
structure Resting (f : ℕ → ℕ) (z : Zone) : Prop where
  unflagged : ∀ q, pagePrivate z q = false → (z.pages q).priv = f q
  flagged : ∀ q, pagePrivate z q = true → f q = 0

section Resting
variable {f : ℕ → ℕ} {z : Zone} {k p : ℕ}

theorem Resting.takeBlock (h : Resting f z) (hp : f p = 0) : Resting f (takeBlock z k p) := by
  refine ⟨fun q hq => ?_, fun q hq => ?_⟩
  · by_cases hqp : q = p
    · rw [hqp, takeBlock_priv, hp]
    · rw [takeBlock_private] at hq
      rw [takeBlock_pages_of_ne z k hqp]
      exact h.unflagged q (by simpa [hqp] using hq)
  · rw [takeBlock_private, Bool.and_eq_true] at hq
    exact h.flagged q hq.1

theorem Resting.putBlock (h : Resting f z) (hp : f p = 0) : Resting f (putBlock z k p) := by
  refine ⟨fun q hq => ?_, fun q hq => ?_⟩
  · rw [putBlock_private, Bool.or_eq_false_iff, decide_eq_false_iff_not] at hq
    rw [putBlock_pages_of_ne z k hq.2]
    exact h.unflagged q hq.1
  · rw [putBlock_private, Bool.or_eq_true, decide_eq_true_eq] at hq
    rcases hq with hq | rfl
    · exact h.flagged q hq
    · exact hp

theorem Resting.mergeBlock : ∀ (fuel order idx : ℕ) (z : Zone), Resting f z → f idx = 0 →
    2 ^ order ∣ idx → Resting f (mergeBlock fuel order idx z).2.2 ∧
      f (mergeBlock fuel order idx z).2.1 = 0 := by
  intro fuel
  induction fuel with
  | zero => exact fun _ _ _ h hidx _ => ⟨h, hidx⟩
  | succ fuel ih =>
    intro order idx z h hidx hal
    by_cases hgo : order < buddyGroups - 1 ∧ buddy order idx < z.presentPages ∧
        pageIsBuddy z (buddy order idx) order = true
    · obtain ⟨ho, hb, hbud⟩ := hgo
      have hzero : f (buddy order idx) = 0 :=
        h.flagged _ (Bool.and_eq_true_iff.mp hbud).1
      rw [mergeBlock_succ ho hb hbud]
      refine ih (order + 1) _ _ (h.takeBlock hzero) ?_ (merge hal).1
      rcases (merge hal).2 with ⟨h1, -⟩ | ⟨h1, -⟩
      · rw [h1, hidx]
      · rw [h1, hzero]
    · rw [mergeBlock_stop hgo]
      exact ⟨h, hidx⟩

theorem Resting.freeBlock (h : Resting f z) (hp : f p = 0) (hal : 2 ^ k ∣ p) :
    Resting f (freeBlock z p k) := by
  have h0 : Resting f { z with freePages := u32 (z.freePages + 2 ^ k) } := ⟨h.unflagged, h.flagged⟩
  obtain ⟨hm, hidx⟩ := Resting.mergeBlock buddyGroups k p _ h0 hp hal
  exact hm.putBlock hidx

end Resting

/-! ### Freeing several blocks -/

/-- The page and the order of a block that `allocate_block` has returned: none of its pages is free,
and the field `private` of the first one is `0`. -/
structure Allocated (z : Zone) (b : ℕ × ℕ) : Prop where
  order : b.2 < buddyGroups
  aligned : 2 ^ b.2 ∣ b.1
  bound : b.1 + 2 ^ b.2 ≤ z.presentPages
  taken : ∀ x, b.1 ≤ x → x < b.1 + 2 ^ b.2 → ¬ PageFree z x
  priv : (z.pages b.1).priv = 0

/-- The blocks do not overlap. -/
def BlocksApart (b c : ℕ × ℕ) : Prop := b.1 + 2 ^ b.2 ≤ c.1 ∨ c.1 + 2 ^ c.2 ≤ b.1

instance (b c : ℕ × ℕ) : Decidable (BlocksApart b c) := by unfold BlocksApart; infer_instance

/-- `free_block` on one block after the other. -/
def freeAll (z : Zone) (bs : List (ℕ × ℕ)) : Zone := bs.foldl (fun z b => freeBlock z b.1 b.2) z

/-- The zones have the same free blocks, counters, and flags and fields `private`. -/
structure SameFree (z z' : Zone) : Prop where
  blocks : ∀ k < buddyGroups, ∀ p, p ∈ freeList z k ↔ p ∈ freeList z' k
  nrFree : ∀ k < buddyGroups, z.nrFree k = z'.nrFree k
  freePages : z.freePages = z'.freePages
  flag : ∀ p, pagePrivate z p = pagePrivate z' p
  priv : ∀ p, (z.pages p).priv = (z'.pages p).priv

/-- What freeing the blocks `bs` leaves. -/
structure AllFreed (z z' : Zone) (L L' : ℕ → List ℕ) (bs : List (ℕ × ℕ)) : Prop where
  rep : Represents z' L'
  present : z'.presentPages = z.presentPages
  covers : ∀ x, Covers L' x ↔ Covers L x ∨ ∃ b ∈ bs, InBlock b.2 b.1 x
  outside : ∀ q, z.presentPages ≤ q → z'.pages q = z.pages q

theorem not_covers_of_le {z : Zone} {L : ℕ → List ℕ} (hr : Represents z L) {q : ℕ}
    (hq : z.presentPages ≤ q) : ¬ Covers L q := fun ⟨_, _, hp, hin⟩ =>
  absurd (hin.lt_bound hr.blocks hp) (by omega)

theorem freeAll_spec : ∀ (bs : List (ℕ × ℕ)) (z : Zone) (L : ℕ → List ℕ), Represents z L →
    (∀ b ∈ bs, b.2 < buddyGroups ∧ 2 ^ b.2 ∣ b.1 ∧ b.1 + 2 ^ b.2 ≤ z.presentPages ∧
      ∀ x, InBlock b.2 b.1 x → ¬ Covers L x) → bs.Pairwise BlocksApart →
    ∃ L', AllFreed z (freeAll z bs) L L' bs
  | [], z, L, hr, _, _ => ⟨L, hr, rfl, by simp, fun _ _ => rfl⟩
  | b :: bs, z, L, hr, hbs, hdis => by
    obtain ⟨ho, hal, hbound, hfresh⟩ := hbs b List.mem_cons_self
    obtain ⟨hapart, hdis'⟩ := List.pairwise_cons.mp hdis
    obtain ⟨L₁, hmv, hcov, -, -⟩ := freeBlock_spec (⟨hr, ho, hal, hbound, hfresh⟩ :
      Merging z L b.2 b.1)
    have hnext : ∀ c ∈ bs, c.2 < buddyGroups ∧ 2 ^ c.2 ∣ c.1 ∧
        c.1 + 2 ^ c.2 ≤ (freeBlock z b.1 b.2).presentPages ∧
        ∀ x, InBlock c.2 c.1 x → ¬ Covers L₁ x := by
      intro c hc
      obtain ⟨ho', hal', hbound', hfresh'⟩ := hbs c (List.mem_cons_of_mem b hc)
      refine ⟨ho', hal', by rwa [hmv.present], fun x hx hcx => ?_⟩
      rcases (hcov x).mp hcx with hcx | hbx
      · exact hfresh' x hx hcx
      · have hap := hapart c hc
        unfold BlocksApart at hap
        unfold InBlock at hx hbx
        omega
    obtain ⟨L', hrest⟩ := freeAll_spec bs _ L₁ hmv.rep hnext hdis'
    refine ⟨L', hrest.rep, hrest.present.trans hmv.present, fun x => ?_, fun q hq => ?_⟩
    · rw [hrest.covers x, hcov x]
      simp only [List.mem_cons, exists_eq_or_imp, or_assoc]
    · have hq' : (freeBlock z b.1 b.2).presentPages ≤ q := by rwa [hmv.present]
      have hout := hrest.outside q hq'
      exact hout.trans (hmv.untouched q (not_covers_of_le hr hq) (not_covers_of_le hmv.rep hq')).2

theorem freeAll_resting {f : ℕ → ℕ} : ∀ (bs : List (ℕ × ℕ)) (z : Zone), Resting f z →
    (∀ b ∈ bs, f b.1 = 0 ∧ 2 ^ b.2 ∣ b.1) → Resting f (freeAll z bs)
  | [], _, h, _ => h
  | b :: bs, z, h, hbs => by
    obtain ⟨hzero, hal⟩ := hbs b List.mem_cons_self
    exact freeAll_resting bs _ (h.freeBlock hzero hal) fun c hc => hbs c (List.mem_cons_of_mem b hc)

theorem freePages_mergeBlock : ∀ (fuel order idx : ℕ) (z : Zone),
    (mergeBlock fuel order idx z).2.2.freePages = z.freePages
  | 0, _, _, _ => rfl
  | fuel + 1, order, idx, z => by
    by_cases hgo : order < buddyGroups - 1 ∧ buddy order idx < z.presentPages ∧
        pageIsBuddy z (buddy order idx) order = true
    · rw [mergeBlock_succ hgo.1 hgo.2.1 hgo.2.2, freePages_mergeBlock fuel]
      rfl
    · rw [mergeBlock_stop hgo]

theorem freePages_freeAll : ∀ (bs : List (ℕ × ℕ)) (z : Zone),
    (freeAll z bs).freePages = bs.foldl (fun n b => u32 (n + 2 ^ b.2)) z.freePages
  | [], _ => rfl
  | b :: bs, z => by
    have hone : (freeBlock z b.1 b.2).freePages = u32 (z.freePages + 2 ^ b.2) :=
      freePages_mergeBlock buddyGroups b.2 b.1 { z with freePages := u32 (z.freePages + 2 ^ b.2) }
    rw [List.foldl_cons, ← hone]
    exact freePages_freeAll bs _

theorem freePages_perm {bs bs' : List (ℕ × ℕ)} (h : bs.Perm bs') (z : Zone) :
    (freeAll z bs).freePages = (freeAll z bs').freePages := by
  rw [freePages_freeAll, freePages_freeAll]
  have hcomm : RightCommutative fun (n : ℕ) (b : ℕ × ℕ) => u32 (n + 2 ^ b.2) := ⟨fun n b c => by
    unfold u32
    omega⟩
  exact h.foldl_eq z.freePages

/-! ### Allocated blocks -/

/-- What `allocate_block` returns is allocated. -/
theorem allocated_of_allocateBlock {z : Zone} (hinv : BuddyInvariant z) {order p : ℕ}
    (ho : order < buddyGroups) (hp : (allocateBlock z order).1 = some p) :
    Allocated (allocateBlock z order).2 (p, order) := by
  obtain ⟨L, hr⟩ := buddyInvariant_iff.mp hinv
  rcases allocateBlock_spec hr order with ⟨heq, -⟩ | ⟨q, z₁, L', heq, hmv, hal, hin, hcov, -, -⟩
  · rw [heq] at hp
    exact absurd hp (by simp)
  · rw [heq] at hp ⊢
    obtain rfl := Option.some.inj hp
    refine ⟨ho, hal, ?_, fun x hlo hhi hf => ?_, allocateBlock_priv hr heq⟩
    · rw [hmv.present]
      exact hr.blocks.bound_of_covers hin
    · exact ((hcov x).mp ((hmv.rep.pageFree_iff x).mp hf)).2 ⟨hlo, hhi⟩

/-- It stays so when other blocks are allocated. -/
theorem Allocated.allocateBlock {z : Zone} (hinv : BuddyInvariant z) {b : ℕ × ℕ}
    (hb : Allocated z b) (order : ℕ) : Allocated (allocateBlock z order).2 b := by
  obtain ⟨L, hr⟩ := buddyInvariant_iff.mp hinv
  rcases allocateBlock_spec hr order with ⟨heq, -⟩ | ⟨q, z₁, L', heq, hmv, -, -, hcov, -, -⟩
  · rw [heq]
    exact hb
  · rw [heq]
    have htaken : ∀ x, b.1 ≤ x → x < b.1 + 2 ^ b.2 → ¬ PageFree z₁ x := fun x hlo hhi hf =>
      hb.taken x hlo hhi ((hr.pageFree_iff x).mpr ((hcov x).mp ((hmv.rep.pageFree_iff x).mp hf)).1)
    have hstart : b.1 < b.1 + 2 ^ b.2 := (inBlock_start b.2 b.1).2
    refine ⟨hb.order, hb.aligned, by rw [hmv.present]; exact hb.bound, htaken, ?_⟩
    have hun := hmv.untouched b.1
      (fun hc => hb.taken b.1 le_rfl hstart ((hr.pageFree_iff _).mpr hc))
      (fun hc => htaken b.1 le_rfl hstart ((hmv.rep.pageFree_iff _).mpr hc))
    rw [hun.2]
    exact hb.priv

/-! ### Two orders -/

section Orders
variable {z : Zone} {L L₁ L₂ : ℕ → List ℕ} {bs bs' : List (ℕ × ℕ)}

theorem allFreed_of_allocated (hr : Represents z L) (hbs : ∀ b ∈ bs, Allocated z b)
    (hdis : bs.Pairwise BlocksApart) : ∃ L', AllFreed z (freeAll z bs) L L' bs :=
  freeAll_spec bs z L hr (fun b hb => ⟨(hbs b hb).order, (hbs b hb).aligned, (hbs b hb).bound,
    fun x hx hc => (hbs b hb).taken x hx.1 hx.2 ((hr.pageFree_iff x).mpr hc)⟩) hdis

/-- A page that is no start of a free block has the value it had, or `0` if it was one. -/
theorem resting_freeAll (hbs : ∀ b ∈ bs, Allocated z b) :
    Resting (fun q => if pagePrivate z q then 0 else (z.pages q).priv) (freeAll z bs) := by
  refine freeAll_resting bs z ⟨fun q hq => by simp [hq], fun q hq => by simp [hq]⟩
    fun b hb => ⟨?_, (hbs b hb).aligned⟩
  simp only [(hbs b hb).priv, ite_self]

theorem flag_eq_of_allFreed (h₁ : AllFreed z (freeAll z bs) L L₁ bs)
    (h₂ : AllFreed z (freeAll z bs') L L₂ bs') (hmem : ∀ k p, p ∈ L₁ k ↔ p ∈ L₂ k) (p : ℕ) :
    pagePrivate (freeAll z bs) p = pagePrivate (freeAll z bs') p := by
  by_cases hp : p < z.presentPages
  · rw [Bool.eq_iff_iff, h₁.rep.flag p (by rwa [h₁.present]), h₂.rep.flag p (by rwa [h₂.present])]
    simp only [hmem]
  · unfold pagePrivate
    rw [h₁.outside p (by omega), h₂.outside p (by omega)]

theorem sameFree_of_perm (hinv : BuddyInvariant z) (hbs : ∀ b ∈ bs, Allocated z b)
    (hdis : bs.Pairwise BlocksApart) (hperm : bs.Perm bs') :
    SameFree (freeAll z bs) (freeAll z bs') := by
  obtain ⟨L, hr⟩ := buddyInvariant_iff.mp hinv
  have hbs' : ∀ b ∈ bs', Allocated z b := fun b hb => hbs b (hperm.mem_iff.mpr hb)
  have hdis' : bs'.Pairwise BlocksApart :=
    (hperm.pairwise_iff fun {b c} (h : BlocksApart b c) => h.symm).mp hdis
  obtain ⟨L₁, h₁⟩ := allFreed_of_allocated hr hbs hdis
  obtain ⟨L₂, h₂⟩ := allFreed_of_allocated hr hbs' hdis'
  have hcov : ∀ x, Covers L₁ x ↔ Covers L₂ x := fun x => by
    rw [h₁.covers x, h₂.covers x]
    simp only [hperm.mem_iff]
  have hmem := blocks_unique h₁.rep.blocks h₂.rep.blocks hcov
  have hflag := flag_eq_of_allFreed h₁ h₂ hmem
  refine ⟨fun k hk p => ?_, fun k hk => ?_, freePages_perm hperm z, hflag, fun p => ?_⟩
  · rw [h₁.rep.freeList_eq hk, h₂.rep.freeList_eq hk, hmem]
  · rw [h₁.rep.nrFree k hk, h₂.rep.nrFree k hk]
    exact ((List.perm_ext_iff_of_nodup (h₁.rep.blocks.nodup k) (h₂.rep.blocks.nodup k)).mpr
      (hmem k)).length_eq
  · rcases hf : pagePrivate (freeAll z bs) p
    · rw [(resting_freeAll hbs).unflagged p hf, (resting_freeAll hbs').unflagged p (hflag p ▸ hf)]
    · by_cases hp : p < z.presentPages
      · obtain ⟨k, hk⟩ := (h₁.rep.flag p (by rwa [h₁.present])).mp hf
        rw [h₁.rep.order k p hk, h₂.rep.order k p ((hmem k p).mp hk)]
      · rw [h₁.outside p (by omega), h₂.outside p (by omega)]

theorem freeList_of_pageFree {z₁ z₂ : Zone} (h₁ : BuddyInvariant z₁) (h₂ : BuddyInvariant z₂)
    (hpages : ∀ x, PageFree z₁ x ↔ PageFree z₂ x) {k : ℕ} (hk : k < buddyGroups) (p : ℕ) :
    p ∈ freeList z₁ k ↔ p ∈ freeList z₂ k := by
  obtain ⟨L₁, hr₁⟩ := buddyInvariant_iff.mp h₁
  obtain ⟨L₂, hr₂⟩ := buddyInvariant_iff.mp h₂
  rw [hr₁.freeList_eq hk, hr₂.freeList_eq hk]
  refine blocks_unique hr₁.blocks hr₂.blocks (fun x => ?_) k p
  rw [← hr₁.pageFree_iff, ← hr₂.pageFree_iff, hpages]

end Orders

/-- **The order of the frees does not matter**: in any order they leave the same free blocks,
counters and page descriptors. And the free blocks are a function of the free pages. -/
theorem freeAll_of_perm {z : Zone} (hinv : BuddyInvariant z) {bs bs' : List (ℕ × ℕ)}
    (hbs : ∀ b ∈ bs, Allocated z b) (hdis : bs.Pairwise BlocksApart) (hperm : bs.Perm bs') :
    SameFree (freeAll z bs) (freeAll z bs') ∧
      ∀ z₁ z₂, BuddyInvariant z₁ → BuddyInvariant z₂ → (∀ x, PageFree z₁ x ↔ PageFree z₂ x) →
        ∀ k < buddyGroups, ∀ p, p ∈ freeList z₁ k ↔ p ∈ freeList z₂ k :=
  ⟨sameFree_of_perm hinv hbs hdis hperm,
    fun _ _ h₁ h₂ hpages _ hk p => freeList_of_pageFree h₁ h₂ hpages hk p⟩

/-- A zone of eight pages, from which a page and then two blocks of two pages are allocated. -/
def threeTaken : Zone := (allocateBlock (allocateBlock (allocateBlock eightFree 0).2 1).2 1).2

theorem buddyInvariant_allocateBlock {z : Zone} (hinv : BuddyInvariant z) {order : ℕ}
    (ho : order < buddyGroups) : BuddyInvariant (allocateBlock z order).2 :=
  buddyInvariant_iff.mpr (Step.represents (.allocate order ho) (buddyInvariant_iff.mp hinv))

theorem freeAll_threeTaken :
    SameFree (freeAll threeTaken [(0, 0), (2, 1), (4, 1)])
      (freeAll threeTaken [(4, 1), (0, 0), (2, 1)]) := by
  have ho : 1 < buddyGroups := by decide
  have hinv₁ := buddyInvariant_allocateBlock buddyInvariant_eightFree (Nat.zero_lt_of_lt ho)
  have hinv₂ := buddyInvariant_allocateBlock hinv₁ ho
  refine (freeAll_of_perm (buddyInvariant_allocateBlock hinv₂ ho) (fun b hb => ?_) (by decide)
    (by decide)).1
  simp only [List.mem_cons, List.not_mem_nil, or_false] at hb
  rcases hb with rfl | rfl | rfl
  · exact ((allocated_of_allocateBlock buddyInvariant_eightFree (Nat.zero_lt_of_lt ho)
      (by decide +kernel)).allocateBlock hinv₁ 1).allocateBlock hinv₂ 1
  · exact (allocated_of_allocateBlock hinv₁ ho (by decide +kernel)).allocateBlock hinv₂ 1
  · exact allocated_of_allocateBlock hinv₂ ho (by decide +kernel)

/-! ### Any history -/

theorem perm_of_covers {z₁ z₂ : Zone} {L₁ L₂ : ℕ → List ℕ} (hr₁ : Represents z₁ L₁)
    (hr₂ : Represents z₂ L₂) (hcov : ∀ x, Covers L₁ x ↔ Covers L₂ x) (k : ℕ) : (L₁ k).Perm (L₂ k) :=
  (List.perm_ext_iff_of_nodup (hr₁.blocks.nodup k) (hr₂.blocks.nodup k)).mpr
    (blocks_unique hr₁.blocks hr₂.blocks hcov k)

/-- **The free lists have no history.** In every run the pages that were free at first are divided
into free ones and those handed out; and two runs that leave the same pages with their clients leave
the same blocks on every list. -/
theorem free_blocks_of_calls {z : Zone} (hinv : BuddyInvariant z) {s₁ s₂ : Zone × List (ℕ × ℕ)}
    (h₁ : ReflTransGen Call (z, []) s₁) (h₂ : ReflTransGen Call (z, []) s₂)
    (hsame : ∀ x, InBlocks s₁.2 x ↔ InBlocks s₂.2 x) :
    (∀ x, PageFree z x ↔ PageFree s₁.1 x ∨ InBlocks s₁.2 x) ∧
      (∀ x, PageFree s₁.1 x → ¬ InBlocks s₁.2 x) ∧
      ∀ k < buddyGroups, (freeList s₁.1 k).Perm (freeList s₂.1 k) ∧ s₁.1.nrFree k = s₂.1.nrFree k := by
  obtain ⟨L, hr⟩ := buddyInvariant_iff.mp hinv
  obtain ⟨-, L₁, hr₁, hh₁, hpages₁⟩ := step_of_calls hr h₁
  obtain ⟨-, L₂, hr₂, hh₂, hpages₂⟩ := step_of_calls hr h₂
  have hout₁ : ∀ x, Covers L₁ x → ¬ InBlocks s₁.2 x := fun x hx ⟨b, hb, hin⟩ =>
    hh₁.fresh b hb x hin hx
  have hout₂ : ∀ x, Covers L₂ x → ¬ InBlocks s₂.2 x := fun x hx ⟨b, hb, hin⟩ =>
    hh₂.fresh b hb x hin hx
  have hcov : ∀ x, Covers L₁ x ↔ Covers L₂ x := by
    intro x
    have hstart := (hpages₁ x).trans (hpages₂ x).symm
    have hapart₁ := hout₁ x
    have hapart₂ := hout₂ x
    have hsame := hsame x
    tauto
  refine ⟨fun x => ?_, fun x hx => hout₁ x ((hr₁.pageFree_iff x).mp hx), fun k hk => ?_⟩
  · rw [hr.pageFree_iff, hr₁.pageFree_iff, hpages₁]
  · have hperm := perm_of_covers hr₁ hr₂ hcov k
    rw [hr₁.freeList_eq hk, hr₂.freeList_eq hk, hr₁.nrFree k hk, hr₂.nrFree k hk]
    exact ⟨hperm, hperm.length_eq⟩

/-- A page is allocated and given back. -/
theorem free_blocks_eightPages :
    (allocateBlock eightFree 0).1 = some 0 ∧ ∀ k < buddyGroups,
      (freeList (freeBlock (allocateBlock eightFree 0).2 0 0) k).Perm (freeList eightFree k) := by
  have hsome : (allocateBlock eightFree 0).1 = some 0 := by decide +kernel
  have halloc : Call (eightFree, []) _ := .allocate 0 (by decide)
  rw [hsome] at halloc
  have hrun := (ReflTransGen.single halloc).tail (.free (0, 0) List.mem_cons_self)
  have hsame := free_blocks_of_calls buddyInvariant_eightFree hrun .refl
    fun x => by simp
  exact ⟨hsome, fun k hk => (hsame.2.2 k hk).1⟩

end YegaKernel.Buddy.FreeOrder
