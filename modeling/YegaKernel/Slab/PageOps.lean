import YegaKernel.Buddy.Undo
import YegaKernel.Slab.Objects

/-! # Pages for slabs

A cache takes pages from the zone for a new slab and gives them back. Between the zone and the slab
they are reserved: taken, but no slab's.

The loops over the page descriptors of a block change these descriptors only, and none of them sets
`PG_FLAG_private` (`Marks`); as the pages are taken, the zone represents the same blocks. -/

namespace YegaKernel.Slab.PageOps

open Lib.Links Lib.Word
open Buddy.State Buddy.Ops Buddy.FreeBlocks
open Buddy.Represent Buddy.Spec
open Slab.State (Kernel KmemCache pageAddress virtToPage pageOffset pa)
open Slab.Ops Slab.Invariant Slab.Queues Slab.Objects Function

/-! ### Loops over page descriptors -/

/-- The zones differ in the descriptors of the pages `I` only, and no flag `private` is set. -/
structure Marks (z z' : Zone) (I : ℕ → Prop) : Prop where
  present : z'.presentPages = z.presentPages
  nrFree : z'.nrFree = z.nrFree
  area : ∀ k, z'.links (Node.area k) = z.links (Node.area k)
  outside : ∀ q, ¬ I q → Untouched z z' q
  flag : ∀ q, pagePrivate z' q = true → pagePrivate z q = true

variable {z z' : Zone} {I : ℕ → Prop}

theorem links_of_untouched {q : ℕ} (h : Untouched z z' q) :
    z'.links (Node.lru q) = z.links (Node.lru q) := by
  obtain ⟨⟨hnext, hprev⟩, -⟩ := h
  change (z'.links (Node.lru q)).next = (z.links (Node.lru q)).next at hnext
  change (z'.links (Node.lru q)).prev = (z.links (Node.lru q)).prev at hprev
  rcases hz' : z'.links (Node.lru q) with ⟨a', b'⟩
  simp_all

theorem Marks.refl (z : Zone) (I : ℕ → Prop) : Marks z z I :=
  ⟨rfl, rfl, fun _ => rfl, fun _ _ => ⟨SameLinks.refl _ _, rfl⟩, fun _ h => h⟩

theorem Marks.trans {z'' : Zone} (h : Marks z z' I) (h' : Marks z' z'' I) : Marks z z'' I :=
  ⟨h'.present.trans h.present, h'.nrFree.trans h.nrFree, fun k => (h'.area k).trans (h.area k),
    fun q hq => (h.outside q hq).trans (h'.outside q hq), fun q hq => h.flag q (h'.flag q hq)⟩

theorem Marks.mono {J : ℕ → Prop} (h : Marks z z' I) (hIJ : ∀ q, I q → J q) : Marks z z' J :=
  ⟨h.present, h.nrFree, h.area, fun q hq => h.outside q fun hi => hq (hIJ q hi), h.flag⟩

theorem marks_foldl {f : Zone → ℕ → Zone} (hf : ∀ z p, Marks z (f z p) (· = p)) :
    ∀ (n p : ℕ) (z : Zone), Marks z ((List.range' p n).foldl f z) fun q => p ≤ q ∧ q < p + n
  | 0, _, z => Marks.refl z _
  | n + 1, p, z => by
    have hfirst : Marks z (f z p) fun q => p ≤ q ∧ q < p + (n + 1) :=
      (hf z p).mono fun q hq => by omega
    exact hfirst.trans ((marks_foldl hf n (p + 1) (f z p)).mono fun q hq => by omega)

theorem represents_of_marks {L : ℕ → List ℕ} (hr : Represents z L)
    (hm : Marks z z' I) (hI : ∀ q, I q → ¬ Covers L q) : Represents z' L := by
  have hcov : ∀ q, Covers L q → Untouched z z' q := fun q hq => hm.outside q fun hi => hI q hi hq
  refine ⟨hm.present ▸ hr.blocks, fun k hk => ?_, fun k hk => ?_, fun p hp => ?_, fun k p hp => ?_⟩
  · refine (hr.ring k hk).transport fun n hn => ?_
    rcases List.mem_cons.mp hn with rfl | hn
    · exact ⟨congrArg ListHead.next (hm.area k), congrArg ListHead.prev (hm.area k)⟩
    · obtain ⟨p, hp, rfl⟩ := List.mem_map.mp hn
      exact (hcov p (covers_of_mem hp)).1
  · rw [hm.nrFree]
    exact hr.nrFree k hk
  · rw [hm.present] at hp
    refine ⟨fun h => (hr.flag p hp).mp (hm.flag p h), fun ⟨k, hk⟩ => ?_⟩
    have hsame := (hcov p (covers_of_mem hk)).2
    have hold := (hr.flag p hp).mpr ⟨k, hk⟩
    unfold pagePrivate at hold ⊢
    rwa [hsame]
  · rw [(hcov p (covers_of_mem hp)).2]
    exact hr.order k p hp

theorem marks_updPage {f : Page → Page} (hf : ∀ pg : Page,
    (f pg).flags &&& pgFlagPrivate = pgFlagPrivate → pg.flags &&& pgFlagPrivate = pgFlagPrivate)
    (z : Zone) (p : ℕ) : Marks z (z.updPage p f) (· = p) := by
  refine ⟨rfl, rfl, fun _ => rfl, fun q hq => ⟨⟨rfl, rfl⟩, update_of_ne hq _ _⟩, fun q hq => ?_⟩
  by_cases h : q = p
  · subst h
    unfold pagePrivate Zone.updPage at hq
    simp only [update_self, decide_eq_true_eq] at hq
    unfold pagePrivate
    rw [decide_eq_true_eq]
    exact hf _ hq
  · unfold pagePrivate Zone.updPage at hq
    simp only [update_of_ne h] at hq
    exact hq

theorem private_or_slab (f : BitVec 32) :
    (f ||| pgFlagSlab) &&& pgFlagPrivate = f &&& pgFlagPrivate := by
  have hdis : pgFlagSlab &&& pgFlagPrivate = 0#32 := by decide
  ext i hi
  have hbit : (pgFlagSlab[i] && pgFlagPrivate[i]) = false := by
    rw [← BitVec.getElem_and, hdis, BitVec.getElem_zero]
  simp only [BitVec.getElem_and, BitVec.getElem_or, Bool.and_or_distrib_right, hbit, Bool.or_false]

theorem marks_setPagesSlab (z : Zone) (p n : ℕ) :
    Marks z (setPagesSlab z p n) fun q => p ≤ q ∧ q < p + n := by
  refine marks_foldl (fun z p => marks_updPage (fun pg h => ?_) z p) n p z
  rwa [private_or_slab] at h

theorem marks_clearPagesSlab (z : Zone) (p n : ℕ) :
    Marks z (clearPagesSlab z p n) fun q => p ≤ q ∧ q < p + n := by
  refine marks_foldl (fun z p => marks_updPage (fun pg h => ?_) z p) n p z
  rw [BitVec.and_assoc, show ((~~~1#32) <<< 8) &&& pgFlagPrivate = 0#32 by decide,
    BitVec.and_zero] at h
  exact absurd h (by decide)

theorem marks_mapPage (c d first : ℕ) (z : Zone) (p : ℕ) :
    Marks z (mapPage c d first z p) (· = p) := by
  have hupd := marks_updPage (f := fun pg => { pg with firstPage := first }) (fun _ h => h) z p
  refine ⟨rfl, rfl, fun k => ?_, fun q hq => ⟨?_, (hupd.outside q hq).2⟩, hupd.flag⟩
  · have hne : Node.area k ≠ Node.lru p := by simp
    exact update_of_ne hne (⟨Node.addr c, Node.addr d⟩ : ListHead) z.links
  · have hne : Node.lru q ≠ Node.lru p := fun h => hq (Node.lru.inj h)
    have hlinks : (mapPage c d first z p).links (Node.lru q) = z.links (Node.lru q) :=
      update_of_ne hne _ _
    exact ⟨congrArg ListHead.next hlinks, congrArg ListHead.prev hlinks⟩

theorem mapPages_inside (c d first : ℕ) : ∀ (n p : ℕ) (z : Zone) (q : ℕ), p ≤ q → q < p + n →
    ((List.range' p n).foldl (mapPage c d first) z).links (Node.lru q) =
      ⟨Node.addr c, Node.addr d⟩ ∧
      (((List.range' p n).foldl (mapPage c d first) z).pages q).firstPage = first
  | 0, _, _, _, _, _ => by omega
  | n + 1, p, z, q, hlo, hhi => by
    rw [List.range'_succ, List.foldl_cons]
    by_cases h : q = p
    · subst h
      -- the rest of the loop is behind this page
      have hrest := (marks_foldl (marks_mapPage c d first) n (q + 1) (mapPage c d first z q)).outside q
        (by omega)
      have hlinks : (mapPage c d first z q).links (Node.lru q) = ⟨Node.addr c, Node.addr d⟩ :=
        update_self _ _ _
      have hpage : ((mapPage c d first z q).pages q).firstPage = first := by
        simp [mapPage, Zone.updPage]
      exact ⟨(links_of_untouched hrest).trans hlinks, by rw [hrest.2, hpage]⟩
    · exact mapPages_inside c d first n (p + 1) _ q (by omega) (by omega)

/-! ### Taking pages and giving them back -/

/-- The pages of a block are reserved as well. -/
def Reserve (R : ℕ → Prop) (k p : ℕ) : ℕ → Prop := fun x => R x ∨ InBlock k p x

variable {s : Kernel} {W : Layout} {R : ℕ → Prop} {kc : KmemCache} {p : ℕ}

theorem pageAddress_eq (hp : p < 2 ^ 18) : pageAddress p = base p := by
  unfold pageAddress base pageSize pageOffset
  rw [u32_of_lt (by omega)]

theorem back_congr (h : Pages s W R) (hz : ∀ x, W.Owned x → Untouched s.zone z x) :
    ∀ c d, W.IsSlab c d → ∀ x, W.InSlab c d x →
      z.links (Node.lru x) = ⟨Node.addr c, Node.addr d⟩ ∧ (z.pages x).firstPage = W.page d := by
  intro c d hd x hx
  have hun := hz x ⟨c, d, hd, hx⟩
  rw [links_of_untouched hun, hun.2]
  exact h.back c d hd x hx

/-- A block that is taken from the zone. -/
structure Taken (n k p : ℕ) (R : ℕ → Prop) : Prop where
  aligned : 2 ^ k ∣ p
  bound : p + 2 ^ k ≤ n
  fresh : ∀ x, InBlock k p x → ¬ R x

/-- **`allocate_block`** reserves a block of pages. -/
theorem pages_allocateBlock (h : Pages s W R) (order : ℕ) :
    allocateBlock s.zone order = (none, s.zone) ∨
      ∃ p z, allocateBlock s.zone order = (some p, z) ∧ order < buddyGroups ∧
        Taken W.present order p R ∧ Pages { s with zone := z } W (Reserve R order p) := by
  obtain ⟨L, hrep, hL, hpool⟩ := h.rep
  rcases allocateBlock_spec hrep order with ⟨heq, -⟩ | ⟨p, z, L', heq, hmv, hal, hin, hcov, -, -⟩
  · exact .inl heq
  · obtain ⟨current, ps, htook⟩ := Buddy.Undo.took_of_some hrep heq
    have hbound : p + 2 ^ order ≤ W.present := by
      rw [← h.present]
      exact hrep.blocks.bound_of_covers hin
    have howned : ∀ x, W.Owned x → ¬ InBlock order p x := fun x hx hb =>
      hL x (.inr hx) (hin x hb)
    refine .inr ⟨p, z, heq, lt_of_le_of_lt htook.chosen.le htook.chosen.lt,
      ⟨hal, hbound, fun x hx hR => hL x (.inl hR) (hin x hx)⟩, ?_⟩
    refine ⟨hmv.present.trans h.present, h.present_le, ⟨L', hmv.rep, ?_, fun x => ?_⟩, h.aligned,
      h.bound, back_congr h fun x hx => ?_, ?_⟩
    · rintro x ((hR | hb) | hO) hc
      · exact hL x (.inl hR) ((hcov x).mp hc).1
      · exact ((hcov x).mp hc).2 hb
      · exact hL x (.inr hO) ((hcov x).mp hc).1
    · rw [hpool x, hcov x]
      unfold Reserve
      tauto
    · have hnot := hL x (.inr hx)
      exact hmv.untouched x hnot fun hc => hnot ((hcov x).mp hc).1
    · rintro x (hR | hb) hO
      · exact h.reserved x hR hO
      · exact howned x hO hb

/-- **`free_block`** gives a reserved block back. -/
theorem pages_freeBlock {order : ℕ} (h : Pages s W (Reserve R order p)) (ho : order < buddyGroups)
    (hp : Taken W.present order p R) : Pages { s with zone := freeBlock s.zone p order } W R := by
  obtain ⟨L, hrep, hL, hpool⟩ := h.rep
  have hmerging : Merging s.zone L order p :=
    ⟨hrep, ho, hp.aligned, by rw [h.present]; exact hp.bound, fun x hx => hL x (.inl (.inr hx))⟩
  obtain ⟨L', hmv, hcov, -, -⟩ := freeBlock_spec hmerging
  have howned : ∀ x, W.Owned x → ¬ Covers L' x := by
    intro x hx hc
    rcases (hcov x).mp hc with hc | hb
    · exact hL x (.inr hx) hc
    · exact h.reserved x (.inr hb) hx
  refine ⟨hmv.present.trans h.present, h.present_le, ⟨L', hmv.rep, ?_, fun x => ?_⟩, h.aligned,
    h.bound, back_congr h fun x hx => hmv.untouched x (hL x (.inr hx)) (howned x hx),
    fun x hR => h.reserved x (.inl hR)⟩
  · rintro x (hR | hO) hc
    · rcases (hcov x).mp hc with hc | hb
      · exact hL x (.inl (.inl hR)) hc
      · exact hp.fresh x hb hR
    · exact howned x hO hc
  · rw [hpool x, hcov x]
    unfold Reserve
    tauto

/-- Pages that are reserved can be marked. -/
theorem pages_marks (h : Pages s W R) {z : Zone} {I : ℕ → Prop} (hm : Marks s.zone z I)
    (hI : ∀ q, I q → R q) : Pages { s with zone := z } W R := by
  obtain ⟨L, hrep, hL, hpool⟩ := h.rep
  exact ⟨hm.present.trans h.present, h.present_le,
    ⟨L, represents_of_marks hrep hm fun q hq => hL q (.inl (hI q hq)), hL, hpool⟩, h.aligned, h.bound,
    back_congr h fun x hx => hm.outside x fun hi => h.reserved x (hI x hi) hx, h.reserved⟩

/-- **`kmem_getpages`** reserves a block of pages. -/
theorem kmemGetpages_spec (h : Pages s W R) (kc : KmemCache) :
    (kmemGetpages s kc = (0, s) ∧ allocateBlock s.zone kc.gfporder = (none, s.zone)) ∨
      ∃ p z, allocateBlock s.zone kc.gfporder = (some p, z) ∧
        kmemGetpages s kc = (base p, { s with zone := setPagesSlab z p (2 ^ kc.gfporder) }) ∧
        Taken W.present kc.gfporder p R ∧
        Pages { s with zone := setPagesSlab z p (2 ^ kc.gfporder) } W (Reserve R kc.gfporder p) := by
  rcases pages_allocateBlock h kc.gfporder with heq | ⟨p, z, heq, -, htaken, hpages⟩
  · exact .inl ⟨by rw [kmemGetpages, heq], heq⟩
  · refine .inr ⟨p, z, heq, ?_, htaken,
      pages_marks hpages (marks_setPagesSlab z p (2 ^ kc.gfporder)) fun q hq => .inr hq⟩
    have hbound := htaken.bound
    have hpos : 0 < 2 ^ kc.gfporder := by positivity
    have hple := h.present_le
    rw [kmemGetpages, heq]
    simp only
    rw [pageAddress_eq (by omega)]

/-- **`kmem_freepages`** gives a reserved block back. -/
theorem kmemFreepages_spec (kc : KmemCache) (addr : ℕ)
    (h : Pages s W (Reserve R kc.gfporder p)) (ho : kc.gfporder < buddyGroups)
    (hp : Taken W.present kc.gfporder p R) (haddr : virtToPage addr = p) :
    ∃ z, kmemFreepages s kc addr = { s with zone := z } ∧ Pages { s with zone := z } W R := by
  have hmarked := pages_marks h (marks_clearPagesSlab s.zone p (2 ^ kc.gfporder)) fun _ => .inr
  have hfreed := pages_freeBlock hmarked ho hp
  exact ⟨_, by unfold kmemFreepages; rw [haddr], hfreed⟩

/-- **`slab_map_pages`** writes the back pointers of a reserved block. -/
theorem slabMapPages_spec (kc : KmemCache) {objp c d : ℕ} (h : Pages s W (Reserve R kc.gfporder p))
    (hobjp : virtToPage objp = p) : ∃ z, slabMapPages s kc c d objp = { s with zone := z } ∧
      Pages { s with zone := z } W (Reserve R kc.gfporder p) ∧
      ∀ x, InBlock kc.gfporder p x →
        z.links (Node.lru x) = ⟨Node.addr c, Node.addr d⟩ ∧ (z.pages x).firstPage = p :=
  ⟨_, by unfold slabMapPages; rw [hobjp],
    pages_marks h (marks_foldl (marks_mapPage c d p) (2 ^ kc.gfporder) p s.zone) fun _ => .inr,
    fun x hx => mapPages_inside c d p _ p s.zone x hx.1 hx.2⟩

end YegaKernel.Slab.PageOps
