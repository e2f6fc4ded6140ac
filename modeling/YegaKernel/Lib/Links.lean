import Mathlib.Data.List.Chain
import Mathlib.Data.List.Nodup
import Mathlib.Tactic

/-! # Intrusive circular lists

A store of list nodes: every node `n` has a `next` and a `prev` word, read and written in place. The
operations are those of a kernel list: a node is linked in between two others, or unlinked.

The store is a parameter (`LinkStore`). `Apart a b` says that the link words of `a` and of `b` are
different cells; for a store indexed by nodes this is `a ≠ b`, for nodes that live in one flat
memory it is that the two-word ranges do not overlap.

* `Ring s h xs`: in the store `s` the head `h` represents the sequence `xs`: going round by `next`
  one meets exactly `xs`, every `prev` is the converse of the `next`, and the nodes are apart.
* `Ring.listAdd`, `Ring.listAddTail`, `Ring.listDel`: the operations on the represented sequence.
* `Ring.sameLinks_listAdd` and the like: a ring whose nodes are apart from those of the ring operated
  on is unchanged.
* `listNodes`: the walk from the head, which on a ring is the sequence (`Ring.listNodes_eq`).
* `Confined L null s`: the links do not lead out of the set `L`, whether or not its nodes are on
  well-formed lists. -/

namespace YegaKernel.Lib.Links

/-- **A store of list nodes** of type `ν`, with the cells of different nodes independent as far as
`Apart` says. The laws are proved by default for a store in which every node has its own two words,
given by a function. -/
class LinkStore (σ : Type) (ν : outParam Type) where
  next : σ → ν → ν
  prev : σ → ν → ν
  setNext : σ → ν → ν → σ
  setPrev : σ → ν → ν → σ
  Apart : ν → ν → Prop := fun a b => a ≠ b
  apart_symm : ∀ {a b : ν}, Apart a b → Apart b a := by exact Ne.symm
  apart_irrefl : ∀ {a : ν}, ¬ Apart a a := by exact fun h => h rfl
  next_setNext_self : ∀ (s : σ) (a v : ν), next (setNext s a v) a = v := by simp
  next_setNext_apart : ∀ (s : σ) {a b : ν} (v : ν), Apart a b → next (setNext s a v) b = next s b := by
    intro s a b v h; simp [Function.update_of_ne (Ne.symm h)]
  next_setPrev_self : ∀ (s : σ) (a v : ν), next (setPrev s a v) a = next s a := by simp
  next_setPrev_apart : ∀ (s : σ) {a b : ν} (v : ν), Apart a b → next (setPrev s a v) b = next s b := by
    intro s a b v h; simp [Function.update_of_ne (Ne.symm h)]
  prev_setPrev_self : ∀ (s : σ) (a v : ν), prev (setPrev s a v) a = v := by simp
  prev_setPrev_apart : ∀ (s : σ) {a b : ν} (v : ν), Apart a b → prev (setPrev s a v) b = prev s b := by
    intro s a b v h; simp [Function.update_of_ne (Ne.symm h)]
  prev_setNext_self : ∀ (s : σ) (a v : ν), prev (setNext s a v) a = prev s a := by simp
  prev_setNext_apart : ∀ (s : σ) {a b : ν} (v : ν), Apart a b → prev (setNext s a v) b = prev s b := by
    intro s a b v h; simp [Function.update_of_ne (Ne.symm h)]

open LinkStore Function

variable {σ ν : Type} [LinkStore σ ν]

theorem ne_of_apart {a b : ν} (h : Apart σ a b) : a ≠ b := by
  rintro rfl
  exact apart_irrefl h

/-! ### The operations -/

/-- A head that is linked to itself. -/
def initListHead (s : σ) (list : ν) : σ := setPrev (setNext s list list) list list

/-- Both words of a node cleared to the node `null`. -/
def initListNull (null : ν) (s : σ) (node : ν) : σ := setPrev (setNext s node null) node null

/-- `mid` linked in between `beg` and `fin`. -/
def genericAdd (s : σ) (beg mid fin : ν) : σ :=
  setPrev (setNext (setPrev (setNext s mid fin) mid beg) beg mid) fin mid

/-- The neighbours of `mid` linked to each other. -/
def genericDel (s : σ) (mid : ν) : σ :=
  let s := setPrev s (next s mid) (prev s mid)
  setNext s (prev s mid) (next s mid)

def listAdd (s : σ) (head new : ν) : σ := genericAdd s head new (next s head)

def listAddTail (s : σ) (head new : ν) : σ := genericAdd s (prev s head) new head

def listDel (null : ν) (s : σ) (entry : ν) : σ := initListNull null (genericDel s entry) entry

def listDelInit (s : σ) (entry : ν) : σ := initListHead (genericDel s entry) entry

def listIsEmpty [DecidableEq ν] (s : σ) (head : ν) : Bool :=
  next s head = head && prev s head = head

/-- The nodes met from `pos` by `next`, up to the head and at most `fuel` of them. -/
def walkFrom [DecidableEq ν] (s : σ) (head : ν) : ℕ → ν → List ν
  | 0, _ => []
  | fuel + 1, pos => if pos = head then [] else pos :: walkFrom s head fuel (next s pos)

/-- The nodes a traversal of the list visits, in order (at most `fuel` of them). -/
def listNodes [DecidableEq ν] (fuel : ℕ) (s : σ) (head : ν) : List ν :=
  walkFrom s head fuel (next s head)

/-- A traversal of the list meets the node. -/
def OnList [DecidableEq ν] (s : σ) (head node : ν) : Prop := ∃ fuel, node ∈ listNodes fuel s head

/-! ### What a write leaves alone -/

/-- Both link words of `b` are the same in the two stores. -/
def SameLinks (s s' : σ) (b : ν) : Prop := next s' b = next s b ∧ prev s' b = prev s b

theorem SameLinks.refl (s : σ) (b : ν) : SameLinks s s b := ⟨rfl, rfl⟩

theorem SameLinks.trans {s s' s'' : σ} {b : ν} (h : SameLinks s s' b) (h' : SameLinks s' s'' b) :
    SameLinks s s'' b := ⟨h'.1.trans h.1, h'.2.trans h.2⟩

theorem sameLinks_setNext {a b : ν} (s : σ) (v : ν) (h : Apart σ a b) :
    SameLinks s (setNext s a v) b := ⟨next_setNext_apart s v h, prev_setNext_apart s v h⟩

theorem sameLinks_setPrev {a b : ν} (s : σ) (v : ν) (h : Apart σ a b) :
    SameLinks s (setPrev s a v) b := ⟨next_setPrev_apart s v h, prev_setPrev_apart s v h⟩

theorem sameLinks_initListHead {a b : ν} (s : σ) (h : Apart σ a b) :
    SameLinks s (initListHead s a) b :=
  (sameLinks_setNext s a h).trans (sameLinks_setPrev _ a h)

theorem sameLinks_initListNull {a b : ν} (null : ν) (s : σ) (h : Apart σ a b) :
    SameLinks s (initListNull null s a) b :=
  (sameLinks_setNext s null h).trans (sameLinks_setPrev _ null h)

theorem sameLinks_genericAdd {s : σ} {x y z b : ν} (hx : Apart σ x b) (hy : Apart σ y b)
    (hz : Apart σ z b) : SameLinks s (genericAdd s x y z) b :=
  (((sameLinks_setNext s z hy).trans (sameLinks_setPrev _ x hy)).trans
    (sameLinks_setNext _ y hx)).trans (sameLinks_setPrev _ y hz)

theorem next_genericAdd_of_apart {s : σ} {x y z a : ν} (hx : Apart σ x a) (hy : Apart σ y a)
    (hz : z = a ∨ Apart σ z a) : next (genericAdd s x y z) a = next s a := by
  have h1 : next (genericAdd s x y z) a = next (setNext (setPrev (setNext s y z) y x) x y) a := by
    rcases hz with rfl | hz
    · exact next_setPrev_self _ _ _
    · exact next_setPrev_apart _ _ hz
  rw [h1, next_setNext_apart _ _ hx, next_setPrev_apart _ _ hy, next_setNext_apart _ _ hy]

theorem prev_genericAdd_of_apart {s : σ} {x y z a : ν} (hx : x = a ∨ Apart σ x a)
    (hy : Apart σ y a) (hz : Apart σ z a) : prev (genericAdd s x y z) a = prev s a := by
  unfold genericAdd
  rw [prev_setPrev_apart _ _ hz]
  have h1 : prev (setNext (setPrev (setNext s y z) y x) x y) a =
      prev (setPrev (setNext s y z) y x) a := by
    rcases hx with rfl | hx
    · exact prev_setNext_self _ _ _
    · exact prev_setNext_apart _ _ hx
  rw [h1, prev_setPrev_apart _ _ hy, prev_setNext_apart _ _ hy]

/-! ### Chains of links -/

instance : Std.Symm (Apart σ : ν → ν → Prop) := ⟨fun _ _ h => apart_symm h⟩

theorem eq_or_apart {l : List ν} (hl : l.Pairwise (Apart σ)) {a b : ν} (ha : a ∈ l) (hb : b ∈ l) :
    a = b ∨ Apart σ a b := by
  by_cases hab : a = b
  · exact Or.inl hab
  · exact Or.inr (hl.forall ha hb hab)

/-- `y` follows `x`, by both words. -/
def Linked (s : σ) (x y : ν) : Prop := next s x = y ∧ prev s y = x

theorem Linked.transport {s s' : σ} {x y : ν} (h : Linked s x y) (hx : SameLinks s s' x)
    (hy : SameLinks s s' y) : Linked s' x y := ⟨hx.1.trans h.1, hy.2.trans h.2⟩

/-- Between `x` and `z`, apart or equal, `genericAdd` makes the links `x → y → z`. -/
theorem linked_genericAdd {s : σ} {x y z : ν} (hxy : Apart σ x y) (hzy : Apart σ z y)
    (hzx : z = x ∨ Apart σ z x) :
    Linked (genericAdd s x y z) x y ∧ Linked (genericAdd s x y z) y z := by
  unfold genericAdd
  refine ⟨⟨?_, ?_⟩, ⟨?_, prev_setPrev_self _ _ _⟩⟩
  · rcases hzx with rfl | hzx
    · rw [next_setPrev_self, next_setNext_self]
    · rw [next_setPrev_apart _ _ hzx, next_setNext_self]
  · rw [prev_setPrev_apart _ _ hzy, prev_setNext_apart _ _ hxy, prev_setPrev_self]
  · rw [next_setPrev_apart _ _ hzy, next_setNext_apart _ _ hxy, next_setPrev_self,
      next_setNext_self]

/-- A chain reads the `next` word of every node but the last and the `prev` word of every node but
the first. -/
theorem chain_transport {s s' : σ} : ∀ {l : List ν}, l.IsChain (Linked s) →
    (∀ a ∈ l.dropLast, next s' a = next s a) → (∀ b ∈ l.tail, prev s' b = prev s b) →
      l.IsChain (Linked s')
  | [], _, _, _ => .nil
  | [a], _, _, _ => .singleton a
  | a :: b :: l, h, hn, hp => by
    rw [List.isChain_cons_cons] at h ⊢
    refine ⟨⟨(hn a (by simp)).trans h.1.1, (hp b (by simp)).trans h.1.2⟩, ?_⟩
    refine chain_transport h.2 (fun c hc => hn c ?_) (fun c hc => hp c ?_)
    · exact List.mem_cons_of_mem _ hc
    · exact List.mem_cons_of_mem _ hc

/-! ### Rings -/

/-- **The head `h` represents the sequence `xs`.** -/
structure Ring (s : σ) (h : ν) (xs : List ν) : Prop where
  apart : (h :: xs).Pairwise (Apart σ)
  chain : (h :: xs ++ [h]).IsChain (Linked s)

theorem Ring.apart_head {s : σ} {h : ν} {xs : List ν} (hr : Ring s h xs) {x : ν} (hx : x ∈ xs) :
    Apart σ h x := (List.pairwise_cons.mp hr.apart).1 x hx

theorem Ring.nodup {s : σ} {h : ν} {xs : List ν} (hr : Ring s h xs) : (h :: xs).Nodup :=
  hr.apart.imp ne_of_apart

theorem Ring.transport {s s' : σ} {h : ν} {xs : List ν} (hr : Ring s h xs)
    (hs : ∀ n ∈ h :: xs, SameLinks s s' n) : Ring s' h xs := by
  refine ⟨hr.apart, chain_transport hr.chain (fun a ha => ?_) (fun b hb => ?_)⟩
  · exact (hs a (by rwa [List.dropLast_concat] at ha)).1
  · refine (hs b ?_).2
    simp only [List.cons_append, List.tail_cons, List.mem_append, List.mem_singleton] at hb
    rcases hb with hb | rfl
    · exact List.mem_cons_of_mem _ hb
    · exact List.mem_cons_self

theorem ring_nil {s : σ} {h : ν} (hl : Linked s h h) : Ring s h [] := by
  refine ⟨List.pairwise_singleton _ _, ?_⟩
  simp only [List.cons_append, List.nil_append, List.isChain_cons_cons]
  exact ⟨hl, .singleton h⟩

theorem ring_initListHead (s : σ) (h : ν) : Ring (initListHead s h) h [] :=
  ring_nil ⟨(next_setPrev_self _ _ _).trans (next_setNext_self _ _ _), prev_setPrev_self _ _ _⟩

theorem exists_ends (h : ν) (us vs : List ν) :
    (∃ pre x, h :: us = pre ++ [x]) ∧ ∃ z post, vs ++ [h] = z :: post := by
  refine ⟨⟨(h :: us).dropLast, (h :: us).getLast (by simp), ?_⟩, ?_⟩
  · exact (List.dropLast_append_getLast (by simp)).symm
  · cases vs with
    | nil => exact ⟨h, [], rfl⟩
    | cons z post => exact ⟨z, post ++ [h], rfl⟩

/-! ### Linking in and unlinking

A ring is cut between `us` and `vs`: `x` is the last node of `h :: us`, the node before the cut, and
`z` the first node of `vs ++ [h]`, the node behind it. -/

section Cut
variable {s : σ} {h x z : ν} {us vs pre post : List ν}

theorem cut_apart (hap : (h :: (us ++ vs)).Pairwise (Apart σ)) (hpre : h :: us = pre ++ [x])
    (hpost : vs ++ [h] = z :: post) : ((∀ a ∈ pre, Apart σ x a) ∧ ∀ a ∈ vs, Apart σ x a) ∧
      (∀ b ∈ us, Apart σ z b) ∧ ∀ b ∈ post, Apart σ z b := by
  have hrot : (vs ++ [h] ++ us).Pairwise (Apart σ) := by
    have hperm : (vs ++ [h] ++ us).Perm (h :: (us ++ vs)) := by
      have h1 : (vs ++ (h :: us)).Perm ((h :: us) ++ vs) := List.perm_append_comm
      simpa using h1
    exact (hperm.pairwise_iff fun hab => apart_symm hab).mpr hap
  rw [← List.cons_append, hpre, List.append_assoc, List.pairwise_append, List.singleton_append,
    List.pairwise_cons] at hap
  rw [hpost, List.cons_append, List.pairwise_cons] at hrot
  refine ⟨⟨fun a ha => apart_symm (hap.2.2 a ha x (by simp)), hap.2.1.1⟩,
    fun b hb => hrot.1 b (by simp [hb]), fun b hb => hrot.1 b (by simp [hb])⟩

theorem mem_of_before (hpre : h :: us = pre ++ [x]) {a : ν} (ha : a ∈ pre ++ [x]) :
    a ∈ h :: (us ++ vs) := by
  rw [← hpre] at ha
  exact List.mem_append_left vs ha

theorem mem_of_behind (hpost : vs ++ [h] = z :: post) {a : ν} (ha : a ∈ z :: post) :
    a ∈ h :: (us ++ vs) := by
  rw [← hpost, List.mem_append, List.mem_singleton] at ha
  rcases ha with ha | rfl
  · exact List.mem_cons_of_mem _ (List.mem_append_right us ha)
  · exact List.mem_cons_self

/-- The nodes of the ring in the order of the chain, cut before `x` and behind `z`. -/
theorem cut_eq (hpre : h :: us = pre ++ [x]) (hpost : vs ++ [h] = z :: post) (ws : List ν) :
    h :: (us ++ (ws ++ vs)) ++ [h] = pre ++ x :: (ws ++ z :: post) := by
  calc h :: (us ++ (ws ++ vs)) ++ [h] = (h :: us) ++ (ws ++ (vs ++ [h])) := by simp
    _ = pre ++ x :: (ws ++ z :: post) := by rw [hpre, hpost]; simp

/-- The two halves of a cut ring stay chains in a store in which only the `next` word of `x` and the
`prev` word of `z` differ on the ring. -/
theorem halves_transport (s' : σ) (hap : (h :: (us ++ vs)).Pairwise (Apart σ))
    (hpre : h :: us = pre ++ [x]) (hpost : vs ++ [h] = z :: post)
    (hc1 : (pre ++ [x]).IsChain (Linked s)) (hc2 : (z :: post).IsChain (Linked s))
    (hn : ∀ a ∈ h :: (us ++ vs), Apart σ x a → next s' a = next s a)
    (hp : ∀ b ∈ h :: (us ++ vs), Apart σ z b → prev s' b = prev s b) :
    (pre ++ [x]).IsChain (Linked s') ∧ (z :: post).IsChain (Linked s') := by
  obtain ⟨⟨hxp, hxv⟩, hzu, hzp⟩ := cut_apart hap hpre hpost
  constructor
  · refine chain_transport hc1 (fun a ha => ?_) (fun b hb => ?_)
    · rw [List.dropLast_concat] at ha
      exact hn a (mem_of_before hpre (by simp [ha])) (hxp a ha)
    · rw [← hpre, List.tail_cons] at hb
      exact hp b (by simp [hb]) (hzu b hb)
  · refine chain_transport hc2 (fun a ha => ?_) (fun b hb => ?_)
    · rw [← hpost, List.dropLast_concat] at ha
      exact hn a (by simp [ha]) (hxv a ha)
    · rw [List.tail_cons] at hb
      exact hp b (mem_of_behind hpost (by simp [hb])) (hzp b hb)

/-- **Linking in**: `genericAdd` across a cut inserts the node there. -/
theorem Ring.genericAdd {y : ν} (hr : Ring s h (us ++ vs)) (hpre : h :: us = pre ++ [x])
    (hpost : vs ++ [h] = z :: post) (hy : ∀ n ∈ h :: (us ++ vs), Apart σ y n) :
    Ring (genericAdd s x y z) h (us ++ y :: vs) := by
  have hxm : x ∈ h :: (us ++ vs) := mem_of_before hpre (by simp)
  have hzm : z ∈ h :: (us ++ vs) := mem_of_behind hpost (by simp)
  have hch := hr.chain
  rw [show us ++ vs = us ++ ([] ++ vs) by simp, cut_eq hpre hpost, List.nil_append,
    List.isChain_append_cons_cons] at hch
  obtain ⟨hc1, -, hc2⟩ := hch
  have hlink := linked_genericAdd (s := s) (apart_symm (hy x hxm)) (apart_symm (hy z hzm))
    (eq_or_apart hr.apart hzm hxm)
  obtain ⟨hc1', hc2'⟩ := halves_transport (Links.genericAdd s x y z) hr.apart hpre hpost hc1 hc2
    (fun a ha hxa => next_genericAdd_of_apart hxa (hy a ha) (eq_or_apart hr.apart hzm ha))
    (fun b hb hzb => prev_genericAdd_of_apart (eq_or_apart hr.apart hxm hb) (hy b hb) hzb)
  refine ⟨?_, ?_⟩
  · have hperm : (h :: (us ++ y :: vs)).Perm (y :: (h :: (us ++ vs))) :=
      (List.Perm.cons h List.perm_middle).trans (List.Perm.swap y h _)
    rw [hperm.pairwise_iff fun hab => apart_symm hab]
    exact List.pairwise_cons.mpr ⟨hy, hr.apart⟩
  · rw [show us ++ y :: vs = us ++ ([y] ++ vs) by simp, cut_eq hpre hpost, List.singleton_append,
      List.isChain_append_cons_cons, List.isChain_cons_cons]
    exact ⟨hc1', hlink.1, hlink.2, hc2'⟩

theorem genericDel_eq {y : ν} (hxy : Linked s x y) (hyz : Linked s y z) (hzy : Apart σ z y) :
    genericDel s y = setNext (setPrev s z x) x z := by
  unfold genericDel
  simp only [hyz.1, hxy.2]
  rw [prev_setPrev_apart _ _ hzy, next_setPrev_apart _ _ hzy, hyz.1, hxy.2]

/-- The neighbours of a node of a ring: they are in the ring without it, and `genericDel` links them
to each other. -/
theorem Ring.neighbours {y : ν} (hr : Ring s h (us ++ y :: vs)) (hpre : h :: us = pre ++ [x])
    (hpost : vs ++ [h] = z :: post) :
    (∀ n ∈ h :: (us ++ vs), Apart σ y n) ∧ Links.genericDel s y = setNext (setPrev s z x) x z := by
  have hperm : (h :: (us ++ y :: vs)).Perm (y :: (h :: (us ++ vs))) :=
    (List.Perm.cons h List.perm_middle).trans (List.Perm.swap y h _)
  have hy := (List.pairwise_cons.mp
    ((hperm.pairwise_iff fun hab => apart_symm hab).mp hr.apart)).1
  have hch := hr.chain
  rw [show us ++ y :: vs = us ++ ([y] ++ vs) by simp, cut_eq hpre hpost, List.singleton_append,
    List.isChain_append_cons_cons, List.isChain_cons_cons] at hch
  exact ⟨hy, genericDel_eq hch.2.1 hch.2.2.1 (apart_symm (hy z (mem_of_behind hpost (by simp))))⟩

/-- **Unlinking**: `genericDel` of a node takes it out of the sequence. -/
theorem Ring.genericDel {y : ν} (hr : Ring s h (us ++ y :: vs)) :
    Ring (genericDel s y) h (us ++ vs) := by
  obtain ⟨⟨pre, x, hpre⟩, ⟨z, post, hpost⟩⟩ := exists_ends h us vs
  have hxm : x ∈ h :: (us ++ vs) := mem_of_before hpre (by simp)
  have hzm : z ∈ h :: (us ++ vs) := mem_of_behind hpost (by simp)
  have hap : (h :: (us ++ vs)).Pairwise (Apart σ) :=
    hr.apart.sublist (((List.Sublist.refl us).append (List.sublist_cons_self y vs)).cons_cons h)
  have hch := hr.chain
  rw [show us ++ y :: vs = us ++ ([y] ++ vs) by simp, cut_eq hpre hpost, List.singleton_append,
    List.isChain_append_cons_cons, List.isChain_cons_cons] at hch
  obtain ⟨hc1, -, -, hc2⟩ := hch
  rw [(hr.neighbours hpre hpost).2]
  obtain ⟨hc1', hc2'⟩ := halves_transport (setNext (setPrev s z x) x z) hap hpre hpost hc1 hc2
    (fun a ha hxa => by
      rw [next_setNext_apart _ _ hxa]
      rcases eq_or_apart hap hzm ha with rfl | hza
      · exact next_setPrev_self _ _ _
      · exact next_setPrev_apart _ _ hza)
    (fun b hb hzb => by
      rw [← prev_setPrev_apart s x hzb]
      rcases eq_or_apart hap hxm hb with rfl | hxb
      · exact prev_setNext_self _ _ _
      · exact prev_setNext_apart _ _ hxb)
  refine ⟨hap, ?_⟩
  rw [show us ++ vs = us ++ ([] ++ vs) by simp, cut_eq hpre hpost, List.nil_append,
    List.isChain_append_cons_cons]
  refine ⟨hc1', ⟨next_setNext_self _ _ _, ?_⟩, hc2'⟩
  rcases eq_or_apart hap hxm hzm with rfl | hxz
  · rw [prev_setNext_self, prev_setPrev_self]
  · rw [prev_setNext_apart _ _ hxz, prev_setPrev_self]

end Cut

/-! ### The operations on represented sequences -/

section Ops
variable {s : σ} {h y : ν} {xs us vs : List ν}

section
variable (hr : Ring s h xs)
include hr

theorem Ring.linked_head {z : ν} {post : List ν} (hpost : xs ++ [h] = z :: post) :
    Linked s h z := by
  have hch := hr.chain
  rw [List.cons_append, hpost, List.isChain_cons_cons] at hch
  exact hch.1

theorem Ring.linked_last {x : ν} {pre : List ν} (hpre : h :: xs = pre ++ [x]) : Linked s x h := by
  have hch := hr.chain
  rw [hpre, List.append_assoc, List.singleton_append, List.isChain_append_cons_cons] at hch
  exact hch.2.1

theorem Ring.next_mem : next s h ∈ h :: xs := by
  obtain ⟨-, z, post, hpost⟩ := exists_ends h [] xs
  rw [(hr.linked_head hpost).1]
  have hz : z ∈ xs ++ [h] := by simp [hpost]
  simpa [or_comm] using hz

theorem Ring.prev_mem : prev s h ∈ h :: xs := by
  obtain ⟨⟨pre, x, hpre⟩, -⟩ := exists_ends h xs []
  rw [(hr.linked_last hpre).2, hpre]
  simp

theorem Ring.listAdd (hy : ∀ n ∈ h :: xs, Apart σ y n) : Ring (listAdd s h y) h (y :: xs) := by
  obtain ⟨-, z, post, hpost⟩ := exists_ends h [] xs
  unfold Links.listAdd
  rw [(hr.linked_head hpost).1]
  have hcut : Ring s h ([] ++ xs) := hr
  exact hcut.genericAdd (List.nil_append [h]).symm hpost hy

theorem Ring.listAddTail (hy : ∀ n ∈ h :: xs, Apart σ y n) :
    Ring (listAddTail s h y) h (xs ++ [y]) := by
  obtain ⟨⟨pre, x, hpre⟩, -⟩ := exists_ends h xs []
  unfold Links.listAddTail
  rw [(hr.linked_last hpre).2]
  have hcut : Ring s h (xs ++ []) := by rwa [List.append_nil]
  exact hcut.genericAdd hpre (List.nil_append [h]) (by rwa [List.append_nil])

end

theorem Ring.apart_del (hr : Ring s h (us ++ y :: vs)) : ∀ n ∈ h :: (us ++ vs), Apart σ y n := by
  obtain ⟨⟨pre, x, hpre⟩, ⟨z, post, hpost⟩⟩ := exists_ends h us vs
  exact (hr.neighbours hpre hpost).1

theorem Ring.listDel (null : ν) (hr : Ring s h (us ++ y :: vs)) :
    Ring (listDel null s y) h (us ++ vs) :=
  hr.genericDel.transport fun n hn => sameLinks_initListNull null _ (hr.apart_del n hn)

/-- `listDelInit` takes the node out and leaves it as the head of an empty list. -/
theorem Ring.listDelInit (hr : Ring s h (us ++ y :: vs)) :
    Ring (listDelInit s y) h (us ++ vs) ∧ Ring (Links.listDelInit s y) y [] :=
  ⟨hr.genericDel.transport fun n hn => sameLinks_initListHead _ (hr.apart_del n hn),
    ring_initListHead _ y⟩

/-! ### Frames -/

theorem Ring.sameLinks_listAdd (hr : Ring s h xs) {b : ν} (hb : ∀ n ∈ h :: xs, Apart σ n b)
    (hy : Apart σ y b) : SameLinks s (Links.listAdd s h y) b :=
  sameLinks_genericAdd (hb h (by simp)) hy (hb _ hr.next_mem)

theorem Ring.sameLinks_listAddTail (hr : Ring s h xs) {b : ν} (hb : ∀ n ∈ h :: xs, Apart σ n b)
    (hy : Apart σ y b) : SameLinks s (Links.listAddTail s h y) b :=
  sameLinks_genericAdd (hb _ hr.prev_mem) hy (hb h (by simp))

theorem Ring.sameLinks_genericDel (hr : Ring s h (us ++ y :: vs)) {b : ν}
    (hb : ∀ n ∈ h :: (us ++ y :: vs), Apart σ n b) : SameLinks s (Links.genericDel s y) b := by
  have hb' : ∀ n ∈ h :: (us ++ vs), Apart σ n b := fun n hn => hb n (by grind)
  obtain ⟨⟨pre, x, hpre⟩, ⟨z, post, hpost⟩⟩ := exists_ends h us vs
  rw [(hr.neighbours hpre hpost).2]
  exact (sameLinks_setPrev s x (hb' z (mem_of_behind hpost (by simp)))).trans
    (sameLinks_setNext _ z (hb' x (mem_of_before hpre (by simp))))

theorem Ring.sameLinks_listDel (null : ν) (hr : Ring s h (us ++ y :: vs)) {b : ν}
    (hb : ∀ n ∈ h :: (us ++ y :: vs), Apart σ n b) : SameLinks s (Links.listDel null s y) b :=
  (hr.sameLinks_genericDel hb).trans (sameLinks_initListNull null _ (hb y (by simp)))

theorem Ring.sameLinks_listDelInit (hr : Ring s h (us ++ y :: vs)) {b : ν}
    (hb : ∀ n ∈ h :: (us ++ y :: vs), Apart σ n b) : SameLinks s (Links.listDelInit s y) b :=
  (hr.sameLinks_genericDel hb).trans (sameLinks_initListHead _ (hb y (by simp)))

/-! ### Reading a list -/

theorem Ring.listIsEmpty_iff [DecidableEq ν] (hr : Ring s h xs) :
    Links.listIsEmpty s h = true ↔ xs = [] := by
  unfold Links.listIsEmpty
  rw [Bool.and_eq_true, decide_eq_true_eq, decide_eq_true_eq]
  constructor
  · rintro ⟨hn, -⟩
    rcases xs with _ | ⟨x, xs⟩
    · rfl
    · have hx := (hr.linked_head List.cons_append).1
      exact absurd (hn.symm.trans hx) (ne_of_apart (hr.apart_head List.mem_cons_self))
  · rintro rfl
    exact hr.linked_head (List.nil_append [h])

theorem walkFrom_eq [DecidableEq ν] : ∀ (fuel : ℕ) (x : ν) (l : List ν), h ∉ x :: l →
    (x :: l ++ [h]).IsChain (Linked s) → (x :: l).length ≤ fuel → walkFrom s h fuel x = x :: l
  | 0, x, l, _, _, hf => by simp at hf
  | fuel + 1, x, l, hne, hch, hf => by
    have hx : x ≠ h := fun hxh => hne (by simp [hxh])
    rw [walkFrom, if_neg hx]
    rcases l with _ | ⟨z, l⟩
    · simp only [List.cons_append, List.nil_append, List.isChain_cons_cons] at hch
      rw [hch.1.1]
      cases fuel <;> simp [walkFrom]
    · simp only [List.cons_append, List.isChain_cons_cons] at hch
      rw [hch.1.1]
      congr 1
      refine walkFrom_eq fuel z l (fun hz => hne (List.mem_cons_of_mem _ hz)) ?_ ?_
      · exact hch.2
      · simpa using hf

/-- **The traversal of a ring visits the sequence it represents.** -/
theorem Ring.listNodes_eq [DecidableEq ν] (hr : Ring s h xs) {fuel : ℕ} (hf : xs.length ≤ fuel) :
    Links.listNodes fuel s h = xs := by
  unfold Links.listNodes
  rcases xs with _ | ⟨x, xs⟩
  · rw [(hr.linked_head (List.nil_append [h])).1]
    cases fuel <;> simp [walkFrom]
  · rw [(hr.linked_head List.cons_append).1]
    have hch := hr.chain
    rw [List.cons_append, List.cons_append, List.isChain_cons_cons] at hch
    exact walkFrom_eq fuel x xs (List.nodup_cons.mp hr.nodup).1 hch.2 hf

theorem Ring.unique [DecidableEq ν] {ys : List ν} (hr : Ring s h xs) (hr' : Ring s h ys) :
    xs = ys := by
  rw [← hr.listNodes_eq (Nat.le_max_left xs.length ys.length),
    hr'.listNodes_eq (Nat.le_max_right xs.length ys.length)]

theorem walkFrom_subset [DecidableEq ν] : ∀ {fuel fuel' : ℕ}, fuel ≤ fuel' → ∀ x : ν,
    walkFrom s h fuel x ⊆ walkFrom s h fuel' x
  | 0, _, _, _ => List.nil_subset _
  | fuel + 1, 0, hle, _ => by omega
  | fuel + 1, fuel' + 1, hle, x => by
    rw [walkFrom, walkFrom]
    by_cases hx : x = h
    · rw [if_pos hx, if_pos hx]
      exact List.Subset.refl _
    · rw [if_neg hx, if_neg hx]
      exact List.cons_subset_cons _ (walkFrom_subset (Nat.le_of_succ_le_succ hle) _)

theorem Ring.onList_iff [DecidableEq ν] (hr : Ring s h xs) {x : ν} : OnList s h x ↔ x ∈ xs := by
  constructor
  · rintro ⟨fuel, hx⟩
    rw [← hr.listNodes_eq (Nat.le_max_right fuel xs.length)]
    exact walkFrom_subset (Nat.le_max_left fuel xs.length) _ hx
  · intro hx
    exact ⟨xs.length, by rwa [hr.listNodes_eq le_rfl]⟩

end Ops

/-! ### Sets of nodes that the links do not leave -/

section Confined
variable {L : ν → Prop} {null : ν} {s : σ}

/-- The links of the nodes in `L` lead to nodes in `L`, or to `null`. -/
def Confined (L : ν → Prop) (null : ν) (s : σ) : Prop :=
  ∀ x, L x → (L (next s x) ∨ next s x = null) ∧ (L (prev s x) ∨ prev s x = null)

theorem Ring.mem_neighbours {h x : ν} {xs : List ν} (hr : Ring s h xs) (hx : x ∈ h :: xs) :
    next s x ∈ h :: xs ∧ prev s x ∈ h :: xs := by
  rcases List.mem_cons.mp hx with rfl | hx
  · exact ⟨hr.next_mem, hr.prev_mem⟩
  · obtain ⟨us, vs, rfl⟩ := List.append_of_mem hx
    obtain ⟨⟨pre, y, hpre⟩, ⟨z, post, hpost⟩⟩ := exists_ends h us vs
    have hch := hr.chain
    rw [show us ++ x :: vs = us ++ ([x] ++ vs) by simp, cut_eq hpre hpost, List.singleton_append,
      List.isChain_append_cons_cons, List.isChain_cons_cons] at hch
    have hy : y ∈ h :: (us ++ vs) := mem_of_before hpre (by simp)
    have hz : z ∈ h :: (us ++ vs) := mem_of_behind hpost (by simp)
    have hsub : h :: (us ++ vs) ⊆ h :: (us ++ x :: vs) :=
      (((List.Sublist.refl us).append (List.sublist_cons_self x vs)).cons_cons h).subset
    rw [hch.2.2.1.1, hch.2.1.2]
    exact ⟨hsub hz, hsub hy⟩

theorem Ring.mem_of_chain {h x : ν} {xs l : List ν} (hr : Ring s h xs) (hx : x ∈ h :: xs)
    (hl : (x :: l).IsChain (Linked s)) : ∀ y ∈ l, y ∈ h :: xs := by
  induction l generalizing x with
  | nil => simp
  | cons z l ih =>
    rw [List.isChain_cons_cons] at hl
    have hz : z ∈ h :: xs := by
      rw [← hl.1.1]
      exact (hr.mem_neighbours hx).1
    intro y hy
    rcases List.mem_cons.mp hy with rfl | hy
    · exact hz
    · exact ih hz hl.2 y hy

theorem Ring.head_mem_of_shared {h g x : ν} {xs ys : List ν} (hr : Ring s h xs) (hr' : Ring s g ys)
    (hx : x ∈ xs) (hx' : x ∈ ys) : g ∈ h :: xs := by
  obtain ⟨us, vs, rfl⟩ := List.append_of_mem hx'
  have hch : (x :: (vs ++ [g])).IsChain (Linked s) := by
    refine hr'.chain.suffix ⟨g :: us, ?_⟩
    simp
  exact hr.mem_of_chain (List.mem_cons_of_mem h hx) hch g (by simp)

theorem Confined.transport {s' : σ} (h : Confined L null s) (hs : ∀ x, L x → SameLinks s s' x) :
    Confined L null s' := by
  intro x hx
  rw [(hs x hx).1, (hs x hx).2]
  exact h x hx

/-! In a store whose nodes are all apart, the operations on nodes of such a set keep it. -/

variable (hap : ∀ a b : ν, a ≠ b → Apart σ a b)
include hap

section
variable (h : Confined L null s)
include h

theorem Confined.setNext (a : ν) {v : ν} (hv : L v ∨ v = null) :
    Confined L null (LinkStore.setNext s a v) := by
  intro x hx
  by_cases hax : a = x
  · subst hax
    rw [next_setNext_self, prev_setNext_self]
    exact ⟨hv, (h a hx).2⟩
  · rw [next_setNext_apart s v (hap a x hax), prev_setNext_apart s v (hap a x hax)]
    exact h x hx

theorem Confined.setPrev (a : ν) {v : ν} (hv : L v ∨ v = null) :
    Confined L null (LinkStore.setPrev s a v) := by
  intro x hx
  by_cases hax : a = x
  · subst hax
    rw [next_setPrev_self, prev_setPrev_self]
    exact ⟨(h a hx).1, hv⟩
  · rw [next_setPrev_apart s v (hap a x hax), prev_setPrev_apart s v (hap a x hax)]
    exact h x hx

theorem Confined.genericAdd {x y z : ν} (hx : L x ∨ x = null) (hy : L y)
    (hz : L z ∨ z = null) : Confined L null (genericAdd s x y z) :=
  (((h.setNext hap y hz).setPrev hap y hx).setNext hap x (.inl hy)).setPrev hap z (.inl hy)

theorem Confined.listAdd {x y : ν} (hx : L x) (hy : L y) :
    Confined L null (listAdd s x y) := h.genericAdd hap (.inl hx) hy (h x hx).1

theorem Confined.listAddTail {x y : ν} (hx : L x) (hy : L y) :
    Confined L null (listAddTail s x y) := h.genericAdd hap (h x hx).2 hy (.inl hx)

theorem Confined.listDel {y : ν} (hy : L y) : Confined L null (listDel null s y) := by
  have hprev := h.setPrev hap (next s y) (h y hy).2
  have hdel := hprev.setNext hap (prev (LinkStore.setPrev s (next s y) (prev s y)) y) (hprev y hy).1
  exact (hdel.setNext hap y (.inr rfl)).setPrev hap y (.inr rfl)

theorem Confined.initListHead (a : ν) :
    Confined (fun n => L n ∨ n = a) null (initListHead s a) := by
  intro x hx
  by_cases hxa : x = a
  · subst hxa
    have hl := (ring_initListHead s x).linked_head (List.nil_append [x])
    rw [hl.1, hl.2]
    exact ⟨.inl (.inr rfl), .inl (.inr rfl)⟩
  · have hsame := sameLinks_initListHead s (hap a x (Ne.symm hxa))
    rw [hsame.1, hsame.2]
    have hold := h x (hx.resolve_right hxa)
    exact ⟨hold.1.imp_left .inl, hold.2.imp_left .inl⟩

end

/-! What lies outside the set is not written to. -/

variable {b : ν}

theorem apart_outside (hb : ¬ L b) (hnull : b ≠ null) {a : ν} (ha : L a ∨ a = null) :
    Apart σ a b := by
  refine hap a b ?_
  rintro rfl
  exact ha.elim hb hnull

theorem Confined.sameLinks_listAdd (h : Confined L null s) {x y : ν} (hx : L x) (hy : L y)
    (hb : ¬ L b) (hnull : b ≠ null) : SameLinks s (Links.listAdd s x y) b := by
  have hout : ∀ {a}, L a ∨ a = null → Apart σ a b := apart_outside hap hb hnull
  exact sameLinks_genericAdd (hout (.inl hx)) (hout (.inl hy)) (hout (h x hx).1)

theorem Confined.sameLinks_listDel (h : Confined L null s) {y : ν} (hy : L y) (hb : ¬ L b)
    (hnull : b ≠ null) : SameLinks s (Links.listDel null s y) b := by
  have hout : ∀ {a}, L a ∨ a = null → Apart σ a b := apart_outside hap hb hnull
  have hprev := h.setPrev hap (next s y) (h y hy).2
  have h1 : SameLinks s (LinkStore.setPrev s (next s y) (prev s y)) b :=
    sameLinks_setPrev s _ (hout (h y hy).1)
  have h2 : SameLinks (LinkStore.setPrev s (next s y) (prev s y)) (genericDel s y) b :=
    sameLinks_setNext _ _ (hout (hprev y hy).2)
  exact (h1.trans h2).trans (sameLinks_initListNull null _ (hout (.inl hy)))

end Confined

theorem Linked.sameLinks_listDel {s : σ} {n b : ν} (null : ν) (h : Linked s n n) (hb : Apart σ n b) :
    SameLinks s (listDel null s n) b := by
  have h1 : SameLinks s (genericDel s n) b := by
    unfold genericDel
    simp only [h.1, h.2, next_setPrev_self, prev_setPrev_self]
    exact (sameLinks_setPrev s n hb).trans (sameLinks_setNext _ n hb)
  exact h1.trans (sameLinks_initListNull null _ hb)

end YegaKernel.Lib.Links
