import YegaKernel.Lib.LinkLoops

/-! # The kernel list

`struct list_head` on a heap of its own: a node is its address and holds the addresses of its two
neighbours. The operations of `list.c` and the loops of `list.h` are those of `Lib.Links` and
`Lib.LinkLoops` at this heap.

`list_refines_sequences`: a head that represents a sequence, in the sense of `Ring`, represents after
each operation the sequence the operation is named for, the loops visit the sequence, and nothing
outside the list is written (`WritesOnly`). -/

namespace YegaKernel.DataStructures.List

open Lib.Links Function

/-- `struct list_head`. -/
structure ListHead where
  next : ℕ
  prev : ℕ
  deriving Repr, DecidableEq

/-- The list nodes of the kernel, by address. -/
structure Heap where
  node : ℕ → ListHead

def null : ℕ := 0

instance : LinkStore Heap ℕ where
  next s n := (s.node n).next
  prev s n := (s.node n).prev
  setNext s n v := { s with node := update s.node n { s.node n with next := v } }
  setPrev s n v := { s with node := update s.node n { s.node n with prev := v } }

/-- `list_is_empty`, with its value as an integer. -/
def listIsEmpty (s : Heap) (head : ℕ) : ℕ := if Lib.Links.listIsEmpty s head then 1 else 0

/-! ### What is written -/

/-- **Nothing but the nodes `ns` is written**, and every list that has none of them stays. -/
structure WritesOnly (ns : List ℕ) (s s' : Heap) : Prop where
  node : ∀ n, n ∉ ns → s'.node n = s.node n
  list : ∀ g ys, Ring s g ys → (∀ n ∈ g :: ys, n ∉ ns) → Ring s' g ys

theorem node_eq_of_sameLinks {s s' : Heap} {n : ℕ} (h : SameLinks s s' n) :
    s'.node n = s.node n := by
  have hnext : (s'.node n).next = (s.node n).next := h.1
  have hprev : (s'.node n).prev = (s.node n).prev := h.2
  cases hs' : s'.node n
  simp_all

theorem writesOnly_of_sameLinks {ns : List ℕ} {s s' : Heap}
    (h : ∀ n, (∀ m ∈ ns, m ≠ n) → SameLinks s s' n) : WritesOnly ns s s' := by
  have hsame : ∀ n, n ∉ ns → SameLinks s s' n := fun n hn =>
    h n fun m hm hmn => hn (hmn ▸ hm)
  exact ⟨fun n hn => node_eq_of_sameLinks (hsame n hn),
    fun g ys hr hd => hr.transport fun n hn => hsame n (hd n hn)⟩

/-! ### The operations -/

section Ops
variable {s : Heap} {head x : ℕ} {xs : List ℕ}

theorem apart_of_notMem (hx : x ∉ head :: xs) : ∀ n ∈ head :: xs, LinkStore.Apart Heap x n := by
  rintro n hn rfl
  exact hx hn

section
variable (hr : Ring s head xs)
include hr

theorem listAdd_writes : WritesOnly (x :: head :: xs) s (listAdd s head x) :=
  writesOnly_of_sameLinks fun _ hn =>
    hr.sameLinks_listAdd (fun m hm => hn m (List.mem_cons_of_mem _ hm)) (hn x List.mem_cons_self)

theorem listAddTail_writes : WritesOnly (x :: head :: xs) s (listAddTail s head x) :=
  writesOnly_of_sameLinks fun _ hn =>
    hr.sameLinks_listAddTail (fun m hm => hn m (List.mem_cons_of_mem _ hm))
      (hn x List.mem_cons_self)

theorem exists_cut (hx : x ∈ xs) : ∃ us vs, xs = us ++ x :: vs ∧ xs.erase x = us ++ vs := by
  obtain ⟨us, vs, rfl⟩ := List.append_of_mem hx
  have hnd : (us ++ x :: vs).Nodup := (List.nodup_cons.mp hr.nodup).2
  have hus : x ∉ us := fun h => (List.nodup_append.mp hnd).2.2 x h x (by simp) rfl
  refine ⟨us, vs, rfl, ?_⟩
  rw [List.erase_append_right _ hus, List.erase_cons_head]

theorem listDel_spec (hx : x ∈ xs) : Ring (listDel null s x) head (xs.erase x) ∧
      (listDel null s x).node x = { next := null, prev := null } ∧
      WritesOnly (head :: xs) s (listDel null s x) := by
  obtain ⟨us, vs, rfl, herase⟩ := exists_cut hr hx
  rw [herase]
  refine ⟨hr.listDel null, ?_, writesOnly_of_sameLinks fun n hn => hr.sameLinks_listDel null hn⟩
  simp [listDel, initListNull, LinkStore.setNext, LinkStore.setPrev]

theorem listDelInit_spec (hx : x ∈ xs) :
    Ring (listDelInit s x) head (xs.erase x) ∧ Ring (listDelInit s x) x [] ∧
      WritesOnly (head :: xs) s (listDelInit s x) := by
  obtain ⟨us, vs, rfl, herase⟩ := exists_cut hr hx
  rw [herase]
  exact ⟨hr.listDelInit.1, hr.listDelInit.2,
    writesOnly_of_sameLinks fun n hn => hr.sameLinks_listDelInit hn⟩

theorem listIsEmpty_eq_one : listIsEmpty s head = 1 ↔ xs = [] := by
  unfold listIsEmpty
  rw [← hr.listIsEmpty_iff]
  split <;> simp_all

end

end Ops

/-- **The intrusive list refines sequences.** Let `head` represent `xs`. Linking in a node that is
not on the list puts it at the front or at the end; unlinking a node takes it out, and leaves it
with null links or as an empty list; `list_is_empty` is 1 exactly for the empty sequence. A loop
`list_for_each` whose body leaves the links of the list alone visits `xs`, in order, and ends;
`list_for_each_del` with `list_del` of the visited node visits `xs`, ends, and leaves the list
empty. No operation writes to a node outside the list (and the node it links in). -/
theorem list_refines_sequences (s : Heap) (head : ℕ) (xs : List ℕ) (hr : Ring s head xs) :
    (∀ x, x ∉ head :: xs → Ring (listAdd s head x) head (x :: xs) ∧
      WritesOnly (x :: head :: xs) s (listAdd s head x)) ∧
    (∀ x, x ∉ head :: xs → Ring (listAddTail s head x) head (xs ++ [x]) ∧
      WritesOnly (x :: head :: xs) s (listAddTail s head x)) ∧
    (∀ y ∈ xs, Ring (listDel null s y) head (xs.erase y) ∧
      (listDel null s y).node y = { next := null, prev := null } ∧
      WritesOnly (head :: xs) s (listDel null s y)) ∧
    (∀ y ∈ xs, Ring (listDelInit s y) head (xs.erase y) ∧ Ring (listDelInit s y) y [] ∧
      WritesOnly (head :: xs) s (listDelInit s y)) ∧
    (listIsEmpty s head = 1 ↔ xs = []) ∧
    (∀ body : Heap → ℕ → Heap, (∀ s x, ∀ n ∈ head :: xs, SameLinks s (body s x) n) →
      ∀ fuel, xs.length < fuel → listForEach body fuel s head = some (xs, xs.foldl body s)) ∧
    ∃ s', (∀ fuel, xs.length < fuel →
        listForEachDel (listDel null) fuel s head = some (xs, s')) ∧
      Ring s' head [] ∧ WritesOnly (head :: xs) s s' := by
  refine ⟨fun x hx => ⟨hr.listAdd (apart_of_notMem hx), listAdd_writes hr⟩,
    fun x hx => ⟨hr.listAddTail (apart_of_notMem hx), listAddTail_writes hr⟩,
    fun y hy => listDel_spec hr hy, fun y hy => listDelInit_spec hr hy, listIsEmpty_eq_one hr,
    fun _ hbody _ hf => hr.listForEach_eq hbody hf, ?_⟩
  obtain ⟨s', hloop, hempty, hframe⟩ := Ring.listForEachDel_eq null xs hr
  exact ⟨s', hloop, hempty, writesOnly_of_sameLinks hframe⟩

/-- The node 2 put on the fresh list 1 and then in front of it the node 3. -/
def twoNodes : Heap :=
  listAdd (listAdd (initListHead { node := fun _ => { next := 0, prev := 0 } } 1) 1 2) 1 3

theorem ring_twoNodes : Ring twoNodes 1 [3, 2] :=
  ((ring_initListHead _ 1).listAdd (apart_of_notMem (by simp))).listAdd
    (apart_of_notMem (by simp))

theorem twoNodes_refines_sequences :
    Ring twoNodes 1 [3, 2] ∧ Ring (listAddTail twoNodes 1 4) 1 [3, 2, 4] ∧
      Ring (listDel null twoNodes 3) 1 [2] ∧ listIsEmpty twoNodes 1 ≠ 1 ∧
      ∃ s', listForEachDel (listDel null) 3 twoNodes 1 = some ([3, 2], s') ∧ Ring s' 1 [] := by
  obtain ⟨-, htail, hdel, -, hempty, -, s', hloop, hend, -⟩ :=
    list_refines_sequences twoNodes 1 [3, 2] ring_twoNodes
  refine ⟨ring_twoNodes, (htail 4 (by simp)).1, (hdel 3 (by simp)).1, ?_, s', ?_, hend⟩
  · rw [Ne, hempty]
    simp
  · exact hloop 3 (by simp)

end YegaKernel.DataStructures.List
