import YegaKernel.Slab.Invariant

/-! # The lists of slabs

What moving a slab from one list to another, linking in a new one and unlinking one do to the lists,
and that the other parts of the state stay as they are. -/

namespace YegaKernel.Slab.Queues

open Lib.Links Lib.Families
open Slab.State Slab.Invariant Function

variable {s : Kernel} {W : Layout} {B : Queue → List ℕ} {c d : ℕ} {k : Kind}

/-! ### Membership -/

theorem isSlab_iff (h : Lists s W B) : W.IsSlab c d ↔ c ∈ W.caches ∧ ∃ k, d ∈ B (.list c k) :=
  and_congr_right fun hc => h.mem c hc d

theorem isSlab_of_mem (h : Lists s W B) (hc : c ∈ W.caches) (hd : d ∈ B (.list c k)) :
    W.IsSlab c d := (isSlab_iff h).mpr ⟨hc, k, hd⟩

theorem queue_unique (h : Lists s W B) {c' : ℕ} {k' : Kind} (hc : c ∈ W.caches)
    (hc' : c' ∈ W.caches) (hd : d ∈ B (.list c k)) (hd' : d ∈ B (.list c' k')) :
    c = c' ∧ k = k' := by
  by_contra hne
  have hq : Queue.list c k ≠ Queue.list c' k' := by
    intro heq
    rw [Queue.list.injEq] at heq
    exact hne heq
  exact h.rings.apart (.list c k) (.list c' k') hc hc' hq (Link.slab d)
    (List.mem_cons_of_mem _ (List.mem_map_of_mem hd)) (Link.slab d)
    (List.mem_cons_of_mem _ (List.mem_map_of_mem hd')) rfl

theorem lists_congr {s' : Kernel} (h : Lists s W B) (hs : s'.links = s.links) : Lists s' W B := by
  refine ⟨h.rings.transport fun i _ n _ => ?_, h.chain, h.nodup, h.mem⟩
  exact ⟨congrArg (fun f => (f n).next) hs, congrArg (fun f => (f n).prev) hs⟩

theorem slab_apart (hd : ∀ c ∈ W.caches, ∀ k, d ∉ B (.list c k)) :
    ∀ q, IsQueue W.caches q → ∀ n ∈ queueHead q :: (B q).map (queueNode q), Link.slab d ≠ n := by
  rintro (_ | ⟨c, k⟩) hq n hn rfl
  · simp [queueHead, queueNode] at hn
  · simp only [queueHead, queueNode, List.mem_cons, List.mem_map, reduceCtorEq, false_or,
      Link.slab.injEq, exists_eq_right] at hn
    exact hd c hq k hn

/-! ### The first slab of a list -/

theorem next_eq_head (h : Lists s W B) (hc : c ∈ W.caches) :
    LinkStore.next s (Link.list c k) = Link.list c k ↔ B (.list c k) = [] := by
  have hring := h.rings.ring (.list c k) hc
  rcases hB : B (.list c k) with _ | ⟨d, ds⟩
  · rw [hB] at hring
    exact iff_of_true (hring.linked_head rfl).1 rfl
  · rw [hB] at hring
    have hn : LinkStore.next s (Link.list c k) = Link.slab d := (hring.linked_head rfl).1
    rw [hn]
    simp

theorem listEntry_next (h : Lists s W B) (hc : c ∈ W.caches) {ds : List ℕ}
    (hB : B (.list c k) = d :: ds) : listEntry (LinkStore.next s (Link.list c k)) = some d := by
  have hring := h.rings.ring (.list c k) hc
  rw [hB] at hring
  have hn : LinkStore.next s (Link.list c k) = Link.slab d := (hring.linked_head rfl).1
  rw [hn]
  rfl

/-! ### Moving slabs -/

/-- The lists of the caches hold what they held, and the slab `d` is on the list `k` of `c` only. -/
def Moved (caches : List ℕ) (B B' : Queue → List ℕ) (c d : ℕ) (k : Kind) : Prop :=
  B' .chain = B .chain ∧ ∀ c' ∈ caches, ∀ k' e, e ∈ B' (.list c' k') ↔
    if e = d then c' = c ∧ k' = k else e ∈ B (.list c' k')

/-- The lists of the caches hold what they held, without the slab `d`. -/
def Unlinked (caches : List ℕ) (B B' : Queue → List ℕ) (d : ℕ) : Prop :=
  B' .chain = B .chain ∧ ∀ c' ∈ caches, ∀ k' e,
    e ∈ B' (.list c' k') ↔ e ≠ d ∧ e ∈ B (.list c' k')

theorem rings_unlink (h : Lists s W B) (hc : c ∈ W.caches) (hd : d ∈ B (.list c k)) :
    ∃ B', Rings (listDel Link.null s (Link.slab d)) (IsQueue W.caches) queueHead queueNode B' ∧
      Unlinked W.caches B B' d := by
  have hq : IsQueue W.caches (.list c k) := hc
  refine ⟨_, h.rings.listDel Link.null hq hd, update_of_ne (by simp) _ _,
    fun c' hc' k' e => ?_⟩
  by_cases hlist : Queue.list c' k' = Queue.list c k
  · rw [hlist, update_self, (h.rings.nodup hq).mem_erase_iff]
  · rw [update_of_ne hlist]
    refine ⟨fun he => ⟨?_, he⟩, And.right⟩
    rintro rfl
    obtain ⟨rfl, rfl⟩ := queue_unique h hc' hc he hd
    exact hlist rfl

variable {B' : Queue → List ℕ}

theorem moved_of_link {B₁ : Queue → List ℕ} {l : List ℕ} (hB : Unlinked W.caches B B₁ d)
    (hl : ∀ e, e ∈ l ↔ e = d ∨ e ∈ B₁ (.list c k))
    (hB' : B' = update B₁ (.list c k) l) : Moved W.caches B B' c d k := by
  subst hB'
  refine ⟨(update_of_ne (by simp) _ _).trans hB.1, fun c' hc' k' e => ?_⟩
  by_cases hlist : Queue.list c' k' = Queue.list c k
  · obtain ⟨rfl, rfl⟩ := Queue.list.inj hlist
    rw [update_self, hl, hB.2 c' hc' k' e]
    split_ifs with he
    · simp [he]
    · simp [he]
  · rw [update_of_ne hlist, hB.2 c' hc' k' e]
    rw [Queue.list.injEq] at hlist
    split_ifs with he
    · simp [he, hlist]
    · simp [he]

theorem lists_of_moved {s' : Kernel} (h : Lists s W B) (hd : W.IsSlab c d)
    (hr : Rings s' (IsQueue W.caches) queueHead queueNode B') (hB : Moved W.caches B B' c d k) :
    Lists s' W B' := by
  refine ⟨hr, fun e => by rw [hB.1, h.chain], h.nodup, fun c' hc' e => ?_⟩
  simp only [hB.2 c' hc']
  by_cases he : e = d
  · subst he
    simp only [if_true]
    constructor
    · intro hmem
      obtain ⟨k₁, h₁⟩ := (h.mem c' hc' e).mp hmem
      obtain ⟨k₂, h₂⟩ := ((isSlab_iff h).mp hd).2
      exact ⟨k, (queue_unique h hc' hd.1 h₁ h₂).1, rfl⟩
    · rintro ⟨_, rfl, rfl⟩
      exact hd.2
  · simp only [he, if_false]
    exact h.mem c' hc' e

theorem not_mem_unlinked {B₁ : Queue → List ℕ} (hB : Unlinked W.caches B B₁ d) :
    ∀ c ∈ W.caches, ∀ k, d ∉ B₁ (.list c k) := fun c hc k hd => ((hB.2 c hc k d).mp hd).1 rfl

/-- **A slab goes to the front of a list** ... -/
theorem lists_moveFront (h : Lists s W B) (hd : W.IsSlab c d) (k : Kind) :
    ∃ B', Lists (listAdd (listDel Link.null s (Link.slab d)) (Link.list c k) (Link.slab d)) W B' ∧
      Moved W.caches B B' c d k := by
  obtain ⟨hc, k₀, hk₀⟩ := (isSlab_iff h).mp hd
  obtain ⟨B₁, hr₁, hB₁⟩ := rings_unlink h hc hk₀
  have hq : IsQueue W.caches (.list c k) := hc
  have hmoved := moved_of_link (c := c) (k := k) (l := d :: B₁ (.list c k)) hB₁ (by simp) rfl
  exact ⟨_, lists_of_moved h hd (hr₁.listAdd hq (slab_apart (not_mem_unlinked hB₁))) hmoved, hmoved⟩

theorem lists_moveBack (h : Lists s W B) (hd : W.IsSlab c d) (k : Kind) :
    ∃ B', Lists (listAddTail (listDel Link.null s (Link.slab d)) (Link.list c k) (Link.slab d)) W B' ∧
      Moved W.caches B B' c d k := by
  obtain ⟨hc, k₀, hk₀⟩ := (isSlab_iff h).mp hd
  obtain ⟨B₁, hr₁, hB₁⟩ := rings_unlink h hc hk₀
  have hq : IsQueue W.caches (.list c k) := hc
  have hmoved := moved_of_link (c := c) (k := k) (l := B₁ (.list c k) ++ [d]) hB₁ (by simp [or_comm])
    rfl
  exact ⟨_, lists_of_moved h hd (hr₁.listAddTail hq (slab_apart (not_mem_unlinked hB₁))) hmoved,
    hmoved⟩

theorem sorted_of_moved {V : World} (hB : Moved V.caches B B' c d k)
    (hsort : SortedBut V B d) (hk : V.Sorts c d k) : Sorted V B' := by
  intro c' hc' k' e he
  rw [hB.2 c' hc'] at he
  split_ifs at he with hed
  · obtain ⟨rfl, rfl⟩ := he
    rwa [hed]
  · exact hsort c' hc' k' e he hed

theorem sortedBut_of_moved {V : World} (hB : Moved V.caches B B' c d k)
    (hsort : SortedBut V B d) : SortedBut V B' d := by
  intro c' hc' k' e he hed
  rw [hB.2 c' hc', if_neg hed] at he
  exact hsort c' hc' k' e he hed

end YegaKernel.Slab.Queues
