import YegaKernel.Lib.Links
import Mathlib.Logic.Function.Basic

/-! # Families of circular lists in one store

Several lists whose nodes share a store: the list `i` has the head `head i`, and the item `b` on it
is linked through the node `node i b` (an item can have a node for each of several lists). All nodes
of different lists are apart, so that an operation on one list leaves the others alone.

`Rings s I head node B`: for the indices in `I` the store represents the sequences `B i`.
`Rings.listDel`, `Rings.listAdd` and `Rings.listAddTail` say what the operations do to them;
`Rings.insert` adds an empty list. -/

namespace YegaKernel.Lib.Families

open Lib.Links Lib.Links.LinkStore Function

variable {σ ν ι β : Type} [LinkStore σ ν]

/-- **The store represents the family of sequences `B`.** -/
structure Rings (s : σ) (I : ι → Prop) (head : ι → ν) (node : ι → β → ν) (B : ι → List β) : Prop where
  ring : ∀ i, I i → Ring s (head i) ((B i).map (node i))
  apart : ∀ i j, I i → I j → i ≠ j → ∀ a ∈ head i :: (B i).map (node i),
    ∀ b ∈ head j :: (B j).map (node j), Apart σ a b

variable {s : σ} {I : ι → Prop} {head : ι → ν} {node : ι → β → ν} {B : ι → List β}

theorem Rings.transport {s' : σ} (h : Rings s I head node B)
    (hs : ∀ i, I i → ∀ n ∈ head i :: (B i).map (node i), SameLinks s s' n) :
    Rings s' I head node B :=
  ⟨fun i hi => (h.ring i hi).transport (hs i hi), h.apart⟩

theorem Rings.congr {J : ι → Prop} {B' : ι → List β} (h : Rings s I head node B)
    (hJ : ∀ i, J i → I i ∧ B' i = B i) : Rings s J head node B' := by
  refine ⟨fun i hi => ?_, fun i j hi hj hij => ?_⟩
  · rw [(hJ i hi).2]
    exact h.ring i (hJ i hi).1
  · rw [(hJ i hi).2, (hJ j hj).2]
    exact h.apart i j (hJ i hi).1 (hJ j hj).1 hij

theorem Rings.nodup (h : Rings s I head node B) {i : ι} (hi : I i) : (B i).Nodup :=
  ((List.nodup_cons.mp (h.ring i hi).nodup).2).of_map _

/-- A family in which the sequence `i` is set: the ring `i` is given, the others are kept by the new
store, and the nodes of the new ring are apart from theirs. -/
theorem Rings.set [DecidableEq ι] {s' : σ} {J : ι → Prop} (h : Rings s I head node B) {i : ι}
    {l : List β} (hJ : ∀ j, J j → j ≠ i → I j) (hring : Ring s' (head i) (l.map (node i)))
    (hs : ∀ j, I j → j ≠ i → ∀ n ∈ head j :: (B j).map (node j), SameLinks s s' n)
    (hap : ∀ j, I j → j ≠ i → ∀ a ∈ head i :: l.map (node i),
      ∀ n ∈ head j :: (B j).map (node j), Apart σ a n) : Rings s' J head node (update B i l) := by
  refine ⟨fun j hj => ?_, fun j k hj hk hjk a ha b hb => ?_⟩
  · by_cases hji : j = i
    · subst hji
      rwa [update_self]
    · rw [update_of_ne hji]
      exact (h.ring j (hJ j hj hji)).transport (hs j (hJ j hj hji) hji)
  · by_cases hji : j = i
    · subst hji
      rw [update_self] at ha
      rw [update_of_ne (Ne.symm hjk)] at hb
      exact hap k (hJ k hk (Ne.symm hjk)) (Ne.symm hjk) a ha b hb
    · rw [update_of_ne hji] at ha
      by_cases hki : k = i
      · subst hki
        rw [update_self] at hb
        exact apart_symm (hap j (hJ j hj hji) hji b hb a ha)
      · rw [update_of_ne hki] at hb
        exact h.apart j k (hJ j hj hji) (hJ k hk hki) hjk a ha b hb

/-- A sequence of the family is replaced: only the nodes that are new to it have to be apart from
the others. -/
theorem Rings.replace [DecidableEq ι] {s' : σ} (h : Rings s I head node B) {i : ι} (hi : I i)
    {l : List β} (hring : Ring s' (head i) (l.map (node i)))
    (hs : ∀ j, I j → j ≠ i → ∀ n ∈ head j :: (B j).map (node j), SameLinks s s' n)
    (hap : ∀ j, I j → j ≠ i → ∀ b ∈ l, b ∉ B i → ∀ n ∈ head j :: (B j).map (node j),
      Apart σ (node i b) n) : Rings s' I head node (update B i l) := by
  refine h.set (fun j hj _ => hj) hring hs fun j hj hji a ha n hn => ?_
  simp only [List.mem_cons, List.mem_map] at ha
  rcases ha with rfl | ⟨b, hb, rfl⟩
  · exact h.apart i j hi hj (Ne.symm hji) _ (by simp) n hn
  · by_cases hbi : b ∈ B i
    · exact h.apart i j hi hj (Ne.symm hji) _
        (List.mem_cons_of_mem _ (List.mem_map_of_mem hbi)) n hn
    · exact hap j hj hji b hb hbi n hn

section Ops
variable [DecidableEq ι] {i : ι} {b : β}

theorem Rings.listAdd (h : Rings s I head node B) (hi : I i)
    (hb : ∀ j, I j → ∀ n ∈ head j :: (B j).map (node j), Apart σ (node i b) n) :
    Rings (listAdd s (head i) (node i b)) I head node (update B i (b :: B i)) := by
  refine h.replace hi ((h.ring i hi).listAdd (hb i hi)) (fun j hj hji n hn => ?_)
    (fun j hj hji c hc hci => ?_)
  · exact (h.ring i hi).sameLinks_listAdd (fun a ha => h.apart i j hi hj (Ne.symm hji) a ha n hn)
      (hb j hj n hn)
  · rw [List.mem_cons, or_iff_left hci] at hc
    rw [hc]
    exact hb j hj

theorem Rings.listAddTail (h : Rings s I head node B) (hi : I i)
    (hb : ∀ j, I j → ∀ n ∈ head j :: (B j).map (node j), Apart σ (node i b) n) :
    Rings (listAddTail s (head i) (node i b)) I head node (update B i (B i ++ [b])) := by
  have hring := (h.ring i hi).listAddTail (hb i hi)
  rw [← List.map_singleton (f := node i), ← List.map_append] at hring
  refine h.replace hi hring (fun j hj hji n hn => ?_) (fun j hj hji c hc hci => ?_)
  · exact (h.ring i hi).sameLinks_listAddTail
      (fun a ha => h.apart i j hi hj (Ne.symm hji) a ha n hn) (hb j hj n hn)
  · rw [List.mem_append, or_iff_right hci, List.mem_singleton] at hc
    rw [hc]
    exact hb j hj

theorem Rings.insert (h : Rings s I head node B) (hring : Ring s (head i) [])
    (hap : ∀ j, I j → ∀ n ∈ head j :: (B j).map (node j), Apart σ (head i) n) :
    Rings s (fun j => j = i ∨ I j) head node (update B i []) := by
  refine h.set (fun j hj hji => hj.resolve_left hji) hring (fun _ _ _ n _ => .refl s n)
    fun j hj _ a ha => ?_
  rw [List.map_nil, List.mem_singleton] at ha
  rw [ha]
  exact hap j hj

variable [DecidableEq β]

theorem Rings.listDel (null : ν) (h : Rings s I head node B) (hi : I i) (hb : b ∈ B i) :
    Rings (listDel null s (node i b)) I head node (update B i ((B i).erase b)) := by
  obtain ⟨us, vs, -, hB, herase⟩ := List.exists_erase_eq hb
  have hring := h.ring i hi
  rw [hB, List.map_append, List.map_cons] at hring
  refine h.replace hi ?_ (fun j hj hji n hn => ?_) (fun j _ _ c hc hci => ?_)
  · rw [herase, List.map_append]
    exact hring.listDel null
  · refine hring.sameLinks_listDel null fun a ha => h.apart i j hi hj (Ne.symm hji) a ?_ n hn
    rwa [hB, List.map_append, List.map_cons]
  · exact absurd (List.mem_of_mem_erase hc) hci

end Ops

end YegaKernel.Lib.Families
