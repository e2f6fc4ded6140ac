import YegaKernel.Lib.Links

/-! # Loops over an intrusive list

The two loops a kernel list is walked by, as they run: the position is a node, the loop ends when it
is the head again, and the body works on the store. Both record the nodes they visit; `none` says
that the fuel was not enough.

* `listForEach` reads the next position from the node just visited, after the body has run. On a
  ring whose links the body leaves alone it visits the sequence (`Ring.listForEach_eq`).
* `listForEachDel` keeps the next position in a second variable, read before the body runs. With a
  body that unlinks the visited node it visits the sequence as well, and the list is empty at its
  end (`Ring.listForEachDel_eq`). -/

namespace YegaKernel.Lib.Links

open LinkStore

variable {σ ν : Type} [LinkStore σ ν] [DecidableEq ν]

/-! ### The loops -/

/-- The rounds of `listForEach` from the position `pos`. -/
def forEachFrom (body : σ → ν → σ) (head : ν) : ℕ → σ → ν → Option (List ν × σ)
  | 0, _, _ => none
  | fuel + 1, s, pos =>
    if pos = head then some ([], s)
    else
      let s := body s pos
      (forEachFrom body head fuel s (next s pos)).map fun r => (pos :: r.1, r.2)

/-- `for (pos = head->next; pos != head; pos = pos->next)`. -/
def listForEach (body : σ → ν → σ) (fuel : ℕ) (s : σ) (head : ν) : Option (List ν × σ) :=
  forEachFrom body head fuel s (next s head)

/-- The rounds of `listForEachDel` from the position `temp`, with `save` behind it. -/
def forEachDelFrom (body : σ → ν → σ) (head : ν) : ℕ → σ → ν → ν → Option (List ν × σ)
  | 0, _, _, _ => none
  | fuel + 1, s, temp, save =>
    if temp = head then some ([], s)
    else
      let s := body s temp
      (forEachDelFrom body head fuel s save (next s save)).map fun r => (temp :: r.1, r.2)

/-- `for (temp = head->next, save = temp->next; temp != head; temp = save, save = save->next)`. -/
def listForEachDel (body : σ → ν → σ) (fuel : ℕ) (s : σ) (head : ν) : Option (List ν × σ) :=
  forEachDelFrom body head fuel s (next s head) (next s (next s head))

theorem listForEachDel_keeps {body : σ → ν → σ} {P : σ → Prop} (hbody : ∀ s x, P s → P (body s x))
    {fuel : ℕ} {s : σ} {head : ν} {r : List ν × σ} (hs : P s)
    (h : listForEachDel body fuel s head = some r) : P r.2 := by
  unfold listForEachDel at h
  generalize next s head = temp at h
  generalize next s temp = save at h
  induction fuel generalizing s temp save r with
  | zero => simp [forEachDelFrom] at h
  | succ fuel ih =>
    rw [forEachDelFrom] at h
    split_ifs at h with ht
    · cases h
      exact hs
    · obtain ⟨r', hr', rfl⟩ := Option.map_eq_some_iff.mp h
      have hrest : P r'.2 := ih (hbody s temp hs) save _ hr'
      exact hrest

/-! ### On a ring -/

section Rings
variable {body : σ → ν → σ} {s : σ} {h : ν} {xs : List ν}

/-- From a node of the ring the loop runs the body on what is left of the sequence; the nodes visited
before (`us`) only matter because the body must leave their links alone too. -/
theorem forEachFrom_eq (hbody : ∀ s x, ∀ n ∈ h :: xs, SameLinks s (body s x) n) :
    ∀ (vs us : List ν) (s : σ), xs = us ++ vs → Ring s h xs → ∀ (z : ν) (post : List ν),
      vs ++ [h] = z :: post → ∀ fuel, vs.length < fuel →
        forEachFrom body h fuel s z = some (vs, vs.foldl body s) := by
  intro vs
  induction vs with
  | nil =>
    intro us s _ hr z post hpost fuel hf
    obtain ⟨rfl, -⟩ : h = z ∧ [] = post := by simpa using hpost
    obtain ⟨fuel, rfl⟩ := Nat.exists_eq_add_of_lt hf
    simp [forEachFrom]
  | cons x vs ih =>
    intro us s hxs hr z post hpost fuel hf
    obtain ⟨rfl, -⟩ : x = z ∧ vs ++ [h] = post := by simpa using hpost
    have hx : x ∈ xs := by simp [hxs]
    have hne : x ≠ h := Ne.symm (ne_of_apart (hr.apart_head hx))
    have hr' : Ring (body s x) h xs := hr.transport (hbody s x)
    obtain ⟨-, w, post', hw⟩ := exists_ends h [] vs
    have hnext : next (body s x) x = w := by
      have hch := hr'.chain
      have hcut : h :: xs ++ [h] = (h :: us) ++ x :: w :: post' := by
        rw [← hw, hxs]; simp
      rw [hcut, List.isChain_append_cons_cons] at hch
      exact hch.2.1.1
    obtain ⟨fuel, rfl⟩ : ∃ k, fuel = k + 1 := ⟨fuel - 1, by omega⟩
    have hrest := ih (us ++ [x]) (body s x) (by simp [hxs]) hr' w post' hw fuel (by simpa using hf)
    simp only [forEachFrom, if_neg hne, hnext]
    rw [hrest]
    rfl

/-- **A loop whose body keeps the links runs the body on the sequence, in order.** -/
theorem Ring.listForEach_eq (hr : Ring s h xs)
    (hbody : ∀ s x, ∀ n ∈ h :: xs, SameLinks s (body s x) n) {fuel : ℕ} (hf : xs.length < fuel) :
    listForEach body fuel s h = some (xs, xs.foldl body s) := by
  obtain ⟨-, z, post, hpost⟩ := exists_ends h [] xs
  unfold listForEach
  rw [(hr.linked_head hpost).1]
  exact forEachFrom_eq hbody xs [] s rfl hr z post hpost fuel hf

/-- **A loop that unlinks every node it visits visits the sequence and empties the list.** Only nodes
of the list are written to. -/
theorem Ring.listForEachDel_eq (null : ν) : ∀ (xs : List ν) {s : σ}, Ring s h xs →
    ∃ s', (∀ fuel, xs.length < fuel →
        listForEachDel (Links.listDel null) fuel s h = some (xs, s')) ∧ Ring s' h [] ∧
      ∀ b, (∀ n ∈ h :: xs, Apart σ n b) → SameLinks s s' b := by
  intro xs
  induction xs with
  | nil =>
    intro s hr
    refine ⟨s, fun fuel hf => ?_, hr, fun b _ => SameLinks.refl s b⟩
    obtain ⟨fuel, rfl⟩ := Nat.exists_eq_add_of_lt hf
    simp [listForEachDel, forEachDelFrom, (hr.linked_head (List.nil_append [h])).1]
  | cons x xs ih =>
    intro s hr
    have hcut : Ring s h ([] ++ x :: xs) := hr
    have hr' : Ring (Links.listDel null s x) h xs := hcut.listDel null
    obtain ⟨s', hloop, hend, hframe⟩ := ih hr'
    -- `save` is the node behind `x`, which is the first one once `x` is unlinked
    obtain ⟨-, z, post, hpost⟩ := exists_ends h [] xs
    have hsave : next s x = next (Links.listDel null s x) h := by
      have hch := hr.chain
      rw [List.cons_append, List.cons_append, hpost, List.isChain_cons_cons,
        List.isChain_cons_cons] at hch
      rw [(hr'.linked_head hpost).1]
      exact hch.2.1.1
    have hne : x ≠ h := Ne.symm (ne_of_apart (hr.apart_head List.mem_cons_self))
    refine ⟨s', fun fuel hf => ?_, hend, fun b hb => ?_⟩
    · obtain ⟨fuel, rfl⟩ : ∃ k, fuel = k + 1 := ⟨fuel - 1, by omega⟩
      have hrest := hloop fuel (by simpa using hf)
      unfold listForEachDel at hrest ⊢
      rw [(hr.linked_head List.cons_append).1, hsave]
      simp only [forEachDelFrom, if_neg hne]
      rw [hrest]
      rfl
    · refine (hcut.sameLinks_listDel null hb).trans (hframe b fun n hn => hb n ?_)
      simp only [List.mem_cons] at hn ⊢
      tauto

end Rings

end YegaKernel.Lib.Links
