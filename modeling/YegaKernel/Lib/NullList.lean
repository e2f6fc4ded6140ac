import Mathlib.Tactic

/-! # Null-terminated lists and tilings

`Threaded next a l`: following `next` from the address `a` visits the nodes `l` and ends in the null
address. `Tiles width lo l hi`: the blocks that start at the addresses `l` follow one another in
memory and fill `[lo, hi)`. -/

namespace YegaKernel.Lib.NullList

/-- From `a` on the nodes `l` are linked by `next`, and the last one is linked to `0`. -/
def Threaded (next : ℕ → ℕ) : ℕ → List ℕ → Prop
  | a, [] => a = 0
  | a, b :: l => a = b ∧ b ≠ 0 ∧ Threaded next (next b) l

section Threaded
variable {next next' : ℕ → ℕ}

theorem Threaded.ne_zero : ∀ {a : ℕ} {l : List ℕ}, Threaded next a l → ∀ b ∈ l, b ≠ 0
  | _, [], _, b, hb => absurd hb List.not_mem_nil
  | _, c :: l, ⟨_, hc, hl⟩, b, hb => by
    rcases List.mem_cons.mp hb with rfl | hb
    · exact hc
    · exact hl.ne_zero b hb

theorem Threaded.congr : ∀ {a : ℕ} {l : List ℕ}, Threaded next a l →
    (∀ b ∈ l, next' b = next b) → Threaded next' a l
  | _, [], h, _ => h
  | _, b :: l, ⟨hab, hb, hl⟩, heq => by
    refine ⟨hab, hb, ?_⟩
    rw [heq b List.mem_cons_self]
    exact hl.congr fun c hc => heq c (List.mem_cons_of_mem b hc)

theorem Threaded.eq_headD : ∀ {a : ℕ} {l : List ℕ}, Threaded next a l → a = l.headD 0
  | _, [], h => h
  | _, _ :: _, h => h.1

theorem Threaded.next_eq : ∀ {a a' : ℕ} {l : List ℕ}, Threaded next a l → Threaded next' a' l →
    ∀ b ∈ l, next b = next' b
  | _, _, [], _, _, b, hb => absurd hb List.not_mem_nil
  | _, _, c :: l, ⟨_, _, hl⟩, ⟨_, _, hl'⟩, b, hb => by
    rcases List.mem_cons.mp hb with rfl | hb
    · exact hl.eq_headD.trans hl'.eq_headD.symm
    · exact hl.next_eq hl' b hb

theorem Threaded.unique : ∀ {a : ℕ} {l l' : List ℕ}, Threaded next a l → Threaded next a l' → l = l'
  | _, [], [], _, _ => rfl
  | _, [], b :: l', h, ⟨hab, hb, _⟩ => absurd (hab.symm.trans h) hb
  | _, b :: l, [], ⟨hab, hb, _⟩, h => absurd (hab.symm.trans h) hb
  | _, b :: l, c :: l', ⟨hab, _, hl⟩, ⟨hac, _, hl'⟩ => by
    obtain rfl := hab.symm.trans hac
    rw [hl.unique hl']

theorem Threaded.suffix : ∀ {a : ℕ} {l l' : List ℕ} {b : ℕ}, Threaded next a (l ++ b :: l') →
    Threaded next b (b :: l')
  | _, [], _, _, ⟨_, hb, hl⟩ => ⟨rfl, hb, hl⟩
  | _, _ :: _, _, _, ⟨_, _, hl⟩ => hl.suffix

theorem Threaded.nodup : ∀ {a : ℕ} {l : List ℕ}, Threaded next a l → l.Nodup
  | _, [], _ => List.nodup_nil
  | _, b :: l, h => by
    refine List.nodup_cons.mpr ⟨fun hb => ?_, h.2.2.nodup⟩
    -- the list from the second visit would be the list from the first one
    obtain ⟨us, vs, rfl⟩ := List.append_of_mem hb
    have hsame : Threaded next b (b :: (us ++ b :: vs)) := ⟨rfl, h.2.1, h.2.2⟩
    have hlen := congrArg List.length (hsame.unique h.2.2.suffix)
    simp only [List.length_cons, List.length_append] at hlen
    omega

theorem Threaded.snoc : ∀ {a b c : ℕ} {l : List ℕ}, Threaded next a (l ++ [b]) →
    (∀ d ∈ l, next' d = next d) → next' b = c → c ≠ 0 → next' c = 0 →
      Threaded next' a (l ++ [b, c])
  | _, _, _, [], ⟨hab, hb, _⟩, _, hbc, hc, hn => ⟨hab, hb, hbc, hc, hn⟩
  | _, _, _, d :: l, ⟨had, hd, hl⟩, heq, hbc, hc, hn => by
    refine ⟨had, hd, ?_⟩
    rw [heq d List.mem_cons_self]
    exact hl.snoc (fun e he => heq e (List.mem_cons_of_mem d he)) hbc hc hn

end Threaded

/-- The blocks at `l`, each `width` long, fill `[lo, hi)` one behind the other. -/
def Tiles (width : ℕ → ℕ) : ℕ → List ℕ → ℕ → Prop
  | lo, [], hi => lo = hi
  | lo, b :: l, hi => b = lo ∧ Tiles width (lo + width b) l hi

section Tiles
variable {width width' : ℕ → ℕ}

theorem Tiles.congr : ∀ {lo hi : ℕ} {l : List ℕ}, Tiles width lo l hi →
    (∀ b ∈ l, width' b = width b) → Tiles width' lo l hi
  | _, _, [], h, _ => h
  | _, _, b :: l, ⟨hb, hl⟩, heq => by
    refine ⟨hb, ?_⟩
    rw [heq b List.mem_cons_self]
    exact hl.congr fun c hc => heq c (List.mem_cons_of_mem b hc)

theorem Tiles.unique : ∀ {lo hi hi' : ℕ} {l : List ℕ}, Tiles width lo l hi → Tiles width lo l hi' →
    hi = hi'
  | _, _, _, [], h, h' => Eq.trans (Eq.symm h) h'
  | _, _, _, _ :: _, ⟨_, hl⟩, ⟨_, hl'⟩ => hl.unique hl'

theorem Tiles.le : ∀ {lo hi : ℕ} {l : List ℕ}, Tiles width lo l hi → lo ≤ hi
  | _, _, [], h => Nat.le_of_eq h
  | _, _, _ :: _, ⟨_, hl⟩ => (Nat.le_add_right _ _).trans hl.le

theorem Tiles.mem_range : ∀ {lo hi : ℕ} {l : List ℕ}, Tiles width lo l hi → ∀ b ∈ l,
    lo ≤ b ∧ b + width b ≤ hi
  | _, _, [], _, b, hb => absurd hb List.not_mem_nil
  | lo, hi, c :: l, ⟨hc, hl⟩, b, hb => by
    rcases List.mem_cons.mp hb with rfl | hb
    · exact ⟨hc.ge, by rw [hc] at hl ⊢; exact hl.le⟩
    · obtain ⟨h1, h2⟩ := hl.mem_range b hb
      exact ⟨by omega, h2⟩

theorem Tiles.apart : ∀ {lo hi : ℕ} {l : List ℕ}, Tiles width lo l hi → ∀ b ∈ l, ∀ c ∈ l, b ≠ c →
    b + width b ≤ c ∨ c + width c ≤ b
  | _, _, [], _, b, hb, _, _, _ => absurd hb List.not_mem_nil
  | lo, hi, d :: l, ⟨hd, hl⟩, b, hb, c, hc, hne => by
    rcases List.mem_cons.mp hb with hbd | hbl
    · rcases List.mem_cons.mp hc with hcd | hcl
      · exact absurd (hbd.trans hcd.symm) hne
      · have := (hl.mem_range c hcl).1
        rw [hbd]
        omega
    · rcases List.mem_cons.mp hc with hcd | hcl
      · have := (hl.mem_range b hbl).1
        rw [hcd]
        omega
      · exact hl.apart b hbl c hcl hne

theorem Tiles.snoc : ∀ {lo hi : ℕ} {l : List ℕ}, Tiles width lo l hi →
    Tiles width lo (l ++ [hi]) (hi + width hi)
  | _, _, [], h => ⟨h.symm, by rw [h]; rfl⟩
  | _, _, _ :: _, ⟨hb, hl⟩ => ⟨hb, hl.snoc⟩

end Tiles

end YegaKernel.Lib.NullList
