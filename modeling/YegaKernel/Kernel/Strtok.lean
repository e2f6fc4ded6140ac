import YegaKernel.Lib.Strings
import YegaKernel.Lib.Word

/-! # Splitting a string in place

`strtok` of `string.c`. Its two static variables, the position `buf` and the number `chars_left` of
characters from there on, are part of the state, together with the memory; the set of delimiters is
a string of its own that is not written to.

A call looks for the next delimiter from `buf` on and replaces it by a zero (`strtok_delim`). The two
variables stay in step: before every call the string at `buf` has `chars_left` characters. So the
calls up to the first null pointer return the pieces of the string between delimiters, one after the
other (`strtok_enumerates_split`). -/

namespace YegaKernel.Kernel.Strtok

open Lib.Bytes Lib.Strings Lib.Word Function

/-- The static variables of `strtok`, and the memory. -/
structure Tok where
  buf : ℕ
  charsLeft : ℕ
  mem : ℕ → UInt8

/-- The loop of `strlen`. -/
def strlenFrom (m : ℕ → UInt8) (s : ℕ) : ℕ → ℕ → Option ℕ
  | 0, _ => none
  | fuel + 1, i => if m (s + i) ≠ 0 then strlenFrom m s fuel (i + 1) else some i

def strlen (m : ℕ → UInt8) (fuel s : ℕ) : Option ℕ := strlenFrom m s fuel 0

/-- `char_in_set`, for the characters of the set before its terminator. -/
def charInSet (c : UInt8) : List UInt8 → Bool
  | [] => false
  | d :: set => if c = d then true else charInSet c set

/-- The loop of `strtok`, and what follows it when a delimiter is found. -/
def scanToken (delim : List UInt8) : ℕ → Tok → Option Tok
  | 0, _ => none
  | fuel + 1, s =>
    if !charInSet (s.mem s.buf) delim then
      if s.mem s.buf = 0 then some s
      else scanToken delim fuel { s with buf := s.buf + 1, charsLeft := sub32 s.charsLeft 1 }
    else
      some { buf := s.buf + 1, charsLeft := sub32 s.charsLeft 1
             mem := update s.mem s.buf 0 }

/-- The beginning of `strtok`: a string that is given is the one to split from now on. -/
def restart (fuel : ℕ) (s : Tok) (str : ℕ) : Option Tok :=
  if str ≠ 0 then
    (strlen s.mem fuel str).map fun n => { s with charsLeft := u32 n, buf := str }
  else some s

/-- `strtok`; the null pointer is 0. -/
def strtok (delim : List UInt8) (fuel : ℕ) (s : Tok) (str : ℕ) : Option (ℕ × Tok) := do
  let s ← restart fuel s str
  if s.charsLeft = 0 then some (0, s)
  else
    let s' ← scanToken delim fuel s
    some (s.buf, s')

/-- `strtok(str, delim)` and then `strtok(NULL, delim)`, until a call returns the null pointer: the
pointers that were returned, each with the memory at that moment, and the state at the end. -/
def strtokAll (delim : List UInt8) (fuel : ℕ) :
    ℕ → Tok → ℕ → Option (List (ℕ × (ℕ → UInt8)) × Tok)
  | 0, _, _ => none
  | calls + 1, s, str => do
    let (tok, s) ← strtok delim fuel s str
    if tok = 0 then some ([], s)
    else
      let (toks, s') ← strtokAll delim fuel calls s 0
      some ((tok, s.mem) :: toks, s')

/-! ### Pieces -/

/-- The pieces of a string between delimiters, without the last one if it is empty. -/
def pieces (delim t : List UInt8) : List (List UInt8) :=
  let l := t.splitOnP (· ∈ delim)
  if l.getLast? = some [] then l.dropLast else l

/-- Where the pieces start, if the first one starts at `p`. -/
def starts : ℕ → List (List UInt8) → List ℕ
  | _, [] => []
  | p, t :: ts => p :: starts (p + t.length + 1) ts

variable {delim t u v : List UInt8} {s : Tok}

theorem pieces_of_no_delim (h : ∀ c ∈ t, c ∉ delim) (hne : t ≠ []) : pieces delim t = [t] := by
  unfold pieces
  rw [List.splitOnP_eq_singleton (by simpa using h)]
  simp [hne]

theorem pieces_append_cons {d : UInt8} (h : ∀ c ∈ u, c ∉ delim)
    (hd : d ∈ delim) : pieces delim (u ++ d :: v) = u :: pieces delim v := by
  have hne := List.splitOnP_ne_nil (fun c => decide (c ∈ delim)) v
  unfold pieces
  rw [List.splitOnP_append_cons_of_forall_mem (by simpa using h) d (by simpa using hd) v]
  simp only [List.getLast?_cons, List.getLast?_eq_some_getLast hne, Option.getD_some]
  split_ifs
  · exact List.dropLast_cons_of_ne_nil hne
  · rfl

theorem exists_first_delim (delim t : List UInt8) : (∀ c ∈ t, c ∉ delim) ∨
    ∃ u d v, t = u ++ d :: v ∧ (∀ c ∈ u, c ∉ delim) ∧ d ∈ delim := by
  cases hf : t.find? (· ∈ delim) with
  | none => exact .inl (by simpa using hf)
  | some d =>
    obtain ⟨hd, u, v, rfl, hu⟩ := List.find?_eq_some_iff_append.mp hf
    exact .inr ⟨u, d, v, rfl, by simpa using hu, by simpa using hd⟩

/-! ### One call -/

theorem charInSet_eq (c : UInt8) : ∀ set : List UInt8, charInSet c set = decide (c ∈ set)
  | [] => by simp [charInSet]
  | d :: set => by
    rw [charInSet, charInSet_eq c set]
    by_cases h : c = d <;> simp [h]

theorem strlenFrom_eq {m : ℕ → UInt8} {p : ℕ} (ht : 0 ∉ t)
    (h : IsString (view m p) t) : ∀ (fuel i : ℕ), i ≤ t.length → t.length < i + fuel →
      strlenFrom m p fuel i = some t.length := by
  rw [isString_iff] at h
  intro fuel
  induction fuel with
  | zero =>
    omega
  | succ fuel ih =>
    intro i hi hf
    rw [strlenFrom]
    by_cases heq : i = t.length
    · subst heq
      have h0 : m (p + t.length) = 0 := h.2
      rw [if_neg (by simp [h0])]
    · have hlt : i < t.length := by omega
      have hc : m (p + i) = t[i] := h.1 i hlt
      have hne : m (p + i) ≠ 0 := fun h0 => ht (by rw [← h0, hc]; exact List.getElem_mem hlt)
      rw [if_pos hne]
      exact ih (i + 1) (by omega) (by omega)

theorem strlen_eq {m : ℕ → UInt8} {p fuel : ℕ} (ht : 0 ∉ t)
    (h : IsString (view m p) t) (hf : t.length < fuel) : strlen m fuel p = some t.length :=
  strlenFrom_eq ht h fuel 0 (Nat.zero_le _) (by omega)

theorem scanToken_skip : ∀ (u : List UInt8) (s : Tok) (fuel : ℕ),
    (∀ (i : ℕ) (h : i < u.length), s.mem (s.buf + i) = u[i]) → (∀ c ∈ u, c ∉ delim) → 0 ∉ u →
      u.length ≤ s.charsLeft → s.charsLeft < 2 ^ 32 → scanToken delim (u.length + fuel) s =
        scanToken delim fuel
          { s with buf := s.buf + u.length, charsLeft := s.charsLeft - u.length } := by
  intro u
  induction u with
  | nil =>
    simp
  | cons c u ih =>
    intro s fuel hm hd h0 hle hlt
    rw [List.mem_cons, not_or] at h0
    rw [List.length_cons] at hle
    have hc : s.mem s.buf = c := hm 0 (by simp)
    have hin : charInSet (s.mem s.buf) delim = false := by
      rw [hc, charInSet_eq]
      simpa using hd c (by simp)
    rw [List.length_cons, Nat.add_right_comm, scanToken, hin, Bool.not_false, if_pos rfl,
      if_neg (by rw [hc]; exact Ne.symm h0.1), sub32_of_le hlt (by omega),
      ih _ _ (fun i hi => ?_) (fun x hx => hd x (by simp [hx])) h0.2 (by simp; omega) (by simp; omega)]
    · simp only [Nat.add_assoc, Nat.add_comm 1, Nat.sub_sub]
    · have hi' := hm (i + 1) (by simpa using hi)
      rw [List.getElem_cons_succ] at hi'
      rw [← hi', Nat.add_assoc, Nat.add_comm 1]

/-- What the state is before a call: the string left to split is at `buf`. -/
structure Splitting (s : Tok) (t : List UInt8) : Prop where
  string : IsString (view s.mem s.buf) t
  nonzero : 0 ∉ t
  left : s.charsLeft = t.length
  nonnull : s.buf ≠ 0
  inside : s.buf + t.length < 2 ^ 32

theorem Splitting.left_lt (h : Splitting s t) : s.charsLeft < 2 ^ 32 := by
  have := h.inside
  rw [h.left]
  omega

theorem scanToken_last (hz : 0 ∉ delim) {s : Tok} {t : List UInt8}
    (h : Splitting s t) (hd : ∀ c ∈ t, c ∉ delim) {fuel : ℕ} (hf : t.length < fuel) :
    scanToken delim fuel s = some { s with buf := s.buf + t.length, charsLeft := 0 } := by
  obtain ⟨fuel, rfl⟩ : ∃ k, fuel = t.length + (k + 1) := ⟨fuel - t.length - 1, by omega⟩
  obtain ⟨hchars, hend⟩ := (isString_iff _ _).mp h.string
  have hzero : s.mem (s.buf + t.length) = 0 := hend
  rw [scanToken_skip t s _ hchars hd h.nonzero h.left.ge h.left_lt, scanToken, hzero, charInSet_eq]
  simp [hz, h.left]

theorem Splitting.char_eq (h : Splitting s (u ++ v)) (i : ℕ)
    (hi : i < u.length) : s.mem (s.buf + i) = u[i] := by
  have hchar := ((isString_iff _ _).mp h.string).1 i (by rw [List.length_append]; omega)
  rwa [List.getElem_append_left hi] at hchar

theorem scanToken_delim {d : UInt8}
    (h : Splitting s (u ++ d :: v)) (hu : ∀ c ∈ u, c ∉ delim) (hd : d ∈ delim) {fuel : ℕ}
    (hf : u.length < fuel) : scanToken delim fuel s =
      some { buf := s.buf + u.length + 1, charsLeft := v.length
             mem := update s.mem (s.buf + u.length) 0 } := by
  obtain ⟨fuel, rfl⟩ : ∃ k, fuel = u.length + (k + 1) := ⟨fuel - u.length - 1, by omega⟩
  obtain ⟨hchars, -⟩ := (isString_iff _ _).mp h.string
  have hleft : s.charsLeft = u.length + (v.length + 1) := by
    rw [h.left, List.length_append, List.length_cons]
  have hlt := h.left_lt
  have hdchar : s.mem (s.buf + u.length) = d := by
    have hi' := hchars u.length (by simp)
    simpa [view] using hi'
  have hu0 : 0 ∉ u := fun h0 => h.nonzero (List.mem_append_left _ h0)
  rw [scanToken_skip u s _ h.char_eq hu hu0 (by omega) hlt, scanToken, hdchar, charInSet_eq]
  simp only [hd, decide_true, Bool.not_true, Bool.false_eq_true, if_false]
  rw [hleft, Nat.add_sub_cancel_left, sub32_of_le (by omega) (by omega), Nat.add_sub_cancel]

section Calls
variable {delim t u v : List UInt8} {d : UInt8} {s : Tok} {fuel : ℕ}

/-- **One call**, at the end of the string ... -/
theorem strtok_end (h : Splitting s []) : strtok delim fuel s 0 = some (0, s) := by
  have hleft : s.charsLeft = 0 := h.left
  simp [strtok, restart, hleft]

theorem Splitting.left_ne_zero (h : Splitting s t) (hne : t ≠ []) : s.charsLeft ≠ 0 := by
  rw [h.left]
  exact fun h0 => hne (List.length_eq_zero_iff.mp h0)

theorem strtok_last (hz : 0 ∉ delim) (h : Splitting s t) (hne : t ≠ []) (hd : ∀ c ∈ t, c ∉ delim)
    (hf : t.length < fuel) : strtok delim fuel s 0 =
      some (s.buf, { s with buf := s.buf + t.length, charsLeft := 0 }) := by
  simp [strtok, restart, h.left_ne_zero hne, scanToken_last hz h hd hf]

section
variable (h : Splitting s (u ++ d :: v))
include h

theorem strtok_delim (hu : ∀ c ∈ u, c ∉ delim) (hd : d ∈ delim)
    (hf : u.length < fuel) : strtok delim fuel s 0 =
      some (s.buf, { buf := s.buf + u.length + 1, charsLeft := v.length
                     mem := update s.mem (s.buf + u.length) 0 }) := by
  simp [strtok, restart, h.left_ne_zero (by simp), scanToken_delim h hu hd hf]

theorem Splitting.rest :
    Splitting { buf := s.buf + u.length + 1, charsLeft := v.length
                mem := update s.mem (s.buf + u.length) 0 } v := by
  obtain ⟨hchars, hend⟩ := (isString_iff _ _).mp h.string
  have hin := h.inside
  rw [List.length_append, List.length_cons] at hin hend
  have hkept : ∀ j a, u.length < j → a = s.buf + j →
      update s.mem (s.buf + u.length) 0 a = view s.mem s.buf j := by
    rintro j a hj rfl
    exact update_of_ne (by omega) _ _
  refine ⟨(isString_iff _ _).mpr ⟨fun i hi => ?_, ?_⟩, fun h0 => h.nonzero (by simp [h0]), rfl,
    Nat.succ_ne_zero _, by simp only; omega⟩
  · have hi' := hchars (u.length + 1 + i) (by simp; omega)
    rw [List.getElem_append_right (by omega)] at hi'
    simp only [show u.length + 1 + i - u.length = i + 1 by omega, List.getElem_cons_succ] at hi'
    rw [← hi']
    exact hkept (u.length + 1 + i) (s.buf + u.length + 1 + i) (by omega) (by omega)
  · have hlast := hkept (u.length + (v.length + 1)) (s.buf + u.length + 1 + v.length) (by omega)
      (by omega)
    exact hlast.trans hend

theorem Splitting.token : IsString (view (update s.mem (s.buf + u.length) 0) s.buf) u := by
  refine (isString_iff _ _).mpr ⟨fun i hi => ?_, update_self _ _ _⟩
  rw [view, update_of_ne (by omega), h.char_eq i hi]

end

end Calls

/-! ### All calls -/

/-- **The calls have enumerated the pieces of the string** `t` at `p`: the pointers lead to the
places where the pieces start, each piece is a string there when its call returns and still at the
end, and no byte outside of `t` is ever written. -/
structure Enumerated (delim : List UInt8) (m : ℕ → UInt8) (p : ℕ) (t : List UInt8)
    (toks : List (ℕ × (ℕ → UInt8))) (m' : ℕ → UInt8) : Prop where
  starts : toks.map Prod.fst = starts p (pieces delim t)
  strings : List.Forall₂ (fun tok piece => IsString (view tok.2 tok.1) piece ∧
    IsString (view m' tok.1) piece) toks (pieces delim t)
  frame : ∀ m₁, m₁ = m' ∨ m₁ ∈ toks.map Prod.snd →
    ∀ a, a < p ∨ p + t.length ≤ a → m₁ a = m a

theorem enumerated_nil (delim : List UInt8) (m : ℕ → UInt8) (p : ℕ) :
    Enumerated delim m p [] [] m := by
  refine ⟨rfl, .nil, ?_⟩
  rintro m₁ (rfl | h) a _
  · rfl
  · simp at h

variable {delim : List UInt8}

theorem enumerated_single {m : ℕ → UInt8} {p : ℕ} {t : List UInt8}
    (hs : IsString (view m p) t) (hne : t ≠ []) (hd : ∀ c ∈ t, c ∉ delim) :
    Enumerated delim m p t [(p, m)] m := by
  refine ⟨by rw [pieces_of_no_delim hd hne]; rfl, ?_, ?_⟩
  · rw [pieces_of_no_delim hd hne]
    exact .cons ⟨hs, hs⟩ .nil
  · rintro m₁ (rfl | h) a _
    · rfl
    · rw [List.map_cons, List.map_nil, List.mem_singleton] at h
      rw [h]

/-- **One more piece** in front of those of the rest. -/
theorem Enumerated.cons {u v : List UInt8} {d : UInt8} {s : Tok}
    {toks : List (ℕ × (ℕ → UInt8))} {m' : ℕ → UInt8} (h : Splitting s (u ++ d :: v))
    (hu : ∀ c ∈ u, c ∉ delim) (hd : d ∈ delim)
    (he : Enumerated delim (update s.mem (s.buf + u.length) 0) (s.buf + u.length + 1) v toks m') :
    Enumerated delim s.mem s.buf (u ++ d :: v)
      ((s.buf, update s.mem (s.buf + u.length) 0) :: toks) m' := by
  have htoken := h.token
  refine ⟨?_, ?_, ?_⟩
  · rw [pieces_append_cons hu hd, List.map_cons, he.starts, Strtok.starts]
  · rw [pieces_append_cons hu hd]
    refine .cons ⟨htoken, htoken.congr fun i hi => ?_⟩ he.strings
    exact (he.frame m' (.inl rfl) _ (by omega)).symm
  · -- the call writes to the delimiter, the later ones to the rest
    have hfirst : ∀ a, a < s.buf ∨ s.buf + (u ++ d :: v).length ≤ a →
        update s.mem (s.buf + u.length) 0 a = s.mem a := fun a ha => by
      rw [List.length_append, List.length_cons] at ha
      exact update_of_ne (by omega) _ _
    intro m₁ hm₁ a ha
    rw [← hfirst a ha]
    rw [List.length_append, List.length_cons] at ha
    rcases hm₁ with rfl | hm₁
    · exact he.frame _ (.inl rfl) a (by omega)
    · rw [List.map_cons, List.mem_cons] at hm₁
      rcases hm₁ with rfl | hm₁
      · rfl
      · exact he.frame _ (.inr hm₁) a (by omega)

/-- **The run**: from a string left to split, the calls enumerate its pieces. -/
theorem strtokAll_splitting (hz : 0 ∉ delim) : ∀ (n : ℕ) {t : List UInt8}
    {s : Tok}, t.length ≤ n → Splitting s t → ∃ toks s',
      (∀ fuel calls, t.length < fuel → t.length < calls →
        strtokAll delim fuel calls s 0 = some (toks, s')) ∧
      Enumerated delim s.mem s.buf t toks s'.mem := by
  intro n
  induction n with
  | zero =>
    intro t s hn h
    obtain rfl : t = [] := List.length_eq_zero_iff.mp (by omega)
    refine ⟨[], s, fun fuel calls _ hc => ?_, enumerated_nil delim s.mem s.buf⟩
    obtain ⟨calls, rfl⟩ := Nat.exists_eq_add_of_lt hc
    simp [strtokAll, strtok_end h]
  | succ n ih =>
    intro t s hn h
    by_cases hne : t = []
    · subst hne
      exact ih (Nat.zero_le n) h
    · rcases exists_first_delim delim t with hd | ⟨u, d, v, rfl, hu, hd⟩
      · -- the call after the last one finds no character left
        have hend : Splitting { s with buf := s.buf + t.length, charsLeft := 0 } [] :=
          ⟨(isString_nil _).mpr ((isString_iff _ _).mp h.string).2, List.not_mem_nil, rfl,
            fun h0 => h.nonnull (by simp only at h0; omega), h.inside⟩
        refine ⟨[(s.buf, s.mem)], { s with buf := s.buf + t.length, charsLeft := 0 },
          fun fuel calls hf hc => ?_, enumerated_single h.string hne hd⟩
        have hlen : 0 < t.length := List.length_pos_iff.mpr hne
        obtain ⟨calls, rfl⟩ : ∃ k, calls = k + 1 + 1 := ⟨calls - 2, by omega⟩
        simp [strtokAll, strtok_last hz h hne hd hf, strtok_end hend, h.nonnull]
      · rw [List.length_append, List.length_cons] at hn
        obtain ⟨toks, s', hrun, he⟩ := ih (by omega) h.rest
        refine ⟨_, s', fun fuel calls hf hc => ?_, he.cons h hu hd⟩
        rw [List.length_append, List.length_cons] at hf hc
        obtain ⟨calls, rfl⟩ : ∃ k, calls = k + 1 := ⟨calls - 1, by omega⟩
        have hcall := strtok_delim h hu hd (show u.length < fuel by omega)
        have hrest := hrun fuel calls (by omega) (by omega)
        simp [strtokAll, hcall, h.nonnull, hrest]

theorem strtokAll_first {t : List UInt8} (ht : 0 ∉ t) {s : Tok} {p fuel : ℕ} (hp : p ≠ 0)
    (hs : IsString (view s.mem p) t) (hf : t.length < fuel) (hlt : p + t.length < 2 ^ 32)
    (calls : ℕ) : strtokAll delim fuel calls s p =
      strtokAll delim fuel calls { s with buf := p, charsLeft := t.length } 0 := by
  cases calls with
  | zero => rfl
  | succ calls =>
    have hcall : strtok delim fuel s p =
        strtok delim fuel { s with buf := p, charsLeft := t.length } 0 := by
      have hstart : restart fuel s p = some { s with buf := p, charsLeft := t.length } := by
        rw [restart, if_pos hp, strlen_eq ht hs hf, Option.map_some, u32_of_lt (by omega)]
      rw [strtok, strtok, hstart, restart, if_neg (not_not.mpr rfl)]
    rw [strtokAll, strtokAll, hcall]

/-- **`strtok` enumerates the split of its string**, whatever the static variables were before: the
calls come to an end, and what they return are the pieces of `s` between delimiters, without the
last one if it is empty. -/
theorem strtok_enumerates_split (s delim : CString) (p : ℕ) (st : Tok) (hp : p ≠ 0)
    (hlt : p + s.chars.length < 2 ^ 32) (hs : IsString (view st.mem p) s.chars) :
    ∃ toks st', (∀ fuel calls, s.chars.length < fuel → s.chars.length < calls →
        strtokAll delim.chars fuel calls st p = some (toks, st')) ∧
      Enumerated delim.chars st.mem p s.chars toks st'.mem := by
  have hsplit : Splitting { st with buf := p, charsLeft := s.chars.length } s.chars :=
    ⟨hs, s.nonzero, rfl, hp, hlt⟩
  obtain ⟨toks, st', hrun, he⟩ := strtokAll_splitting delim.nonzero _ le_rfl hsplit
  refine ⟨toks, st', fun fuel calls hf hc => ?_, he⟩
  rw [strtokAll_first s.nonzero hp hs hf hlt]
  exact hrun fuel calls hf hc

/-- "/a//b/" at the address 16. -/
def pathMemory : ℕ → UInt8 := fun a => [47, 97, 47, 47, 98, 47].getD (a - 16) 0

/-- The pieces of "/a//b/" are "", "a", "" and "b". -/
theorem strtok_path : ∃ toks st', strtokAll [47] 7 7 ⟨0, 0, pathMemory⟩ 16 = some (toks, st') ∧
    toks.map Prod.fst = [16, 17, 19, 20] := by
  obtain ⟨toks, st', hrun, he⟩ := strtok_enumerates_split ⟨[47, 97, 47, 47, 98, 47], by decide⟩
    ⟨[47], by decide⟩ 16 ⟨0, 0, pathMemory⟩ (by norm_num) (by norm_num) (by decide)
  exact ⟨toks, st', hrun 7 7 (by decide) (by decide), he.starts.trans (by decide)⟩

end YegaKernel.Kernel.Strtok
