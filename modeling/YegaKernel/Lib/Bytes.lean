import Mathlib.Tactic

/-! # Bytes, words and bits in memory

A stretch of memory is a function `ℕ → UInt8` of the offset, a record in it is the stretch that
starts at the record.

* `copy m off n src`: the first `n` bytes of `src` copied to the offset `off`.
* `load m off w`, `store m off w v`: the little-endian word of `w` bytes at `off`. A word that is
  stored is loaded again (`load_store`), and a store elsewhere leaves a word alone
  (`load_copy_apart`).
* `storeAll m fields`: the words of a record, each `(off, w, v)`, stored one after the other.
* `Agree n m m'`: the first `n` bytes are the same.
* `bit m i`: bit `i` of a bitmap, the least significant bit of a byte first. -/

namespace YegaKernel.Lib.Bytes

open Function

variable {m m' src : ℕ → UInt8} {off n o w i : ℕ}

theorem add_one_ne (c : UInt8) : c + 1 ≠ c := by
  intro h
  have h1 : (c + 1).toNat = c.toNat := congrArg UInt8.toNat h
  rw [UInt8.toNat_add] at h1
  simp only [UInt8.reduceToNat, Nat.reducePow] at h1
  omega

/-! ### Copies -/

/-- The memory from the offset on. -/
def view (m : ℕ → UInt8) (off : ℕ) : ℕ → UInt8 := fun i => m (off + i)

/-- `n` bytes copied to the offset. -/
def copy (m : ℕ → UInt8) (off n : ℕ) (src : ℕ → UInt8) : ℕ → UInt8 :=
  fun i => if off ≤ i ∧ i < off + n then src (i - off) else m i

/-- The first `n` bytes are the same. -/
def Agree (n : ℕ) (m m' : ℕ → UInt8) : Prop := ∀ i < n, m i = m' i

theorem Agree.refl (n : ℕ) (m : ℕ → UInt8) : Agree n m m := fun _ _ => rfl

theorem Agree.symm (h : Agree n m m') : Agree n m' m := fun i hi => (h i hi).symm

theorem Agree.trans {m'' : ℕ → UInt8} (h : Agree n m m') (h' : Agree n m' m'') : Agree n m m'' :=
  fun i hi => (h i hi).trans (h' i hi)

theorem Agree.mono (h : Agree n m m') (ho : o ≤ n) : Agree o m m' := fun i hi => h i (by omega)

theorem copy_of_mem (h : i < n) : copy m off n src (off + i) = src i := by
  simp [copy, h]

theorem copy_of_not_mem (h : i < off ∨ off + n ≤ i) : copy m off n src i = m i :=
  if_neg (by omega)

theorem view_copy (m : ℕ → UInt8) (off n : ℕ) (src : ℕ → UInt8) :
    Agree n (view (copy m off n src) off) src := fun _ hi => copy_of_mem hi

theorem agree_copy_zero (m : ℕ → UInt8) (n : ℕ) (src : ℕ → UInt8) : Agree n (copy m 0 n src) src :=
  fun i hi => by simp [copy, hi]

theorem view_copy_apart (h : o + w ≤ off ∨ off + n ≤ o) :
    Agree w (view (copy m off n src) o) (view m o) := fun _ _ => copy_of_not_mem (by omega)

/-! ### Words -/

/-- The little-endian word of `w` bytes at the offset. -/
def load (m : ℕ → UInt8) : ℕ → ℕ → ℕ
  | _, 0 => 0
  | off, w + 1 => (m off).toNat + 256 * load m (off + 1) w

/-- A word written to the offset, its lowest byte first. -/
def store (m : ℕ → UInt8) (off w v : ℕ) : ℕ → UInt8 :=
  copy m off w fun k => UInt8.ofNat (v / 256 ^ k)

theorem load_congr : ∀ {w off o : ℕ}, (∀ i < w, m (off + i) = m' (o + i)) → load m off w = load m' o w
  | 0, _, _, _ => rfl
  | w + 1, off, o, h => by
    have hrest : load m (off + 1) w = load m' (o + 1) w :=
      load_congr fun i hi => by
        have := h (i + 1) (by omega)
        rwa [Nat.add_comm i, ← Nat.add_assoc, ← Nat.add_assoc] at this
    rw [load, load, hrest, show m off = m' o from h 0 (by omega)]

theorem load_view (m : ℕ → UInt8) (off o w : ℕ) : load (view m off) o w = load m (off + o) w :=
  load_congr fun i _ => by rw [view, Nat.add_assoc]

theorem Agree.load_eq (h : Agree n m m') (ho : off + w ≤ n) : load m off w = load m' off w :=
  load_congr fun _ _ => h _ (by omega)

theorem load_lt (m : ℕ → UInt8) : ∀ off w, load m off w < 256 ^ w
  | _, 0 => by simp [load]
  | off, w + 1 => by
    have hb := (m off).toNat_lt
    have hrest := load_lt m (off + 1) w
    rw [load, pow_succ]
    omega

theorem load_digit (m : ℕ → UInt8) : ∀ {w off i : ℕ}, i < w →
    load m off w / 256 ^ i % 256 = (m (off + i)).toNat
  | w + 1, off, 0, _ => by
    have hb := (m off).toNat_lt
    rw [load, pow_zero, Nat.div_one, show off + 0 = off from rfl]
    omega
  | w + 1, off, i + 1, hi => by
    have hb := (m off).toNat_lt
    rw [load, pow_succ', ← Nat.div_div_eq_div_mul, show ((m off).toNat + 256 * load m (off + 1) w) / 256 =
      load m (off + 1) w by omega, load_digit m (by omega), Nat.add_right_comm, Nat.add_assoc]

theorem eq_of_load_eq (h : load m off w = load m' o w) (hi : i < w) : m (off + i) = m' (o + i) := by
  apply UInt8.toNat_inj.mp
  rw [← load_digit m hi, ← load_digit m' hi, h]

theorem load_copy_apart (h : o + w ≤ off ∨ off + n ≤ o) : load (copy m off n src) o w = load m o w :=
  load_congr fun _ _ => copy_of_not_mem (by omega)

theorem load_store_apart {v : ℕ} (h : o + w ≤ off ∨ off + n ≤ o) :
    load (store m off n v) o w = load m o w := load_copy_apart h

theorem load_digits (m : ℕ → UInt8) : ∀ (w off v : ℕ),
    (∀ i < w, m (off + i) = UInt8.ofNat (v / 256 ^ i)) → load m off w = v % 256 ^ w
  | 0, _, _, _ => by simp [load, Nat.mod_one]
  | w + 1, off, v, h => by
    have hrest : load m (off + 1) w = v / 256 % 256 ^ w :=
        load_digits m w (off + 1) (v / 256) fun i hi => by
      rw [Nat.div_div_eq_div_mul, ← pow_succ', Nat.add_assoc, Nat.add_comm 1]
      exact h (i + 1) (by omega)
    have h0 : (m off).toNat = v % 256 := by
      rw [show m off = UInt8.ofNat (v / 256 ^ 0) from h 0 (by omega), pow_zero, Nat.div_one]
      exact UInt8.toNat_ofNat'
    rw [load, hrest, h0, pow_succ', Nat.mod_mul]

/-- **A word that is stored is loaded again.** -/
theorem load_store (m : ℕ → UInt8) (off w v : ℕ) : load (store m off w v) off w = v % 256 ^ w :=
  load_digits _ w off v fun _ hi => copy_of_mem hi

theorem load_store_of_lt {v : ℕ} (h : v < 256 ^ w) : load (store m off w v) off w = v := by
  rw [load_store, Nat.mod_eq_of_lt h]

/-- The word whose bytes are all `c`. -/
def repeated (c : UInt8) (w : ℕ) : ℕ := load (fun _ => c) 0 w

theorem store_repeated {c : UInt8} (hi : i < w) : store m off w (repeated c w) (off + i) = c := by
  rw [store, copy_of_mem hi]
  apply UInt8.toNat_inj.mp
  rw [UInt8.toNat_ofNat', show 2 ^ 8 = 256 from rfl, repeated, load_digit _ hi]

theorem exists_load_store_ne (h1 : o < off + w) (h2 : off < o + w) :
    ∃ v < 256 ^ w, load (store m off w v) o w ≠ load m o w := by
  -- a byte that is both written and loaded
  obtain ⟨i, j, hi, hj, hij⟩ : ∃ i j, i < w ∧ j < w ∧ off + i = o + j := by
    rcases le_total off o with hle | hle
    · exact ⟨o - off, 0, by omega, by omega, by omega⟩
    · exact ⟨0, off - o, by omega, by omega, by omega⟩
  refine ⟨repeated (m (o + j) + 1) w, load_lt _ _ _, fun heq => ?_⟩
  have hbyte := eq_of_load_eq heq hj
  rw [← hij, store_repeated hi, hij] at hbyte
  exact add_one_ne _ hbyte

/-! ### Records -/

/-- The words `(off, w, v)`, stored one after the other. -/
def storeAll (m : ℕ → UInt8) (fields : List (ℕ × ℕ × ℕ)) : ℕ → UInt8 :=
  fields.foldl (fun m f => store m f.1 f.2.1 f.2.2) m

/-- Two words that do not meet. -/
def FieldsApart (f g : ℕ × ℕ × ℕ) : Prop := f.1 + f.2.1 ≤ g.1 ∨ g.1 + g.2.1 ≤ f.1

instance : DecidableRel FieldsApart := fun f g =>
  inferInstanceAs (Decidable (f.1 + f.2.1 ≤ g.1 ∨ g.1 + g.2.1 ≤ f.1))

theorem storeAll_of_not_mem : ∀ {fields : List (ℕ × ℕ × ℕ)} {m : ℕ → UInt8},
    (∀ f ∈ fields, i < f.1 ∨ f.1 + f.2.1 ≤ i) → storeAll m fields i = m i
  | [], _, _ => rfl
  | f :: fields, m, h => by
    have hrest := storeAll_of_not_mem (m := store m f.1 f.2.1 f.2.2)
      fun g hg => h g (List.mem_cons_of_mem f hg)
    exact hrest.trans (copy_of_not_mem (h f List.mem_cons_self))

theorem load_storeAll_apart {fields : List (ℕ × ℕ × ℕ)}
    (h : ∀ f ∈ fields, o + w ≤ f.1 ∨ f.1 + f.2.1 ≤ o) : load (storeAll m fields) o w = load m o w :=
  load_congr fun i hi => storeAll_of_not_mem fun f hf => by
    have := h f hf
    omega

/-- **Every word of a record is loaded again**, if no two of them meet. -/
theorem load_storeAll : ∀ {fields : List (ℕ × ℕ × ℕ)} {m : ℕ → UInt8},
    fields.Pairwise FieldsApart → ∀ f ∈ fields,
      load (storeAll m fields) f.1 f.2.1 = f.2.2 % 256 ^ f.2.1
  | [], _, _, _, hf => absurd hf List.not_mem_nil
  | g :: fields, m, h, f, hf => by
    rw [List.pairwise_cons] at h
    rcases List.mem_cons.mp hf with rfl | hf
    · exact (load_storeAll_apart h.1).trans (load_store m _ _ _)
    · exact load_storeAll h.2 f hf

theorem foldl_records_frame {size : ℕ} (g : ℕ → (ℕ → UInt8) → ℕ → UInt8)
    (hg : ∀ j m i, i < size * j ∨ size * j + size ≤ i → g j m i = m i) (m : ℕ → UInt8) {k : ℕ}
    (h : ∀ j < k, i < size * j ∨ size * j + size ≤ i) :
    (List.range k).foldl (fun m j => g j m) m i = m i := by
  induction k with
  | zero => rfl
  | succ k ih =>
    rw [List.range_succ, List.foldl_append, List.foldl_cons, List.foldl_nil,
      hg _ _ _ (h k k.lt_succ_self)]
    exact ih fun j hj => h j (by omega)

/-- A loop whose round `j` changes the record `j` only: the record after the loop is what its round
made of the record before. -/
theorem foldl_records {size : ℕ} (g : ℕ → (ℕ → UInt8) → ℕ → UInt8)
    (hg : ∀ j m i, i < size * j ∨ size * j + size ≤ i → g j m i = m i) (m : ℕ → UInt8) : ∀ {k j : ℕ},
    j < k → ∃ m', Agree size (view m' (size * j)) (view m (size * j)) ∧
      Agree size (view ((List.range k).foldl (fun m j => g j m) m) (size * j)) (view (g j m') (size * j))
  | k + 1, j, hj => by
    simp only [List.range_succ, List.foldl_append, List.foldl_cons, List.foldl_nil]
    by_cases hjk : j = k
    · subst hjk
      refine ⟨_, fun i hi => ?_, Agree.refl _ _⟩
      exact foldl_records_frame g hg m fun a ha => by
        have := Nat.mul_le_mul_left size (Nat.succ_le_of_lt ha)
        rw [Nat.mul_succ] at this
        omega
    · obtain ⟨m', h1, h2⟩ := foldl_records g hg m (show j < k by omega)
      refine ⟨m', h1, fun i hi => Eq.trans (hg _ _ _ ?_) (h2 i hi)⟩
      have := Nat.mul_le_mul_left size (show j + 1 ≤ k by omega)
      rw [Nat.mul_succ] at this
      omega

/-! ### Bits -/

/-- Bit `i` of the bitmap. -/
def bit (m : ℕ → UInt8) (i : ℕ) : Bool := (m (i / 8)).toNat.testBit (i % 8)

theorem testBit_mask {k : ℕ} (hk : k < 8) (j : ℕ) :
    ((1 : UInt8) <<< UInt8.ofNat k).toNat.testBit j = decide (j = k) := by
  have hmask : ((1 : UInt8) <<< UInt8.ofNat k).toNat = 2 ^ k := by
    interval_cases k <;> rfl
  rw [hmask, Nat.testBit_two_pow]
  exact decide_eq_decide.mpr eq_comm

theorem bit_update_of_ne {b : UInt8} (h : i / 8 ≠ o) : bit (update m o b) i = bit m i := by
  rw [bit, bit, update_of_ne h]

theorem same_bit_iff (i k : ℕ) : i / 8 = k / 8 → (i % 8 = k % 8 ↔ i = k) := by omega

/-- Combining the byte of bit `k` with the mask of `k` changes this bit only. -/
theorem bit_mask {op : UInt8 → UInt8 → UInt8} {f : Bool → Bool → Bool}
    (hop : ∀ a b j, (op a b).toNat.testBit j = f (a.toNat.testBit j) (b.toNat.testBit j))
    (hf : ∀ x, f x false = x) (m : ℕ → UInt8) (k i : ℕ) :
    bit (update m (k / 8) (op (m (k / 8)) (1 <<< UInt8.ofNat (k % 8)))) i =
      f (bit m i) (decide (i = k)) := by
  by_cases h : i / 8 = k / 8
  · rw [bit, h, update_self, hop, testBit_mask (Nat.mod_lt k (by decide)), bit, h,
      decide_eq_decide.mpr (same_bit_iff i k h)]
  · have hne : i ≠ k := fun heq => h (by rw [heq])
    rw [bit_update_of_ne h, decide_eq_false hne, hf]

theorem bit_or (m : ℕ → UInt8) (k i : ℕ) :
    bit (update m (k / 8) (m (k / 8) ||| (1 <<< UInt8.ofNat (k % 8)))) i =
      (bit m i || decide (i = k)) := bit_mask (by simp) Bool.or_false m k i

theorem bit_xor (m : ℕ → UInt8) (k i : ℕ) :
    bit (update m (k / 8) (m (k / 8) ^^^ (1 <<< UInt8.ofNat (k % 8)))) i =
      (bit m i ^^ decide (i = k)) := bit_mask (by simp) Bool.xor_false m k i

theorem eq_255_iff (b : UInt8) : b = 255 ↔ ∀ k < 8, b.toNat.testBit k = true := by
  constructor
  · rintro rfl k hk
    interval_cases k <;> rfl
  · intro h
    apply UInt8.toNat_inj.mp
    refine Nat.eq_of_testBit_eq fun k => ?_
    rw [show (255 : UInt8).toNat = 2 ^ 8 - 1 from rfl, Nat.testBit_two_pow_sub_one]
    by_cases hk : k < 8
    · rw [h k hk, decide_eq_true hk]
    · have hlt : b.toNat < 2 ^ k :=
        lt_of_lt_of_le b.toNat_lt (Nat.pow_le_pow_right (by decide) (by omega))
      rw [Nat.testBit_lt_two_pow hlt, decide_eq_false hk]

theorem shift_and_one_iff (b : UInt8) {k : ℕ} (hk : k < 8) :
    (b >>> UInt8.ofNat k) &&& 1 = 0 ↔ b.toNat.testBit k = false := by
  have hk' : (UInt8.ofNat k).toNat % 8 = k := by
    rw [UInt8.toNat_ofNat']
    omega
  rw [← UInt8.toNat_inj, UInt8.toNat_and, UInt8.toNat_shiftRight, hk']
  rw [Nat.testBit, Nat.and_comm]
  simp

end YegaKernel.Lib.Bytes
