import YegaKernel.Lib.Decimal
import YegaKernel.Lib.Word
import Mathlib.Data.List.GetD
import Mathlib.Data.Nat.Digits.Lemmas

/-! # Numbers on the serial port

`serial.c`: the two decimal printers and `printk`. A call gives the characters it sends, in order (the
port is always ready); it has no result if it writes behind its buffer, reads behind the end of the
format, or takes an argument that is not there.

An `int` is an integer from `-2 ^ 31` up to, but without, `2 ^ 31`, with arithmetic that wraps. So the
negation of `-2 ^ 31` is itself, and the loop over the digits, which runs as long as the number is
positive, prints none. An unsigned number is passed to the signed printer as it is.

`decimal_output_iff`: which numbers are printed right. -/

namespace YegaKernel.Drivers.Serial

open Lib.Decimal

/-! ### The code -/

/-- The `int` with the same 32 bits. -/
def toInt (n : ℤ) : ℤ := Int.bmod n (2 ^ 32)

/-- The byte of a character. -/
def ch (c : Char) : UInt8 := UInt8.ofNat c.toNat

/-- The bytes of a string constant. -/
def chars (s : String) : List UInt8 := s.toList.map ch

/-- `buf[i++] = c`, in a buffer with room for `size` bytes. -/
def push (size : ℕ) (buf : List UInt8) (c : UInt8) : Option (List UInt8) :=
  if buf.length < size then some (buf ++ [c]) else none

/-- `while (num > 0) { buf[i++] = '0' + (num % 10); num /= 10; }`. -/
def digitLoop (size : ℕ) : ℕ → ℤ → List UInt8 → Option (List UInt8)
  | 0, _, _ => none
  | fuel + 1, num, buf =>
    if 0 < num then do
      let buf ← push size buf (ch '0' + UInt8.ofNat (num.tmod 10).toNat)
      digitLoop size fuel (num.tdiv 10) buf
    else some buf

/-- `get_digits`; eleven rounds are enough for 32 bits. -/
def getDigits (size : ℕ) (buf : List UInt8) (num : ℤ) : Option (List UInt8) :=
  if num = 0 then push size buf (ch '0')
  else if num < 0 then do
    let buf ← digitLoop size 11 (toInt (-num)) buf
    push size buf (ch '-')
  else digitLoop size 11 num buf

/-- `while (i--) serial_writechar(buf[i])`. -/
def writeBack (buf : List UInt8) : ℕ → List UInt8
  | 0 => []
  | i + 1 => buf.getD i 0 :: writeBack buf i

def serialWriteint (num : ℤ) : Option (List UInt8) := do
  let buf ← getDigits 12 [] num
  some (writeBack buf buf.length)

def serialWritehex (num : ℕ) : List UInt8 :=
  chars "0x" ++ [28, 24, 20, 16, 12, 8, 4, 0].map fun i =>
    (chars "0123456789ABCDEF").getD (num / 2 ^ i % 16) 0

def serialWritedec (num : ℤ) : Option (List UInt8) :=
  if num = 0 then some (chars "0")
  else if num < 0 then do
    let buf ← digitLoop 16 11 (toInt (-num)) []
    some (chars "-" ++ writeBack buf buf.length)
  else do
    let buf ← digitLoop 16 11 num []
    some (writeBack buf buf.length)

/-- An argument of `printk`: 32 bits, or a string, which may be the null pointer. -/
inductive Arg
  | word (n : ℕ)
  | str (s : Option (List UInt8))

/-- `va_arg` of a number. -/
def vaWord : List Arg → Option (ℕ × List Arg)
  | .word n :: args => some (n, args)
  | _ => none

/-- A conversion whose argument is a number. -/
def withWord (args : List Arg) (f : ℕ → Option (List UInt8)) : Option (List UInt8 × List Arg) := do
  let (n, args) ← vaWord args
  let out ← f n
  some (out, args)

/-- The cases of the `switch` of `printk` without `l`: what is sent, and the arguments left. -/
def convert (c : UInt8) (args : List Arg) : Option (List UInt8 × List Arg) :=
  if c = ch 'd' then withWord args fun n => serialWritedec (toInt n)
  else if c = ch 'u' then withWord args fun n => serialWritedec (toInt n)
  else if c = ch 'x' then withWord args fun n => some (serialWritehex n)
  else if c = ch 'p' then withWord args fun n => some (chars "0x" ++ serialWritehex n)
  else if c = ch 'c' then withWord args fun n => some [UInt8.ofNat n]
  else if c = ch 's' then
    match args with
    | .str s :: args => some (s.getD (chars "(null)"), args)
    | _ => none
  else if c = ch '%' then some ([ch '%'], args)
  else some ([ch '%', c], args)

/-- The conversions behind `%l`. -/
def convertLong (c : UInt8) (args : List Arg) : Option (List UInt8 × List Arg) :=
  if c = ch 'd' then withWord args fun n => serialWritedec (toInt n)
  else if c = ch 'u' then withWord args fun n => serialWritedec (toInt n)
  else some ([ch '?'], args)

/-- `printk`, of a format without its terminator. A format that ends with `%` or `%l` is read behind
its end. -/
def printk : List UInt8 → List Arg → Option (List UInt8)
  | [], _ => some []
  | c :: format, args =>
    if c ≠ ch '%' then (printk format args).map (c :: ·)
    else
      match format with
      | [] => none
      | c :: format =>
        if c = ch 'l' then
          match format with
          | [] => none
          | c :: format => do
            let (out, args) ← convertLong c args
            (printk format args).map (out ++ ·)
        else do
          let (out, args) ← convert c args
          (printk format args).map (out ++ ·)

/-! ### The loops -/

theorem writeBack_eq (buf : List UInt8) : ∀ i ≤ buf.length, writeBack buf i = (buf.take i).reverse
  | 0, _ => rfl
  | i + 1, hi => by
    have hlt : i < buf.length := hi
    rw [writeBack, writeBack_eq buf i (by omega), List.take_add_one, List.getElem?_eq_getElem hlt,
      List.getD_eq_getElem _ _ hlt, List.reverse_append]
    rfl

theorem writeBack_length (buf : List UInt8) : writeBack buf buf.length = buf.reverse := by
  rw [writeBack_eq buf _ le_rfl, List.take_length]

variable {size : ℕ} {v : ℤ}

theorem push_of_lt {buf : List UInt8} (c : UInt8) (h : buf.length < size) :
    push size buf c = some (buf ++ [c]) := if_pos h

theorem digit_eq (n : ℕ) : ch '0' + UInt8.ofNat ((n : ℤ).tmod 10).toNat = digitChar (n % 10) := by
  have hmod : ((n : ℤ).tmod 10).toNat = n % 10 := by
    rw [Int.tmod_eq_emod_of_nonneg (by omega)]
    omega
  rw [hmod, digitChar, UInt8.ofNat_add]
  rfl

/-- **The loop writes the digits of the number**, the lowest first. -/
theorem digitLoop_eq (size : ℕ) : ∀ (rounds n : ℕ) (buf : List UInt8), n < 10 ^ rounds →
    buf.length + rounds ≤ size →
      digitLoop size (rounds + 1) n buf = some (buf ++ (Nat.digits 10 n).map digitChar)
  | 0, n, buf, hn, _ => by
    obtain rfl : n = 0 := by
      omega
    simp [digitLoop]
  | rounds + 1, n, buf, hn, hsize => by
    by_cases h0 : n = 0
    · subst h0
      simp [digitLoop]
    · have hdiv : (n : ℤ).tdiv 10 = ((n / 10 : ℕ) : ℤ) := by
        rw [Int.tdiv_eq_ediv_of_nonneg (by omega)]
        omega
      have hrest := digitLoop_eq size rounds (n / 10) (buf ++ [digitChar (n % 10)])
        (by omega) (by simp; omega)
      rw [digitLoop, if_pos (by omega), digit_eq, push_of_lt _ (show buf.length < size by omega),
        Option.bind_eq_bind, Option.bind_some, hdiv, hrest,
        Nat.digits_def' (by norm_num) (Nat.pos_of_ne_zero h0)]
      simp

theorem digitLoop_nonpos (fuel : ℕ) {v : ℤ} (hv : v ≤ 0) (buf : List UInt8) :
    digitLoop size (fuel + 1) v buf = some buf := by
  rw [digitLoop, if_neg (by omega)]

/-! ### The printers -/

/-- What the printers send for an `int`: the digits of its absolute value, none for `-2 ^ 31`. -/
def printed (v : ℤ) : List UInt8 :=
  if v = 0 then [48]
  else if v < 0 then 45 :: decimalChars (if v = -2 ^ 31 then 0 else v.natAbs)
  else decimalChars v.natAbs

theorem digitLoop_neg (hsize : 10 ≤ size) {v : ℤ} (hv : -2 ^ 31 ≤ v) (hneg : v < 0) :
    digitLoop size 11 (toInt (-v)) [] =
      some ((Nat.digits 10 (if v = -2 ^ 31 then 0 else v.natAbs)).map digitChar) := by
  by_cases hmin : v = -2 ^ 31
  · subst hmin
    rw [if_pos rfl, digitLoop_nonpos 10 (by decide)]
    simp
  · have hcast : toInt (-v) = (v.natAbs : ℤ) := by
      rw [toInt, Int.bmod_eq_of_le (by omega) (by omega)]
      omega
    rw [if_neg hmin, hcast, digitLoop_eq size 10 v.natAbs [] (by omega) (by simpa using hsize),
      List.nil_append]

theorem digitLoop_pos (hsize : 10 ≤ size) {v : ℤ} (hv : v < 2 ^ 31) (hpos : 0 < v) :
    digitLoop size 11 v [] = some ((Nat.digits 10 v.natAbs).map digitChar) := by
  have hcast : v = (v.natAbs : ℤ) := by omega
  conv_lhs => rw [hcast]
  rw [digitLoop_eq size 10 v.natAbs [] (by omega) (by simpa using hsize), List.nil_append]

theorem serialWritedec_eq (h1 : -2 ^ 31 ≤ v) (h2 : v < 2 ^ 31) :
    serialWritedec v = some (printed v) := by
  unfold serialWritedec printed
  by_cases h0 : v = 0
  · rw [if_pos h0, if_pos h0]
    rfl
  · rw [if_neg h0, if_neg h0]
    by_cases hneg : v < 0
    · rw [if_pos hneg, if_pos hneg, digitLoop_neg (by norm_num) h1 hneg, Option.bind_eq_bind,
        Option.bind_some, writeBack_length]
      rfl
    · rw [if_neg hneg, if_neg hneg, digitLoop_pos (by norm_num) h2 (by omega), Option.bind_eq_bind,
        Option.bind_some, writeBack_length]
      rfl

theorem serialWriteint_eq (h1 : -2 ^ 31 ≤ v) (h2 : v < 2 ^ 31) :
    serialWriteint v = some (printed v) := by
  unfold serialWriteint getDigits printed
  by_cases h0 : v = 0
  · rw [if_pos h0, if_pos h0]
    rfl
  · rw [if_neg h0, if_neg h0]
    by_cases hneg : v < 0
    · have hlen : (Nat.digits 10 (if v = -2 ^ 31 then 0 else v.natAbs)).length ≤ 10 := by
        rw [Nat.digits_length_le_iff (by norm_num)]
        split_ifs <;> omega
      rw [if_pos hneg, if_pos hneg, digitLoop_neg (by norm_num) h1 hneg, Option.bind_eq_bind,
        Option.bind_some, push_of_lt _ (by rw [List.length_map]; omega), Option.bind_some,
        writeBack_length, List.reverse_append]
      rfl
    · rw [if_neg hneg, if_neg hneg, digitLoop_pos (by norm_num) h2 (by omega), Option.bind_eq_bind,
        Option.bind_some, writeBack_length]
      rfl

theorem printed_denotes_iff (h : -2 ^ 31 ≤ v) : Denotes (printed v) v ↔ v ≠ -2 ^ 31 := by
  unfold printed
  by_cases h0 : v = 0
  · subst h0
    exact iff_of_true denotes_zero (by norm_num)
  · rw [if_neg h0]
    by_cases hneg : v < 0
    · rw [if_pos hneg]
      by_cases hmin : v = -2 ^ 31
      · rw [if_pos hmin]
        refine iff_of_false (fun hd => hd.of_minus.1 ?_) (not_not.mpr hmin)
        simp [decimalChars]
      · rw [if_neg hmin]
        have hd := denotes_neg_decimalChars (show 0 < v.natAbs by omega)
        rw [show -(v.natAbs : ℤ) = v by omega] at hd
        exact iff_of_true hd hmin
    · rw [if_neg hneg]
      have hd := denotes_decimalChars (show 0 < v.natAbs by omega)
      rw [show (v.natAbs : ℤ) = v by omega] at hd
      exact iff_of_true hd (by omega)

theorem toInt_range (n : ℤ) : -2 ^ 31 ≤ toInt n ∧ toInt n < 2 ^ 31 := by
  have h1 := Int.le_bmod (x := n) (m := 2 ^ 32) (by norm_num)
  have h2 := Int.bmod_lt (x := n) (m := 2 ^ 32) (by norm_num)
  unfold toInt
  omega

/-- An unsigned number is printed right if it is an `int` as well; otherwise a negative number is
printed. -/
theorem printed_unsigned_iff {u : ℕ} (hu : u < 2 ^ 32) :
    Denotes (printed (toInt u)) u ↔ u < 2 ^ 31 := by
  by_cases hlt : u < 2 ^ 31
  · have hsame : toInt u = u := Int.bmod_eq_of_le (by omega) (by omega)
    rw [hsame, printed_denotes_iff (by omega)]
    exact iff_of_true (by omega) hlt
  · have hneg : toInt u = u - 2 ^ 32 := by
      rw [toInt, Int.bmod_def]
      omega
    refine iff_of_false (fun hd => ?_) hlt
    rw [printed, if_neg (by omega), if_pos (by omega)] at hd
    have := hd.of_minus.2
    omega

/-! ### printk -/

theorem printk_char {c : UInt8} (h : c ≠ ch '%') (format : List UInt8) (args : List Arg) :
    printk (c :: format) args = (printk format args).map (c :: ·) := by
  rw [printk.eq_def]
  exact if_pos h

theorem printk_convert {c : UInt8} (h : c ≠ ch 'l') (format : List UInt8) (args : List Arg) :
    printk (ch '%' :: c :: format) args =
      (convert c args).bind fun r => (printk format r.2).map (r.1 ++ ·) := by
  rw [printk.eq_def]
  simp only
  rw [if_neg (not_not.mpr rfl), if_neg h]
  rfl

theorem printk_convertLong (c : UInt8) (format : List UInt8) (args : List Arg) :
    printk (ch '%' :: ch 'l' :: c :: format) args =
      (convertLong c args).bind fun r => (printk format r.2).map (r.1 ++ ·) := by
  rfl

theorem printk_append {text : List UInt8} (h : ch '%' ∉ text) (format : List UInt8)
    (args : List Arg) : printk (text ++ format) args = (printk format args).map (text ++ ·) := by
  induction text with
  | nil => simp
  | cons c text ih =>
    rw [List.mem_cons, not_or] at h
    rw [List.cons_append, printk_char (Ne.symm h.1), ih h.2, Option.map_map]
    rfl

theorem withWord_word (n : ℕ) (args : List Arg) (f : ℕ → Option (List UInt8)) :
    withWord (.word n :: args) f = (f n).map fun out => (out, args) := by
  unfold withWord
  rw [vaWord, Option.bind_eq_bind, Option.bind_some]
  cases h : f n with
  | none => simp [h]
  | some out => simp [h]

theorem printk_unsigned (u : ℕ) (format : List UInt8) (args : List Arg) {conv : String}
    (hconv : conv = "%u" ∨ conv = "%lu") : printk (chars conv ++ format) (.word u :: args) =
      (printk format args).map (printed (toInt u) ++ ·) := by
  have hdec := serialWritedec_eq (toInt_range u).1 (toInt_range u).2
  have hword : withWord (.word u :: args) (fun n => serialWritedec (toInt n)) =
      some (printed (toInt u), args) := by
    rw [withWord_word, hdec, Option.map_some]
  rcases hconv with rfl | rfl
  · have hc : convert (ch 'u') (.word u :: args) = some (printed (toInt u), args) := by
      unfold convert
      rw [if_neg (by decide), if_pos rfl, hword]
    have hsplit : chars "%u" ++ format = ch '%' :: ch 'u' :: format := rfl
    rw [hsplit, printk_convert (by decide), hc, Option.bind_some]
  · have hc : convertLong (ch 'u') (.word u :: args) = some (printed (toInt u), args) := by
      unfold convertLong
      rw [if_neg (by decide), if_pos rfl, hword]
    have hsplit : chars "%lu" ++ format = ch '%' :: ch 'l' :: ch 'u' :: format := rfl
    rw [hsplit, printk_convertLong, hc, Option.bind_some]

/-! ### Which numbers are printed right -/

/-- The conversion sends the decimal representation of the number, in every format that has it behind
some text, whatever follows. -/
def SendsUnsigned (conv : String) (u : ℕ) : Prop :=
  ∃ out, Denotes out u ∧ ∀ text format args tail, ch '%' ∉ text → printk format args = some tail →
    printk (text ++ (chars conv ++ format)) (.word u :: args) = some (text ++ (out ++ tail))

theorem sendsUnsigned_iff {conv : String} (hconv : conv = "%u" ∨ conv = "%lu") {u : ℕ}
    (hu : u < 2 ^ 32) : SendsUnsigned conv u ↔ u < 2 ^ 31 := by
  rw [← printed_unsigned_iff hu]
  constructor
  · rintro ⟨out, hout, hsends⟩
    have hone := hsends [] [] [] [] List.not_mem_nil rfl
    rw [List.nil_append, printk_unsigned u [] [] hconv, printk, Option.map_some] at hone
    have hsame : printed (toInt u) = out := by simpa using hone
    rwa [hsame]
  · intro hd
    refine ⟨_, hd, fun text format args tail htext htail => ?_⟩
    rw [printk_append htext, printk_unsigned u format args hconv, htail]
    rfl

/-- **Which numbers are printed right**: an `int` by the two printers unless it is `-2 ^ 31`, and an
unsigned number by `%u` and `%lu` if it is less than `2 ^ 31`. -/
theorem decimal_output_iff (v : ℤ) (h1 : -2 ^ 31 ≤ v) (h2 : v < 2 ^ 31) (u : ℕ) (hu : u < 2 ^ 32) :
    ((∃ out, serialWritedec v = some out ∧ Denotes out v) ↔ v ≠ -2 ^ 31) ∧
    ((∃ out, serialWriteint v = some out ∧ Denotes out v) ↔ v ≠ -2 ^ 31) ∧
    (SendsUnsigned "%u" u ↔ u < 2 ^ 31) ∧ (SendsUnsigned "%lu" u ↔ u < 2 ^ 31) := by
  refine ⟨?_, ?_, sendsUnsigned_iff (.inl rfl) hu, sendsUnsigned_iff (.inr rfl) hu⟩
  · rw [serialWritedec_eq h1 h2, ← printed_denotes_iff h1]
    simp
  · rw [serialWriteint_eq h1 h2, ← printed_denotes_iff h1]
    simp

theorem decimal_output_small : (∃ out, serialWritedec (-120) = some out ∧ Denotes out (-120)) ∧
    SendsUnsigned "%lu" 4096 := by
  obtain ⟨hdec, -, -, hlu⟩ := decimal_output_iff (-120) (by norm_num) (by norm_num) 4096 (by norm_num)
  exact ⟨hdec.mpr (by norm_num), hlu.mpr (by norm_num)⟩

/-- The least `int` is printed as a lone minus sign, and the greatest unsigned number as `-1`. -/
theorem decimal_output_extremes :
    (serialWritedec (-2 ^ 31) = some (chars "-") ∧ serialWriteint (-2 ^ 31) = some (chars "-") ∧
      ¬ Denotes (chars "-") (-2 ^ 31)) ∧
    (printk (chars "%u") [.word (2 ^ 32 - 1)] = some (chars "-1") ∧
      printk (chars "%lu") [.word (2 ^ 32 - 1)] = some (chars "-1") ∧
      ¬ Denotes (chars "-1") (2 ^ 32 - 1)) := by
  refine ⟨⟨by decide, by decide, fun h => ?_⟩, by decide +kernel, by decide +kernel, fun h => ?_⟩
  · have hminus : Denotes (45 :: []) (-2 ^ 31) := h
    exact hminus.of_minus.1 rfl
  · have hminus : Denotes (45 :: [49]) (2 ^ 32 - 1) := h
    exact absurd hminus.of_minus.2 (by norm_num)

end YegaKernel.Drivers.Serial
