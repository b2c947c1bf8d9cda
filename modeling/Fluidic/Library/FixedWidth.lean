import Mathlib.Data.List.Induction
import Mathlib.Data.Nat.Basic
import Mathlib.Tactic.Ring

/-!
# Unsigned machine integers of a fixed width, and their byte encodings

A machine integer of width `w` is a natural number below `2 ^ w`. The wrapping operations reduce
modulo `2 ^ w`, the saturating ones stop at `2 ^ w - 1` and the checked ones fail. A saturating
subtraction is the truncated subtraction of the natural numbers and needs no definition of its own.

`wrappingAdd_of_lt` and `wrappingSub_of_le` say when a wrapping operation is exact, and
`saturatingMul_div_le` is the bound that a saturated product keeps: a share of at most the whole
never exceeds the whole, also where the product saturates. A checked sum of a list fails unless the
whole sum fits (`checkedSum_eq`).
-/

set_option autoImplicit false
set_option relaxedAutoImplicit false

namespace Fluidic.Library

/-! ### Arithmetic -/

/-- Addition modulo `2 ^ width`. -/
def wrappingAdd (width a b : ℕ) : ℕ := (a + b) % 2 ^ width

/-- Subtraction modulo `2 ^ width`, of operands below `2 ^ width`. -/
def wrappingSub (width a b : ℕ) : ℕ := (a + 2 ^ width - b) % 2 ^ width

/-- Addition that stops at `2 ^ width - 1`. -/
def saturatingAdd (width a b : ℕ) : ℕ := min (a + b) (2 ^ width - 1)

/-- Multiplication that stops at `2 ^ width - 1`. -/
def saturatingMul (width a b : ℕ) : ℕ := min (a * b) (2 ^ width - 1)

/-- Addition that fails when the sum does not fit. -/
def checkedAdd (width a b : ℕ) : Option ℕ := if a + b < 2 ^ width then some (a + b) else none

/-- The sum of a list, which fails when a partial sum does not fit. -/
def checkedSum (width : ℕ) (terms : List ℕ) : Option ℕ := terms.foldlM (checkedAdd width) 0

/-- Subtraction that fails when the difference is negative. -/
def checkedSub (a b : ℕ) : Option ℕ := if b ≤ a then some (a - b) else none

/-- Multiplication that fails when the product does not fit. -/
def checkedMul (width a b : ℕ) : Option ℕ := if a * b < 2 ^ width then some (a * b) else none

/-- Addition of signed integers that fails when the sum does not fit. -/
def checkedAddSigned (width : ℕ) (a b : ℤ) : Option ℤ :=
  if -2 ^ (width - 1) ≤ a + b ∧ a + b < 2 ^ (width - 1) then some (a + b) else none

/-- A wrapping sum that fits its width is the sum. Assumes: the sum is below `2 ^ width`. -/
theorem wrappingAdd_of_lt {width a b : ℕ} (hsum : a + b < 2 ^ width) :
    wrappingAdd width a b = a + b :=
  Nat.mod_eq_of_lt hsum

/-- A wrapping difference of an operand that is not exceeded is the difference. Assumes: the
first operand fits the width and the second is at most the first. -/
theorem wrappingSub_of_le {width a b : ℕ} (hwidth : a < 2 ^ width) (hle : b ≤ a) :
    wrappingSub width a b = a - b := by
  have hshift : a + 2 ^ width - b = a - b + 2 ^ width := by omega
  rw [wrappingSub, hshift, Nat.add_mod_right]
  exact Nat.mod_eq_of_lt (by omega)

/-- A wrapping sum is at least its first operand if and only if it does not wrap. Assumes: the
operands fit the width. -/
theorem le_wrappingAdd_iff {width a b : ℕ} (ha : a < 2 ^ width) (hb : b < 2 ^ width) :
    a ≤ wrappingAdd width a b ↔ a + b < 2 ^ width := by
  constructor
  · intro hle
    by_contra hover
    have hwrapped : wrappingAdd width a b = a + b - 2 ^ width := by
      rw [wrappingAdd, Nat.mod_eq_sub_mod (Nat.le_of_not_lt hover), Nat.mod_eq_of_lt (by omega)]
    omega
  · intro hsum
    rw [wrappingAdd_of_lt hsum]
    exact Nat.le_add_right a b

/-- Shares in proportion to the parts of a total do not exceed the amount, also where a product
saturates. Assumes: the parts are at most the total. -/
theorem sum_saturatingMul_div_le {width amount total : ℕ} {parts : List ℕ}
    (hparts : parts.sum ≤ total) :
    (parts.map fun part ↦ saturatingMul width amount part / total).sum ≤ amount := by
  have hscaled : total * (parts.map fun part ↦ saturatingMul width amount part / total).sum ≤
      amount * parts.sum := by
    clear hparts
    induction parts with
    | nil => simp
    | cons part parts ih =>
      have hshare : total * (saturatingMul width amount part / total) ≤ amount * part :=
        (Nat.mul_div_le _ _).trans (min_le_left _ _)
      rw [List.map_cons, List.sum_cons, List.sum_cons, Nat.mul_add, Nat.mul_add]
      exact Nat.add_le_add hshare ih
  obtain rfl | hpositive := Nat.eq_zero_or_pos total
  · simp [List.map_const']
  · refine Nat.le_of_mul_le_mul_left ?_ hpositive
    calc total * (parts.map fun part ↦ saturatingMul width amount part / total).sum
        ≤ amount * parts.sum := hscaled
      _ ≤ amount * total := Nat.mul_le_mul_left amount hparts
      _ = total * amount := Nat.mul_comm amount total

/-- Rounding down, the shares of a total lose less than one unit each. Assumes: the parts make up
the total, which is positive. -/
theorem le_sum_mul_div {amount total : ℕ} {parts : List ℕ} (hparts : parts.sum = total)
    (hpositive : 0 < total) :
    amount ≤ (parts.map fun part ↦ amount * part / total).sum + parts.length := by
  have hscaled : amount * parts.sum ≤
      total * ((parts.map fun part ↦ amount * part / total).sum + parts.length) := by
    clear hparts
    induction parts with
    | nil => simp
    | cons part parts ih =>
      have hshare : amount * part ≤ total * (amount * part / total + 1) :=
        (Nat.lt_mul_div_succ _ hpositive).le
      rw [List.map_cons, List.sum_cons, List.sum_cons, List.length_cons, Nat.mul_add amount]
      calc amount * part + amount * parts.sum
          ≤ total * (amount * part / total + 1) +
              total * ((parts.map fun part ↦ amount * part / total).sum + parts.length) :=
            Nat.add_le_add hshare ih
        _ = _ := by ring
  rw [hparts, Nat.mul_comm] at hscaled
  exact Nat.le_of_mul_le_mul_left hscaled hpositive

/-- A quotient of a capped product is the quotient if and only if the cap takes less than a whole.
Assumes: the divisor is positive. -/
theorem min_div_eq_iff {product cap divisor : ℕ} (hdivisor : 0 < divisor) :
    min product cap / divisor = product / divisor ↔ product < (cap / divisor + 1) * divisor := by
  rw [← Nat.div_lt_iff_lt_mul hdivisor, Nat.lt_succ_iff]
  obtain hsmall | hlarge := Nat.le_total product cap
  · rw [Nat.min_eq_left hsmall]
    exact ⟨fun _ ↦ Nat.div_le_div_right hsmall, fun _ ↦ rfl⟩
  · rw [Nat.min_eq_right hlarge]
    exact ⟨fun heq ↦ heq.ge, fun hle ↦ (Nat.div_le_div_right hlarge).antisymm hle⟩

/-- A share of at most the whole is at most the whole, also where the product saturates.
Assumes: the part is at most the denominator. -/
theorem saturatingMul_div_le {width amount part whole : ℕ} (hpart : part ≤ whole) :
    saturatingMul width amount part / whole ≤ amount := by
  have hproduct : saturatingMul width amount part ≤ amount * whole :=
    le_trans (min_le_left _ _) (Nat.mul_le_mul_left amount hpart)
  exact Nat.div_le_of_le_mul (by rw [Nat.mul_comm]; exact hproduct)

/-- A checked sum of a list is the sum, and fails unless the whole sum fits: a partial sum is at
most the whole one. -/
theorem checkedSum_eq (width : ℕ) (terms : List ℕ) :
    checkedSum width terms = if terms.sum < 2 ^ width then some terms.sum else none := by
  induction terms using List.reverseRecOn with
  | nil => exact (if_pos (Nat.two_pow_pos width)).symm
  | append_singleton terms term ih =>
    have hlast : checkedSum width (terms ++ [term]) =
        (checkedSum width terms).bind fun total ↦ checkedAdd width total term := by
      unfold checkedSum
      rw [List.foldlM_append, Option.bind_eq_bind]
      refine congrArg _ (funext fun total ↦ ?_)
      rw [List.foldlM_cons]
      exact bind_pure _
    rw [hlast, ih, List.sum_append, List.sum_singleton]
    by_cases hearlier : terms.sum < 2 ^ width
    · rw [if_pos hearlier]
      rfl
    · rw [if_neg hearlier, if_neg (by omega)]
      rfl

/-- A running sum that saturates is the sum, saturated. -/
theorem foldl_saturatingAdd (width : ℕ) (amounts : List ℕ) {start : ℕ}
    (hstart : start < 2 ^ width) :
    amounts.foldl (saturatingAdd width) start = min (start + amounts.sum) (2 ^ width - 1) := by
  induction amounts generalizing start with
  | nil =>
    rw [List.foldl_nil, List.sum_nil]
    omega
  | cons amount amounts ih =>
    have hnext : saturatingAdd width start amount < 2 ^ width := by
      unfold saturatingAdd
      omega
    rw [List.foldl_cons, ih hnext, List.sum_cons]
    unfold saturatingAdd
    omega

/-- A saturating product grows with its factors. Assumes: each factor is at most the later one. -/
theorem saturatingMul_le_saturatingMul {width a a' b b' : ℕ} (hleft : a ≤ a') (hright : b ≤ b') :
    saturatingMul width a b ≤ saturatingMul width a' b' :=
  min_le_min_right _ (Nat.mul_le_mul hleft hright)

/-- Saturating the factors first changes no saturating product. Assumes: the factors are positive.
-/
theorem saturatingMul_min {width a b : ℕ} (ha : 0 < a) (hb : 0 < b) :
    saturatingMul width (min a (2 ^ width - 1)) (min b (2 ^ width - 1)) =
      min (a * b) (2 ^ width - 1) := by
  unfold saturatingMul
  have hleft : a ≤ a * b := Nat.le_mul_of_pos_right a hb
  have hright : b ≤ a * b := Nat.le_mul_of_pos_left b ha
  obtain hfirst | hfirst := Nat.le_total a (2 ^ width - 1)
  · obtain hsecond | hsecond := Nat.le_total b (2 ^ width - 1)
    · rw [Nat.min_eq_left hfirst, Nat.min_eq_left hsecond]
    · have hproduct : 2 ^ width - 1 ≤ a * (2 ^ width - 1) := Nat.le_mul_of_pos_left _ ha
      rw [Nat.min_eq_left hfirst, Nat.min_eq_right hsecond, Nat.min_eq_right hproduct,
        Nat.min_eq_right (hsecond.trans hright)]
  · have hproduct : 2 ^ width - 1 ≤ (2 ^ width - 1) * min b (2 ^ width - 1) := by
      obtain hzero | hpositive := Nat.eq_zero_or_pos (2 ^ width - 1)
      · rw [hzero]
        exact Nat.zero_le _
      · exact Nat.le_mul_of_pos_right _ (lt_min hb hpositive)
    rw [Nat.min_eq_right hfirst, Nat.min_eq_right hproduct,
      Nat.min_eq_right (hfirst.trans hleft)]

/-! ### Byte strings -/

/-- The `count` low bytes of a number, least significant first. -/
def leBytes : ℕ → ℕ → List UInt8
  | 0, _ => []
  | count + 1, value => UInt8.ofNat (value % 256) :: leBytes count (value / 256)

/-- The `count` low bytes of a number, most significant first. -/
def beBytes (count value : ℕ) : List UInt8 := (leBytes count value).reverse

@[simp] theorem length_leBytes (count value : ℕ) : (leBytes count value).length = count := by
  induction count generalizing value with
  | zero => rfl
  | succ count ih => rw [leBytes, List.length_cons, ih]

@[simp] theorem length_beBytes (count value : ℕ) : (beBytes count value).length = count := by
  rw [beBytes, List.length_reverse, length_leBytes]

/-- The low bytes of a number that fits them determine it. Assumes: both numbers fit the bytes, and
the bytes are the same. -/
theorem leBytes_inj {count first second : ℕ} (hfirst : first < 256 ^ count)
    (hsecond : second < 256 ^ count) (hbytes : leBytes count first = leBytes count second) :
    first = second := by
  induction count generalizing first second with
  | zero => omega
  | succ count ih =>
    obtain ⟨hlow, hhigh⟩ := List.cons.inj hbytes
    rw [pow_succ] at hfirst hsecond
    have hrest := ih (Nat.div_lt_of_lt_mul (by omega)) (Nat.div_lt_of_lt_mul (by omega)) hhigh
    have hdigit : first % 256 = second % 256 := by
      have hnat := congrArg UInt8.toNat hlow
      simpa using hnat
    omega

/-- Eight little-endian bytes determine a `u64`. Assumes: both numbers fit 64 bits, and the bytes
are the same. -/
theorem u64_eq_of_leBytes {first second : ℕ} (hfirst : first < 2 ^ 64) (hsecond : second < 2 ^ 64)
    (hbytes : leBytes 8 first = leBytes 8 second) : first = second :=
  leBytes_inj (lt_of_lt_of_eq hfirst (by norm_num)) (lt_of_lt_of_eq hsecond (by norm_num)) hbytes

/-- Sixteen little-endian bytes determine a `u128`. Assumes: both numbers are below 2^128, and their
bytes are the same. -/
theorem u128_eq_of_leBytes {first second : ℕ} (hfirst : first < 2 ^ 128)
    (hsecond : second < 2 ^ 128) (hbytes : leBytes 16 first = leBytes 16 second) :
    first = second :=
  leBytes_inj (lt_of_lt_of_eq hfirst (by norm_num)) (lt_of_lt_of_eq hsecond (by norm_num)) hbytes

/-- The bytes of a number, most significant first, determine it. Assumes: both numbers fit the
bytes, and the bytes are the same. -/
theorem beBytes_inj {count first second : ℕ} (hfirst : first < 256 ^ count)
    (hsecond : second < 256 ^ count) (hbytes : beBytes count first = beBytes count second) :
    first = second :=
  leBytes_inj hfirst hsecond (List.reverse_inj.mp hbytes)

/-- The number that a byte string spells, most significant byte first. -/
def beValue (bytes : List UInt8) : ℕ := bytes.foldl (fun value byte ↦ 256 * value + byte.toNat) 0

theorem beValue_concat (bytes : List UInt8) (byte : UInt8) :
    beValue (bytes ++ [byte]) = 256 * beValue bytes + byte.toNat := by
  unfold beValue
  rw [List.foldl_append]
  rfl

/-- The number that two byte strings spell together. -/
theorem beValue_append (first second : List UInt8) :
    beValue (first ++ second) = 256 ^ second.length * beValue first + beValue second := by
  induction second using List.reverseRecOn with
  | nil =>
    rw [List.append_nil, List.length_nil, pow_zero, one_mul]
    rfl
  | append_singleton second byte ih =>
    rw [← List.append_assoc, beValue_concat, beValue_concat, ih, List.length_append,
      List.length_singleton, pow_succ, Nat.mul_add, ← Nat.mul_assoc, Nat.mul_comm 256,
      Nat.add_assoc]

/-- A byte string spells a number that fits its length. -/
theorem beValue_lt (bytes : List UInt8) : beValue bytes < 256 ^ bytes.length := by
  induction bytes using List.reverseRecOn with
  | nil => exact Nat.one_pos
  | append_singleton bytes byte ih =>
    have hbyte := byte.toNat_lt
    rw [beValue_concat, List.length_append, List.length_singleton, pow_succ]
    omega

/-- The bytes of the number that a byte string spells are the byte string. -/
theorem beBytes_beValue (bytes : List UInt8) : beBytes bytes.length (beValue bytes) = bytes := by
  induction bytes using List.reverseRecOn with
  | nil => rfl
  | append_singleton bytes byte ih =>
    have hbyte := byte.toNat_lt
    have hhigh : (256 * beValue bytes + byte.toNat) / 256 = beValue bytes := by omega
    have hlow : (256 * beValue bytes + byte.toNat) % 256 = byte.toNat := by omega
    unfold beBytes at ih ⊢
    rw [beValue_concat, List.length_append, List.length_singleton, leBytes, List.reverse_cons,
      hhigh, hlow, ih, UInt8.ofNat_toNat]

/-- The number that the bytes of a number spell is the number. Assumes: the number fits the bytes.
-/
theorem beValue_beBytes {count value : ℕ} (hfits : value < 256 ^ count) :
    beValue (beBytes count value) = value := by
  have hlength := length_beBytes count value
  have hlt := beValue_lt (beBytes count value)
  have hbytes := beBytes_beValue (beBytes count value)
  rw [hlength] at hlt hbytes
  exact beBytes_inj hlt hfits hbytes

/-- The number that a byte string spells, least significant byte first. -/
def leValue (bytes : List UInt8) : ℕ := beValue bytes.reverse

/-- The number that the low bytes of a number spell is the number. Assumes: the number fits the
bytes. -/
theorem leValue_leBytes {count value : ℕ} (hfits : value < 256 ^ count) :
    leValue (leBytes count value) = value :=
  beValue_beBytes hfits

/-- The length of a list of encodings of one length. Assumes: every encoding has the length. -/
theorem length_flatMap_of_length {α β : Type} {encode : α → List β} {length : ℕ}
    (hlength : ∀ entry, (encode entry).length = length) (entries : List α) :
    (entries.flatMap encode).length = entries.length * length := by
  induction entries with
  | nil => exact (Nat.zero_mul length).symm
  | cons entry entries ih =>
    rw [List.flatMap_cons, List.length_append, ih, hlength, List.length_cons, Nat.succ_mul,
      Nat.add_comm]

/-- A byte string whose length is a multiple of the length of an encoding is a list of encodings.
Assumes: every byte string of that length is one. -/
theorem exists_flatMap_eq {α β : Type} {encode : α → List β} {length : ℕ}
    (hencode : ∀ block : List β, block.length = length → ∃ entry, encode entry = block) {count : ℕ}
    {bytes : List β} (hbytes : bytes.length = count * length) :
    ∃ entries : List α, entries.length = count ∧ entries.flatMap encode = bytes := by
  induction count generalizing bytes with
  | zero =>
    rw [Nat.zero_mul] at hbytes
    exact ⟨[], rfl, (List.length_eq_zero_iff.mp hbytes).symm⟩
  | succ count ih =>
    rw [Nat.succ_mul] at hbytes
    obtain ⟨entry, hentry⟩ := hencode (bytes.take length) (by rw [List.length_take]; omega)
    obtain ⟨entries, hcount, hrest⟩ := @ih (bytes.drop length) (by rw [List.length_drop]; omega)
    refine ⟨entry :: entries, by rw [List.length_cons, hcount], ?_⟩
    rw [List.flatMap_cons, hentry, hrest, List.take_append_drop]

/-- A list of encodings of one length determines what was encoded. Assumes: the encodings have one
positive length and determine each entry of the two lists. -/
theorem flatMap_inj {α β : Type} {encode : α → List β} {length : ℕ} (hpositive : 0 < length)
    (hlength : ∀ entry, (encode entry).length = length) {first second : List α}
    (hinj : ∀ a ∈ first, ∀ b ∈ second, encode a = encode b → a = b)
    (hsame : first.flatMap encode = second.flatMap encode) : first = second := by
  induction first generalizing second with
  | nil =>
    cases second with
    | nil => rfl
    | cons b second =>
      have hcount := congrArg List.length hsame
      rw [List.flatMap_nil, List.flatMap_cons, List.length_append, hlength, List.length_nil]
        at hcount
      omega
  | cons a first ih =>
    cases second with
    | nil =>
      have hcount := congrArg List.length hsame
      rw [List.flatMap_nil, List.flatMap_cons, List.length_append, hlength, List.length_nil]
        at hcount
      omega
    | cons b second =>
      rw [List.flatMap_cons, List.flatMap_cons] at hsame
      obtain ⟨hhead, htail⟩ := List.append_inj hsame (by rw [hlength, hlength])
      rw [hinj a List.mem_cons_self b List.mem_cons_self hhead,
        ih (fun c hc d hd ↦ hinj c (List.mem_cons_of_mem _ hc) d (List.mem_cons_of_mem _ hd)) htail]

/-- The bytes of an ASCII text. -/
def asciiBytes (text : String) : List UInt8 :=
  text.toList.map fun letter ↦ UInt8.ofNat letter.toNat

/-- The hexadecimal digits of a number below sixteen. -/
def hexDigit (digit : ℕ) : Char := "0123456789abcdef".toList.getD digit '0'

/-- Two hexadecimal digits per byte, as `hex::encode` prints a byte string. -/
def hexEncode (bytes : List UInt8) : String :=
  String.ofList (bytes.flatMap fun byte ↦ [hexDigit (byte.toNat / 16), hexDigit (byte.toNat % 16)])

/-- The value of a hexadecimal digit, in either case. -/
def hexValue (digit : Char) : Option ℕ :=
  if '0' ≤ digit ∧ digit ≤ '9' then some (digit.toNat - '0'.toNat)
  else if 'a' ≤ digit ∧ digit ≤ 'f' then some (digit.toNat - 'a'.toNat + 10)
  else if 'A' ≤ digit ∧ digit ≤ 'F' then some (digit.toNat - 'A'.toNat + 10)
  else none

/-- The bytes that pairs of hexadecimal digits spell. -/
def hexPairs : List Char → Option (List UInt8)
  | [] => some []
  | [_] => none
  | high :: low :: rest => do
    let highValue ← hexValue high
    let lowValue ← hexValue low
    let bytes ← hexPairs rest
    return UInt8.ofNat (16 * highValue + lowValue) :: bytes

/-- The bytes of a hexadecimal text, as `hex::decode` reads it: an odd length and a foreign letter
are errors. -/
def hexDecode (text : String) : Option (List UInt8) := hexPairs text.toList

/-- A digit that was printed is read back. Assumes: the digit is below sixteen. -/
theorem hexValue_hexDigit {digit : ℕ} (hdigit : digit < 16) :
    hexValue (hexDigit digit) = some digit := by
  have hdigits : ∀ digit : Fin 16, hexValue (hexDigit digit) = some digit.val := by decide
  exact hdigits ⟨digit, hdigit⟩

/-- A byte string that was printed is read back. -/
theorem hexDecode_hexEncode (bytes : List UInt8) : hexDecode (hexEncode bytes) = some bytes := by
  unfold hexDecode hexEncode
  rw [String.toList_ofList]
  induction bytes with
  | nil => rfl
  | cons byte bytes ih =>
    have hhigh := hexValue_hexDigit (Nat.div_lt_of_lt_mul (k := 16) (n := 16) byte.toNat_lt)
    have hlow := hexValue_hexDigit (Nat.mod_lt byte.toNat (by norm_num : 0 < 16))
    have hbyte : UInt8.ofNat (16 * (byte.toNat / 16) + byte.toNat % 16) = byte := by
      rw [Nat.div_add_mod, UInt8.ofNat_toNat]
    rw [List.flatMap_cons, List.cons_append, List.cons_append, List.nil_append, hexPairs, hhigh,
      hlow, ih]
    show some (UInt8.ofNat (16 * (byte.toNat / 16) + byte.toNat % 16) :: bytes) = _
    rw [hbyte]

/-- No text of printed bytes has a letter that is not a hexadecimal digit. Assumes: the letter is
not a hexadecimal digit. -/
theorem not_mem_hexEncode {letter : Char} (hletter : letter ∉ "0123456789abcdef".toList)
    (bytes : List UInt8) : letter ∉ (hexEncode bytes).toList := by
  have hdigit : ∀ digit < 16, hexDigit digit ≠ letter := by
    have hdigits : ∀ digit : Fin 16, hexDigit digit ∈ "0123456789abcdef".toList := by decide
    exact fun digit hlt heq ↦ hletter (heq ▸ hdigits ⟨digit, hlt⟩)
  unfold hexEncode
  rw [String.toList_ofList, List.mem_flatMap]
  rintro ⟨byte, -, hmem⟩
  have hhigh := hdigit _ (Nat.div_lt_of_lt_mul (k := 16) (n := 16) byte.toNat_lt)
  have hlow := hdigit _ (Nat.mod_lt byte.toNat (by norm_num : 0 < 16))
  simp only [List.mem_cons, List.not_mem_nil, or_false] at hmem
  exact hmem.elim (Ne.symm hhigh) (Ne.symm hlow)

end Fluidic.Library
