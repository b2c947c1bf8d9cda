import Fluidic.Persistence.RoundTrip
import Fluidic.Library.Positional

/-!
# Values of the JSON-RPC gateway

The JSON values of `src/api/evm_rpc.rs` and the texts in them. Addresses, hashes and 64-bit numbers
are hexadecimal behind the mark `0x` and are read back as they were written. `u256_to_hex` puts the
mark in front of the decimal digits: a value, a gas price or an effective gas price that a client
reads as the hexadecimal number it claims to be is right if and only if it has one digit
(`parseU256_u256ToHex_iff`).
-/

set_option autoImplicit false
set_option relaxedAutoImplicit false

namespace Fluidic.Api

open Library Crypto Evm Persistence

/-! ### Values -/

/-- A JSON value. A number is kept as it is written; nothing here reads one. The fields of an object
are in the order in which they are inserted. -/
inductive Json
  | null
  | bool (value : Bool)
  | number (literal : String)
  | string (value : String)
  | array (items : List Json)
  | object (fields : List (String × Json))

namespace Json

/-- The text of a value that is a text. -/
def asStr : Json → Option String
  | .string value => some value
  | _ => none

/-- The items of a value that is an array. -/
def asArray : Json → Option (List Json)
  | .array items => some items
  | _ => none

/-- The fields of a value that is an object. -/
def asObject : Json → Option (List (String × Json))
  | .object fields => some fields
  | _ => none

/-- Whether a value is the null value. -/
def isNull : Json → Bool
  | .null => true
  | _ => false

/-- A value that may be missing. -/
def ofOption {α : Type} (write : α → Json) : Option α → Json
  | some value => write value
  | none => .null

end Json

/-- Why a request was refused: the code and the text. -/
abbrev RpcError := ℤ × String

/-! ### Numbers -/

/-- The mark of a hexadecimal number, in front of letters. -/
def marked (letters : List Char) : String := String.ofList ('0' :: 'x' :: letters)

/-- The hexadecimal text of a number. -/
def quantityHex (value : ℕ) : String := marked (Nat.toDigits 16 value)

/-- A 64-bit number in hexadecimal, behind any marks. -/
def parseQuantity (text : String) : Except ParseIntError ℕ :=
  parseRadix hexValue 16 (2 ^ 64) (trimHexMarks text.toList)

/-- The text of a 256-bit number: the mark and the decimal digits. -/
def u256ToHex (value : ℕ) : String := marked (trimHexMarks (Nat.toDigits 10 value))

/-- A 256-bit number in hexadecimal, as a client reads it. -/
def parseU256 (text : String) : Except ParseIntError ℕ :=
  parseRadix hexValue 16 (2 ^ 256) (trimHexMarks text.toList)

/-- The letters of the digits below sixteen are read. -/
theorem hexValue_digitChar : ∀ digit < 16, hexValue digit.digitChar = some digit := by decide

/-- A number is written with the letters of the digits below the base. Assumes: the letter occurs in
the text of the number. -/
theorem exists_digit_of_mem {base : ℕ} (hbase : 1 < base) {value : ℕ} {letter : Char}
    (hletter : letter ∈ Nat.toDigits base value) : ∃ digit < base, letter = digit.digitChar := by
  induction value using Nat.strong_induction_on with
  | h value ih =>
    rw [Nat.toDigits_eq_if hbase] at hletter
    split_ifs at hletter with hsmall
    · exact ⟨value, hsmall, List.mem_singleton.mp hletter⟩
    · rcases List.mem_append.mp hletter with hhigh | hlow
      · exact ih _ (Nat.div_lt_self (by omega) hbase) hhigh
      · exact ⟨_, Nat.mod_lt value (by omega), List.mem_singleton.mp hlow⟩

/-- The digits of a number have no mark in front. Assumes: the base is at most sixteen. -/
theorem trimHexMarks_toDigits {base : ℕ} (hbase : 1 < base) (hle : base ≤ 16) (value : ℕ) :
    trimHexMarks (Nat.toDigits base value) = Nat.toDigits base value := by
  have hmark : 'x' ∉ Nat.toDigits base value := by
    intro hletter
    obtain ⟨digit, hdigit, hsame⟩ := exists_digit_of_mem hbase hletter
    have hnone : ∀ digit < 16, 'x' ≠ digit.digitChar := by decide
    exact hnone digit (by omega) hsame
  unfold trimHexMarks
  split
  next rest hletters =>
    rw [hletters] at hmark
    exact absurd (List.mem_cons_of_mem _ List.mem_cons_self) hmark
  next => rfl

/-- Reading marked digits is reading the digits. Assumes: the bases are at most sixteen. -/
theorem parseRadix_marked {base bound : ℕ} (hbase : 1 < base) (hle : base ≤ 16) (value : ℕ) :
    parseRadix hexValue 16 bound (trimHexMarks (marked (Nat.toDigits base value)).toList) =
      readDigits hexValue 16 bound 0 (Nat.toDigits base value) := by
  unfold marked
  rw [String.toList_ofList, trimHexMarks, trimHexMarks_toDigits hbase hle]
  have hplus : '+' ∉ Nat.toDigits base value := by
    intro hletter
    obtain ⟨digit, hdigit, hsame⟩ := exists_digit_of_mem hbase hletter
    have hnone : ∀ digit < 16, '+' ≠ digit.digitChar := by decide
    exact hnone digit (by omega) hsame
  unfold parseRadix
  split
  next hnil => exact absurd hnil Nat.toDigits_ne_nil
  next rest hletters =>
    rw [hletters] at hplus
    exact absurd List.mem_cons_self hplus
  next => rfl

/-- A 64-bit number is read back from its hexadecimal text. Assumes: the number fits 64 bits. -/
theorem parseQuantity_quantityHex {value : ℕ} (hfits : value < 2 ^ 64) :
    parseQuantity (quantityHex value) = .ok value := by
  unfold parseQuantity quantityHex
  rw [parseRadix_marked (by decide) le_rfl]
  exact readDigits_toDigits (by decide) hexValue_digitChar hfits

/-- A 256-bit number is read back from the text that the gateway writes for it if and only if it has
one decimal digit. Assumes: the number fits 256 bits. -/
theorem parseU256_u256ToHex_iff {value : ℕ} (hfits : value < 2 ^ 256) :
    parseU256 (u256ToHex value) = .ok value ↔ value < 10 := by
  unfold parseU256 u256ToHex
  rw [trimHexMarks_toDigits (by decide) (by decide), parseRadix_marked (by decide) (by decide)]
  exact readDigits_toDigits_eq_iff (by decide) (by decide)
    (fun digit hdigit ↦ hexValue_digitChar digit (by omega)) hfits

/-- The first number that a client misreads. -/
theorem parseU256_u256ToHex_ten : parseU256 (u256ToHex 10) = .ok 10 ↔ 10 < 10 :=
  parseU256_u256ToHex_iff (by decide)

/-! ### Hashes and addresses -/

/-- A hash in hexadecimal. `hexError` is the text of the error for digits that are none. -/
def parseHexHash (hexError : String → String) (text : String) : Except RpcError H256 :=
  let digits := String.ofList (trimHexMarks text.toList)
  match hexDecode digits with
  | none => .error (-32602, s!"invalid hex: {hexError digits}")
  | some bytes => (Bytes32.ofBytes bytes).elim (.error (-32602, "hash must be 32 bytes")) .ok

/-- An address in hexadecimal. -/
def parseHexAddress (hexError : String → String) (text : String) : Except RpcError EvmAddress :=
  let digits := String.ofList (trimHexMarks text.toList)
  match hexDecode digits with
  | none => .error (-32602, s!"invalid address hex: {hexError digits}")
  | some bytes =>
    if bytes.length = 20 then .ok (BitVec.ofNat 160 (beValue bytes))
    else .error (-32602, "address must be 20 bytes")

/-- A byte string in hexadecimal, behind the mark. -/
def bytesHex (bytes : List UInt8) : String := marked (hexEncode bytes).toList

/-- The text of a hash. -/
def h256ToHex (hash : H256) : String := bytesHex hash.toBytes

/-- The text of an address. -/
def evmAddressHex (address : EvmAddress) : String := bytesHex (beBytes 20 address.toNat)

/-- The digits behind the mark of a byte string are its digits. -/
theorem trimHexMarks_bytesHex (bytes : List UInt8) :
    String.ofList (trimHexMarks (bytesHex bytes).toList) = hexEncode bytes := by
  unfold bytesHex marked
  rw [String.toList_ofList, trimHexMarks, trimHexMarks_hexEncode, String.ofList_toList]

/-- A hash is read back from its text. -/
theorem parseHexHash_h256ToHex (hexError : String → String) (hash : H256) :
    parseHexHash hexError (h256ToHex hash) = .ok hash := by
  unfold parseHexHash h256ToHex
  rw [trimHexMarks_bytesHex]
  simp only [hexDecode_hexEncode, Bytes32.ofBytes_toBytes, Option.elim_some]

/-- An address is read back from its text. -/
theorem parseHexAddress_evmAddressHex (hexError : String → String) (address : EvmAddress) :
    parseHexAddress hexError (evmAddressHex address) = .ok address := by
  have hfits : address.toNat < 256 ^ 20 := address.isLt
  unfold parseHexAddress evmAddressHex
  rw [trimHexMarks_bytesHex]
  simp only [hexDecode_hexEncode, length_beBytes, if_true, beValue_beBytes hfits]
  rw [BitVec.ofNat_toNat, BitVec.setWidth_eq]

end Fluidic.Api
