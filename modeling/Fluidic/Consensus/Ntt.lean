import Fluidic.Library.FixedWidth
import Mathlib.Data.List.Iterate

/-!
# The number theoretic transform

`src/consensus/ntt.rs`: the transform over the prime field of `998244353` for a power-of-two size,
in place on a list of residues. A loop of the source that runs until an exponent or a length is
exhausted takes the number of its rounds as fuel, 64 for the binary digits of a machine word.
-/

set_option autoImplicit false
set_option relaxedAutoImplicit false

namespace Fluidic.Consensus

open Library

/-- The prime of the field, `119 * 2 ^ 23 + 1`. -/
def nttModulus : ℕ := 998244353

/-- A primitive root of the field. -/
def nttPrimitiveRoot : ℕ := 3

/-- Modular addition of residues. -/
def addMod (a b m : ℕ) : ℕ := if m ≤ a + b then a + b - m else a + b

/-- Modular subtraction of residues. -/
def subMod (a b m : ℕ) : ℕ := if b ≤ a then a - b else a + m - b

/-- Modular multiplication through a 128-bit product. -/
def mulMod (a b m : ℕ) : ℕ := a * b % m

/-- The loop of `modPow`, one round for each unit of `digits`. -/
def modPowLoop (modulus : ℕ) : ℕ → ℕ → ℕ → ℕ → ℕ
  | 0, _, _, result => result
  | digits + 1, base, exponent, result =>
    if exponent = 0 then result
    else
      modPowLoop modulus digits (mulMod base base modulus) (exponent / 2)
        (if exponent % 2 = 1 then mulMod result base modulus else result)

/-- Modular exponentiation by squaring, for a 64-bit exponent. -/
def modPow (base exponent modulus : ℕ) : ℕ := modPowLoop modulus 64 (base % modulus) exponent 1

/-- The modular inverse by Fermat's little theorem. -/
def modInv (a m : ℕ) : ℕ := modPow a (m - 2) m

/-- The index with its low `bits` binary digits reversed. -/
def reverseIndex (bits index : ℕ) : ℕ :=
  (BitVec.ofNat 64 index).reverse.toNat / 2 ^ (64 - bits)

/-- Exchange the entries at two indices. -/
def swapEntries (a : List ℕ) (i j : ℕ) : List ℕ := (a.set i (a.getD j 0)).set j (a.getD i 0)

/-- Permute a list of power-of-two length by reversing the binary digits of its indices. -/
def bitReversePermute (a : List ℕ) : List ℕ :=
  let bits := Nat.log2 a.length
  (List.range a.length).foldl
    (fun a i ↦ if i < reverseIndex bits i then swapEntries a i (reverseIndex bits i) else a) a

/-- One butterfly: the pair of entries at distance `half` from position `low`, with the given
root. -/
def butterfly (a : List ℕ) (low half root : ℕ) : List ℕ :=
  let u := a.getD low 0
  let v := mulMod (a.getD (low + half) 0) root nttModulus
  (a.set low (addMod u v nttModulus)).set (low + half) (subMod u v nttModulus)

/-- The rounds of the transform from block length `len` on, one for each unit of `rounds`. -/
def butterflyRounds (size : ℕ) (roots : List ℕ) : ℕ → ℕ → List ℕ → List ℕ
  | 0, _, a => a
  | rounds + 1, len, a =>
    if size < len then a
    else
      butterflyRounds size roots rounds (len * 2)
        ((List.range' 0 ((size + len - 1) / len) len).foldl
          (fun a i ↦ (List.range (len / 2)).foldl
            (fun a j ↦ butterfly a (i + j) (len / 2) (roots.getD (j * (size / len)) 0)) a) a)

/-- The precomputed tables of a transform of fixed size. -/
structure NttEngine where
  size : ℕ
  roots : List ℕ
  invRoots : List ℕ
  invSize : ℕ
  deriving DecidableEq

namespace NttEngine

/-- The sizes that the assertions of `new` let through. -/
def Accepts (size : ℕ) : Prop :=
  (∃ exponent, size = 2 ^ exponent) ∧ 2 ≤ size ∧ (nttModulus - 1) % size = 0

/-- Build the tables of a size. -/
def new (size : ℕ) : NttEngine :=
  let root := modPow nttPrimitiveRoot ((nttModulus - 1) / size) nttModulus
  { size
    roots := List.iterate (fun power ↦ mulMod power root nttModulus) 1 size
    invRoots := List.iterate (fun power ↦ mulMod power (modInv root nttModulus) nttModulus) 1 size
    invSize := modInv size nttModulus }

/-- The forward transform. -/
def ntt (engine : NttEngine) (a : List ℕ) : List ℕ :=
  butterflyRounds engine.size engine.roots 64 2 (bitReversePermute a)

/-- The inverse transform. -/
def intt (engine : NttEngine) (a : List ℕ) : List ℕ :=
  (butterflyRounds engine.size engine.invRoots 64 2 (bitReversePermute a)).map
    fun x ↦ mulMod x engine.invSize nttModulus

end NttEngine

end Fluidic.Consensus
