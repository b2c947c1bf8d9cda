import Fluidic.Consensus.NttTransform
import Fluidic.Library.FourierInversion
import Mathlib.FieldTheory.Finite.Basic
import Mathlib.NumberTheory.LucasPrimality

/-!
# The two transforms are inverse to each other

The inverse transform runs the same rounds over the powers of the inverse root and multiplies every
entry by the inverse of the size. Both inverses are powers by Fermat's little theorem, which needs
the modulus to be prime (`prime_nttModulus`, by Lucas's test with the primitive root). The root of a
size is a primitive root of unity because half a turn of it is minus one, and what the two
transforms do to each other is the inversion formula of the library.
-/

set_option autoImplicit false
set_option relaxedAutoImplicit false

namespace Fluidic.Consensus

open Library Finset

/-! ### The field -/

/-- The modulus is prime: it is above two, and the primitive root has the full order. -/
theorem prime_nttModulus : nttModulus.Prime := by
  have hpower (exponent : ℕ) (hexponent : exponent < 2 ^ 64) :
      (3 : ZMod nttModulus) ^ exponent = 1 ↔ modPow 3 exponent nttModulus = 1 := by
    have hcast : (3 : ZMod nttModulus) ^ exponent = (3 ^ exponent : ℕ) := by simp
    have hone : (1 : ZMod nttModulus) = (1 : ℕ) := by simp
    rw [modPow_eq (by decide) hexponent, hcast, hone, ZMod.natCast_eq_natCast_iff']
    rfl
  refine lucas_primality nttModulus 3 ?_ fun q hprime hdivides ↦ ?_
  · rw [hpower _ (by decide)]
    decide +kernel
  · have hfactors : nttModulus - 1 = 2 ^ 23 * (7 * 17) := by decide
    rw [hfactors, hprime.dvd_mul, hprime.dvd_mul] at hdivides
    have hcases : q = 2 ∨ q = 7 ∨ q = 17 := by
      rcases hdivides with htwo | hseven | hseventeen
      · exact .inl ((Nat.prime_dvd_prime_iff_eq hprime Nat.prime_two).mp
          (hprime.dvd_of_dvd_pow htwo))
      · exact .inr (.inl ((Nat.prime_dvd_prime_iff_eq hprime (by decide)).mp hseven))
      · exact .inr (.inr ((Nat.prime_dvd_prime_iff_eq hprime (by decide)).mp hseventeen))
    rcases hcases with rfl | rfl | rfl
    all_goals
      rw [Ne, hpower _ (by decide)]
      decide +kernel

instance : Fact nttModulus.Prime := ⟨prime_nttModulus⟩

/-- The power of `modInv` is the inverse. Assumes: the residue is not zero. -/
theorem cast_modInv {a : ℕ} (hnonzero : (a : ZMod nttModulus) ≠ 0) :
    (modInv a nttModulus : ZMod nttModulus) = (a : ZMod nttModulus)⁻¹ := by
  have hexponent : nttModulus - 2 + 1 = nttModulus - 1 := by decide
  unfold modInv
  rw [modPow_eq (by decide) (by decide), ZMod.natCast_mod, Nat.cast_pow]
  apply eq_inv_of_mul_eq_one_left
  rw [← pow_succ, hexponent, ZMod.pow_card_sub_one_eq_one hnonzero]

theorem modInv_lt (a : ℕ) : modInv a nttModulus < nttModulus := by
  unfold modInv
  rw [modPow_eq (by decide) (by decide)]
  exact Nat.mod_lt _ (by decide)

/-- The root of a size is a primitive root of unity. Assumes: the size is one of those that the
assertions let through. -/
theorem isPrimitiveRoot_rootOf {size : ℕ} (hsize : NttEngine.Accepts size) :
    IsPrimitiveRoot (rootOf size : ZMod nttModulus) size := by
  obtain ⟨bits, hpositive, -, rfl⟩ := (accepts_iff size).mp hsize
  obtain ⟨rest, rfl⟩ := Nat.exists_eq_succ_of_ne_zero hpositive.ne'
  have hturn : (rootOf (2 ^ (rest + 1)) : ZMod nttModulus) ^ 2 ^ rest = -1 :=
    rootOf_pow (Nat.dvd_of_mod_eq_zero hsize.2.2) (by rw [pow_succ, mul_comm])
  have hhalf : ¬(rootOf (2 ^ (rest + 1)) : ZMod nttModulus) ^ 2 ^ rest = 1 := by
    rw [hturn]
    decide
  have hfull : (rootOf (2 ^ (rest + 1)) : ZMod nttModulus) ^ 2 ^ (rest + 1) = 1 := by
    rw [pow_succ 2 rest, pow_mul, ← pow_succ 2 rest, hturn, neg_one_sq]
  have hprimitive := IsPrimitiveRoot.orderOf (rootOf (2 ^ (rest + 1)) : ZMod nttModulus)
  rwa [orderOf_eq_prime_pow hhalf hfull] at hprimitive

/-- The size is not zero in the field. Assumes: the size is one of those that the assertions let
through. -/
theorem cast_size_ne_zero {size : ℕ} (hsize : NttEngine.Accepts size) :
    (size : ZMod nttModulus) ≠ 0 := by
  obtain ⟨bits, -, -, rfl⟩ := (accepts_iff size).mp hsize
  have htwo : (2 : ZMod nttModulus) ≠ 0 := by decide
  rw [Nat.cast_pow]
  exact pow_ne_zero bits htwo

/-! ### The inverse transform -/

/-- The inverse table of an engine holds the powers of the inverse root. Assumes: the size is one of
those that the assertions let through. -/
theorem rootTable_inverse {size : ℕ} (hsize : NttEngine.Accepts size) :
    RootTable (rootOf size : ZMod nttModulus)⁻¹ size (NttEngine.new size).invRoots := by
  have hroots : (NttEngine.new size).invRoots = List.iterate
      (fun power ↦ mulMod power (modInv (rootOf size) nttModulus) nttModulus) 1 size := by
    unfold NttEngine.new
    dsimp only
    rw [modPow_eq_rootOf]
  have hpositive : size ≠ 0 := by
    have htwo := hsize.2.1
    omega
  rw [hroots, ← cast_modInv ((isPrimitiveRoot_rootOf hsize).ne_zero hpositive)]
  exact rootTable_iterate _ _

/-- The inverse transform with the checks of the machine. -/
def NttEngine.inttChecked (engine : NttEngine) (a : List ℕ) : Option (List ℕ) :=
  if a.length = engine.size then do
    let a ← bitReversePermuteChecked a
    let a ← butterflyRoundsChecked engine.size engine.invRoots 64 2 a
    a.mapM fun x ↦ mulModChecked x engine.invSize nttModulus
  else none

/-- Scaling the entries passes the checks. Assumes: the entries and the factor are reduced. -/
theorem mapM_mulModChecked {a : List ℕ} {factor : ℕ} (ha : ∀ x ∈ a, x < nttModulus)
    (hfactor : factor < nttModulus) :
    (a.mapM fun x ↦ mulModChecked x factor nttModulus) =
      some (a.map fun x ↦ mulMod x factor nttModulus) := by
  have hvisit : ∀ x ∈ a, ∀ result, mulModChecked x factor nttModulus = some result ↔
      True ∧ result = mulMod x factor nttModulus := by
    intro x hx result
    rw [mulModChecked_eq (ha x hx) hfactor, Option.some.injEq, true_and, eq_comm]
  exact (mapM_eq_some_iff hvisit _).mpr ⟨fun _ _ ↦ trivial, rfl⟩

/-- The inverse transform passes the checks, keeps the residues and computes the transform with the
inverse root, divided by the size. Assumes: the size is one of those that the assertions let
through. -/
theorem intt_entries {size : ℕ} (hsize : NttEngine.Accepts size) {a : List ℕ}
    (ha : Residues size a) :
    (NttEngine.new size).inttChecked a = some ((NttEngine.new size).intt a) ∧
      Residues size ((NttEngine.new size).intt a) ∧
      ∀ index < size, entryAt ((NttEngine.new size).intt a) index =
        transform (rootOf size : ZMod nttModulus)⁻¹ size (entryAt a) index *
          (size : ZMod nttModulus)⁻¹ := by
  have htable := rootTable_inverse hsize
  have hscale := cast_modInv (cast_size_ne_zero hsize)
  obtain ⟨bits, hpositive, hbits, rfl⟩ := (accepts_iff size).mp hsize
  have hturn : ∀ half, 2 ^ bits = 2 * half →
      (rootOf (2 ^ bits) : ZMod nttModulus)⁻¹ ^ half = -1 := by
    intro half hhalf
    rw [inv_pow, rootOf_pow (Nat.dvd_of_mod_eq_zero hsize.2.2) hhalf, inv_neg_one]
  obtain ⟨hpermuted, hrounds, hfinal, hentries⟩ :=
    butterflyRounds_eq_transform hpositive (by omega) htable hturn ha
  have hinverse : (NttEngine.new (2 ^ bits)).intt a =
      (butterflyRounds (2 ^ bits) (NttEngine.new (2 ^ bits)).invRoots 64 2
        (bitReversePermute a)).map fun x ↦ mulMod x (modInv (2 ^ bits) nttModulus) nttModulus := rfl
  have hchecked : (NttEngine.new (2 ^ bits)).inttChecked a =
      if a.length = 2 ^ bits then (bitReversePermuteChecked a).bind fun a ↦
        (butterflyRoundsChecked (2 ^ bits) (NttEngine.new (2 ^ bits)).invRoots 64 2 a).bind
          fun a ↦ a.mapM fun x ↦ mulModChecked x (modInv (2 ^ bits) nttModulus) nttModulus
      else none := rfl
  rw [hchecked, hinverse, if_pos ha.length_eq, hpermuted, Option.bind_some, hrounds,
    Option.bind_some, mapM_mulModChecked hfinal.lt (modInv_lt (2 ^ bits))]
  refine ⟨rfl, ⟨?_, fun x hx ↦ ?_⟩, fun index hindex ↦ ?_⟩
  · rw [List.length_map, hfinal.length_eq]
  · obtain ⟨y, -, rfl⟩ := List.mem_map.mp hx
    exact mulMod_lt _ _
  · have hwithin : index < (butterflyRounds (2 ^ bits) (NttEngine.new (2 ^ bits)).invRoots 64 2
        (bitReversePermute a)).length := by
      rw [hfinal.length_eq]
      exact hindex
    rw [← hscale, ← hentries index hindex]
    unfold entryAt
    rw [List.getD_eq_getElem?_getD, List.getElem?_map, getElem?_eq_getD hwithin, Option.map_some,
      Option.getD_some, cast_mulMod]

/-! ### The round trip -/

/-- A list of residues is determined by its entries in the field. Assumes: both lists have the
length of the transform and the same entries in the field. -/
theorem Residues.ext {size : ℕ} {a b : List ℕ} (ha : Residues size a) (hb : Residues size b)
    (hsame : ∀ index < size, entryAt a index = entryAt b index) : a = b := by
  refine List.ext_getElem? fun index ↦ ?_
  by_cases hindex : index < size
  · have hentry := (ZMod.natCast_eq_natCast_iff' _ _ _).mp (hsame index hindex)
    rw [Nat.mod_eq_of_lt (ha.getD_lt index), Nat.mod_eq_of_lt (hb.getD_lt index)] at hentry
    rw [getElem?_eq_getD (by rwa [ha.length_eq]), getElem?_eq_getD (by rwa [hb.length_eq]), hentry]
  · rw [List.getElem?_eq_none (by rw [ha.length_eq]; omega),
      List.getElem?_eq_none (by rw [hb.length_eq]; omega)]

/-- Each transform undoes the other one, and neither traps. Assumes: the size is one of those that
the assertions let through, and the list has this length and reduced entries. -/
theorem ntt_intt_roundtrip {size : ℕ} (hsize : NttEngine.Accepts size) {a : List ℕ}
    (hlength : a.length = size) (hreduced : ∀ x ∈ a, x < nttModulus) :
    (NttEngine.new size).intt ((NttEngine.new size).ntt a) = a ∧
      (NttEngine.new size).ntt ((NttEngine.new size).intt a) = a ∧
      ((NttEngine.new size).nttChecked a >>= (NttEngine.new size).inttChecked) = some a ∧
      ((NttEngine.new size).inttChecked a >>= (NttEngine.new size).nttChecked) = some a := by
  have ha : Residues size a := ⟨hlength, hreduced⟩
  have hroot := isPrimitiveRoot_rootOf hsize
  have hnonzero := cast_size_ne_zero hsize
  obtain ⟨hforth, hspectrum, hforward⟩ := ntt_entries hsize ha
  obtain ⟨hforthBack, hrecovered, hbackward⟩ := intt_entries hsize hspectrum
  obtain ⟨hback, hinverse, hbackward'⟩ := intt_entries hsize ha
  obtain ⟨hbackForth, hrecovered', hforward'⟩ := ntt_entries hsize hinverse
  have hfirst : (NttEngine.new size).intt ((NttEngine.new size).ntt a) = a := by
    refine hrecovered.ext ha fun index hindex ↦ ?_
    rw [hbackward index hindex, transform_congr hforward, transform_transform hroot _ hindex,
      mul_inv_cancel_right₀ hnonzero]
  have hsecond : (NttEngine.new size).ntt ((NttEngine.new size).intt a) = a := by
    refine hrecovered'.ext ha fun index hindex ↦ ?_
    have hundone := transform_transform hroot.inv (entryAt a) hindex
    rw [inv_inv] at hundone
    rw [hforward' index hindex, transform_congr hbackward', transform_mul, hundone,
      mul_inv_cancel_right₀ hnonzero]
  refine ⟨hfirst, hsecond, ?_, ?_⟩
  · rw [hforth, Option.bind_eq_bind, Option.bind_some, hforthBack, hfirst]
  · rw [hback, Option.bind_eq_bind, Option.bind_some, hbackForth, hsecond]

/-- Both round trips of four entries. -/
theorem ntt_intt_roundtrip_four :
    (NttEngine.new 4).ntt [1, 2, 3, 998244352] ≠ [1, 2, 3, 998244352] ∧
      (NttEngine.new 4).intt ((NttEngine.new 4).ntt [1, 2, 3, 998244352]) =
        [1, 2, 3, 998244352] ∧
      (NttEngine.new 4).ntt ((NttEngine.new 4).intt [1, 2, 3, 998244352]) =
        [1, 2, 3, 998244352] := by
  have hsize : NttEngine.Accepts 4 := (accepts_iff 4).mpr ⟨2, by decide, by decide, rfl⟩
  obtain ⟨hforth, hback, -⟩ :=
    ntt_intt_roundtrip hsize (a := [1, 2, 3, 998244352]) rfl (by decide)
  exact ⟨by decide +kernel, hforth, hback⟩

end Fluidic.Consensus
