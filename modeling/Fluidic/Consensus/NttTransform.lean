import Fluidic.Consensus.Ntt
import Fluidic.Library.Decimation
import Fluidic.Library.FourierInversion
import Fluidic.Library.PairUpdate
import Mathlib.Data.Nat.ModEq
import Mathlib.Data.ZMod.Basic

/-!
# The transform computes the discrete Fourier transform

The rounds of the transform are rounds of butterflies over the prime field (`butterflyRounds_eq`),
and the permutation before them puts the list in the order of reversed digits
(`getD_bitReversePermute`). The machine may trap in every round, where an index leaves the list, a
sum its 64 bits or a product its 128 bits; `nttChecked` is the transform with these checks, and it
never does (`ntt_eq_transform`).
-/

set_option autoImplicit false
set_option relaxedAutoImplicit false

namespace Fluidic.Consensus

open Library Finset

/-! ### Residues -/

/-- A list of residues of the length of the transform. -/
structure Residues (size : ℕ) (a : List ℕ) : Prop where
  length_eq : a.length = size
  lt : ∀ x ∈ a, x < nttModulus

/-- The entry at an index as an element of the field. -/
def entryAt (a : List ℕ) (index : ℕ) : ZMod nttModulus := (a.getD index 0 : ℕ)

theorem Residues.getD_lt {size : ℕ} {a : List ℕ} (hresidues : Residues size a) (index : ℕ) :
    a.getD index 0 < nttModulus := by
  rw [List.getD_eq_getElem?_getD]
  cases hentry : a[index]? with
  | none => decide
  | some x => exact hresidues.lt x (List.mem_of_getElem? hentry)

theorem getElem?_eq_getD {a : List ℕ} {index : ℕ} (hindex : index < a.length) :
    a[index]? = some (a.getD index 0) := by
  rw [List.getD_eq_getElem?_getD, List.getElem?_eq_getElem hindex, Option.getD_some]

theorem addMod_lt {a b : ℕ} (ha : a < nttModulus) (hb : b < nttModulus) :
    addMod a b nttModulus < nttModulus := by
  unfold addMod
  split_ifs <;> omega

theorem subMod_lt {a b : ℕ} (ha : a < nttModulus) (hb : b < nttModulus) :
    subMod a b nttModulus < nttModulus := by
  unfold subMod
  split_ifs <;> omega

theorem mulMod_lt (a b : ℕ) : mulMod a b nttModulus < nttModulus := Nat.mod_lt _ (by decide)

theorem cast_addMod (a b : ℕ) : (addMod a b nttModulus : ZMod nttModulus) = a + b := by
  unfold addMod
  split_ifs with hover
  · rw [Nat.cast_sub hover, ZMod.natCast_self, sub_zero, Nat.cast_add]
  · rw [Nat.cast_add]

theorem cast_subMod (a : ℕ) {b : ℕ} (hb : b < nttModulus) :
    (subMod a b nttModulus : ZMod nttModulus) = a - b := by
  unfold subMod
  split_ifs with hle
  · rw [Nat.cast_sub hle]
  · rw [Nat.cast_sub (by omega), Nat.cast_add, ZMod.natCast_self, add_zero]

theorem cast_mulMod (a b : ℕ) : (mulMod a b nttModulus : ZMod nttModulus) = a * b := by
  unfold mulMod
  rw [ZMod.natCast_mod, Nat.cast_mul]

/-- The loop of `modPow` multiplies the result by the power. Assumes: the result is reduced, and the
exponent has at most the given number of digits. -/
theorem modPowLoop_eq {modulus digits base exponent result : ℕ} (hresult : result < modulus)
    (hexponent : exponent < 2 ^ digits) :
    modPowLoop modulus digits base exponent result = result * base ^ exponent % modulus := by
  induction digits generalizing base exponent result with
  | zero =>
    have hzero : exponent = 0 := by simpa using hexponent
    rw [hzero, pow_zero, mul_one, Nat.mod_eq_of_lt hresult, modPowLoop]
  | succ digits ih =>
    have hpositive : 0 < modulus := by omega
    unfold modPowLoop
    by_cases hdone : exponent = 0
    · rw [if_pos hdone, hdone, pow_zero, mul_one, Nat.mod_eq_of_lt hresult]
    · have hhalf : exponent / 2 < 2 ^ digits := by
        rw [pow_succ] at hexponent
        omega
      have hsplit : base ^ exponent = base ^ (exponent % 2) * (base * base) ^ (exponent / 2) := by
        rw [← pow_two, ← pow_mul, ← pow_add, Nat.mod_add_div]
      have hsquare : mulMod base base modulus ^ (exponent / 2) ≡
          (base * base) ^ (exponent / 2) [MOD modulus] := (Nat.mod_modEq _ _).pow _
      rw [if_neg hdone]
      by_cases hodd : exponent % 2 = 1
      · have hreduced : mulMod result base modulus < modulus := Nat.mod_lt _ hpositive
        rw [if_pos hodd, ih hreduced hhalf, hsplit, hodd, pow_one, ← mul_assoc]
        exact (Nat.mod_modEq (result * base) modulus).mul hsquare
      · have heven : exponent % 2 = 0 := by omega
        rw [if_neg hodd, ih hresult hhalf, hsplit, heven, pow_zero, one_mul]
        exact hsquare.mul_left result

/-- Modular exponentiation is the reduced power. Assumes: the modulus is above one, and the exponent
fits. -/
theorem modPow_eq {base exponent modulus : ℕ} (hmodulus : 1 < modulus)
    (hexponent : exponent < 2 ^ 64) : modPow base exponent modulus = base ^ exponent % modulus := by
  unfold modPow
  rw [modPowLoop_eq hmodulus hexponent, one_mul, ← Nat.pow_mod]

/-! ### Checks of the machine -/

/-- Modular addition that traps where a sum or a difference leaves its 64 bits. -/
def addModChecked (a b m : ℕ) : Option ℕ := do
  let sum ← checkedAdd 64 a b
  if m ≤ sum then checkedSub sum m else return sum

/-- Modular subtraction that traps where a sum or a difference leaves its 64 bits. -/
def subModChecked (a b m : ℕ) : Option ℕ :=
  if b ≤ a then checkedSub a b
  else do
    let sum ← checkedAdd 64 a m
    checkedSub sum b

/-- Modular multiplication that traps where the product leaves its 128 bits or the residue 64. -/
def mulModChecked (a b m : ℕ) : Option ℕ := do
  let product ← checkedMul 128 a b
  if product % m < 2 ^ 64 then return product % m else none

/-- One butterfly, which traps where an index leaves the list or an operation its range. -/
def butterflyChecked (roots a : List ℕ) (i j half step : ℕ) : Option (List ℕ) := do
  let index ← checkedMul 64 j step
  let root ← roots[index]?
  let low ← checkedAdd 64 i j
  let high ← checkedAdd 64 low half
  let u ← a[low]?
  let operand ← a[high]?
  let v ← mulModChecked operand root nttModulus
  let sum ← addModChecked u v nttModulus
  let difference ← subModChecked u v nttModulus
  return (a.set low sum).set high difference

/-- The rounds of the transform with the checks. They fail also when the fuel does not suffice. -/
def butterflyRoundsChecked (size : ℕ) (roots : List ℕ) : ℕ → ℕ → List ℕ → Option (List ℕ)
  | 0, _, _ => none
  | rounds + 1, len, a =>
    if size < len then some a
    else do
      let a ← (List.range' 0 ((size + len - 1) / len) len).foldlM
        (fun a i ↦ (List.range (len / 2)).foldlM
          (fun a j ↦ butterflyChecked roots a i j (len / 2) (size / len)) a) a
      let next ← checkedMul 64 len 2
      butterflyRoundsChecked size roots rounds next a

/-- Exchange the entries at two indices, which traps where one leaves the list. -/
def swapChecked (a : List ℕ) (i j : ℕ) : Option (List ℕ) :=
  if i < a.length ∧ j < a.length then some (swapEntries a i j) else none

/-- The permutation with the checks, among them that a shift is by fewer than 64 places. -/
def bitReversePermuteChecked (a : List ℕ) : Option (List ℕ) := do
  let shift ← checkedSub 64 (Nat.log2 a.length)
  (List.range a.length).foldlM
    (fun a i ↦
      if 64 ≤ shift then none
      else
        let reversed := (BitVec.ofNat 64 i).reverse.toNat / 2 ^ shift
        if i < reversed then swapChecked a i reversed else some a) a

/-- The forward transform with the checks of the machine. -/
def NttEngine.nttChecked (engine : NttEngine) (a : List ℕ) : Option (List ℕ) :=
  if a.length = engine.size then do
    let a ← bitReversePermuteChecked a
    butterflyRoundsChecked engine.size engine.roots 64 2 a
  else none

theorem checkedAdd_eq {width a b : ℕ} (hsum : a + b < 2 ^ width) :
    checkedAdd width a b = some (a + b) := if_pos hsum

theorem checkedSub_eq {a b : ℕ} (hle : b ≤ a) : checkedSub a b = some (a - b) := if_pos hle

theorem checkedMul_eq {width a b : ℕ} (hproduct : a * b < 2 ^ width) :
    checkedMul width a b = some (a * b) := if_pos hproduct

theorem addModChecked_eq {a b : ℕ} (ha : a < nttModulus) (hb : b < nttModulus) :
    addModChecked a b nttModulus = some (addMod a b nttModulus) := by
  have hsum : a + b < 2 ^ 64 := by
    unfold nttModulus at ha hb
    omega
  unfold addModChecked addMod
  rw [checkedAdd_eq hsum, Option.bind_eq_bind, Option.bind_some]
  split_ifs with hover
  · exact checkedSub_eq hover
  · rfl

theorem subModChecked_eq {a b : ℕ} (ha : a < nttModulus) (hb : b < nttModulus) :
    subModChecked a b nttModulus = some (subMod a b nttModulus) := by
  have hsum : a + nttModulus < 2 ^ 64 := by
    unfold nttModulus at ha ⊢
    omega
  unfold subModChecked subMod
  split_ifs with hle
  · exact checkedSub_eq hle
  · rw [checkedAdd_eq hsum, Option.bind_eq_bind, Option.bind_some, checkedSub_eq (by omega)]

theorem mulModChecked_eq {a b : ℕ} (ha : a < nttModulus) (hb : b < nttModulus) :
    mulModChecked a b nttModulus = some (mulMod a b nttModulus) := by
  have hproduct : a * b < 2 ^ 128 :=
    (Nat.mul_lt_mul'' ha hb).trans (by decide : nttModulus * nttModulus < 2 ^ 128)
  have hfits : a * b % nttModulus < 2 ^ 64 :=
    (mulMod_lt a b).trans (by decide : nttModulus < 2 ^ 64)
  unfold mulModChecked
  rw [checkedMul_eq hproduct, Option.bind_eq_bind, Option.bind_some, if_pos hfits]
  rfl

/-! ### Butterflies -/

/-- A butterfly keeps the residues and passes the checks. Assumes: its two positions are within the
list, whose length fits, and its root is one of the table. -/
theorem butterflyChecked_eq {size : ℕ} {roots a : List ℕ} {i j half step : ℕ}
    (hsize : size < 2 ^ 64) (hroots : Residues size roots) (hindex : j * step < size)
    (hhigh : i + j + half < size) (ha : Residues size a) :
    butterflyChecked roots a i j half step =
        some (butterfly a (i + j) half (roots.getD (j * step) 0)) ∧
      Residues size (butterfly a (i + j) half (roots.getD (j * step) 0)) := by
  have hlower := ha.getD_lt (i + j)
  have hupper := ha.getD_lt (i + j + half)
  have hroot := hroots.getD_lt (j * step)
  have hproduct := mulMod_lt (a.getD (i + j + half) 0) (roots.getD (j * step) 0)
  constructor
  · unfold butterflyChecked butterfly
    rw [checkedMul_eq (by omega), checkedAdd_eq (by omega)]
    simp only [Option.bind_eq_bind, Option.bind_some]
    rw [checkedAdd_eq (by omega), getElem?_eq_getD (by rw [hroots.length_eq]; exact hindex),
      getElem?_eq_getD (by rw [ha.length_eq]; omega)]
    simp only [Option.bind_some]
    rw [getElem?_eq_getD (by rw [ha.length_eq]; exact hhigh)]
    simp only [Option.bind_some]
    rw [mulModChecked_eq hupper hroot, Option.bind_some, addModChecked_eq hlower hproduct,
      Option.bind_some, subModChecked_eq hlower hproduct, Option.bind_some]
    rfl
  · refine ⟨?_, fun x hx ↦ ?_⟩
    · simp [butterfly, ha.length_eq]
    · obtain hx | rfl := List.mem_or_eq_of_mem_set hx
      · obtain hx | rfl := List.mem_or_eq_of_mem_set hx
        · exact ha.lt x hx
        · exact addMod_lt hlower hproduct
      · exact subMod_lt hlower hproduct

/-! ### A round -/

/-- The butterflies of a round: the number of the block and the offset in its lower half. -/
def roundPairs (blocks half : ℕ) : List (ℕ × ℕ) :=
  (List.range blocks).flatMap fun block ↦ (List.range half).map fun offset ↦ (block, offset)

/-- The lower position of a butterfly. -/
def lowerOf (len : ℕ) (pair : ℕ × ℕ) : ℕ := len * pair.1 + pair.2

/-- The upper position of a butterfly. -/
def upperOf (len half : ℕ) (pair : ℕ × ℕ) : ℕ := len * pair.1 + pair.2 + half

/-- One round of the transform, with the blocks and the half length that its loops run over. -/
def butterflyRound (blocks len half step : ℕ) (roots a : List ℕ) : List ℕ :=
  (List.range' 0 blocks len).foldl
    (fun a i ↦ (List.range half).foldl
      (fun a j ↦ butterfly a (i + j) half (roots.getD (j * step) 0)) a) a

theorem mem_roundPairs {blocks half : ℕ} {pair : ℕ × ℕ} :
    pair ∈ roundPairs blocks half ↔ pair.1 < blocks ∧ pair.2 < half := by
  obtain ⟨block, offset⟩ := pair
  simp [roundPairs]

/-- The butterflies of a round have no position in common. Assumes: the blocks have twice the half
length. -/
theorem pairwise_roundPairs {blocks len half : ℕ} (hlen : len = 2 * half) :
    (roundPairs blocks half).Pairwise (DisjointPairs (lowerOf len) (upperOf len half)) := by
  unfold roundPairs
  rw [List.pairwise_flatMap]
  constructor
  · intro block _
    rw [List.pairwise_map]
    refine List.pairwise_lt_range.imp_of_mem fun {offset other} hoffset hother hless ↦ ?_
    rw [List.mem_range] at hoffset hother
    unfold DisjointPairs lowerOf upperOf
    dsimp only
    omega
  · refine List.pairwise_lt_range.imp fun {block other} hless ↦ ?_
    simp only [List.mem_map, List.mem_range]
    rintro _ ⟨offset, hoffset, rfl⟩ _ ⟨offset', hoffset', rfl⟩
    have hblock : len * block + len ≤ len * other := by
      rw [← Nat.mul_succ]
      exact Nat.mul_le_mul_left len hless
    unfold DisjointPairs lowerOf upperOf
    dsimp only
    omega

/-- A round is the loop over its butterflies. -/
theorem butterflyRound_eq (blocks len half step : ℕ) (roots a : List ℕ) :
    butterflyRound blocks len half step roots a =
      (roundPairs blocks half).foldl (updatePair 0 (lowerOf len) (upperOf len half)
        (fun pair u x ↦ addMod u (mulMod x (roots.getD (pair.2 * step) 0) nttModulus) nttModulus)
        (fun pair u x ↦ subMod u (mulMod x (roots.getD (pair.2 * step) 0) nttModulus) nttModulus))
          a := by
  unfold butterflyRound
  induction blocks with
  | zero => rfl
  | succ blocks ih =>
    rw [List.range'_concat, List.foldl_append, ih, roundPairs, roundPairs, List.range_succ,
      List.flatMap_append, List.foldl_append, List.flatMap_singleton, List.foldl_map, Nat.zero_add]
    rfl

/-- The entries after a round: sums and differences of the entries before it. Assumes: the blocks
have twice the half length and fill the list. -/
theorem getD_butterflyRound {blocks len half : ℕ} (step : ℕ) (roots : List ℕ) {a : List ℕ}
    (hlen : len = 2 * half) (hlength : a.length = len * blocks) {block offset : ℕ}
    (hblock : block < blocks) (hoffset : offset < half) :
    (butterflyRound blocks len half step roots a).getD (len * block + offset) 0 =
        addMod (a.getD (len * block + offset) 0) (mulMod (a.getD (len * block + offset + half) 0)
          (roots.getD (offset * step) 0) nttModulus) nttModulus ∧
      (butterflyRound blocks len half step roots a).getD (len * block + offset + half) 0 =
        subMod (a.getD (len * block + offset) 0) (mulMod (a.getD (len * block + offset + half) 0)
          (roots.getD (offset * step) 0) nttModulus) nttModulus := by
  rw [butterflyRound_eq]
  have hmem : (block, offset) ∈ roundPairs blocks half := mem_roundPairs.mpr ⟨hblock, hoffset⟩
  refine foldl_updatePair (pairwise_roundPairs hlen) (fun pair hpair ↦ ?_) hmem
  obtain ⟨hfirst, hsecond⟩ := mem_roundPairs.mp hpair
  have hlast : len * pair.1 + len ≤ len * blocks := by
    rw [← Nat.mul_succ]
    exact Nat.mul_le_mul_left len hfirst
  unfold lowerOf upperOf
  omega

/-- A round with the checks passes them. Assumes: the blocks have twice the half length and fill the
list, whose length fits, and the steps stay within the table of roots. -/
theorem butterflyRoundChecked_eq {size blocks len half step : ℕ} {roots a : List ℕ}
    (hsize : size < 2 ^ 64) (hlen : len = 2 * half) (hwhole : size = len * blocks)
    (hstep : half * step ≤ size) (hroots : Residues size roots) (ha : Residues size a) :
    (List.range' 0 blocks len).foldlM (fun a i ↦ (List.range half).foldlM
        (fun a j ↦ butterflyChecked roots a i j half step) a) a =
      some (butterflyRound blocks len half step roots a) ∧
    Residues size (butterflyRound blocks len half step roots a) := by
  refine @foldlM_eq_foldl _ _ _ _ (Residues size) _ (fun a ha i hi ↦ ?_) _ ha
  refine @foldlM_eq_foldl _ _ _ _ (Residues size) _ (fun a ha j hj ↦ ?_) _ ha
  obtain ⟨block, hblock, rfl⟩ := List.mem_range'.mp hi
  rw [List.mem_range] at hj
  have hlast : len * block + len ≤ len * blocks := by
    rw [← Nat.mul_succ]
    exact Nat.mul_le_mul_left len hblock
  have hindex : j * step < size := by
    obtain rfl | hpositive := Nat.eq_zero_or_pos step
    · omega
    · exact lt_of_lt_of_le (Nat.mul_lt_mul_of_pos_right hj hpositive) hstep
  exact butterflyChecked_eq hsize hroots hindex (by omega) ha

/-! ### The permutation -/

/-- The index of the source is the one with reversed digits. Assumes: the source has at most 64
digits. -/
theorem reverseIndex_eq {bits : ℕ} (hbits : bits ≤ 64) (index : ℕ) :
    reverseIndex bits index = reverseDigits bits index := by
  apply Nat.eq_of_testBit_eq
  intro place
  unfold reverseIndex
  rw [testBit_reverseDigits, Nat.testBit_div_two_pow, BitVec.testBit_toNat, BitVec.getLsbD_reverse,
    BitVec.getMsbD_eq_getLsbD, BitVec.getLsbD_ofNat]
  by_cases hplace : place < bits
  · have hmirror : 64 - 1 - (64 - bits + place) = bits - 1 - place := by omega
    have hwithin : 64 - bits + place < 64 := by omega
    have hlow : bits - 1 - place < 64 := by omega
    simp [hplace, hmirror, hwithin, hlow, Nat.add_comm place]
  · have hbeyond : ¬64 - bits + place < 64 := by omega
    simp [hplace, hbeyond, Nat.add_comm place]

/-- The indices whose entries the permutation exchanges with those at their reversed indices. -/
def exchanged (bits : ℕ) : List ℕ :=
  (List.range (2 ^ bits)).filter fun index ↦ index < reverseDigits bits index

theorem mem_exchanged {bits index : ℕ} :
    index ∈ exchanged bits ↔ index < 2 ^ bits ∧ index < reverseDigits bits index := by
  unfold exchanged
  rw [List.mem_filter, List.mem_range, decide_eq_true_eq]

/-- The exchanges have no position in common. -/
theorem pairwise_exchanged (bits : ℕ) :
    (exchanged bits).Pairwise (DisjointPairs id (reverseDigits bits)) := by
  apply (List.nodup_range.filter _).pairwise_of_forall_ne
  intro index hindex other hother hdiffer
  obtain ⟨hlt, hless⟩ := mem_exchanged.mp hindex
  obtain ⟨hlt', hless'⟩ := mem_exchanged.mp hother
  have hback := reverseDigits_reverseDigits hlt
  have hback' := reverseDigits_reverseDigits hlt'
  refine ⟨hdiffer, fun hmeet ↦ ?_, fun hmeet ↦ ?_, fun hmeet ↦ ?_⟩
  · change index = reverseDigits bits other at hmeet
    rw [hmeet, hback'] at hless
    omega
  · change reverseDigits bits index = other at hmeet
    rw [← hmeet, hback] at hless'
    omega
  · rw [hmeet, hback'] at hback
    exact hdiffer hback.symm

/-- The permutation is the loop over the exchanges. Assumes: the length is a power of two that fits.
-/
theorem bitReversePermute_eq {bits : ℕ} {a : List ℕ} (hbits : bits ≤ 64)
    (hlength : a.length = 2 ^ bits) :
    bitReversePermute a = (exchanged bits).foldl
      (updatePair 0 id (reverseDigits bits) (fun _ _ upper ↦ upper) (fun _ lower _ ↦ lower)) a := by
  unfold bitReversePermute exchanged
  dsimp only
  rw [hlength, Nat.log2_two_pow, List.foldl_filter]
  apply List.foldl_ext
  intro entries index _
  rw [reverseIndex_eq hbits index]
  simp only [decide_eq_true_eq]
  rfl

/-- The permutation puts the entries in the order of reversed digits. Assumes: the length is a power
of two that fits. -/
theorem getD_bitReversePermute {bits : ℕ} {a : List ℕ} (hbits : bits ≤ 64)
    (hlength : a.length = 2 ^ bits) {index : ℕ} (hindex : index < 2 ^ bits) :
    (bitReversePermute a).getD index 0 = a.getD (reverseDigits bits index) 0 := by
  have hwithin : ∀ round ∈ exchanged bits, id round < a.length ∧
      reverseDigits bits round < a.length ∧ id round ≠ reverseDigits bits round := by
    intro round hround
    obtain ⟨hlt, hless⟩ := mem_exchanged.mp hround
    rw [hlength]
    exact ⟨hlt, reverseDigits_lt bits round, hless.ne⟩
  have hback := reverseDigits_reverseDigits hindex
  rw [bitReversePermute_eq hbits hlength]
  obtain hless | hsame | hmore := Nat.lt_trichotomy index (reverseDigits bits index)
  · have hmem : index ∈ exchanged bits := mem_exchanged.mpr ⟨hindex, hless⟩
    exact (foldl_updatePair (pairwise_exchanged bits) hwithin hmem).1
  · rw [getD_foldl_updatePair_of_ne, ← hsame]
    intro round hround
    obtain ⟨hlt, hless⟩ := mem_exchanged.mp hround
    constructor
    · rintro rfl
      exact absurd hsame hless.ne
    · intro hmeet
      rw [hmeet, reverseDigits_reverseDigits hlt] at hsame
      exact absurd hsame.symm hless.ne
  · have hmem : reverseDigits bits index ∈ exchanged bits := by
      rw [mem_exchanged, hback]
      exact ⟨reverseDigits_lt bits index, hmore⟩
    have hupper := (@foldl_updatePair _ _ 0 id (reverseDigits bits) (fun _ _ upper ↦ upper)
      (fun _ lower _ ↦ lower) _ (pairwise_exchanged bits) _ hwithin _ hmem).2
    rwa [hback] at hupper

/-- The permutation keeps the residues and passes the checks. Assumes: the length is a power of two
of at least two that fits. -/
theorem bitReversePermuteChecked_eq {bits : ℕ} {a : List ℕ} (hpositive : 0 < bits)
    (hbits : bits ≤ 64) (ha : Residues (2 ^ bits) a) :
    bitReversePermuteChecked a = some (bitReversePermute a) ∧
      Residues (2 ^ bits) (bitReversePermute a) := by
  have hlength := ha.length_eq
  unfold bitReversePermuteChecked bitReversePermute
  rw [hlength, Nat.log2_two_pow, checkedSub_eq hbits, Option.bind_eq_bind, Option.bind_some]
  refine @foldlM_eq_foldl _ _ _ _ (Residues (2 ^ bits)) _ (fun entries hentries index hindex ↦ ?_)
    _ ha
  rw [List.mem_range] at hindex
  have hreversed : reverseIndex bits index < 2 ^ bits := by
    rw [reverseIndex_eq hbits index]
    exact reverseDigits_lt bits index
  have hshift : ¬64 ≤ 64 - bits := by omega
  rw [if_neg hshift]
  show (if index < reverseIndex bits index then _ else _) = _ ∧ _
  by_cases hless : index < reverseIndex bits index
  · rw [if_pos hless, if_pos hless]
    have hboth : index < entries.length ∧ reverseIndex bits index < entries.length := by
      rw [hentries.length_eq]
      exact ⟨hindex, hreversed⟩
    refine ⟨if_pos hboth, ?_, fun x hx ↦ ?_⟩
    · simp [swapEntries, hentries.length_eq]
    · obtain hx | rfl := List.mem_or_eq_of_mem_set hx
      · obtain hx | rfl := List.mem_or_eq_of_mem_set hx
        · exact hentries.lt x hx
        · exact hentries.getD_lt _
      · exact hentries.getD_lt _
  · rw [if_neg hless, if_neg hless]
    exact ⟨rfl, hentries⟩

/-! ### The rounds -/

/-- The table of the powers of a root. -/
structure RootTable (root : ZMod nttModulus) (size : ℕ) (roots : List ℕ) : Prop where
  residues : Residues size roots
  power : ∀ index < size, entryAt roots index = root ^ index

/-- A round brings the list from one stage of the decimation to the next. Assumes: the table holds
the powers of the root, half a turn of it is minus one, and the list is at the stage. -/
theorem holdsStage_butterflyRound {root : ZMod nttModulus} {roots a : List ℕ} {stage remaining : ℕ}
    {x : ℕ → ZMod nttModulus} (htable : RootTable root (2 ^ (stage + 1) * 2 ^ remaining) roots)
    (hturn : root ^ (2 ^ remaining * 2 ^ stage) = -1)
    (ha : Residues (2 ^ (stage + 1) * 2 ^ remaining) a)
    (hstage : HoldsStage root stage (remaining + 1) x (entryAt a)) :
    HoldsStage root (stage + 1) remaining x (entryAt
      (butterflyRound (2 ^ remaining) (2 ^ (stage + 1)) (2 ^ stage) (2 ^ remaining) roots a)) := by
  have hlen : 2 ^ (stage + 1) = 2 * 2 ^ stage := by ring
  have hpower (offset : ℕ) (hoffset : offset < 2 ^ stage) :
      (roots.getD (offset * 2 ^ remaining) 0 : ZMod nttModulus) =
        root ^ (2 ^ remaining * offset) := by
    rw [Nat.mul_comm (2 ^ remaining)]
    apply htable.power
    exact Nat.mul_lt_mul_of_pos_right (by omega) (Nat.two_pow_pos remaining)
  have hentries (block : ℕ) (hblock : block < 2 ^ remaining) (offset : ℕ)
      (hoffset : offset < 2 ^ stage) :=
    getD_butterflyRound (2 ^ remaining) roots hlen ha.length_eq hblock hoffset
  refine hstage.next hturn (fun block hblock offset hoffset ↦ ?_)
    (fun block hblock offset hoffset ↦ ?_)
  · unfold entryAt
    rw [(hentries block hblock offset hoffset).1, cast_addMod, cast_mulMod, hpower offset hoffset,
      mul_comm (root ^ _)]
  · unfold entryAt
    rw [(hentries block hblock offset hoffset).2, cast_subMod _ (mulMod_lt _ _), cast_mulMod,
      hpower offset hoffset, mul_comm (root ^ _)]

/-- The rounds bring the list to the last stage and pass the checks. Assumes: the table holds the
powers of the root, half a turn of it is minus one, the list is at a stage, and the fuel suffices.
-/
theorem butterflyRounds_eq {root : ZMod nttModulus} {roots a : List ℕ}
    {size stage remaining fuel : ℕ} {x : ℕ → ZMod nttModulus}
    (hsize : size = 2 ^ (stage + remaining))
    (hfits : stage + remaining < 63) (hfuel : remaining < fuel)
    (htable : RootTable root size roots)
    (hturn : ∀ half, size = 2 * half → root ^ half = -1) (ha : Residues size a)
    (hstage : HoldsStage root stage remaining x (entryAt a)) :
    butterflyRoundsChecked size roots fuel (2 ^ (stage + 1)) a =
        some (butterflyRounds size roots fuel (2 ^ (stage + 1)) a) ∧
      Residues size (butterflyRounds size roots fuel (2 ^ (stage + 1)) a) ∧
      HoldsStage root (stage + remaining) 0 x
        (entryAt (butterflyRounds size roots fuel (2 ^ (stage + 1)) a)) := by
  induction remaining generalizing stage fuel a with
  | zero =>
    obtain ⟨rounds, rfl⟩ : ∃ rounds, fuel = rounds + 1 := ⟨fuel - 1, by omega⟩
    have hdone : size < 2 ^ (stage + 1) := by
      rw [hsize]
      exact Nat.pow_lt_pow_right (by omega) (by omega)
    unfold butterflyRoundsChecked butterflyRounds
    rw [if_pos hdone, if_pos hdone]
    exact ⟨rfl, ha, hstage⟩
  | succ remaining ih =>
    obtain ⟨rounds, rfl⟩ : ∃ rounds, fuel = rounds + 1 := ⟨fuel - 1, by omega⟩
    have hwhole : size = 2 ^ (stage + 1) * 2 ^ remaining := by
      rw [hsize, ← pow_add]
      congr 1
      omega
    have hpositive : 0 < 2 ^ (stage + 1) := Nat.two_pow_pos _
    have hle : 2 ^ (stage + 1) ≤ size := by
      rw [hwhole]
      exact Nat.le_mul_of_pos_right _ (Nat.two_pow_pos _)
    have hfit : size < 2 ^ 63 := by
      rw [hsize]
      exact Nat.pow_lt_pow_right (by omega) hfits
    have hblocks : (size + 2 ^ (stage + 1) - 1) / 2 ^ (stage + 1) = 2 ^ remaining := by
      rw [hwhole, Nat.add_sub_assoc hpositive, Nat.mul_add_div hpositive,
        Nat.div_eq_of_lt (by omega), Nat.add_zero]
    have hstep : size / 2 ^ (stage + 1) = 2 ^ remaining := by
      rw [hwhole, Nat.mul_div_cancel_left _ hpositive]
    have hhalf : 2 ^ (stage + 1) / 2 = 2 ^ stage := by
      rw [pow_succ, Nat.mul_div_cancel _ Nat.two_pos]
    have hnext : 2 ^ (stage + 1) * 2 = 2 ^ (stage + 1 + 1) := (pow_succ _ _).symm
    have hsteps : 2 ^ stage * 2 ^ remaining ≤ size := by
      rw [hwhole]
      exact Nat.mul_le_mul_right _ (Nat.pow_le_pow_right Nat.two_pos (Nat.le_succ _))
    obtain ⟨hchecked, hround⟩ := butterflyRoundChecked_eq (by omega) (by ring :
      2 ^ (stage + 1) = 2 * 2 ^ stage) hwhole hsteps htable.residues ha
    have hhalfTurn : root ^ (2 ^ remaining * 2 ^ stage) = -1 := by
      apply hturn
      rw [hwhole]
      ring
    have hadvanced := holdsStage_butterflyRound (hwhole ▸ htable) hhalfTurn (hwhole ▸ ha) hstage
    obtain ⟨hlater, hresidues, hfinal⟩ := @ih _ (stage + 1) rounds
      (by rw [hsize]; congr 1; omega) (by omega) (by omega) hround hadvanced
    unfold butterflyRoundsChecked butterflyRounds
    rw [if_neg (by omega), if_neg (by omega), hblocks, hstep, hhalf, hchecked]
    have hrounds : stage + (remaining + 1) = stage + 1 + remaining := by omega
    rw [Option.bind_eq_bind, Option.bind_some, checkedMul_eq (by omega), Option.bind_eq_bind,
      Option.bind_some, hnext, hrounds]
    exact ⟨hlater, hresidues, hfinal⟩

/-! ### The transform -/

/-- The sizes that the assertions let through are the powers of two from 2 to 2 ^ 23. -/
theorem accepts_iff (size : ℕ) :
    NttEngine.Accepts size ↔ ∃ bits, 0 < bits ∧ bits ≤ 23 ∧ size = 2 ^ bits := by
  constructor
  · rintro ⟨⟨bits, rfl⟩, htwo, hdivides⟩
    refine ⟨bits, Nat.pos_of_ne_zero fun hzero ↦ ?_, ?_, rfl⟩
    · rw [hzero] at htwo
      omega
    · by_contra hlarge
      have hfactor : 2 ^ 24 ∣ nttModulus - 1 :=
        (pow_dvd_pow 2 (by omega)).trans (Nat.dvd_of_mod_eq_zero hdivides)
      exact absurd hfactor (by decide)
  · rintro ⟨bits, hpositive, hbits, rfl⟩
    refine ⟨⟨bits, rfl⟩, ?_, Nat.mod_eq_zero_of_dvd ?_⟩
    · exact Nat.pow_le_pow_right Nat.two_pos hpositive
    · exact (pow_dvd_pow 2 hbits).trans (by decide)

/-- The root of the transform of a size. -/
def rootOf (size : ℕ) : ℕ :=
  nttPrimitiveRoot ^ ((nttModulus - 1) / size) % nttModulus

/-- Half a turn of the primitive root is minus one. -/
theorem nttPrimitiveRoot_pow :
    (nttPrimitiveRoot : ZMod nttModulus) ^ ((nttModulus - 1) / 2) = -1 := by
  have hcomputed : modPow nttPrimitiveRoot ((nttModulus - 1) / 2) nttModulus = nttModulus - 1 := by
    decide +kernel
  rw [modPow_eq (by decide) (by decide)] at hcomputed
  have hcast := congrArg (Nat.cast : ℕ → ZMod nttModulus) hcomputed
  rw [ZMod.natCast_mod, Nat.cast_pow, Nat.cast_sub (by decide), ZMod.natCast_self, Nat.cast_one,
    zero_sub] at hcast
  exact hcast

/-- Half a turn of the root is minus one. Assumes: the size divides the order of the field. -/
theorem rootOf_pow {size half : ℕ} (hdivides : size ∣ nttModulus - 1) (hhalf : size = 2 * half) :
    (rootOf size : ZMod nttModulus) ^ half = -1 := by
  obtain ⟨quotient, hquotient⟩ := hdivides
  have hpositive : 0 < half := by
    obtain rfl | hpositive := Nat.eq_zero_or_pos half
    · rw [hhalf, Nat.mul_zero, Nat.zero_mul] at hquotient
      exact absurd hquotient (by decide)
    · exact hpositive
  have hexponent : (nttModulus - 1) / size * half = (nttModulus - 1) / 2 := by
    rw [hquotient, Nat.mul_div_cancel_left _ (by omega), hhalf, Nat.mul_assoc,
      Nat.mul_div_cancel_left _ Nat.two_pos, Nat.mul_comm]
  unfold rootOf
  rw [ZMod.natCast_mod, Nat.cast_pow, ← pow_mul, hexponent, nttPrimitiveRoot_pow]

/-- A table made by multiplying with a root again and again holds its powers. -/
theorem rootTable_iterate (root size : ℕ) : RootTable root size
    (List.iterate (fun power ↦ mulMod power root nttModulus) 1 size) := by
  have hpower (index : ℕ) : (fun power ↦ mulMod power root nttModulus)^[index] 1 < nttModulus ∧
      ((fun power ↦ mulMod power root nttModulus)^[index] 1 : ZMod nttModulus) =
        (root : ZMod nttModulus) ^ index := by
    induction index with
    | zero => exact ⟨show 1 < nttModulus by decide, by simp⟩
    | succ index ih =>
      rw [Function.iterate_succ_apply', cast_mulMod, ih.2, pow_succ]
      exact ⟨mulMod_lt _ _, rfl⟩
  refine ⟨⟨List.length_iterate _ _ _, fun x hx ↦ ?_⟩, fun index hindex ↦ ?_⟩
  · obtain ⟨index, hindex, rfl⟩ := List.mem_iff_getElem.mp hx
    rw [List.getElem_iterate]
    exact (hpower index).1
  · unfold entryAt
    have hlast : index <
        (List.iterate (fun power ↦ mulMod power root nttModulus) 1 size).length := by
      rwa [List.length_iterate]
    rw [List.getD_eq_getElem?_getD, List.getElem?_eq_getElem hlast, Option.getD_some,
      List.getElem_iterate]
    exact (hpower index).2

/-- The root that `new` computes. -/
theorem modPow_eq_rootOf (size : ℕ) :
    modPow nttPrimitiveRoot ((nttModulus - 1) / size) nttModulus = rootOf size :=
  modPow_eq (by decide) (lt_of_le_of_lt (Nat.div_le_self _ _) (by decide))

/-- The table of an engine holds the powers of its root. -/
theorem rootTable_new (size : ℕ) :
    RootTable (rootOf size) size (NttEngine.new size).roots := by
  have hroots : (NttEngine.new size).roots =
      List.iterate (fun power ↦ mulMod power (rootOf size) nttModulus) 1 size := by
    unfold NttEngine.new
    dsimp only
    rw [modPow_eq_rootOf]
  rw [hroots]
  exact rootTable_iterate _ _

/-- The permutation and the rounds with a table of roots pass the checks, keep the residues and
compute the transform with the root. Assumes: the length is a power of two of at least two that
fits, the table holds the powers of the root, and half a turn of it is minus one. -/
theorem butterflyRounds_eq_transform {bits : ℕ} {root : ZMod nttModulus} {roots a : List ℕ}
    (hpositive : 0 < bits) (hbits : bits < 63) (htable : RootTable root (2 ^ bits) roots)
    (hturn : ∀ half, 2 ^ bits = 2 * half → root ^ half = -1) (ha : Residues (2 ^ bits) a) :
    bitReversePermuteChecked a = some (bitReversePermute a) ∧
      butterflyRoundsChecked (2 ^ bits) roots 64 2 (bitReversePermute a) =
        some (butterflyRounds (2 ^ bits) roots 64 2 (bitReversePermute a)) ∧
      Residues (2 ^ bits) (butterflyRounds (2 ^ bits) roots 64 2 (bitReversePermute a)) ∧
      ∀ frequency < 2 ^ bits,
        entryAt (butterflyRounds (2 ^ bits) roots 64 2 (bitReversePermute a)) frequency =
          transform root (2 ^ bits) (entryAt a) frequency := by
  obtain ⟨hpermuted, hresidues⟩ := bitReversePermuteChecked_eq hpositive (by omega) ha
  have hfirst : HoldsStage root 0 bits (entryAt a) (entryAt (bitReversePermute a)) := by
    apply holdsStage_zero
    intro index hindex
    exact congrArg (Nat.cast : ℕ → ZMod nttModulus)
      (getD_bitReversePermute (by omega) ha.length_eq hindex)
  have hexponent : 2 ^ bits = 2 ^ (0 + bits) := by rw [Nat.zero_add]
  obtain ⟨hchecked, hfinal, hstage⟩ := @butterflyRounds_eq _ _ _ _ 0 bits 64 _ hexponent (by omega)
    (by omega) htable hturn hresidues hfirst
  rw [Nat.zero_add] at hstage
  exact ⟨hpermuted, hchecked, hfinal, fun frequency hfrequency ↦ hstage.transform hfrequency⟩

/-- The forward transform passes the checks, keeps the residues and computes the transform with the
root of its size. Assumes: the size is one of those that the assertions let through. -/
theorem ntt_entries {size : ℕ} (hsize : NttEngine.Accepts size) {a : List ℕ}
    (ha : Residues size a) :
    (NttEngine.new size).nttChecked a = some ((NttEngine.new size).ntt a) ∧
      Residues size ((NttEngine.new size).ntt a) ∧
      ∀ frequency < size, entryAt ((NttEngine.new size).ntt a) frequency =
        transform (rootOf size : ZMod nttModulus) size (entryAt a) frequency := by
  obtain ⟨bits, hpositive, hbits, rfl⟩ := (accepts_iff size).mp hsize
  have hdivides : 2 ^ bits ∣ nttModulus - 1 := Nat.dvd_of_mod_eq_zero hsize.2.2
  obtain ⟨hpermuted, hchecked, hfinal, hentries⟩ := butterflyRounds_eq_transform hpositive
    (by omega) (rootTable_new (2 ^ bits)) (fun half ↦ rootOf_pow hdivides) ha
  refine ⟨?_, hfinal, hentries⟩
  unfold NttEngine.nttChecked
  rw [if_pos (show a.length = (NttEngine.new (2 ^ bits)).size from ha.length_eq), hpermuted,
    Option.bind_eq_bind, Option.bind_some]
  exact hchecked

/-- After the transform the entry at an index is that of the discrete Fourier transform over the
prime field, every entry is reduced, and no operation of the machine has left its range. Assumes:
the size is one of those that the assertions let through, and the list has this length and reduced
entries. -/
theorem ntt_eq_transform {size : ℕ} (hsize : NttEngine.Accepts size) {a : List ℕ}
    (hlength : a.length = size) (hreduced : ∀ x ∈ a, x < nttModulus) :
    ((NttEngine.new size).ntt a).length = size ∧
      (∀ frequency < size, ((NttEngine.new size).ntt a)[frequency]? =
        some ((∑ i ∈ range size, a.getD i 0 * rootOf size ^ (i * frequency)) % nttModulus)) ∧
      (∀ x ∈ (NttEngine.new size).ntt a, x < nttModulus) ∧
      (NttEngine.new size).nttChecked a = some ((NttEngine.new size).ntt a) := by
  obtain ⟨hchecked, hfinal, hentries⟩ := ntt_entries hsize ⟨hlength, hreduced⟩
  refine ⟨hfinal.length_eq, fun frequency hfrequency ↦ ?_, hfinal.lt, hchecked⟩
  have hlast : frequency < ((NttEngine.new size).ntt a).length := by
    rwa [hfinal.length_eq]
  have hvalue : (((NttEngine.new size).ntt a).getD frequency 0 : ZMod nttModulus) =
      (∑ i ∈ range size, a.getD i 0 * rootOf size ^ (i * frequency) : ℕ) := by
    rw [Nat.cast_sum]
    simp only [Nat.cast_mul, Nat.cast_pow]
    exact hentries frequency hfrequency
  rw [getElem?_eq_getD hlast, ← Nat.mod_eq_of_lt (hfinal.getD_lt frequency)]
  exact congrArg some ((ZMod.natCast_eq_natCast_iff' _ _ _).mp hvalue)

/-- The transform of four entries. -/
theorem ntt_eq_transform_four :
    NttEngine.Accepts 4 ∧ (NttEngine.new 4).ntt [1, 2, 3, 4] =
      [10, 173167434, 998244351, 825076915] ∧
      ∀ frequency < 4, ((NttEngine.new 4).ntt [1, 2, 3, 4])[frequency]? =
        some ((∑ i ∈ range 4, [1, 2, 3, 4].getD i 0 * rootOf 4 ^ (i * frequency)) %
          nttModulus) := by
  have hsize : NttEngine.Accepts 4 := (accepts_iff 4).mpr ⟨2, by decide, by decide, rfl⟩
  exact ⟨hsize, by decide +kernel,
    (ntt_eq_transform hsize (a := [1, 2, 3, 4]) rfl (by decide)).2.1⟩

end Fluidic.Consensus
