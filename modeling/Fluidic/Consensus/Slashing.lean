import Fluidic.Consensus.QuorumAgreement

/-!
# Who is slashed

Certificates arrive in any order, repeated, badly signed or from operators without stake, and what
the tracker does with one of them depends on all that arrived before. Who is slashed in the end does
not: `slashed_iff_equivocates` says that it is exactly the operators that were eligible at the start
and two of whose validly signed certificates for one tick have different contents. The stakes burned
are the stakes of these operators, each of them once.

`Exact` is the invariant. Below the two maps of the tracker it keeps, for every eligible operator
that is not slashed yet, that all of its certificates so far have the contents of the one kept.
-/

set_option autoImplicit false
set_option relaxedAutoImplicit false

namespace Fluidic.Consensus.Oscillator

open Library Crypto Value Operator
open Std (ExtTreeMap LawfulEqCmp)

variable {platform : Platform}

/-! ### One certificate -/

/-- Deliver a list of certificates, one after the other, under one key registry. -/
def ingestCertificates (oscillator : Oscillator platform) (registry : KeyRegistry)
    (certs : List SynthesisCertificate) : Oscillator platform :=
  certs.foldl (fun oscillator cert ↦ (oscillator.ingestCertificate cert registry).1) oscillator

/-- What a certificate does: nothing, because it is badly signed, not from an eligible operator or a
repetition; a slash of its operator, whose certificate for the tick has other contents; or a record,
as the first certificate of its operator for the tick. -/
theorem ingestCertificate_cases (oscillator : Oscillator platform) (cert : SynthesisCertificate)
    (registry : KeyRegistry) :
    ((cert.isSigned platform.primitives registry = false ∨
        oscillator.stakeTable.isStaked cert.operator = false ∨
        ∃ kept, oscillator.certificateTracker.byOperatorTick[(cert.operator, cert.tick)]? =
          some kept ∧ kept.signingBytes = cert.signingBytes) ∧
      (oscillator.ingestCertificate cert registry).1 = oscillator) ∨
    (cert.isSigned platform.primitives registry = true ∧
      oscillator.stakeTable.isStaked cert.operator = true ∧
      ((∃ kept, oscillator.certificateTracker.byOperatorTick[(cert.operator, cert.tick)]? =
          some kept ∧ kept.signingBytes ≠ cert.signingBytes ∧
        (oscillator.ingestCertificate cert registry).1 =
          { oscillator with
            stakeTable := (oscillator.stakeTable.slash cert.operator).1
            supplyTracker := oscillator.supplyTracker.burn
              (oscillator.stakeTable.getStake cert.operator) }) ∨
      oscillator.certificateTracker.byOperatorTick[(cert.operator, cert.tick)]? = none ∧
        (oscillator.ingestCertificate cert registry).1 =
          { oscillator with
            certificateTracker := oscillator.certificateTracker.record cert
              (oscillator.stakeTable.getStake cert.operator) })) := by
  unfold ingestCertificate CertificateTracker.apply SynthesisCertificate.isSigned
  cases hkey : registry[cert.operator]? with
  | none => exact .inl ⟨.inl rfl, rfl⟩
  | some publicKey =>
    dsimp only
    cases hverify : cert.verify platform.primitives publicKey with
    | false => exact .inl ⟨.inl rfl, rfl⟩
    | true =>
      cases hstaked : oscillator.stakeTable.isStaked cert.operator with
      | false => exact .inl ⟨.inr (.inl rfl), rfl⟩
      | true =>
        cases hkept : oscillator.certificateTracker.byOperatorTick[(cert.operator,
          cert.tick)]? with
        | none => exact .inr ⟨rfl, rfl, .inr ⟨rfl, rfl⟩⟩
        | some kept =>
          by_cases hsame : kept.signingBytes = cert.signingBytes
          · refine .inl ⟨.inr (.inr ⟨kept, rfl, hsame⟩), ?_⟩
            simp only [Bool.not_true, Bool.false_eq_true, if_false, hsame, ne_eq,
              not_true_eq_false]
          · refine .inr ⟨rfl, rfl, .inl ⟨kept, rfl, hsame, ?_⟩⟩
            simp only [Bool.not_true, Bool.false_eq_true, if_false, hsame, ne_eq,
              not_false_eq_true, if_true]
            rfl

/-! ### The invariant -/

/-- An operator equivocates in a list of certificates: two of its validly signed certificates for
one tick have different contents. -/
def Equivocates (prim : Primitives) (registry : KeyRegistry) (certs : List SynthesisCertificate)
    (operator : AccountId) : Prop :=
  ∃ first ∈ certs, ∃ second ∈ certs, first.operator = operator ∧ second.operator = operator ∧
    first.tick = second.tick ∧ first.isSigned prim registry = true ∧
    second.isSigned prim registry = true ∧ first.signingBytes ≠ second.signingBytes

/-- More certificates do not undo an equivocation. Assumes: the operator equivocates in the first
list, which is part of the second. -/
theorem Equivocates.mono {prim : Primitives} {registry : KeyRegistry}
    {certs certs' : List SynthesisCertificate} {operator : AccountId}
    (hequivocates : Equivocates prim registry certs operator) (hsubset : certs ⊆ certs') :
    Equivocates prim registry certs' operator := by
  obtain ⟨first, hfirst, second, hsecond, hrest⟩ := hequivocates
  exact ⟨first, hsubset hfirst, second, hsubset hsecond, hrest⟩

/-- What holds after the certificates delivered so far: an operator that is not slashed has its
initial entry, a slashed one was eligible and equivocated, a kept certificate is a signed one among
those delivered, every signed certificate of an eligible operator that is not slashed has the
contents of the one kept, and the burned supply is the stake of the slashed operators. -/
structure Exact (registry : KeyRegistry) (initial : StakeTable)
    (certs : List SynthesisCertificate) (oscillator : Oscillator platform) : Prop where
  config : oscillator.stakeTable.config = initial.config
  entries : ∀ operator : AccountId, oscillator.stakeTable.isSlashed operator = false →
    oscillator.stakeTable.operators[operator]? = initial.operators[operator]?
  slashed : ∀ operator, oscillator.stakeTable.isSlashed operator = true →
    initial.isStaked operator = true ∧ Equivocates platform.primitives registry certs operator
  kept : ∀ (operator : AccountId) (tick : ℕ) (cert : SynthesisCertificate),
    oscillator.certificateTracker.byOperatorTick[(operator, tick)]? = some cert →
    cert ∈ certs ∧ cert.isSigned platform.primitives registry = true ∧
      cert.operator = operator ∧ cert.tick = tick
  complete : ∀ cert ∈ certs, cert.isSigned platform.primitives registry = true →
    initial.isStaked cert.operator = true →
    oscillator.stakeTable.isSlashed cert.operator = false →
    ∃ kept, oscillator.certificateTracker.byOperatorTick[(cert.operator, cert.tick)]? =
      some kept ∧ kept.signingBytes = cert.signingBytes
  burned : oscillator.supplyTracker.burned =
    StakedTracker.slashedStake initial oscillator.stakeTable % 2 ^ 128

/-- An eligible operator is not slashed. Assumes: the operator is eligible. -/
theorem isSlashed_of_isStaked {table : StakeTable} {operator : AccountId}
    (hstaked : table.isStaked operator = true) : table.isSlashed operator = false := by
  obtain ⟨entry, hentry, -, hnonce, -⟩ := StakedTracker.exists_entry_of_isStaked hstaked
  unfold StakeTable.isSlashed StakeTable.entry
  rw [ExtTreeMap.getD_eq_getD_getElem?, hentry, Option.getD_some, hnonce]
  rfl

variable {registry : KeyRegistry} {initial : StakeTable} {certs : List SynthesisCertificate}
  {oscillator : Oscillator platform}

/-- The operators that are eligible are those that were and have not been slashed. Assumes: the
invariant holds. -/
theorem Exact.isStaked_iff (hexact : Exact registry initial certs oscillator)
    (operator : AccountId) :
    oscillator.stakeTable.isStaked operator = true ↔
      initial.isStaked operator = true ∧ oscillator.stakeTable.isSlashed operator = false := by
  have hsame (hkept : oscillator.stakeTable.isSlashed operator = false) :
      oscillator.stakeTable.isStaked operator = initial.isStaked operator := by
    unfold StakeTable.isStaked StakeTable.isStakedInner
    rw [hexact.entries operator hkept, hexact.config]
  constructor
  · intro hstaked
    have hkept := isSlashed_of_isStaked hstaked
    exact ⟨(hsame hkept).symm.trans hstaked, hkept⟩
  · rintro ⟨hinitial, hkept⟩
    exact (hsame hkept).trans hinitial

theorem exact_create (hunslashed : ∀ operator, initial.isSlashed operator = false)
    (registry : KeyRegistry) (nttSize : ℕ) (operatorKeypair : Option KeyPair) :
    Exact registry initial []
      (create nttSize operatorKeypair initial : Oscillator platform) where
  config := rfl
  entries _ _ := rfl
  slashed operator hslashed := by
    rw [show (create nttSize operatorKeypair initial : Oscillator platform).stakeTable = initial
      from rfl, hunslashed operator] at hslashed
    cases hslashed
  kept operator tick cert hkept := by simp [create, CertificateTracker.new] at hkept
  complete cert hcert := absurd hcert List.not_mem_nil
  burned := by
    have hnone : StakedTracker.slashedStake initial initial = sumBy (fun _ _ ↦ 0)
        initial.operators :=
      sumBy_congr fun operator entry _ ↦ by rw [hunslashed operator]; rfl
    show 0 = StakedTracker.slashedStake initial initial % 2 ^ 128
    rw [hnone]
    simp [sumBy]

/-- A burn adds to the burned supply modulo the width of the counter. Assumes: the counter is within
its width. -/
theorem burned_burn {supply : SupplyTracker} (hwidth : supply.burned < 2 ^ 128) (amount : ℕ) :
    (supply.burn amount).burned = (supply.burned + amount) % 2 ^ 128 := by
  unfold SupplyTracker.burn
  by_cases hzero : amount = 0
  · rw [if_pos hzero, hzero, Nat.add_zero, Nat.mod_eq_of_lt hwidth]
  · rw [if_neg hzero]
    rfl

/-- A slash keeps the invariant. Assumes: the invariant holds, and the certificate is a signed one
of an eligible operator that contradicts the one kept. -/
theorem Exact.slash (hexact : Exact registry initial certs oscillator)
    {cert kept : SynthesisCertificate}
    (hsigned : cert.isSigned platform.primitives registry = true)
    (hstaked : oscillator.stakeTable.isStaked cert.operator = true)
    (hkept : oscillator.certificateTracker.byOperatorTick[(cert.operator, cert.tick)]? = some kept)
    (hother : kept.signingBytes ≠ cert.signingBytes) :
    Exact registry initial (certs ++ [cert])
      { oscillator with
        stakeTable := (oscillator.stakeTable.slash cert.operator).1
        supplyTracker := oscillator.supplyTracker.burn
          (oscillator.stakeTable.getStake cert.operator) } := by
  obtain ⟨hinitial, hunslashed⟩ := (hexact.isStaked_iff cert.operator).mp hstaked
  obtain ⟨hmem, hkeptSigned, hkeptOperator, hkeptTick⟩ := hexact.kept _ _ _ hkept
  have hsubset : certs ⊆ certs ++ [cert] := List.subset_append_left _ _
  have hcert : cert ∈ certs ++ [cert] := List.mem_append_right _ (List.mem_singleton_self _)
  have hlast : ∀ operator,
      (oscillator.stakeTable.slash cert.operator).1.isSlashed operator = false →
      operator ≠ cert.operator ∧ oscillator.stakeTable.isSlashed operator = false := by
    intro operator hslashed
    rw [StakedTracker.isSlashed_slash] at hslashed
    split_ifs at hslashed with hself
    exact ⟨hself, hslashed⟩
  constructor
  · exact hexact.config
  · intro operator hslashed
    obtain ⟨hne, hbefore⟩ := hlast operator hslashed
    have hlookup : (oscillator.stakeTable.operators.insert cert.operator
        ⟨0, some oscillator.stakeTable.slashCounter⟩)[operator]? =
          oscillator.stakeTable.operators[operator]? :=
      getElem?_insert_of_ne _ (Ne.symm hne) _
    exact hlookup.trans (hexact.entries operator hbefore)
  · intro operator hslashed
    by_cases hself : operator = cert.operator
    · rw [hself]
      exact ⟨hinitial, kept, hsubset hmem, cert, hcert, hkeptOperator, rfl, hkeptTick,
        hkeptSigned, hsigned, hother⟩
    · rw [StakedTracker.isSlashed_slash, if_neg hself] at hslashed
      obtain ⟨hwas, hequivocates⟩ := hexact.slashed operator hslashed
      exact ⟨hwas, hequivocates.mono hsubset⟩
  · intro operator tick other hlookup
    obtain ⟨hin, hrest⟩ := hexact.kept operator tick other hlookup
    exact ⟨hsubset hin, hrest⟩
  · intro other hin hotherSigned hotherInitial hslashed
    obtain ⟨hne, hbefore⟩ := hlast other.operator hslashed
    rcases List.mem_append.mp hin with hearlier | hself
    · exact hexact.complete other hearlier hotherSigned hotherInitial hbefore
    · exact absurd (congrArg SynthesisCertificate.operator (List.mem_singleton.mp hself)) hne
  · obtain ⟨entry, hentry, -, -, hstake⟩ := StakedTracker.exists_entry_of_isStaked hstaked
    rw [hexact.entries cert.operator hunslashed] at hentry
    have hwidth : oscillator.supplyTracker.burned < 2 ^ 128 := by
      rw [hexact.burned]
      exact Nat.mod_lt _ (Nat.two_pow_pos 128)
    show (oscillator.supplyTracker.burn (oscillator.stakeTable.getStake cert.operator)).burned =
      StakedTracker.slashedStake initial (oscillator.stakeTable.slash cert.operator).1 % 2 ^ 128
    rw [burned_burn hwidth, hexact.burned, StakedTracker.slashedStake_slash hentry hunslashed,
      hstake, Nat.mod_add_mod]

/-- A record keeps the invariant. Assumes: the invariant holds, and the certificate is the first
signed one of an eligible operator for its tick. -/
theorem Exact.record (hexact : Exact registry initial certs oscillator)
    {cert : SynthesisCertificate}
    (hsigned : cert.isSigned platform.primitives registry = true) (stake : ℕ)
    (hfresh : oscillator.certificateTracker.byOperatorTick[(cert.operator, cert.tick)]? = none) :
    Exact registry initial (certs ++ [cert])
      { oscillator with
        certificateTracker := oscillator.certificateTracker.record cert stake } := by
  have hsubset : certs ⊆ certs ++ [cert] := List.subset_append_left _ _
  have hcert : cert ∈ certs ++ [cert] := List.mem_append_right _ (List.mem_singleton_self _)
  have hlookup : ∀ key : AccountId × ℕ,
      (oscillator.certificateTracker.record cert stake).byOperatorTick[key]? =
        if (cert.operator, cert.tick) = key then some cert
        else oscillator.certificateTracker.byOperatorTick[key]? := by
    intro key
    unfold CertificateTracker.record
    dsimp only
    rw [ExtTreeMap.getElem?_insert]
    simp only [LawfulEqCmp.compare_eq_iff_eq]
  constructor
  · exact hexact.config
  · exact hexact.entries
  · intro operator hslashed
    obtain ⟨hwas, hequivocates⟩ := hexact.slashed operator hslashed
    exact ⟨hwas, hequivocates.mono hsubset⟩
  · intro operator tick other hother
    rw [hlookup] at hother
    split_ifs at hother with hkey
    · obtain ⟨hoperator, htick⟩ := Prod.mk.inj hkey
      rw [← Option.some.inj hother]
      exact ⟨hcert, hsigned, hoperator, htick⟩
    · obtain ⟨hin, hrest⟩ := hexact.kept operator tick other hother
      exact ⟨hsubset hin, hrest⟩
  · intro other hin hotherSigned hotherInitial hslashed
    rw [hlookup]
    rcases List.mem_append.mp hin with hearlier | hself
    · obtain ⟨kept, hkept, hsame⟩ :=
        hexact.complete other hearlier hotherSigned hotherInitial hslashed
      refine ⟨kept, ?_, hsame⟩
      rw [if_neg, hkept]
      intro hkey
      rw [← hkey, hfresh] at hkept
      cases hkept
    · rw [List.mem_singleton.mp hself, if_pos rfl]
      exact ⟨cert, rfl, rfl⟩
  · exact hexact.burned

/-- One certificate keeps the invariant. Assumes: the invariant holds. -/
theorem Exact.ingestCertificate (hexact : Exact registry initial certs oscillator)
    (cert : SynthesisCertificate) :
    Exact registry initial (certs ++ [cert]) (oscillator.ingestCertificate cert registry).1 := by
  rcases oscillator.ingestCertificate_cases cert registry with ⟨hwhy, hsame⟩ |
    ⟨hsigned, hstaked, ⟨kept, hkept, hother, hslash⟩ | ⟨hfresh, hrecord⟩⟩
  · rw [hsame]
    have hsubset : certs ⊆ certs ++ [cert] := List.subset_append_left _ _
    refine ⟨hexact.config, hexact.entries, fun operator hslashed ↦ ?_,
      fun operator tick other hlookup ↦ ?_, fun other hin hotherSigned hinitial hslashed ↦ ?_,
      hexact.burned⟩
    · obtain ⟨hwas, hequivocates⟩ := hexact.slashed operator hslashed
      exact ⟨hwas, hequivocates.mono hsubset⟩
    · obtain ⟨hin, hrest⟩ := hexact.kept operator tick other hlookup
      exact ⟨hsubset hin, hrest⟩
    · rcases List.mem_append.mp hin with hearlier | hself
      · exact hexact.complete other hearlier hotherSigned hinitial hslashed
      · rw [List.mem_singleton.mp hself] at hotherSigned hinitial hslashed ⊢
        rcases hwhy with hunsigned | hunstaked | hrepeated
        · rw [hunsigned] at hotherSigned
          cases hotherSigned
        · rw [(hexact.isStaked_iff cert.operator).mpr ⟨hinitial, hslashed⟩] at hunstaked
          cases hunstaked
        · exact hrepeated
  · rw [hslash]
    exact hexact.slash hsigned hstaked hkept hother
  · rw [hrecord]
    exact hexact.record hsigned _ hfresh

/-- A new node after a list of certificates. -/
def afterCertificates (platform : Platform) (nttSize : ℕ) (operatorKeypair : Option KeyPair)
    (initial : StakeTable) (registry : KeyRegistry) (certs : List SynthesisCertificate) :
    Oscillator platform :=
  (create nttSize operatorKeypair initial).ingestCertificates registry certs

/-- The invariant holds after any list of certificates. Assumes: nobody is slashed at the start. -/
theorem exact_afterCertificates (platform : Platform) (nttSize : ℕ)
    (operatorKeypair : Option KeyPair)
    (hunslashed : ∀ operator, initial.isSlashed operator = false) (registry : KeyRegistry)
    (certs : List SynthesisCertificate) :
    Exact registry initial certs
      (afterCertificates platform nttSize operatorKeypair initial registry certs) := by
  induction certs using List.reverseRecOn with
  | nil => exact exact_create hunslashed registry nttSize operatorKeypair
  | append_singleton certs cert ih =>
    rw [afterCertificates, ingestCertificates, List.foldl_append]
    exact ih.ingestCertificate cert

/-! ### Slashing is exact -/

/-- An operator is slashed exactly when it was eligible and equivocates. Assumes: nobody was slashed
at the start. -/
theorem isSlashed_afterCertificates_iff (platform : Platform) (nttSize : ℕ)
    (operatorKeypair : Option KeyPair)
    (hunslashed : ∀ operator, initial.isSlashed operator = false) (registry : KeyRegistry)
    (certs : List SynthesisCertificate) (operator : AccountId) :
    (afterCertificates platform nttSize operatorKeypair initial registry
        certs).stakeTable.isSlashed operator = true ↔
      initial.isStaked operator = true ∧
        Equivocates platform.primitives registry certs operator := by
  have hexact := exact_afterCertificates platform nttSize operatorKeypair hunslashed registry certs
  refine ⟨hexact.slashed operator, ?_⟩
  rintro ⟨hstaked, first, hfirst, second, hsecond, rfl, hoperator, htick, hfirstSigned,
    hsecondSigned, hne⟩
  by_contra hkept
  rw [Bool.not_eq_true] at hkept
  obtain ⟨kept, hlookup, hsame⟩ := hexact.complete first hfirst hfirstSigned hstaked hkept
  obtain ⟨kept', hlookup', hsame'⟩ := hexact.complete second hsecond hsecondSigned
    (hoperator.symm ▸ hstaked) (hoperator.symm ▸ hkept)
  rw [hoperator, ← htick, hlookup, Option.some.injEq] at hlookup'
  rw [← hlookup', hsame] at hsame'
  exact hne hsame'

/-- The stakes of the slashed operators are burned, each of them once. Assumes: nobody was slashed
at the start. -/
theorem burned_afterCertificates (platform : Platform) (nttSize : ℕ)
    (operatorKeypair : Option KeyPair)
    (hunslashed : ∀ operator, initial.isSlashed operator = false) (registry : KeyRegistry)
    (certs : List SynthesisCertificate) :
    (afterCertificates platform nttSize operatorKeypair initial registry
        certs).supplyTracker.burned =
      sumBy (fun operator entry ↦
        if (afterCertificates platform nttSize operatorKeypair initial registry
          certs).stakeTable.isSlashed operator then entry.stake else 0)
        initial.operators % 2 ^ 128 := by
  have hexact := exact_afterCertificates platform nttSize operatorKeypair hunslashed registry certs
  rw [hexact.burned]
  refine congrArg (· % 2 ^ 128) (sumBy_congr fun operator entry hentry ↦ ?_)
  have hnone := hunslashed operator
  unfold StakeTable.isSlashed StakeTable.entry at hnone
  rw [ExtTreeMap.getD_eq_getD_getElem?, hentry, Option.getD_some, Option.isSome_eq_false_iff]
    at hnone
  rw [StakeTable.liveStake, if_pos hnone]

/-- After any list of certificates, the operators that are slashed are those that were eligible at
the start and equivocate in the list, and the burned supply is the sum of their initial stakes, as a
128-bit number. Neither depends on the order in which the certificates arrive. Assumes: nobody is
slashed at the start. -/
theorem slashed_iff_equivocates (platform : Platform) (nttSize : ℕ)
    (operatorKeypair : Option KeyPair)
    (hunslashed : ∀ operator, initial.isSlashed operator = false) (registry : KeyRegistry)
    (certs : List SynthesisCertificate) :
    (∀ operator, (afterCertificates platform nttSize operatorKeypair initial registry
          certs).stakeTable.isSlashed operator = true ↔
        initial.isStaked operator = true ∧
          Equivocates platform.primitives registry certs operator) ∧
    (afterCertificates platform nttSize operatorKeypair initial registry
        certs).supplyTracker.burned =
      sumBy (fun operator entry ↦
        if (afterCertificates platform nttSize operatorKeypair initial registry
          certs).stakeTable.isSlashed operator then entry.stake else 0)
        initial.operators % 2 ^ 128 ∧
    ∀ certs', certs'.Perm certs →
      (∀ operator, (afterCertificates platform nttSize operatorKeypair initial registry
          certs').stakeTable.isSlashed operator =
        (afterCertificates platform nttSize operatorKeypair initial registry
          certs).stakeTable.isSlashed operator) ∧
      (afterCertificates platform nttSize operatorKeypair initial registry
          certs').supplyTracker.burned =
        (afterCertificates platform nttSize operatorKeypair initial registry
          certs).supplyTracker.burned := by
  refine ⟨isSlashed_afterCertificates_iff platform nttSize operatorKeypair hunslashed registry
    certs, burned_afterCertificates platform nttSize operatorKeypair hunslashed registry certs,
    fun certs' hperm ↦ ?_⟩
  have hsame : ∀ operator, (afterCertificates platform nttSize operatorKeypair initial registry
        certs').stakeTable.isSlashed operator =
      (afterCertificates platform nttSize operatorKeypair initial registry
        certs).stakeTable.isSlashed operator := by
    intro operator
    rw [Bool.eq_iff_iff,
      isSlashed_afterCertificates_iff platform nttSize operatorKeypair hunslashed,
      isSlashed_afterCertificates_iff platform nttSize operatorKeypair hunslashed]
    exact and_congr_right fun _ ↦
      ⟨fun hequivocates ↦ hequivocates.mono hperm.subset,
        fun hequivocates ↦ hequivocates.mono hperm.symm.subset⟩
  refine ⟨hsame, ?_⟩
  rw [burned_afterCertificates platform nttSize operatorKeypair hunslashed,
    burned_afterCertificates platform nttSize operatorKeypair hunslashed]
  simp only [hsame]

/-- Three operators of whom the second equivocates, with certificates in an order in which the
contradiction comes last. -/
theorem slashed_iff_equivocates_equivocation :
    (∀ operator, (sampleStakes 12 2 4).isSlashed operator = false) ∧
    (afterCertificates Platform.sample 8 none (sampleStakes 12 2 4) sampleKeys
      equivocation).stakeTable.isSlashed (sampleAccount 2) = true ∧
    (sampleStakes 12 2 4).isStaked (sampleAccount 2) = true ∧
    Equivocates Primitives.sample sampleKeys equivocation (sampleAccount 2) := by
  have hunslashed : ∀ operator, (sampleStakes 12 2 4).isSlashed operator = false :=
    isSlashed_eq_false (by decide +kernel)
  have hslashed : (afterCertificates Platform.sample 8 none (sampleStakes 12 2 4) sampleKeys
      equivocation).stakeTable.isSlashed (sampleAccount 2) = true := by
    decide +kernel
  have hexact := slashed_iff_equivocates Platform.sample 8 none hunslashed sampleKeys equivocation
  exact ⟨hunslashed, hslashed, (hexact.1 (sampleAccount 2)).mp hslashed⟩

end Fluidic.Consensus.Oscillator
