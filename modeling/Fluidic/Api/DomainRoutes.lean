import Fluidic.Api.Routes

/-!
# Registering a domain over the HTTP API

`register_domain` of `src/api/routes.rs`: a registrant asks for a domain with a policy and signs the
canonical bytes of that policy. These bytes leave out how the domain charges for execution, so that
a signature made for a policy is accepted for every policy that differs from it in the fees only
(`registration_binds_iff`).
-/

set_option autoImplicit false
set_option relaxedAutoImplicit false

namespace Fluidic.Api

open Library Crypto Consensus
open Std (ExtTreeMap)

/-! ### The request -/

/-- A `u64` in decimal, with an optional plus sign. -/
def parseU64 (text : String) : Except StatusCode ℕ := do
  let value ← parseU128 text
  if value < 2 ^ 64 then .ok value else .error .badRequest

/-- A domain registration as clients submit it. -/
structure RegisterDomainRequest where
  domain : String
  commutative : Bool
  stateful : Bool
  ordering : String
  finalizationDepth : ℕ
  metabolicLambdaPpm : ℕ
  feePolicy : String
  feeAmount : Option String
  registrant : String
  signature : String
  deriving DecidableEq

/-- Parse the ordering of a domain. -/
def parseOrdering : String → Except (StatusCode × String) OrderingMode
  | "causal" => .ok .causal
  | "commutative" => .ok .commutative
  | "strict" => .ok .strict
  | other => .error (.badRequest, s!"unknown ordering mode: {other}")

/-- Parse how a domain charges for execution. -/
def parseFeePolicy (feePolicy : String) (feeAmount : Option String) :
    Except (StatusCode × String) FeePolicy :=
  match feePolicy with
  | "metabolic_only" => .ok .metabolicOnly
  | "flat" => do
    let text ← feeAmount.elim (.error (.badRequest, "flat fee requires fee_amount")) .ok
    let amount ← withText "invalid fee_amount" (parseU128 text)
    return .flat amount
  | "percentage" => do
    let text ← feeAmount.elim
      (.error (.badRequest, "percentage fee requires fee_amount basis points")) .ok
    let basisPoints ← withText "invalid fee_amount" (parseU64 text)
    return .percentage basisPoints
  | other => .error (.badRequest, s!"unknown fee_policy: {other}")

/-- Parse a domain registration: the policy, the registrant and the signature. -/
def parseRegistration (request : RegisterDomainRequest) :
    Except (StatusCode × String) (DomainPolicy × AccountId × List UInt8) := do
  let domain ← withText "invalid domain: 400" (parseHash request.domain)
  let registrant ← withText "invalid registrant: 400 Bad Request" (parseAccount request.registrant)
  let signature ← (hexDecode request.signature).elim
    (.error (.badRequest, "invalid signature hex")) .ok
  let ordering ← parseOrdering request.ordering
  let feePolicy ← parseFeePolicy request.feePolicy request.feeAmount
  let policy ← (DomainPolicy.new
    { domain
      commutative := request.commutative
      stateful := request.stateful
      ordering
      finalizationDepth := request.finalizationDepth
      metabolicLambdaPpm := request.metabolicLambdaPpm
      feePolicy }).mapError fun text ↦ (StatusCode.badRequest, text)
  return (policy, registrant, signature)

/-! ### The signature -/

/-- The byte of an ordering. -/
def orderingByte : OrderingMode → UInt8
  | .causal => 0
  | .commutative => 1
  | .strict => 2

/-- The byte of a truth value. -/
def flagByte (flag : Bool) : UInt8 := if flag then 1 else 0

/-- The bytes that the signature of a domain registration covers. -/
def domainRegistrationSigningBytes (policy : DomainPolicy) (fee : ℕ) : List UInt8 :=
  asciiBytes "FLUIDIC:REGISTER_DOMAIN:v1" ++ policy.domain.toBytes ++
    [flagByte policy.commutative] ++ [flagByte policy.stateful] ++ [orderingByte policy.ordering] ++
    leBytes 8 policy.finalizationDepth ++ leBytes 8 policy.metabolicLambdaPpm ++ leBytes 16 fee

namespace ApiState

variable {platform : Platform}

/-- Check that the registrant signed a policy. -/
def checkRegistration (state : ApiState platform) (policy : DomainPolicy) (registrant : AccountId)
    (signature : List UInt8) : Except (StatusCode × String) Unit :=
  match state.registry[registrant]? with
  | none => .error (.unauthorized, "unknown registrant")
  | some key =>
    if signature.length ≠ 64 then .error (.badRequest, "invalid signature bytes")
    else if !platform.primitives.verify key
        (domainRegistrationSigningBytes policy domainReservationFeeUnits) signature then
      .error (.unauthorized, "invalid signature")
    else .ok ()

/-- Register a domain. The answer is the domain, as it was requested, and the fee in WAVE. -/
def registerDomain (state : ApiState platform) (request : RegisterDomainRequest) :
    ApiState platform × Except (StatusCode × String) (String × String) :=
  match parseRegistration request with
  | .error error => (state, .error error)
  | .ok (policy, registrant, signature) =>
    match state.checkRegistration policy registrant signature with
    | .error error => (state, .error error)
    | .ok _ =>
      let (oscillator, result) := state.oscillator.registerDomain policy registrant
      ({ state with oscillator },
        (result.mapError fun text ↦ (StatusCode.badRequest, text)).map fun _ ↦
          (request.domain, "100"))

end ApiState

/-! ### What the signature binds -/

theorem orderingByte_inj {first second : OrderingMode}
    (hbyte : orderingByte first = orderingByte second) : first = second := by
  cases first <;> cases second <;> first | rfl | exact absurd hbyte (by decide)

theorem flagByte_inj {first second : Bool} (hbyte : flagByte first = flagByte second) :
    first = second := by
  cases first <;> cases second <;> first | rfl | exact absurd hbyte (by decide)

/-- The decay constant of an accepted policy is below one. Assumes: the policy is accepted. -/
theorem lambda_lt_of_new {policy accepted : DomainPolicy}
    (hnew : DomainPolicy.new policy = .ok accepted) :
    policy.metabolicLambdaPpm < Value.decayDenominator := by
  unfold DomainPolicy.new at hnew
  split_ifs at hnew with hlambda
  exact Nat.lt_of_not_le hlambda

/-- The signed bytes determine a policy up to the fees. Assumes: the bytes are the same, and the
numbers fit their fields. -/
theorem eq_of_signingBytes {first second : DomainPolicy} {fee : ℕ}
    (hdepth : first.finalizationDepth < 2 ^ 64) (hdepth' : second.finalizationDepth < 2 ^ 64)
    (hlambda : first.metabolicLambdaPpm < 2 ^ 64) (hlambda' : second.metabolicLambdaPpm < 2 ^ 64)
    (hbytes : domainRegistrationSigningBytes first fee =
      domainRegistrationSigningBytes second fee) :
    first = { second with feePolicy := first.feePolicy } := by
  unfold domainRegistrationSigningBytes at hbytes
  obtain ⟨hbytes, -⟩ := List.append_inj' hbytes (by simp)
  obtain ⟨hbytes, hlambdas⟩ := List.append_inj' hbytes (by simp)
  obtain ⟨hbytes, hdepths⟩ := List.append_inj' hbytes (by simp)
  obtain ⟨hbytes, hordering⟩ := List.append_inj' hbytes rfl
  obtain ⟨hbytes, hstateful⟩ := List.append_inj' hbytes rfl
  obtain ⟨hbytes, hcommutative⟩ := List.append_inj' hbytes rfl
  obtain ⟨-, hdomain⟩ := List.append_inj' hbytes (by simp)
  obtain ⟨domain, commutative, stateful, ordering, depth, lambda, feePolicy⟩ := first
  obtain ⟨domain', commutative', stateful', ordering', depth', lambda', feePolicy'⟩ := second
  have hdomains := Bytes32.toBytes_inj hdomain
  have hcommutatives := flagByte_inj (List.cons.inj hcommutative).1
  have hstatefuls := flagByte_inj (List.cons.inj hstateful).1
  have horderings := orderingByte_inj (List.cons.inj hordering).1
  have hdepths' := u64_eq_of_leBytes hdepth hdepth' hdepths
  have hlambdas' := u64_eq_of_leBytes hlambda hlambda' hlambdas
  dsimp only at hdomains hcommutatives hstatefuls horderings hdepths' hlambdas'
  rw [hdomains, hcommutatives, hstatefuls, horderings, hdepths', hlambdas']

/-- An accepted signature verifies under the key of the registrant. Assumes: the signature of the
registration is accepted. -/
theorem verify_of_checkRegistration {platform : Platform} {state : ApiState platform}
    {policy : DomainPolicy} {registrant : AccountId} {signature : List UInt8}
    (haccepted : state.checkRegistration policy registrant signature = .ok ()) :
    ∃ key, state.registry[registrant]? = some key ∧ platform.primitives.verify key
      (domainRegistrationSigningBytes policy domainReservationFeeUnits) signature = true := by
  unfold ApiState.checkRegistration at haccepted
  cases hkey : state.registry[registrant]? with
  | none =>
    rw [hkey] at haccepted
    cases haccepted
  | some key =>
    rw [hkey] at haccepted
    dsimp only at haccepted
    split_ifs at haccepted with hlength hverify
    exact ⟨key, rfl, by simpa using hverify⟩

/-- The signed bytes of two accepted policies determine the policies exactly when these have the
same fees or differ in another field. When they differ in the fees only, the check of the route says
the same of both; otherwise a signature that it accepts for two policies is one that the verifying
key accepts for two messages. Assumes: both policies are accepted, and their depths fit a `u64`. -/
theorem registration_binds_iff {first second : DomainPolicy}
    (hfirst : DomainPolicy.new first = .ok first) (hsecond : DomainPolicy.new second = .ok second)
    (hdepth : first.finalizationDepth < 2 ^ 64) (hdepth' : second.finalizationDepth < 2 ^ 64) :
    (∀ fee, (domainRegistrationSigningBytes first fee = domainRegistrationSigningBytes second fee →
        first = second) ↔
      (first.feePolicy = second.feePolicy ∨ first ≠ { second with feePolicy := first.feePolicy })) ∧
    ∀ (platform : Platform) (state : ApiState platform) (registrant : AccountId)
      (signature : List UInt8),
      (first = { second with feePolicy := first.feePolicy } →
        state.checkRegistration first registrant signature =
          state.checkRegistration second registrant signature) ∧
      (first ≠ { second with feePolicy := first.feePolicy } →
        state.checkRegistration first registrant signature = .ok () →
        state.checkRegistration second registrant signature = .ok () →
        ∃ key message message', message ≠ message' ∧
          platform.primitives.verify key message signature = true ∧
          platform.primitives.verify key message' signature = true) := by
  have hlambda (policy : DomainPolicy) (hnew : DomainPolicy.new policy = .ok policy) :
      policy.metabolicLambdaPpm < 2 ^ 64 :=
    lt_trans (lambda_lt_of_new hnew) (by decide)
  have hdetermined (fee : ℕ) (hbytes : domainRegistrationSigningBytes first fee =
      domainRegistrationSigningBytes second fee) :
      first = { second with feePolicy := first.feePolicy } :=
    eq_of_signingBytes hdepth hdepth' (hlambda first hfirst) (hlambda second hsecond) hbytes
  have hsame (fee : ℕ) (hfees : first = { second with feePolicy := first.feePolicy }) :
      domainRegistrationSigningBytes first fee = domainRegistrationSigningBytes second fee := by
    rw [hfees]
    rfl
  refine ⟨fun fee ↦ ⟨fun hbinds ↦ ?_, fun hcondition hbytes ↦ ?_⟩,
    fun platform state registrant signature ↦
      ⟨fun hfees ↦ ?_, fun hfields haccepted haccepted' ↦ ?_⟩⟩
  · by_cases hfees : first = { second with feePolicy := first.feePolicy }
    · exact .inl (congrArg DomainPolicy.feePolicy (hbinds (hsame fee hfees)))
    · exact .inr hfees
  · rcases hcondition with hfees | hfields
    · have heq := hdetermined fee hbytes
      rwa [hfees] at heq
    · exact absurd (hdetermined fee hbytes) hfields
  · unfold ApiState.checkRegistration
    rw [hsame domainReservationFeeUnits hfees]
  · obtain ⟨key, hkey, hverify⟩ := verify_of_checkRegistration haccepted
    obtain ⟨key', hkey', hverify'⟩ := verify_of_checkRegistration haccepted'
    rw [hkey] at hkey'
    obtain rfl := Option.some.inj hkey'
    exact ⟨key, _, _, fun hbytes ↦ hfields (hdetermined domainReservationFeeUnits hbytes), hverify,
      hverify'⟩

/-! ### A signature that is used for another policy -/

/-- A domain without fees. -/
def freePolicy : DomainPolicy :=
  { domain := 7
    commutative := true
    stateful := true
    ordering := .causal
    finalizationDepth := 3
    metabolicLambdaPpm := 20
    feePolicy := .metabolicOnly }

/-- The same domain, in which every transfer goes to the fees. -/
def dearPolicy : DomainPolicy := { freePolicy with feePolicy := .percentage 10000 }

/-- The policies differ in another field: the signed bytes tell them apart. -/
theorem registration_binds_iff_otherDepth :
    (∀ fee, (domainRegistrationSigningBytes freePolicy fee =
        domainRegistrationSigningBytes { dearPolicy with finalizationDepth := 4 } fee →
        freePolicy = { dearPolicy with finalizationDepth := 4 }) ↔
      (freePolicy.feePolicy = dearPolicy.feePolicy ∨
        freePolicy ≠ { dearPolicy with
          finalizationDepth := 4, feePolicy := freePolicy.feePolicy })) ∧
    freePolicy ≠ { dearPolicy with finalizationDepth := 4, feePolicy := freePolicy.feePolicy } :=
  ⟨(registration_binds_iff (by decide) (by decide) (by decide) (by decide)).1, by decide⟩

/-- A node with one registered account. -/
def registrarNode : ApiState Platform.sample :=
  ((ApiState.new (Oscillator.newWithKeypair 8)).registerAccount
    (hexEncode (Bytes32.toBytes 1))).1

/-- The request for the dear domain, with the signature that the registrant made for the free one.
-/
def dearRequest : RegisterDomainRequest :=
  { domain := hexEncode freePolicy.domain.toBytes
    commutative := true
    stateful := true
    ordering := "causal"
    finalizationDepth := 3
    metabolicLambdaPpm := 20
    feePolicy := "percentage"
    feeAmount := some "10000"
    registrant := hexEncode (tokenAccounts .sample (sampleAccount 1)).1.bytes.toBytes
    signature := hexEncode (KeyPair.sign .sample ⟨1⟩
      (domainRegistrationSigningBytes freePolicy domainReservationFeeUnits)) }

/-- The signature for one policy registers another one. -/
theorem dearRequest_registered :
    DomainPolicy.new freePolicy = .ok freePolicy ∧ DomainPolicy.new dearPolicy = .ok dearPolicy ∧
    freePolicy ≠ dearPolicy ∧
    domainRegistrationSigningBytes freePolicy domainReservationFeeUnits =
      domainRegistrationSigningBytes dearPolicy domainReservationFeeUnits ∧
    registrarNode.oscillator.domainRegistry.get? 7 = none ∧
    (registrarNode.registerDomain dearRequest).2 =
      .ok (hexEncode freePolicy.domain.toBytes, "100") ∧
    (registrarNode.registerDomain dearRequest).1.oscillator.domainRegistry.get? 7 =
      some dearPolicy := by
  refine ⟨by decide, by decide, by decide, by decide, ?_, ?_, ?_⟩
  · decide +kernel
  · decide +kernel
  · decide +kernel

end Fluidic.Api
