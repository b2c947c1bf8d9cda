import Fluidic.Consensus.Oscillator

/-!
# What ingestion keeps

The requests that queue a shift, each as one equation. A commutative shift is queued when its domain
takes it and its signature is new. A stateful shift passes three gates: its domain takes it, its
nonce is above all recorded ones of its sender and domain, and its signature is new and its amount
not zero. The nonce is recorded at the second gate, so that a shift that the third one stops leaves
its nonce behind.
-/

set_option autoImplicit false
set_option relaxedAutoImplicit false

namespace Fluidic.Consensus

open Library Crypto Fluidic.Field
open Std (ExtTreeMap LawfulEqCmp)

/-! ### Gates -/

/-- Whether the domain of a stateful shift takes it. -/
def DomainRegistry.permits (registry : DomainRegistry) (shift : StatefulShift) : Bool :=
  match registry.get? shift.domain with
  | none => false
  | some policy =>
    policy.stateful && !decide (policy.ordering = .commutative ∧ shift.predecessors ≠ [])

/-- Whether the domain of a commutative shift takes it. -/
def DomainRegistry.isCommutative (registry : DomainRegistry) (domain : DomainId) : Bool :=
  match registry.get? domain with
  | none => false
  | some policy => policy.commutative

namespace Oscillator

variable {platform : Platform}

/-- A shift with the time at which the node first saw it. -/
def stamped (shift : StatefulShift) (nowNs : ℕ) : StatefulShift :=
  if shift.firstSeenAtNs = 0 then { shift with firstSeenAtNs := nowNs } else shift

@[simp] theorem stamped_signature (shift : StatefulShift) (nowNs : ℕ) :
    (stamped shift nowNs).signature = shift.signature := by
  unfold stamped
  split_ifs <;> rfl

@[simp] theorem stamped_sender (shift : StatefulShift) (nowNs : ℕ) :
    (stamped shift nowNs).sender = shift.sender := by
  unfold stamped
  split_ifs <;> rfl

@[simp] theorem stamped_domain (shift : StatefulShift) (nowNs : ℕ) :
    (stamped shift nowNs).domain = shift.domain := by
  unfold stamped
  split_ifs <;> rfl

@[simp] theorem stamped_nonce (shift : StatefulShift) (nowNs : ℕ) :
    (stamped shift nowNs).nonce = shift.nonce := by
  unfold stamped
  split_ifs <;> rfl

@[simp] theorem stamped_amount (shift : StatefulShift) (nowNs : ℕ) :
    (stamped shift nowNs).amount = shift.amount := by
  unfold stamped
  split_ifs <;> rfl

/-- The stamp of a shift is not part of what is hashed. -/
theorem hash_stamped (prim : Primitives) (shift : StatefulShift) (nowNs : ℕ) :
    (stamped shift nowNs).hash prim = shift.hash prim := by
  unfold stamped
  split_ifs <;> rfl

/-- Whether a nonce is above the highest one recorded for the account and domain. -/
def isFresh (oscillator : Oscillator platform) (account : AccountId) (domain : DomainId)
    (nonce : ℕ) : Bool :=
  match oscillator.seenNonces[(account, domain)]? with
  | some highest => decide (highest < nonce)
  | none => true

/-- Whether a node records the nonce of a stateful shift. -/
def records (oscillator : Oscillator platform) (shift : StatefulShift) : Bool :=
  oscillator.domainRegistry.permits shift &&
    oscillator.isFresh shift.sender shift.domain shift.nonce

/-- Whether a node queues a stateful shift. -/
def queues (oscillator : Oscillator platform) (shift : StatefulShift) : Bool :=
  oscillator.records shift && decide (shift.signature ∉ oscillator.seenSignatures) &&
    decide (shift.amount ≠ 0)

/-- Whether a node queues a commutative shift. -/
def queuesCommutative (oscillator : Oscillator platform) (shift : CommutativeShift) : Bool :=
  oscillator.domainRegistry.isCommutative shift.domain &&
    decide (shift.signature ∉ oscillator.seenSignatures)

/-! ### Equations -/

/-- A fresh nonce is recorded. Assumes: the nonce is fresh. -/
theorem checkAndRecordNonce_of_isFresh {oscillator : Oscillator platform} {account : AccountId}
    {domain : DomainId} {nonce : ℕ} (hfresh : oscillator.isFresh account domain nonce = true) :
    oscillator.checkAndRecordNonce account domain nonce = .ok { oscillator with
      seenNonces := oscillator.seenNonces.insert (account, domain) nonce } := by
  unfold isFresh at hfresh
  unfold checkAndRecordNonce
  cases hlookup : oscillator.seenNonces[(account, domain)]? with
  | none => rfl
  | some highest =>
    rw [hlookup] at hfresh
    dsimp only
    rw [if_neg (Nat.not_le.mpr (of_decide_eq_true hfresh))]

/-- A nonce that is not fresh is refused. Assumes: the nonce is not fresh. -/
theorem checkAndRecordNonce_of_not_isFresh {oscillator : Oscillator platform} {account : AccountId}
    {domain : DomainId} {nonce : ℕ} (hstale : oscillator.isFresh account domain nonce = false) :
    ∃ text, oscillator.checkAndRecordNonce account domain nonce = .error text := by
  unfold isFresh at hstale
  unfold checkAndRecordNonce
  cases hlookup : oscillator.seenNonces[(account, domain)]? with
  | none => simp [hlookup] at hstale
  | some highest =>
    rw [hlookup] at hstale
    dsimp only
    rw [if_pos (Nat.not_lt.mp (of_decide_eq_false hstale))]
    exact ⟨_, rfl⟩

/-- What ingesting a stateful shift does to the node. -/
theorem ingestStateful_eq (oscillator : Oscillator platform) (shift : StatefulShift)
    (nowNs : ℕ) :
    (oscillator.ingestStateful shift nowNs).1 = { oscillator with
      seenNonces := if oscillator.records shift then
        oscillator.seenNonces.insert (shift.sender, shift.domain) shift.nonce
        else oscillator.seenNonces
      seenSignatures := if oscillator.queues shift then
        insert shift.signature oscillator.seenSignatures else oscillator.seenSignatures
      pendingStateful := if oscillator.queues shift then
        oscillator.pendingStateful ++ [stamped shift nowNs] else oscillator.pendingStateful } := by
  unfold ingestStateful queues records DomainRegistry.permits
  cases hpolicy : oscillator.domainRegistry.get? shift.domain with
  | none => simp
  | some policy =>
    dsimp only
    by_cases hstateful : policy.stateful = true
    · by_cases hedges : policy.ordering = .commutative ∧ shift.predecessors ≠ []
      · simp [hstateful, hedges]
      · by_cases hfresh : oscillator.isFresh shift.sender shift.domain shift.nonce = true
        · rw [checkAndRecordNonce_of_isFresh hfresh]
          by_cases hseen : shift.signature ∈ oscillator.seenSignatures
          · simp [hstateful, hedges, hfresh, hseen]
          · by_cases hzero : shift.amount = 0
            · simp [hstateful, hedges, hfresh, hseen, hzero]
            · have hsigned := stamped_signature shift nowNs
              unfold stamped at hsigned
              simp [hstateful, hedges, hfresh, hseen, hzero, stamped, hsigned]
        · obtain ⟨text, herror⟩ :=
            checkAndRecordNonce_of_not_isFresh (Bool.not_eq_true _ ▸ hfresh)
          simp [hstateful, hedges, hfresh, herror]
    · simp [hstateful]

/-- A stateful shift is refused with an error unless its nonce is recorded and it was seen before or
has an amount. -/
theorem isOk_ingestStateful (oscillator : Oscillator platform) (shift : StatefulShift)
    (nowNs : ℕ) :
    (oscillator.ingestStateful shift nowNs).2.isOk =
      (oscillator.records shift &&
        (decide (shift.signature ∈ oscillator.seenSignatures) || decide (shift.amount ≠ 0))) := by
  unfold ingestStateful records DomainRegistry.permits
  cases hpolicy : oscillator.domainRegistry.get? shift.domain with
  | none => simp [Except.isOk, Except.toBool]
  | some policy =>
    dsimp only
    by_cases hstateful : policy.stateful = true
    · by_cases hedges : policy.ordering = .commutative ∧ shift.predecessors ≠ []
      · simp [hstateful, hedges, Except.isOk, Except.toBool]
      · by_cases hfresh : oscillator.isFresh shift.sender shift.domain shift.nonce = true
        · rw [checkAndRecordNonce_of_isFresh hfresh]
          by_cases hseen : shift.signature ∈ oscillator.seenSignatures
          · simp [hstateful, hedges, hfresh, hseen, Except.isOk, Except.toBool]
          · by_cases hzero : shift.amount = 0
            · simp [hstateful, hedges, hfresh, hseen, hzero, Except.isOk, Except.toBool]
            · simp [hstateful, hedges, hfresh, hseen, hzero, Except.isOk, Except.toBool]
        · obtain ⟨text, herror⟩ :=
            checkAndRecordNonce_of_not_isFresh (Bool.not_eq_true _ ▸ hfresh)
          simp [hstateful, hedges, hfresh, herror, Except.isOk, Except.toBool]
    · simp [hstateful, Except.isOk, Except.toBool]

/-- A nonce above a fresh one is fresh. Assumes: the other is fresh, and not greater. -/
theorem isFresh_mono {oscillator : Oscillator platform} {account : AccountId} {domain : DomainId}
    {nonce nonce' : ℕ} (hfresh : oscillator.isFresh account domain nonce = true)
    (hle : nonce ≤ nonce') : oscillator.isFresh account domain nonce' = true := by
  unfold isFresh at hfresh ⊢
  cases hmark : oscillator.seenNonces[(account, domain)]? with
  | none => rfl
  | some highest =>
    rw [hmark] at hfresh
    exact decide_eq_true (lt_of_lt_of_le (of_decide_eq_true hfresh) hle)

/-- Freshness after a stateful shift: a recorded nonce is the new mark of its sender and domain. -/
theorem isFresh_ingestStateful (oscillator : Oscillator platform) (shift : StatefulShift)
    (nowNs : ℕ) (account : AccountId) (domain : DomainId) (nonce : ℕ) :
    (oscillator.ingestStateful shift nowNs).1.isFresh account domain nonce =
      if oscillator.records shift = true ∧ shift.sender = account ∧ shift.domain = domain then
        decide (shift.nonce < nonce)
      else oscillator.isFresh account domain nonce := by
  unfold isFresh
  rw [ingestStateful_eq]
  cases hrecords : oscillator.records shift with
  | false => simp
  | true =>
    dsimp only
    rw [if_pos rfl, ExtTreeMap.getElem?_insert]
    by_cases hkey : (shift.sender, shift.domain) = (account, domain)
    · rw [if_pos (LawfulEqCmp.compare_eq_iff_eq.mpr hkey),
        if_pos ⟨rfl, (Prod.mk.inj hkey).1, (Prod.mk.inj hkey).2⟩]
    · rw [if_neg fun heq ↦ hkey (LawfulEqCmp.compare_eq_iff_eq.mp heq),
        if_neg fun hboth ↦ hkey (Prod.ext hboth.2.1 hboth.2.2)]

/-- A recorded nonce was fresh. Assumes: the shift has its nonce recorded. -/
theorem isFresh_of_records {oscillator : Oscillator platform} {shift : StatefulShift}
    (hrecords : oscillator.records shift = true) :
    oscillator.isFresh shift.sender shift.domain shift.nonce = true := by
  unfold records at hrecords
  exact (Bool.and_eq_true _ _ ▸ hrecords).2

/-- What ingesting a commutative shift does to the node. -/
theorem ingestCommutative_eq (oscillator : Oscillator platform) (shift : CommutativeShift) :
    (oscillator.ingestCommutative shift).1 = { oscillator with
      seenSignatures := if oscillator.queuesCommutative shift then
        insert shift.signature oscillator.seenSignatures else oscillator.seenSignatures
      pendingCommutative := if oscillator.queuesCommutative shift then
        oscillator.pendingCommutative ++
          [(shift.domain, shift.coordinate, shift.delta, shift.poolId)]
        else oscillator.pendingCommutative } := by
  unfold ingestCommutative queuesCommutative DomainRegistry.isCommutative
  cases oscillator.domainRegistry.get? shift.domain with
  | none => simp
  | some policy =>
    dsimp only
    by_cases hcommutative : policy.commutative = true
    · by_cases hseen : shift.signature ∈ oscillator.seenSignatures
      · simp [hcommutative, hseen]
      · simp [hcommutative, hseen]
    · simp [hcommutative]

/-- Ingesting a signal changes the queues and the replay records and nothing else. -/
theorem ingest_frame (oscillator : Oscillator platform) (signal : Signal) (nowNs : ℕ) :
    ∃ pendingCommutative pendingStateful seenSignatures seenNonces,
      (oscillator.ingest signal nowNs).1 = { oscillator with
        pendingCommutative, pendingStateful, seenSignatures, seenNonces } := by
  cases signal with
  | commutative shift => exact ⟨_, _, _, _, oscillator.ingestCommutative_eq shift⟩
  | stateful shift => exact ⟨_, _, _, _, oscillator.ingestStateful_eq shift nowNs⟩
  | registration shift => exact ⟨_, _, _, _, rfl⟩
  | stake shift => exact ⟨_, _, _, _, rfl⟩
  | ping => exact ⟨_, _, _, _, rfl⟩
  | pong => exact ⟨_, _, _, _, rfl⟩
  | certificate cert => exact ⟨_, _, _, _, rfl⟩
  | auth => exact ⟨_, _, _, _, rfl⟩

end Oscillator

end Fluidic.Consensus
