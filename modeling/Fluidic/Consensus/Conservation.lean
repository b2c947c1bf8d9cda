import Fluidic.Consensus.RunInvariant

/-!
# Conservation of value in a synthesis

The loop over the stateful shifts moves value between the balances of the DAG and takes fees out of
them. It subtracts, adds and unwraps without a check, so that what it computes is what it means only
because three things hold at every turn: the sender of a shift that is transferred has an entry,
since amounts are positive; the entry covers the amount, since the attempt checked it; and no sum
leaves the 128-bit range, since the total does not.

The total is bounded by the accounts of the wave-field, from which every synthesis copies the
balances after their decay. This needs that the DAG has no balance of an account that the
wave-field lacks, which every run keeps (`mirrored_of_reaches`).
-/

set_option autoImplicit false
set_option relaxedAutoImplicit false

namespace Fluidic.Consensus

open Library Crypto Fluidic.Field Value Operator Evm
open Std (ExtTreeMap ExtTreeSet LawfulEqCmp)

/-- A policy never charges more than the amount: a percentage is at most the whole. -/
def FeePolicy.isBounded : FeePolicy → Bool
  | .flat _ => true
  | .percentage basisPoints => decide (basisPoints ≤ 10000)
  | .metabolicOnly => true

namespace Oscillator

variable {platform : Platform}

/-! ### The accounts of the DAG are accounts of the wave-field -/

/-- Every account with a balance in the DAG is one of the wave-field. -/
def Mirrored (oscillator : Oscillator platform) : Prop :=
  ∀ account, account ∈ oscillator.dag.balances → account ∈ oscillator.waveField.accounts

/-- A request that keeps the accounts of the wave-field and adds no balance of an account it lacks
keeps them mirrored. Assumes: the balances are mirrored before, and the request keeps the accounts
and adds no such balance. -/
theorem Mirrored.of_keepsAccounts {oscillator next : Oscillator platform}
    (hmirrored : Mirrored oscillator)
    (hkeeps : WaveField.KeepsAccounts oscillator.waveField next.waveField)
    (hbalances : ∀ account, account ∈ next.dag.balances →
      account ∈ oscillator.dag.balances ∨ account ∈ next.waveField.accounts) : Mirrored next := by
  intro account hmem
  rcases hbalances account hmem with hold | hnew
  · exact hkeeps account (hmirrored account hold)
  · exact hnew

/-- The accounts after one balance was written. -/
theorem mem_insert_cases {balances : ExtTreeMap AccountId ℕ} {account other : AccountId}
    {units : ℕ} (hmem : other ∈ balances.insert account units) :
    other = account ∨ other ∈ balances := by
  rcases ExtTreeMap.mem_insert.mp hmem with hself | hold
  · exact .inl (LawfulEqCmp.compare_eq_iff_eq.mp hself).symm
  · exact .inr hold

/-- A request that writes one account and at most its balance in the DAG keeps them mirrored.
Assumes: the accounts are mirrored before it. -/
theorem Mirrored.of_insert {oscillator next : Oscillator platform} (hmirrored : Mirrored oscillator)
    {account : AccountId} {balance : Balance}
    (haccounts : next.waveField.accounts = oscillator.waveField.accounts.insert account balance)
    (hbalances : ∀ other, other ∈ next.dag.balances →
      other = account ∨ other ∈ oscillator.dag.balances) : Mirrored next := by
  intro other hmem
  rw [haccounts]
  rcases hbalances other hmem with rfl | hold
  · exact ExtTreeMap.mem_insert_self
  · exact ExtTreeMap.mem_insert.mpr (.inr (hmirrored other hold))

theorem Mirrored.seedAccount {oscillator : Oscillator platform} (hmirrored : Mirrored oscillator)
    (account : AccountId) (amount : ℕ) : Mirrored (oscillator.seedAccount account amount) := by
  rw [seedAccount_eq]
  split_ifs
  · rw [WaveField.creditAccount_eq]
    exact hmirrored.of_insert rfl fun _ hmem ↦ mem_insert_cases hmem
  · exact hmirrored

theorem Mirrored.registerDomain {oscillator : Oscillator platform}
    (hmirrored : Mirrored oscillator) (policy : DomainPolicy) (registrant : AccountId) :
    Mirrored (oscillator.registerDomain policy registrant).1 := by
  have houtcome := oscillator.registerDomain_outcome policy registrant
  generalize oscillator.registerDomain policy registrant = result at houtcome ⊢
  cases houtcome with
  | refused => exact hmirrored
  | registered => exact hmirrored.of_insert rfl fun _ hmem ↦ .inr hmem

theorem Mirrored.ingest {oscillator : Oscillator platform} (hmirrored : Mirrored oscillator)
    (signal : Signal) (nowNs : ℕ) : Mirrored (oscillator.ingest signal nowNs).1 := by
  obtain ⟨_, _, _, _, hingest⟩ := oscillator.ingest_frame signal nowNs
  rw [hingest]
  exact hmirrored

theorem Mirrored.applyStake {oscillator : Oscillator platform} (hmirrored : Mirrored oscillator)
    (stake : StakeShift) : Mirrored (oscillator.applyStake stake).1 := by
  have houtcome := oscillator.applyStake_outcome stake
  generalize oscillator.applyStake stake = result at houtcome ⊢
  cases houtcome with
  | refused => exact hmirrored
  | repeated => exact hmirrored
  | short => exact hmirrored
  | raised => exact hmirrored.of_insert rfl fun _ hmem ↦ mem_insert_cases hmem
  | lowered => exact hmirrored.of_insert rfl fun _ hmem ↦ mem_insert_cases hmem

theorem keepsAccounts_creditIfEmpty (field : WaveField) (account : AccountId) :
    WaveField.KeepsAccounts field (creditIfEmpty field account) := by
  unfold creditIfEmpty
  split_ifs
  · exact field.keepsAccounts_creditAccount account _
  · exact fun _ hmem ↦ hmem

theorem Mirrored.applyRegistration {oscillator : Oscillator platform}
    (hmirrored : Mirrored oscillator) (reg : RegistrationShift) :
    Mirrored (oscillator.applyRegistration reg) := by
  rw [applyRegistration_eq]
  split_ifs
  · have haccount := oscillator.waveField.keepsAccounts_ensureAccount reg.account
    have hwave := (oscillator.waveField.ensureAccount reg.account).keepsAccounts_ensureAccount
      reg.waveAccount
    have husdc := ((oscillator.waveField.ensureAccount reg.account).ensureAccount
      reg.waveAccount).keepsAccounts_ensureAccount reg.usdcAccount
    have hrest := ((WaveField.keepsAccounts_setNonDecaying
      (((oscillator.waveField.ensureAccount reg.account).ensureAccount
        reg.waveAccount).ensureAccount reg.usdcAccount) reg.usdcAccount).trans
      (keepsAccounts_creditIfEmpty _ reg.waveAccount)).trans
      (keepsAccounts_creditIfEmpty _ reg.usdcAccount)
    refine hmirrored.of_keepsAccounts (((haccount.trans hwave).trans husdc).trans hrest)
      fun account hmem ↦ ?_
    rcases mem_insert_cases hmem with rfl | hmem
    · exact .inr (hrest _ (WaveField.mem_ensureAccount _ _))
    · rcases mem_insert_cases hmem with rfl | hold
      · exact .inr (hrest _ (husdc _ (WaveField.mem_ensureAccount _ _)))
      · exact .inl hold
  · exact hmirrored

/-- Moving pending shifts into the DAG leaves the balances alone. -/
theorem admitted_balances (prim : Primitives) (registry : DomainRegistry) (keys : KeyRegistry)
    (tick : ℕ) (shifts : List StatefulShift) (progress : VectorClockDag × List DagError) :
    (shifts.foldl (admitShift prim registry keys tick) progress).1.balances =
      progress.1.balances := by
  induction shifts generalizing progress with
  | nil => rfl
  | cons shift shifts ih =>
    rw [List.foldl_cons, ih]
    rcases admitShift_cases prim registry keys tick progress shift with hsame |
      ⟨publicKey, depth, hinsert⟩
    · rw [hsame]
    · rw [hinsert]
      rcases VectorClockDag.insert_cases prim progress.1 shift publicKey tick depth with
        ⟨-, hcase⟩ | ⟨-, -, hcase⟩ | ⟨-, -, missing, -, -, hcase⟩ | ⟨-, -, -, hcase⟩
      · rw [hcase]
        rfl
      · rw [hcase]
      · rw [hcase]
        rfl
      · rw [hcase]
        rfl

/-- The loop starts from the decayed balances. -/
theorem preparedDag_balances (oscillator : Oscillator platform) (keys : KeyRegistry)
    (order : SynthesisOrder) :
    (oscillator.preparedDag keys order).balances = oscillator.syncedDag.balances :=
  admitted_balances platform.primitives oscillator.domainRegistry keys oscillator.synthesisTick
    oscillator.pendingStateful (oscillator.syncedDag, [])

/-- The decayed balances are those of accounts of the wave-field. -/
theorem Mirrored.mem_accounts {oscillator : Oscillator platform} (hmirrored : Mirrored oscillator)
    {account : AccountId} (hmem : account ∈ oscillator.syncedDag.balances) :
    account ∈ oscillator.waveField.accounts := by
  rw [← ExtTreeMap.isSome_getElem?_iff_mem, getElem?_syncedDag_balances, Option.isSome_or,
    Option.isSome_map, Bool.or_eq_true] at hmem
  rcases hmem with hfield | hdag
  · exact ExtTreeMap.isSome_getElem?_iff_mem.mp hfield
  · exact hmirrored account (ExtTreeMap.isSome_getElem?_iff_mem.mp hdag)

theorem Mirrored.synthesize {oscillator final : Oscillator platform}
    (hmirrored : Mirrored oscillator) {keys : KeyRegistry} {order : SynthesisOrder}
    {timestampNs : ℕ} {result : SynthesisResult} {hashes : List TxHash}
    (hsynthesize : oscillator.synthesize keys order timestampNs = some (final, result, hashes)) :
    Mirrored final := by
  rcases synthesize_cases hsynthesize with ⟨error, -, rfl, -⟩ |
    ⟨placed, ledger, applied, root, decayed, rejected, -, -, hfinish⟩
  · obtain ⟨waveField, _, _, _, _, haccounts, hprepared⟩ := oscillator.prepared_eq keys order
    intro account hmem
    rw [prepared_dag, preparedDag_balances] at hmem
    rw [hprepared]
    show account ∈ waveField.accounts
    rw [haccounts, ExtTreeMap.mem_map]
    exact hmirrored.mem_accounts hmem
  · obtain ⟨evmPool, balances, evmHashes, waveField, rewardPool, -, -, -, hcopied, hfinal⟩ :=
      finish_cases hfinish
    have hmem : ∀ account, account ∈ balances → account ∈ waveField.accounts := by
      intro account hmem
      rw [← WaveField.isSome_unitsAt, hcopied, Option.isSome_or,
        ExtTreeMap.isSome_getElem?_iff_mem.mpr hmem, Bool.true_or]
    rcases certify_cases _ keys oscillator.synthesisTick timestampNs result root hashes
      evmHashes with hnone | ⟨cert, certificates, -, -, -, -, hsome⟩
    · rw [hfinal, hnone]
      exact hmem
    · rw [hfinal, hsome]
      exact hmem

/-- Every request keeps the accounts mirrored. -/
theorem Mirrored.step {oscillator next : Oscillator platform} {request : Request}
    {response : Response} (hmirrored : Mirrored oscillator)
    (hstep : Consensus.step platform oscillator request = some (next, response)) :
    Mirrored next := by
  cases request with
  | synthesize keys order timestampNs =>
    simp only [Consensus.step, Option.map_eq_some_iff, Prod.mk.injEq] at hstep
    obtain ⟨⟨final, result, hashes⟩, hsynthesize, rfl, -⟩ := hstep
    exact hmirrored.synthesize hsynthesize
  | seedAccount account amount =>
    obtain ⟨rfl, -⟩ := Prod.mk.inj (Option.some.inj hstep)
    exact hmirrored.seedAccount account amount
  | markNonDecaying account =>
    obtain ⟨rfl, -⟩ := Prod.mk.inj (Option.some.inj hstep)
    exact hmirrored.of_keepsAccounts (WaveField.keepsAccounts_setNonDecaying _ account)
      fun _ hmem ↦ .inl hmem
  | registerDomain policy registrant =>
    obtain ⟨rfl, -⟩ := Prod.mk.inj (Option.some.inj hstep)
    exact hmirrored.registerDomain policy registrant
  | ingest signal nowNs =>
    obtain ⟨rfl, -⟩ := Prod.mk.inj (Option.some.inj hstep)
    exact hmirrored.ingest signal nowNs
  | applyStake stake =>
    obtain ⟨rfl, -⟩ := Prod.mk.inj (Option.some.inj hstep)
    exact hmirrored.applyStake stake
  | stake operator amount =>
    obtain ⟨rfl, -⟩ := Prod.mk.inj (Option.some.inj hstep)
    exact hmirrored
  | applyRegistration reg =>
    obtain ⟨rfl, -⟩ := Prod.mk.inj (Option.some.inj hstep)
    exact hmirrored.applyRegistration reg
  | ingestCertificate cert keys =>
    obtain ⟨rfl, -⟩ := Prod.mk.inj (Option.some.inj hstep)
    exact hmirrored
  | submitEvm tx nowNs =>
    obtain ⟨rfl, -⟩ := Prod.mk.inj (Option.some.inj hstep)
    exact hmirrored

/-- A new node mirrors its accounts. -/
theorem mirrored_create (nttSize : ℕ) (operatorKeypair : Option KeyPair)
    (stakeTable : StakeTable) :
    Mirrored (create nttSize operatorKeypair stakeTable : Oscillator platform) := by
  intro account hmem
  simp [create, VectorClockDag.new] at hmem

/-- The accounts are mirrored in every state of every run of a new node. -/
theorem mirrored_of_reaches {nttSize : ℕ} {operatorKeypair : Option KeyPair}
    {stakeTable : StakeTable} {allowed : Oscillator platform → Request → Prop}
    {history : List (Oscillator platform × Request)} {oscillator : Oscillator platform}
    (hreaches : Reaches (Consensus.step platform) allowed
      (create nttSize operatorKeypair stakeTable) history oscillator) : Mirrored oscillator :=
  hreaches.invariant (mirrored_create _ _ _) fun _ _ _ _ _ hmirrored hstep ↦ hmirrored.step hstep

/-! ### Totals -/

/-- The total of a table of balances. -/
def totalUnits (balances : ExtTreeMap AccountId ℕ) : ℕ := sumBy (fun _ units ↦ units) balances

/-- The total that the accounts of a wave-field hold. -/
def heldUnits (field : WaveField) : ℕ :=
  sumBy (fun _ (balance : Balance) ↦ balance.units) field.accounts

/-- The balances that the loop starts from are the decayed units of the accounts. -/
theorem Mirrored.syncedDag_balances {oscillator : Oscillator platform}
    (hmirrored : Mirrored oscillator) :
    oscillator.syncedDag.balances = oscillator.waveField.accounts.map
      fun account balance ↦ (oscillator.decayedAccount account balance).units := by
  refine ExtTreeMap.ext_getElem? fun account ↦ ?_
  rw [getElem?_syncedDag_balances, ExtTreeMap.getElem?_map]
  cases hlookup : oscillator.waveField.accounts[account]? with
  | some balance => rfl
  | none =>
    have hnone : oscillator.dag.balances[account]? = none := by
      refine ExtTreeMap.getElem?_eq_none fun hmem ↦ ?_
      have hfield := ExtTreeMap.isSome_getElem?_iff_mem.mpr (hmirrored account hmem)
      rw [hlookup] at hfield
      cases hfield
    rw [hnone]
    rfl

/-- The decayed balances are at most what the accounts hold in total. -/
theorem Mirrored.totalUnits_syncedDag_le {oscillator : Oscillator platform}
    (hmirrored : Mirrored oscillator) :
    totalUnits oscillator.syncedDag.balances ≤ heldUnits oscillator.waveField := by
  rw [hmirrored.syncedDag_balances, totalUnits, sumBy_map]
  exact sumBy_le_sumBy (fun account balance ↦ WaveField.decayAccount_units_le _ _ _ account balance)
    oscillator.waveField.accounts

/-! ### Fees -/

/-- Every registered domain has a bounded policy. -/
def BoundedFees (registry : DomainRegistry) : Prop :=
  ∀ domain policy, registry.get? domain = some policy → policy.feePolicy.isBounded = true

instance (registry : DomainRegistry) : Decidable (BoundedFees registry) :=
  decidable_of_iff
    (∀ entry ∈ registry.domains.toList, entry.2.feePolicy.isBounded = true)
    ⟨fun hall domain policy hpolicy ↦ hall (domain, policy)
      (ExtTreeMap.mem_toList_iff_getElem?_eq_some.mpr hpolicy),
    fun hfees entry hentry ↦ hfees entry.1 entry.2
      (ExtTreeMap.mem_toList_iff_getElem?_eq_some.mp hentry)⟩

/-- The fee and the rest are the amount. Assumes: the policies are bounded, the amount has 128 bits
and the fee is computed. -/
theorem BoundedFees.fee_add_net {registry : DomainRegistry} (hfees : BoundedFees registry)
    {shift : StatefulShift} (hamount : shift.amount < 2 ^ 128) {fee net : ℕ}
    (hfee : computeSignalFee registry shift = .ok (fee, net)) : fee + net = shift.amount := by
  unfold computeSignalFee at hfee
  cases hpolicy : registry.get? shift.domain with
  | none =>
    rw [hpolicy] at hfee
    cases hfee
  | some policy =>
    have hbounded := hfees shift.domain policy hpolicy
    rw [hpolicy] at hfee
    dsimp only at hfee
    cases hkind : policy.feePolicy with
    | flat flat =>
      simp only [hkind] at hfee
      split_ifs at hfee with hshort
      obtain ⟨rfl, rfl⟩ := Prod.mk.inj (Except.ok.inj hfee)
      omega
    | percentage basisPoints =>
      simp only [hkind, FeePolicy.isBounded, decide_eq_true_eq] at hfee hbounded
      obtain ⟨rfl, rfl⟩ := Prod.mk.inj (Except.ok.inj hfee)
      have hle := @saturatingMul_div_le 128 shift.amount basisPoints 10000 hbounded
      rw [wrappingSub_of_le hamount hle]
      omega
    | metabolicOnly =>
      simp only [hkind] at hfee
      obtain ⟨rfl, rfl⟩ := Prod.mk.inj (Except.ok.inj hfee)
      omega

/-- The fee of the shift of a node, zero when there is none. -/
def feeOf (registry : DomainRegistry) (dag : VectorClockDag) (hash : TxHash) : ℕ :=
  match dag.nodes[hash]? with
  | some node =>
    match computeSignalFee registry node.shift with
    | .ok (fee, _) => fee
    | .error _ => 0
  | none => 0

/-! ### One transfer -/

/-- An account holds at most the total. -/
theorem getD_le_totalUnits (balances : ExtTreeMap AccountId ℕ) (account : AccountId) :
    balances.getD account 0 ≤ totalUnits balances := by
  rw [ExtTreeMap.getD_eq_getD_getElem?]
  cases hlookup : balances[account]? with
  | none => exact Nat.zero_le _
  | some units => exact weight_le_sumBy (fun _ units ↦ units) hlookup

/-- A debit lowers the total by its amount. Assumes: the account holds the amount. -/
theorem totalUnits_debit {balances : ExtTreeMap AccountId ℕ} {account : AccountId}
    {held amount : ℕ} (hheld : balances[account]? = some held) (hcovered : amount ≤ held) :
    totalUnits (balances.insert account (held - amount)) + amount = totalUnits balances := by
  have hinsert := sumBy_insert (fun _ units ↦ units) balances account (held - amount)
  rw [hheld] at hinsert
  have hsum : totalUnits (balances.insert account (held - amount)) + held =
      totalUnits balances + (held - amount) := hinsert
  omega

/-- A transfer succeeds: it takes its amount from the sender and adds what is passed on to what the
recipient then has, without a wrap. Assumes: the sender holds the amount, no more is passed on than
taken, and the total has 128 bits. -/
theorem transferBalances_eq {balances : ExtTreeMap AccountId ℕ} {shift : StatefulShift}
    {held net : ℕ} (hheld : balances[shift.sender]? = some held) (hcovered : shift.amount ≤ held)
    (hnet : net ≤ shift.amount) (htotal : totalUnits balances < 2 ^ 128) :
    transferBalances balances shift net =
      some ((balances.insert shift.sender (held - shift.amount)).insert shift.recipient
        ((balances.insert shift.sender (held - shift.amount)).getD shift.recipient 0 + net)) := by
  have hheldLe : held ≤ totalUnits balances := weight_le_sumBy (fun _ units ↦ units) hheld
  have hsub : wrappingSub 128 held shift.amount = held - shift.amount :=
    wrappingSub_of_le (lt_of_le_of_lt hheldLe htotal) hcovered
  have hdebit := totalUnits_debit hheld hcovered
  have hrecipient := getD_le_totalUnits (balances.insert shift.sender (held - shift.amount))
    shift.recipient
  unfold transferBalances
  rw [hheld, Option.bind_eq_bind, Option.bind_some, hsub]
  dsimp only
  rw [wrappingAdd_of_lt (by omega)]
  rfl

/-- A transfer succeeds, and lowers the total by what it does not pass on. Assumes: the sender holds
the amount, no more is passed on than taken, and the total has 128 bits. -/
theorem transferBalances_total {balances : ExtTreeMap AccountId ℕ} {shift : StatefulShift}
    {held net : ℕ} (hheld : balances[shift.sender]? = some held) (hcovered : shift.amount ≤ held)
    (hnet : net ≤ shift.amount) (htotal : totalUnits balances < 2 ^ 128) :
    ∃ next, transferBalances balances shift net = some next ∧
      totalUnits next + shift.amount = totalUnits balances + net := by
  refine ⟨_, transferBalances_eq hheld hcovered hnet htotal, ?_⟩
  have hdebit := totalUnits_debit hheld hcovered
  set debited := balances.insert shift.sender (held - shift.amount)
  have hrecipient : debited.getD shift.recipient 0 =
      debited[shift.recipient]?.elim 0 fun units ↦ units := by
    rw [ExtTreeMap.getD_eq_getD_getElem?]
    cases debited[shift.recipient]? <;> rfl
  have hinsert := sumBy_insert (fun _ units ↦ units) debited shift.recipient
    (debited.getD shift.recipient 0 + net)
  rw [← hrecipient] at hinsert
  have hsum : totalUnits (debited.insert shift.recipient
      (debited.getD shift.recipient 0 + net)) + debited.getD shift.recipient 0 =
      totalUnits debited + (debited.getD shift.recipient 0 + net) := hinsert
  omega

/-! ### The loop -/

section Loop

variable {oscillator : Oscillator platform} {keys : KeyRegistry} {order : SynthesisOrder}
  (hsound : Sound oscillator) (hfees : BoundedFees oscillator.domainRegistry)
  (htotal : totalUnits oscillator.syncedDag.balances < 2 ^ 128)

/-- What is left of the balances and the fees of the shifts applied so far make up the decayed
balances. -/
def Balanced (oscillator : Oscillator platform) (keys : KeyRegistry) (order : SynthesisOrder)
    (ledger : Ledger) : Prop :=
  totalUnits ledger.balances +
    (ledger.hashes.map (feeOf oscillator.domainRegistry (oscillator.preparedDag keys order))).sum =
    totalUnits oscillator.syncedDag.balances

theorem prepared_domainRegistry (oscillator : Oscillator platform) (keys : KeyRegistry)
    (order : SynthesisOrder) :
    (oscillator.prepared keys order).domainRegistry = oscillator.domainRegistry := by
  obtain ⟨_, _, _, _, _, -, hprepared⟩ := oscillator.prepared_eq keys order
  rw [hprepared]

/-- The loop starts balanced. -/
theorem balanced_openLedger (oscillator : Oscillator platform) (keys : KeyRegistry)
    (order : SynthesisOrder) :
    Balanced oscillator keys order (oscillator.prepared keys order).openLedger := by
  unfold Balanced openLedger
  rw [prepared_dag, preparedDag_balances]
  rfl

include hsound hfees htotal in
/-- At a transfer the sender has an entry that covers the amount, and the fee and the rest make up
the amount. Assumes: the ledger is balanced, and the loop finds a transfer of a node. -/
theorem transfer_covered {ledger : Ledger} (hbalanced : Balanced oscillator keys order ledger)
    {hash : TxHash} {node : DagNode}
    (hnode : (oscillator.preparedDag keys order).nodes[hash]? = some node) {fee net : ℕ}
    (houtcome : oscillator.outcomeAt keys order ledger node = .transfer node.shift fee net) :
    ∃ held, ledger.balances[node.shift.sender]? = some held ∧ node.shift.amount ≤ held ∧
      held < 2 ^ 128 ∧ fee + net = node.shift.amount := by
  have htransfers := (attempt_transfer houtcome).2
  have hpositive := hsound.preparedDag_amount hnode
  have hcovered := htransfers.covered
  have hledger : totalUnits ledger.balances < 2 ^ 128 := by
    unfold Balanced at hbalanced
    omega
  rw [ExtTreeMap.getD_eq_getD_getElem?] at hcovered
  cases hheld : ledger.balances[node.shift.sender]? with
  | none =>
    rw [hheld] at hcovered
    exact absurd hcovered (Nat.not_le.mpr hpositive)
  | some held =>
    rw [hheld] at hcovered
    have hheldLt : held < 2 ^ 128 :=
      lt_of_le_of_lt (weight_le_sumBy (fun _ units ↦ units) hheld) hledger
    have hfee := htransfers.fees
    rw [prepared_domainRegistry] at hfee
    exact ⟨held, rfl, hcovered, hheldLt,
      hfees.fee_add_net (lt_of_le_of_lt hcovered hheldLt) hfee⟩

include hsound hfees htotal in
/-- One round succeeds and keeps the ledger balanced. Assumes: the ledger is balanced and the hash
is that of a node. -/
theorem applyShift_balanced {ledger : Ledger} (hbalanced : Balanced oscillator keys order ledger)
    {hash : TxHash} {node : DagNode}
    (hnode : (oscillator.preparedDag keys order).nodes[hash]? = some node) :
    ∃ next, (oscillator.prepared keys order).applyShift keys order ledger hash = some next ∧
      Balanced oscillator keys order next := by
  have hround : (oscillator.prepared keys order).applyShift keys order ledger hash =
      enter ledger hash (oscillator.outcomeAt keys order ledger node) := by
    unfold applyShift outcomeAt
    rw [prepared_dag, hnode]
    rfl
  rw [hround]
  cases houtcome : oscillator.outcomeAt keys order ledger node with
  | settled => exact ⟨_, rfl, hbalanced⟩
  | invalidSignature => exact ⟨_, rfl, hbalanced⟩
  | unknownDomain => exact ⟨_, rfl, hbalanced⟩
  | awaitingQuorum => exact ⟨_, rfl, hbalanced⟩
  | feeUncovered => exact ⟨_, rfl, hbalanced⟩
  | insufficientBalance => exact ⟨_, rfl, hbalanced⟩
  | transfer shift fee net =>
    obtain rfl := (attempt_transfer houtcome).1
    obtain ⟨held, hheld, hcovered, -, hsplit⟩ :=
      transfer_covered hsound hfees htotal hbalanced hnode houtcome
    have hfee : feeOf oscillator.domainRegistry (oscillator.preparedDag keys order) hash = fee := by
      have hcomputed := (attempt_transfer houtcome).2.fees
      rw [prepared_domainRegistry] at hcomputed
      unfold feeOf
      rw [hnode]
      dsimp only
      rw [hcomputed]
    unfold Balanced at hbalanced
    have hledger : totalUnits ledger.balances < 2 ^ 128 := by omega
    obtain ⟨balances, hbalances, hmoved⟩ :=
      transferBalances_total hheld hcovered (Nat.le.intro (Nat.add_comm net fee ▸ hsplit)) hledger
    refine ⟨_, by simp only [enter, hbalances, Option.bind_eq_bind, Option.bind_some]; rfl, ?_⟩
    unfold Balanced
    simp only [List.map_append, List.map_singleton, List.sum_append, List.sum_singleton, hfee]
    omega

include hsound hfees htotal in
/-- The loop succeeds and ends balanced. Assumes: the loop visits nodes. -/
theorem loop_balanced {placed : List TxHash}
    (hnodes : ∀ hash ∈ placed, hash ∈ (oscillator.preparedDag keys order).nodes) :
    ∃ ledger, placed.foldlM ((oscillator.prepared keys order).applyShift keys order)
      (oscillator.prepared keys order).openLedger = some ledger ∧
      Balanced oscillator keys order ledger := by
  induction placed using List.reverseRecOn with
  | nil => exact ⟨_, rfl, oscillator.balanced_openLedger keys order⟩
  | append_singleton placed last ih =>
    obtain ⟨ledger, hledger, hbalanced⟩ :=
      ih fun hash hmem ↦ hnodes hash (List.mem_append_left _ hmem)
    obtain ⟨node, hnode⟩ := Option.isSome_iff_exists.mp (ExtTreeMap.isSome_getElem?_iff_mem.mpr
      (hnodes last (List.mem_append_right _ (List.mem_singleton.mpr rfl))))
    obtain ⟨next, hnext, hbalancedNext⟩ :=
      applyShift_balanced hsound hfees htotal hbalanced hnode
    refine ⟨next, ?_, hbalancedNext⟩
    rw [List.foldlM_append, hledger, Option.bind_eq_bind, Option.bind_some, List.foldlM_cons, hnext]
    rfl

include hsound in
/-- The hashes up to a turn are distinct, and each has a node. Assumes: the loop is at the turn. -/
theorem Turn.arranged {before : List TxHash} {hash : TxHash} {ledger : Ledger} {node : DagNode}
    (hturn : Turn oscillator keys order before hash ledger node) :
    (before ++ [hash]).Nodup ∧
      ∀ other ∈ before, other ∈ (oscillator.preparedDag keys order).nodes := by
  obtain ⟨placed, horder, hperm, -⟩ :=
    (hsound.preparedDag_wellFormed keys order).topologicalOrder_eq_ok order.toDagOrder
  obtain ⟨after, hplaced⟩ := hturn.placed
  rw [horder, Option.some.injEq, Except.ok.injEq] at hplaced
  constructor
  · have hall : placed.Nodup := hperm.nodup_iff.mpr (VectorClockDag.nodup_hashes _)
    rw [hplaced, ← List.singleton_append, ← List.append_assoc] at hall
    exact (List.nodup_append.mp hall).1
  · intro other hother
    rw [← VectorClockDag.mem_hashes, ← hperm.mem_iff, hplaced]
    exact List.mem_append_left _ hother

include hsound hfees htotal in
/-- The ledger at a turn is balanced. Assumes: the loop is at the turn. -/
theorem Turn.balanced {before : List TxHash} {hash : TxHash} {ledger : Ledger} {node : DagNode}
    (hturn : Turn oscillator keys order before hash ledger node) :
    Balanced oscillator keys order ledger := by
  obtain ⟨ledger', hledger', hbalanced⟩ :=
    loop_balanced hsound hfees htotal (hturn.arranged hsound).2
  rw [hturn.ledger_eq, Option.some.injEq] at hledger'
  exact hledger' ▸ hbalanced

end Loop

/-! ### The whole synthesis -/

/-- The fees of applied shifts are those of the nodes that the loop saw. -/
theorem SynthesisEffect.feeOf {oscillator final : Oscillator platform} {keys : KeyRegistry}
    {order : SynthesisOrder} {hashes : List TxHash}
    (heffect : SynthesisEffect oscillator final keys order hashes) (registry : DomainRegistry) :
    Oscillator.feeOf registry final.dag =
      Oscillator.feeOf registry (oscillator.preparedDag keys order) := by
  ext hash
  unfold Oscillator.feeOf
  rw [heffect.nodes, getElem?_markApplied]
  cases (oscillator.preparedDag keys order).nodes[hash]? <;> rfl

section Whole

variable {oscillator : Oscillator platform} (hsound : Sound oscillator)
  (hfees : BoundedFees oscillator.domainRegistry)
  (htotal : totalUnits oscillator.syncedDag.balances < 2 ^ 128)
  (hpending : oscillator.evmPool.pending = [])

include hpending in
/-- Without EVM transactions the balances of the loop are the balances after that section. -/
theorem evm_idle (keys : KeyRegistry) (order : SynthesisOrder) (ledger : Ledger) :
    ∃ evmPool : EvmPool platform.revm, evmPool.pending = [] ∧
      (oscillator.prepared keys order).evmPool.synthesize platform.primitives order.addresses
        ledger.balances oscillator.synthesisTick = some (evmPool, ledger.balances, []) := by
  have hpool : (oscillator.prepared keys order).evmPool.pending = [] := by
    obtain ⟨_, _, _, _, _, -, hprepared⟩ := oscillator.prepared_eq keys order
    rw [hprepared]
    exact hpending
  exact EvmPool.synthesize_of_pending_nil platform.primitives hpool order.addresses
    ledger.balances oscillator.synthesisTick

include hsound hfees htotal hpending in
/-- A synthesis returns. -/
theorem exists_synthesize (keys : KeyRegistry) (order : SynthesisOrder) (timestampNs : ℕ) :
    ∃ final result hashes,
      oscillator.synthesize keys order timestampNs = some (final, result, hashes) := by
  obtain ⟨placed, horder, hperm, -⟩ :=
    (hsound.preparedDag_wellFormed keys order).topologicalOrder_eq_ok order.toDagOrder
  have hnodes : ∀ hash ∈ placed, hash ∈ (oscillator.preparedDag keys order).nodes := by
    intro hash hmem
    rwa [← VectorClockDag.mem_hashes, ← hperm.mem_iff]
  obtain ⟨ledger, hloop, -⟩ := loop_balanced hsound hfees htotal hnodes
  obtain ⟨evmPool, -, hevm⟩ := evm_idle hpending keys order ledger
  have hreturns : (oscillator.synthesize keys order timestampNs).isSome = true := by
    rw [synthesize_eq, horder, Option.bind_some]
    dsimp only
    rw [hloop, Option.bind_some]
    unfold finish
    rw [hevm]
    rfl
  obtain ⟨⟨final, result, hashes⟩, hsynthesize⟩ := Option.isSome_iff_exists.mp hreturns
  exact ⟨final, result, hashes, hsynthesize⟩

include hsound hfees htotal hpending in
/-- The balances that a synthesis returns and the fees of the shifts it applied make up the decayed
balances. Assumes: the synthesis returns. -/
theorem totalUnits_synthesize {final : Oscillator platform} {keys : KeyRegistry}
    {order : SynthesisOrder} {timestampNs : ℕ} {result : SynthesisResult} {hashes : List TxHash}
    (hsynthesize : oscillator.synthesize keys order timestampNs = some (final, result, hashes)) :
    totalUnits result.finalBalances +
      (hashes.map (feeOf oscillator.domainRegistry final.dag)).sum =
      totalUnits oscillator.syncedDag.balances := by
  obtain ⟨placed, horder, hperm, -⟩ :=
    (hsound.preparedDag_wellFormed keys order).topologicalOrder_eq_ok order.toDagOrder
  have hnodes : ∀ hash ∈ placed, hash ∈ (oscillator.preparedDag keys order).nodes := by
    intro hash hmem
    rwa [← VectorClockDag.mem_hashes, ← hperm.mem_iff]
  obtain ⟨ledger, hloop, hbalanced⟩ := loop_balanced hsound hfees htotal hnodes
  obtain ⟨evmPool, -, hevm⟩ := evm_idle hpending keys order ledger
  rw [(synthesize_effect hsynthesize).feeOf]
  rcases synthesize_cases hsynthesize with ⟨error, herror, -, -⟩ |
    ⟨placed', ledger', _, _, _, _, horder', hloop', hfinish⟩
  · rw [horder] at herror
    cases herror
  · rw [horder, Option.some.injEq, Except.ok.injEq] at horder'
    rw [← horder', hloop, Option.some.injEq] at hloop'
    subst hloop'
    obtain ⟨_, balances, _, _, _, hevm', rfl, hresult, -, -⟩ := finish_cases hfinish
    rw [hevm, Option.some.injEq, Prod.mk.injEq, Prod.mk.injEq] at hevm'
    rw [hresult, ← hevm'.2.1]
    exact hbalanced

end Whole

/-- A synthesis returns, and the balances it returns and the fees of the shifts it applied make up
the decayed balances. It applies the shifts at whose turn it finds a transfer, and at each of these
turns the sender has an entry that covers the amount, so that neither the subtraction nor the lookup
of the loop can fail. Assumes: a run of a new node leads to the state, all fee policies are bounded,
the accounts hold less than `2 ^ 128` in total, and no EVM transaction is pending. -/
theorem synthesize_conserves {nttSize : ℕ} {operatorKeypair : Option KeyPair}
    {stakeTable : StakeTable} {history : List (Oscillator platform × Request)}
    {oscillator : Oscillator platform}
    (hreaches : Reaches (Consensus.step platform) anyStep
      (create nttSize operatorKeypair stakeTable) history oscillator)
    (hfees : BoundedFees oscillator.domainRegistry)
    (hheld : heldUnits oscillator.waveField < 2 ^ 128)
    (hpending : oscillator.evmPool.pending = []) (keys : KeyRegistry) (order : SynthesisOrder)
    (timestampNs : ℕ) :
    ∃ final result hashes,
      oscillator.synthesize keys order timestampNs = some (final, result, hashes) ∧
      totalUnits result.finalBalances +
        (hashes.map (feeOf oscillator.domainRegistry final.dag)).sum =
        totalUnits oscillator.syncedDag.balances ∧
      (∀ hash, hash ∈ hashes ↔ ∃ before ledger node fee net,
        Turn oscillator keys order before hash ledger node ∧
        oscillator.outcomeAt keys order ledger node = .transfer node.shift fee net) ∧
      ∀ before hash ledger node fee net, Turn oscillator keys order before hash ledger node →
        oscillator.outcomeAt keys order ledger node = .transfer node.shift fee net →
        ∃ held, ledger.balances[node.shift.sender]? = some held ∧ node.shift.amount ≤ held ∧
          held < 2 ^ 128 ∧ fee + net = node.shift.amount := by
  have hsound := sound_of_reaches hreaches
  have htotal : totalUnits oscillator.syncedDag.balances < 2 ^ 128 :=
    lt_of_le_of_lt (mirrored_of_reaches hreaches).totalUnits_syncedDag_le hheld
  obtain ⟨final, result, hashes, hsynthesize⟩ :=
    exists_synthesize hsound hfees htotal hpending keys order timestampNs
  exact ⟨final, result, hashes, hsynthesize,
    totalUnits_synthesize hsound hfees htotal hpending hsynthesize, mem_applied_iff hsynthesize,
    fun before hash ledger node fee net hturn houtcome ↦ transfer_covered hsound hfees htotal
      (hturn.balanced hsound hfees htotal) hturn.node_eq houtcome⟩

/-- The requests that fund a sender and queue one shift of it. -/
def fundedQueue : List Request :=
  [.seedAccount (sampleAccount 1) 1000,
    .ingest (.stateful (StatefulShift.sample 1 400 [(1, 1)] [] 1 0)) 1]

/-- A state in which the shift is queued, and the synthesis that applies it. -/
theorem synthesize_conserves_fundedQueue :
    ∃ (history : List (Oscillator Platform.sample × Request))
      (oscillator : Oscillator Platform.sample),
      Reaches (step Platform.sample) anyStep (newWithKeypair 8) history oscillator ∧
      BoundedFees oscillator.domainRegistry ∧ heldUnits oscillator.waveField < 2 ^ 128 ∧
      oscillator.evmPool.pending = [] ∧
      ∃ final result hashes,
        oscillator.synthesize sampleKeys .forward 0 = some (final, result, hashes) ∧
        totalUnits result.finalBalances +
          (hashes.map (feeOf oscillator.domainRegistry final.dag)).sum =
          totalUnits oscillator.syncedDag.balances ∧
        (∀ hash, hash ∈ hashes ↔ ∃ before ledger node fee net,
          Turn oscillator sampleKeys .forward before hash ledger node ∧
          oscillator.outcomeAt sampleKeys .forward ledger node = .transfer node.shift fee net) ∧
        ∀ before hash ledger node fee net,
          Turn oscillator sampleKeys .forward before hash ledger node →
          oscillator.outcomeAt sampleKeys .forward ledger node = .transfer node.shift fee net →
          ∃ held, ledger.balances[node.shift.sender]? = some held ∧ node.shift.amount ≤ held ∧
            held < 2 ^ 128 ∧ fee + net = node.shift.amount := by
  have hruns : ((run (step Platform.sample) anyStep (newWithKeypair 8) fundedQueue).map
      fun oscillator ↦ decide (BoundedFees oscillator.domainRegistry ∧
        heldUnits oscillator.waveField < 2 ^ 128 ∧ oscillator.evmPool.pending = [])) =
      some true := by
    decide +kernel
  obtain ⟨oscillator, hrun, hholds⟩ := Option.map_eq_some_iff.mp hruns
  obtain ⟨hfees, hheld, hpending⟩ := of_decide_eq_true hholds
  obtain ⟨history, -, hreaches⟩ := reaches_of_run hrun
  exact ⟨history, oscillator, hreaches, hfees, hheld, hpending,
    synthesize_conserves hreaches hfees hheld hpending sampleKeys .forward 0⟩

end Oscillator

end Fluidic.Consensus
