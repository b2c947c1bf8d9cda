import Fluidic.Consensus.Conservation

/-!
# The wave-field and the DAG after a synthesis

A node keeps every balance twice: in the wave-field, where it decays, and in the DAG, where shifts
are applied. Between two ticks the requests change the two ledgers differently. A synthesis first
copies the wave-field into the DAG, then applies shifts and EVM transactions to a working copy,
takes fees from the wave-field, and copies the working copy into both. `ledgers_agree` says that
both hold the same accounts with the same units at its end, and that these are the balances it
reports.

The copy back gives every account of the working copy its units; what has to be shown is that the
wave-field has no other account. `mem_chargeFees` says that only senders of applied shifts can be
new, and `loop_accounts` that these are accounts of the working copy.
-/

set_option autoImplicit false
set_option relaxedAutoImplicit false

namespace Fluidic.Evm

open Library Crypto
open Std (ExtTreeMap)

/-- The write-back of EVM balances removes no account. Assumes: the write-back returns. -/
theorem EvmExecutor.syncBalancesBack_keeps {revm : Revm} {prim : Primitives}
    {executor : EvmExecutor revm} {order : IterationOrder EvmAddress}
    {balances next : ExtTreeMap AccountId ℕ}
    (hback : executor.syncBalancesBack prim order balances = some next) {account : AccountId}
    (hmem : account ∈ balances) : account ∈ next := by
  unfold syncBalancesBack at hback
  generalize order.visit executor.touched.toList = addresses at hback
  induction addresses generalizing balances with
  | nil =>
    rw [List.foldlM_nil] at hback
    rwa [← Option.some.inj hback]
  | cons address addresses ih =>
    rw [List.foldlM_cons, Option.bind_eq_bind, Option.bind_eq_some_iff] at hback
    obtain ⟨written, hwritten, hrest⟩ := hback
    dsimp only at hwritten
    split_ifs at hwritten
    refine ih ?_ hrest
    rw [← Option.some.inj hwritten]
    exact ExtTreeMap.mem_insert.mpr (.inr hmem)

/-- The EVM transactions of a tick remove no account. Assumes: the EVM transactions return. -/
theorem EvmPool.synthesize_keeps {revm : Revm} {prim : Primitives} {pool pool' : EvmPool revm}
    {order : IterationOrder EvmAddress} {balances next : ExtTreeMap AccountId ℕ} {tick : ℕ}
    {hashes : List H256}
    (hevm : pool.synthesize prim order balances tick = some (pool', next, hashes))
    {account : AccountId} (hmem : account ∈ balances) : account ∈ next := by
  unfold synthesize at hevm
  simp only [bind, Option.bind_eq_some_iff, pure, Option.some.injEq, Prod.mk.injEq] at hevm
  obtain ⟨written, hback, -, rfl, -⟩ := hevm
  exact EvmExecutor.syncBalancesBack_keeps hback hmem

end Fluidic.Evm

namespace Fluidic.Consensus.Oscillator

open Library Crypto Fluidic.Field Value Operator Evm
open Std (ExtTreeMap ExtTreeSet LawfulEqCmp)

variable {platform : Platform}

/-! ### Accounts of the working copy -/

/-- A transfer removes no account, and its sender and its recipient have one. Assumes: the transfer
returns. -/
theorem transferBalances_keeps {balances next : ExtTreeMap AccountId ℕ} {shift : StatefulShift}
    {net : ℕ} (htransfer : transferBalances balances shift net = some next) :
    (∀ account, account ∈ balances → account ∈ next) ∧ shift.sender ∈ next ∧
      shift.recipient ∈ next := by
  unfold transferBalances at htransfer
  simp only [bind, Option.bind_eq_some_iff, pure, Option.some.injEq] at htransfer
  obtain ⟨held, hheld, rfl⟩ := htransfer
  have hsender : shift.sender ∈ balances :=
    mem_iff_exists_getElem?.mpr ⟨held, hheld⟩
  have hkeeps : ∀ account, account ∈ balances → account ∈
      (balances.insert shift.sender (wrappingSub 128 held shift.amount)).insert shift.recipient
        (wrappingAdd 128 ((balances.insert shift.sender
          (wrappingSub 128 held shift.amount)).getD shift.recipient 0) net) :=
    fun account hmem ↦ ExtTreeMap.mem_insert.mpr (.inr (ExtTreeMap.mem_insert.mpr (.inr hmem)))
  exact ⟨hkeeps, hkeeps _ hsender, ExtTreeMap.mem_insert_self⟩

/-- The loop removes no account from the working copy, and the senders and recipients of the shifts
it applies have accounts there. Assumes: the loop returns. -/
theorem loop_accounts {oscillator : Oscillator platform} {keys : KeyRegistry}
    {order : SynthesisOrder} {placed : List TxHash} {initial ledger : Ledger}
    (hloop : placed.foldlM ((oscillator.prepared keys order).applyShift keys order) initial =
      some ledger) :
    (∀ account, account ∈ initial.balances → account ∈ ledger.balances) ∧
    ∀ hash ∈ ledger.hashes, hash ∈ initial.hashes ∨
      ∃ node : DagNode, (oscillator.preparedDag keys order).nodes[hash]? = some node ∧
        node.shift.sender ∈ ledger.balances ∧ node.shift.recipient ∈ ledger.balances := by
  induction placed generalizing initial with
  | nil =>
    rw [List.foldlM_nil] at hloop
    rw [← Option.some.inj hloop]
    exact ⟨fun _ hmem ↦ hmem, fun _ hmem ↦ .inl hmem⟩
  | cons first placed ih =>
    rw [List.foldlM_cons, Option.bind_eq_bind, Option.bind_eq_some_iff] at hloop
    obtain ⟨next, hround, hrest⟩ := hloop
    obtain ⟨hkeeps, happlied⟩ := ih hrest
    obtain ⟨node, hnode, henter⟩ := applyShift_eq_some hround
    rcases enter_hashes henter with ⟨shift, fee, net, houtcome, hhashes, htransfer, -⟩ |
      ⟨-, hhashes, hbalances, -⟩
    · obtain ⟨hsteps, hsender, hrecipient⟩ := transferBalances_keeps htransfer
      refine ⟨fun account hmem ↦ hkeeps account (hsteps account hmem), fun hash hmem ↦ ?_⟩
      rcases happlied hash hmem with hnext | hnew
      · rw [hhashes, List.mem_append, List.mem_singleton] at hnext
        rcases hnext with hearlier | rfl
        · exact .inl hearlier
        · rw [(attempt_transfer houtcome).1] at hsender hrecipient
          exact .inr ⟨node, hnode, hkeeps _ hsender, hkeeps _ hrecipient⟩
      · exact .inr hnew
    · rw [hbalances] at hkeeps
      rw [hhashes] at happlied
      exact ⟨hkeeps, happlied⟩

/-! ### Accounts of the wave-field -/

/-- The accounts that owe fees are senders of applied shifts. Assumes: the account owes a fee. -/
theorem mem_feeDebt {oscillator : Oscillator platform} {hashes : List TxHash}
    {account : AccountId} (hmem : account ∈ oscillator.feeDebt hashes) :
    ∃ hash ∈ hashes, ∃ node : DagNode, oscillator.dag.nodes[hash]? = some node ∧
      node.shift.sender = account := by
  unfold feeDebt at hmem
  induction hashes using List.reverseRecOn with
  | nil => simp at hmem
  | append_singleton hashes last ih =>
    rw [List.foldl_append, List.foldl_cons, List.foldl_nil] at hmem
    cases hlast : oscillator.dag.nodes[last]? with
    | none =>
      rw [hlast] at hmem
      obtain ⟨hash, hhash, hrest⟩ := ih hmem
      exact ⟨hash, List.mem_append_left _ hhash, hrest⟩
    | some node =>
      rw [hlast] at hmem
      rcases ExtTreeMap.mem_insert.mp hmem with hself | hearlier
      · exact ⟨last, List.mem_append_right _ (List.mem_singleton_self _), node, hlast,
          LawfulEqCmp.compare_eq_iff_eq.mp hself⟩
      · obtain ⟨hash, hhash, hrest⟩ := ih hearlier
        exact ⟨hash, List.mem_append_left _ hhash, hrest⟩

/-- Charging fees creates at most accounts of senders of applied shifts. Assumes: the account is
there afterwards. -/
theorem mem_chargeFees {oscillator : Oscillator platform} {hashes : List TxHash} {totalFees : ℕ}
    {account : AccountId}
    (hmem : account ∈ (oscillator.chargeFees hashes totalFees).waveField.accounts) :
    account ∈ oscillator.waveField.accounts ∨
      ∃ hash ∈ hashes, ∃ node : DagNode, oscillator.dag.nodes[hash]? = some node ∧
        node.shift.sender = account := by
  have hfold : ∀ (debts : List (AccountId × ℕ)) (field : WaveField),
      account ∈ (debts.foldl (fun field debt ↦
        (field.debitAccount debt.1 (min debt.2 (field.accountBalance debt.1).units)).1)
          field).accounts →
      account ∈ field.accounts ∨ ∃ debt ∈ debts, debt.1 = account := by
    intro debts
    induction debts with
    | nil => exact fun field hmem ↦ .inl hmem
    | cons debt debts ih =>
      intro field hmem
      rcases ih _ hmem with hfirst | ⟨other, hother, hsame⟩
      · rcases WaveField.mem_of_mem_debitAccount hfirst with hself | hearlier
        · exact .inr ⟨debt, List.mem_cons_self, hself.symm⟩
        · exact .inl hearlier
      · exact .inr ⟨other, List.mem_cons_of_mem _ hother, hsame⟩
  unfold chargeFees at hmem
  split_ifs at hmem with hfree
  · exact .inl hmem
  · rcases hfold _ _ hmem with hearlier | ⟨debt, hdebt, rfl⟩
    · exact .inl hearlier
    · refine .inr (mem_feeDebt (ExtTreeMap.isSome_getElem?_iff_mem.mp ?_))
      rw [ExtTreeMap.mem_toList_iff_getElem?_eq_some.mp hdebt]
      rfl

/-! ### After the synthesis -/

/-- At the end of a synthesis the DAG holds the balances that the EVM transactions leave, the result
reports them, and every account of the wave-field that has one of them holds it. Assumes: the
sections after the loop return. -/
theorem finish_ledgers {oscillator final : Oscillator platform} {keys : KeyRegistry}
    {order : SynthesisOrder} {tick timestampNs applied : ℕ} {root : Bytes32} {decayed : ℕ}
    {rejected : List DagError} {ledger : Ledger} {result : SynthesisResult} {hashes : List TxHash}
    (hfinish : oscillator.finish keys order tick timestampNs applied root decayed rejected ledger =
      some (final, result, hashes)) :
    (∃ evmPool evmHashes, oscillator.evmPool.synthesize platform.primitives order.addresses
      ledger.balances tick = some (evmPool, final.dag.balances, evmHashes)) ∧
    hashes = ledger.hashes ∧ result.finalBalances = final.dag.balances ∧
    ∀ account, final.waveField.unitsAt account = final.dag.balances[account]?.or
      ((oscillator.chargeFees ledger.hashes ledger.totalFees).waveField.unitsAt account) := by
  obtain ⟨evmPool, balances, evmHashes, waveField, rewardPool, hevm, hhashes, hresult, hcopied,
    hfinal⟩ := finish_cases hfinish
  rcases certify_cases _ keys tick timestampNs result root hashes evmHashes with hnone |
    ⟨cert, certificates, -, -, -, -, hsome⟩
  · rw [hfinal, hnone]
    exact ⟨⟨evmPool, evmHashes, hevm⟩, hhashes, hresult, hcopied⟩
  · rw [hfinal, hsome]
    exact ⟨⟨evmPool, evmHashes, hevm⟩, hhashes, hresult, hcopied⟩

/-- After a synthesis of a sound node the wave-field and the DAG have the same accounts with the
same units, and the result reports them. Assumes: the synthesis returns. -/
theorem Sound.units_synthesize {oscillator final : Oscillator platform}
    (hsound : Sound oscillator) {keys : KeyRegistry} {order : SynthesisOrder} {timestampNs : ℕ}
    {result : SynthesisResult} {hashes : List TxHash}
    (hsynthesize : oscillator.synthesize keys order timestampNs = some (final, result, hashes)) :
    (∀ account : AccountId,
      final.waveField.unitsAt account = final.dag.balances[account]?) ∧
    result.finalBalances = final.dag.balances := by
  rcases synthesize_cases hsynthesize with ⟨error, herror, -, -⟩ |
    ⟨placed, ledger, applied, root, decayed, rejected, -, hloop, hfinish⟩
  · obtain ⟨placed, hplaced, -, -⟩ :=
      (hsound.preparedDag_wellFormed keys order).topologicalOrder_eq_ok order.toDagOrder
    rw [herror] at hplaced
    cases hplaced
  · obtain ⟨⟨evmPool, evmHashes, hevm⟩, -, hresult, hcopied⟩ := finish_ledgers hfinish
    obtain ⟨hkeeps, happlied⟩ := loop_accounts hloop
    obtain ⟨field, _, _, _, _, haccounts, hprepared⟩ := oscillator.prepared_eq keys order
    have hheld : ∀ account, account ∈
        ((oscillator.prepared keys order).chargeFees ledger.hashes
          ledger.totalFees).waveField.accounts → account ∈ final.dag.balances := by
      intro account hmem
      refine Evm.EvmPool.synthesize_keeps hevm ?_
      rcases mem_chargeFees hmem with hearlier | ⟨hash, hhash, node, hnode, rfl⟩
      · refine hkeeps account ?_
        rw [hprepared, haccounts, ExtTreeMap.mem_map] at hearlier
        obtain ⟨balance, hbalance⟩ := mem_iff_exists_getElem?.mp hearlier
        show account ∈ (oscillator.prepared keys order).dag.balances
        rw [prepared_dag, preparedDag_balances, ← ExtTreeMap.isSome_getElem?_iff_mem,
          getElem?_syncedDag_balances, hbalance]
        rfl
      · rw [prepared_dag] at hnode
        rcases happlied hash hhash with hnone | ⟨node', hnode', hsender, -⟩
        · exact absurd hnone List.not_mem_nil
        · rw [hnode, Option.some.injEq] at hnode'
          rw [hnode']
          exact hsender
    refine ⟨fun account ↦ ?_, hresult⟩
    rw [hcopied]
    cases hbalance : final.dag.balances[account]? with
    | some units => rfl
    | none =>
      rw [Option.none_or, ← Option.isNone_iff_eq_none, ← Option.isSome_eq_false_iff,
        ← Bool.not_eq_true, WaveField.isSome_unitsAt]
      intro hmem
      have hbalances := ExtTreeMap.isSome_getElem?_iff_mem.mpr (hheld account hmem)
      rw [hbalance] at hbalances
      cases hbalances

/-- After a synthesis both ledgers hold the reported balance of the two parties of each shift that
it applied. Assumes: the synthesis returns and applied the shift, whose node the DAG has, and the
account is one of its parties. -/
theorem units_of_applied {oscillator final : Oscillator platform} {keys : KeyRegistry}
    {order : SynthesisOrder} {timestampNs : ℕ} {result : SynthesisResult} {hashes : List TxHash}
    (hsynthesize : oscillator.synthesize keys order timestampNs = some (final, result, hashes))
    {hash : TxHash} (hmem : hash ∈ hashes) {node : DagNode}
    (hnode : final.dag.nodes[hash]? = some node) {party : AccountId}
    (hparty : party = node.shift.sender ∨ party = node.shift.recipient) :
    ∃ units, result.finalBalances[party]? = some units ∧ final.dag.balances[party]? = some units ∧
      final.waveField.unitsAt party = some units := by
  have heffect := synthesize_effect hsynthesize
  rcases synthesize_cases hsynthesize with ⟨error, -, -, rfl⟩ |
    ⟨placed, ledger, applied, root, decayed, rejected, -, hloop, hfinish⟩
  · exact absurd hmem List.not_mem_nil
  · obtain ⟨⟨evmPool, evmHashes, hevm⟩, hhashes, hresult, hcopied⟩ := finish_ledgers hfinish
    obtain ⟨-, happlied⟩ := loop_accounts hloop
    have hheld : party ∈ final.dag.balances := by
      refine Evm.EvmPool.synthesize_keeps hevm ?_
      rw [hhashes] at hmem
      rcases happlied hash hmem with hnone | ⟨prepared, hprepared, hsender, hrecipient⟩
      · exact absurd hnone List.not_mem_nil
      · rw [heffect.nodes, getElem?_markApplied, hprepared, Option.map_some,
          Option.some.injEq] at hnode
        rw [← hnode] at hparty
        rcases hparty with rfl | rfl
        · exact hsender
        · exact hrecipient
    obtain ⟨units, hunits⟩ := mem_iff_exists_getElem?.mp hheld
    refine ⟨units, ?_, hunits, ?_⟩
    · rw [hresult]
      exact hunits
    · rw [hcopied, hunits]
      rfl

/-- Immediately after every synthesis of a run of a new node, the units of the wave-field accounts
and the balances of the DAG are the same map, which is the one the synthesis reports. Assumes: the
run leads to the state before the synthesis, and the synthesis returns. -/
theorem ledgers_agree {nttSize : ℕ} {operatorKeypair : Option KeyPair} {stakeTable : StakeTable}
    {history : List (Oscillator platform × Request)} {oscillator : Oscillator platform}
    (hreaches : Reaches (Consensus.step platform) anyStep
      (create nttSize operatorKeypair stakeTable) history oscillator)
    {keys : KeyRegistry} {order : SynthesisOrder} {timestampNs : ℕ}
    {final : Oscillator platform} {result : SynthesisResult} {hashes : List TxHash}
    (hsynthesize : oscillator.synthesize keys order timestampNs = some (final, result, hashes)) :
    final.waveField.accounts.map (fun _ (balance : Balance) ↦ balance.units) =
      final.dag.balances ∧
    result.finalBalances = final.dag.balances := by
  obtain ⟨hunits, hresult⟩ := (sound_of_reaches hreaches).units_synthesize hsynthesize
  refine ⟨ExtTreeMap.ext_getElem? fun account ↦ ?_, hresult⟩
  rw [ExtTreeMap.getElem?_map]
  exact hunits account

/-- A run that seeds an account and queues its transfer; the synthesis after it leaves the ledgers
equal. -/
theorem ledgers_agree_fundedQueue :
    ∃ (history : List (Oscillator Platform.sample × Request))
      (oscillator final : Oscillator Platform.sample) (result : SynthesisResult)
      (hashes : List TxHash),
      Reaches (step Platform.sample) anyStep (newWithKeypair 8) history oscillator ∧
      oscillator.synthesize sampleKeys .forward 0 = some (final, result, hashes) ∧
      hashes.length = 1 ∧
      final.waveField.accounts.map (fun _ (balance : Balance) ↦ balance.units) =
        final.dag.balances ∧
      result.finalBalances = final.dag.balances := by
  have hruns : ((run (step Platform.sample) anyStep (newWithKeypair 8) fundedQueue).bind
      fun oscillator ↦ (oscillator.synthesize sampleKeys .forward 0).map
        fun outcome ↦ outcome.2.2.length) = some 1 := by
    decide +kernel
  obtain ⟨oscillator, hrun, hsynthesize⟩ := Option.bind_eq_some_iff.mp hruns
  obtain ⟨⟨final, result, hashes⟩, hsynthesize, hlength⟩ := Option.map_eq_some_iff.mp hsynthesize
  obtain ⟨history, -, hreaches⟩ := reaches_of_run hrun
  exact ⟨history, oscillator, final, result, hashes, hreaches, hsynthesize, hlength,
    ledgers_agree hreaches hsynthesize⟩

end Fluidic.Consensus.Oscillator
