import Fluidic.Node.Dashboard
import Fluidic.Persistence.RoundTrip

/-!
# Restarts

A node that is shut down saves its state, and a node that starts loads it. A save that fails leaves
the file as it was, and the node that starts loads the older snapshot, or none. The snapshot holds
the accounts and the stakes, but neither the supply that circulates, nor the signatures that were
seen, nor the registered domains; and a node seeds the accounts of the pool whenever it starts. So
every restart mints the seed of the pool once more, on an empty count of the supply
(`restarts_inflate`): whatever the first of them loads, enough restarts take the pool beyond the
total supply of WAVE, while the count of the supply stays below two genesis balances.
-/

set_option autoImplicit false
set_option relaxedAutoImplicit false

namespace Fluidic.Node

open Library Crypto Consensus Operator Api Persistence Fluidic.Field Value
open Std (ExtTreeMap LawfulEqCmp)

variable {platform : Platform}

/-! ### Restarting -/

/-- The node state that a start loads the snapshot into. -/
def freshOscillator (platform : Platform) (nttSize : ℕ) (localKeypair : KeyPair) :
    Oscillator platform :=
  { Oscillator.newWithKeypair nttSize with operatorKeypair := some localKeypair }

/-- The node state that a start goes on from: what the file holds, or the fresh state when there is
no file or it does not load. -/
def reloaded (nttSize : ℕ) (localKeypair : KeyPair) (file : Option (Snapshot platform)) :
    Oscillator platform :=
  match load (freshOscillator platform nttSize localKeypair) file with
  | .ok loaded => loaded
  | .error _ => freshOscillator platform nttSize localKeypair

/-- A node and the file that it saves its state to. -/
structure Deployment (platform : Platform) where
  node : RunningNode platform
  file : Option (Snapshot platform)

/-- The file after the node tried to save its state. -/
def Deployment.saved (deployment : Deployment platform) (order : SaveOrder) :
    Option (Snapshot platform) :=
  fileAfter deployment.file (save deployment.node.oscillator order)

/-- A node that was shut down in a state, and saved it if it could, and started again. -/
def Deployment.restart (nttSize : ℕ) (deployment : Deployment platform) (order : SaveOrder)
    (timestampNs : ℕ) : Deployment platform :=
  let file := deployment.saved order
  let localKeypair := deployment.node.localKeypair
  ⟨.boot (reloaded nttSize localKeypair file) localKeypair timestampNs, file⟩

/-- A node after some restarts, one after the other. -/
def Deployment.restarts (nttSize : ℕ) (deployment : Deployment platform)
    (rounds : List (SaveOrder × ℕ)) : Deployment platform :=
  rounds.foldl (fun deployment round ↦ deployment.restart nttSize round.1 round.2) deployment

/-- The liquid units of an account. -/
def unitsOf (oscillator : Oscillator platform) (account : AccountId) : ℕ :=
  (oscillator.waveField.accountBalance account).units

/-! ### What a start does to the accounts -/

/-- Seeding credits its account and mints the amount. Assumes: the cap leaves room for it. -/
theorem seedAccount_of_room {oscillator : Oscillator platform} {amount : ℕ}
    (hroom : oscillator.supplyTracker.circulating + amount ≤ totalWaveSupply)
    (account other : AccountId) :
    (oscillator.seedAccount account amount).supplyTracker.circulating =
      oscillator.supplyTracker.circulating + amount ∧
    unitsOf (oscillator.seedAccount account amount) other =
      if account = other then saturatingAdd 128 (unitsOf oscillator other) amount
      else unitsOf oscillator other := by
  have hminted : (oscillator.supplyTracker.mint amount).2 = true :=
    (SupplyTracker.mint_eq_true_iff _ _).mpr (.inr hroom)
  rw [Oscillator.seedAccount_eq, if_pos hminted]
  refine ⟨SupplyTracker.circulating_mint hminted, ?_⟩
  unfold unitsOf
  dsimp only
  rw [WaveField.creditAccount, WaveField.accountBalance_modify]
  split_ifs with hself
  · rw [hself]
    rfl
  · rfl

/-- Exempting an account from decay leaves the units alone. -/
theorem unitsOf_markNonDecaying (oscillator : Oscillator platform) (account other : AccountId) :
    unitsOf (oscillator.markNonDecaying account) other = unitsOf oscillator other := by
  unfold unitsOf Oscillator.markNonDecaying WaveField.setNonDecaying
  dsimp only
  rw [WaveField.accountBalance_modify]
  split_ifs with hself
  · rw [hself]
  · rfl

/-- An announcement moves units of its operator only, and none if its stake is locked already. -/
theorem unitsOf_applyStake (oscillator : Oscillator platform) (stake : StakeShift)
    {account : AccountId} (hkept : account ≠ stake.operator ∨
      oscillator.stakeTable.getStake stake.operator = stake.amount) :
    unitsOf (oscillator.applyStake stake).1 account = unitsOf oscillator account := by
  have houtcome := oscillator.applyStake_outcome stake
  have hmoved (hchanged : stake.amount ≠ oscillator.lockedBy stake) (balance : Balance)
      (liquid : ℕ) : unitsOf (oscillator.moved stake balance liquid) account =
        unitsOf oscillator account := by
    rcases hkept with hother | hlocked
    · unfold unitsOf WaveField.accountBalance Oscillator.moved
      dsimp only
      rw [ExtTreeMap.getD_insert, if_neg (mt LawfulEqCmp.compare_eq_iff_eq.mp hother.symm)]
    · exact absurd hlocked.symm hchanged
  generalize oscillator.applyStake stake = result at houtcome ⊢
  cases houtcome with
  | refused => rfl
  | repeated => rfl
  | short => rfl
  | raised liquid _ hlt => exact hmoved (Nat.ne_of_gt hlt) _ liquid
  | lowered liquid _ hlt => exact hmoved (Nat.ne_of_lt hlt) _ liquid

/-- Exempting an account from decay changes the wave field only. -/
theorem markNonDecaying_frame (oscillator : Oscillator platform) (account : AccountId) :
    (oscillator.markNonDecaying account).supplyTracker = oscillator.supplyTracker ∧
    (oscillator.markNonDecaying account).stakeTable = oscillator.stakeTable :=
  ⟨rfl, rfl⟩

/-- The accounts of the pool, for WAVE and for USDC. -/
def poolAccounts (prim : Primitives) : AccountId × AccountId :=
  tokenAccounts prim ((⟨0⟩ : KeyPair).accountId prim)

/-- What a start makes of a loaded state, when the operator is none of the pool accounts: it seeds
the operator, if it has no liquid units, and the pool, and mints what it seeds. A stake that is
locked already stays. -/
structure Booted (localAccount : AccountId) (loaded booted : Oscillator platform) : Prop where
  wave : unitsOf booted (poolAccounts platform.primitives).1 =
    saturatingAdd 128 (unitsOf loaded (poolAccounts platform.primitives).1) poolSeed
  usdc : unitsOf booted (poolAccounts platform.primitives).2 =
    saturatingAdd 128 (unitsOf loaded (poolAccounts platform.primitives).2) poolSeed
  operator : loaded.stakeTable.getStake localAccount = genesisBalance →
    unitsOf booted localAccount =
      (if unitsOf loaded localAccount = 0 then genesisBalance else unitsOf loaded localAccount) ∧
    booted.stakeTable.getStake localAccount = genesisBalance
  circulating : booted.supplyTracker.circulating =
    (if unitsOf loaded localAccount = 0 then genesisBalance else 0) + 2 * poolSeed

/-- An announcement leaves the supply alone, and the stakes too if its stake is locked already. -/
theorem applyStake_frame (oscillator : Oscillator platform) (stake : StakeShift) :
    (oscillator.applyStake stake).1.supplyTracker = oscillator.supplyTracker ∧
    (oscillator.stakeTable.getStake stake.operator = stake.amount →
      (oscillator.applyStake stake).1.stakeTable = oscillator.stakeTable) := by
  have houtcome := oscillator.applyStake_outcome stake
  generalize oscillator.applyStake stake = result at houtcome ⊢
  cases houtcome with
  | refused => exact ⟨rfl, fun _ ↦ rfl⟩
  | repeated => exact ⟨rfl, fun _ ↦ rfl⟩
  | short => exact ⟨rfl, fun _ ↦ rfl⟩
  | raised _ _ hlt => exact ⟨rfl, fun hlocked ↦ absurd hlocked (Nat.ne_of_lt hlt)⟩
  | lowered _ _ hlt => exact ⟨rfl, fun hlocked ↦ absurd hlocked (Nat.ne_of_gt hlt)⟩

/-- Seeding leaves the stakes alone. -/
theorem stakeTable_seedAccount (oscillator : Oscillator platform) (account : AccountId)
    (amount : ℕ) : (oscillator.seedAccount account amount).stakeTable = oscillator.stakeTable := by
  rw [Oscillator.seedAccount_eq]
  split_ifs <;> rfl

/-- The node that a start announces its stake to. -/
def seededForBoot (loaded : Oscillator platform) (localKeypair : KeyPair) : Oscillator platform :=
  let oscillator := { loaded with operatorKeypair := some localKeypair }
  if unitsOf loaded (localKeypair.accountId platform.primitives) = 0 then
    oscillator.seedAccount (localKeypair.accountId platform.primitives) genesisBalance
  else oscillator

/-- A start seeds the operator, announces the stake and seeds the pool. -/
theorem boot_oscillator (loaded : Oscillator platform) (localKeypair : KeyPair)
    (timestampNs : ℕ) :
    (RunningNode.boot loaded localKeypair timestampNs).oscillator =
      ((((seededForBoot loaded localKeypair).applyStake (StakeShift.sign platform.primitives
        localKeypair genesisBalance 0 timestampNs)).1.seedAccount
          (poolAccounts platform.primitives).1 poolSeed).seedAccount
            (poolAccounts platform.primitives).2 poolSeed).markNonDecaying
              (poolAccounts platform.primitives).2 := by
  unfold RunningNode.boot start ApiState.new seededForBoot poolAccounts unitsOf
  rfl

/-- A node starts with its keypair. -/
theorem boot_localKeypair (loaded : Oscillator platform) (localKeypair : KeyPair)
    (timestampNs : ℕ) :
    (RunningNode.boot loaded localKeypair timestampNs).localKeypair = localKeypair := by
  unfold RunningNode.boot
  rfl

/-- The account of an operator and those of the pool are different. -/
def DistinctAccounts (prim : Primitives) (localKeypair : KeyPair) : Prop :=
  localKeypair.accountId prim ≠ (poolAccounts prim).1 ∧
    localKeypair.accountId prim ≠ (poolAccounts prim).2 ∧
    (poolAccounts prim).1 ≠ (poolAccounts prim).2

/-- What the seeding of the operator at a start leads to. Assumes: nothing circulates. -/
theorem seededForBoot_spec {loaded : Oscillator platform} {localKeypair : KeyPair}
    (hempty : loaded.supplyTracker.circulating = 0) :
    (seededForBoot loaded localKeypair).supplyTracker.circulating =
      (if unitsOf loaded (localKeypair.accountId platform.primitives) = 0 then genesisBalance
        else 0) ∧
    (∀ other, localKeypair.accountId platform.primitives ≠ other →
      unitsOf (seededForBoot loaded localKeypair) other = unitsOf loaded other) ∧
    unitsOf (seededForBoot loaded localKeypair) (localKeypair.accountId platform.primitives) =
      (if unitsOf loaded (localKeypair.accountId platform.primitives) = 0 then genesisBalance
        else unitsOf loaded (localKeypair.accountId platform.primitives)) ∧
    (seededForBoot loaded localKeypair).stakeTable = loaded.stakeTable := by
  unfold seededForBoot
  dsimp only
  by_cases hzero : unitsOf loaded (localKeypair.accountId platform.primitives) = 0
  · simp only [if_pos hzero]
    have hroom : ({ loaded with operatorKeypair := some localKeypair } :
        Oscillator platform).supplyTracker.circulating + genesisBalance ≤ totalWaveSupply := by
      show loaded.supplyTracker.circulating + genesisBalance ≤ totalWaveSupply
      rw [hempty]
      decide
    have hseeded := seedAccount_of_room hroom (localKeypair.accountId platform.primitives)
    obtain ⟨hminted, hself⟩ := hseeded (localKeypair.accountId platform.primitives)
    refine ⟨hminted.trans ?_, fun other hne ↦ (hseeded other).2.trans (if_neg hne),
      hself.trans ?_, stakeTable_seedAccount _ _ _⟩
    · show loaded.supplyTracker.circulating + genesisBalance = genesisBalance
      rw [hempty, Nat.zero_add]
    · rw [if_pos rfl]
      show saturatingAdd 128 (unitsOf loaded _) genesisBalance = genesisBalance
      rw [hzero]
      decide
  · rw [if_neg hzero, if_neg hzero, if_neg hzero]
    exact ⟨hempty, fun _ _ ↦ rfl, rfl, rfl⟩

/-- A node whose pool accounts were seeded. -/
def withPool (oscillator : Oscillator platform) : Oscillator platform :=
  ((oscillator.seedAccount (poolAccounts platform.primitives).1 poolSeed).seedAccount
    (poolAccounts platform.primitives).2 poolSeed).markNonDecaying
      (poolAccounts platform.primitives).2

/-- The supply has room for a genesis balance and the seeds of the pool. -/
theorem seeds_fit : genesisBalance + poolSeed + poolSeed ≤ totalWaveSupply := by decide

/-- What the seeding of the pool leads to. Assumes: the accounts of the pool are different, and no
more than a genesis balance circulates. -/
theorem withPool_spec {oscillator : Oscillator platform}
    (hpools : (poolAccounts platform.primitives).1 ≠ (poolAccounts platform.primitives).2)
    (hsmall : oscillator.supplyTracker.circulating ≤ genesisBalance) :
    (withPool oscillator).supplyTracker.circulating =
      oscillator.supplyTracker.circulating + 2 * poolSeed ∧
    (∀ other, unitsOf (withPool oscillator) other =
      if other = (poolAccounts platform.primitives).1 ∨ other = (poolAccounts platform.primitives).2
      then saturatingAdd 128 (unitsOf oscillator other) poolSeed
      else unitsOf oscillator other) ∧
    (withPool oscillator).stakeTable = oscillator.stakeTable := by
  unfold withPool
  set wave := (poolAccounts platform.primitives).1
  set usdc := (poolAccounts platform.primitives).2
  have hroom : oscillator.supplyTracker.circulating + poolSeed + poolSeed ≤ totalWaveSupply :=
    (Nat.add_le_add_right (Nat.add_le_add_right hsmall poolSeed) poolSeed).trans seeds_fit
  have hfirst : oscillator.supplyTracker.circulating + poolSeed ≤ totalWaveSupply :=
    (Nat.le_add_right _ _).trans hroom
  have hseeded := @seedAccount_of_room _ oscillator poolSeed hfirst wave
  have hroom' : (oscillator.seedAccount wave poolSeed).supplyTracker.circulating + poolSeed ≤
      totalWaveSupply := by
    rw [(hseeded wave).1]
    exact hroom
  have hseeded' := @seedAccount_of_room _ _ poolSeed hroom' usdc
  obtain ⟨hsupply, hstakes⟩ :=
    markNonDecaying_frame ((oscillator.seedAccount wave poolSeed).seedAccount usdc poolSeed) usdc
  refine ⟨?_, fun other ↦ ?_, hstakes.trans
    ((stakeTable_seedAccount _ usdc poolSeed).trans (stakeTable_seedAccount _ wave poolSeed))⟩
  · rw [hsupply, (hseeded' wave).1, (hseeded wave).1, Nat.add_assoc, ← Nat.two_mul]
  · rw [unitsOf_markNonDecaying, (hseeded' other).2, (hseeded other).2]
    by_cases hwave : wave = other
    · subst hwave
      rw [if_neg hpools.symm, if_pos rfl, if_pos (.inl rfl)]
    · by_cases husdc : usdc = other
      · subst husdc
        rw [if_pos rfl, if_neg hpools, if_pos (.inr rfl)]
      · rw [if_neg husdc, if_neg hwave, if_neg]
        rintro (rfl | rfl)
        · exact hwave rfl
        · exact husdc rfl

/-- A start does that. Assumes: the accounts are different, and nothing circulates. -/
theorem booted_boot {loaded : Oscillator platform} {localKeypair : KeyPair}
    (hdistinct : DistinctAccounts platform.primitives localKeypair)
    (hempty : loaded.supplyTracker.circulating = 0) (timestampNs : ℕ) :
    Booted (localKeypair.accountId platform.primitives) loaded
      (RunningNode.boot loaded localKeypair timestampNs).oscillator := by
  obtain ⟨hwave, husdc, hpools⟩ := hdistinct
  have hboot : (RunningNode.boot loaded localKeypair timestampNs).oscillator =
      withPool ((seededForBoot loaded localKeypair).applyStake (StakeShift.sign
        platform.primitives localKeypair genesisBalance 0 timestampNs)).1 :=
    boot_oscillator loaded localKeypair timestampNs
  set stake := StakeShift.sign platform.primitives localKeypair genesisBalance 0 timestampNs
  have hoperator : stake.operator = localKeypair.accountId platform.primitives := rfl
  have hamount : stake.amount = genesisBalance := rfl
  obtain ⟨hminted, hothers, hself, hstakes⟩ := @seededForBoot_spec _ loaded localKeypair hempty
  obtain ⟨hsupply, hlocked⟩ :=
    applyStake_frame (seededForBoot loaded localKeypair) stake
  have hannounced {other : AccountId} (hne : localKeypair.accountId platform.primitives ≠ other) :
      unitsOf ((seededForBoot loaded localKeypair).applyStake stake).1 other =
        unitsOf loaded other :=
    (unitsOf_applyStake _ stake (.inl hne.symm)).trans (hothers other hne)
  have hsmall : ((seededForBoot loaded localKeypair).applyStake
      stake).1.supplyTracker.circulating ≤ genesisBalance := by
    rw [hsupply, hminted]
    split_ifs
    · exact le_rfl
    · exact Nat.zero_le _
  obtain ⟨hcirculating, hunits, hstakes'⟩ := withPool_spec hpools hsmall
  rw [hboot]
  refine ⟨?_, ?_, fun hstaked ↦ ⟨?_, ?_⟩, ?_⟩
  · rw [hunits, if_pos (.inl rfl), hannounced hwave]
  · rw [hunits, if_pos (.inr rfl), hannounced husdc]
  · rw [hunits, if_neg (not_or.mpr ⟨hwave, husdc⟩), ← hself]
    exact unitsOf_applyStake _ stake (.inr (by rw [hoperator, hamount, hstakes, hstaked]))
  · rw [hstakes', hlocked (by rw [hoperator, hamount, hstakes, hstaked]), hstakes, hstaked]
  · rw [hcirculating, hsupply, hminted]

/-! ### What a restart loads -/

/-- The file is missing, or a save of some node wrote it. -/
def Written (file : Option (Snapshot platform)) : Prop :=
  ∀ snapshot, file = some snapshot →
    ∃ (oscillator : Oscillator platform) (order : SaveOrder), save oscillator order = .ok snapshot

/-- A file with a snapshot that a save wrote is loaded. Assumes: the save wrote the snapshot. -/
theorem reloaded_save {oscillator : Oscillator platform} {order : SaveOrder}
    {snapshot : Snapshot platform} (hsave : save oscillator order = .ok snapshot) (nttSize : ℕ)
    (localKeypair : KeyPair) :
    reloaded nttSize localKeypair (some snapshot) =
      readSnapshot (freshOscillator platform nttSize localKeypair)
        (snapshotOf oscillator order) := by
  rw [(save_eq_ok_iff.mp hsave).2]
  unfold reloaded
  rfl

/-- The file after a save that succeeds holds the state. Assumes: every stored clock is empty. -/
theorem saved_of_clocksEmpty {deployment : Deployment platform}
    (hempty : ClocksEmpty deployment.node.oscillator.dag) (order : SaveOrder) :
    deployment.saved order = some (snapshotOf deployment.node.oscillator order) := by
  unfold Deployment.saved
  rw [save_eq, if_pos hempty]
  rfl

/-- A save that fails leaves the file alone. Assumes: some stored clock has an entry. -/
theorem saved_of_clocked {deployment : Deployment platform}
    (hclocked : ¬ ClocksEmpty deployment.node.oscillator.dag) (order : SaveOrder) :
    deployment.saved order = deployment.file := by
  unfold Deployment.saved
  rw [save_eq, if_neg hclocked]
  rfl

/-- The file after an attempt to save is one that a save wrote. Assumes: a save wrote the file
before the attempt, if there was one. -/
theorem Written.saved {deployment : Deployment platform} (hwritten : Written deployment.file)
    (order : SaveOrder) : Written (deployment.saved order) := by
  by_cases hempty : ClocksEmpty deployment.node.oscillator.dag
  · rw [saved_of_clocksEmpty hempty]
    exact fun snapshot hsnapshot ↦ ⟨deployment.node.oscillator, order,
      save_eq_ok_iff.mpr ⟨hempty, (Option.some.inj hsnapshot).symm⟩⟩
  · rw [saved_of_clocked hempty]
    exact hwritten

/-- The file after a restart is one that a save wrote. Assumes: a save wrote the file before the
restart, if there was one. -/
theorem Written.restart {deployment : Deployment platform} (hwritten : Written deployment.file)
    (nttSize : ℕ) (order : SaveOrder) (timestampNs : ℕ) :
    Written (deployment.restart nttSize order timestampNs).file := by
  unfold Deployment.restart
  exact hwritten.saved order

/-- The clocks that a start loads are empty, as the snapshot has no others. Assumes: a save wrote
the file, if there is one. -/
theorem clocksEmpty_reloaded {file : Option (Snapshot platform)} (hwritten : Written file)
    (nttSize : ℕ) (localKeypair : KeyPair) :
    ClocksEmpty (reloaded nttSize localKeypair file).dag := by
  intro hash node hnode
  cases file with
  | none =>
    have hnone : (@reloaded platform nttSize localKeypair none).dag.nodes[hash]? =
        none := ExtTreeMap.getElem?_empty
    rw [hnone] at hnode
    cases hnode
  | some snapshot =>
    obtain ⟨oscillator, order, hsave⟩ := hwritten snapshot rfl
    rw [reloaded_save hsave] at hnode
    rcases getElem?_restore hashFromHex readNode ((snapshotOf oscillator order).dagNodes.map
        fun node ↦ (node.hash, node)) hash with ⟨entry, hentry, -, hread⟩ | ⟨hnone, -⟩
    · obtain rfl := Option.some.inj (hnode.symm.trans hread)
      obtain ⟨written, hwritten, rfl⟩ := List.mem_map.mp hentry
      obtain ⟨stored, hstored, rfl⟩ := List.mem_map.mp hwritten
      exact (save_eq_ok_iff.mp hsave).1 stored.1 stored.2
        (ExtTreeMap.mem_toList_iff_getElem?_eq_some.mp ((order.nodes.mem_visit _ _).mp hstored))
    · cases hnode.symm.trans hnone

/-- A start leaves the DAG that it loaded as it is. -/
theorem nodes_boot (loaded : Oscillator platform) (localKeypair : KeyPair) (timestampNs : ℕ) :
    (RunningNode.boot loaded localKeypair timestampNs).oscillator.dag.nodes = loaded.dag.nodes := by
  obtain ⟨history, hreaches⟩ := performs_boot loaded localKeypair timestampNs
  exact (ShiftFrame.of_reaches hreaches).nodes

/-- After a restart every stored clock is empty. Assumes: a save wrote the file, if there was one.
-/
theorem clocksEmpty_restart {deployment : Deployment platform} (hwritten : Written deployment.file)
    (nttSize : ℕ) (order : SaveOrder) (timestampNs : ℕ) :
    ClocksEmpty (deployment.restart nttSize order timestampNs).node.oscillator.dag := by
  unfold ClocksEmpty Deployment.restart
  dsimp only
  rw [nodes_boot]
  exact clocksEmpty_reloaded (hwritten.saved order) nttSize _

/-- A start counts no supply, whatever it loads. -/
theorem circulating_reloaded (nttSize : ℕ) (localKeypair : KeyPair)
    (file : Option (Snapshot platform)) :
    (reloaded nttSize localKeypair file).supplyTracker.circulating = 0 := by
  unfold reloaded load
  cases file with
  | none => rfl
  | some snapshot =>
    dsimp only
    split_ifs <;> rfl

/-! ### What a restart keeps -/

/-- A snapshot that is loaded restores the units of every account. -/
theorem unitsOf_readSnapshot (oscillator target : Oscillator platform) (order : SaveOrder)
    (account : AccountId) :
    unitsOf (readSnapshot target (snapshotOf oscillator order)) account =
      unitsOf oscillator account := by
  have haccounts : (readSnapshot target (snapshotOf oscillator order)).waveField.accounts = _ :=
    restore_visit accountFromHex_accountToHex order.accounts oscillator.waveField.accounts
      (fun _ balance ↦ AccountStateSer.mk balance.units balance.decays balance.lastActiveTick)
      fun _ state ↦ readAccount state
  unfold unitsOf WaveField.accountBalance
  rw [haccounts, ExtTreeMap.getD_eq_getD_getElem?, ExtTreeMap.getElem?_map,
    ExtTreeMap.getD_eq_getD_getElem?]
  cases oscillator.waveField.accounts[account]? <;> rfl

/-- A snapshot that is loaded restores every stake. -/
theorem getStake_readSnapshot (oscillator target : Oscillator platform) (order : SaveOrder)
    (operator : AccountId) :
    (readSnapshot target (snapshotOf oscillator order)).stakeTable.getStake operator =
      oscillator.stakeTable.getStake operator := by
  have hoperators : (readSnapshot target (snapshotOf oscillator order)).stakeTable.operators = _ :=
    (fromSnapshot_toSnapshot oscillator.stakeTable order.operators).2
  unfold StakeTable.getStake StakeTable.entry
  rw [hoperators]

/-- Two states have the same units and stakes. -/
structure SameHoldings (first second : Oscillator platform) : Prop where
  units : ∀ account, unitsOf first account = unitsOf second account
  stake : ∀ operator, first.stakeTable.getStake operator = second.stakeTable.getStake operator

/-- A restart goes on with the holdings of the node. Assumes: every stored clock is empty. -/
theorem sameHoldings_saved {deployment : Deployment platform}
    (hempty : ClocksEmpty deployment.node.oscillator.dag) (nttSize : ℕ) (localKeypair : KeyPair)
    (order : SaveOrder) :
    SameHoldings (reloaded nttSize localKeypair (deployment.saved order))
      deployment.node.oscillator := by
  rw [saved_of_clocksEmpty hempty, reloaded_save (save_eq_ok_iff.mpr ⟨hempty, rfl⟩)]
  exact ⟨unitsOf_readSnapshot deployment.node.oscillator _ order,
    getStake_readSnapshot deployment.node.oscillator _ order⟩

/-! ### Any number of restarts -/

/-- What one restart does to the units and the supply. Assumes: the accounts are different. -/
theorem booted_restart (nttSize : ℕ) {deployment : Deployment platform}
    (hdistinct : DistinctAccounts platform.primitives deployment.node.localKeypair)
    (order : SaveOrder) (timestampNs : ℕ) :
    Booted (deployment.node.localKeypair.accountId platform.primitives)
      (reloaded nttSize deployment.node.localKeypair (deployment.saved order))
      (deployment.restart nttSize order timestampNs).node.oscillator :=
  booted_boot hdistinct (circulating_reloaded nttSize _ _) timestampNs

/-- A restarted node has the same keypair. -/
theorem localKeypair_restart (nttSize : ℕ) (deployment : Deployment platform) (order : SaveOrder)
    (timestampNs : ℕ) :
    (deployment.restart nttSize order timestampNs).node.localKeypair =
      deployment.node.localKeypair :=
  boot_localKeypair _ _ _

/-- Seeding once more adds to units that were seeded some times. -/
theorem saturatingAdd_min (units count seed : ℕ) :
    saturatingAdd 128 (min (units + count * seed) (2 ^ 128 - 1)) seed =
      min (units + (count + 1) * seed) (2 ^ 128 - 1) := by
  unfold saturatingAdd
  rw [Nat.succ_mul]
  omega

/-- What some restarts make of the state that the first of them loads: they seed the pool as often,
on a count of the supply that starts anew, and keep the units and the stake of an operator with its
genesis stake. -/
structure Restarted (count : ℕ) (localAccount : AccountId) (loaded last : Oscillator platform) :
    Prop where
  wave : unitsOf last (poolAccounts platform.primitives).1 =
    min (unitsOf loaded (poolAccounts platform.primitives).1 + count * poolSeed) (2 ^ 128 - 1)
  usdc : unitsOf last (poolAccounts platform.primitives).2 =
    min (unitsOf loaded (poolAccounts platform.primitives).2 + count * poolSeed) (2 ^ 128 - 1)
  circulating : last.supplyTracker.circulating ≤ genesisBalance + 2 * poolSeed
  operator : loaded.stakeTable.getStake localAccount = genesisBalance →
    last.stakeTable.getStake localAccount = genesisBalance ∧
    unitsOf last localAccount =
      if unitsOf loaded localAccount = 0 then genesisBalance else unitsOf loaded localAccount

/-- The count of the supply after a restart is at most that of a genesis balance and the seeds of
the pool. -/
theorem Booted.circulating_le {localAccount : AccountId} {loaded booted : Oscillator platform}
    (hbooted : Booted localAccount loaded booted) :
    booted.supplyTracker.circulating ≤ genesisBalance + 2 * poolSeed := by
  rw [hbooted.circulating]
  refine Nat.add_le_add_right ?_ _
  split_ifs
  · exact le_rfl
  · exact Nat.zero_le _

/-- The first start does that to what it loads. Assumes: the node started from what was loaded. -/
theorem Booted.restarted {localAccount : AccountId} {loaded booted : Oscillator platform}
    (hbooted : Booted localAccount loaded booted) : Restarted 1 localAccount loaded booted := by
  refine ⟨?_, ?_, hbooted.circulating_le, fun hstaked ↦ (hbooted.operator hstaked).symm⟩
  · rw [hbooted.wave, Nat.one_mul]
    rfl
  · rw [hbooted.usdc, Nat.one_mul]
    rfl

/-- A further start does it once more. Assumes: the further start loads the holdings of the state.
-/
theorem Restarted.booted {count : ℕ} {localAccount : AccountId}
    {loaded last again booted : Oscillator platform}
    (hrestarted : Restarted count localAccount loaded last) (hsame : SameHoldings again last)
    (hbooted : Booted localAccount again booted) :
    Restarted (count + 1) localAccount loaded booted := by
  refine ⟨?_, ?_, hbooted.circulating_le, fun hstaked ↦ ?_⟩
  · rw [hbooted.wave, hsame.units, hrestarted.wave, saturatingAdd_min]
  · rw [hbooted.usdc, hsame.units, hrestarted.usdc, saturatingAdd_min]
  · obtain ⟨hstake, hliquid⟩ := hrestarted.operator hstaked
    obtain ⟨hliquid', hstake'⟩ := hbooted.operator ((hsame.stake localAccount).trans hstake)
    refine ⟨hstake', hliquid'.trans ?_⟩
    rw [hsame.units, hliquid]
    by_cases hzero : unitsOf loaded localAccount = 0
    · rw [if_pos hzero, if_neg (by decide)]
    · rw [if_neg hzero, if_neg hzero]

/-- Any number of restarts does it as often, and keeps the keypair, and the next save succeeds.
Assumes: the accounts are different, and a save wrote the file, if there is one. -/
theorem restarted_restarts (nttSize : ℕ) {deployment : Deployment platform}
    (hwritten : Written deployment.file)
    (hdistinct : DistinctAccounts platform.primitives deployment.node.localKeypair)
    (first : SaveOrder × ℕ) (rounds : List (SaveOrder × ℕ)) :
    let last := deployment.restarts nttSize (first :: rounds)
    last.node.localKeypair = deployment.node.localKeypair ∧ Written last.file ∧
    ClocksEmpty last.node.oscillator.dag ∧
    Restarted (rounds.length + 1) (deployment.node.localKeypair.accountId platform.primitives)
      (reloaded nttSize deployment.node.localKeypair (deployment.saved first.1))
      last.node.oscillator := by
  induction rounds using List.reverseRecOn with
  | nil =>
    have hone : deployment.restarts nttSize [first] =
        deployment.restart nttSize first.1 first.2 := by
      unfold Deployment.restarts
      rw [List.foldl_cons, List.foldl_nil]
    rw [hone]
    exact ⟨localKeypair_restart nttSize deployment first.1 first.2,
      hwritten.restart nttSize first.1 first.2,
      clocksEmpty_restart hwritten nttSize first.1 first.2,
      (booted_restart nttSize hdistinct first.1 first.2).restarted⟩
  | append_singleton rounds round ih =>
    obtain ⟨hkeypair, hfile, hempty, hrestarted⟩ := ih
    have hlast : deployment.restarts nttSize (first :: (rounds ++ [round])) =
        (deployment.restarts nttSize (first :: rounds)).restart nttSize round.1 round.2 := by
      unfold Deployment.restarts
      rw [← List.cons_append, List.foldl_append, List.foldl_cons, List.foldl_nil]
    rw [hlast, List.length_append]
    set before := deployment.restarts nttSize (first :: rounds)
    have hbooted := booted_restart nttSize (hkeypair ▸ hdistinct) round.1 round.2
    rw [hkeypair] at hbooted
    exact ⟨(localKeypair_restart nttSize before round.1 round.2).trans hkeypair,
      hfile.restart nttSize round.1 round.2, clocksEmpty_restart hfile nttSize round.1 round.2,
      hrestarted.booted (sameHoldings_saved hempty nttSize _ round.1) hbooted⟩

/-- Every restart mints the pool once more. From any state of a node, with any file that a save
wrote, the first of some restarts loads the holdings of the node if every stored clock is empty, and
otherwise what the file has; after them the pool holds one seed more than that for each of them, in
WAVE and in USDC, while the supply that is counted is at most a genesis balance and two seeds, as
after the first start; from 10,001 restarts on the WAVE account of the pool alone exceeds the total
supply. An operator with its genesis stake and no liquid units gets a second genesis balance.
Assumes: a save wrote the file, if there is one, and the account of the operator and those of the
pool are different. -/
theorem restarts_inflate {nttSize : ℕ} {deployment : Deployment platform}
    (hwritten : Written deployment.file)
    (hdistinct : DistinctAccounts platform.primitives deployment.node.localKeypair)
    (first : SaveOrder × ℕ) (rounds : List (SaveOrder × ℕ)) :
    ∃ loaded : Oscillator platform,
      (ClocksEmpty deployment.node.oscillator.dag →
        SameHoldings loaded deployment.node.oscillator) ∧
      (¬ ClocksEmpty deployment.node.oscillator.dag →
        loaded = reloaded nttSize deployment.node.localKeypair deployment.file) ∧
      Restarted (rounds.length + 1) (deployment.node.localKeypair.accountId platform.primitives)
        loaded (deployment.restarts nttSize (first :: rounds)).node.oscillator ∧
      (10000 < rounds.length + 1 →
        totalWaveSupply < unitsOf (deployment.restarts nttSize (first :: rounds)).node.oscillator
          (poolAccounts platform.primitives).1) := by
  obtain ⟨-, -, -, hrestarted⟩ := restarted_restarts nttSize hwritten hdistinct first rounds
  refine ⟨_, fun hempty ↦ sameHoldings_saved hempty nttSize _ first.1, fun hclocked ↦ ?_,
    hrestarted, fun hmany ↦ ?_⟩
  · rw [saved_of_clocked hclocked]
  · rw [hrestarted.wave]
    have hseeds : totalWaveSupply < (rounds.length + 1) * poolSeed := calc
      totalWaveSupply < 10001 * poolSeed := by decide
      _ ≤ (rounds.length + 1) * poolSeed := Nat.mul_le_mul_right _ hmany
    exact lt_min (hseeds.trans_le (Nat.le_add_left _ _)) (by decide)

/-- A new node that is restarted twice. The pool holds three seeds of WAVE, and the operator, whose
genesis balance is locked as stake, a second genesis balance. -/
theorem restarts_inflate_twice :
    let last := (⟨walletNode, none⟩ : Deployment walletPlatform).restarts 8
      [(.forward, 1), (.forward, 2)]
    DistinctAccounts walletPlatform.primitives ⟨3⟩ ∧
    unitsOf last.node.oscillator (poolAccounts walletPlatform.primitives).1 = 3 * poolSeed ∧
    unitsOf last.node.oscillator ((⟨3⟩ : KeyPair).accountId walletPlatform.primitives) =
      genesisBalance ∧
    last.node.oscillator.stakeTable.getStake
      ((⟨3⟩ : KeyPair).accountId walletPlatform.primitives) = genesisBalance := by
  intro last
  have hdistinct : DistinctAccounts walletPlatform.primitives ⟨3⟩ := by
    unfold DistinctAccounts
    decide +kernel
  have hfacts : ClocksEmpty walletNode.oscillator.dag ∧
      unitsOf walletNode.oscillator (poolAccounts walletPlatform.primitives).1 = poolSeed ∧
      unitsOf walletNode.oscillator ((⟨3⟩ : KeyPair).accountId walletPlatform.primitives) = 0 ∧
      walletNode.oscillator.stakeTable.getStake
        ((⟨3⟩ : KeyPair).accountId walletPlatform.primitives) = genesisBalance := by
    decide +kernel
  obtain ⟨hempty, hwave, hliquid, hstaked⟩ := hfacts
  have hkeypair : walletNode.localKeypair = ⟨3⟩ := boot_localKeypair _ _ _
  obtain ⟨loaded, hsame, -, hrestarted, -⟩ := @restarts_inflate walletPlatform 8
    ⟨walletNode, none⟩ (fun _ hnone ↦ absurd hnone (Option.some_ne_none _).symm)
    (by rwa [hkeypair]) (.forward, 1) [(.forward, 2)]
  rw [show (⟨walletNode, none⟩ : Deployment walletPlatform).restarts 8
    [(.forward, 1), (.forward, 2)] = last from rfl] at hrestarted
  dsimp only at hsame
  have hholdings := hsame hempty
  have hoperator := hrestarted.operator
  rw [hkeypair, hholdings.units, hholdings.stake] at hoperator
  obtain ⟨hstaked', hliquid'⟩ := hoperator hstaked
  have hseeds := hrestarted.wave
  have hthree : min (poolSeed + (1 + 1) * poolSeed) (2 ^ 128 - 1) = 3 * poolSeed := by decide
  rw [hholdings.units, hwave, List.length_singleton, hthree] at hseeds
  rw [if_pos hliquid] at hliquid'
  exact ⟨hdistinct, hseeds, hliquid', hstaked'⟩

end Fluidic.Node
