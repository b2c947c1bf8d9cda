import Fluidic.Consensus.Synthesis

/-!
# The state of the HTTP API

`src/api/state.rs`: the key registry of a node, the map from token accounts to their owners, the
accounts of the liquidity pool with their deterministic keypair, the quotes and the payout shift of
a swap. The statistics, the list of recent shifts and the channels to peers and clients are not read
by the code modelled here and are left out.
-/

set_option autoImplicit false
set_option relaxedAutoImplicit false

namespace Fluidic.Api

open Library Crypto Consensus
open Std (ExtTreeMap)

/-- The account of a base account and a salt. -/
def deriveAccount (prim : Primitives) (base : AccountId) (salt : String) : AccountId :=
  ⟨prim.blake3 (asciiBytes "fluidic:derived-account:v1" ++ base.bytes.toBytes ++ asciiBytes salt)⟩

/-- The two token accounts of an account. -/
def tokenAccounts (prim : Primitives) (userAccount : AccountId) : AccountId × AccountId :=
  (deriveAccount prim userAccount "WAVE", deriveAccount prim userAccount "USDC")

/-- The state behind the API of a node. -/
structure ApiState (platform : Platform) where
  oscillator : Oscillator platform
  registry : KeyRegistry
  derivedToMain : ExtTreeMap AccountId AccountId
  poolKeypair : KeyPair
  poolWaveAccount : AccountId
  poolUsdcAccount : AccountId

/-- The sub-units each pool is seeded with: 100,000 tokens. -/
def poolSeed : ℕ := 100000000000000000

namespace ApiState

variable {platform : Platform}

/-- Enter a key under an account. -/
def registerKey (state : ApiState platform) (account : AccountId) (key : VerifyingKey) :
    ApiState platform :=
  { state with registry := state.registry.insert account key }

/-- Map a token account to its owner. -/
def registerDerived (state : ApiState platform) (derived main : AccountId) : ApiState platform :=
  { state with derivedToMain := state.derivedToMain.insert derived main }

/-- The owner of a token account. -/
def mainAccount (state : ApiState platform) (derived : AccountId) : Option AccountId :=
  state.derivedToMain[derived]?

/-- The state over a node: the pools are seeded and their keys registered. -/
def new (oscillator : Oscillator platform) : ApiState platform :=
  let prim := platform.primitives
  let poolKeypair : KeyPair := ⟨0⟩
  let (poolWaveAccount, poolUsdcAccount) := tokenAccounts prim (poolKeypair.accountId prim)
  let seeded := ((oscillator.seedAccount poolWaveAccount poolSeed).seedAccount poolUsdcAccount
    poolSeed).markNonDecaying poolUsdcAccount
  let state : ApiState platform :=
    { oscillator := seeded, registry := ∅, derivedToMain := ∅, poolKeypair, poolWaveAccount
      poolUsdcAccount }
  (state.registerKey poolWaveAccount (poolKeypair.publicKey prim)).registerKey poolUsdcAccount
    (poolKeypair.publicKey prim)

/-- The units of an account in the wave-field. -/
def unitsOf (state : ApiState platform) (account : AccountId) : ℕ :=
  (state.oscillator.waveField.accountBalance account).units

/-- The payout for swapping WAVE into the pool. -/
def waveToUsdcOut (state : ApiState platform) (waveIn : ℕ) : ℕ :=
  let wave := state.unitsOf state.poolWaveAccount
  let usdc := state.unitsOf state.poolUsdcAccount
  if wave = 0 then 0 else saturatingMul 128 waveIn usdc / wave

/-- The payout for swapping USDC into the pool. -/
def usdcToWaveOut (state : ApiState platform) (usdcIn : ℕ) : ℕ :=
  let wave := state.unitsOf state.poolWaveAccount
  let usdc := state.unitsOf state.poolUsdcAccount
  if usdc = 0 then 0 else saturatingMul 128 usdcIn wave / usdc

end ApiState

/-- The payout of a swap, signed with the keypair of the pool. -/
def buildPoolPayoutShift (prim : Primitives) (poolKeypair : KeyPair) (sender recipient : AccountId)
    (amount nonce : ℕ) (tip : VectorClock) : StatefulShift :=
  let unsigned : StatefulShift :=
    { domain := defaultDexDomain
      sender
      recipient
      amount
      vectorClock := tip.tick sender.bytes
      predecessors := []
      nonce
      timestampNs := 0
      firstSeenAtNs := 0
      signature := [] }
  { unsigned with signature := poolKeypair.sign prim unsigned.signingBytes }

end Fluidic.Api
