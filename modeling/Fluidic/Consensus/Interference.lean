import Fluidic.Consensus.CommutativePhase
import Fluidic.Library.LabelledRun

/-!
# Forged shifts and the others

A stateful shift is forged when it does not verify under the key that the registry has for its
sender. Such a shift never enters the DAG, but a node records its nonce and its signature before any
signature is checked, so that it can shadow a shift of its alleged sender (`shadowed_victim`).

A node with the forged shifts and one without them differ in the replay records, in the queue and in
the reasons of failed insertions, and a synthesis reads none of these except the queue
(`synthesize_masked`). As long as no forged shift shadows a signal that remains, the two nodes apply
the same shifts to the same balances (`forged_without_effect`).
-/

set_option autoImplicit false
set_option relaxedAutoImplicit false

namespace Fluidic.Consensus

open Library Crypto Fluidic.Field Value Operator
open Std (ExtTreeMap LawfulEqCmp)

/-- Whether a stateful shift fails to verify under the key of its sender. -/
def isForged (prim : Primitives) (keys : KeyRegistry) (shift : StatefulShift) : Bool :=
  match keys[shift.sender]? with
  | none => true
  | some publicKey => !shift.verifySignature prim publicKey

/-- A queue and the same queue without some of the shifts. -/
inductive Pruned (dropped : StatefulShift → Prop) :
    List StatefulShift → List StatefulShift → Prop
  | nil : Pruned dropped [] []
  | keep {queue pruned : List StatefulShift} (shift : StatefulShift) :
      Pruned dropped queue pruned → Pruned dropped (shift :: queue) (shift :: pruned)
  | drop {queue pruned : List StatefulShift} {shift : StatefulShift} :
      dropped shift → Pruned dropped queue pruned → Pruned dropped (shift :: queue) pruned

namespace Pruned

variable {dropped : StatefulShift → Prop}

theorem refl (queue : List StatefulShift) : Pruned dropped queue queue := by
  induction queue with
  | nil => exact .nil
  | cons shift queue ih => exact .keep shift ih

theorem append {queue pruned queue' pruned' : List StatefulShift}
    (hfirst : Pruned dropped queue pruned) (hsecond : Pruned dropped queue' pruned') :
    Pruned dropped (queue ++ queue') (pruned ++ pruned') := by
  induction hfirst with
  | nil => exact hsecond
  | keep shift _ ih => exact .keep shift ih
  | drop hdropped _ ih => exact .drop hdropped ih

theorem mono {dropped' : StatefulShift → Prop} (hsub : ∀ shift, dropped shift → dropped' shift)
    {queue pruned : List StatefulShift} (hpruned : Pruned dropped queue pruned) :
    Pruned dropped' queue pruned := by
  induction hpruned with
  | nil => exact .nil
  | keep shift _ ih => exact .keep shift ih
  | drop hdropped _ ih => exact .drop (hsub _ hdropped) ih

end Pruned

/-! ### The DAG -/

/-- Two DAGs that differ in the reasons of failed insertions, and there only for some hashes. -/
def SameNodes (tainted : TxHash → Prop) (full clean : VectorClockDag) : Prop :=
  ∃ rejected, full = { clean with rejected } ∧
    ∀ hash, ¬tainted hash → rejected[hash]? = clean.rejected[hash]?

namespace SameNodes

variable {tainted : TxHash → Prop} {full clean : VectorClockDag}

/-- The same insertion fails in both DAGs. -/
theorem reject (hsame : SameNodes tainted full clean) (hash : TxHash) (error : DagError) :
    SameNodes tainted (full.reject hash error) (clean.reject hash error) := by
  obtain ⟨rejected, rfl, hagree⟩ := hsame
  refine ⟨rejected.insert hash error, rfl, fun other hother ↦ ?_⟩
  have hclean : (clean.reject hash error).rejected = clean.rejected.insert hash error := rfl
  rw [hclean, ExtTreeMap.getElem?_insert, ExtTreeMap.getElem?_insert, hagree other hother]

/-- An insertion fails in the first DAG only. Assumes: the hash of the insertion is one of those
excepted. -/
theorem reject_left (hsame : SameNodes tainted full clean) {hash : TxHash} (error : DagError)
    (htainted : tainted hash) : SameNodes tainted (full.reject hash error) clean := by
  obtain ⟨rejected, rfl, hagree⟩ := hsame
  refine ⟨rejected.insert hash error, rfl, fun other hother ↦ ?_⟩
  have hne : hash ≠ other := fun heq ↦ hother (heq ▸ htainted)
  rw [getElem?_insert_of_ne _ hne, hagree other hother]

/-- The same shift is inserted into both DAGs. -/
theorem insert (hsame : SameNodes tainted full clean) (prim : Primitives) (shift : StatefulShift)
    (publicKey : VerifyingKey) (tick depth : ℕ) :
    SameNodes tainted (full.insert prim shift publicKey tick depth).1
      (clean.insert prim shift publicKey tick depth).1 := by
  have hrejects := hsame.reject
  obtain ⟨rejected, rfl, hagree⟩ := hsame
  unfold VectorClockDag.insert
  dsimp only
  split_ifs
  · exact hrejects _ _
  · exact ⟨rejected, rfl, hagree⟩
  · cases shift.predecessors.find? fun predecessor ↦ !clean.nodes.contains predecessor with
    | none => exact ⟨rejected, rfl, hagree⟩
    | some missing => exact hrejects _ _

end SameNodes

namespace Oscillator

variable {platform : Platform}

/-- The same shift is moved into both DAGs. -/
theorem sameNodes_admitShift {tainted : TxHash → Prop} (registry : DomainRegistry)
    (keys : KeyRegistry) (tick : ℕ) {full clean : VectorClockDag × List DagError}
    (hsame : SameNodes tainted full.1 clean.1) (shift : StatefulShift) :
    SameNodes tainted (admitShift platform.primitives registry keys tick full shift).1
      (admitShift platform.primitives registry keys tick clean shift).1 := by
  unfold admitShift
  cases keys[shift.sender]? with
  | none => exact hsame
  | some publicKey =>
    have hinserted := hsame.insert platform.primitives shift publicKey tick
      (depthOf registry shift.domain)
    dsimp only
    revert hinserted
    rcases full.1.insert platform.primitives shift publicKey tick (depthOf registry shift.domain)
      with ⟨full', _ | _⟩ <;>
    rcases clean.1.insert platform.primitives shift publicKey tick (depthOf registry shift.domain)
      with ⟨clean', _ | _⟩ <;>
    exact id

/-- A forged shift is moved into the first DAG only. Assumes: the hash of the shift is one of those
excepted. -/
theorem sameNodes_admitForged {tainted : TxHash → Prop} (registry : DomainRegistry)
    {keys : KeyRegistry} (tick : ℕ) {full clean : VectorClockDag × List DagError}
    (hsame : SameNodes tainted full.1 clean.1) {shift : StatefulShift}
    (hforged : isForged platform.primitives keys shift = true)
    (htainted : tainted (shift.hash platform.primitives)) :
    SameNodes tainted (admitShift platform.primitives registry keys tick full shift).1 clean.1 := by
  unfold isForged at hforged
  unfold admitShift
  cases hkey : keys[shift.sender]? with
  | none => exact hsame
  | some publicKey =>
    rw [hkey] at hforged
    unfold VectorClockDag.insert
    dsimp only at hforged ⊢
    rw [if_pos hforged]
    exact hsame.reject_left _ htainted

/-- A queue and the queue without the forged shifts are moved into the DAGs. -/
theorem sameNodes_foldl {tainted : TxHash → Prop} (registry : DomainRegistry)
    (keys : KeyRegistry) (tick : ℕ) {queue pruned : List StatefulShift}
    (hpruned : Pruned (fun shift ↦ isForged platform.primitives keys shift = true ∧
      tainted (shift.hash platform.primitives)) queue pruned)
    {full clean : VectorClockDag × List DagError} (hsame : SameNodes tainted full.1 clean.1) :
    SameNodes tainted
      (queue.foldl (admitShift platform.primitives registry keys tick) full).1
      (pruned.foldl (admitShift platform.primitives registry keys tick) clean).1 := by
  induction hpruned generalizing full clean with
  | nil => exact hsame
  | keep shift _ ih => exact ih (sameNodes_admitShift registry keys tick hsame shift)
  | drop hforged _ ih => exact ih (sameNodes_admitForged registry tick hsame hforged.1 hforged.2)

/-! ### One synthesis -/

/-- A node with other replay records, another queue and other reasons of failed insertions. -/
def masked (oscillator : Oscillator platform) (pendingStateful : List StatefulShift)
    (seenNonces : ExtTreeMap (AccountId × DomainId) ℕ) (seenSignatures : Finset (List UInt8))
    (rejected : ExtTreeMap TxHash DagError) : Oscillator platform :=
  { oscillator with
    pendingStateful, seenNonces, seenSignatures, dag := { oscillator.dag with rejected } }

/-- The node as the loop sees it, with the batches and the queue spelled out. -/
theorem prepared_verdicts (oscillator : Oscillator platform) (keys : KeyRegistry)
    (order : SynthesisOrder) :
    oscillator.prepared keys order =
      { (oscillator.decayPhase oscillator.synthesisTick).1 with
        waveField := fieldAfter order (batchField oscillator) (order.domains.visit
          (byDomain oscillator.domainRegistry oscillator.pendingCommutative).toList)
        dag := oscillator.preparedDag keys order
        pendingCommutative := requeued (oscillator.tickVerdicts order)
        pendingStateful := []
        synthesisTick := wrappingAdd 64 oscillator.synthesisTick 1 } := by
  unfold prepared prepare
  dsimp only
  rw [commutativePhase_eq_verdicts]
  rfl

/-- The value decayed in a tick. -/
theorem prepare_decayed (oscillator : Oscillator platform) (keys : KeyRegistry)
    (order : SynthesisOrder) :
    (oscillator.prepare keys order).2.2.2.1 =
      (oscillator.decayPhase oscillator.synthesisTick).2 := rfl

section Masked

variable (oscillator : Oscillator platform) (pendingStateful : List StatefulShift)
  (seenNonces : ExtTreeMap (AccountId × DomainId) ℕ) (seenSignatures : Finset (List UInt8))
  (rejected : ExtTreeMap TxHash DagError)

/-- The prepared DAG of a masked node has the same nodes. Assumes: the queue of the masked node is
that of the node and shifts that are forged. -/
theorem preparedDag_masked {tainted : TxHash → Prop} {keys : KeyRegistry}
    (hpruned : Pruned (fun shift ↦ isForged platform.primitives keys shift = true ∧
      tainted (shift.hash platform.primitives)) pendingStateful oscillator.pendingStateful)
    (hagree : ∀ hash, ¬tainted hash → rejected[hash]? = oscillator.dag.rejected[hash]?)
    (order : SynthesisOrder) :
    SameNodes tainted
      ((oscillator.masked pendingStateful seenNonces seenSignatures rejected).preparedDag keys
        order)
      (oscillator.preparedDag keys order) := by
  have hsynced : SameNodes tainted
      (oscillator.masked pendingStateful seenNonces seenSignatures rejected).syncedDag
      oscillator.syncedDag := ⟨rejected, rfl, hagree⟩
  obtain ⟨rejected', hchecked, hagree'⟩ := @sameNodes_foldl platform tainted
    oscillator.domainRegistry keys oscillator.synthesisTick _ _ hpruned (_, []) (_, []) hsynced
  refine ⟨rejected', ?_, hagree'⟩
  have hsame : (oscillator.masked pendingStateful seenNonces seenSignatures rejected).checkedDag
      keys = { oscillator.checkedDag keys with rejected := rejected' } := hchecked
  unfold preparedDag markedDag
  rw [hsame]
  rfl

/-- The sections before the loop of a masked node. Assumes: the prepared DAG has the same nodes. -/
theorem prepare_masked {keys : KeyRegistry} {order : SynthesisOrder}
    {rejected' : ExtTreeMap TxHash DagError}
    (hdag : (oscillator.masked pendingStateful seenNonces seenSignatures rejected).preparedDag keys
      order = { oscillator.preparedDag keys order with rejected := rejected' }) :
    (oscillator.masked pendingStateful seenNonces seenSignatures rejected).prepared keys order =
      (oscillator.prepared keys order).masked [] seenNonces seenSignatures rejected' ∧
    ((oscillator.masked pendingStateful seenNonces seenSignatures rejected).prepare keys
      order).2.1 =
      (oscillator.prepare keys order).2.1 ∧
    ((oscillator.masked pendingStateful seenNonces seenSignatures rejected).prepare keys
      order).2.2.1 = (oscillator.prepare keys order).2.2.1 ∧
    ((oscillator.masked pendingStateful seenNonces seenSignatures rejected).prepare keys
      order).2.2.2.1 = (oscillator.prepare keys order).2.2.2.1 := by
  obtain ⟨-, hcount, hroot⟩ := oscillator.prepare_eq_verdicts keys order
  obtain ⟨-, hcount', hroot'⟩ := (oscillator.masked pendingStateful seenNonces seenSignatures
    rejected).prepare_eq_verdicts keys order
  have hverdicts : (oscillator.masked pendingStateful seenNonces seenSignatures
    rejected).tickVerdicts order = oscillator.tickVerdicts order := rfl
  have htick : (oscillator.masked pendingStateful seenNonces seenSignatures
    rejected).synthesisTick = oscillator.synthesisTick := rfl
  refine ⟨?_, ?_, ?_, ?_⟩
  · rw [prepared_verdicts, prepared_verdicts, hdag]
    rfl
  · rw [hcount', hcount, hverdicts]
  · rw [hroot', hroot, hverdicts, htick]
  · rw [prepare_decayed, prepare_decayed]
    rfl

/-- Charging the fees of a masked node. -/
theorem chargeFees_masked (hashes : List TxHash) (totalFees : ℕ) :
    (oscillator.masked pendingStateful seenNonces seenSignatures rejected).chargeFees hashes
        totalFees =
      (oscillator.chargeFees hashes totalFees).masked pendingStateful seenNonces seenSignatures
        rejected := by
  unfold chargeFees
  split_ifs <;> rfl

/-- Certifying the tick of a masked node. -/
theorem certify_masked (keys : KeyRegistry) (tick timestampNs : ℕ) (result : SynthesisResult)
    (root : Bytes32) (hashes : List TxHash) (evmHashes : List Evm.H256)
    (statefulRejected : List DagError) :
    (oscillator.masked pendingStateful seenNonces seenSignatures rejected).certify keys tick
        timestampNs { result with statefulRejected } root hashes evmHashes =
      (oscillator.certify keys tick timestampNs result root hashes evmHashes).masked pendingStateful
        seenNonces seenSignatures rejected := by
  unfold certify
  have hkeypair : (oscillator.masked pendingStateful seenNonces seenSignatures
    rejected).operatorKeypair = oscillator.operatorKeypair := rfl
  have hstakes : (oscillator.masked pendingStateful seenNonces seenSignatures
    rejected).stakeTable = oscillator.stakeTable := rfl
  rw [hkeypair, hstakes]
  cases oscillator.operatorKeypair with
  | none => rfl
  | some keypair =>
    dsimp only
    split_ifs <;> rfl

/-- The sections after the loop of a masked node. -/
theorem finish_masked (keys : KeyRegistry) (order : SynthesisOrder) (tick timestampNs applied : ℕ)
    (root : Bytes32) (decayed : ℕ) (errors errors' : List DagError) (ledger : Ledger) :
    (oscillator.masked pendingStateful seenNonces seenSignatures rejected).finish keys order tick
        timestampNs applied root decayed errors' ledger =
      (oscillator.finish keys order tick timestampNs applied root decayed errors ledger).map
        fun final ↦ (final.1.masked pendingStateful seenNonces seenSignatures rejected,
          { final.2.1 with statefulRejected := errors' ++ ledger.rejected }, final.2.2) := by
  unfold finish
  have hpool : (oscillator.masked pendingStateful seenNonces seenSignatures rejected).evmPool =
    oscillator.evmPool := rfl
  rw [hpool]
  cases oscillator.evmPool.synthesize platform.primitives order.addresses ledger.balances tick with
  | none => rfl
  | some outcome =>
    obtain ⟨evmPool, balances, evmHashes⟩ := outcome
    have hcharged := chargeFees_masked { oscillator with evmPool } pendingStateful seenNonces
      seenSignatures rejected ledger.hashes ledger.totalFees
    have hcertified := certify_masked
      ((({ oscillator with evmPool }.chargeFees ledger.hashes ledger.totalFees).commit ledger.hashes
        balances).syncDagIntoField tick ledger.activeAccounts balances) pendingStateful seenNonces
      seenSignatures rejected keys tick timestampNs
      { commutativeApplied := applied
        statefulApplied := ledger.hashes.length
        evmApplied := evmHashes.length
        statefulRejected := errors ++ ledger.rejected
        finalBalances := balances
        metabolicBurned := decayed } root ledger.hashes evmHashes (errors' ++ ledger.rejected)
    simp only [bind, Option.bind_some, pure, Option.map_some]
    rw [← hcertified]
    unfold masked at hcharged ⊢
    rw [hcharged]
    rfl

/-- A round of the loop in a masked node. -/
theorem applyShift_masked (keys : KeyRegistry) (order : SynthesisOrder) :
    (oscillator.masked pendingStateful seenNonces seenSignatures rejected).applyShift keys order =
      oscillator.applyShift keys order := rfl

end Masked

/-- A synthesis keeps the reasons of failed insertions that it found while it inserted. Assumes: the
synthesis returns. -/
theorem rejected_synthesize {oscillator final : Oscillator platform} {keys : KeyRegistry}
    {order : SynthesisOrder} {timestampNs : ℕ} {result : SynthesisResult} {hashes : List TxHash}
    (hsynthesize : oscillator.synthesize keys order timestampNs = some (final, result, hashes)) :
    final.dag.rejected = (oscillator.preparedDag keys order).rejected := by
  rcases synthesize_cases hsynthesize with ⟨error, -, rfl, -⟩ |
    ⟨placed, ledger, applied, root, decayed, rejected, -, -, hfinish⟩
  · rw [prepared_dag]
  · obtain ⟨evmPool, balances, evmHashes, waveField, rewardPool, -, -, -, -, hfinal⟩ :=
      finish_cases hfinish
    rw [hfinal, ← prepared_dag]
    rcases certify_cases _ keys oscillator.synthesisTick timestampNs result root hashes
      evmHashes with hnone | ⟨cert, certificates, -, -, -, -, hsome⟩
    · rw [hnone]
    · rw [hsome]
      rfl

/-- A synthesis of a masked node does what that of the node does. Assumes: the synthesis returns,
the queue of the masked node has forged shifts besides those of the node, and the reasons of failed
insertions agree. -/
theorem synthesize_masked {oscillator : Oscillator platform}
    {pendingStateful : List StatefulShift} {seenNonces : ExtTreeMap (AccountId × DomainId) ℕ}
    {seenSignatures : Finset (List UInt8)} {rejected : ExtTreeMap TxHash DagError}
    {tainted : TxHash → Prop} {keys : KeyRegistry}
    (hpruned : Pruned (fun shift ↦ isForged platform.primitives keys shift = true ∧
      tainted (shift.hash platform.primitives)) pendingStateful oscillator.pendingStateful)
    (hagree : ∀ hash, ¬tainted hash → rejected[hash]? = oscillator.dag.rejected[hash]?)
    {order : SynthesisOrder} {timestampNs : ℕ} {final' : Oscillator platform}
    {result' : SynthesisResult} {hashes : List TxHash}
    (hsynthesize : (oscillator.masked pendingStateful seenNonces seenSignatures rejected).synthesize
      keys order timestampNs = some (final', result', hashes)) :
    ∃ final result rejected',
      oscillator.synthesize keys order timestampNs = some (final, result, hashes) ∧
      final' = final.masked [] seenNonces seenSignatures rejected' ∧
      result' = { result with statefulRejected := result'.statefulRejected } ∧
      ∀ hash, ¬tainted hash → rejected'[hash]? = final.dag.rejected[hash]? := by
  obtain ⟨rejected', hdag, hagree'⟩ := preparedDag_masked oscillator pendingStateful seenNonces
    seenSignatures rejected hpruned hagree order
  obtain ⟨hprepared, hcount, hroot, hdecayed⟩ := prepare_masked oscillator pendingStateful
    seenNonces seenSignatures rejected hdag
  have hordered : ({ oscillator.preparedDag keys order with
      rejected := rejected' } : VectorClockDag).topologicalOrder order.toDagOrder =
    (oscillator.preparedDag keys order).topologicalOrder order.toDagOrder := rfl
  rw [synthesize_eq, hdag, hordered, hprepared, applyShift_masked, hcount, hroot, hdecayed]
    at hsynthesize
  have hclean : ∃ final result,
      oscillator.synthesize keys order timestampNs = some (final, result, hashes) ∧
      final' = final.masked [] seenNonces seenSignatures rejected' ∧
      result' = { result with statefulRejected := result'.statefulRejected } := by
    rw [synthesize_eq]
    obtain ⟨outcome, houtcome, hrest⟩ := Option.bind_eq_some_iff.mp hsynthesize
    rw [houtcome]
    cases outcome with
    | error error =>
      obtain ⟨hfinal, hresult, hhashes⟩ := by
        simpa only [Option.some.injEq, Prod.mk.injEq] using hrest
      rw [← hfinal, ← hresult, ← hhashes]
      exact ⟨_, _, rfl, rfl, rfl⟩
    | ok placed =>
      obtain ⟨ledger, hloop, hfinish⟩ := Option.bind_eq_some_iff.mp hrest
      have htick : (oscillator.masked pendingStateful seenNonces seenSignatures
        rejected).synthesisTick = oscillator.synthesisTick := rfl
      rw [htick, finish_masked _ _ _ _ _ _ _ _ _ _ _ _ (oscillator.prepare keys order).2.2.2.2,
        Option.map_eq_some_iff] at hfinish
      obtain ⟨⟨final, result, hashes'⟩, hfinish, heq⟩ := hfinish
      obtain ⟨hfinal, hresult, hhashes⟩ := by simpa only [Prod.mk.injEq] using heq
      refine ⟨final, result, ?_, hfinal.symm, ?_⟩
      · rw [Option.bind_some]
        dsimp only
        rw [show (placed.foldlM ((oscillator.prepared keys order).applyShift keys order)
          (oscillator.prepared keys order).openLedger) = some ledger from hloop, Option.bind_some,
          hfinish, hhashes]
      · rw [← hresult]
  obtain ⟨final, result, hreturns, hfinal, hresult⟩ := hclean
  refine ⟨final, result, rejected', hreturns, hfinal, hresult, fun hash hhash ↦ ?_⟩
  rw [rejected_synthesize hreturns]
  exact hagree' hash hhash

/-! ### Runs with one key registry -/

/-- Ingestions, and syntheses with the given keys. -/
def FixedKeys (keys : KeyRegistry) : Oscillator platform → Request → Prop
  | _, .ingest _ _ => True
  | _, .synthesize keys' _ _ => keys' = keys
  | _, _ => False

instance (keys : KeyRegistry) :
    DecidableRel (FixedKeys keys : Oscillator platform → Request → Prop) :=
  fun _ request ↦ match request with
    | .ingest _ _ => isTrue trivial
    | .synthesize keys' _ _ => inferInstanceAs (Decidable (keys' = keys))
    | .seedAccount _ _ | .markNonDecaying _ | .registerDomain _ _ | .applyStake _ | .stake _ _
    | .applyRegistration _ | .ingestCertificate _ _ | .submitEvm _ _ => isFalse id

/-- Whether a request brings a forged shift. -/
def bringsForged (prim : Primitives) (keys : KeyRegistry) : Request → Bool
  | .ingest (.stateful shift) _ => isForged prim keys shift
  | _ => false

/-- What a request applies: the hashes and the final balances of a synthesis. -/
def tickOf (entry : Oscillator platform × Request) :
    Option (List TxHash × ExtTreeMap AccountId ℕ) :=
  match entry.2 with
  | .synthesize keys order timestampNs =>
    (entry.1.synthesize keys order timestampNs).map fun (_, result, hashes) ↦
      (hashes, result.finalBalances)
  | _ => none

/-- What the syntheses of a run apply, in order. -/
def ticks (history : List (Oscillator platform × Request)) :
    List (List TxHash × ExtTreeMap AccountId ℕ) := history.filterMap tickOf

/-! ### Shadows -/

/-- A forged shift is ingested in an entry of a history. -/
def ForgedAt (keys : KeyRegistry) (entry : Oscillator platform × Request)
    (shift : StatefulShift) : Prop :=
  (∃ nowNs, entry.2 = .ingest (.stateful shift) nowNs) ∧
    isForged platform.primitives keys shift = true

/-- A nonce is above those that forged shifts have recorded for the account and domain. -/
def NonceClear (keys : KeyRegistry) (history : List (Oscillator platform × Request))
    (account : AccountId) (domain : DomainId) (nonce : ℕ) : Prop :=
  ∀ entry ∈ history, ∀ forged, ForgedAt keys entry forged → entry.1.records forged = true →
    forged.sender = account → forged.domain = domain → forged.nonce < nonce

/-- A signature is none that forged shifts have recorded. -/
def SignatureClear (keys : KeyRegistry) (history : List (Oscillator platform × Request))
    (signature : List UInt8) : Prop :=
  ∀ entry ∈ history, ∀ forged, ForgedAt keys entry forged → entry.1.queues forged = true →
    forged.signature ≠ signature

/-- A hash is that of a forged shift that was queued. -/
def Tainted (keys : KeyRegistry) (history : List (Oscillator platform × Request))
    (hash : TxHash) : Prop :=
  ∃ entry ∈ history, ∃ forged, ForgedAt keys entry forged ∧ entry.1.queues forged = true ∧
    forged.hash platform.primitives = hash

/-- A request brings no signal, a forged one, or one that no forged shift before it shadows. -/
def Clear (keys : KeyRegistry) (before : List (Oscillator platform × Request)) : Request → Prop
  | .ingest (.stateful shift) _ => isForged platform.primitives keys shift = true ∨
      NonceClear keys before shift.sender shift.domain shift.nonce ∧
        SignatureClear keys before shift.signature
  | .ingest (.commutative shift) _ => SignatureClear keys before shift.signature
  | _ => True

/-- No forged shift of a run shadows a later signal that remains. -/
def Unshadowed (keys : KeyRegistry) (history : List (Oscillator platform × Request)) : Prop :=
  ∀ before entry after, history = before ++ entry :: after → Clear keys before entry.2

/-- A run whose last request is served leaves the earlier ones as they are. -/
theorem Unshadowed.concat {keys : KeyRegistry} {history : List (Oscillator platform × Request)}
    {entry : Oscillator platform × Request} (hclear : Unshadowed keys (history ++ [entry])) :
    Unshadowed keys history ∧ Clear keys history entry.2 :=
  ⟨fun before other after heq ↦ hclear before other (after ++ [entry]) (by rw [heq]; simp),
    hclear history entry [] rfl⟩

section Later

variable {keys : KeyRegistry} {history : List (Oscillator platform × Request)}
  {entry : Oscillator platform × Request}

theorem NonceClear.earlier {account : AccountId} {domain : DomainId} {nonce : ℕ}
    (hclear : NonceClear keys (history ++ [entry]) account domain nonce) :
    NonceClear keys history account domain nonce :=
  fun other hother ↦ hclear other (List.mem_append_left _ hother)

theorem SignatureClear.earlier {signature : List UInt8}
    (hclear : SignatureClear keys (history ++ [entry]) signature) :
    SignatureClear keys history signature :=
  fun other hother ↦ hclear other (List.mem_append_left _ hother)

theorem Tainted.later {hash : TxHash} (htainted : Tainted keys history hash) :
    Tainted keys (history ++ [entry]) hash := by
  obtain ⟨other, hother, hforged⟩ := htainted
  exact ⟨other, List.mem_append_left _ hother, hforged⟩

end Later

/-- The stamp of a shift is not part of what is signed. -/
theorem isForged_stamped (prim : Primitives) (keys : KeyRegistry) (shift : StatefulShift)
    (nowNs : ℕ) : isForged prim keys (stamped shift nowNs) = isForged prim keys shift := by
  unfold stamped
  split_ifs <;> rfl

/-! ### The two nodes -/

/-- A node that was given the signals of a history, and a node that was given those that remain. -/
structure Follows (keys : KeyRegistry) (history : List (Oscillator platform × Request))
    (full clean : Oscillator platform) : Prop where
  frame : ∃ pendingStateful seenNonces seenSignatures rejected,
    full = clean.masked pendingStateful seenNonces seenSignatures rejected
  queue : Pruned (fun shift ↦ isForged platform.primitives keys shift = true ∧
    Tainted keys history (shift.hash platform.primitives)) full.pendingStateful
      clean.pendingStateful
  rejected : ∀ hash, ¬Tainted keys history hash →
    full.dag.rejected[hash]? = clean.dag.rejected[hash]?
  fresh_clean : ∀ account domain nonce, full.isFresh account domain nonce = true →
    clean.isFresh account domain nonce = true
  fresh_full : ∀ account domain nonce, NonceClear keys history account domain nonce →
    clean.isFresh account domain nonce = true → full.isFresh account domain nonce = true
  signatures : ∀ signature, SignatureClear keys history signature →
    (signature ∈ full.seenSignatures ↔ signature ∈ clean.seenSignatures)

namespace Follows

variable {keys : KeyRegistry} {history : List (Oscillator platform × Request)}
  {full clean : Oscillator platform}

theorem start (oscillator : Oscillator platform) :
    Follows keys [] oscillator oscillator where
  frame := ⟨_, _, _, _, rfl⟩
  queue := Pruned.refl _
  rejected _ _ := rfl
  fresh_clean _ _ _ := id
  fresh_full _ _ _ _ := id
  signatures _ _ := Iff.rfl

/-- Another request changes neither node. -/
theorem skip (hfollows : Follows keys history full clean)
    (entry : Oscillator platform × Request) : Follows keys (history ++ [entry]) full clean where
  frame := hfollows.frame
  queue := hfollows.queue.mono fun _ hforged ↦ ⟨hforged.1, hforged.2.later⟩
  rejected hash hhash := hfollows.rejected hash fun htainted ↦ hhash htainted.later
  fresh_clean := hfollows.fresh_clean
  fresh_full account domain nonce hclear :=
    hfollows.fresh_full account domain nonce hclear.earlier
  signatures signature hclear := hfollows.signatures signature hclear.earlier

/-- The first node is given a forged shift. Assumes: the shift is forged. -/
theorem ingestForged (hfollows : Follows keys history full clean) {shift : StatefulShift}
    (hforged : isForged platform.primitives keys shift = true) (nowNs : ℕ) :
    Follows keys (history ++ [(full, .ingest (.stateful shift) nowNs)])
      (full.ingestStateful shift nowNs).1 clean := by
  set entry : Oscillator platform × Request := (full, .ingest (.stateful shift) nowNs) with hentry
  have hat : ForgedAt keys entry shift := ⟨⟨nowNs, rfl⟩, hforged⟩
  have hlast : entry ∈ history ++ [entry] := List.mem_append_right _ (List.mem_singleton_self _)
  have hskip := hfollows.skip entry
  obtain ⟨p, n, s, r, rfl⟩ := hfollows.frame
  refine ⟨?_, ?_, ?_, fun account domain nonce hfresh ↦ ?_,
    fun account domain nonce hclear hfresh ↦ ?_, fun signature hclear ↦ ?_⟩
  · rw [ingestStateful_eq]
    exact ⟨_, _, _, _, rfl⟩
  · rw [ingestStateful_eq]
    dsimp only
    split_ifs with hqueues
    · have hdropped : Pruned (fun shift ↦ isForged platform.primitives keys shift = true ∧
          Tainted keys (history ++ [entry]) (shift.hash platform.primitives))
          [stamped shift nowNs] [] := by
        refine .drop ⟨(isForged_stamped ..).trans hforged, ?_⟩ .nil
        rw [hash_stamped]
        exact ⟨entry, hlast, shift, hat, hqueues, rfl⟩
      have happend := hskip.queue.append hdropped
      rw [List.append_nil] at happend
      exact happend
    · exact hskip.queue
  · rw [ingestStateful_eq]
    exact hskip.rejected
  · rw [isFresh_ingestStateful] at hfresh
    split_ifs at hfresh with hrecords
    · obtain ⟨hrecords, rfl, rfl⟩ := hrecords
      exact isFresh_mono (hskip.fresh_clean _ _ _ (isFresh_of_records hrecords))
        (le_of_lt (of_decide_eq_true hfresh))
    · exact hskip.fresh_clean account domain nonce hfresh
  · rw [isFresh_ingestStateful]
    split_ifs with hrecords
    · exact decide_eq_true
        (hclear entry hlast shift hat hrecords.1 hrecords.2.1 hrecords.2.2)
    · exact hskip.fresh_full account domain nonce hclear hfresh
  · rw [ingestStateful_eq]
    dsimp only
    split_ifs with hqueues
    · have hne : signature ≠ shift.signature :=
        (hclear entry hlast shift hat hqueues).symm
      rw [Finset.mem_insert, or_iff_right hne]
      exact hskip.signatures signature hclear
    · exact hskip.signatures signature hclear

/-- Both nodes are given a stateful shift. Assumes: no forged shift shadows it. -/
theorem ingestStateful (hfollows : Follows keys history full clean) {shift : StatefulShift}
    (hnonce : NonceClear keys history shift.sender shift.domain shift.nonce)
    (hsignature : SignatureClear keys history shift.signature) (nowNs : ℕ) :
    Follows keys (history ++ [(full, .ingest (.stateful shift) nowNs)])
      (full.ingestStateful shift nowNs).1 (clean.ingestStateful shift nowNs).1 := by
  have hskip := hfollows.skip (full, .ingest (.stateful shift) nowNs)
  have hfresh : full.isFresh shift.sender shift.domain shift.nonce =
      clean.isFresh shift.sender shift.domain shift.nonce :=
    Bool.eq_iff_iff.mpr ⟨hfollows.fresh_clean _ _ _, hfollows.fresh_full _ _ _ hnonce⟩
  have hseen := hfollows.signatures shift.signature hsignature
  obtain ⟨p, n, s, r, rfl⟩ := hfollows.frame
  set full := clean.masked p n s r with hfull
  have hrecords : full.records shift = clean.records shift := by
    unfold records
    rw [hfresh]
    rfl
  have hqueues : full.queues shift = clean.queues shift := by
    unfold queues
    rw [hrecords, decide_eq_decide.mpr (not_congr hseen)]
  refine ⟨?_, ?_, ?_, fun account domain nonce hfresh ↦ ?_,
    fun account domain nonce hclear hfresh ↦ ?_, fun signature hclear ↦ ?_⟩
  · rw [ingestStateful_eq, ingestStateful_eq]
    exact ⟨_, _, _, _, rfl⟩
  · rw [ingestStateful_eq, ingestStateful_eq, hqueues]
    dsimp only
    split_ifs
    · exact hskip.queue.append (Pruned.refl _)
    · exact hskip.queue
  · rw [ingestStateful_eq, ingestStateful_eq]
    exact hskip.rejected
  · rw [isFresh_ingestStateful] at hfresh ⊢
    rw [hrecords] at hfresh
    split_ifs at hfresh ⊢ with hsame
    · exact hfresh
    · exact hskip.fresh_clean account domain nonce hfresh
  · rw [isFresh_ingestStateful] at hfresh ⊢
    rw [hrecords]
    split_ifs at hfresh ⊢ with hsame
    · exact hfresh
    · exact hskip.fresh_full account domain nonce hclear hfresh
  · rw [ingestStateful_eq, ingestStateful_eq, hqueues]
    dsimp only
    split_ifs
    · rw [Finset.mem_insert, Finset.mem_insert, hskip.signatures signature hclear]
    · exact hskip.signatures signature hclear

/-- Both nodes are given a commutative shift. Assumes: no forged shift shadows it. -/
theorem ingestCommutative (hfollows : Follows keys history full clean) {shift : CommutativeShift}
    (hsignature : SignatureClear keys history shift.signature)
    (entry : Oscillator platform × Request) :
    Follows keys (history ++ [entry]) (full.ingestCommutative shift).1
      (clean.ingestCommutative shift).1 := by
  have hskip := hfollows.skip entry
  have hseen := hfollows.signatures shift.signature hsignature
  obtain ⟨p, n, s, r, rfl⟩ := hfollows.frame
  set full := clean.masked p n s r with hfull
  have hqueues : full.queuesCommutative shift = clean.queuesCommutative shift := by
    unfold queuesCommutative
    rw [decide_eq_decide.mpr (not_congr hseen)]
    rfl
  rw [ingestCommutative_eq, ingestCommutative_eq, hqueues]
  refine ⟨⟨_, _, _, _, rfl⟩, hskip.queue, hskip.rejected, hskip.fresh_clean, hskip.fresh_full,
    fun signature hclear ↦ ?_⟩
  dsimp only
  split_ifs
  · rw [Finset.mem_insert, Finset.mem_insert, hskip.signatures signature hclear]
  · exact hskip.signatures signature hclear

/-- Both nodes synthesize: they apply the same shifts to the same balances. Assumes: the synthesis
of the first node returns. -/
theorem synthesize (hfollows : Follows keys history full clean) {order : SynthesisOrder}
    {timestampNs : ℕ} {final : Oscillator platform} {result : SynthesisResult}
    {hashes : List TxHash}
    (hsynthesize : full.synthesize keys order timestampNs = some (final, result, hashes)) :
    ∃ final' result', clean.synthesize keys order timestampNs = some (final', result', hashes) ∧
      result'.finalBalances = result.finalBalances ∧
      Follows keys (history ++ [(full, .synthesize keys order timestampNs)]) final final' := by
  have hskip := hfollows.skip (full, .synthesize keys order timestampNs)
  obtain ⟨p, n, s, r, rfl⟩ := hfollows.frame
  obtain ⟨final', result', rejected', hreturns, rfl, hresult, hagree⟩ :=
    synthesize_masked hskip.queue hskip.rejected hsynthesize
  have heffect := synthesize_effect hreturns
  refine ⟨final', result', hreturns, by rw [hresult], ⟨⟨_, _, _, _, rfl⟩, ?_, hagree, ?_, ?_, ?_⟩⟩
  · rw [heffect.pendingStateful]
    exact .nil
  · intro account domain nonce hfresh
    unfold isFresh
    rw [heffect.seenNonces]
    exact hskip.fresh_clean account domain nonce hfresh
  · intro account domain nonce hclear hfresh
    unfold isFresh at hfresh
    rw [heffect.seenNonces] at hfresh
    exact hskip.fresh_full account domain nonce hclear hfresh
  · intro signature hclear
    rw [heffect.seenSignatures]
    exact hskip.signatures signature hclear

/-- The two nodes give the shifts that remain the same status. Assumes: the hash is that of no
forged shift. -/
theorem shiftStatus_eq (hfollows : Follows keys history full clean) {hash : TxHash}
    (hhash : ¬Tainted keys history hash) :
    full.dag.shiftStatus hash = clean.dag.shiftStatus hash := by
  have hrejected := hfollows.rejected hash hhash
  obtain ⟨p, n, s, r, rfl⟩ := hfollows.frame
  unfold VectorClockDag.shiftStatus
  rw [hrejected]
  rfl

end Follows

theorem ticks_concat (history : List (Oscillator platform × Request))
    (entry : Oscillator platform × Request) :
    ticks (history ++ [entry]) = ticks history ++ (tickOf entry).toList := by
  unfold ticks
  rw [List.filterMap_append]
  cases hentry : tickOf entry with
  | none => simp [hentry]
  | some tick => simp [hentry]

/-- Whether a request is served in these runs does not depend on the node. -/
theorem fixedKeys_of_fixedKeys {keys : KeyRegistry} {first second : Oscillator platform}
    {request : Request} (hfixed : FixedKeys keys first request) :
    FixedKeys keys second request := by
  cases request <;> exact hfixed

/-- Every run has a run without the forged shifts beside it. Assumes: no forged shift shadows a
signal that remains. -/
theorem exists_follows {keys : KeyRegistry} {initial full : Oscillator platform}
    {history : List (Oscillator platform × Request)}
    (hreaches : Reaches (step platform) (FixedKeys keys) initial history full)
    (hclear : Unshadowed keys history) :
    ∃ history' clean, Reaches (step platform) (FixedKeys keys) initial history' clean ∧
      history'.map Prod.snd = (history.map Prod.snd).filter
        (fun request ↦ !bringsForged platform.primitives keys request) ∧
      ticks history' = ticks history ∧ Follows keys history full clean := by
  induction hreaches with
  | start => exact ⟨[], initial, .start, rfl, rfl, .start initial⟩
  | @next history full full' request response hbefore hfixed hstep ih =>
    obtain ⟨hearlier, hlast⟩ := hclear.concat
    obtain ⟨history', clean, hclean, hrequests, hticks, hfollows⟩ := ih hearlier
    have hkept : ∀ clean' response', step platform clean request = some (clean', response') →
        bringsForged platform.primitives keys request = false →
        tickOf (clean, request) = tickOf (full, request) →
        Follows keys (history ++ [(full, request)]) full' clean' →
        ∃ history' clean, Reaches (step platform) (FixedKeys keys) initial history' clean ∧
          history'.map Prod.snd = ((history ++ [(full, request)]).map Prod.snd).filter
            (fun request ↦ !bringsForged platform.primitives keys request) ∧
          ticks history' = ticks (history ++ [(full, request)]) ∧
          Follows keys (history ++ [(full, request)]) full' clean := by
      intro clean' response' hserved hgenuine htick hfollows'
      refine ⟨history' ++ [(clean, request)], clean',
        hclean.next (fixedKeys_of_fixedKeys hfixed) hserved, ?_, ?_, hfollows'⟩
      · rw [List.map_append, List.map_append, List.filter_append, ← hrequests]
        simp [hgenuine]
      · rw [ticks_concat, ticks_concat, hticks, htick]
    cases request with
    | ingest signal nowNs =>
      obtain ⟨rfl, -⟩ := Prod.mk.inj (Option.some.inj hstep)
      cases signal with
      | stateful shift =>
        cases hforged : isForged platform.primitives keys shift with
        | true =>
          refine ⟨history', clean, hclean, ?_, ?_, hfollows.ingestForged hforged nowNs⟩
          · rw [List.map_append, List.filter_append, ← hrequests]
            simp [bringsForged, hforged]
          · rw [ticks_concat, hticks]
            exact (List.append_nil _).symm
        | false =>
          rcases hlast with hforged' | ⟨hnonce, hsignature⟩
          · rw [hforged] at hforged'
            cases hforged'
          · exact hkept _ _ rfl hforged rfl (hfollows.ingestStateful hnonce hsignature nowNs)
      | commutative shift =>
        exact hkept _ _ rfl rfl rfl (hfollows.ingestCommutative hlast _)
      | registration shift => exact hkept _ _ rfl rfl rfl (hfollows.skip _)
      | stake shift => exact hkept _ _ rfl rfl rfl (hfollows.skip _)
      | ping => exact hkept _ _ rfl rfl rfl (hfollows.skip _)
      | pong => exact hkept _ _ rfl rfl rfl (hfollows.skip _)
      | certificate cert => exact hkept _ _ rfl rfl rfl (hfollows.skip _)
      | auth => exact hkept _ _ rfl rfl rfl (hfollows.skip _)
    | synthesize keys' order timestampNs =>
      obtain rfl : keys' = keys := hfixed
      obtain ⟨⟨final, result, hashes⟩, hsynthesize, heq⟩ := Option.map_eq_some_iff.mp hstep
      obtain ⟨rfl, -⟩ := Prod.mk.inj heq
      obtain ⟨clean', result', hreturns, hbalances, hfollows'⟩ := hfollows.synthesize hsynthesize
      refine hkept clean' (.synthesis result' hashes) ?_ rfl ?_ hfollows'
      · unfold step
        dsimp only
        rw [hreturns]
        rfl
      · unfold tickOf
        dsimp only
        rw [hreturns, hsynthesize]
        simp only [Option.map_some, hbalances]
    | seedAccount account amount => exact hfixed.elim
    | markNonDecaying account => exact hfixed.elim
    | registerDomain policy registrant => exact hfixed.elim
    | applyStake stake => exact hfixed.elim
    | stake operator amount => exact hfixed.elim
    | applyRegistration reg => exact hfixed.elim
    | ingestCertificate cert keys' => exact hfixed.elim
    | submitEvm tx nowNs => exact hfixed.elim

/-- A run of ingestions and syntheses with one key registry has beside it the run of the same
requests without the forged shifts: its syntheses apply the same shifts and end with the same
balances, and every shift that is not forged has the same status. Assumes: no forged shift shadows a
later signal that remains. -/
theorem forged_without_effect {keys : KeyRegistry} {initial full : Oscillator platform}
    {history : List (Oscillator platform × Request)}
    (hreaches : Reaches (step platform) (FixedKeys keys) initial history full)
    (hclear : Unshadowed keys history) :
    ∃ history' clean, Reaches (step platform) (FixedKeys keys) initial history' clean ∧
      history'.map Prod.snd = (history.map Prod.snd).filter
        (fun request ↦ !bringsForged platform.primitives keys request) ∧
      ticks history' = ticks history ∧
      ∀ hash, ¬Tainted keys history hash →
        full.dag.shiftStatus hash = clean.dag.shiftStatus hash := by
  obtain ⟨history', clean, hclean, hrequests, hticks, hfollows⟩ := exists_follows hreaches hclear
  exact ⟨history', clean, hclean, hrequests, hticks, fun _ hhash ↦ hfollows.shiftStatus_eq hhash⟩

/-! ### A forged shift and its victim -/

/-- A node on which the account of the first seed holds 100 sub-units. -/
def fundedVictim : Oscillator Platform.sample :=
  (newWithKeypair 8).seedAccount (sampleAccount 1) 100

/-- A transfer that the account of the first seed signed. -/
def victimShift : StatefulShift := .sample 1 10 [(1, 1)] [] 2 0

/-- A transfer in the name of that account, signed with the second seed. -/
def forgedShift (nonce : ℕ) : StatefulShift :=
  { StatefulShift.sample 2 10 [(1, 1)] [] nonce 0 with sender := sampleAccount 1 }

/-- The forged transfer comes before the genuine one. -/
def forgedFirst (nonce : ℕ) : List Request :=
  [.ingest (.stateful (forgedShift nonce)) 0, .ingest (.stateful victimShift) 0, .sample]

/-- A forged shift with the smaller nonce does not stop the genuine one. -/
theorem forged_without_effect_smallerNonce :
    ∃ (history : List (Oscillator Platform.sample × Request)) (full : Oscillator Platform.sample),
      Reaches (step Platform.sample) (FixedKeys sampleKeys) fundedVictim history full ∧
      history.map Prod.snd = forgedFirst 1 ∧ Unshadowed sampleKeys history ∧
      full.dag.balances.getD ⟨9⟩ 0 = 10 ∧
      ∃ history' clean,
        Reaches (step Platform.sample) (FixedKeys sampleKeys) fundedVictim history' clean ∧
        history'.map Prod.snd = (history.map Prod.snd).filter
          (fun request ↦ !bringsForged Platform.sample.primitives sampleKeys request) ∧
        ticks history' = ticks history ∧
        ∀ hash, ¬Tainted sampleKeys history hash →
          full.dag.shiftStatus hash = clean.dag.shiftStatus hash := by
  have hruns : (run (step Platform.sample) (FixedKeys sampleKeys) fundedVictim
      (forgedFirst 1)).map (fun oscillator ↦ oscillator.dag.balances.getD ⟨9⟩ 0) = some 10 := by
    decide +kernel
  obtain ⟨full, hrun, hreceived⟩ := Option.map_eq_some_iff.mp hruns
  obtain ⟨history, hinputs, hreaches⟩ := reaches_of_run hrun
  have hforged : isForged Platform.sample.primitives sampleKeys (forgedShift 1) = true := by
    decide +kernel
  have hsignatures : (forgedShift 1).signature ≠ victimShift.signature := by
    decide +kernel
  have hclear : Unshadowed sampleKeys history := by
    intro before entry after heq
    rw [heq, List.map_append, List.map_cons] at hinputs
    match before with
    | [] =>
      obtain ⟨hentry, -⟩ := List.cons_eq_cons.mp hinputs
      rw [hentry]
      exact .inl hforged
    | [first] =>
      obtain ⟨hfirst, hrest⟩ := List.cons_eq_cons.mp hinputs
      obtain ⟨hentry, -⟩ := List.cons_eq_cons.mp hrest
      have hbefore (other : Oscillator Platform.sample × Request) (hother : other ∈ [first])
          (forged : StatefulShift) (hat : ForgedAt sampleKeys other forged) :
          forged = forgedShift 1 := by
        obtain ⟨⟨nowNs, hrequest⟩, -⟩ := hat
        rw [List.mem_singleton.mp hother, hfirst] at hrequest
        exact (Signal.stateful.inj (Request.ingest.inj hrequest).1).symm
      rw [hentry]
      refine .inr ⟨fun other hother forged hat _ _ _ ↦ ?_, fun other hother forged hat _ ↦ ?_⟩
      · rw [hbefore other hother forged hat]
        decide
      · rw [hbefore other hother forged hat]
        exact hsignatures
    | [_, _] =>
      obtain ⟨-, hrest⟩ := List.cons_eq_cons.mp hinputs
      obtain ⟨-, hrest⟩ := List.cons_eq_cons.mp hrest
      obtain ⟨hentry, -⟩ := List.cons_eq_cons.mp hrest
      rw [hentry]
      trivial
    | _ :: _ :: _ :: _ =>
      have hlength := congrArg List.length hinputs
      simp [forgedFirst] at hlength
  exact ⟨history, full, hreaches, hinputs, hclear, hreceived, forged_without_effect hreaches hclear⟩

/-- A forged shift with a greater nonce: the genuine shift is refused, and without the forged one it
is applied. -/
theorem shadowed_victim :
    ∃ full clean : Oscillator Platform.sample,
      run (step Platform.sample) (FixedKeys sampleKeys) fundedVictim (forgedFirst 5) = some full ∧
      run (step Platform.sample) (FixedKeys sampleKeys) fundedVictim ((forgedFirst 5).filter
        fun request ↦ !bringsForged Platform.sample.primitives sampleKeys request) = some clean ∧
      full.dag.shiftStatus (victimShift.hash .sample) = none ∧
      full.dag.balances.getD ⟨9⟩ 0 = 0 ∧
      clean.dag.shiftStatus (victimShift.hash .sample) = some .accepted ∧
      clean.dag.balances.getD ⟨9⟩ 0 = 10 := by
  have hfull : (run (step Platform.sample) (FixedKeys sampleKeys) fundedVictim
      (forgedFirst 5)).map (fun oscillator ↦
        (oscillator.dag.shiftStatus (victimShift.hash .sample),
          oscillator.dag.balances.getD ⟨9⟩ 0)) = some (none, 0) := by
    decide +kernel
  have hclean : (run (step Platform.sample) (FixedKeys sampleKeys) fundedVictim
      ((forgedFirst 5).filter fun request ↦
        !bringsForged Platform.sample.primitives sampleKeys request)).map (fun oscillator ↦
          (oscillator.dag.shiftStatus (victimShift.hash .sample),
            oscillator.dag.balances.getD ⟨9⟩ 0)) = some (some .accepted, 10) := by
    decide +kernel
  obtain ⟨full, hrun, hstate⟩ := Option.map_eq_some_iff.mp hfull
  obtain ⟨clean, hrun', hstate'⟩ := Option.map_eq_some_iff.mp hclean
  obtain ⟨hstatus, hbalance⟩ := Prod.mk.inj hstate
  obtain ⟨hstatus', hbalance'⟩ := Prod.mk.inj hstate'
  exact ⟨full, clean, hrun, hrun', hstatus, hbalance, hstatus', hbalance'⟩

end Oscillator

end Fluidic.Consensus
