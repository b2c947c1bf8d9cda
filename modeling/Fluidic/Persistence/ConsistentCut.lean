import Fluidic.Consensus.LedgerAgreement
import Fluidic.Consensus.LostUpdates
import Fluidic.Consensus.Replay
import Fluidic.Persistence.RoundTrip

/-!
# Saving during a synthesis

The snapshot task runs on its own thread, so a save can run between two sections of a synthesis. A
save is four sections (`SaveSection`); its first one reads both ledgers and decides what the
snapshot has of the synthesis, and behind the last one the snapshot becomes text, or the save fails
and writes nothing (`Saving.written`). The locks that it keeps to its end forbid some of the
schedules of `Saving.step`; all results are about all schedules.

A synthesis sets the flags of the applied shifts and the balances of the DAG in one section, and the
balances of the wave-field in a later one. No other section sets a flag (`flagged_perform`), so a
snapshot that is cut before the first of these, or behind the second, can be loaded without losing
or repeating a transfer, and `consistent_iff_not_torn` says that every other cut is not: there the
next synthesis copies the old balances over those of the DAG, and the transfers keep their flags
(`transfer_lost`).
-/

set_option autoImplicit false
set_option relaxedAutoImplicit false

namespace Fluidic.Consensus.Oscillator

open Library Crypto Fluidic.Field Value Operator Evm
open Std (ExtTreeMap ExtTreeSet LawfulEqCmp)

variable {platform : Platform}

/-! ### The nodes of the DAG through the sections -/

/-- Where a node of the DAG comes from: it was there with the same hash and flag, or it is new and
has no flag. -/
def Descends (before : VectorClockDag) (hash : TxHash) (node : DagNode) : Prop :=
  (∃ old, before.nodes[hash]? = some old ∧ node.hash = old.hash ∧ node.applied = old.applied) ∨
    node.hash = hash ∧ node.applied = false

/-- The check and the promotion of nodes keep their hashes and flags. Assumes: the node is there
afterwards. -/
theorem descends_promoteToFinalized {dag : VectorClockDag} {spends : List DagError} {tick : ℕ}
    {hash : TxHash} {node : DagNode}
    (hnode : ((dag.markDoubleSpends spends).promoteToFinalized tick).1.nodes[hash]? = some node) :
    ∃ old, dag.nodes[hash]? = some old ∧ node.hash = old.hash ∧ node.applied = old.applied := by
  have hpromote : ((dag.markDoubleSpends spends).promoteToFinalized tick).1.nodes[hash]? =
      (dag.markDoubleSpends spends).nodes[hash]?.map (VectorClockDag.promoteNode tick) :=
    ExtTreeMap.getElem?_map
  rw [hpromote, VectorClockDag.getElem?_markDoubleSpends, Option.map_map,
    Option.map_eq_some_iff] at hnode
  obtain ⟨old, hold, rfl⟩ := hnode
  refine ⟨old, hold, ?_, ?_⟩
  all_goals
    simp only [Function.comp_apply, VectorClockDag.promoteNode]
    split_ifs <;> rfl

/-- The nodes that a synthesis admits are new and have no flag. Assumes: the node is there
afterwards. -/
theorem descends_admitShifts {prim : Primitives} {registry : DomainRegistry} {keys : KeyRegistry}
    {tick : ℕ} {shifts : List StatefulShift} {dag : VectorClockDag} {hash : TxHash} {node : DagNode}
    (hnode : (shifts.foldl (admitShift prim registry keys tick) (dag, [])).1.nodes[hash]? =
      some node) : Descends dag hash node := by
  rcases admitted_core prim registry keys tick shifts (dag, []) hash with hold |
    ⟨-, shift, -, depth, -, hnew⟩
  · rw [hnode, Option.map_some, eq_comm, Option.map_eq_some_iff] at hold
    obtain ⟨old, hold, hcore⟩ := hold
    have hhash := congrArg DagNode.hash hcore
    have happlied := congrArg DagNode.applied hcore
    exact .inl ⟨old, hold, hhash.symm, happlied.symm⟩
  · rw [hnode, Option.map_some, Option.some.injEq] at hnew
    have hhash := congrArg DagNode.hash hnew
    have happlied := congrArg DagNode.applied hnew
    exact .inr ⟨hhash, happlied⟩

/-- A section of a synthesis other than the commit leaves the flags of the nodes alone. Assumes: the
section runs, is another one, and the node is in the DAG afterwards. -/
theorem descends_performSection {keys : KeyRegistry} {order : SynthesisOrder} {timestampNs : ℕ}
    {locals locals' : SynthesisLocals} {oscillator next : Oscillator platform}
    {step : SynthesisSection} (hother : step ≠ .commit)
    (hsection : oscillator.performSection keys order timestampNs locals step =
      some (locals', next)) {hash : TxHash} {node : DagNode}
    (hnode : next.dag.nodes[hash]? = some node) : Descends oscillator.dag hash node := by
  have hkept : next.dag.nodes = oscillator.dag.nodes → Descends oscillator.dag hash node := by
    intro hnodes
    rw [hnodes] at hnode
    exact .inl ⟨node, hnode, rfl, rfl⟩
  cases hunused : step.uses .dag with
  | false =>
    have hspares := @Concurrent.spares_dag platform keys order timestampNs step hunused locals
      oscillator oscillator.dag
    apply hkept
    have hself : oscillator.performSection keys order timestampNs locals step =
        (oscillator.performSection keys order timestampNs locals step).map fun out ↦
          (out.1, { out.2 with dag := oscillator.dag }) := hspares
    rw [hsection, Option.map_some, Option.some.injEq, Prod.mk.injEq] at hself
    rw [hself.2]
  | true =>
    cases step with
    | syncFieldIntoDag =>
      obtain ⟨-, rfl⟩ := Prod.mk.inj (Option.some.inj hsection)
      exact hkept rfl
    | admitShifts =>
      obtain ⟨-, rfl⟩ := Prod.mk.inj (Option.some.inj hsection)
      obtain ⟨admitted, hadmitted, hhash, happlied⟩ := descends_promoteToFinalized hnode
      unfold Descends
      rw [hhash, happlied]
      exact descends_admitShifts hadmitted
    | applyStateful =>
      obtain ⟨outcome, -, hout⟩ := Option.map_eq_some_iff.mp hsection
      cases outcome with
      | error error =>
        obtain ⟨-, rfl⟩ := Prod.mk.inj hout
        exact hkept rfl
      | ok ledger =>
        obtain ⟨-, rfl⟩ := Prod.mk.inj hout
        exact hkept rfl
    | computeDebt =>
      obtain ⟨-, rfl⟩ := Prod.mk.inj (Option.some.inj hsection)
      exact hkept rfl
    | commit => exact absurd rfl hother
    | _ => cases hunused

/-- A section does nothing, after the synthesis returned, or what it does to the node. Assumes: the
section runs. -/
theorem synthesisStep_cases {keys : KeyRegistry} {order : SynthesisOrder} {timestampNs : ℕ}
    {step : SynthesisSection} {state next : SynthesisLocals × Oscillator platform}
    (hstep : synthesisStep keys order timestampNs step state = some next) :
    next = state ∨ state.2.performSection keys order timestampNs state.1 step = some next := by
  unfold synthesisStep at hstep
  split_ifs at hstep
  · exact .inl (Option.some.inj hstep).symm
  · exact .inr hstep

/-- Every node of a DAG is stored under its own hash. -/
def Indexed (dag : VectorClockDag) : Prop :=
  ∀ hash (node : DagNode), dag.nodes[hash]? = some node → node.hash = hash

/-- Sections of a synthesis keep the nodes under their own hashes. Assumes: the sections run, and
the nodes were under their own hashes before. -/
theorem indexed_perform {keys : KeyRegistry} {order : SynthesisOrder} {timestampNs : ℕ}
    {steps : List SynthesisSection} {state final : SynthesisLocals × Oscillator platform}
    (hperform : perform (synthesisStep keys order timestampNs) steps state = some final)
    (hindexed : Indexed state.2.dag) : Indexed final.2.dag := by
  refine @perform_invariant _ _ _ (fun state : SynthesisLocals × Oscillator platform ↦
    Indexed state.2.dag) _ _ _ (fun step _ before after hstep hbefore ↦ ?_) hperform hindexed
  rcases synthesisStep_cases hstep with rfl | hsection
  · exact hbefore
  · intro hash node hnode
    by_cases hcommit : step = .commit
    · subst hcommit
      obtain rfl := Option.some.inj hsection
      have hmarked : (markApplied before.2.dag.nodes before.1.ledger.hashes)[hash]? = some node :=
        hnode
      rw [getElem?_markApplied, Option.map_eq_some_iff] at hmarked
      obtain ⟨old, hold, rfl⟩ := hmarked
      exact hbefore hash old hold
    · rcases descends_performSection hcommit hsection hnode with ⟨old, hold, hhash, -⟩ | ⟨hhash, -⟩
      · exact hhash.trans (hbefore hash old hold)
      · exact hhash

/-- Sections of a synthesis without the commit flag no node. Assumes: the sections run, and the node
is in the DAG afterwards and has a flag. -/
theorem flagged_perform {keys : KeyRegistry} {order : SynthesisOrder} {timestampNs : ℕ}
    {steps : List SynthesisSection} {state final : SynthesisLocals × Oscillator platform}
    (hperform : perform (synthesisStep keys order timestampNs) steps state = some final)
    (hcommit : .commit ∉ steps) {hash : TxHash} {node : DagNode}
    (hnode : final.2.dag.nodes[hash]? = some node) (hflag : node.applied = true) :
    ∃ old, state.2.dag.nodes[hash]? = some old ∧ old.applied = true := by
  have hrun := @perform_invariant _ _ _ (fun next : SynthesisLocals × Oscillator platform ↦
    ∀ node, next.2.dag.nodes[hash]? = some node → node.applied = true →
      ∃ old, state.2.dag.nodes[hash]? = some old ∧ old.applied = true) steps state final
    (fun step hstep before after hperforms hbefore ↦ ?_) hperform
    (fun node hnode hflag ↦ ⟨node, hnode, hflag⟩)
  · exact hrun node hnode hflag
  · rcases synthesisStep_cases hperforms with rfl | hsection
    · exact hbefore
    · intro node hnode hflag
      have hother : step ≠ .commit := fun hsame ↦ hcommit (hsame ▸ hstep)
      rcases descends_performSection hother hsection hnode with ⟨old, hold, -, happlied⟩ |
        ⟨-, hnone⟩
      · exact hbefore old hold (happlied ▸ hflag)
      · rw [hflag] at hnone
        cases hnone

/-- A synthesis that returns is its sections in a row. Assumes: the synthesis returns. -/
theorem perform_of_synthesize {oscillator final : Oscillator platform} {keys : KeyRegistry}
    {order : SynthesisOrder} {timestampNs : ℕ} {result : SynthesisResult} {hashes : List TxHash}
    (hsynthesize : oscillator.synthesize keys order timestampNs = some (final, result, hashes)) :
    ∃ locals, perform (synthesisStep keys order timestampNs) SynthesisSection.all
        (.start, oscillator) = some (locals, final) ∧
      locals.returned = some (result, hashes) := by
  have hwhole := perform_sections keys order timestampNs oscillator
  rw [hsynthesize, Option.map_some, Option.map_eq_some_iff] at hwhole
  obtain ⟨⟨locals, last⟩, hperform, hout⟩ := hwhole
  obtain ⟨rfl, hreturned⟩ := Prod.mk.inj hout
  exact ⟨locals, hperform, hreturned⟩

/-- Every request keeps the nodes under their own hashes. Assumes: the request is served, and the
nodes were under their own hashes before. -/
theorem indexed_step {oscillator next : Oscillator platform} {request : Request}
    {response : Response}
    (hstep : Consensus.step platform oscillator request = some (next, response))
    (hindexed : Indexed oscillator.dag) : Indexed next.dag := by
  rcases step_cases hstep with ⟨keys, order, timestampNs, result, hashes, -, hsynthesize⟩ |
    ⟨-, heffect⟩
  · obtain ⟨locals, hperform, -⟩ := perform_of_synthesize hsynthesize
    exact indexed_perform hperform hindexed
  · unfold Indexed
    rw [heffect.nodes]
    exact hindexed

end Fluidic.Consensus.Oscillator

namespace Fluidic.Persistence

open Library Crypto Consensus Fluidic.Field Value Operator Evm
open Std (ExtTreeMap ExtTreeSet)

variable {platform : Platform}

/-! ### Nodes that run -/

/-- The nodes that creation, requests and loads of files lead to. -/
inductive Served (platform : Platform) : Oscillator platform → Prop
  | create (nttSize : ℕ) (operatorKeypair : Option KeyPair) (stakeTable : StakeTable) :
      Served platform (Oscillator.create nttSize operatorKeypair stakeTable)
  | step {oscillator next : Oscillator platform} {request : Request} {response : Response}
      (hserved : Served platform oscillator)
      (hstep : Consensus.step platform oscillator request = some (next, response)) :
      Served platform next
  | load {target loaded : Oscillator platform} (hserved : Served platform target)
      (file : Option (Snapshot platform)) (hload : load target file = .ok loaded) :
      Served platform loaded

/-- The nodes of a loaded DAG are stored under their own hashes, whatever the file says. Assumes:
the file loads, and the nodes were before. -/
theorem indexed_load {target loaded : Oscillator platform} {file : Option (Snapshot platform)}
    (hload : load target file = .ok loaded) (hindexed : Oscillator.Indexed target.dag) :
    Oscillator.Indexed loaded.dag := by
  cases file with
  | none =>
    obtain rfl := Except.ok.inj hload
    exact hindexed
  | some snapshot =>
    unfold load at hload
    dsimp only at hload
    split_ifs at hload
    obtain rfl := Except.ok.inj hload
    intro hash node hnode
    have hread : (restore hashFromHex readNode
        (snapshot.dagNodes.map fun node ↦ (node.hash, node)))[hash]? = some node := hnode
    rcases getElem?_restore hashFromHex readNode
      (snapshot.dagNodes.map fun node ↦ (node.hash, node)) hash with ⟨entry, -, -, hentry⟩ |
      ⟨hnone, -⟩
    · rw [hentry, Option.some.injEq] at hread
      rw [← hread]
      rfl
    · rw [hnone] at hread
      cases hread

/-- Every node that runs has its DAG nodes under their own hashes. Assumes: requests have led to the
node from a new one. -/
theorem Served.indexed {oscillator : Oscillator platform} (hserved : Served platform oscillator) :
    Oscillator.Indexed oscillator.dag := by
  induction hserved with
  | create nttSize operatorKeypair stakeTable =>
    intro hash node hnode
    have hnone : (∅ : ExtTreeMap TxHash DagNode)[hash]? = some node := hnode
    rw [ExtTreeMap.getElem?_empty] at hnone
    cases hnone
  | step _ hstep ih => exact Oscillator.indexed_step hstep ih
  | load _ file hload ih => exact indexed_load hload ih

/-- Every run of requests from a new node leads to a node that runs. Assumes: the run starts at a
new node and reaches the state. -/
theorem served_of_reaches {nttSize : ℕ} {operatorKeypair : Option KeyPair}
    {stakeTable : StakeTable} {allowed : Oscillator platform → Request → Prop}
    {history : List (Oscillator platform × Request)} {oscillator : Oscillator platform}
    (hreaches : Reaches (Consensus.step platform) allowed
      (Oscillator.create nttSize operatorKeypair stakeTable) history oscillator) :
    Served platform oscillator :=
  @Reaches.invariant _ _ _ _ _ _ (Served platform)
    (Served.create nttSize operatorKeypair stakeTable)
    (fun _ _ _ _ _ hbefore hstep ↦ hbefore.step hstep) _ _ hreaches

/-! ### The save as a thread -/

/-- The sections of a save. The first one holds the locks of the DAG and of the wave-field, and
keeps them to the end. -/
inductive SaveSection
  | readLedgers
  | readBurned
  | readEvm
  | readStakes
  deriving DecidableEq

/-- All sections of a save, in order. -/
def SaveSection.all : List SaveSection := [.readLedgers, .readBurned, .readEvm, .readStakes]

/-- A snapshot into which nothing is written yet. -/
def Snapshot.blank : Snapshot platform := ⟨1, [], [], [], [], 0, none, [], [], none, ∅⟩

/-- What a section of a save adds to the snapshot. -/
def writeSection (oscillator : Oscillator platform) (order : SaveOrder)
    (snapshot : Snapshot platform) : SaveSection → Snapshot platform
  | .readLedgers =>
    { snapshot with
      accounts := (order.accounts.visit oscillator.waveField.accounts.toList).map fun entry ↦
        (accountToHex entry.1, ⟨entry.2.units, entry.2.decays, entry.2.lastActiveTick⟩)
      pools := (order.pools.visit oscillator.waveField.pools.toList).map fun entry ↦
        (poolToHex entry.1, entry.2.units)
      dagNodes := (order.nodes.visit oscillator.dag.nodes.toList).map fun entry ↦
        writeNode order entry.2
      dagBalances := (order.balances.visit oscillator.dag.balances.toList).map fun entry ↦
        (accountToHex entry.1, entry.2) }
  | .readBurned => { snapshot with totalBurned := oscillator.metabolicEngine.totalBurned }
  | .readEvm =>
    { snapshot with
      evmDb := some oscillator.evmPool.db
      evmNonces := oscillator.evmPool.nonces.toList.map fun entry ↦ (addressToHex entry.1, entry.2)
      evmStatuses := (order.statuses.visit oscillator.evmPool.statuses.toList).map fun entry ↦
        (evmHashToHex entry.1, entry.2) }
  | .readStakes =>
    { snapshot with
      stakeConfig := some oscillator.stakeTable.config
      stakeTable := oscillator.stakeTable.toSnapshot order.operators }

/-- All sections of a save in a row, and the text of the snapshot behind them, are a save. -/
theorem foldl_writeSection (oscillator : Oscillator platform) (order : SaveOrder) :
    toStringPretty (SaveSection.all.foldl (writeSection oscillator order) Snapshot.blank) =
      save oscillator order :=
  rfl

/-- Two snapshots have the same accounts and the same DAG. -/
structure SameLedgers (first second : Snapshot platform) : Prop where
  version : first.version = second.version
  accounts : first.accounts = second.accounts
  dagNodes : first.dagNodes = second.dagNodes
  dagBalances : first.dagBalances = second.dagBalances

/-- A node, the local variables of a synthesis and the snapshot of a save. -/
structure Saving (platform : Platform) where
  locals : SynthesisLocals
  oscillator : Oscillator platform
  snapshot : Snapshot platform

namespace Saving

/-- A section of one of the two threads. -/
def step (keys : KeyRegistry) (order : SynthesisOrder) (timestampNs : ℕ) (saveOrder : SaveOrder) :
    SynthesisSection ⊕ SaveSection → Saving platform → Option (Saving platform)
  | .inl synthesis, state =>
    (Oscillator.synthesisStep keys order timestampNs synthesis
      (state.locals, state.oscillator)).map fun (locals, oscillator) ↦
        { state with locals, oscillator }
  | .inr section', state =>
    some { state with
      snapshot := writeSection state.oscillator saveOrder state.snapshot section' }

/-- What the save writes at its end. -/
def written (state : Saving platform) : Except String (Snapshot platform) :=
  toStringPretty state.snapshot

/-- Both calls are made. -/
def start (oscillator : Oscillator platform) : Saving platform := ⟨.start, oscillator, .blank⟩

variable {keys : KeyRegistry} {order : SynthesisOrder} {timestampNs : ℕ} {saveOrder : SaveOrder}

/-- The save does not disturb the synthesis. -/
theorem perform_lefts (schedule : List (SynthesisSection ⊕ SaveSection)) (state : Saving platform) :
    (perform (step keys order timestampNs saveOrder) schedule state).map
        (fun next ↦ (next.locals, next.oscillator)) =
      perform (Oscillator.synthesisStep keys order timestampNs) (lefts schedule)
        (state.locals, state.oscillator) := by
  induction schedule generalizing state with
  | nil => rfl
  | cons first schedule ih =>
    cases first with
    | inr section' => exact ih _
    | inl synthesis =>
      show ((((Oscillator.synthesisStep keys order timestampNs synthesis
        (state.locals, state.oscillator)).map _).bind _).map _) = _
      rw [Option.map_bind]
      show _ = (Oscillator.synthesisStep keys order timestampNs synthesis
        (state.locals, state.oscillator)).bind _
      cases Oscillator.synthesisStep keys order timestampNs synthesis
          (state.locals, state.oscillator) with
      | none => rfl
      | some next => exact ih _

/-- Sections of the synthesis leave the snapshot alone. -/
theorem perform_map_inl (steps : List SynthesisSection) (state : Saving platform) :
    perform (step keys order timestampNs saveOrder) (steps.map .inl) state =
      (perform (Oscillator.synthesisStep keys order timestampNs) steps
        (state.locals, state.oscillator)).map fun next ↦
          { state with locals := next.1, oscillator := next.2 } := by
  induction steps generalizing state with
  | nil => rfl
  | cons first steps ih =>
    show ((Oscillator.synthesisStep keys order timestampNs first
      (state.locals, state.oscillator)).map _).bind _ = _
    rw [perform_cons]
    cases Oscillator.synthesisStep keys order timestampNs first
        (state.locals, state.oscillator) with
    | none => rfl
    | some next => exact ih _

/-- After its first section a save leaves the accounts and the DAG in the snapshot alone. Assumes:
the schedule runs, and the first section is not in it. -/
theorem sameLedgers_perform {schedule : List (SynthesisSection ⊕ SaveSection)}
    (hread : .readLedgers ∉ rights schedule) {state final : Saving platform}
    (hperform : perform (step keys order timestampNs saveOrder) schedule state = some final) :
    SameLedgers final.snapshot state.snapshot := by
  refine @perform_invariant _ _ _ (fun next : Saving platform ↦
    SameLedgers next.snapshot state.snapshot) _ _ _ (fun first hfirst before after hstep hbefore ↦
      ?_) hperform ⟨rfl, rfl, rfl, rfl⟩
  cases first with
  | inl synthesis =>
    obtain ⟨next, -, rfl⟩ := Option.map_eq_some_iff.mp hstep
    exact hbefore
  | inr section' =>
    obtain rfl := Option.some.inj hstep
    cases section' with
    | readLedgers => exact absurd (mem_rights.mpr hfirst) hread
    | readBurned => exact ⟨hbefore.version, hbefore.accounts, hbefore.dagNodes, hbefore.dagBalances⟩
    | readEvm => exact ⟨hbefore.version, hbefore.accounts, hbefore.dagNodes, hbefore.dagBalances⟩
    | readStakes => exact ⟨hbefore.version, hbefore.accounts, hbefore.dagNodes, hbefore.dagBalances⟩

/-- The cut of a schedule: the sections of the synthesis before the save reads the ledgers lead to a
node, the other ones lead from there to its end, and the snapshot has the ledgers of that node. -/
structure Cut (keys : KeyRegistry) (order : SynthesisOrder) (timestampNs : ℕ)
    (saveOrder : SaveOrder) (oscillator : Oscillator platform) (before rest : List SynthesisSection)
    (state : SynthesisLocals × Oscillator platform) (final : Saving platform) : Prop where
  earlier : perform (Oscillator.synthesisStep keys order timestampNs) before (.start, oscillator) =
    some state
  later : perform (Oscillator.synthesisStep keys order timestampNs) rest state =
    some (final.locals, final.oscillator)
  ledgers : SameLedgers final.snapshot (snapshotOf state.2 saveOrder)

/-- What is written is the snapshot. Assumes: a snapshot is written. -/
theorem eq_of_written {state : Saving platform} {snapshot : Snapshot platform}
    (hwritten : state.written = .ok snapshot) : snapshot = state.snapshot := by
  unfold written toStringPretty at hwritten
  split_ifs at hwritten
  exact (Except.ok.inj hwritten).symm

/-- The snapshot of a cut is written when every clock that is stored at the cut is empty. Assumes:
the cut, and the clocks are empty. -/
theorem Cut.written {oscillator : Oscillator platform} {before rest : List SynthesisSection}
    {state : SynthesisLocals × Oscillator platform} {final : Saving platform}
    (hcut : Cut keys order timestampNs saveOrder oscillator before rest state final)
    (hempty : ClocksEmpty state.2.dag) : final.written = .ok final.snapshot := by
  have hsave : save state.2 saveOrder = .ok (snapshotOf state.2 saveOrder) :=
    save_eq_ok_iff.mpr ⟨hempty, rfl⟩
  unfold save toStringPretty at hsave
  unfold Saving.written toStringPretty
  rw [hcut.ledgers.dagNodes]
  split_ifs at hsave ⊢
  rfl

/-- Every schedule has a cut. Assumes: the schedule is one of the two calls, and runs. -/
theorem exists_cut {schedule : List (SynthesisSection ⊕ SaveSection)}
    (hschedule : Interleaves SynthesisSection.all SaveSection.all schedule)
    {oscillator : Oscillator platform} {final : Saving platform}
    (hperform : perform (step keys order timestampNs saveOrder) schedule (start oscillator) =
      some final) :
    ∃ before after state, schedule = before.map .inl ++ .inr .readLedgers :: after ∧
      SynthesisSection.all = before ++ lefts after ∧ .readLedgers ∉ rights after ∧
      Cut keys order timestampNs saveOrder oscillator before (lefts after) state final := by
  obtain ⟨before, after, rfl, hafter⟩ := eq_append_of_rights_eq_cons hschedule.right
  have hall : SynthesisSection.all = before ++ lefts after := by
    rw [← hschedule.left, lefts_append, lefts_map_inl]
    rfl
  have hread : SaveSection.readLedgers ∉ rights after := by
    rw [hafter]
    decide
  rw [perform_append, perform_map_inl] at hperform
  obtain ⟨_, hmiddle, hrest⟩ := Option.bind_eq_some_iff.mp hperform
  obtain ⟨state, hearlier, rfl⟩ := Option.map_eq_some_iff.mp hmiddle
  have hafterRead : perform (step keys order timestampNs saveOrder) after
      ⟨state.1, state.2, writeSection state.2 saveOrder .blank .readLedgers⟩ = some final := hrest
  refine ⟨before, after, state, rfl, hall, hread, hearlier, ?_, ?_⟩
  · have hlefts := @perform_lefts platform keys order timestampNs saveOrder after
      ⟨state.1, state.2, writeSection state.2 saveOrder .blank .readLedgers⟩
    rw [hafterRead] at hlefts
    exact hlefts.symm
  · obtain ⟨hversion, haccounts, hnodes, hbalances⟩ := sameLedgers_perform hread hafterRead
    exact ⟨hversion, haccounts, hnodes, hbalances⟩

end Saving

/-! ### Loading the snapshot -/

/-- Both ledgers of a node hold the balance that a synthesis reported for an account, and the next
synthesis starts from that balance after its decay. -/
def Reflects (loaded : Oscillator platform) (result : SynthesisResult) (party : AccountId) : Prop :=
  ∃ balance : Balance, result.finalBalances[party]? = some balance.units ∧
    loaded.dag.balances[party]? = some balance.units ∧
    loaded.waveField.accounts[party]? = some balance ∧
    loaded.syncedDag.balances[party]? = some (loaded.decayedAccount party balance).units

/-- A node that was loaded during or after a synthesis has all of the shifts that it has as applied:
both ledgers reflect those of that synthesis, and no further synthesis applies any of them. -/
structure TransactionConsistent (loaded : Oscillator platform) (result : SynthesisResult)
    (hashes : List TxHash) : Prop where
  reflected : ∀ hash ∈ hashes, ∀ node, loaded.dag.nodes[hash]? = some node →
    node.applied = true → ∀ party, party = node.shift.sender ∨ party = node.shift.recipient →
      Reflects loaded result party
  once : ∀ (hash : TxHash) (node : DagNode), loaded.dag.nodes[hash]? = some node →
    node.applied = true → ∀ keys order timestampNs final result' hashes',
      loaded.synthesize keys order timestampNs = some (final, result', hashes') → hash ∉ hashes'

/-- The save reads the ledgers between the commit and the copy back. -/
def Torn (schedule : List (SynthesisSection ⊕ SaveSection)) : Prop :=
  [.inl .commit, .inr .readLedgers, .inl .syncDagIntoField].Sublist schedule

instance (schedule : List (SynthesisSection ⊕ SaveSection)) : Decidable (Torn schedule) :=
  inferInstanceAs (Decidable ([.inl .commit, .inr .readLedgers,
    .inl .syncDagIntoField].Sublist schedule))

/-- A schedule is torn when its cut is. Assumes: the save reads the ledgers once. -/
theorem torn_iff {before : List SynthesisSection} {after : List (SynthesisSection ⊕ SaveSection)}
    (hread : .readLedgers ∉ rights after) :
    Torn (before.map .inl ++ .inr .readLedgers :: after) ↔
      .commit ∈ before ∧ .syncDagIntoField ∈ lefts after := by
  constructor
  · intro htorn
    obtain ⟨first, second, heq, hfirst, hsecond⟩ := List.sublist_append_iff.mp htorn
    have hinl : Sum.inr SaveSection.readLedgers ∉ first := by
      intro hmem
      obtain ⟨_, _, hsame⟩ := List.mem_map.mp (hfirst.subset hmem)
      cases hsame
    have hbehind : ∀ {steps : List (SynthesisSection ⊕ SaveSection)},
        (Sum.inr SaveSection.readLedgers :: steps).Sublist (.inr .readLedgers :: after) →
          steps.Sublist after := fun hsteps ↦ List.cons_sublist_cons.mp hsteps
    cases first with
    | nil =>
      rw [List.nil_append] at heq
      subst heq
      have hcut := hsecond.of_cons_of_ne Sum.inl_ne_inr
      exact absurd (mem_rights.mpr (hcut.subset (by simp))) hread
    | cons step first =>
      obtain ⟨rfl, hrest⟩ := List.cons.inj heq
      cases first with
      | nil =>
        obtain rfl : _ = second := hrest
        refine ⟨?_, mem_lefts.mpr ((hbehind hsecond).subset List.mem_cons_self)⟩
        obtain ⟨_, hstep, hsame⟩ := List.mem_map.mp (hfirst.subset List.mem_cons_self)
        rwa [← Sum.inl.inj hsame]
      | cons step first =>
        obtain ⟨rfl, -⟩ := List.cons.inj hrest
        exact absurd (List.mem_cons_of_mem _ List.mem_cons_self) hinl
  · rintro ⟨hcommit, hsync⟩
    have hfirst : [.inl .commit].Sublist
      (before.map (Sum.inl : _ → SynthesisSection ⊕ SaveSection)) :=
      List.singleton_sublist.mpr (List.mem_map_of_mem hcommit)
    exact hfirst.append ((List.singleton_sublist.mpr (mem_lefts.mp hsync)).cons_cons _)

/-- What a load restores of the ledgers of a snapshot. Assumes: the snapshot has the ledgers of a
node that keeps its DAG nodes under their own hashes. -/
theorem ledgers_load {oscillator : Oscillator platform}
    (hindexed : Oscillator.Indexed oscillator.dag) {order : SaveOrder}
    {snapshot : Snapshot platform} (hledgers : SameLedgers snapshot (snapshotOf oscillator order))
    (target : Oscillator platform) :
    ∃ loaded, load target (some snapshot) = .ok loaded ∧
      loaded.dag.nodes = oscillator.dag.nodes.map (fun _ node ↦ unnamedNode node) ∧
      loaded.dag.balances = oscillator.dag.balances ∧
      ∀ account, loaded.waveField.unitsAt account = oscillator.waveField.unitsAt account := by
  refine ⟨readSnapshot target snapshot, ?_, ?_, ?_, fun account ↦ ?_⟩
  · show (if snapshot.version ≠ 1 then _ else _) = _
    rw [if_neg fun hversion ↦ hversion hledgers.version]
  · show restore hashFromHex readNode (snapshot.dagNodes.map fun node ↦ (node.hash, node)) = _
    rw [hledgers.dagNodes]
    exact restore_nodes order hindexed
  · show restore accountFromHex (fun _ units ↦ units) snapshot.dagBalances = _
    rw [hledgers.dagBalances]
    exact (restore_visit accountFromHex_accountToHex order.balances oscillator.dag.balances
      (fun _ units ↦ units) fun _ units ↦ units).trans (map_self _)
  · show (restore accountFromHex (fun _ state ↦ readAccount state)
      snapshot.accounts)[account]?.map Balance.units = _
    have haccounts := restore_visit accountFromHex_accountToHex order.accounts
      oscillator.waveField.accounts
      (fun _ balance ↦ AccountStateSer.mk balance.units balance.decays balance.lastActiveTick)
      fun _ state ↦ readAccount state
    rw [hledgers.accounts]
    refine (congrArg (fun accounts : ExtTreeMap AccountId Balance ↦
      accounts[account]?.map Balance.units) haccounts).trans ?_
    rw [ExtTreeMap.getElem?_map, Option.map_map]
    rfl

/-- A restored node that has a flag was one of the DAG that was saved. Assumes: the nodes were
restored, and the node is one of them. -/
theorem saved_node {saved loaded : VectorClockDag}
    (hnodes : loaded.nodes = saved.nodes.map fun _ node ↦ unnamedNode node) {hash : TxHash}
    {node : DagNode} (hnode : loaded.nodes[hash]? = some node) :
    ∃ old, saved.nodes[hash]? = some old ∧ node.applied = old.applied ∧ node.shift = old.shift := by
  rw [hnodes, ExtTreeMap.getElem?_map, Option.map_eq_some_iff] at hnode
  obtain ⟨old, hold, rfl⟩ := hnode
  exact ⟨old, hold, rfl, rfl⟩

/-- A shift that a node has as applied is not applied again. Assumes: the node has it as applied,
and a synthesis returns. -/
theorem not_mem_of_applied {loaded final : Oscillator platform} {hash : TxHash} {node : DagNode}
    (hnode : loaded.dag.nodes[hash]? = some node) (hflag : node.applied = true)
    {keys : KeyRegistry} {order : SynthesisOrder} {timestampNs : ℕ} {result : SynthesisResult}
    {hashes : List TxHash}
    (hsynthesize : loaded.synthesize keys order timestampNs = some (final, result, hashes)) :
    hash ∉ hashes := by
  intro hmem
  rw [Oscillator.not_applied_of_mem hsynthesize hmem hnode] at hflag
  cases hflag

/-- Ledgers that agree on a reported balance reflect it. Assumes: the reported balance is that of
both ledgers. -/
theorem reflects_of_units {loaded : Oscillator platform} {result : SynthesisResult}
    {party : AccountId} {units : ℕ} (hreported : result.finalBalances[party]? = some units)
    (hbalance : loaded.dag.balances[party]? = some units)
    (hunits : loaded.waveField.unitsAt party = some units) : Reflects loaded result party := by
  obtain ⟨balance, haccount, rfl⟩ := Option.map_eq_some_iff.mp hunits
  refine ⟨balance, hreported, hbalance, haccount, ?_⟩
  rw [Oscillator.getElem?_syncedDag_balances, haccount]
  rfl

/-! ### Consistent cuts -/

/-- A snapshot that was cut before the commit has none of the shifts that the synthesis applies as
applied, and one that was cut behind the synthesis has the ledgers with which the synthesis ended.
Assumes: the cut is one of a synthesis of a node that runs, and is not torn. -/
theorem consistent_of_cut {keys : KeyRegistry} {order : SynthesisOrder} {timestampNs : ℕ}
    {saveOrder : SaveOrder} {oscillator : Oscillator platform}
    (hserved : Served platform oscillator) {before rest : List SynthesisSection}
    {state : SynthesisLocals × Oscillator platform} {final : Saving platform}
    (hcut : Saving.Cut keys order timestampNs saveOrder oscillator before rest state final)
    (hall : SynthesisSection.all = before ++ rest)
    (hwhole : ¬ (.commit ∈ before ∧ .syncDagIntoField ∈ rest))
    {result : SynthesisResult} {hashes : List TxHash}
    (hreturned : final.locals.returned = some (result, hashes)) (target : Oscillator platform) :
    ∃ loaded, load target (some final.snapshot) = .ok loaded ∧
      TransactionConsistent loaded result hashes := by
  have hindexed : Oscillator.Indexed state.2.dag :=
    Oscillator.indexed_perform hcut.earlier hserved.indexed
  obtain ⟨loaded, hload, hnodes, hbalances, hunits⟩ := ledgers_load hindexed hcut.ledgers target
  have hsections : perform (Oscillator.synthesisStep keys order timestampNs) SynthesisSection.all
      (.start, oscillator) = some (final.locals, final.oscillator) := by
    rw [hall, perform_append, hcut.earlier]
    exact hcut.later
  have hsynthesize : oscillator.synthesize keys order timestampNs =
      some (final.oscillator, result, hashes) := by
    have hsynthesis := Oscillator.perform_sections keys order timestampNs oscillator
    rw [hsections, Option.map_some] at hsynthesis
    obtain ⟨⟨last, out⟩, hout, hsame⟩ := Option.map_eq_some_iff.mp hsynthesis.symm
    obtain ⟨rfl, hresult⟩ := Prod.mk.inj hsame
    obtain rfl : out = (result, hashes) := Option.some.inj (hresult.trans hreturned)
    exact hout
  refine ⟨loaded, hload, fun hash hmem node hnode hflag party hparty ↦ ?_,
    fun hash node hnode hflag keys order timestampNs next result' hashes' hagain ↦
      not_mem_of_applied hnode hflag hagain⟩
  obtain ⟨old, hold, happlied, hshift⟩ := saved_node hnodes hnode
  by_cases hcommit : .commit ∈ before
  · have hrest : rest = [] := by
      have hsync : SynthesisSection.syncDagIntoField ∈ before := by
        have hmember : SynthesisSection.syncDagIntoField ∈ before ++ rest := by
          rw [← hall]
          decide
        exact (List.mem_append.mp hmember).resolve_right fun hsync ↦ hwhole ⟨hcommit, hsync⟩
      have hlast : SynthesisSection.all =
          SynthesisSection.all.dropLast ++ [.syncDagIntoField] := by decide
      exact eq_nil_of_append_eq_append_singleton (hall.symm.trans hlast) (by decide) hsync
    have hlast := hcut.later
    rw [hrest] at hlast
    obtain rfl := Option.some.inj hlast
    rw [hshift] at hparty
    obtain ⟨units, hreported, hbalance, hheld⟩ :=
      Oscillator.units_of_applied hsynthesize hmem hold hparty
    refine reflects_of_units hreported ?_ ?_
    · rw [hbalances]
      exact hbalance
    · rw [hunits]
      exact hheld
  · rw [happlied] at hflag
    obtain ⟨first, hfirst, hearly⟩ := Oscillator.flagged_perform hcut.earlier hcommit hold hflag
    exact absurd hmem (not_mem_of_applied hfirst hearly hsynthesize)

/-- An account is funded and a transfer of it is queued, without a clock. -/
def unclockedQueue : List Request :=
  [.seedAccount (sampleAccount 1) 1000,
    .ingest (.stateful (StatefulShift.sample 1 400 [] [] 1 0)) 1]

/-- Cut between the commit and the copy back of the next synthesis, that transfer has its flag, the
ledgers differ at its sender, and every stored clock is empty. -/
theorem exists_torn_cut :
    ∃ oscillator : Oscillator Platform.sample, Served Platform.sample oscillator ∧
      ∃ cut final : SynthesisLocals × Oscillator Platform.sample,
        perform (Oscillator.synthesisStep sampleKeys .forward 0)
          (SynthesisSection.all.take 19) (.start, oscillator) = some cut ∧
        perform (Oscillator.synthesisStep sampleKeys .forward 0)
          (SynthesisSection.all.drop 19) cut = some final ∧
        ∃ result hashes hash node, final.1.returned = some (result, hashes) ∧ hash ∈ hashes ∧
          cut.2.dag.nodes[hash]? = some node ∧ node.applied = true ∧
          cut.2.waveField.unitsAt node.shift.sender ≠ cut.2.dag.balances[node.shift.sender]? ∧
          ClocksEmpty cut.2.dag := by
  have hruns : ((run (step Platform.sample) anyStep (Oscillator.newWithKeypair 8)
      unclockedQueue).bind fun oscillator ↦
        (perform (Oscillator.synthesisStep sampleKeys .forward 0) (SynthesisSection.all.take 19)
          (.start, oscillator)).bind fun cut ↦
            (perform (Oscillator.synthesisStep sampleKeys .forward 0)
              (SynthesisSection.all.drop 19) cut).bind fun final ↦
                final.1.returned.bind fun out ↦ out.2.head?.bind fun hash ↦
                  cut.2.dag.nodes[hash]?.map fun node ↦
                    decide (node.applied = true ∧ cut.2.waveField.unitsAt node.shift.sender ≠
                      cut.2.dag.balances[node.shift.sender]? ∧ ClocksEmpty cut.2.dag)) =
      some true := by
    decide +kernel
  obtain ⟨oscillator, hrun, hrest⟩ := Option.bind_eq_some_iff.mp hruns
  obtain ⟨cut, hearlier, hrest⟩ := Option.bind_eq_some_iff.mp hrest
  obtain ⟨final, hlater, hrest⟩ := Option.bind_eq_some_iff.mp hrest
  obtain ⟨⟨result, hashes⟩, hreturned, hrest⟩ := Option.bind_eq_some_iff.mp hrest
  obtain ⟨hash, hhead, hrest⟩ := Option.bind_eq_some_iff.mp hrest
  obtain ⟨node, hnode, hholds⟩ := Option.map_eq_some_iff.mp hrest
  obtain ⟨history, -, hreaches⟩ := reaches_of_run hrun
  exact ⟨oscillator, served_of_reaches hreaches, cut, final, hearlier, hlater, result, hashes, hash,
    node, hreturned, List.mem_of_mem_head? hhead, hnode, of_decide_eq_true hholds⟩

/-- A torn cut is the one between the last two sections. Assumes: the cut is torn. -/
theorem eq_take_of_torn {before rest : List SynthesisSection}
    (hall : SynthesisSection.all = before ++ rest) (hcommit : .commit ∈ before)
    (hsync : .syncDagIntoField ∈ rest) :
    before = SynthesisSection.all.take 19 ∧ rest = SynthesisSection.all.drop 19 := by
  have hbefore : before = SynthesisSection.all.take before.length := by
    rw [hall, List.take_left]
  have hrest : rest = SynthesisSection.all.drop before.length := by
    rw [hall, List.drop_left]
  have hlength : before.length ≤ 20 := by
    have hwhole := congrArg List.length hall
    rw [List.length_append] at hwhole
    have hsections : SynthesisSection.all.length = 20 := rfl
    omega
  have hcut : ∀ place ≤ 20, .commit ∈ SynthesisSection.all.take place →
      .syncDagIntoField ∈ SynthesisSection.all.drop place → place = 19 := by decide
  rw [hbefore] at hcommit
  rw [hrest] at hsync
  rw [← hcut before.length hlength hcommit hsync]
  exact ⟨hbefore, hrest⟩

/-- The snapshots that a schedule writes are transaction-consistent, for every node that runs, every
synthesis of it and every node that loads the snapshot, exactly when the save does not read the
ledgers between the commit and the copy back. Assumes: the schedule is one of the sections of a
synthesis and of a save. -/
theorem consistent_iff_not_torn {schedule : List (SynthesisSection ⊕ SaveSection)}
    (hschedule : Interleaves SynthesisSection.all SaveSection.all schedule) :
    (∀ (platform : Platform) (oscillator : Oscillator platform), Served platform oscillator →
      ∀ (keys : KeyRegistry) (order : SynthesisOrder) (timestampNs : ℕ) (saveOrder : SaveOrder)
        (final : Saving platform) (result : SynthesisResult) (hashes : List TxHash),
        perform (Saving.step keys order timestampNs saveOrder) schedule (.start oscillator) =
          some final →
        final.locals.returned = some (result, hashes) →
        ∀ snapshot, final.written = .ok snapshot →
        ∀ target : Oscillator platform, ∃ loaded, load target (some snapshot) = .ok loaded ∧
          TransactionConsistent loaded result hashes) ↔ ¬ Torn schedule := by
  constructor
  · intro hconsistent htorn
    obtain ⟨oscillator, hserved, state, last, hearlier, hlater, result, hashes, hash, node,
      hreturned, hmem, hnode, hflag, hdiffer, hempty⟩ := exists_torn_cut
    have hlefts := @Saving.perform_lefts Platform.sample sampleKeys .forward 0 .forward schedule
      (.start oscillator)
    have hsections : perform (Oscillator.synthesisStep sampleKeys .forward 0) SynthesisSection.all
        (.start, oscillator) = some last := by
      rw [← List.take_append_drop 19 SynthesisSection.all, perform_append, hearlier]
      exact hlater
    rw [hschedule.left] at hlefts
    obtain ⟨final, hperform, rfl⟩ := Option.map_eq_some_iff.mp (hlefts.trans hsections)
    obtain ⟨before, after, cut, rfl, hall, hread, hcut⟩ := Saving.exists_cut hschedule hperform
    obtain ⟨hcommit, hsync⟩ := (torn_iff hread).mp htorn
    obtain ⟨rfl, -⟩ := eq_take_of_torn hall hcommit hsync
    obtain rfl : cut = state := Option.some.inj (hcut.earlier.symm.trans hearlier)
    obtain ⟨loaded, hload, hreflected, -⟩ := hconsistent Platform.sample oscillator hserved
      sampleKeys .forward 0 .forward final result hashes hperform hreturned final.snapshot
      (hcut.written hempty) oscillator
    obtain ⟨loaded', hload', hnodes, hbalances, hunits⟩ := ledgers_load
      (Oscillator.indexed_perform hcut.earlier hserved.indexed) hcut.ledgers oscillator
    obtain rfl := Except.ok.inj (hload.symm.trans hload')
    have hrestored : loaded.dag.nodes[hash]? = some (unnamedNode node) := by
      rw [hnodes, ExtTreeMap.getElem?_map, hnode]
      rfl
    obtain ⟨balance, -, hbalance, haccount, -⟩ := hreflected hash hmem _ hrestored hflag
      node.shift.sender (.inl rfl)
    apply hdiffer
    rw [← hunits, ← hbalances, hbalance]
    exact congrArg (Option.map Balance.units) haccount
  · intro hwhole platform oscillator hserved keys order timestampNs saveOrder final result hashes
      hperform hreturned snapshot hwritten target
    obtain rfl := Saving.eq_of_written hwritten
    obtain ⟨before, after, state, rfl, hall, hread, hcut⟩ := Saving.exists_cut hschedule hperform
    exact consistent_of_cut hserved hcut hall (fun htorn ↦ hwhole ((torn_iff hread).mpr htorn))
      hreturned target

/-- A save after the synthesis is consistent. -/
theorem consistent_iff_not_torn_saveLast :
    Interleaves SynthesisSection.all SaveSection.all
      (SynthesisSection.all.map .inl ++ SaveSection.all.map .inr) ∧
    ∀ (platform : Platform) (oscillator : Oscillator platform), Served platform oscillator →
      ∀ (keys : KeyRegistry) (order : SynthesisOrder) (timestampNs : ℕ) (saveOrder : SaveOrder)
        (final : Saving platform) (result : SynthesisResult) (hashes : List TxHash),
        perform (Saving.step keys order timestampNs saveOrder)
          (SynthesisSection.all.map .inl ++ SaveSection.all.map .inr) (.start oscillator) =
            some final →
        final.locals.returned = some (result, hashes) →
        ∀ snapshot, final.written = .ok snapshot →
        ∀ target : Oscillator platform, ∃ loaded, load target (some snapshot) = .ok loaded ∧
          TransactionConsistent loaded result hashes := by
  have hschedule : Interleaves SynthesisSection.all SaveSection.all
      (SynthesisSection.all.map .inl ++ SaveSection.all.map .inr) := ⟨by decide, by decide⟩
  exact ⟨hschedule, (consistent_iff_not_torn hschedule).mpr (by decide)⟩

/-- The schedule that saves between the last two sections of a synthesis. -/
def tornSchedule : List (SynthesisSection ⊕ SaveSection) :=
  (SynthesisSection.all.take 19).map .inl ++ SaveSection.all.map .inr ++ [.inl .syncDagIntoField]

/-- A node whose transfer has its flag in the snapshot that is written, and which loses it: the next
synthesis after the restart starts from what the sender held before it. -/
theorem transfer_lost :
    Interleaves SynthesisSection.all SaveSection.all tornSchedule ∧
    ∃ oscillator : Oscillator Platform.sample, Served Platform.sample oscillator ∧
      ∃ (final : Saving Platform.sample) (result : SynthesisResult) (hashes : List TxHash)
        (snapshot : Snapshot Platform.sample) (loaded : Oscillator Platform.sample),
        perform (Saving.step sampleKeys .forward 0 .forward) tornSchedule (.start oscillator) =
          some final ∧
        final.locals.returned = some (result, hashes) ∧
        final.written = .ok snapshot ∧
        load (Oscillator.newWithKeypair 8) (some snapshot) = .ok loaded ∧
        ∃ hash ∈ hashes, ∃ node : DagNode, loaded.dag.nodes[hash]? = some node ∧
          node.applied = true ∧ result.finalBalances[node.shift.sender]? = some 600 ∧
          loaded.dag.balances[node.shift.sender]? = some 600 ∧
          loaded.waveField.unitsAt node.shift.sender = some 1000 ∧
          loaded.syncedDag.balances[node.shift.sender]? = some 1000 ∧
          ¬ TransactionConsistent loaded result hashes := by
  have hschedule : Interleaves SynthesisSection.all SaveSection.all tornSchedule :=
    ⟨by decide, by decide⟩
  have hruns : ((run (step Platform.sample) anyStep (Oscillator.newWithKeypair 8)
      unclockedQueue).bind fun oscillator ↦
        (perform (Saving.step sampleKeys .forward 0 .forward) tornSchedule
          (.start oscillator)).bind fun final ↦ final.locals.returned.bind fun out ↦
            final.written.toOption.bind fun snapshot ↦
              (load (Oscillator.newWithKeypair 8) (some snapshot)).toOption.bind fun loaded ↦
                out.2.head?.bind fun hash ↦ loaded.dag.nodes[hash]?.map fun node ↦
                  decide (node.applied = true ∧
                    out.1.finalBalances[node.shift.sender]? = some 600 ∧
                    loaded.dag.balances[node.shift.sender]? = some 600 ∧
                    loaded.waveField.unitsAt node.shift.sender = some 1000 ∧
                    loaded.syncedDag.balances[node.shift.sender]? = some 1000)) = some true := by
    decide +kernel
  obtain ⟨oscillator, hrun, hrest⟩ := Option.bind_eq_some_iff.mp hruns
  obtain ⟨final, hperform, hrest⟩ := Option.bind_eq_some_iff.mp hrest
  obtain ⟨⟨result, hashes⟩, hreturned, hrest⟩ := Option.bind_eq_some_iff.mp hrest
  obtain ⟨snapshot, hwritten, hrest⟩ := Option.bind_eq_some_iff.mp hrest
  obtain ⟨loaded, hload, hrest⟩ := Option.bind_eq_some_iff.mp hrest
  obtain ⟨hash, hhead, hrest⟩ := Option.bind_eq_some_iff.mp hrest
  obtain ⟨node, hnode, hholds⟩ := Option.map_eq_some_iff.mp hrest
  obtain ⟨hflag, hreported, hbalance, hunits, hsynced⟩ := of_decide_eq_true hholds
  obtain ⟨history, -, hreaches⟩ := reaches_of_run hrun
  have hmem := List.mem_of_mem_head? hhead
  refine ⟨hschedule, oscillator, served_of_reaches hreaches, final, result, hashes, snapshot,
    loaded, hperform, hreturned, eq_ok_of_toOption hwritten, eq_ok_of_toOption hload, hash, hmem,
    node, hnode, hflag, hreported, hbalance, hunits, hsynced, ?_⟩
  rintro ⟨hreflected, -⟩
  obtain ⟨balance, -, hother, haccount, -⟩ := hreflected hash hmem node hnode hflag
    node.shift.sender (.inl rfl)
  have hheld := (congrArg (Option.map Balance.units) haccount).symm.trans hunits
  rw [hbalance, Option.some.injEq] at hother
  rw [Option.map_some, Option.some.injEq, ← hother] at hheld
  exact absurd hheld (by decide)

end Fluidic.Persistence
