import Fluidic.Consensus.AdmissionOrder
import Fluidic.Consensus.Conservation
import Fluidic.Consensus.SpendCliques

/-!
# Bounds on what a sender spends

What the double-spend check and the loop of a synthesis look at is known before it: the spends of
the stored shifts and of the queued ones that are insertable (`perm_visibleSpends`), and what each
account keeps when it is decayed to the tick (`unitsKept`). A shift is not found overspent when each
earlier rival and the shifts that compete with that rival up to it are together within what the
sender keeps (`not_isOverspent`), and only then where no sum of the amounts leaves 128 bits
(`isOverspent_iff`). A shift is applied when nothing stands against it but the balance, and its
sender keeps enough for all of its open shifts (`mem_hashes_of_secured`).
-/

set_option autoImplicit false
set_option relaxedAutoImplicit false

namespace Fluidic.Consensus

open Library Crypto Fluidic.Field Value Operator
open Std (ExtTreeMap LawfulEqCmp)

/-! ### Spends -/

/-- A shift, its hash, and the tick of its insertion. -/
structure Spend where
  hash : TxHash
  tick : ℕ
  shift : StatefulShift
  deriving DecidableEq

/-- The spend of an entry of the DAG. -/
def spendOf (entry : TxHash × DagNode) : Spend :=
  ⟨entry.1, entry.2.insertedAtTick, entry.2.shift⟩

/-- A node has the same spend as one that differs in its children only. Assumes: the two nodes
differ in their children only. -/
theorem spendOf_core (hash : TxHash) {node other : DagNode} (hcore : node.core = other) :
    spendOf (hash, node) = ⟨hash, other.insertedAtTick, other.shift⟩ := by
  subst hcore
  rfl

namespace Spend

/-- A spend comes before another one: at an earlier tick, or at the same tick with a smaller hash.
-/
def before (first second : Spend) : Bool :=
  decide (first.tick < second.tick ∨
    first.tick = second.tick ∧ first.hash.toNat < second.hash.toNat)

/-- A spend is an earlier rival of another one of the same sender: it comes before it, and the two
are concurrent. -/
def rivals (first second : Spend) : Bool :=
  decide (first.shift.sender = second.shift.sender) && first.before second &&
    first.shift.vectorClock.concurrentWith second.shift.vectorClock

/-- What a list of spends comes to. -/
def total (spends : List Spend) : ℕ := (spends.map fun spend ↦ spend.shift.amount).sum

/-- What a spend and those that it rivals, up to a second one, come to. -/
def rivalTotal (spends : List Spend) (first second : Spend) : ℕ :=
  first.shift.amount +
    total (spends.filter fun other ↦ first.rivals other && !second.before other)

/-- Distinct spends of a list do not come to more than the list. Assumes: the spends of the part are
distinct and all in the list. -/
theorem total_le_of_subset {part whole : List Spend} (hnodup : part.Nodup)
    (hsubset : part ⊆ whole) : total part ≤ total whole := by
  obtain ⟨arranged, hperm, hsublist⟩ := List.subperm_of_subset hnodup hsubset
  unfold total
  rw [← (hperm.map _).sum_eq]
  exact (hsublist.map _).sum_le_sum fun _ _ ↦ Nat.zero_le _

/-- Entries with distinct hashes have distinct spends. Assumes: the hashes of the entries are
distinct. -/
theorem nodup_map_spendOf {entries : List (TxHash × DagNode)}
    (hnodup : (entries.map Prod.fst).Nodup) : (entries.map spendOf).Nodup := by
  refine List.Nodup.of_map Spend.hash ?_
  rw [List.map_map]
  exact hnodup

/-- The order of the check between two entries, for their spends. Assumes: the hashes differ. -/
theorem before_spendOf {first second : TxHash × DagNode} (hne : second.1 ≠ first.1) :
    (spendOf first).before (spendOf second) = VectorClockDag.spendsBefore first second := by
  have hdifferent : first.1.toNat ≠ second.1.toNat := fun hsame ↦
    hne (BitVec.eq_of_toNat_eq hsame.symm)
  refine Bool.eq_iff_iff.mpr ?_
  rw [VectorClockDag.spendsBefore_iff]
  unfold before spendOf
  rw [decide_eq_true_eq]
  dsimp only
  omega

/-- An entry that does not stand before another one stands behind it or is the same, and so do their
spends. -/
theorem not_before_spendOf (first second : TxHash × DagNode) :
    (!(spendOf first).before (spendOf second)) = VectorClockDag.spendsBefore second first := by
  refine Bool.eq_iff_iff.mpr ?_
  rw [VectorClockDag.spendsBefore_iff, Bool.not_eq_true']
  unfold before spendOf
  rw [decide_eq_false_iff_not]
  dsimp only
  omega

/-- When the spend of an entry is an earlier rival of that of another one. Assumes: both are entries
of one DAG. -/
theorem rivals_spendOf {dag : VectorClockDag} {first other : TxHash × DagNode}
    (hfirst : first ∈ dag.nodes.toList) (hother : other ∈ dag.nodes.toList) :
    (spendOf first).rivals (spendOf other) =
      (decide (other.2.shift.sender = first.2.shift.sender) &&
        (VectorClockDag.spendsBefore first other && decide (other.1 ≠ first.1)) &&
          first.2.shift.vectorClock.concurrentWith other.2.shift.vectorClock) := by
  have hsender : decide ((spendOf first).shift.sender = (spendOf other).shift.sender) =
      decide (other.2.shift.sender = first.2.shift.sender) := decide_eq_decide.mpr eq_comm
  unfold rivals
  rw [hsender]
  by_cases hself : other.1 = first.1
  · have hsame : other = first :=
      List.inj_on_of_nodup_map (nodup_keys dag.nodes) hother hfirst hself
    subst hsame
    have hbefore : (spendOf other).before (spendOf other) = false := by
      simp [before]
    simp [hbefore]
  · rw [before_spendOf hself, decide_eq_true hself, Bool.and_true]
    rfl

/-- The order of the spends does not matter for what some of them come to. Assumes: the lists are
the same up to order. -/
theorem rivalTotal_of_perm {spends spends' : List Spend} (hperm : spends.Perm spends')
    (first second : Spend) : rivalTotal spends first second = rivalTotal spends' first second :=
  congrArg (first.shift.amount + ·) ((hperm.filter _).map _).sum_eq

/-- The amount of every spend and those of the spends that it rivals fit together. -/
def WithinRange (spends : List Spend) : Prop :=
  ∀ spend ∈ spends, spend.shift.amount + total (spends.filter spend.rivals) < 2 ^ 128

/-- The order of the spends does not matter. Assumes: the lists are the same up to order. -/
theorem withinRange_of_perm {spends spends' : List Spend} (hperm : spends.Perm spends') :
    WithinRange spends ↔ WithinRange spends' := by
  unfold WithinRange
  simp only [hperm.mem_iff]
  refine forall₂_congr fun spend _ ↦ ?_
  have hsum : total (spends.filter spend.rivals) = total (spends'.filter spend.rivals) :=
    ((hperm.filter _).map _).sum_eq
  rw [hsum]

/-- A spend and those that it rivals up to a second one fit together. Assumes: the amounts fit
together, and the spend is one of the list. -/
theorem rivalTotal_lt {spends : List Spend} (hfits : WithinRange spends) {first : Spend}
    (hfirst : first ∈ spends) (second : Spend) : rivalTotal spends first second < 2 ^ 128 := by
  have hpart : total (spends.filter fun other ↦ first.rivals other && !second.before other) ≤
      total (spends.filter first.rivals) := by
    rw [← List.filter_filter]
    exact ((List.filter_sublist.filter _).map _).sum_le_sum fun _ _ ↦ Nat.zero_le _
  exact (Nat.add_le_add_left hpart _).trans_lt (hfits first hfirst)

end Spend

namespace Oscillator

variable {platform : Platform}

/-- The spends of the stored shifts. -/
def storedSpends (oscillator : Oscillator platform) : List Spend :=
  oscillator.dag.nodes.toList.map spendOf

/-- The spends of the queued shifts, which the next synthesis inserts. -/
def queuedSpends (oscillator : Oscillator platform) : List Spend :=
  oscillator.pendingStateful.map fun shift ↦
    ⟨shift.hash platform.primitives, oscillator.synthesisTick, shift⟩

/-! ### Admission -/

/-- Moving pending shifts into the DAG removes no node. Assumes: the node is there before. -/
theorem mem_admitted {prim : Primitives} {registry : DomainRegistry} {keys : KeyRegistry}
    {tick : ℕ} {progress : VectorClockDag × List DagError} {hash : TxHash}
    (hmem : hash ∈ progress.1.nodes) (shifts : List StatefulShift) :
    hash ∈ (shifts.foldl (admitShift prim registry keys tick) progress).1.nodes := by
  obtain ⟨node, hnode⟩ := mem_iff_exists_getElem?.mp hmem
  rcases admitted_core prim registry keys tick shifts progress hash with hsame | ⟨hnone, -⟩
  · rw [hnode, Option.map_some, Option.map_eq_some_iff] at hsame
    obtain ⟨kept, hkept, -⟩ := hsame
    exact mem_iff_exists_getElem?.mpr ⟨kept, hkept⟩
  · rw [hnode] at hnone
    cases hnone

/-- The DAG has no node of an admitted shift yet. Assumes: the DAG admits the shift. -/
theorem not_mem_of_admits {prim : Primitives} {keys : KeyRegistry} {dag : VectorClockDag}
    {shift : StatefulShift} (hadmits : admits prim keys dag shift = true) :
    shift.hash prim ∉ dag.nodes := by
  unfold admits at hadmits
  rw [Bool.and_eq_true, Bool.and_eq_true, Bool.not_eq_true', Bool.not_eq_true'] at hadmits
  exact fun hmem ↦ Bool.false_ne_true
    (hadmits.1.2.symm.trans (ExtTreeMap.contains_iff_mem.mpr hmem))

/-- What is a node after an admission. -/
theorem mem_nodes_admitShift {prim : Primitives} {registry : DomainRegistry} {keys : KeyRegistry}
    {tick : ℕ} {progress : VectorClockDag × List DagError} (shift : StatefulShift)
    (hash : TxHash) :
    hash ∈ (admitShift prim registry keys tick progress shift).1.nodes ↔
      (admits prim keys progress.1 shift = true ∧ shift.hash prim = hash) ∨
      hash ∈ progress.1.nodes := by
  rw [← ExtTreeMap.isSome_getElem?_iff_mem, ← ExtTreeMap.isSome_getElem?_iff_mem,
    getElem?_admitShift]
  split_ifs with hadmits hself
  · simp [hadmits, hself]
  · simp [hself]
  · simp [hadmits]

/-- A pending shift has a node once it is moved into the DAG. Assumes: the key of the shift is
registered and verifies it, and its predecessors are there. -/
theorem mem_admitShift {prim : Primitives} {registry : DomainRegistry} {keys : KeyRegistry}
    {tick : ℕ} {progress : VectorClockDag × List DagError} {shift : StatefulShift}
    {publicKey : VerifyingKey} (hkey : keys[shift.sender]? = some publicKey)
    (hverified : shift.verifySignature prim publicKey = true)
    (hpredecessors : ∀ predecessor ∈ shift.predecessors, predecessor ∈ progress.1.nodes) :
    shift.hash prim ∈ (admitShift prim registry keys tick progress shift).1.nodes := by
  by_cases hstored : shift.hash prim ∈ progress.1.nodes
  · exact mem_admitted hstored [shift]
  · have hadmits : admits prim keys progress.1 shift = true := by
      have hnew : progress.1.nodes.contains (shift.hash prim) = false :=
        Bool.eq_false_iff.mpr fun hcontains ↦ hstored (ExtTreeMap.contains_iff_mem.mp hcontains)
      unfold admits isForged
      rw [hkey, hnew]
      simpa [hverified] using hpredecessors
    exact (mem_nodes_admitShift ..).mpr (.inl ⟨hadmits, rfl⟩)

/-- Every pending shift that the DAG can take has a node once all were moved into it. Assumes: the
shift is pending, its key is registered and verifies it, and its predecessors are there. -/
theorem mem_admitted_of_pending {prim : Primitives} {registry : DomainRegistry}
    {keys : KeyRegistry} {tick : ℕ} {shifts : List StatefulShift}
    {progress : VectorClockDag × List DagError} {shift : StatefulShift} (hshift : shift ∈ shifts)
    {publicKey : VerifyingKey} (hkey : keys[shift.sender]? = some publicKey)
    (hverified : shift.verifySignature prim publicKey = true)
    (hpredecessors : ∀ predecessor ∈ shift.predecessors, predecessor ∈ progress.1.nodes) :
    shift.hash prim ∈ (shifts.foldl (admitShift prim registry keys tick) progress).1.nodes := by
  induction shifts generalizing progress with
  | nil => exact absurd hshift List.not_mem_nil
  | cons first shifts ih =>
    rw [List.foldl_cons]
    rcases List.mem_cons.mp hshift with rfl | hlater
    · exact mem_admitted (mem_admitShift hkey hverified hpredecessors) shifts
    · refine ih hlater fun predecessor hpredecessor ↦ ?_
      exact mem_admitted (hpredecessors predecessor hpredecessor) [first]

/-! ### The queued shifts that are inserted -/

/-- Whether a queued shift is inserted next to known hashes: it is not forged, its own hash is not
known, and those of its predecessors are. -/
def isInsertable (prim : Primitives) (keys : KeyRegistry) (known : List TxHash)
    (shift : StatefulShift) : Bool :=
  !isForged prim keys shift && !known.contains (shift.hash prim) &&
    shift.predecessors.all known.contains

/-- The shifts of a queue that are inserted next to known hashes. -/
def insertable (prim : Primitives) (keys : KeyRegistry) :
    List TxHash → List StatefulShift → List StatefulShift
  | _, [] => []
  | known, shift :: queue =>
    if isInsertable prim keys known shift then
      shift :: insertable prim keys (shift.hash prim :: known) queue
    else insertable prim keys known queue

/-- The spends that the next synthesis looks at: those of the stored shifts, and those of the queued
shifts that it inserts. -/
def visibleSpends (oscillator : Oscillator platform) (keys : KeyRegistry) : List Spend :=
  oscillator.storedSpends ++
    (insertable platform.primitives keys (oscillator.storedSpends.map Spend.hash)
      oscillator.pendingStateful).map fun shift ↦
        ⟨shift.hash platform.primitives, oscillator.synthesisTick, shift⟩

section Insertable

variable {prim : Primitives} {registry : DomainRegistry} {keys : KeyRegistry} {tick : ℕ}
  {progress : VectorClockDag × List DagError} {known : List TxHash}

/-- The spends of a DAG are those of its nodes. -/
theorem mem_map_spendOf {dag : VectorClockDag} {spend : Spend} :
    spend ∈ dag.nodes.toList.map spendOf ↔ ∃ node, dag.nodes[spend.hash]? = some node ∧
      node.insertedAtTick = spend.tick ∧ node.shift = spend.shift := by
  constructor
  · intro hmem
    obtain ⟨⟨hash, node⟩, hentry, rfl⟩ := List.mem_map.mp hmem
    exact ⟨node, ExtTreeMap.mem_toList_iff_getElem?_eq_some.mp hentry, rfl, rfl⟩
  · rintro ⟨node, hnode, htick, hshift⟩
    refine List.mem_map.mpr ⟨(spend.hash, node),
      ExtTreeMap.mem_toList_iff_getElem?_eq_some.mpr hnode, ?_⟩
    obtain ⟨hash, tick, shift⟩ := spend
    subst htick
    subst hshift
    rfl

/-- The DAG admits the insertable shifts. Assumes: the known hashes are those of the nodes. -/
theorem isInsertable_eq_admits (hknown : ∀ hash, hash ∈ known ↔ hash ∈ progress.1.nodes)
    (shift : StatefulShift) :
    isInsertable prim keys known shift = admits prim keys progress.1 shift := by
  have hcontains : known.contains = fun hash ↦ progress.1.nodes.contains hash := by
    funext hash
    rw [Bool.eq_iff_iff, List.contains_iff_mem, ExtTreeMap.contains_iff_mem]
    exact hknown hash
  unfold isInsertable admits
  rw [hcontains]

/-- An admission adds the spend of a shift that is admitted. -/
theorem mem_spends_admitShift (shift : StatefulShift) (spend : Spend) :
    spend ∈ (admitShift prim registry keys tick progress shift).1.nodes.toList.map spendOf ↔
      (admits prim keys progress.1 shift = true ∧ ⟨shift.hash prim, tick, shift⟩ = spend) ∨
      spend ∈ progress.1.nodes.toList.map spendOf := by
  rw [mem_map_spendOf, mem_map_spendOf, getElem?_admitShift]
  obtain ⟨hash, tick', shift'⟩ := spend
  split_ifs with hadmits hself
  · obtain rfl : shift.hash prim = hash := hself
    have hnone : progress.1.nodes[shift.hash prim]? = none :=
      ExtTreeMap.getElem?_eq_none (not_mem_of_admits hadmits)
    simp [hadmits, hnone, VectorClockDag.freshNode]
  · have hlinked (node : DagNode) :
        (VectorClockDag.linked shift.predecessors (shift.hash prim) hash node).insertedAtTick =
          node.insertedAtTick := by
      unfold VectorClockDag.linked
      split_ifs <;> rfl
    simp [hself, hlinked]
  · simp [hadmits]

/-- Moving pending shifts into the DAG adds the spends of those that are insertable. Assumes: the
known hashes are those of the nodes. -/
theorem mem_spends_admitted (hknown : ∀ hash, hash ∈ known ↔ hash ∈ progress.1.nodes)
    (queue : List StatefulShift) (spend : Spend) :
    spend ∈ (queue.foldl (admitShift prim registry keys tick) progress).1.nodes.toList.map
        spendOf ↔
      spend ∈ progress.1.nodes.toList.map spendOf ∨
      ∃ shift ∈ insertable prim keys known queue, ⟨shift.hash prim, tick, shift⟩ = spend := by
  induction queue generalizing progress known with
  | nil => simp [insertable]
  | cons shift queue ih =>
    rw [List.foldl_cons, insertable, isInsertable_eq_admits hknown]
    split_ifs with hadmits
    · have hnext : ∀ hash, hash ∈ shift.hash prim :: known ↔
          hash ∈ (admitShift prim registry keys tick progress shift).1.nodes := by
        intro hash
        rw [List.mem_cons, hknown, mem_nodes_admitShift, and_iff_right hadmits,
          @eq_comm _ hash]
      refine (ih hnext).trans ?_
      rw [mem_spends_admitShift, and_iff_right hadmits, or_assoc, or_left_comm]
      simp only [List.mem_cons, exists_eq_or_imp]
    · have hnext : ∀ hash, hash ∈ known ↔
          hash ∈ (admitShift prim registry keys tick progress shift).1.nodes := by
        intro hash
        rw [hknown, mem_nodes_admitShift]
        exact (or_iff_right fun hboth ↦ hadmits hboth.1).symm
      refine (ih hnext).trans (or_congr_left ?_)
      rw [mem_spends_admitShift]
      exact or_iff_right fun hboth ↦ hadmits hboth.1

end Insertable

/-- The inserted shifts have hashes of their own. Assumes: the known hashes are distinct. -/
theorem nodup_insertable (prim : Primitives) (keys : KeyRegistry) {known : List TxHash}
    (hnodup : known.Nodup) (queue : List StatefulShift) :
    (known ++ (insertable prim keys known queue).map (StatefulShift.hash prim)).Nodup := by
  induction queue generalizing known with
  | nil =>
    rw [insertable, List.map_nil, List.append_nil]
    exact hnodup
  | cons shift queue ih =>
    rw [insertable]
    split_ifs with hinsertable
    · unfold isInsertable at hinsertable
      rw [Bool.and_eq_true, Bool.and_eq_true, Bool.not_eq_true', Bool.not_eq_true'] at hinsertable
      have hnew : shift.hash prim ∉ known := fun hmem ↦
        Bool.false_ne_true (hinsertable.1.2.symm.trans (List.contains_iff_mem.mpr hmem))
      rw [List.map_cons]
      exact List.perm_middle.nodup_iff.mpr (ih (List.nodup_cons.mpr ⟨hnew, hnodup⟩))
    · exact ih hnodup

/-- The visible spends are those of the nodes of the DAG that the synthesis checks. -/
theorem perm_visibleSpends (oscillator : Oscillator platform) (keys : KeyRegistry) :
    ((oscillator.checkedDag keys).nodes.toList.map spendOf).Perm
      (oscillator.visibleSpends keys) := by
  have hhashes : oscillator.storedSpends.map Spend.hash =
      oscillator.dag.nodes.toList.map Prod.fst := by
    unfold storedSpends
    rw [List.map_map]
    rfl
  have hvisible : (oscillator.visibleSpends keys).Nodup := by
    refine List.Nodup.of_map Spend.hash ?_
    unfold visibleSpends
    rw [List.map_append, List.map_map]
    exact nodup_insertable platform.primitives keys
      (hhashes ▸ nodup_keys oscillator.dag.nodes) oscillator.pendingStateful
  refine (List.perm_ext_iff_of_nodup (Spend.nodup_map_spendOf
    (nodup_keys (oscillator.checkedDag keys).nodes)) hvisible).mpr fun spend ↦ ?_
  have hnodes : oscillator.syncedDag.nodes = oscillator.dag.nodes := by
    obtain ⟨balances, hsynced⟩ := oscillator.syncedDag_eq
    rw [hsynced]
  have hknown : ∀ hash, hash ∈ oscillator.storedSpends.map Spend.hash ↔
      hash ∈ oscillator.syncedDag.nodes := by
    intro hash
    rw [hhashes, hnodes, mem_iff_exists_getElem?]
    constructor
    · intro hmem
      obtain ⟨⟨_, node⟩, hentry, rfl⟩ := List.mem_map.mp hmem
      exact ⟨node, ExtTreeMap.mem_toList_iff_getElem?_eq_some.mp hentry⟩
    · rintro ⟨node, hnode⟩
      exact List.mem_map.mpr ⟨(hash, node),
        ExtTreeMap.mem_toList_iff_getElem?_eq_some.mpr hnode, rfl⟩
  have hmem := @mem_spends_admitted platform.primitives oscillator.domainRegistry keys
    oscillator.synthesisTick (oscillator.syncedDag, []) _ hknown oscillator.pendingStateful spend
  dsimp only at hmem
  rw [hnodes] at hmem
  unfold checkedDag visibleSpends
  rw [hmem, List.mem_append]
  exact or_congr_right List.mem_map.symm

/-! ### The double-spend check -/

/-- The units that an account keeps when it is decayed to the next tick. -/
def unitsKept (oscillator : Oscillator platform) (account : AccountId) : ℕ :=
  oscillator.waveField.accounts[account]?.elim 0 fun balance ↦
    (oscillator.decayedAccount account balance).units

/-- The sender of a spend keeps enough for it: each earlier rival, and those that it rivals up to
the spend, come to no more than the sender keeps. -/
def Covers (oscillator : Oscillator platform) (keys : KeyRegistry) (spend : Spend) : Prop :=
  ∀ first ∈ oscillator.visibleSpends keys, first.rivals spend = true →
    Spend.rivalTotal (oscillator.visibleSpends keys) first spend ≤
      oscillator.unitsKept spend.shift.sender

instance (oscillator : Oscillator platform) (keys : KeyRegistry) (spend : Spend) :
    Decidable (oscillator.Covers keys spend) :=
  inferInstanceAs (Decidable (∀ first ∈ oscillator.visibleSpends keys,
    first.rivals spend = true → Spend.rivalTotal (oscillator.visibleSpends keys) first spend ≤
      oscillator.unitsKept spend.shift.sender))

/-- The check sees no other spends. Assumes: the check sees the entry. -/
theorem spendOf_mem_visibleSpends {oscillator : Oscillator platform} {keys : KeyRegistry}
    {entry : TxHash × DagNode} (hentry : entry ∈ (oscillator.checkedDag keys).nodes.toList) :
    spendOf entry ∈ oscillator.visibleSpends keys :=
  (oscillator.perm_visibleSpends keys).mem_iff.mp (List.mem_map_of_mem hentry)

/-- The balance that the check grants an account. -/
theorem getD_checkedDag_balances (oscillator : Oscillator platform) (keys : KeyRegistry)
    (account : AccountId) :
    (oscillator.checkedDag keys).balances.getD account 0 =
      ((oscillator.waveField.accounts[account]?.map fun balance ↦
        (oscillator.decayedAccount account balance).units).or
          oscillator.dag.balances[account]?).getD 0 := by
  have hbalances : (oscillator.checkedDag keys).balances = oscillator.syncedDag.balances :=
    admitted_balances platform.primitives oscillator.domainRegistry keys oscillator.synthesisTick
      oscillator.pendingStateful (oscillator.syncedDag, [])
  rw [hbalances, ExtTreeMap.getD_eq_getD_getElem?, getElem?_syncedDag_balances]

/-- The check grants an account at least what it keeps. -/
theorem unitsKept_le (oscillator : Oscillator platform) (keys : KeyRegistry)
    (account : AccountId) :
    oscillator.unitsKept account ≤ (oscillator.checkedDag keys).balances.getD account 0 := by
  rw [getD_checkedDag_balances]
  unfold unitsKept
  cases oscillator.waveField.accounts[account]? with
  | none => exact Nat.zero_le _
  | some balance => exact le_rfl

/-- The check grants an account what it keeps. Assumes: the accounts are mirrored. -/
theorem unitsKept_eq {oscillator : Oscillator platform} (hmirrored : Mirrored oscillator)
    (keys : KeyRegistry) (account : AccountId) :
    oscillator.unitsKept account = (oscillator.checkedDag keys).balances.getD account 0 := by
  rw [getD_checkedDag_balances]
  unfold unitsKept
  cases hlookup : oscillator.waveField.accounts[account]? with
  | some balance => rfl
  | none =>
    have hnone : oscillator.dag.balances[account]? = none := by
      refine ExtTreeMap.getElem?_eq_none fun hmem ↦ ?_
      obtain ⟨balance, hbalance⟩ := mem_iff_exists_getElem?.mp (hmirrored account hmem)
      rw [hlookup] at hbalance
      cases hbalance
    rw [hnone]
    rfl

/-- What the check adds up through two entries is what their spends come to. Assumes: the check sees
the first one. -/
theorem spentThrough_eq {oscillator : Oscillator platform} {keys : KeyRegistry}
    {first : TxHash × DagNode} (hfirst : first ∈ (oscillator.checkedDag keys).nodes.toList)
    (second : TxHash × DagNode) :
    (oscillator.checkedDag keys).spentThrough first second =
      Spend.rivalTotal (oscillator.visibleSpends keys) (spendOf first) (spendOf second) %
        2 ^ 128 := by
  rw [← Spend.rivalTotal_of_perm (oscillator.perm_visibleSpends keys)]
  have hcounted : ∀ other ∈ (oscillator.checkedDag keys).nodes.toList,
      (first.2.shift.vectorClock.concurrentWith other.2.shift.vectorClock &&
        VectorClockDag.between first second other &&
          decide (other.2.shift.sender = first.2.shift.sender)) =
      ((spendOf first).rivals (spendOf other) && !(spendOf second).before (spendOf other)) := by
    intro other hother
    rw [Spend.rivals_spendOf hfirst hother, Spend.not_before_spendOf]
    unfold VectorClockDag.between
    simp only [Bool.and_assoc, Bool.and_comm, Bool.and_left_comm]
  unfold VectorClockDag.spentThrough VectorClockDag.concurrentSum VectorClockDag.spendsOf
    Spend.rivalTotal Spend.total
  rw [List.filter_filter, List.filter_filter, List.filter_map, List.map_map,
    List.filter_congr hcounted]
  rfl

/-- A node that overspends with an earlier one has that one as a rival. Assumes: the node
overspends with the earlier one. -/
theorem rivals_of_overspendsWith {dag : VectorClockDag} {first second : TxHash × DagNode}
    (hover : dag.overspendsWith second first = true) :
    (spendOf first).rivals (spendOf second) = true := by
  simp only [VectorClockDag.overspendsWith, Bool.and_eq_true, decide_eq_true_eq] at hover
  obtain ⟨⟨⟨⟨hsame, hne⟩, hbefore⟩, hconcurrent⟩, -⟩ := hover
  unfold Spend.rivals
  rw [Spend.before_spendOf hne, hbefore, Bool.and_true, Bool.and_eq_true, decide_eq_true_eq]
  exact ⟨hsame.symm, hconcurrent⟩

/-- The check does not find a node overspent whose sender keeps enough for it. Assumes: the sender
keeps enough. -/
theorem not_isOverspent {oscillator : Oscillator platform} (keys : KeyRegistry) {hash : TxHash}
    {node : DagNode} (hcovers : oscillator.Covers keys (spendOf (hash, node))) :
    (oscillator.checkedDag keys).isOverspent (hash, node) = false := by
  by_contra hoverspent
  obtain ⟨first, hfirst, hover⟩ := List.any_eq_true.mp (Bool.not_eq_false _ ▸ hoverspent)
  have hbound := hcovers (spendOf first) (spendOf_mem_visibleSpends hfirst)
    (rivals_of_overspendsWith hover)
  simp only [VectorClockDag.overspendsWith, Bool.and_eq_true, decide_eq_true_eq] at hover
  obtain ⟨⟨⟨⟨hsame, -⟩, -⟩, -⟩, hover⟩ := hover
  rw [spentThrough_eq hfirst] at hover
  have hspent := Nat.mod_le
    (Spend.rivalTotal (oscillator.visibleSpends keys) (spendOf first) (spendOf (hash, node)))
    (2 ^ 128)
  have hkept := oscillator.unitsKept_le keys first.2.shift.sender
  have hsender : (spendOf (hash, node)).shift.sender = first.2.shift.sender := hsame
  rw [hsender] at hbound
  omega

/-- The check finds exactly those nodes overspent whose sender does not keep enough for them.
Assumes: the accounts are mirrored, the amounts fit together, and the check sees the node. -/
theorem isOverspent_iff {oscillator : Oscillator platform} (hmirrored : Mirrored oscillator)
    {keys : KeyRegistry} (hfits : Spend.WithinRange (oscillator.visibleSpends keys))
    {hash : TxHash} {node : DagNode}
    (hnode : (oscillator.checkedDag keys).nodes[hash]? = some node) :
    (oscillator.checkedDag keys).isOverspent (hash, node) = true ↔
      ¬ oscillator.Covers keys (spendOf (hash, node)) := by
  constructor
  · intro hoverspent hcovers
    rw [not_isOverspent keys hcovers] at hoverspent
    cases hoverspent
  · intro hshort
    unfold Covers at hshort
    push Not at hshort
    obtain ⟨spend, hspend, hrivals, hover⟩ := hshort
    obtain ⟨first, hfirst, rfl⟩ :=
      List.mem_map.mp ((oscillator.perm_visibleSpends keys).mem_iff.mpr hspend)
    have hsecond : (hash, node) ∈ (oscillator.checkedDag keys).nodes.toList :=
      ExtTreeMap.mem_toList_iff_getElem?_eq_some.mpr hnode
    have hsum := Spend.rivalTotal_lt hfits hspend (spendOf (hash, node))
    rw [Spend.rivals_spendOf hfirst hsecond] at hrivals
    simp only [Bool.and_eq_true, decide_eq_true_eq] at hrivals
    obtain ⟨⟨hsame, hbefore, hne⟩, hconcurrent⟩ := hrivals
    have hkept := unitsKept_eq hmirrored keys first.2.shift.sender
    have hsender : (spendOf (hash, node)).shift.sender = first.2.shift.sender := hsame
    refine List.any_eq_true.mpr ⟨first, hfirst, ?_⟩
    unfold VectorClockDag.overspendsWith
    simp only [Bool.and_eq_true, decide_eq_true_eq]
    refine ⟨⟨⟨⟨hsame, hne⟩, hbefore⟩, hconcurrent⟩, ?_⟩
    rw [spentThrough_eq hfirst, Nat.mod_eq_of_lt hsum, ← hkept, ← hsender]
    exact hover

/-! ### What the loop takes from an account -/

/-- The spends that the next synthesis can apply: those of the stored shifts that are neither
applied nor rejected, and those of the queued ones. -/
def openSpends (oscillator : Oscillator platform) : List Spend :=
  (oscillator.dag.nodes.toList.filter fun entry ↦
    !entry.2.applied && !entry.2.status.isRejected).map spendOf ++ oscillator.queuedSpends

/-- What the open spends of an account come to. -/
def openTotal (oscillator : Oscillator platform) (account : AccountId) : ℕ :=
  Spend.total (oscillator.openSpends.filter fun spend ↦ decide (spend.shift.sender = account))

/-- A shift that is applied, or could be if its sender held enough, has an open spend. Assumes: the
loop sees the node, neither rejected nor applied. -/
theorem spendOf_mem_openSpends {oscillator : Oscillator platform} {keys : KeyRegistry}
    {order : SynthesisOrder} {hash : TxHash} {node : DagNode}
    (hnode : (oscillator.preparedDag keys order).nodes[hash]? = some node)
    (hstatus : node.status.isRejected = false) (hfresh : node.applied = false) :
    spendOf (hash, node) ∈ oscillator.openSpends := by
  rw [getElem?_preparedDag, Option.map_eq_some_iff] at hnode
  obtain ⟨checked, hchecked, rfl⟩ := hnode
  have hspend : spendOf (hash, prepareNode (oscillator.checkedDag keys) oscillator.synthesisTick
      hash checked) = spendOf (hash, checked) := by
    rw [prepareNode_eq]
    rfl
  rw [hspend]
  rcases checkedDag_cases hchecked with ⟨old, hold, hcore⟩ | ⟨shift, hshift, depth, rfl, hcore⟩
  · have hflag : old.applied = false := by
      have hsame : checked.core.applied = old.core.applied := by rw [hcore]
      rw [prepareNode_eq] at hfresh
      exact hsame ▸ hfresh
    have hkept : old.status.isRejected = false := by
      have hsame : checked.core.status = old.core.status := by rw [hcore]
      rw [DagNode.core_status, DagNode.core_status] at hsame
      cases hcovered : (oscillator.checkedDag keys).isOverspent (hash, checked) with
      | true =>
        rw [prepareNode_status_of_overspent oscillator.synthesisTick hcovered] at hstatus
        cases hstatus
      | false =>
        rcases prepareNode_status_of_covered oscillator.synthesisTick hcovered with hprepared |
          ⟨haccepted, -⟩
        · rw [hprepared, hsame] at hstatus
          exact hstatus
        · rw [← hsame, haccepted]
          rfl
    rw [spendOf_core hash hcore]
    refine List.mem_append_left _ (List.mem_map.mpr ⟨(hash, old), List.mem_filter.mpr
      ⟨ExtTreeMap.mem_toList_iff_getElem?_eq_some.mpr hold, ?_⟩, rfl⟩)
    rw [hflag, hkept]
    rfl
  · rw [spendOf_core (shift.hash platform.primitives) hcore]
    exact List.mem_append_right _ (List.mem_map_of_mem hshift)

/-- The spends of a list of hashes. -/
def spendsAt (dag : VectorClockDag) (hashes : List TxHash) : List Spend :=
  hashes.filterMap fun hash ↦ dag.nodes[hash]?.map fun node ↦ spendOf (hash, node)

/-- The spends of a list of hashes are those of its nodes. Assumes: the spend is in the list. -/
theorem mem_spendsAt {dag : VectorClockDag} {hashes : List TxHash} {spend : Spend}
    (hspend : spend ∈ spendsAt dag hashes) :
    ∃ hash ∈ hashes, ∃ node, dag.nodes[hash]? = some node ∧ spendOf (hash, node) = spend := by
  obtain ⟨hash, hhash, hlook⟩ := List.mem_filterMap.mp hspend
  obtain ⟨node, hnode, heq⟩ := Option.map_eq_some_iff.mp hlook
  exact ⟨hash, hhash, node, hnode, heq⟩

/-- Distinct hashes have distinct spends. Assumes: the hashes are distinct. -/
theorem nodup_spendsAt (dag : VectorClockDag) {hashes : List TxHash} (hnodup : hashes.Nodup) :
    (spendsAt dag hashes).Nodup := by
  refine List.Nodup.filterMap (fun first second spend hfirst hsecond ↦ ?_) hnodup
  obtain ⟨node, -, rfl⟩ := Option.map_eq_some_iff.mp hfirst
  obtain ⟨node', -, hsame⟩ := Option.map_eq_some_iff.mp hsecond
  exact (congrArg Spend.hash hsame).symm

/-- What a list of hashes takes from an account. -/
def takenFrom (dag : VectorClockDag) (hashes : List TxHash) (account : AccountId) : ℕ :=
  Spend.total ((spendsAt dag hashes).filter fun spend ↦ decide (spend.shift.sender = account))

/-- What one more hash takes. Assumes: the hash has a node. -/
theorem takenFrom_append {dag : VectorClockDag} {hash : TxHash} {node : DagNode}
    (hnode : dag.nodes[hash]? = some node) (hashes : List TxHash) (account : AccountId) :
    takenFrom dag (hashes ++ [hash]) account = takenFrom dag hashes account +
      if node.shift.sender = account then node.shift.amount else 0 := by
  have hlast : spendsAt dag [hash] = [spendOf (hash, node)] := by
    unfold spendsAt
    rw [List.filterMap_cons, hnode]
    rfl
  unfold takenFrom Spend.total
  rw [show spendsAt dag (hashes ++ [hash]) = spendsAt dag hashes ++ spendsAt dag [hash] from
    List.filterMap_append, hlast, List.filter_append, List.map_append, List.sum_append]
  congr 1
  rw [List.filter_singleton]
  by_cases hsender : node.shift.sender = account
  · rw [if_pos hsender, decide_eq_true (show (spendOf (hash, node)).shift.sender = account from
      hsender)]
    rfl
  · rw [if_neg hsender, decide_eq_false (show ¬(spendOf (hash, node)).shift.sender = account from
      hsender)]
    rfl

/-- A transfer takes at most its amount from its sender, and nothing from others. Assumes: the
sender holds the amount, no more is passed on than taken, the total has 128 bits, and the transfer
is made. -/
theorem getD_transferBalances {balances next : ExtTreeMap AccountId ℕ} {shift : StatefulShift}
    {held net : ℕ} (hheld : balances[shift.sender]? = some held) (hcovered : shift.amount ≤ held)
    (hnet : net ≤ shift.amount) (htotal : totalUnits balances < 2 ^ 128)
    (htransfer : transferBalances balances shift net = some next) (account : AccountId) :
    balances.getD account 0 ≤ next.getD account 0 +
      if shift.sender = account then shift.amount else 0 := by
  have hheldGetD : balances.getD shift.sender 0 = held := by
    rw [ExtTreeMap.getD_eq_getD_getElem?, hheld]
    rfl
  rw [transferBalances_eq hheld hcovered hnet htotal, Option.some.injEq] at htransfer
  subst htransfer
  set debited := balances.insert shift.sender (held - shift.amount) with hdebited
  clear_value debited
  have hcredited : debited.getD account 0 ≤
      (debited.insert shift.recipient (debited.getD shift.recipient 0 + net)).getD account 0 := by
    rw [ExtTreeMap.getD_insert]
    split_ifs with hself
    · rw [LawfulEqCmp.compare_eq_iff_eq.mp hself]
      exact Nat.le_add_right _ _
    · exact le_rfl
  have htaken : balances.getD account 0 ≤ debited.getD account 0 +
      if shift.sender = account then shift.amount else 0 := by
    rw [hdebited, ExtTreeMap.getD_insert]
    by_cases hself : shift.sender = account
    · rw [if_pos (LawfulEqCmp.compare_eq_iff_eq.mpr hself), if_pos hself, ← hself, hheldGetD]
      omega
    · rw [if_neg (mt LawfulEqCmp.compare_eq_iff_eq.mp hself), if_neg hself]
      exact Nat.le_add_right _ _
  omega

section Loop

variable {oscillator : Oscillator platform} {keys : KeyRegistry} {order : SynthesisOrder}
  (hsound : Sound oscillator) (hfees : BoundedFees oscillator.domainRegistry)
  (htotal : totalUnits oscillator.syncedDag.balances < 2 ^ 128)

include hsound hfees htotal in
/-- One round takes from an account no more than the round lists. Assumes: the ledger is balanced,
and the round is made at a node. -/
theorem enter_takes {ledger next : Ledger} (hbalanced : Balanced oscillator keys order ledger)
    {hash : TxHash} {node : DagNode}
    (hnode : (oscillator.preparedDag keys order).nodes[hash]? = some node)
    (henter : enter ledger hash (oscillator.outcomeAt keys order ledger node) = some next)
    (account : AccountId) :
    ledger.balances.getD account 0 +
        takenFrom (oscillator.preparedDag keys order) ledger.hashes account ≤
      next.balances.getD account 0 +
        takenFrom (oscillator.preparedDag keys order) next.hashes account := by
  rcases enter_hashes henter with ⟨shift, fee, net, houtcome, hhashes, hbalances, -⟩ |
    ⟨-, hhashes, hbalances, -⟩
  · obtain rfl := (attempt_transfer houtcome).1
    obtain ⟨held, hheld, hcovered, -, hsplit⟩ :=
      transfer_covered hsound hfees htotal hbalanced hnode houtcome
    unfold Balanced at hbalanced
    have hledger : totalUnits ledger.balances < 2 ^ 128 := by omega
    have htaken := getD_transferBalances hheld hcovered (by omega : net ≤ node.shift.amount)
      hledger hbalances account
    rw [hhashes, takenFrom_append hnode]
    omega
  · rw [hhashes, hbalances]

include hsound hfees htotal in
/-- At every point of the loop an account has what it keeps, but for what the loop took from it.
Assumes: the loop came this far, over nodes. -/
theorem unitsKept_le_loop {placed : List TxHash}
    (hnodes : ∀ hash ∈ placed, hash ∈ (oscillator.preparedDag keys order).nodes)
    {ledger : Ledger}
    (hloop : placed.foldlM ((oscillator.prepared keys order).applyShift keys order)
      (oscillator.prepared keys order).openLedger = some ledger) (account : AccountId) :
    oscillator.unitsKept account ≤ ledger.balances.getD account 0 +
      takenFrom (oscillator.preparedDag keys order) ledger.hashes account := by
  induction placed using List.reverseRecOn generalizing ledger with
  | nil =>
    obtain rfl := Option.some.inj hloop
    refine (oscillator.unitsKept_le keys account).trans (Nat.le_add_right_of_le (le_of_eq ?_))
    unfold openLedger
    dsimp only
    rw [prepared_dag]
    rfl
  | append_singleton placed last ih =>
    rw [List.foldlM_append, Option.bind_eq_bind, Option.bind_eq_some_iff] at hloop
    obtain ⟨current, hcurrent, hround⟩ := hloop
    rw [List.foldlM_cons, Option.bind_eq_bind, Option.bind_eq_some_iff] at hround
    obtain ⟨next, hround, hlast⟩ := hround
    obtain rfl : next = ledger := Option.some.inj hlast
    obtain ⟨node, hnode, henter⟩ := applyShift_eq_some hround
    have hearlier : ∀ hash ∈ placed, hash ∈ (oscillator.preparedDag keys order).nodes :=
      fun hash hmem ↦ hnodes hash (List.mem_append_left _ hmem)
    obtain ⟨balancedLedger, hfold, hbalanced⟩ := loop_balanced hsound hfees htotal hearlier
    rw [hcurrent, Option.some.injEq] at hfold
    subst hfold
    exact (ih hearlier hcurrent).trans
      (enter_takes hsound hfees htotal hbalanced hnode henter account)

end Loop

/-! ### Shifts that are sure to be applied -/

/-- The sections before the loop change no quorum. -/
theorem prepared_checkQuorum (oscillator : Oscillator platform) (keys : KeyRegistry)
    (order : SynthesisOrder) :
    (oscillator.prepared keys order).checkQuorum = oscillator.checkQuorum := by
  obtain ⟨_, _, _, _, _, -, hprepared⟩ := oscillator.prepared_eq keys order
  rw [hprepared]
  rfl

/-- Nothing stands against the application of a spend: its key is registered and verifies it, its
domain is registered and has its quorum where it needs one, its fee is covered, and its sender keeps
enough for it, in the double-spend check and for all of its open spends. -/
structure Payable (oscillator : Oscillator platform) (keys : KeyRegistry) (order : SynthesisOrder)
    (spend : Spend) : Prop where
  verified : (keys[spend.shift.sender]?.any fun publicKey ↦
    spend.shift.verifySignature platform.primitives publicKey) = true
  quorum : ((oscillator.domainRegistry.get? spend.shift.domain).any fun policy ↦
    decide (policy.ordering = .strict →
      oscillator.checkQuorum (order.views spend.tick) spend.tick ≠ none)) = true
  fee : (computeSignalFee oscillator.domainRegistry spend.shift).isOk = true
  covered : oscillator.Covers keys spend
  funded : oscillator.openTotal spend.shift.sender ≤ oscillator.unitsKept spend.shift.sender

instance (oscillator : Oscillator platform) (keys : KeyRegistry) (order : SynthesisOrder)
    (spend : Spend) : Decidable (oscillator.Payable keys order spend) :=
  decidable_of_iff
    ((keys[spend.shift.sender]?.any fun publicKey ↦
        spend.shift.verifySignature platform.primitives publicKey) = true ∧
      ((oscillator.domainRegistry.get? spend.shift.domain).any fun policy ↦
        decide (policy.ordering = .strict →
          oscillator.checkQuorum (order.views spend.tick) spend.tick ≠ none)) = true ∧
      (computeSignalFee oscillator.domainRegistry spend.shift).isOk = true ∧
      oscillator.Covers keys spend ∧
      oscillator.openTotal spend.shift.sender ≤ oscillator.unitsKept spend.shift.sender)
    ⟨fun ⟨hverified, hquorum, hfee, hcovered, hfunded⟩ ↦
      ⟨hverified, hquorum, hfee, hcovered, hfunded⟩,
    fun ⟨hverified, hquorum, hfee, hcovered, hfunded⟩ ↦
      ⟨hverified, hquorum, hfee, hcovered, hfunded⟩⟩

/-- A shift is sure to be applied by the next synthesis: it is stored, neither rejected nor applied,
or queued behind its predecessors, nothing stands against it, and the totals have 128 bits. -/
structure Secured (oscillator : Oscillator platform) (keys : KeyRegistry) (order : SynthesisOrder)
    (hash : TxHash) : Prop where
  fees : BoundedFees oscillator.domainRegistry
  total : heldUnits oscillator.waveField < 2 ^ 128
  present : (oscillator.dag.nodes[hash]?.any fun node ↦
      !node.applied && !node.status.isRejected) = true ∨
    oscillator.dag.nodes[hash]? = none ∧ (oscillator.pendingStateful.any fun shift ↦
      decide (shift.hash platform.primitives = hash) &&
        shift.predecessors.all oscillator.dag.nodes.contains) = true
  payable : ∀ spend ∈ oscillator.openSpends, spend.hash = hash →
    oscillator.Payable keys order spend

instance (oscillator : Oscillator platform) (keys : KeyRegistry) (order : SynthesisOrder)
    (hash : TxHash) : Decidable (oscillator.Secured keys order hash) :=
  decidable_of_iff
    (BoundedFees oscillator.domainRegistry ∧ heldUnits oscillator.waveField < 2 ^ 128 ∧
      ((oscillator.dag.nodes[hash]?.any fun node ↦
          !node.applied && !node.status.isRejected) = true ∨
        oscillator.dag.nodes[hash]? = none ∧ (oscillator.pendingStateful.any fun shift ↦
          decide (shift.hash platform.primitives = hash) &&
            shift.predecessors.all oscillator.dag.nodes.contains) = true) ∧
      ∀ spend ∈ oscillator.openSpends, spend.hash = hash → oscillator.Payable keys order spend)
    ⟨fun ⟨hfees, htotal, hpresent, hpayable⟩ ↦ ⟨hfees, htotal, hpresent, hpayable⟩,
    fun ⟨hfees, htotal, hpresent, hpayable⟩ ↦ ⟨hfees, htotal, hpresent, hpayable⟩⟩

section Secured

variable {oscillator : Oscillator platform} {keys : KeyRegistry} {order : SynthesisOrder}
  {hash : TxHash}

/-- The loop sees a secured shift, neither rejected nor applied, and nothing stands against it.
Assumes: the shift is secured. -/
theorem Secured.exists_prepared (hsecured : Secured oscillator keys order hash) :
    ∃ node, (oscillator.preparedDag keys order).nodes[hash]? = some node ∧
      node.status.isRejected = false ∧ node.applied = false ∧
      Payable oscillator keys order (spendOf (hash, node)) := by
  have hchecked : ∃ checked, (oscillator.checkedDag keys).nodes[hash]? = some checked ∧
      spendOf (hash, checked) ∈ oscillator.openSpends ∧
      checked.status.isRejected = false ∧ checked.applied = false := by
    rcases hsecured.present with hstored | ⟨hnone, hqueued⟩
    · obtain ⟨node, hnode, hopen⟩ := (Option.any_eq_true _ _).mp hstored
      obtain ⟨checked, hchecked, hcore⟩ := checkedDag_of_mem keys hnode
      have hspend : spendOf (hash, checked) = spendOf (hash, node) :=
        (spendOf_core hash hcore).trans (spendOf_core hash rfl).symm
      have hstatus : checked.core.status = node.core.status := by rw [hcore]
      have hflag : checked.core.applied = node.core.applied := by rw [hcore]
      rw [DagNode.core_status, DagNode.core_status] at hstatus
      rw [DagNode.core_applied, DagNode.core_applied] at hflag
      refine ⟨checked, hchecked, ?_, ?_⟩
      · rw [hspend]
        exact List.mem_append_left _ (List.mem_map_of_mem (List.mem_filter.mpr
          ⟨ExtTreeMap.mem_toList_iff_getElem?_eq_some.mpr hnode, hopen⟩))
      · rw [Bool.and_eq_true, Bool.not_eq_true', Bool.not_eq_true'] at hopen
        exact ⟨hstatus ▸ hopen.2, hflag ▸ hopen.1⟩
    · obtain ⟨shift, hshift, htakes⟩ := List.any_eq_true.mp hqueued
      rw [Bool.and_eq_true, decide_eq_true_eq, List.all_eq_true] at htakes
      obtain ⟨rfl, hpredecessors⟩ := htakes
      have hopen : (⟨shift.hash platform.primitives, oscillator.synthesisTick, shift⟩ : Spend) ∈
          oscillator.openSpends := List.mem_append_right _ (List.mem_map_of_mem hshift)
      obtain ⟨publicKey, hkey, hverified⟩ :=
        (Option.any_eq_true _ _).mp (hsecured.payable _ hopen rfl).verified
      obtain ⟨balances, hsynced⟩ := oscillator.syncedDag_eq
      have hmem : shift.hash platform.primitives ∈ (oscillator.checkedDag keys).nodes :=
        mem_admitted_of_pending hshift hkey hverified fun predecessor hpredecessor ↦ by
          rw [hsynced]
          exact hpredecessors predecessor hpredecessor
      obtain ⟨checked, hchecked⟩ := mem_iff_exists_getElem?.mp hmem
      rcases checkedDag_cases hchecked with ⟨old, hold, -⟩ | ⟨other, hother, depth, hhash, hcore⟩
      · rw [hnone] at hold
        cases hold
      · refine ⟨checked, hchecked, ?_, ?_⟩
        · rw [spendOf_core _ hcore]
          refine List.mem_append_right _ (List.mem_map.mpr ⟨other, hother, ?_⟩)
          rw [hhash]
          rfl
        · rw [← DagNode.core_status, ← DagNode.core_applied, hcore]
          exact ⟨rfl, rfl⟩
  obtain ⟨checked, hchecked, hopen, hstatus, hflag⟩ := hchecked
  have hpayable := hsecured.payable _ hopen rfl
  have hcovered := not_isOverspent keys hpayable.covered
  refine ⟨prepareNode (oscillator.checkedDag keys) oscillator.synthesisTick hash checked, ?_, ?_,
    ?_, ?_⟩
  · rw [getElem?_preparedDag, hchecked]
    rfl
  · rcases prepareNode_status_of_covered oscillator.synthesisTick hcovered with hkept |
      ⟨-, hpromoted⟩
    · rw [hkept, hstatus]
    · rw [hpromoted]
      rfl
  · rw [prepareNode_eq]
    exact hflag
  · rw [prepareNode_eq]
    exact hpayable

/-- The loop takes from an account, up to a turn, no more than its open spends but for the one at
the turn. Assumes: the loop is at the turn of a node that is neither rejected nor applied, in a
sound state. -/
theorem Turn.takenFrom_add_le (hsound : Sound oscillator) {before : List TxHash} {ledger : Ledger}
    {node : DagNode} (hturn : Turn oscillator keys order before hash ledger node)
    (hstatus : node.status.isRejected = false) (hfresh : node.applied = false) :
    takenFrom (oscillator.preparedDag keys order) ledger.hashes node.shift.sender +
      node.shift.amount ≤ oscillator.openTotal node.shift.sender := by
  obtain ⟨applied, happlied, hsublist⟩ := loop_hashes_sublist hturn.ledger_eq
  have hhashes : ledger.hashes = applied := happlied.trans (List.nil_append _)
  have hdistinct : (ledger.hashes ++ [hash]).Nodup :=
    (hhashes ▸ hsublist.append_right [hash]).nodup (hturn.arranged hsound).1
  have hlast := takenFrom_append hturn.node_eq ledger.hashes node.shift.sender
  rw [if_pos rfl] at hlast
  rw [← hlast]
  refine Spend.total_le_of_subset (List.Nodup.filter _ (nodup_spendsAt _ hdistinct))
    fun spend hspend ↦ ?_
  obtain ⟨hmem, hsender⟩ := List.mem_filter.mp hspend
  obtain ⟨other, hother, seen, hseen, rfl⟩ := mem_spendsAt hmem
  refine List.mem_filter.mpr ⟨?_, hsender⟩
  rcases List.mem_append.mp hother with happlied | hself
  · obtain ⟨_, _, current, node', fee, net, -, -, hnode', houtcome⟩ :=
      (mem_loop_hashes_iff hturn.ledger_eq other).mp happlied
    obtain rfl : seen = node' := Option.some.inj (hseen.symm.trans hnode')
    have htransfers := (attempt_transfer houtcome).2
    exact spendOf_mem_openSpends hseen htransfers.status htransfers.fresh
  · obtain rfl := List.mem_singleton.mp hself
    obtain rfl : seen = node := Option.some.inj (hseen.symm.trans hturn.node_eq)
    exact spendOf_mem_openSpends hseen hstatus hfresh

/-- A synthesis that returns applies every secured shift. Assumes: the state is sound, its balances
mirror the wave-field, the synthesis returns, and the shift is secured. -/
theorem mem_hashes_of_secured (hsound : Sound oscillator) (hmirrored : Mirrored oscillator)
    {final : Oscillator platform} {timestampNs : ℕ} {result : SynthesisResult}
    {hashes : List TxHash}
    (hsynthesize : oscillator.synthesize keys order timestampNs = some (final, result, hashes))
    (hsecured : Secured oscillator keys order hash) : hash ∈ hashes := by
  obtain ⟨node, hnode, hstatus, hfresh, hpayable⟩ := hsecured.exists_prepared
  obtain ⟨before, ledger, hturn⟩ := hsound.exists_turn hsynthesize hnode
  have htotal : totalUnits oscillator.syncedDag.balances < 2 ^ 128 :=
    hmirrored.totalUnits_syncedDag_le.trans_lt hsecured.total
  have hregistry := oscillator.prepared_domainRegistry keys order
  have hkept := unitsKept_le_loop hsound hsecured.fees htotal
    (hturn.arranged hsound).2 hturn.ledger_eq node.shift.sender
  have htaken := hturn.takenFrom_add_le hsound hstatus hfresh
  have hfunded : oscillator.openTotal node.shift.sender ≤
      oscillator.unitsKept node.shift.sender := hpayable.funded
  obtain ⟨publicKey, hkey, hverified⟩ := (Option.any_eq_true _ _).mp hpayable.verified
  obtain ⟨policy, hpolicy, hquorum⟩ := (Option.any_eq_true _ _).mp hpayable.quorum
  have hfee := hpayable.fee
  cases hcharged : computeSignalFee oscillator.domainRegistry node.shift with
  | error text =>
    rw [show computeSignalFee oscillator.domainRegistry (spendOf (hash, node)).shift =
      .error text from hcharged] at hfee
    cases hfee
  | ok amounts =>
    have htransfers : Transfers (oscillator.prepared keys order) keys order ledger.balances node
        amounts.1 amounts.2 :=
      { status := hstatus
        fresh := hfresh
        verified := ⟨publicKey, hkey, hverified⟩
        quorum := ⟨policy, hregistry ▸ hpolicy,
          oscillator.prepared_checkQuorum keys order ▸ of_decide_eq_true hquorum⟩
        fees := hregistry ▸ hcharged
        covered := by omega }
    exact (mem_applied_iff hsynthesize hash).mpr
      ⟨before, ledger, node, amounts.1, amounts.2, hturn, htransfers.attempt_eq⟩

/-- What a synthesis applies was open before it. Assumes: the synthesis returns, and applies the
shift. -/
theorem exists_openSpend {final : Oscillator platform} {timestampNs : ℕ}
    {result : SynthesisResult} {hashes : List TxHash}
    (hsynthesize : oscillator.synthesize keys order timestampNs = some (final, result, hashes))
    (happlied : hash ∈ hashes) : ∃ spend ∈ oscillator.openSpends, spend.hash = hash := by
  obtain ⟨before, ledger, node, fee, net, hturn, houtcome⟩ :=
    (mem_applied_iff hsynthesize hash).mp happlied
  have htransfers := (attempt_transfer houtcome).2
  exact ⟨_, spendOf_mem_openSpends hturn.node_eq htransfers.status htransfers.fresh, rfl⟩

end Secured

end Oscillator

end Fluidic.Consensus
