import Fluidic.Consensus.CommutativeSettlement
import Mathlib.Data.List.Sort
import Mathlib.Data.List.Perm.Subperm

/-!
# What the commutative root commits to

The root in a certificate is that of the batch visited last. With pending deltas of one domain there
is one batch, the root is a hash of its deltas in canonical order, and it commits to them. With
several domains it depends on the order of a hash table and says nothing about the other batches
(`rootsOfOrders_differ`).

`Committing` is the condition under which the root commits to the tick. It is exact: it is enough
for the roots to agree and to bind, and unless the hash function collides on the pending deltas
nothing weaker is (`commutativeRoot_commits`).
-/

set_option autoImplicit false
set_option relaxedAutoImplicit false

namespace Fluidic.Consensus

open Library Crypto Fluidic.Field Value Operator
open Std (ExtTreeMap LawfulEqCmp TransCmp OrientedCmp)

/-! ### Encoding -/

/-- The components and the amount of a delta are within the range of their machine integers. -/
def InRange (delta : Coordinate × ℤ × PoolId) : Prop :=
  (∀ component ∈ delta.1.components.toList, component < 2 ^ 64) ∧
    -2 ^ 127 ≤ delta.2.1 ∧ delta.2.1 < 2 ^ 127

instance (delta : Coordinate × ℤ × PoolId) : Decidable (InRange delta) :=
  inferInstanceAs (Decidable (_ ∧ _))

/-- The bytes of one delta in the root. -/
def deltaBytes (delta : Coordinate × ℤ × PoolId) : List UInt8 :=
  delta.1.toBytes ++ i128LeBytes delta.2.1 ++ delta.2.2.toBytes

/-- The bytes that the commutative root hashes. -/
def rootBytes (tick : ℕ) (deltas : List (Coordinate × ℤ × PoolId)) : List UInt8 :=
  asciiBytes "fluidic:commutative-root:v2" ++ leBytes 8 tick ++ leBytes 8 deltas.length ++
    (deltas.insertionSort fun first second ↦ deltaLe first second).flatMap deltaBytes

theorem commutativeRoot_eq (prim : Primitives) (tick : ℕ)
    (deltas : List (Coordinate × ℤ × PoolId)) :
    commutativeRoot prim tick deltas = prim.blake3 (rootBytes tick deltas) := rfl

theorem length_deltaBytes (delta : Coordinate × ℤ × PoolId) : (deltaBytes delta).length = 80 := by
  unfold deltaBytes i128LeBytes Bytes32.toBytes
  simp

/-- A delta within range is determined by its bytes. Assumes: both deltas are within range, and
their bytes are the same. -/
theorem deltaBytes_inj {first second : Coordinate × ℤ × PoolId} (hfirst : InRange first)
    (hsecond : InRange second) (hbytes : deltaBytes first = deltaBytes second) :
    first = second := by
  obtain ⟨coordinate, amount, pool⟩ := first
  obtain ⟨coordinate', amount', pool'⟩ := second
  have hlength : (i128LeBytes amount).length = (i128LeBytes amount').length := by
    unfold i128LeBytes
    simp
  obtain ⟨hhead, hpool⟩ := List.append_inj hbytes (by
    rw [List.length_append, List.length_append, Coordinate.length_toBytes,
      Coordinate.length_toBytes, hlength])
  obtain ⟨hcoordinate, hamount⟩ := List.append_inj hhead (by
    rw [Coordinate.length_toBytes, Coordinate.length_toBytes])
  exact Prod.ext (Coordinate.toBytes_inj hfirst.1 hsecond.1 hcoordinate)
    (Prod.ext (i128LeBytes_inj hfirst.2 hsecond.2 hamount) (Bytes32.toBytes_inj hpool))

/-! ### The canonical order -/

/-- What the canonical order compares: the pool, the bytes of the coordinate, the amount. -/
def deltaKey (delta : Coordinate × ℤ × PoolId) : PoolId × List UInt8 × ℤ :=
  (delta.2.2, delta.1.toBytes, delta.2.1)

theorem deltaLe_eq (first second : Coordinate × ℤ × PoolId) :
    deltaLe first second = (compare (deltaKey first) (deltaKey second)).isLE := rfl

instance : Std.Total fun first second ↦ deltaLe first second = true where
  total first second := by
    rw [deltaLe_eq, deltaLe_eq, @OrientedCmp.eq_swap _ compare _ (deltaKey second) (deltaKey first)]
    cases compare (deltaKey first) (deltaKey second) <;> decide

instance : IsTrans (Coordinate × ℤ × PoolId) fun first second ↦ deltaLe first second = true where
  trans first second third hfirst hsecond := by
    rw [deltaLe_eq] at *
    exact TransCmp.isLE_trans hfirst hsecond

/-- Deltas within range that are before each other in the canonical order are the same. Assumes:
both deltas are within range, and each is before the other. -/
theorem deltaLe_antisymm {first second : Coordinate × ℤ × PoolId} (hfirst : InRange first)
    (hsecond : InRange second) (hle : deltaLe first second = true)
    (hge : deltaLe second first = true) : first = second := by
  rw [deltaLe_eq] at hle hge
  have hkey : deltaKey first = deltaKey second :=
    LawfulEqCmp.compare_eq_iff_eq.mp (OrientedCmp.isLE_antisymm hle hge)
  obtain ⟨hpool, hrest⟩ := Prod.mk.inj hkey
  obtain ⟨hcoordinate, hamount⟩ := Prod.mk.inj hrest
  exact Prod.ext (Coordinate.toBytes_inj hfirst.1 hsecond.1 hcoordinate) (Prod.ext hamount hpool)

/-- Reorderings of a batch hash the same bytes. Assumes: the deltas are within range. -/
theorem rootBytes_perm {tick : ℕ} {deltas deltas' : List (Coordinate × ℤ × PoolId)}
    (hrange : ∀ delta ∈ deltas, InRange delta) (hperm : deltas.Perm deltas') :
    rootBytes tick deltas = rootBytes tick deltas' := by
  have hsorted : (deltas.insertionSort fun first second ↦ deltaLe first second) =
      deltas'.insertionSort fun first second ↦ deltaLe first second := by
    refine List.Perm.eq_of_pairwise (fun first second hfirst hsecond ↦ ?_)
      (List.pairwise_insertionSort _ _) (List.pairwise_insertionSort _ _)
      ((List.perm_insertionSort _ _).trans (hperm.trans (List.perm_insertionSort _ _).symm))
    rw [List.mem_insertionSort] at hfirst hsecond
    exact deltaLe_antisymm (hrange first hfirst) (hrange second (hperm.mem_iff.mpr hsecond))
  unfold rootBytes
  rw [hsorted, hperm.length_eq]

/-- Batches that hash the same bytes are reorderings of each other. Assumes: the deltas are within
range. -/
theorem perm_of_rootBytes {tick : ℕ} {deltas deltas' : List (Coordinate × ℤ × PoolId)}
    (hrange : ∀ delta ∈ deltas, InRange delta) (hrange' : ∀ delta ∈ deltas', InRange delta)
    (hbytes : rootBytes tick deltas = rootBytes tick deltas') : deltas.Perm deltas' := by
  obtain ⟨-, hentries⟩ := List.append_inj hbytes (by simp)
  have hsorted := flatMap_inj (by decide) length_deltaBytes
    (fun first hfirst second hsecond ↦ deltaBytes_inj
      (hrange first ((List.mem_insertionSort _).mp hfirst))
      (hrange' second ((List.mem_insertionSort _).mp hsecond))) hentries
  have hback := List.perm_insertionSort (fun first second ↦ deltaLe first second = true) deltas'
  rw [← hsorted] at hback
  exact (List.perm_insertionSort _ deltas).symm.trans hback

namespace Oscillator

variable {platform : Platform}

/-! ### The root of a tick -/

/-- The node with another queue of commutative deltas. -/
def withPending (oscillator : Oscillator platform)
    (pending : List (DomainId × Coordinate × ℤ × PoolId)) : Oscillator platform :=
  { oscillator with pendingCommutative := pending }

/-- The root of the present tick. -/
def tickRoot (oscillator : Oscillator platform) (order : SynthesisOrder) : Bytes32 :=
  lastRoot platform.primitives oscillator.synthesisTick (oscillator.tickVerdicts order)

/-- The deltas that the present tick applies. -/
def tickDeltas (oscillator : Oscillator platform) (order : SynthesisOrder) :
    List (Coordinate × ℤ × PoolId) :=
  settledDeltas (oscillator.tickVerdicts order)

/-- The table of certificates after the own certificate is signed: it holds the root under the
tick. -/
theorem certificates_certify (oscillator : Oscillator platform) (keys : KeyRegistry)
    (tick timestampNs : ℕ) (result : SynthesisResult) (root : Bytes32) (hashes : List TxHash)
    (evmHashes : List Evm.H256) :
    (oscillator.certify keys tick timestampNs result root hashes evmHashes).certificates =
        oscillator.certificates ∨
      ∃ cert, (oscillator.certify keys tick timestampNs result root hashes evmHashes).certificates =
          oscillator.certificates.insert tick cert ∧ cert.commutativeRoot = root := by
  unfold certify
  cases oscillator.operatorKeypair with
  | none => exact .inl rfl
  | some keypair =>
    dsimp only
    split_ifs
    · exact .inl rfl
    · exact .inr ⟨_, Eq.refl (oscillator.certificates.insert tick _), rfl⟩

/-- A certificate that a synthesis signs carries the root of the tick. Assumes: the synthesis
returns. -/
theorem certificates_synthesize {oscillator final : Oscillator platform} {keys : KeyRegistry}
    {order : SynthesisOrder} {timestampNs : ℕ} {result : SynthesisResult} {hashes : List TxHash}
    (hsynthesize : oscillator.synthesize keys order timestampNs = some (final, result, hashes)) :
    result.commutativeApplied = (tickDeltas oscillator order).length ∧
    (final.certificates = oscillator.certificates ∨
      ∃ cert, final.certificates = oscillator.certificates.insert oscillator.synthesisTick cert ∧
        cert.commutativeRoot = tickRoot oscillator order) := by
  obtain ⟨-, hcount, hroot⟩ := oscillator.prepare_eq_verdicts keys order
  have hcertificates : (oscillator.prepared keys order).certificates = oscillator.certificates := by
    obtain ⟨_, _, _, _, _, -, hprepared⟩ := oscillator.prepared_eq keys order
    rw [hprepared]
  rw [synthesize_eq] at hsynthesize
  obtain ⟨outcome, -, houtcome⟩ := Option.bind_eq_some_iff.mp hsynthesize
  cases outcome with
  | error error =>
    obtain ⟨rfl, hresult⟩ := Prod.mk.inj (Option.some.inj houtcome)
    obtain ⟨rfl, -⟩ := Prod.mk.inj hresult
    exact ⟨hcount, .inl hcertificates⟩
  | ok placed =>
    obtain ⟨ledger, -, hfinish⟩ := Option.bind_eq_some_iff.mp houtcome
    unfold finish at hfinish
    simp only [bind, Option.bind_eq_some_iff, pure, Option.some.injEq, Prod.mk.injEq] at hfinish
    obtain ⟨⟨evmPool, balances, evmHashes⟩, -, hfinal, hresult, -⟩ := hfinish
    refine ⟨by rw [← hresult]; exact hcount, ?_⟩
    rw [← hfinal]
    set copied := ((({ oscillator.prepared keys order with evmPool }.chargeFees ledger.hashes
      ledger.totalFees).commit ledger.hashes balances).syncDagIntoField oscillator.synthesisTick
        ledger.activeAccounts balances) with hcopied
    have hkept : copied.certificates = oscillator.certificates := by
      rw [← hcertificates, hcopied]
      unfold chargeFees
      split_ifs <;> rfl
    obtain hsame | ⟨cert, hinsert, hcert⟩ := copied.certificates_certify keys
      oscillator.synthesisTick timestampNs _ (oscillator.prepare keys order).2.2.1 ledger.hashes
      evmHashes
    · exact .inl (hsame.trans hkept)
    · refine .inr ⟨cert, ?_, hcert.trans hroot⟩
      rw [← hkept]
      exact hinsert

/-! ### The condition -/

/-- The pending deltas that a phase admits are of one domain. -/
def OneDomain (oscillator : Oscillator platform) : Prop :=
  ∀ first ∈ oscillator.pendingCommutative, ∀ second ∈ oscillator.pendingCommutative,
    oscillator.domainRegistry.isCommutative first.1 = true →
    oscillator.domainRegistry.isCommutative second.1 = true → first.1 = second.1

/-- Whether a batch is accepted does not depend on the order of its deltas. -/
def OrderFree (oscillator : Oscillator platform) : Prop :=
  ∀ delta ∈ oscillator.pendingCommutative,
    oscillator.domainRegistry.isCommutative delta.1 = true →
    ∀ group, group.Perm (groupOf oscillator.domainRegistry oscillator.pendingCommutative delta.1) →
      accepts (batchField oscillator) group = accepts (batchField oscillator)
        (groupOf oscillator.domainRegistry oscillator.pendingCommutative delta.1)

/-- In every order of the pending deltas and of the hash tables, each batch is refused at its
turn. -/
def Inert (oscillator : Oscillator platform) : Prop :=
  ∀ pending, pending.Perm oscillator.pendingCommutative → ∀ order,
    ∀ verdict ∈ tickVerdicts (oscillator.withPending pending) order, verdict.2 = false

/-- The condition under which the root commits to the tick. -/
def Committing (oscillator : Oscillator platform) : Prop :=
  OneDomain oscillator ∧ OrderFree oscillator ∨ Inert oscillator

/-! ### The property -/

/-- The root is the same for every order of the pending deltas and of the hash tables. -/
def RootAgrees (oscillator : Oscillator platform) : Prop :=
  ∀ first second, first.Perm oscillator.pendingCommutative →
    second.Perm oscillator.pendingCommutative → ∀ order order',
      tickRoot (oscillator.withPending first) order =
        tickRoot (oscillator.withPending second) order'

/-- The hash function fails to tell two batches apart: they hash different bytes to one root, or one
of them hashes to the root of no batch. -/
def RootCollision (prim : Primitives) (tick : ℕ) (first second : List (Coordinate × ℤ × PoolId)) :
    Prop :=
  rootBytes tick first ≠ rootBytes tick second ∧
      commutativeRoot prim tick first = commutativeRoot prim tick second ∨
    first ≠ [] ∧ commutativeRoot prim tick first = 0 ∨
    second ≠ [] ∧ commutativeRoot prim tick second = 0

/-- Against a node in the same state with another queue, whatever the orders: when the ticks apply
different deltas the roots differ, unless the hash function collides on these deltas. -/
def RootBinds (oscillator : Oscillator platform)
    (other : List (DomainId × Coordinate × ℤ × PoolId)) : Prop :=
  ∀ first second, first.Perm oscillator.pendingCommutative → second.Perm other →
    ∀ order order',
      ¬(tickDeltas (oscillator.withPending first) order).Perm
        (tickDeltas (oscillator.withPending second) order') →
      tickRoot (oscillator.withPending first) order ≠
          tickRoot (oscillator.withPending second) order' ∨
        RootCollision platform.primitives oscillator.synthesisTick
          (tickDeltas (oscillator.withPending first) order)
          (tickDeltas (oscillator.withPending second) order')

/-! ### The condition is enough -/

theorem isCommutative_of_mem_byDomain {registry : DomainRegistry}
    {pending : List (DomainId × Coordinate × ℤ × PoolId)} {batch : Batch}
    (hbatch : batch ∈ (byDomain registry pending).toList) :
    registry.isCommutative batch.1 = true ∧
      batch.2 = groupOf registry pending batch.1 ∧ batch.2 ≠ [] := by
  obtain ⟨⟨delta, hdelta, hcommutative, hdomain⟩, hgroup⟩ := (mem_byDomain ..).mp hbatch
  rw [hdomain] at hcommutative
  refine ⟨hcommutative, hgroup, fun hempty ↦ ?_⟩
  have hmem : delta.2 ∈ groupOf registry pending batch.1 := by
    unfold groupOf
    exact List.mem_map_of_mem (List.mem_filter.mpr ⟨hdelta, by simp [hdomain, hcommutative]⟩)
  rw [← hgroup, hempty] at hmem
  cases hmem

/-- A reordering of the pending deltas reorders the batches. -/
theorem groupOf_perm {registry : DomainRegistry}
    {pending pending' : List (DomainId × Coordinate × ℤ × PoolId)} (hperm : pending.Perm pending')
    (domain : DomainId) :
    (groupOf registry pending domain).Perm (groupOf registry pending' domain) :=
  (hperm.filter _).map _

/-- The batches of a tick, with whether their domain and their deltas are pending. -/
theorem mem_tickVerdicts {oscillator : Oscillator platform} {order : SynthesisOrder}
    {verdict : Batch × Bool} (hverdict : verdict ∈ oscillator.tickVerdicts order) :
    verdict.1 ∈ (byDomain oscillator.domainRegistry oscillator.pendingCommutative).toList := by
  have hbatch := List.mem_map_of_mem (f := Prod.fst) hverdict
  unfold tickVerdicts at hbatch
  rw [verdicts_map_fst] at hbatch
  exact (order.domains.visit_perm _).mem_iff.mp hbatch

/-- The applied deltas were pending. -/
theorem mem_tickDeltas {oscillator : Oscillator platform} {order : SynthesisOrder}
    {delta : Coordinate × ℤ × PoolId} (hdelta : delta ∈ oscillator.tickDeltas order) :
    delta ∈ oscillator.pendingCommutative.map Prod.snd := by
  obtain ⟨verdict, hverdict, hmem⟩ := List.mem_flatMap.mp hdelta
  obtain ⟨-, hgroup, -⟩ := isCommutative_of_mem_byDomain (mem_tickVerdicts hverdict)
  rw [hgroup] at hmem
  split_ifs at hmem
  · obtain ⟨pending, hpending, rfl⟩ := List.mem_map.mp hmem
    exact List.mem_map_of_mem (List.mem_of_mem_filter hpending)
  · cases hmem

/-- A tick applies nothing when each batch is refused. -/
theorem tickDeltas_eq_nil_iff (oscillator : Oscillator platform) (order : SynthesisOrder) :
    oscillator.tickDeltas order = [] ↔
      ∀ verdict ∈ oscillator.tickVerdicts order, verdict.2 = false := by
  unfold tickDeltas settledDeltas
  rw [List.flatMap_eq_nil_iff]
  refine forall₂_congr fun verdict hverdict ↦ ?_
  obtain ⟨-, -, hgroup⟩ := isCommutative_of_mem_byDomain (mem_tickVerdicts hverdict)
  cases verdict.2 <;> simp [hgroup]

/-- A tick that applies nothing has the zero root. -/
theorem tickRoot_of_tickDeltas_nil {oscillator : Oscillator platform} {order : SynthesisOrder}
    (hnone : oscillator.tickDeltas order = []) : oscillator.tickRoot order = 0 := by
  rw [tickDeltas_eq_nil_iff] at hnone
  unfold tickRoot lastRoot
  cases hlast : (oscillator.tickVerdicts order).getLast? with
  | none => rfl
  | some verdict => simp [verdictRoot, hnone verdict (List.mem_of_getLast? hlast)]

/-- Without a pending delta of a domain that takes commutative signals there is no batch. -/
theorem tickVerdicts_of_none {oscillator : Oscillator platform} (order : SynthesisOrder)
    (hnone : ∀ delta ∈ oscillator.pendingCommutative,
      oscillator.domainRegistry.isCommutative delta.1 ≠ true) :
    oscillator.tickVerdicts order = [] := by
  refine List.eq_nil_iff_forall_not_mem.mpr fun verdict hverdict ↦ ?_
  obtain ⟨⟨delta, hdelta, hcommutative, -⟩, -⟩ := (mem_byDomain ..).mp (mem_tickVerdicts hverdict)
  exact hnone delta hdelta hcommutative

/-- When all pending deltas are of one domain there is one batch. Assumes: the delta is pending, and
its domain takes commutative signals. -/
theorem OneDomain.tickVerdicts {oscillator : Oscillator platform} (hone : OneDomain oscillator)
    (order : SynthesisOrder) {delta : DomainId × Coordinate × ℤ × PoolId}
    (hdelta : delta ∈ oscillator.pendingCommutative)
    (hcommutative : oscillator.domainRegistry.isCommutative delta.1 = true) :
    oscillator.tickVerdicts order =
      [((delta.1, groupOf oscillator.domainRegistry oscillator.pendingCommutative delta.1),
        accepts (batchField oscillator)
          (groupOf oscillator.domainRegistry oscillator.pendingCommutative delta.1))] := by
  set batch : Batch :=
    (delta.1, groupOf oscillator.domainRegistry oscillator.pendingCommutative delta.1) with hbatch
  have hnodup := (nodup_byDomain oscillator.domainRegistry oscillator.pendingCommutative).of_map _
  have hsingle : (byDomain oscillator.domainRegistry oscillator.pendingCommutative).toList.Perm
      [batch] := by
    refine (List.perm_ext_iff_of_nodup hnodup (List.nodup_singleton batch)).mpr fun other ↦ ?_
    rw [mem_byDomain, List.mem_singleton]
    refine ⟨?_, fun hother ↦ ?_⟩
    · rintro ⟨⟨delta', hdelta', hcommutative', hdomain⟩, hgroup⟩
      have hsame : other.1 = delta.1 :=
        hdomain.symm.trans (hone delta' hdelta' delta hdelta hcommutative' hcommutative)
      exact Prod.ext hsame (by rw [hgroup, hsame])
    · rw [hother]
      exact ⟨⟨delta, hdelta, hcommutative, rfl⟩, rfl⟩
  unfold Oscillator.tickVerdicts
  rw [List.perm_singleton.mp ((order.domains.visit_perm _).trans hsingle)]
  rfl

/-- Under the condition every order applies the same deltas, and the root is that of the applied
deltas. Assumes: the oscillator meets the condition. -/
theorem Committing.settles {oscillator : Oscillator platform}
    (hcommitting : Committing oscillator) :
    ∃ deltas, ∀ pending, pending.Perm oscillator.pendingCommutative → ∀ order,
      (tickDeltas (oscillator.withPending pending) order).Perm deltas ∧
      (tickDeltas (oscillator.withPending pending) order ≠ [] →
        tickRoot (oscillator.withPending pending) order =
          commutativeRoot platform.primitives oscillator.synthesisTick
            (tickDeltas (oscillator.withPending pending) order)) := by
  rcases hcommitting with ⟨hone, hfree⟩ | hinert
  · by_cases hpending : ∃ delta ∈ oscillator.pendingCommutative,
      oscillator.domainRegistry.isCommutative delta.1 = true
    · obtain ⟨delta, hdelta, hcommutative⟩ := hpending
      set group := groupOf oscillator.domainRegistry oscillator.pendingCommutative delta.1
      refine ⟨if accepts (batchField oscillator) group then group else [],
        fun pending hperm order ↦ ?_⟩
      have honePending : OneDomain (oscillator.withPending pending) :=
        fun first hfirst second hsecond ↦
          hone first (hperm.mem_iff.mp hfirst) second (hperm.mem_iff.mp hsecond)
      have hgroup := @groupOf_perm oscillator.domainRegistry _ _ hperm delta.1
      have hverdicts := honePending.tickVerdicts order (hperm.mem_iff.mpr hdelta) hcommutative
      have haccepts := hfree delta hdelta hcommutative _ hgroup
      have hfield : batchField (oscillator.withPending pending) = batchField oscillator := rfl
      unfold tickDeltas tickRoot
      rw [hverdicts, hfield]
      unfold withPending
      dsimp only
      rw [haccepts]
      cases accepts (batchField oscillator) group with
      | true =>
        refine ⟨?_, fun _ ↦ ?_⟩
        · simpa [settledDeltas] using hgroup
        · simp [settledDeltas, lastRoot, verdictRoot]
      | false => exact ⟨by simp [settledDeltas], fun hne ↦ absurd rfl hne⟩
    · refine ⟨[], fun pending hperm order ↦ ?_⟩
      have hnone : tickDeltas (oscillator.withPending pending) order = [] := by
        unfold tickDeltas
        rw [@tickVerdicts_of_none _ (oscillator.withPending pending) order
          fun delta hdelta hcommutative ↦ hpending ⟨delta, hperm.mem_iff.mp hdelta, hcommutative⟩]
        rfl
      exact ⟨by rw [hnone], fun hne ↦ absurd hnone hne⟩
  · refine ⟨[], fun pending hperm order ↦ ?_⟩
    have hnone := (tickDeltas_eq_nil_iff _ order).mpr (hinert pending hperm order)
    exact ⟨by rw [hnone], fun hne ↦ absurd hnone hne⟩

/-- The deltas applied in some order of the queue are within range. Assumes: the pending deltas are
within range. -/
theorem inRange_tickDeltas {oscillator : Oscillator platform}
    (hrange : ∀ delta ∈ oscillator.pendingCommutative, InRange delta.2)
    {pending : List (DomainId × Coordinate × ℤ × PoolId)}
    (hperm : pending.Perm oscillator.pendingCommutative) (order : SynthesisOrder) :
    ∀ delta ∈ tickDeltas (oscillator.withPending pending) order, InRange delta := by
  intro delta hdelta
  obtain ⟨entry, hentry, rfl⟩ := List.mem_map.mp (mem_tickDeltas hdelta)
  exact hrange entry (hperm.mem_iff.mp hentry)

theorem Committing.rootAgrees {oscillator : Oscillator platform}
    (hrange : ∀ delta ∈ oscillator.pendingCommutative, InRange delta.2)
    (hcommitting : Committing oscillator) : RootAgrees oscillator := by
  obtain ⟨deltas, hsettles⟩ := hcommitting.settles
  intro first second hfirst hsecond order order'
  obtain ⟨hperm, hroot⟩ := hsettles first hfirst order
  obtain ⟨hperm', hroot'⟩ := hsettles second hsecond order'
  have hsame := hperm.trans hperm'.symm
  by_cases hnone : tickDeltas (oscillator.withPending first) order = []
  · have hnone' := (hnone ▸ hsame).symm.eq_nil
    rw [tickRoot_of_tickDeltas_nil hnone, tickRoot_of_tickDeltas_nil hnone']
  · have hnone' : tickDeltas (oscillator.withPending second) order' ≠ [] :=
      fun hempty ↦ hnone (hempty ▸ hsame).eq_nil
    rw [hroot hnone, hroot' hnone', commutativeRoot_eq, commutativeRoot_eq,
      rootBytes_perm (inRange_tickDeltas hrange hfirst order) hsame]

theorem Committing.rootBinds {oscillator : Oscillator platform}
    {other : List (DomainId × Coordinate × ℤ × PoolId)}
    (hrange : ∀ delta ∈ oscillator.pendingCommutative, InRange delta.2)
    (hrange' : ∀ delta ∈ other, InRange delta.2) (hcommitting : Committing oscillator)
    (hother : Committing (oscillator.withPending other)) : RootBinds oscillator other := by
  obtain ⟨_, hsettles⟩ := hcommitting.settles
  obtain ⟨_, hsettles'⟩ := hother.settles
  intro first second hfirst hsecond order order' hdiffer
  obtain ⟨-, hroot⟩ := hsettles first hfirst order
  obtain ⟨-, hroot'⟩ := hsettles' second hsecond order'
  have hfirstRange := inRange_tickDeltas hrange hfirst order
  have hsecondRange := @inRange_tickDeltas _ (oscillator.withPending other) hrange' _ hsecond order'
  change tickDeltas (oscillator.withPending second) order' ≠ [] →
    tickRoot (oscillator.withPending second) order' = _ at hroot'
  change ∀ delta ∈ tickDeltas (oscillator.withPending second) order', InRange delta at hsecondRange
  refine or_iff_not_imp_left.mpr fun hequal ↦ ?_
  rw [not_ne_iff] at hequal
  by_cases hnone : tickDeltas (oscillator.withPending first) order = []
  · have hnone' : tickDeltas (oscillator.withPending second) order' ≠ [] := by
      intro hempty
      rw [hnone, hempty] at hdiffer
      exact hdiffer (List.Perm.refl _)
    rw [tickRoot_of_tickDeltas_nil hnone] at hequal
    exact .inr (.inr ⟨hnone', (hroot' hnone').symm.trans hequal.symm⟩)
  by_cases hnone' : tickDeltas (oscillator.withPending second) order' = []
  · rw [tickRoot_of_tickDeltas_nil hnone'] at hequal
    exact .inr (.inl ⟨hnone, (hroot hnone).symm.trans hequal⟩)
  · exact .inl ⟨fun hbytes ↦ hdiffer (perm_of_rootBytes hfirstRange hsecondRange hbytes),
      (hroot hnone).symm.trans (hequal.trans (hroot' hnone'))⟩

/-! ### The condition is necessary -/

/-- The hash function tells apart all batches of pending deltas. -/
def TellsApart (oscillator : Oscillator platform) : Prop :=
  ∀ first second, first.Subperm (oscillator.pendingCommutative.map Prod.snd) →
    second.Subperm (oscillator.pendingCommutative.map Prod.snd) →
    ¬RootCollision platform.primitives oscillator.synthesisTick first second

/-- A pool that cannot take a total cannot take it after a batch with that total. Assumes: the pool
cannot take the total of the batch. -/
theorem covers_batch {field : WaveField} {deltas : List (Coordinate × ℤ × PoolId)} {pool : PoolId}
    (hshort : covers field.pools (pool, poolTotal deltas pool) = false)
    (order : IterationOrder (PoolId × ℤ)) :
    covers (field.synthesizeCommutativeBatch order deltas).1.pools
      (pool, poolTotal deltas pool) = false := by
  have hskipped : (pool, poolTotal deltas pool) ∉ appliedTotals field order deltas := by
    intro happlied
    rw [covers_of_mem_appliedTotals happlied] at hshort
    cases hshort
  have hkept := poolUnits_batch field order deltas pool
  rw [if_neg fun hboth ↦ hskipped hboth.2] at hkept
  unfold covers at hshort ⊢
  rw [hkept]
  exact hshort

/-- The batches before a batch with the same totals do not help it. Assumes: all of them are
reorderings of it, and it is accepted after them. -/
theorem accepts_of_accepts_fieldAfter {order : SynthesisOrder} {batches : List Batch}
    {deltas : List (Coordinate × ℤ × PoolId)}
    (hperm : ∀ batch ∈ batches, batch.2.Perm deltas) {field : WaveField}
    (haccepts : accepts (fieldAfter order field batches) deltas = true) :
    accepts field deltas = true := by
  induction batches generalizing field with
  | nil => exact haccepts
  | cons batch batches ih =>
    have hlater := ih (fun other hother ↦ hperm other (List.mem_cons_of_mem _ hother)) haccepts
    unfold accepts at hlater ⊢
    rw [nttEngine_batch, Bool.and_eq_true, List.all_eq_true] at hlater
    rw [Bool.and_eq_true, List.all_eq_true]
    refine ⟨hlater.1, fun delta hdelta ↦ ?_⟩
    by_contra hshort
    have htotal := poolTotal_perm (hperm batch List.mem_cons_self) delta.2.2
    have hfails := @covers_batch field batch.2 delta.2.2 (htotal ▸ Bool.eq_false_iff.mpr hshort)
      (order.pools batch.1)
    rw [htotal, hlater.2 delta hdelta] at hfails
    cases hfails

/-- A group is part of the pending deltas. -/
theorem groupOf_subperm (registry : DomainRegistry)
    (pending : List (DomainId × Coordinate × ℤ × PoolId)) (domain : DomainId) :
    (groupOf registry pending domain).Subperm (pending.map Prod.snd) :=
  (List.filter_sublist.map Prod.snd).subperm

/-- The deltas of a tick are part of the pending deltas. -/
theorem tickDeltas_subperm (oscillator : Oscillator platform) (order : SynthesisOrder) :
    (oscillator.tickDeltas order).Subperm (oscillator.pendingCommutative.map Prod.snd) := by
  set admitted := oscillator.pendingCommutative.filter fun delta ↦
    oscillator.domainRegistry.isCommutative delta.1 with hadmitted
  have hbatches : byDomain oscillator.domainRegistry admitted =
      byDomain oscillator.domainRegistry oscillator.pendingCommutative := by
    rw [byDomain_eq, byDomain_eq, hadmitted, List.filter_filter]
    simp only [Bool.and_self]
  have hflat := @byDomain_perm oscillator.domainRegistry admitted
    (fun delta hdelta ↦ (List.mem_filter.mp hdelta).2) order.domains
  rw [hbatches] at hflat
  have hdecided := settledOf_requeued_perm (oscillator.tickVerdicts order)
  unfold tickVerdicts at hdecided
  rw [verdicts_map_fst] at hdecided
  have hsettled : (settledOf (oscillator.tickVerdicts order)).Subperm admitted :=
    (List.sublist_append_left _ _).subperm.trans (hdecided.symm.trans hflat).subperm
  obtain ⟨part, hpart, hsublist⟩ := hsettled.trans List.filter_sublist.subperm
  unfold tickDeltas
  rw [← settledOf_map_snd]
  exact ⟨part.map Prod.snd, hpart.map Prod.snd, hsublist.map Prod.snd⟩

/-- Every reordering of every batch is visited last by some order. Assumes: the delta is pending,
its domain takes commutative signals, and the group is a reordering of its batch. -/
theorem exists_last {oscillator : Oscillator platform}
    {delta : DomainId × Coordinate × ℤ × PoolId} (hdelta : delta ∈ oscillator.pendingCommutative)
    (hcommutative : oscillator.domainRegistry.isCommutative delta.1 = true)
    {group : List (Coordinate × ℤ × PoolId)}
    (hgroup : group.Perm
      (groupOf oscillator.domainRegistry oscillator.pendingCommutative delta.1)) :
    ∃ pending, pending.Perm oscillator.pendingCommutative ∧
      ∃ (order : SynthesisOrder) (earlier : List Batch),
        order.domains.visit (byDomain oscillator.domainRegistry pending).toList =
          earlier ++ [(delta.1, group)] := by
  set ofDomain : DomainId × Coordinate × ℤ × PoolId → Bool := fun entry ↦
    oscillator.domainRegistry.isCommutative entry.1 && decide (entry.1 = delta.1) with hofDomain
  set tagged := group.map fun entry ↦ (delta.1, entry) with htagged
  set others := oscillator.pendingCommutative.filter fun entry ↦ !ofDomain entry with hothers
  have hsame : ((groupOf oscillator.domainRegistry oscillator.pendingCommutative delta.1).map
      fun entry ↦ (delta.1, entry)) = oscillator.pendingCommutative.filter ofDomain := by
    unfold groupOf
    rw [List.map_map]
    refine (List.map_congr_left fun entry hentry ↦ ?_).trans (List.map_id _)
    have hdomain := (Bool.and_eq_true _ _ ▸ (List.mem_filter.mp hentry).2).2
    exact Prod.ext (of_decide_eq_true hdomain).symm rfl
  have hperm : (others ++ tagged).Perm oscillator.pendingCommutative := by
    refine (List.perm_append_comm).trans ?_
    refine ((hgroup.map _).append_right others).trans ?_
    rw [hsame]
    exact List.filter_append_perm ofDomain _
  have hgathered : groupOf oscillator.domainRegistry (others ++ tagged) delta.1 = group := by
    have hnone : others.filter ofDomain = [] := by
      rw [hothers, List.filter_filter]
      simp
    have hall : tagged.filter ofDomain = tagged := by
      refine List.filter_eq_self.mpr fun entry hentry ↦ ?_
      obtain ⟨_, -, rfl⟩ := List.mem_map.mp hentry
      simp [hofDomain, hcommutative]
    unfold groupOf
    rw [List.filter_append, hnone, hall, List.nil_append, htagged, List.map_map]
    exact List.map_id _
  have hbatch : (delta.1, group) ∈ (byDomain oscillator.domainRegistry (others ++ tagged)).toList :=
    (mem_byDomain ..).mpr ⟨⟨delta, hperm.mem_iff.mpr hdelta, hcommutative, rfl⟩, hgathered.symm⟩
  set batches := (byDomain oscillator.domainRegistry (others ++ tagged)).toList
  refine ⟨others ++ tagged, hperm,
    { SynthesisOrder.forward with
      domains := .arranging (batches.erase (delta.1, group) ++ [(delta.1, group)]) },
    batches.erase (delta.1, group), IterationOrder.visit_arranging ?_⟩
  exact (List.perm_append_singleton _ _).trans (List.perm_cons_erase hbatch).symm

/-- The root is that of the batch visited last, when that is accepted. Assumes: the batches are
visited in this order. -/
theorem tickRoot_of_last {oscillator : Oscillator platform} {order : SynthesisOrder}
    {earlier : List Batch} {last : Batch}
    (hvisit : order.domains.visit (byDomain oscillator.domainRegistry
      oscillator.pendingCommutative).toList = earlier ++ [last]) :
    oscillator.tickRoot order = verdictRoot platform.primitives oscillator.synthesisTick
      (last, accepts (fieldAfter order (batchField oscillator) earlier) last.2) := by
  unfold tickRoot lastRoot tickVerdicts
  rw [hvisit, verdicts_append, verdicts, verdicts, List.getLast?_append]
  rfl

section Necessary

variable {oscillator : Oscillator platform} {root : Bytes32}

/-- Every reordering of every batch is accepted after some others, and has the common root. Assumes:
every order has this root, which is not zero. -/
theorem exists_last_accepted
    (hroot : ∀ pending, pending.Perm oscillator.pendingCommutative → ∀ order,
      tickRoot (oscillator.withPending pending) order = root) (hne : root ≠ 0)
    {delta : DomainId × Coordinate × ℤ × PoolId} (hdelta : delta ∈ oscillator.pendingCommutative)
    (hcommutative : oscillator.domainRegistry.isCommutative delta.1 = true)
    {group : List (Coordinate × ℤ × PoolId)}
    (hgroup : group.Perm
      (groupOf oscillator.domainRegistry oscillator.pendingCommutative delta.1)) :
    commutativeRoot platform.primitives oscillator.synthesisTick group = root ∧
    ∃ pending, pending.Perm oscillator.pendingCommutative ∧
      ∃ (order : SynthesisOrder) (earlier : List Batch),
        order.domains.visit (byDomain oscillator.domainRegistry pending).toList =
          earlier ++ [(delta.1, group)] ∧
        accepts (fieldAfter order (batchField oscillator) earlier) group = true := by
  obtain ⟨pending, hperm, order, earlier, hvisit⟩ := exists_last hdelta hcommutative hgroup
  have hlast := @tickRoot_of_last _ (oscillator.withPending pending) _ _ _ hvisit
  rw [hroot pending hperm order] at hlast
  change root = verdictRoot platform.primitives oscillator.synthesisTick
    ((delta.1, group), accepts (fieldAfter order (batchField oscillator) earlier) group) at hlast
  cases haccepts : accepts (fieldAfter order (batchField oscillator) earlier) group with
  | false =>
    rw [haccepts] at hlast
    exact absurd hlast hne
  | true =>
    rw [haccepts] at hlast
    exact ⟨hlast.symm, pending, hperm, order, earlier, hvisit, haccepts⟩

/-- The batches of two domains are reorderings of each other. Assumes: every order has this root,
which is not zero, and the hash function tells the batches apart. -/
theorem groupOf_perm_groupOf (hrange : ∀ delta ∈ oscillator.pendingCommutative, InRange delta.2)
    (hapart : TellsApart oscillator)
    (hroot : ∀ pending, pending.Perm oscillator.pendingCommutative → ∀ order,
      tickRoot (oscillator.withPending pending) order = root) (hne : root ≠ 0)
    {first second : DomainId × Coordinate × ℤ × PoolId}
    (hfirst : first ∈ oscillator.pendingCommutative)
    (hsecond : second ∈ oscillator.pendingCommutative)
    (hfirstCommutative : oscillator.domainRegistry.isCommutative first.1 = true)
    (hsecondCommutative : oscillator.domainRegistry.isCommutative second.1 = true) :
    (groupOf oscillator.domainRegistry oscillator.pendingCommutative first.1).Perm
      (groupOf oscillator.domainRegistry oscillator.pendingCommutative second.1) := by
  have hfirstRoot := (exists_last_accepted hroot hne hfirst hfirstCommutative (List.Perm.refl _)).1
  have hsecondRoot :=
    (exists_last_accepted hroot hne hsecond hsecondCommutative (List.Perm.refl _)).1
  have hinRange (domain : DomainId) : ∀ delta ∈ groupOf oscillator.domainRegistry
      oscillator.pendingCommutative domain, InRange delta := by
    intro delta hdelta
    obtain ⟨entry, hentry, rfl⟩ := List.mem_map.mp hdelta
    exact hrange entry (List.mem_of_mem_filter hentry)
  refine @perm_of_rootBytes oscillator.synthesisTick _ _ (hinRange first.1) (hinRange second.1) ?_
  by_contra hbytes
  exact hapart _ _ (groupOf_subperm _ _ first.1) (groupOf_subperm _ _ second.1)
    (.inl ⟨hbytes, hfirstRoot.trans hsecondRoot.symm⟩)

/-- Every reordering of every batch is accepted before all others. Assumes: every order has this
root, which is not zero, and the hash function tells the batches apart. -/
theorem accepts_group (hrange : ∀ delta ∈ oscillator.pendingCommutative, InRange delta.2)
    (hapart : TellsApart oscillator)
    (hroot : ∀ pending, pending.Perm oscillator.pendingCommutative → ∀ order,
      tickRoot (oscillator.withPending pending) order = root) (hne : root ≠ 0)
    {delta : DomainId × Coordinate × ℤ × PoolId} (hdelta : delta ∈ oscillator.pendingCommutative)
    (hcommutative : oscillator.domainRegistry.isCommutative delta.1 = true)
    {group : List (Coordinate × ℤ × PoolId)}
    (hgroup : group.Perm
      (groupOf oscillator.domainRegistry oscillator.pendingCommutative delta.1)) :
    accepts (batchField oscillator) group = true := by
  obtain ⟨-, pending, hperm, order, earlier, hvisit, haccepts⟩ :=
    exists_last_accepted hroot hne hdelta hcommutative hgroup
  refine accepts_of_accepts_fieldAfter (fun batch hbatch ↦ ?_) haccepts
  have hvisited : batch ∈ order.domains.visit
      (byDomain oscillator.domainRegistry pending).toList := by
    rw [hvisit]
    exact List.mem_append_left _ hbatch
  obtain ⟨⟨other, hother, hcommutative', hdomain⟩, hbatchGroup⟩ :=
    (mem_byDomain ..).mp ((IterationOrder.mem_visit ..).mp hvisited)
  have hsame := groupOf_perm_groupOf hrange hapart hroot hne (hperm.mem_iff.mp hother) hdelta
    hcommutative' hcommutative
  rw [hbatchGroup, ← hdomain]
  exact ((groupOf_perm hperm other.1).trans hsame).trans hgroup.symm

/-- The queue of one domain alone: it is committing, its tick applies the batch of the domain, and
has the common root. Assumes: every order has this root, which is not zero, and the hash function
tells the batches apart. -/
theorem committing_filter (hrange : ∀ delta ∈ oscillator.pendingCommutative, InRange delta.2)
    (hapart : TellsApart oscillator)
    (hroot : ∀ pending, pending.Perm oscillator.pendingCommutative → ∀ order,
      tickRoot (oscillator.withPending pending) order = root) (hne : root ≠ 0)
    {delta : DomainId × Coordinate × ℤ × PoolId} (hdelta : delta ∈ oscillator.pendingCommutative)
    (hcommutative : oscillator.domainRegistry.isCommutative delta.1 = true) (order : SynthesisOrder)
    {alone : List (DomainId × Coordinate × ℤ × PoolId)}
    (halone : alone = oscillator.pendingCommutative.filter fun entry ↦ entry.1 = delta.1) :
    Committing (oscillator.withPending alone) ∧
    tickDeltas (oscillator.withPending alone) order =
      groupOf oscillator.domainRegistry oscillator.pendingCommutative delta.1 ∧
    tickRoot (oscillator.withPending alone) order = root := by
  have hdomain : ∀ entry ∈ alone, entry.1 = delta.1 := by
    intro entry hentry
    rw [halone] at hentry
    exact of_decide_eq_true (List.mem_filter.mp hentry).2
  have hmem : delta ∈ alone := by
    rw [halone]
    exact List.mem_filter.mpr ⟨hdelta, decide_eq_true rfl⟩
  have hgroup : groupOf oscillator.domainRegistry alone delta.1 =
      groupOf oscillator.domainRegistry oscillator.pendingCommutative delta.1 := by
    unfold groupOf
    rw [halone, List.filter_filter]
    simp only [Bool.and_assoc, Bool.and_self]
  have hone : OneDomain (oscillator.withPending alone) :=
    fun first hfirst second hsecond _ _ ↦
      (hdomain first hfirst).trans (hdomain second hsecond).symm
  have haccepts {group : List (Coordinate × ℤ × PoolId)}
      (hperm : group.Perm
        (groupOf oscillator.domainRegistry oscillator.pendingCommutative delta.1)) :
      accepts (batchField oscillator) group = true :=
    accepts_group hrange hapart hroot hne hdelta hcommutative hperm
  have hfree : OrderFree (oscillator.withPending alone) := by
    intro entry hentry _ group hperm
    change group.Perm (groupOf oscillator.domainRegistry alone entry.1) at hperm
    change accepts (batchField oscillator) group = accepts (batchField oscillator)
      (groupOf oscillator.domainRegistry alone entry.1)
    rw [hdomain entry hentry, hgroup] at hperm ⊢
    rw [haccepts hperm, haccepts (List.Perm.refl _)]
  have hverdicts := hone.tickVerdicts order hmem hcommutative
  change tickVerdicts (oscillator.withPending alone) order =
    [((delta.1, groupOf oscillator.domainRegistry alone delta.1), accepts (batchField oscillator)
      (groupOf oscillator.domainRegistry alone delta.1))] at hverdicts
  rw [hgroup, haccepts (List.Perm.refl _)] at hverdicts
  refine ⟨.inl ⟨hone, hfree⟩, ?_, ?_⟩
  · unfold tickDeltas settledDeltas
    rw [hverdicts]
    simp
  · unfold tickRoot
    rw [hverdicts]
    exact (exists_last_accepted hroot hne hdelta hcommutative (List.Perm.refl _)).1

/-- A tick in which a batch precedes the last one applies more than the last one. Assumes: every
order has this root, which is not zero, and the hash function tells the batches apart. -/
theorem length_lt_tickDeltas (hrange : ∀ delta ∈ oscillator.pendingCommutative, InRange delta.2)
    (hapart : TellsApart oscillator)
    (hroot : ∀ pending, pending.Perm oscillator.pendingCommutative → ∀ order,
      tickRoot (oscillator.withPending pending) order = root) (hne : root ≠ 0)
    {pending : List (DomainId × Coordinate × ℤ × PoolId)}
    (hperm : pending.Perm oscillator.pendingCommutative) {order : SynthesisOrder}
    {first last : Batch} {middle : List Batch}
    (hvisit : order.domains.visit (byDomain oscillator.domainRegistry pending).toList =
      first :: middle ++ [last])
    (hlast : accepts (fieldAfter order (batchField oscillator) (first :: middle)) last.2 = true) :
    last.2.length < (tickDeltas (oscillator.withPending pending) order).length := by
  have hfirst : first ∈ (byDomain oscillator.domainRegistry pending).toList := by
    rw [← IterationOrder.mem_visit order.domains, hvisit]
    exact List.mem_cons_self
  obtain ⟨-, -, hnonempty⟩ := isCommutative_of_mem_byDomain hfirst
  obtain ⟨⟨delta, hdelta, hcommutative, hdomain⟩, hgroup⟩ := (mem_byDomain ..).mp hfirst
  have haccepts : accepts (batchField oscillator) first.2 = true := by
    refine accepts_group hrange hapart hroot hne (hperm.mem_iff.mp hdelta) hcommutative ?_
    rw [hgroup, hdomain]
    exact groupOf_perm hperm first.1
  have hverdicts : tickVerdicts (oscillator.withPending pending) order =
      verdicts order (batchField oscillator) (first :: middle ++ [last]) :=
    congrArg (verdicts order (batchField oscillator)) hvisit
  unfold tickDeltas
  rw [hverdicts, verdicts_append, verdicts, verdicts, verdicts, hlast, haccepts]
  have hpositive := List.length_pos_iff.mpr hnonempty
  simp only [settledDeltas, List.cons_append, List.flatMap_cons, List.flatMap_append,
    List.length_append, List.flatMap_nil, if_true, List.length_nil]
  omega

end Necessary

/-- Unless the hash function collides on the pending deltas, roots that agree and bind need the
condition. Assumes: the pending deltas are within range. -/
theorem Committing.of_root {oscillator : Oscillator platform}
    (hrange : ∀ delta ∈ oscillator.pendingCommutative, InRange delta.2)
    (hapart : TellsApart oscillator) (hagrees : RootAgrees oscillator)
    (hbinds : ∀ other, other.Subperm oscillator.pendingCommutative →
      Committing (oscillator.withPending other) → RootBinds oscillator other) :
    Committing oscillator := by
  by_cases hinert : Inert oscillator
  · exact .inr hinert
  have hsome : ∃ applied, applied.Perm oscillator.pendingCommutative ∧ ∃ order,
      tickDeltas (oscillator.withPending applied) order ≠ [] := by
    by_contra hnone
    push Not at hnone
    exact hinert fun pending hperm order ↦
      (tickDeltas_eq_nil_iff _ order).mp (hnone pending hperm order)
  obtain ⟨applied, happlied, order, hsome⟩ := hsome
  set root := tickRoot (oscillator.withPending applied) order with hrootEq
  have hroot : ∀ pending, pending.Perm oscillator.pendingCommutative → ∀ order,
      tickRoot (oscillator.withPending pending) order = root :=
    fun pending hperm order' ↦ hagrees pending applied hperm happlied order' order
  have hpart {pending : List (DomainId × Coordinate × ℤ × PoolId)}
      (hpending : pending.Subperm oscillator.pendingCommutative) (order : SynthesisOrder) :
      (tickDeltas (oscillator.withPending pending) order).Subperm
        (oscillator.pendingCommutative.map Prod.snd) := by
    obtain ⟨part, hperm, hsublist⟩ := hpending
    refine (tickDeltas_subperm (oscillator.withPending pending) order).trans ?_
    exact ⟨part.map Prod.snd, hperm.map Prod.snd, hsublist.map Prod.snd⟩
  have hne : root ≠ 0 := by
    have hnone : tickDeltas (oscillator.withPending []) order = [] := by
      unfold tickDeltas
      rw [@tickVerdicts_of_none _ (oscillator.withPending []) order
        fun _ hmem ↦ (List.not_mem_nil hmem).elim]
      rfl
    have hempty : Committing (oscillator.withPending []) :=
      .inl ⟨fun _ hmem ↦ (List.not_mem_nil hmem).elim, fun _ hmem ↦ (List.not_mem_nil hmem).elim⟩
    have hdiffer : ¬(tickDeltas (oscillator.withPending applied) order).Perm
        (tickDeltas (oscillator.withPending []) order) := by
      rw [hnone]
      exact fun hperm ↦ hsome hperm.eq_nil
    rcases hbinds [] List.nil_subperm hempty applied [] happlied (List.Perm.refl _) order order
      hdiffer with hroots | hcollides
    · rw [tickRoot_of_tickDeltas_nil hnone] at hroots
      exact hroots
    · exact absurd hcollides (hapart _ _ (hpart happlied.subperm order)
        (hpart List.nil_subperm order))
  refine .inl ⟨?_, fun delta hdelta hcommutative group hgroup ↦ ?_⟩
  · intro first hfirst second hsecond hcommutative hcommutative'
    by_contra hdistinct
    obtain ⟨-, pending, hperm, order, earlier, hvisit, haccepts⟩ :=
      exists_last_accepted hroot hne hsecond hcommutative' (List.Perm.refl _)
    have hvisited : (first.1, groupOf oscillator.domainRegistry pending first.1) ∈
        order.domains.visit (byDomain oscillator.domainRegistry pending).toList :=
      (IterationOrder.mem_visit ..).mpr ((mem_byDomain ..).mpr
        ⟨⟨first, hperm.mem_iff.mpr hfirst, hcommutative, rfl⟩, rfl⟩)
    cases earlier with
    | nil =>
      rw [hvisit] at hvisited
      exact hdistinct (Prod.mk.inj (List.mem_singleton.mp hvisited)).1
    | cons batch middle =>
      have hlonger := length_lt_tickDeltas hrange hapart hroot hne hperm hvisit haccepts
      set alone := oscillator.pendingCommutative.filter fun entry ↦ entry.1 = second.1 with halone
      obtain ⟨hcommitting, hdeltas, haloneRoot⟩ :=
        committing_filter hrange hapart hroot hne hsecond hcommutative' order halone
      have hsubperm : alone.Subperm oscillator.pendingCommutative := List.filter_sublist.subperm
      rcases hbinds alone hsubperm hcommitting pending alone hperm (List.Perm.refl _) order order
        (fun hsame ↦ by
          rw [hdeltas] at hsame
          exact absurd hsame.length_eq (Nat.ne_of_gt hlonger)) with hroots | hcollides
      · exact hroots ((hroot pending hperm order).trans haloneRoot.symm)
      · exact hapart _ _ (hpart hperm.subperm order) (hpart hsubperm order) hcollides
  · rw [accepts_group hrange hapart hroot hne hdelta hcommutative hgroup,
      accepts_group hrange hapart hroot hne hdelta hcommutative (List.Perm.refl _)]

/-! ### What the root commits to -/

/-- A certificate carries the root of the tick. Under the condition that root is the same for every
order of the deltas and of the hash tables, and it differs from that of a node in the same state
with another queue when the two ticks apply different deltas. Unless the hash function collides on
the pending deltas, both need the condition. Assumes: the pending deltas are within range. -/
theorem commutativeRoot_commits {oscillator : Oscillator platform}
    (hrange : ∀ delta ∈ oscillator.pendingCommutative, InRange delta.2) :
    (∀ (keys : KeyRegistry) (order : SynthesisOrder) (timestampNs : ℕ)
      (final : Oscillator platform) (result : SynthesisResult) (hashes : List TxHash),
      oscillator.synthesize keys order timestampNs = some (final, result, hashes) →
      result.commutativeApplied = (tickDeltas oscillator order).length ∧
      (final.certificates = oscillator.certificates ∨
        ∃ cert, final.certificates = oscillator.certificates.insert oscillator.synthesisTick cert ∧
          cert.commutativeRoot = tickRoot oscillator order)) ∧
    (Committing oscillator → RootAgrees oscillator ∧
      ∀ other, (∀ delta ∈ other, InRange delta.2) → Committing (oscillator.withPending other) →
        RootBinds oscillator other) ∧
    (TellsApart oscillator → RootAgrees oscillator →
      (∀ other, other.Subperm oscillator.pendingCommutative →
        Committing (oscillator.withPending other) → RootBinds oscillator other) →
      Committing oscillator) :=
  ⟨fun _ _ _ _ _ _ hsynthesize ↦ certificates_synthesize hsynthesize,
    fun hcommitting ↦ ⟨hcommitting.rootAgrees hrange,
      fun _ hother hcommitting' ↦ hcommitting.rootBinds hrange hother hcommitting'⟩,
    fun hapart hagrees hbinds ↦ .of_root hrange hapart hagrees hbinds⟩

/-- A second domain that takes commutative signals. -/
def samplePolicy : DomainPolicy := { DomainPolicy.dexDefault with domain := 7 }

/-- An operator node whose stake is the least one. -/
def sampleOperator : Oscillator Platform.sample :=
  newWithStake 8 ⟨1⟩ ((StakeTable.new StakingConfig.default).stake (sampleAccount 1)
    StakingConfig.default.minStake).1

/-- An operator node with two pending deltas of one domain. -/
def oneDomain : Oscillator Platform.sample :=
  ((sampleOperator.ingestCommutative (sampleDelta 1 1 5)).1.ingestCommutative
    (sampleDelta 2 2 7)).1

/-- Two deltas of one domain, which some order applies. -/
theorem commutativeRoot_commits_oneDomain :
    (∀ delta ∈ oneDomain.pendingCommutative, InRange delta.2) ∧ Committing oneDomain ∧
    tickDeltas oneDomain .forward ≠ [] ∧ RootAgrees oneDomain ∧
    ∀ other, (∀ delta ∈ other, InRange delta.2) → Committing (oneDomain.withPending other) →
      RootBinds oneDomain other := by
  have hrange : ∀ delta ∈ oneDomain.pendingCommutative, InRange delta.2 := by
    decide +kernel
  have hdomain : ∀ delta ∈ oneDomain.pendingCommutative, delta.1 = defaultDexDomain := by
    decide +kernel
  have hsmall : absoluteSum (groupOf oneDomain.domainRegistry oneDomain.pendingCommutative
      defaultDexDomain) < 2 ^ 127 := by
    decide +kernel
  have hcommitting : Committing oneDomain := by
    refine .inl ⟨fun first hfirst second hsecond _ _ ↦
      (hdomain first hfirst).trans (hdomain second hsecond).symm,
      fun delta hdelta _ group hgroup ↦ ?_⟩
    rw [hdomain delta hdelta] at hgroup ⊢
    exact (accepts_of_perm hgroup.symm (roundTrips_of_perm hgroup.symm hsmall _)).symm
  have happlied : tickDeltas oneDomain .forward ≠ [] := by
    decide +kernel
  exact ⟨hrange, hcommitting, happlied, (commutativeRoot_commits hrange).2.1 hcommitting⟩

/-- The second domain is registered, and each domain receives one delta. -/
def twoDomains : List Request :=
  [.seedAccount (sampleAccount 2) domainReservationFeeUnits,
    .registerDomain samplePolicy (sampleAccount 2),
    .ingest (.commutative (sampleDelta 1 1 5)) 0,
    .ingest (.commutative { sampleDelta 2 2 7 with domain := 7 }) 0]

/-- The root in the certificate that an operator signs for the present tick. -/
def certifiedRoot (oscillator : Oscillator platform) (order : SynthesisOrder) : Option Bytes32 :=
  (oscillator.synthesize sampleKeys order 0).bind fun (final, _) ↦
    final.certificates[oscillator.synthesisTick]?.map fun cert ↦ cert.commutativeRoot

/-- The same deltas are pending, and two orders of the hash table certify two roots. -/
theorem rootsOfOrders_differ :
    ∃ (oscillator : Oscillator Platform.sample) (first second : Bytes32),
      run (step Platform.sample) anyStep sampleOperator twoDomains = some oscillator ∧
      certifiedRoot oscillator .forward = some first ∧
      certifiedRoot oscillator { SynthesisOrder.forward with domains := .backward } = some second ∧
      first ≠ second := by
  have hruns : ((run (step Platform.sample) anyStep sampleOperator twoDomains).bind fun oscillator ↦
      (certifiedRoot oscillator .forward).bind fun first ↦
        (certifiedRoot oscillator { SynthesisOrder.forward with domains := .backward }).map
          fun second ↦ decide (first ≠ second)) = some true := by
    decide +kernel
  obtain ⟨oscillator, hrun, hroots⟩ := Option.bind_eq_some_iff.mp hruns
  obtain ⟨first, hfirst, hrest⟩ := Option.bind_eq_some_iff.mp hroots
  obtain ⟨second, hsecond, hdiffer⟩ := Option.map_eq_some_iff.mp hrest
  exact ⟨oscillator, first, second, hrun, hfirst, hsecond, of_decide_eq_true hdiffer⟩

end Oscillator

end Fluidic.Consensus
