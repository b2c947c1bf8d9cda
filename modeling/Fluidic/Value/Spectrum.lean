import Fluidic.Crypto.Keys

/-!
# Leases of frequency bands

`src/value/spectrum.rs`: leases of ranges of frequency bins with a quota of operations, kept under
their first bin. A lease is accepted when it overlaps no other one. `lease_for` and `authorize`
take the first covering lease that the hash map yields, so they take the order as an argument.

`Spectrum.Sound` is the invariant: the ranges are disjoint, so that one lease at most covers a bin
and the order does not matter (`leaseForMut_order`). `successes_eq` accounts for the quota: what a
lease used is the number of operations that were authorized on its bins since its counter was reset.
-/

set_option autoImplicit false
set_option relaxedAutoImplicit false

namespace Fluidic.Value

open Library Crypto
open Std (ExtTreeMap LawfulEqCmp)

/-- A lease on the bins from `startBin` to before `endBin`. -/
structure BandLease where
  owner : AccountId
  startBin : ℕ
  endBin : ℕ
  stakedAmount : ℕ
  throughputQuota : ℕ
  usedThroughput : ℕ
  deriving DecidableEq

namespace BandLease

/-- Whether an operation is left. -/
def hasQuota (lease : BandLease) : Bool := decide (lease.usedThroughput < lease.throughputQuota)

/-- Use one operation, when one is left. -/
def consumeQuota (lease : BandLease) : BandLease × Bool :=
  if lease.hasQuota then ({ lease with usedThroughput := lease.usedThroughput + 1 }, true)
  else (lease, false)

/-- Whether the lease covers a bin. -/
def covers (lease : BandLease) (bin : ℕ) : Bool :=
  decide (lease.startBin ≤ bin) && decide (bin < lease.endBin)

theorem covers_iff (lease : BandLease) (bin : ℕ) :
    lease.covers bin = true ↔ lease.startBin ≤ bin ∧ bin < lease.endBin := by
  rw [covers, Bool.and_eq_true, decide_eq_true_iff, decide_eq_true_iff]

end BandLease

/-- The spectrum with its leases, by first bin. -/
structure Spectrum where
  size : ℕ
  leases : ExtTreeMap ℕ BandLease
  deriving DecidableEq

/-- An order in which the leases are visited. -/
abbrev LeaseOrder := IterationOrder (ℕ × BandLease)

namespace Spectrum

/-- A spectrum without leases. -/
def new (size : ℕ) : Spectrum := ⟨size, ∅⟩

/-- Lease a range of bins. The second component is an error when the range is empty, exceeds the
spectrum or overlaps a lease. -/
def lease (spectrum : Spectrum) (order : LeaseOrder) (owner : AccountId)
    (startBin endBin stakedAmount throughputQuota : ℕ) : Spectrum × Except String Unit :=
  if endBin ≤ startBin then (spectrum, .error "end_bin must be greater than start_bin")
  else if spectrum.size < endBin then (spectrum, .error "band exceeds spectrum size")
  else if (order.visit spectrum.leases.toList).any fun entry ↦
      decide (startBin < entry.2.endBin) && decide (entry.2.startBin < endBin) then
    (spectrum, .error "band overlaps existing lease")
  else
    ({ spectrum with
        leases := spectrum.leases.insert startBin
          ⟨owner, startBin, endBin, stakedAmount, throughputQuota, 0⟩ }, .ok ())

/-- The first visited lease that covers a bin, with its key. -/
def leaseForMut (spectrum : Spectrum) (order : LeaseOrder) (bin : ℕ) : Option (ℕ × BandLease) :=
  (order.visit spectrum.leases.toList).find? fun entry ↦ entry.2.covers bin

/-- The lease that covers a bin. -/
def leaseFor (spectrum : Spectrum) (order : LeaseOrder) (bin : ℕ) : Option BandLease :=
  (spectrum.leaseForMut order bin).map Prod.snd

/-- The error for a bin outside of every lease. -/
def notLeased (bin : ℕ) : String := s!"bin {bin} is not leased"

/-- The error for a lease whose quota is used up. -/
def quotaExceeded (lease : BandLease) : String :=
  s!"band [{lease.startBin}, {lease.endBin}) has exceeded throughput quota"

/-- Authorize one operation on a bin. -/
def authorize (spectrum : Spectrum) (order : LeaseOrder) (bin : ℕ) :
    Spectrum × Except String Unit :=
  match spectrum.leaseForMut order bin with
  | none => (spectrum, .error (notLeased bin))
  | some (key, lease) =>
    ({ spectrum with leases := spectrum.leases.insert key lease.consumeQuota.1 },
      if lease.consumeQuota.2 then .ok () else .error (quotaExceeded lease))

/-- Start the quota counters again. -/
def resetQuotas (spectrum : Spectrum) : Spectrum :=
  { spectrum with
    leases := spectrum.leases.map fun _ lease ↦ { lease with usedThroughput := 0 } }

/-! ### Runs -/

/-- A call, with the order in which it visits the leases. -/
inductive Call where
  | lease (order : LeaseOrder) (owner : AccountId)
      (startBin endBin stakedAmount throughputQuota : ℕ)
  | authorize (order : LeaseOrder) (bin : ℕ)
  | resetQuotas

/-- The spectrum after a call, with the result. -/
def serve (spectrum : Spectrum) : Call → Spectrum × Except String Unit
  | .lease order owner startBin endBin stakedAmount throughputQuota =>
    spectrum.lease order owner startBin endBin stakedAmount throughputQuota
  | .authorize order bin => spectrum.authorize order bin
  | .resetQuotas => (spectrum.resetQuotas, .ok ())

/-- The spectrum after a list of calls. -/
def after (spectrum : Spectrum) (calls : List Call) : Spectrum :=
  calls.foldl (fun spectrum call ↦ (spectrum.serve call).1) spectrum

/-- Whether a call is an operation on one of the bins of a range that is authorized. -/
def succeedsIn (spectrum : Spectrum) (startBin endBin : ℕ) : Call → Bool
  | .authorize order bin =>
    decide (startBin ≤ bin ∧ bin < endBin) && (spectrum.authorize order bin).2.isOk
  | _ => false

/-- The number of operations on the bins of a range that a list of calls authorizes. -/
def successes (startBin endBin : ℕ) : Spectrum → List Call → ℕ
  | _, [] => 0
  | spectrum, call :: calls =>
    (if spectrum.succeedsIn startBin endBin call then 1 else 0) +
      successes startBin endBin (spectrum.serve call).1 calls

/-- Whether a call leaves the quota counters running. -/
def keepsQuotas : Call → Bool
  | .resetQuotas => false
  | _ => true

/-! ### The invariant -/

/-- The leases are nonempty ranges of the spectrum under their first bins, pairwise disjoint and
within their quotas. -/
structure Sound (spectrum : Spectrum) : Prop where
  nonempty : ∀ (key : ℕ) (lease : BandLease), spectrum.leases[key]? = some lease →
    lease.startBin < lease.endBin
  within : ∀ (key : ℕ) (lease : BandLease), spectrum.leases[key]? = some lease →
    lease.endBin ≤ spectrum.size
  stored : ∀ (key : ℕ) (lease : BandLease), spectrum.leases[key]? = some lease →
    lease.startBin = key
  used_le : ∀ (key : ℕ) (lease : BandLease), spectrum.leases[key]? = some lease →
    lease.usedThroughput ≤ lease.throughputQuota
  disjoint : ∀ (first second : ℕ) (lease other : BandLease),
    spectrum.leases[first]? = some lease → spectrum.leases[second]? = some other →
      first ≠ second → lease.endBin ≤ other.startBin ∨ other.endBin ≤ lease.startBin

theorem sound_new (size : ℕ) : Sound (new size) where
  nonempty _ _ hlookup := by cases ExtTreeMap.getElem?_empty.symm.trans hlookup
  within _ _ hlookup := by cases ExtTreeMap.getElem?_empty.symm.trans hlookup
  stored _ _ hlookup := by cases ExtTreeMap.getElem?_empty.symm.trans hlookup
  used_le _ _ hlookup := by cases ExtTreeMap.getElem?_empty.symm.trans hlookup
  disjoint _ _ _ _ hlookup := by cases ExtTreeMap.getElem?_empty.symm.trans hlookup

namespace Sound

variable {spectrum : Spectrum}

/-- One lease at most covers a bin. -/
theorem eq_of_covers (hsound : Sound spectrum) {first second : ℕ} {lease other : BandLease}
    (hlease : spectrum.leases[first]? = some lease) (hother : spectrum.leases[second]? = some other)
    {bin : ℕ} (hcovers : lease.covers bin = true) (hcovered : other.covers bin = true) :
    first = second ∧ lease = other := by
  rw [BandLease.covers_iff] at hcovers hcovered
  have hkey : first = second := by
    by_contra hne
    have hapart := hsound.disjoint first second lease other hlease hother hne
    omega
  subst hkey
  exact ⟨rfl, Option.some.inj (hlease.symm.trans hother)⟩

/-- The lease that is found is the one that covers the bin, in whichever order. -/
theorem leaseForMut_iff (hsound : Sound spectrum) (order : LeaseOrder) (bin key : ℕ)
    (lease : BandLease) :
    spectrum.leaseForMut order bin = some (key, lease) ↔
      spectrum.leases[key]? = some lease ∧ lease.covers bin = true := by
  have hunique : ∀ first ∈ spectrum.leases.toList, ∀ second ∈ spectrum.leases.toList,
      first.2.covers bin = true → second.2.covers bin = true → first = second := by
    intro first hfirst second hsecond hcovers hcovered
    rw [ExtTreeMap.mem_toList_iff_getElem?_eq_some] at hfirst hsecond
    obtain ⟨hkey, hlease⟩ := hsound.eq_of_covers hfirst hsecond hcovers hcovered
    exact Prod.ext hkey hlease
  rw [← ExtTreeMap.mem_toList_iff_getElem?_eq_some]
  exact order.find?_visit hunique (key, lease)

/-- The lease that covers a bin does not depend on the order. -/
theorem leaseForMut_order (hsound : Sound spectrum) (order other : LeaseOrder) (bin : ℕ) :
    spectrum.leaseForMut order bin = spectrum.leaseForMut other bin := by
  refine Option.ext fun entry ↦ ?_
  rw [hsound.leaseForMut_iff order bin entry.1 entry.2,
    hsound.leaseForMut_iff other bin entry.1 entry.2]

end Sound

/-! ### One call -/

/-- A lease is refused and changes nothing, or its range is free and it is added. -/
theorem lease_cases (spectrum : Spectrum) (order : LeaseOrder) (owner : AccountId)
    (startBin endBin stakedAmount throughputQuota : ℕ) :
    (∃ error, spectrum.lease order owner startBin endBin stakedAmount throughputQuota =
      (spectrum, .error error)) ∨
    startBin < endBin ∧ endBin ≤ spectrum.size ∧
      (∀ (key : ℕ) (held : BandLease), spectrum.leases[key]? = some held →
        held.endBin ≤ startBin ∨ endBin ≤ held.startBin) ∧
      spectrum.lease order owner startBin endBin stakedAmount throughputQuota =
        ({ spectrum with
            leases := spectrum.leases.insert startBin
              ⟨owner, startBin, endBin, stakedAmount, throughputQuota, 0⟩ }, .ok ()) := by
  unfold lease
  split_ifs with hempty hsize hoverlap
  · exact .inl ⟨_, rfl⟩
  · exact .inl ⟨_, rfl⟩
  · exact .inl ⟨_, rfl⟩
  · refine .inr ⟨by omega, by omega, fun key held hheld ↦ ?_, rfl⟩
    by_contra hclash
    refine hoverlap (List.any_eq_true.mpr ⟨(key, held), (order.mem_visit _ _).mpr
      (ExtTreeMap.mem_toList_iff_getElem?_eq_some.mpr hheld), ?_⟩)
    rw [Bool.and_eq_true, decide_eq_true_iff, decide_eq_true_iff]
    dsimp only
    omega

/-- No lease covers the bin and the operation is refused, or one lease does; then the operation is
authorized and counted while quota remains, and is refused after that. A refusal changes nothing.
Assumes: the spectrum is sound. -/
theorem Sound.authorize_cases {spectrum : Spectrum} (hsound : Sound spectrum) (order : LeaseOrder)
    (bin : ℕ) :
    ((∀ (key : ℕ) (lease : BandLease), spectrum.leases[key]? = some lease →
        lease.covers bin = false) ∧
      spectrum.authorize order bin = (spectrum, .error (notLeased bin))) ∨
    ∃ (key : ℕ) (lease : BandLease), spectrum.leases[key]? = some lease ∧
      lease.covers bin = true ∧
      ((lease.usedThroughput < lease.throughputQuota ∧
        spectrum.authorize order bin =
          ({ spectrum with
              leases := spectrum.leases.insert key
                { lease with usedThroughput := lease.usedThroughput + 1 } }, .ok ())) ∨
      (lease.throughputQuota ≤ lease.usedThroughput ∧
        spectrum.authorize order bin = (spectrum, .error (quotaExceeded lease)))) := by
  unfold authorize
  cases hfind : spectrum.leaseForMut order bin with
  | none =>
    refine .inl ⟨fun key lease hlease ↦ ?_, rfl⟩
    by_contra hcovers
    have hfound := (hsound.leaseForMut_iff order bin key lease).mpr
      ⟨hlease, Bool.eq_true_of_not_eq_false hcovers⟩
    rw [hfind] at hfound
    cases hfound
  | some entry =>
    obtain ⟨key, lease⟩ := entry
    obtain ⟨hlease, hcovers⟩ := (hsound.leaseForMut_iff order bin key lease).mp hfind
    refine .inr ⟨key, lease, hlease, hcovers, ?_⟩
    unfold BandLease.consumeQuota BandLease.hasQuota
    dsimp only
    by_cases hquota : lease.usedThroughput < lease.throughputQuota
    · refine .inl ⟨hquota, ?_⟩
      rw [decide_eq_true hquota]
      rfl
    · rw [decide_eq_false hquota]
      refine .inr ⟨Nat.le_of_not_lt hquota, ?_⟩
      show ({ spectrum with leases := spectrum.leases.insert key lease }, _) = _
      rw [insert_of_getElem? hlease]
      rfl

/-- A refused call changes nothing. Assumes: the spectrum is sound, and the call is refused. -/
theorem Sound.unchanged_of_error {spectrum : Spectrum} (hsound : Sound spectrum) {call : Call}
    {error : String} (hrefused : (spectrum.serve call).2 = .error error) :
    (spectrum.serve call).1 = spectrum := by
  cases call with
  | lease order owner startBin endBin stakedAmount throughputQuota =>
    rcases spectrum.lease_cases order owner startBin endBin stakedAmount throughputQuota with
      ⟨_, hlease⟩ | ⟨-, -, -, hlease⟩
    · exact congrArg Prod.fst hlease
    · cases (congrArg Prod.snd hlease).symm.trans hrefused
  | authorize order bin =>
    rcases hsound.authorize_cases order bin with
      ⟨-, hauthorize⟩ | ⟨_, _, -, -, ⟨-, hauthorize⟩ | ⟨-, hauthorize⟩⟩
    · exact congrArg Prod.fst hauthorize
    · cases (congrArg Prod.snd hauthorize).symm.trans hrefused
    · exact congrArg Prod.fst hauthorize
  | resetQuotas => cases hrefused

/-- The same band: only the quota counter may differ. -/
structure SameBand (first second : BandLease) : Prop where
  owner_eq : first.owner = second.owner
  startBin_eq : first.startBin = second.startBin
  endBin_eq : first.endBin = second.endBin
  stakedAmount_eq : first.stakedAmount = second.stakedAmount
  throughputQuota_eq : first.throughputQuota = second.throughputQuota

theorem SameBand.refl (lease : BandLease) : SameBand lease lease := ⟨rfl, rfl, rfl, rfl, rfl⟩

theorem SameBand.trans {first second third : BandLease} (hfirst : SameBand first second)
    (hsecond : SameBand second third) : SameBand first third :=
  ⟨hfirst.owner_eq.trans hsecond.owner_eq, hfirst.startBin_eq.trans hsecond.startBin_eq,
    hfirst.endBin_eq.trans hsecond.endBin_eq,
    hfirst.stakedAmount_eq.trans hsecond.stakedAmount_eq,
    hfirst.throughputQuota_eq.trans hsecond.throughputQuota_eq⟩

/-- What a call makes of the lease under a key: a lease stays, and an operation that is authorized
on one of its bins is counted, unless the counters are reset; a new lease starts at zero. -/
def ServedAt (spectrum : Spectrum) (call : Call) (key : ℕ) : Prop :=
  (∃ lease next : BandLease, spectrum.leases[key]? = some lease ∧
    (spectrum.serve call).1.leases[key]? = some next ∧ SameBand lease next ∧
      (keepsQuotas call = true → next.usedThroughput = lease.usedThroughput +
        if spectrum.succeedsIn lease.startBin lease.endBin call then 1 else 0)) ∨
  spectrum.leases[key]? = none ∧
    ∀ next : BandLease, (spectrum.serve call).1.leases[key]? = some next →
      next.usedThroughput = 0 ∧ ∀ startBin endBin,
        spectrum.succeedsIn startBin endBin call = false

/-- A lease that a call leaves alone. Assumes: the lookup is the same, and the call authorizes
nothing on the bins of the lease. -/
theorem servedAt_of_same {spectrum : Spectrum} {call : Call} {key : ℕ}
    (hsame : (spectrum.serve call).1.leases[key]? = spectrum.leases[key]?)
    (hidle : ∀ lease : BandLease, spectrum.leases[key]? = some lease →
      spectrum.succeedsIn lease.startBin lease.endBin call = false) :
    ServedAt spectrum call key := by
  cases hlookup : spectrum.leases[key]? with
  | none =>
    rw [hlookup] at hsame
    refine .inr ⟨hlookup, fun next hnext ↦ ?_⟩
    cases hsame.symm.trans hnext
  | some lease =>
    refine .inl ⟨lease, lease, hlookup, hsame.trans hlookup, SameBand.refl lease, fun _ ↦ ?_⟩
    rw [if_neg (by rw [hidle lease hlookup]; exact Bool.false_ne_true), Nat.add_zero]

theorem succeedsIn_authorize (spectrum : Spectrum) (startBin endBin : ℕ) (order : LeaseOrder)
    (bin : ℕ) : spectrum.succeedsIn startBin endBin (.authorize order bin) =
      (decide (startBin ≤ bin ∧ bin < endBin) && (spectrum.authorize order bin).2.isOk) := rfl

/-- A refused operation counts nowhere. Assumes: the operation is refused. -/
theorem succeedsIn_of_error {spectrum : Spectrum} {order : LeaseOrder} {bin : ℕ} {error : String}
    (hrefused : spectrum.authorize order bin = (spectrum, .error error)) (startBin endBin : ℕ) :
    spectrum.succeedsIn startBin endBin (.authorize order bin) = false := by
  rw [succeedsIn_authorize, hrefused]
  exact Bool.and_false _

/-- A request for a lease serves every key as described. Assumes: the spectrum is sound. -/
theorem Sound.servedAt_lease {spectrum : Spectrum} (hsound : Sound spectrum) (order : LeaseOrder)
    (owner : AccountId) (startBin endBin stakedAmount throughputQuota key : ℕ) :
    ServedAt spectrum (.lease order owner startBin endBin stakedAmount throughputQuota) key := by
  rcases spectrum.lease_cases order owner startBin endBin stakedAmount throughputQuota with
    ⟨_, hlease⟩ | ⟨hempty, -, hfree, hlease⟩
  · have hserve : (spectrum.serve (.lease order owner startBin endBin stakedAmount
        throughputQuota)).1 = spectrum := congrArg Prod.fst hlease
    exact servedAt_of_same (by rw [hserve]) fun _ _ ↦ rfl
  · have hserve : (spectrum.serve (.lease order owner startBin endBin stakedAmount
        throughputQuota)).1.leases = spectrum.leases.insert startBin
          ⟨owner, startBin, endBin, stakedAmount, throughputQuota, 0⟩ :=
      congrArg (fun result ↦ result.1.leases) hlease
    by_cases hkey : startBin = key
    · subst hkey
      refine .inr ⟨?_, fun next hnext ↦ ?_⟩
      · rw [Option.eq_none_iff_forall_ne_some]
        intro held hheld
        have hstored := hsound.stored startBin held hheld
        have hnonempty := hsound.nonempty startBin held hheld
        have hapart := hfree startBin held hheld
        omega
      · rw [hserve, ExtTreeMap.getElem?_insert_self] at hnext
        obtain rfl := Option.some.inj hnext
        exact ⟨rfl, fun _ _ ↦ rfl⟩
    · refine servedAt_of_same ?_ fun _ _ ↦ rfl
      rw [hserve, getElem?_insert_of_ne _ hkey]

/-- An operation serves every key as described. Assumes: the spectrum is sound. -/
theorem Sound.servedAt_authorize {spectrum : Spectrum} (hsound : Sound spectrum)
    (order : LeaseOrder) (bin key : ℕ) : ServedAt spectrum (.authorize order bin) key := by
  rcases hsound.authorize_cases order bin with
    ⟨-, hauthorize⟩ | ⟨covering, lease, hlease, hcovers,
      ⟨-, hauthorize⟩ | ⟨-, hauthorize⟩⟩
  · exact servedAt_of_same (congrArg (fun result ↦ result.1.leases[key]?) hauthorize)
      fun _ _ ↦ succeedsIn_of_error hauthorize _ _
  · have hserve : (spectrum.serve (.authorize order bin)).1.leases =
        spectrum.leases.insert covering
          { lease with usedThroughput := lease.usedThroughput + 1 } :=
      congrArg (fun result ↦ result.1.leases) hauthorize
    by_cases hkey : covering = key
    · subst hkey
      have hsucceeds : spectrum.succeedsIn lease.startBin lease.endBin (.authorize order bin) =
          true := by
        rw [succeedsIn_authorize, decide_eq_true ((lease.covers_iff bin).mp hcovers), hauthorize]
        rfl
      refine .inl ⟨lease, { lease with usedThroughput := lease.usedThroughput + 1 }, hlease, ?_,
        ⟨rfl, rfl, rfl, rfl, rfl⟩, fun _ ↦ ?_⟩
      · rw [hserve, ExtTreeMap.getElem?_insert_self]
      · rw [if_pos hsucceeds]
    · refine servedAt_of_same ?_ fun other hother ↦ ?_
      · rw [hserve, getElem?_insert_of_ne _ hkey]
      · have houtside : ¬(other.startBin ≤ bin ∧ bin < other.endBin) := fun hinside ↦
          hkey (hsound.eq_of_covers hlease hother hcovers ((other.covers_iff bin).mpr hinside)).1
        rw [succeedsIn_authorize, decide_eq_false houtside, Bool.false_and]
  · exact servedAt_of_same (congrArg (fun result ↦ result.1.leases[key]?) hauthorize)
      fun _ _ ↦ succeedsIn_of_error hauthorize _ _

/-- A reset serves every key as described. -/
theorem servedAt_resetQuotas (spectrum : Spectrum) (key : ℕ) :
    ServedAt spectrum .resetQuotas key := by
  have hserve : (spectrum.serve .resetQuotas).1.leases[key]? =
      spectrum.leases[key]?.map fun lease ↦ { lease with usedThroughput := 0 } :=
    ExtTreeMap.getElem?_map
  cases hlookup : spectrum.leases[key]? with
  | none =>
    refine .inr ⟨hlookup, fun next hnext ↦ ?_⟩
    rw [hserve, hlookup] at hnext
    cases hnext
  | some lease =>
    rw [hlookup] at hserve
    exact .inl ⟨lease, _, hlookup, hserve, ⟨rfl, rfl, rfl, rfl, rfl⟩,
      fun hkeeps ↦ absurd hkeeps Bool.false_ne_true⟩

/-- Every call serves every key as described. Assumes: the spectrum is sound. -/
theorem Sound.servedAt {spectrum : Spectrum} (hsound : Sound spectrum) (call : Call) (key : ℕ) :
    ServedAt spectrum call key := by
  cases call with
  | lease order owner startBin endBin stakedAmount throughputQuota =>
    exact hsound.servedAt_lease order owner startBin endBin stakedAmount throughputQuota key
  | authorize order bin => exact hsound.servedAt_authorize order bin key
  | resetQuotas => exact servedAt_resetQuotas spectrum key

/-! ### The invariant over runs -/

/-- A spectrum with the same bands is sound. Assumes: the size is the same, and every lease is that
of a sound spectrum up to its counter, which is within the quota. -/
theorem Sound.of_sameBand {spectrum next : Spectrum} (hsound : Sound spectrum)
    (hsize : next.size = spectrum.size)
    (hbands : ∀ (key : ℕ) (lease : BandLease), next.leases[key]? = some lease →
      lease.usedThroughput ≤ lease.throughputQuota ∧
        ∃ before, spectrum.leases[key]? = some before ∧ SameBand before lease) : Sound next where
  nonempty key lease hlease := by
    obtain ⟨-, before, hbefore, hband⟩ := hbands key lease hlease
    rw [← hband.startBin_eq, ← hband.endBin_eq]
    exact hsound.nonempty key before hbefore
  within key lease hlease := by
    obtain ⟨-, before, hbefore, hband⟩ := hbands key lease hlease
    rw [← hband.endBin_eq, hsize]
    exact hsound.within key before hbefore
  stored key lease hlease := by
    obtain ⟨-, before, hbefore, hband⟩ := hbands key lease hlease
    rw [← hband.startBin_eq]
    exact hsound.stored key before hbefore
  used_le key lease hlease := (hbands key lease hlease).1
  disjoint first second lease other hlease hother hne := by
    obtain ⟨-, before, hbefore, hband⟩ := hbands first lease hlease
    obtain ⟨-, earlier, hearlier, hother⟩ := hbands second other hother
    rw [← hband.startBin_eq, ← hband.endBin_eq, ← hother.startBin_eq, ← hother.endBin_eq]
    exact hsound.disjoint first second before earlier hbefore hearlier hne

/-- A lease of a free range keeps the spectrum sound. Assumes: the range is nonempty, within the
spectrum and apart from every lease. -/
theorem Sound.insert {spectrum : Spectrum} (hsound : Sound spectrum) (owner : AccountId)
    {startBin endBin : ℕ} (stakedAmount throughputQuota : ℕ) (hempty : startBin < endBin)
    (hsize : endBin ≤ spectrum.size)
    (hfree : ∀ (key : ℕ) (held : BandLease), spectrum.leases[key]? = some held →
      held.endBin ≤ startBin ∨ endBin ≤ held.startBin) :
    Sound { spectrum with
      leases := spectrum.leases.insert startBin
        ⟨owner, startBin, endBin, stakedAmount, throughputQuota, 0⟩ } := by
  have hcases : ∀ (key : ℕ) (lease : BandLease), (spectrum.leases.insert startBin
      ⟨owner, startBin, endBin, stakedAmount, throughputQuota, 0⟩)[key]? = some lease →
        startBin = key ∧ lease = ⟨owner, startBin, endBin, stakedAmount, throughputQuota, 0⟩ ∨
          startBin ≠ key ∧ spectrum.leases[key]? = some lease := by
    intro key lease hlease
    by_cases hkey : startBin = key
    · subst hkey
      rw [ExtTreeMap.getElem?_insert_self] at hlease
      exact .inl ⟨rfl, (Option.some.inj hlease).symm⟩
    · rw [getElem?_insert_of_ne _ hkey] at hlease
      exact .inr ⟨hkey, hlease⟩
  constructor
  case nonempty =>
    intro key lease hlease
    rcases hcases key lease hlease with ⟨-, rfl⟩ | ⟨-, hheld⟩
    · exact hempty
    · exact hsound.nonempty key lease hheld
  case within =>
    intro key lease hlease
    rcases hcases key lease hlease with ⟨-, rfl⟩ | ⟨-, hheld⟩
    · exact hsize
    · exact hsound.within key lease hheld
  case stored =>
    intro key lease hlease
    rcases hcases key lease hlease with ⟨rfl, rfl⟩ | ⟨-, hheld⟩
    · rfl
    · exact hsound.stored key lease hheld
  case used_le =>
    intro key lease hlease
    rcases hcases key lease hlease with ⟨-, rfl⟩ | ⟨-, hheld⟩
    · exact Nat.zero_le _
    · exact hsound.used_le key lease hheld
  case disjoint =>
    intro first second lease other hlease hother hne
    rcases hcases first lease hlease with ⟨rfl, rfl⟩ | ⟨-, hheld⟩
    · rcases hcases second other hother with ⟨rfl, -⟩ | ⟨-, hheld⟩
      · exact absurd rfl hne
      · exact (hfree second other hheld).symm
    · rcases hcases second other hother with ⟨-, rfl⟩ | ⟨-, hsecond⟩
      · exact hfree first lease hheld
      · exact hsound.disjoint first second lease other hheld hsecond hne

/-- A call keeps the spectrum sound. Assumes: the spectrum is sound. -/
theorem Sound.serve {spectrum : Spectrum} (hsound : Sound spectrum) (call : Call) :
    Sound (spectrum.serve call).1 := by
  cases call with
  | lease order owner startBin endBin stakedAmount throughputQuota =>
    show Sound (spectrum.lease order owner startBin endBin stakedAmount throughputQuota).1
    rcases spectrum.lease_cases order owner startBin endBin stakedAmount throughputQuota with
      ⟨_, hlease⟩ | ⟨hempty, hsize, hfree, hlease⟩
    · rwa [hlease]
    · rw [hlease]
      exact hsound.insert owner stakedAmount throughputQuota hempty hsize hfree
  | authorize order bin =>
    show Sound (spectrum.authorize order bin).1
    rcases hsound.authorize_cases order bin with
      ⟨-, hauthorize⟩ | ⟨covering, lease, hlease, -,
        ⟨hquota, hauthorize⟩ | ⟨-, hauthorize⟩⟩
    · rwa [hauthorize]
    · rw [hauthorize]
      refine hsound.of_sameBand rfl fun key next hnext ↦ ?_
      by_cases hkey : covering = key
      · subst hkey
        rw [ExtTreeMap.getElem?_insert_self] at hnext
        obtain rfl := Option.some.inj hnext
        exact ⟨hquota, lease, hlease, rfl, rfl, rfl, rfl, rfl⟩
      · rw [getElem?_insert_of_ne _ hkey] at hnext
        exact ⟨hsound.used_le key next hnext, next, hnext, SameBand.refl next⟩
    · rwa [hauthorize]
  | resetQuotas =>
    refine hsound.of_sameBand rfl fun key next hnext ↦ ?_
    obtain ⟨lease, hlease, rfl⟩ :=
      Option.map_eq_some_iff.mp (ExtTreeMap.getElem?_map.symm.trans hnext)
    exact ⟨Nat.zero_le _, lease, hlease, rfl, rfl, rfl, rfl, rfl⟩

theorem Sound.after {spectrum : Spectrum} (hsound : Sound spectrum) (calls : List Call) :
    Sound (spectrum.after calls) := by
  induction calls generalizing spectrum with
  | nil => exact hsound
  | cons call calls ih => exact ih (hsound.serve call)

/-- A lease stays. Assumes: the spectrum is sound, and the key has the lease. -/
theorem Sound.sameBand_after {spectrum : Spectrum} (hsound : Sound spectrum) (calls : List Call)
    {key : ℕ} {lease : BandLease} (hlease : spectrum.leases[key]? = some lease) :
    ∃ next, (spectrum.after calls).leases[key]? = some next ∧ SameBand lease next := by
  induction calls generalizing spectrum lease with
  | nil => exact ⟨lease, hlease, SameBand.refl lease⟩
  | cons call calls ih =>
    rcases hsound.servedAt call key with ⟨held, served, hheld, hserved, hband, -⟩ | ⟨hnone, -⟩
    · obtain rfl := Option.some.inj (hlease.symm.trans hheld)
      obtain ⟨next, hnext, hlater⟩ := ih (hsound.serve call) hserved
      exact ⟨next, hnext, hband.trans hlater⟩
    · cases hlease.symm.trans hnone

/-! ### The quota -/

/-- An operation that is authorized is on a bin of a lease. Assumes: the spectrum is sound, and the
operation is authorized. -/
theorem Sound.exists_of_succeedsIn {spectrum : Spectrum} (hsound : Sound spectrum)
    {startBin endBin : ℕ} {call : Call}
    (hsucceeds : spectrum.succeedsIn startBin endBin call = true) :
    ∃ (key : ℕ) (lease : BandLease) (bin : ℕ), spectrum.leases[key]? = some lease ∧
      lease.covers bin = true ∧ startBin ≤ bin ∧ bin < endBin := by
  cases call with
  | lease order owner startBin endBin stakedAmount throughputQuota => cases hsucceeds
  | authorize order bin =>
    rw [succeedsIn_authorize, Bool.and_eq_true, decide_eq_true_iff] at hsucceeds
    rcases hsound.authorize_cases order bin with
      ⟨-, hauthorize⟩ | ⟨key, lease, hlease, hcovers, -⟩
    · rw [hauthorize] at hsucceeds
      cases hsucceeds.2
    · exact ⟨key, lease, bin, hlease, hcovers, hsucceeds.1⟩
  | resetQuotas => cases hsucceeds

/-- A lease used what it had used before and the operations authorized on its bins since. Assumes:
the spectrum is sound, and no call resets the counters. -/
theorem Sound.successes_eq {spectrum : Spectrum} (hsound : Sound spectrum) {calls : List Call}
    (hkeeps : ∀ call ∈ calls, keepsQuotas call = true) {key : ℕ} {final : BandLease}
    (hfinal : (spectrum.after calls).leases[key]? = some final) :
    final.usedThroughput = (spectrum.leases[key]?.elim 0 BandLease.usedThroughput) +
      successes final.startBin final.endBin spectrum calls := by
  induction calls generalizing spectrum with
  | nil =>
    have hlookup : spectrum.leases[key]? = some final := hfinal
    rw [hlookup]
    rfl
  | cons call calls ih =>
    rw [List.forall_mem_cons] at hkeeps
    have hrest := ih (hsound.serve call) hkeeps.2 hfinal
    rw [successes, hrest]
    rcases hsound.servedAt call key with
      ⟨held, served, hheld, hserved, hband, hcount⟩ | ⟨hnone, hnew⟩
    · obtain ⟨last, hlast, hlater⟩ := (hsound.serve call).sameBand_after calls hserved
      obtain rfl := Option.some.inj (hfinal.symm.trans hlast)
      have hsame := hband.trans hlater
      rw [hheld, hserved, ← hsame.startBin_eq, ← hsame.endBin_eq]
      have hcounted := hcount hkeeps.1
      dsimp only [Option.elim_some]
      omega
    · cases hserved : (spectrum.serve call).1.leases[key]? with
      | some next =>
        obtain ⟨hused, hidle⟩ := hnew next hserved
        rw [hnone, hidle, if_neg Bool.false_ne_true, Nat.zero_add]
        exact congrArg (· + _) hused
      | none =>
        -- a bin of a lease that comes later is covered by no lease yet
        have hidle : spectrum.succeedsIn final.startBin final.endBin call = false := by
          by_contra hsucceeds
          obtain ⟨other, lease, bin, hlease, hcovers, hinside⟩ :=
            hsound.exists_of_succeedsIn (Bool.eq_true_of_not_eq_false hsucceeds)
          obtain ⟨last, hlast, hband⟩ := hsound.sameBand_after (call :: calls) hlease
          rw [BandLease.covers_iff, hband.startBin_eq, hband.endBin_eq,
            ← BandLease.covers_iff] at hcovers
          obtain ⟨rfl, -⟩ := (hsound.after (call :: calls)).eq_of_covers hlast hfinal hcovers
            ((final.covers_iff bin).mpr hinside)
          cases hlease.symm.trans hnone
        rw [hnone, hidle, if_neg Bool.false_ne_true]
        exact (Nat.zero_add _).symm

/-- The counters are at zero at the start and after a reset. -/
theorem usedThroughput_eq_zero {size : ℕ} {before : List Call}
    (hreset : before = [] ∨ before.getLast? = some .resetQuotas) {key : ℕ} {lease : BandLease}
    (hlease : ((new size).after before).leases[key]? = some lease) :
    lease.usedThroughput = 0 := by
  rcases hreset with rfl | hlast
  · cases ExtTreeMap.getElem?_empty.symm.trans hlease
  · obtain ⟨earlier, rfl⟩ := List.getLast?_eq_some_iff.mp hlast
    have hafter : (new size).after (earlier ++ [.resetQuotas]) =
        ((new size).after earlier).resetQuotas := List.foldl_append
    rw [hafter] at hlease
    obtain ⟨held, -, rfl⟩ :=
      Option.map_eq_some_iff.mp (ExtTreeMap.getElem?_map.symm.trans hlease)
    rfl

/-- An operation on a bin of a lease is authorized if and only if quota remains. Assumes: the
spectrum is sound, and the lease covers the bin. -/
theorem Sound.authorize_ok_iff {spectrum : Spectrum} (hsound : Sound spectrum) {key : ℕ}
    {lease : BandLease} (hlease : spectrum.leases[key]? = some lease) {bin : ℕ}
    (hcovers : lease.covers bin = true) (order : LeaseOrder) :
    (spectrum.authorize order bin).2 = .ok () ↔ lease.usedThroughput < lease.throughputQuota := by
  rcases hsound.authorize_cases order bin with
    ⟨huncovered, -⟩ | ⟨other, covering, hcovering, hcovered,
      ⟨hquota, hauthorize⟩ | ⟨hquota, hauthorize⟩⟩
  · rw [huncovered key lease hlease] at hcovers
    cases hcovers
  · obtain ⟨-, rfl⟩ := hsound.eq_of_covers hlease hcovering hcovers hcovered
    rw [hauthorize]
    exact ⟨fun _ ↦ hquota, fun _ ↦ rfl⟩
  · obtain ⟨-, rfl⟩ := hsound.eq_of_covers hlease hcovering hcovers hcovered
    rw [hauthorize]
    exact ⟨fun hok ↦ (nomatch hok), fun hless ↦ absurd hless (Nat.not_lt_of_le hquota)⟩

/-- In every run the leases are nonempty, disjoint ranges of the spectrum under their first bins; a
bin is covered by one lease at most, and the order of the map does not matter; what is refused
changes nothing; and while the counters run, the bins of a lease see at most its quota of
operations, and each one exactly while quota remains. -/
theorem leases_sound (size : ℕ) (before : List Call) :
    let spectrum := (new size).after before
    Sound spectrum ∧
      (∀ (bin first second : ℕ) (lease other : BandLease),
        spectrum.leases[first]? = some lease → spectrum.leases[second]? = some other →
          lease.covers bin = true → other.covers bin = true → first = second ∧ lease = other) ∧
      (∀ order other bin, spectrum.leaseFor order bin = spectrum.leaseFor other bin ∧
        spectrum.authorize order bin = spectrum.authorize other bin) ∧
      (∀ call error, (spectrum.serve call).2 = .error error → (spectrum.serve call).1 = spectrum) ∧
      ∀ window : List Call, (∀ call ∈ window, keepsQuotas call = true) →
        ∀ (key : ℕ) (lease : BandLease), (spectrum.after window).leases[key]? = some lease →
          successes lease.startBin lease.endBin spectrum window ≤ lease.throughputQuota ∧
          (before = [] ∨ before.getLast? = some .resetQuotas →
            ∀ order bin, lease.covers bin = true →
              (((spectrum.after window).authorize order bin).2 = .ok () ↔
                successes lease.startBin lease.endBin spectrum window <
                  lease.throughputQuota)) := by
  intro spectrum
  have hsound : Sound spectrum := (sound_new size).after before
  refine ⟨hsound, fun bin first second lease other hlease hother hcovers hcovered ↦
    hsound.eq_of_covers hlease hother hcovers hcovered, fun order other bin ↦ ?_,
    fun call error hrefused ↦ hsound.unchanged_of_error hrefused,
    fun window hkeeps key lease hlease ↦ ?_⟩
  · have hfound := hsound.leaseForMut_order order other bin
    constructor
    · rw [leaseFor, leaseFor, hfound]
    · rw [authorize, authorize, hfound]
  · have hfinal := hsound.after window
    have hused := hsound.successes_eq hkeeps hlease
    have hquota := hfinal.used_le key lease hlease
    refine ⟨by omega, fun hreset order bin hcovers ↦ ?_⟩
    rw [hfinal.authorize_ok_iff hlease hcovers order]
    have hstart : spectrum.leases[key]?.elim 0 BandLease.usedThroughput = 0 := by
      cases hlookup : spectrum.leases[key]? with
      | none => rfl
      | some held => exact usedThroughput_eq_zero hreset hlookup
    rw [hused, hstart, Nat.zero_add]

/-- A band of four bins with a quota of one: an overlapping lease is refused, and so is the second
operation, until the counters are reset. -/
example : let calls : List Call := [.lease .forward ⟨1⟩ 0 4 10 1, .lease .backward ⟨2⟩ 3 6 10 1,
      .authorize .forward 2]
    let spectrum := (new 8).after calls
    spectrum.leases.size = 1 ∧ (spectrum.authorize .backward 3).2.isOk = false ∧
      (spectrum.resetQuotas.authorize .backward 3).2.isOk = true := by decide +kernel

end Spectrum

end Fluidic.Value
