import Fluidic.Library.LabelledRun
import Fluidic.Persistence.RoundTrip

/-!
# The slash history of a stake table

Over any list of stakes, slashes and restarts an operator that was slashed keeps a slash nonce, and
with it stays outside of the eligible operators and of the total stake (`isSlashed_of_reaches`).

Slash nonces are taken from a 64-bit counter that wraps, and a restart goes on after the highest
nonce of the snapshot. As long as no slash is taken from a counter that has wrapped, the nonces are
distinct, and a new one is higher than all that are recorded (`Numbered`). `unwrapped_of_slashes_lt`
says that `2 ^ 64 - 1` slashes stay clear of the wrap, wherever the restarts are.
-/

set_option autoImplicit false
set_option relaxedAutoImplicit false

namespace Fluidic.Persistence

open Library Crypto Operator
open Std (ExtTreeMap LawfulEqCmp)

namespace SlashHistory

/-- A call of a stake table. A restart writes the table to a snapshot, in some order, and restores
it under a configuration. -/
inductive StakeCall where
  | stake (operator : AccountId) (amount : ℕ)
  | slash (operator : AccountId)
  | restart (config : StakingConfig) (order : IterationOrder (AccountId × OperatorEntry))

/-- The table after a restart. -/
def restarted (table : StakeTable) (config : StakingConfig)
    (order : IterationOrder (AccountId × OperatorEntry)) : StakeTable :=
  StakeTable.fromSnapshot config (table.toSnapshot order)

/-- The table after a call. -/
def serve (table : StakeTable) : StakeCall → Option (StakeTable × Unit)
  | .stake operator amount => some ((table.stake operator amount).1, ())
  | .slash operator => some ((table.slash operator).1, ())
  | .restart config order => some (restarted table config order, ())

/-- The slash nonce that is recorded for an operator. -/
def nonceOf (table : StakeTable) (operator : AccountId) : Option ℕ :=
  (table.entry operator).slashNonce

/-- A slash is taken from a counter that has not wrapped: it is at zero only as long as no operator
was slashed. -/
def Unwrapped (table : StakeTable) : StakeCall → Prop
  | .slash _ => table.slashCounter = 0 → ∀ operator, nonceOf table operator = none
  | _ => True

/-! ### What a call does to the nonces -/

theorem nonceOf_new (config : StakingConfig) (operator : AccountId) :
    nonceOf (StakeTable.new config) operator = none := by
  unfold nonceOf StakeTable.entry StakeTable.new
  rw [ExtTreeMap.getD_empty]

/-- A stake leaves every nonce. -/
theorem nonceOf_stake (table : StakeTable) (operator : AccountId) (amount : ℕ)
    (other : AccountId) : nonceOf (table.stake operator amount).1 other = nonceOf table other := by
  show OperatorEntry.slashNonce ((table.operators.insert operator _).getD other _) = _
  rw [ExtTreeMap.getD_insert]
  split_ifs with hsame
  · rw [LawfulEqCmp.compare_eq_iff_eq.mp hsame]
    rfl
  · rfl

/-- A slash gives the operator the nonce of the counter and leaves the others. -/
theorem nonceOf_slash (table : StakeTable) (operator other : AccountId) :
    nonceOf (table.slash operator).1 other =
      if operator = other then some table.slashCounter else nonceOf table other := by
  show OperatorEntry.slashNonce ((table.operators.insert operator _).getD other _) = _
  rw [ExtTreeMap.getD_insert]
  simp only [LawfulEqCmp.compare_eq_iff_eq]
  split_ifs <;> rfl

/-- A restart restores every entry. -/
theorem operators_restarted (table : StakeTable) (config : StakingConfig)
    (order : IterationOrder (AccountId × OperatorEntry)) :
    (restarted table config order).operators = table.operators :=
  (fromSnapshot_toSnapshot table order).2

theorem nonceOf_restarted (table : StakeTable) (config : StakingConfig)
    (order : IterationOrder (AccountId × OperatorEntry)) (operator : AccountId) :
    nonceOf (restarted table config order) operator = nonceOf table operator := by
  unfold nonceOf StakeTable.entry
  rw [operators_restarted]

/-- The highest slash nonce of a list of entries is at least each of them, and below a bound that
all of them are below. -/
theorem highest_spec (entries : List (String × OperatorEntry)) (start : ℕ) :
    let highest := entries.foldl
      (fun highest entry ↦
        match StakeTable.operatorFromHex entry.1, entry.2.slashNonce with
        | some _, some nonce => max highest nonce
        | _, _ => highest) start
    start ≤ highest ∧
      (∀ entry ∈ entries, ∀ operator nonce,
        StakeTable.operatorFromHex entry.1 = some operator → entry.2.slashNonce = some nonce →
          nonce ≤ highest) ∧
      ∀ bound, start < bound →
        (∀ entry ∈ entries, ∀ nonce, entry.2.slashNonce = some nonce → nonce < bound) →
          highest < bound := by
  induction entries generalizing start with
  | nil =>
    exact ⟨le_rfl, fun entry hentry ↦ absurd hentry List.not_mem_nil, fun bound hstart _ ↦ hstart⟩
  | cons entry entries ih =>
    rw [List.foldl_cons]
    set next := match StakeTable.operatorFromHex entry.1, entry.2.slashNonce with
      | some _, some nonce => max start nonce
      | _, _ => start with hnext
    obtain ⟨hstart, hentries, hbounded⟩ := ih next
    have hgrows : start ≤ next := by
      rw [hnext]
      split
      · exact le_max_left _ _
      · exact le_rfl
    refine ⟨hgrows.trans hstart, fun other hother ↦ ?_, fun bound hless hbelow ↦ ?_⟩
    · rcases List.mem_cons.mp hother with rfl | hlater
      · intro operator nonce hoperator hnonce
        have hmax : next = max start nonce := by rw [hnext, hoperator, hnonce]
        exact ((le_max_right start nonce).trans hmax.ge).trans hstart
      · exact hentries other hlater
    · rw [List.forall_mem_cons] at hbelow
      refine hbounded bound ?_ hbelow.2
      rw [hnext]
      split
      · next nonce _ hnonce => exact max_lt hless (hbelow.1 nonce hnonce)
      · exact hless

/-- The counter after a restart is one more than a number that no recorded nonce exceeds and that is
below every bound of them. -/
theorem slashCounter_restarted (table : StakeTable) (config : StakingConfig)
    (order : IterationOrder (AccountId × OperatorEntry)) :
    ∃ highest, (restarted table config order).slashCounter = (highest + 1) % 2 ^ 64 ∧
      (∀ operator nonce, nonceOf table operator = some nonce → nonce ≤ highest) ∧
      ∀ bound, 0 < bound →
        (∀ operator nonce, nonceOf table operator = some nonce → nonce < bound) →
          highest < bound := by
  have hentry (entry : String × OperatorEntry) :
      entry ∈ (table.toSnapshot order).toList ↔
        ∃ operator : AccountId, accountToHex operator = entry.1 ∧
          table.operators[operator]? = some entry.2 := by
    have hinjective : ∀ first second, accountToHex first = accountToHex second →
        first = second := by
      intro first second hsame
      have hread := accountFromHex_accountToHex first
      rw [hsame, accountFromHex_accountToHex] at hread
      exact (Option.some.inj hread).symm
    exact mem_toList_rekey hinjective order table.operators entry
  have hnonce {operator : AccountId} {entry : OperatorEntry}
      (hlookup : table.operators[operator]? = some entry) :
      nonceOf table operator = entry.slashNonce := by
    unfold nonceOf StakeTable.entry
    rw [ExtTreeMap.getD_eq_getD_getElem?, hlookup, Option.getD_some]
  obtain ⟨-, hrecorded, hbounded⟩ := highest_spec (table.toSnapshot order).toList 0
  refine ⟨_, rfl, fun operator nonce hoperator ↦ ?_, fun bound hpositive hbelow ↦ ?_⟩
  · cases hlookup : table.operators[operator]? with
    | none =>
      unfold nonceOf StakeTable.entry at hoperator
      rw [ExtTreeMap.getD_eq_getD_getElem?, hlookup] at hoperator
      cases hoperator
    | some entry =>
      exact hrecorded (accountToHex operator, entry) ((hentry _).mpr ⟨operator, rfl, hlookup⟩)
        operator nonce (accountFromHex_accountToHex operator)
        ((hnonce hlookup).symm.trans hoperator)
  · refine hbounded bound hpositive fun entry hmem nonce hrecords ↦ ?_
    obtain ⟨operator, -, hlookup⟩ := (hentry entry).mp hmem
    exact hbelow operator nonce ((hnonce hlookup).trans hrecords)

/-! ### Permanence -/

/-- A slashed operator takes no part: it is not eligible, and the total stake is that of the others.
-/
structure Excluded (table : StakeTable) (operator : AccountId) : Prop where
  isStaked : table.isStaked operator = false
  stakedOperators : ∀ amount, (operator, amount) ∉ table.stakedOperators
  totalStake : table.totalStake =
    sumBy (fun other entry ↦ if other = operator then 0 else StakeTable.liveStake entry)
      table.operators % 2 ^ 128

/-- An operator that has a nonce is excluded. Assumes: the operator was slashed. -/
theorem excluded_of_isSlashed {table : StakeTable} {operator : AccountId}
    (hslashed : table.isSlashed operator = true) : Excluded table operator := by
  have hnonce {entry : OperatorEntry} (hlookup : table.operators[operator]? = some entry) :
      entry.slashNonce.isNone = false := by
    unfold StakeTable.isSlashed StakeTable.entry at hslashed
    rw [ExtTreeMap.getD_eq_getD_getElem?, hlookup, Option.getD_some] at hslashed
    rw [← Option.not_isSome, hslashed]
    rfl
  have hstaked {entry : OperatorEntry} (hlookup : table.operators[operator]? = some entry) :
      table.isStakedInner entry = false := by
    rw [StakeTable.isStakedInner, hnonce hlookup, Bool.and_false]
  constructor
  · unfold StakeTable.isStaked
    cases hlookup : table.operators[operator]? with
    | none => rfl
    | some entry => exact hstaked hlookup
  · intro amount hmem
    obtain ⟨⟨other, entry⟩, hentry, hpair⟩ := List.mem_map.mp hmem
    obtain ⟨rfl, -⟩ := Prod.mk.inj hpair
    rw [List.mem_filter, ExtTreeMap.mem_toList_iff_getElem?_eq_some] at hentry
    exact Bool.false_ne_true ((hstaked hentry.1).symm.trans hentry.2)
  · unfold StakeTable.totalStake
    refine congrArg (· % 2 ^ 128) (sumBy_congr fun other entry hlookup ↦ ?_)
    split_ifs with hsame
    · rw [hsame] at hlookup
      rw [StakeTable.liveStake, hnonce hlookup]
      rfl
    · rfl

/-- A call forgets no slash. Assumes: the operator was slashed. -/
theorem isSlashed_of_serve {table next : StakeTable} {call : StakeCall} {reply : Unit}
    (hserve : serve table call = some (next, reply)) {operator : AccountId}
    (hslashed : table.isSlashed operator = true) : next.isSlashed operator = true := by
  cases call with
  | stake staker amount =>
    obtain rfl := congrArg Prod.fst (Option.some.inj hserve)
    have hnonce := nonceOf_stake table staker amount operator
    exact (congrArg Option.isSome hnonce).trans hslashed
  | slash offender =>
    obtain rfl := congrArg Prod.fst (Option.some.inj hserve)
    have hnonce := nonceOf_slash table offender operator
    split_ifs at hnonce
    · exact congrArg Option.isSome hnonce
    · exact (congrArg Option.isSome hnonce).trans hslashed
  | restart config order =>
    obtain rfl := congrArg Prod.fst (Option.some.inj hserve)
    exact (congrArg Option.isSome (nonceOf_restarted table config order operator)).trans hslashed

/-- A slash is permanent. Assumes: the operator was slashed, and the later table was reached from
there. -/
theorem isSlashed_of_reaches {table later : StakeTable} {history : List (StakeTable × StakeCall)}
    (hreaches : Reaches serve anyStep table history later) {operator : AccountId}
    (hslashed : table.isSlashed operator = true) : later.isSlashed operator = true :=
  @Reaches.invariant _ _ _ _ _ table (fun table ↦ table.isSlashed operator = true) hslashed
    (fun _ _ _ _ _ hbefore hserve ↦ isSlashed_of_serve hserve hbefore) history later hreaches

/-! ### Numbers -/

/-- The nonces are distinct 64-bit numbers, below the counter unless it has wrapped. -/
structure Numbered (table : StakeTable) : Prop where
  nonce_lt : ∀ operator nonce, nonceOf table operator = some nonce → nonce < 2 ^ 64
  ahead : table.slashCounter ≠ 0 →
    ∀ operator nonce, nonceOf table operator = some nonce → nonce < table.slashCounter
  distinct : ∀ first second nonce, nonceOf table first = some nonce →
    nonceOf table second = some nonce → first = second
  counter_lt : table.slashCounter < 2 ^ 64

theorem numbered_new (config : StakingConfig) : Numbered (StakeTable.new config) where
  nonce_lt operator nonce hnonce := by cases (nonceOf_new config operator).symm.trans hnonce
  ahead hcounter := absurd rfl hcounter
  distinct first second nonce hnonce := by cases (nonceOf_new config first).symm.trans hnonce
  counter_lt := Nat.two_pow_pos 64

/-- A new nonce is higher than all that are recorded if and only if the counter has not wrapped.
Assumes: the nonces are numbered. -/
theorem Numbered.lt_slash_iff {table : StakeTable} (hnumbered : Numbered table)
    (operator : AccountId) :
    (∀ other nonce, nonceOf table other = some nonce → nonce < (table.slash operator).2.1) ↔
      Unwrapped table (.slash operator) := by
  show (∀ other nonce, nonceOf table other = some nonce → nonce < table.slashCounter) ↔
    (table.slashCounter = 0 → ∀ other, nonceOf table other = none)
  constructor
  · intro hlower hzero other
    cases hnonce : nonceOf table other with
    | none => rfl
    | some nonce =>
      have hless := hlower other nonce hnonce
      omega
  · intro hunwrapped other nonce hnonce
    by_cases hzero : table.slashCounter = 0
    · cases (hunwrapped hzero other).symm.trans hnonce
    · exact hnumbered.ahead hzero other nonce hnonce

/-- A table with the same nonces is numbered when its counter is in range and ahead of them.
Assumes: the table is numbered, and the counter of the next one is in range and ahead of the nonces.
-/
theorem Numbered.of_same {table next : StakeTable} (hnumbered : Numbered table)
    (hsame : ∀ operator, nonceOf next operator = nonceOf table operator)
    (hahead : next.slashCounter ≠ 0 →
      ∀ operator nonce, nonceOf table operator = some nonce → nonce < next.slashCounter)
    (hcounter : next.slashCounter < 2 ^ 64) : Numbered next where
  nonce_lt operator nonce hnonce := hnumbered.nonce_lt operator nonce (hsame operator ▸ hnonce)
  ahead hnext operator nonce hnonce := hahead hnext operator nonce (hsame operator ▸ hnonce)
  distinct first second nonce hfirst hsecond :=
    hnumbered.distinct first second nonce (hsame first ▸ hfirst) (hsame second ▸ hsecond)
  counter_lt := hcounter

/-- A slash keeps the nonces numbered. Assumes: the nonces are numbered, and the slash is not taken
from a counter that has wrapped. -/
theorem Numbered.slash {table : StakeTable} (hnumbered : Numbered table) {offender : AccountId}
    (hunwrapped : Unwrapped table (.slash offender)) : Numbered (table.slash offender).1 := by
  have hlower : ∀ other nonce, nonceOf table other = some nonce → nonce < table.slashCounter :=
    (hnumbered.lt_slash_iff offender).mpr hunwrapped
  have hcounter := hnumbered.counter_lt
  constructor
  case nonce_lt =>
    intro operator nonce hnonce
    rw [nonceOf_slash] at hnonce
    split_ifs at hnonce
    · obtain rfl := Option.some.inj hnonce
      exact hcounter
    · exact hnumbered.nonce_lt operator nonce hnonce
  case ahead =>
    intro hnext operator nonce hnonce
    have hsuccessor : (table.slash offender).1.slashCounter = table.slashCounter + 1 := by
      by_cases hlast : table.slashCounter + 1 < 2 ^ 64
      · exact wrappingAdd_of_lt hlast
      · refine absurd ?_ hnext
        show (table.slashCounter + 1) % 2 ^ 64 = 0
        omega
    rw [hsuccessor]
    rw [nonceOf_slash] at hnonce
    split_ifs at hnonce
    · obtain rfl := Option.some.inj hnonce
      exact Nat.lt_succ_self _
    · exact Nat.lt_succ_of_lt (hlower operator nonce hnonce)
  case distinct =>
    intro first second nonce hfirst hsecond
    rw [nonceOf_slash] at hfirst hsecond
    split_ifs at hfirst with hoffender
    · split_ifs at hsecond with hother
      · exact hoffender.symm.trans hother
      · obtain rfl := Option.some.inj hfirst
        exact absurd (hlower second _ hsecond) (Nat.lt_irrefl _)
    · split_ifs at hsecond with hother
      · obtain rfl := Option.some.inj hsecond
        exact absurd (hlower first _ hfirst) (Nat.lt_irrefl _)
      · exact hnumbered.distinct first second nonce hfirst hsecond
  case counter_lt => exact Nat.mod_lt _ (Nat.two_pow_pos 64)

/-- A restart keeps the nonces numbered. Assumes: the nonces are numbered. -/
theorem Numbered.restarted {table : StakeTable} (hnumbered : Numbered table)
    (config : StakingConfig) (order : IterationOrder (AccountId × OperatorEntry)) :
    Numbered (restarted table config order) := by
  obtain ⟨highest, hcounter, hrecorded, hbounded⟩ := slashCounter_restarted table config order
  have hhighest := hbounded (2 ^ 64) (Nat.two_pow_pos 64) hnumbered.nonce_lt
  refine hnumbered.of_same (nonceOf_restarted table config order) ?_ ?_
  · intro hnext operator nonce hnonce
    have hless := hrecorded operator nonce hnonce
    rw [hcounter] at hnext ⊢
    omega
  · rw [hcounter]
    exact Nat.mod_lt _ (Nat.two_pow_pos 64)

/-- A call keeps the nonces numbered. Assumes: the nonces are numbered, and a slash is not taken
from a counter that has wrapped. -/
theorem Numbered.serve {table next : StakeTable} (hnumbered : Numbered table) {call : StakeCall}
    {reply : Unit} (hunwrapped : Unwrapped table call)
    (hserve : serve table call = some (next, reply)) : Numbered next := by
  cases call with
  | stake staker amount =>
    obtain rfl := congrArg Prod.fst (Option.some.inj hserve)
    exact hnumbered.of_same (nonceOf_stake table staker amount) hnumbered.ahead
      hnumbered.counter_lt
  | slash offender =>
    obtain rfl := congrArg Prod.fst (Option.some.inj hserve)
    exact hnumbered.slash hunwrapped
  | restart config order =>
    obtain rfl := congrArg Prod.fst (Option.some.inj hserve)
    exact hnumbered.restarted config order

/-! ### Runs -/

/-- The number of slashes of a run. -/
def slashes (history : List (StakeTable × StakeCall)) : ℕ :=
  history.countP fun entry ↦
    match entry.2 with
    | .slash _ => true
    | _ => false

/-- How far a number of slashes takes the nonces and the counter. -/
structure Counted (made : ℕ) (table : StakeTable) : Prop where
  nonce_le : ∀ operator nonce, nonceOf table operator = some nonce → nonce ≤ made
  counter_le : table.slashCounter ≤ made + 1
  unwrapped : made + 1 < 2 ^ 64 → table.slashCounter = 0 →
    ∀ operator, nonceOf table operator = none

/-- A table with the same nonces is counted when its counter is. Assumes: the table is counted, and
the counter of the next one is within the count. -/
theorem Counted.of_same {made : ℕ} {table next : StakeTable} (hcounted : Counted made table)
    (hsame : ∀ operator, nonceOf next operator = nonceOf table operator)
    (hcounter : next.slashCounter ≤ made + 1)
    (hunwrapped : made + 1 < 2 ^ 64 → next.slashCounter = 0 →
      ∀ operator, nonceOf table operator = none) : Counted made next where
  nonce_le operator nonce hnonce := hcounted.nonce_le operator nonce (hsame operator ▸ hnonce)
  counter_le := hcounter
  unwrapped hfew hzero operator := (hsame operator).trans (hunwrapped hfew hzero operator)

/-- A slash is one more. Assumes: the nonces and the counter were counted before it. -/
theorem Counted.slash {made : ℕ} {table : StakeTable} (hcounted : Counted made table)
    (offender : AccountId) : Counted (made + 1) (table.slash offender).1 := by
  have hcounter := hcounted.counter_le
  have hnext : (table.slash offender).1.slashCounter = (table.slashCounter + 1) % 2 ^ 64 := rfl
  constructor
  · intro operator nonce hnonce
    rw [nonceOf_slash] at hnonce
    split_ifs at hnonce
    · obtain rfl := Option.some.inj hnonce
      exact hcounter
    · exact (hcounted.nonce_le operator nonce hnonce).trans (Nat.le_succ made)
  · exact (Nat.mod_le _ _).trans (Nat.succ_le_succ hcounter)
  · intro hfew hzero
    rw [hnext, Nat.mod_eq_of_lt (by omega)] at hzero
    cases hzero

/-- A restart changes no number. Assumes: the nonces and the counter were counted before it. -/
theorem Counted.restarted {made : ℕ} {table : StakeTable} (hcounted : Counted made table)
    (config : StakingConfig) (order : IterationOrder (AccountId × OperatorEntry)) :
    Counted made (restarted table config order) := by
  obtain ⟨highest, hcounter, -, hbounded⟩ := slashCounter_restarted table config order
  have hhighest := hbounded (made + 1) (Nat.succ_pos made)
    fun operator nonce hnonce ↦ Nat.lt_succ_of_le (hcounted.nonce_le operator nonce hnonce)
  refine hcounted.of_same (nonceOf_restarted table config order) ?_ fun hfew hzero ↦ ?_
  · rw [hcounter]
    exact (Nat.mod_le _ _).trans hhighest
  · rw [hcounter, Nat.mod_eq_of_lt (by omega)] at hzero
    cases hzero

/-- Fewer than `2 ^ 64` slashes are never taken from a counter that has wrapped. Assumes: the run
has fewer slashes than that. -/
theorem unwrapped_of_slashes_lt {config : StakingConfig} {history : List (StakeTable × StakeCall)}
    {table : StakeTable} (hreaches : Reaches serve anyStep (StakeTable.new config) history table)
    (hslashes : slashes history < 2 ^ 64) :
    Reaches serve Unwrapped (StakeTable.new config) history table ∧
      Counted (slashes history) table := by
  induction hreaches with
  | start =>
    refine ⟨.start, fun operator nonce hnonce ↦ ?_, Nat.zero_le _, fun _ _ ↦ nonceOf_new config⟩
    cases (nonceOf_new config operator).symm.trans hnonce
  | @next history before after call reply hbefore hallowed hserve ih =>
    unfold slashes at hslashes ih ⊢
    rw [List.countP_append, List.countP_singleton] at hslashes ⊢
    obtain ⟨hunwrapped, hcounted⟩ := ih (by omega)
    cases call with
    | stake staker amount =>
      refine ⟨hunwrapped.next trivial hserve, ?_⟩
      obtain rfl := congrArg Prod.fst (Option.some.inj hserve)
      exact hcounted.of_same (nonceOf_stake before staker amount) hcounted.counter_le
        hcounted.unwrapped
    | slash offender =>
      rw [if_pos rfl] at hslashes ⊢
      refine ⟨hunwrapped.next (hcounted.unwrapped hslashes) hserve, ?_⟩
      obtain rfl := congrArg Prod.fst (Option.some.inj hserve)
      exact hcounted.slash offender
    | restart config order =>
      refine ⟨hunwrapped.next trivial hserve, ?_⟩
      obtain rfl := congrArg Prod.fst (Option.some.inj hserve)
      exact hcounted.restarted config order

/-- A slash is permanent and uniquely numbered: in every run an operator that was slashed stays out
of the eligible operators and of the total stake, and a restart keeps every entry; and as long as no
slash is taken from a counter that has wrapped, the nonces are distinct, and the next one is higher
than all that are recorded if and only if it is not taken from such a counter either. Assumes: the
run that reached the table took no slash from a counter that has wrapped. -/
theorem slash_history {config : StakingConfig} {history : List (StakeTable × StakeCall)}
    {table : StakeTable}
    (hreaches : Reaches serve Unwrapped (StakeTable.new config) history table) :
    (∀ (start : StakeTable) (operator : AccountId) (sequel : List (StakeTable × StakeCall))
        (later : StakeTable), Reaches serve anyStep (start.slash operator).1 sequel later →
          Excluded later operator) ∧
      (∀ (start : StakeTable) (config : StakingConfig)
        (order : IterationOrder (AccountId × OperatorEntry)),
          (restarted start config order).operators = start.operators) ∧
      (∀ first second nonce, nonceOf table first = some nonce →
        nonceOf table second = some nonce → first = second) ∧
      ∀ operator, (∀ other nonce, nonceOf table other = some nonce →
        nonce < (table.slash operator).2.1) ↔ Unwrapped table (.slash operator) := by
  have hnumbered : Numbered table :=
    hreaches.invariant (numbered_new config)
      fun _ _ _ _ hunwrapped hbefore hserve ↦ hbefore.serve hunwrapped hserve
  refine ⟨fun start operator sequel later hlater ↦ ?_, operators_restarted, hnumbered.distinct,
    hnumbered.lt_slash_iff⟩
  have hslashed : (start.slash operator).1.isSlashed operator = true := by
    have hnonce := nonceOf_slash start operator operator
    rw [if_pos rfl] at hnonce
    exact congrArg Option.isSome hnonce
  exact excluded_of_isSlashed (isSlashed_of_reaches hlater hslashed)

/-- Two operators are slashed before and after a restart, one of them twice; one stakes again. -/
def sampleCalls : List StakeCall :=
  [.stake ⟨1⟩ 200, .slash ⟨1⟩, .stake ⟨1⟩ 500, .restart ⟨100⟩ .backward, .slash ⟨2⟩, .slash ⟨1⟩]

/-- The nonces go on after the restart. -/
theorem slash_history_sample : ∃ (history : List (StakeTable × StakeCall)) (table : StakeTable),
    Reaches serve Unwrapped (StakeTable.new ⟨100⟩) history table ∧
      (nonceOf table ⟨1⟩, nonceOf table ⟨2⟩) = (some 2, some 1) ∧
      ∀ first second nonce, nonceOf table first = some nonce →
        nonceOf table second = some nonce → first = second := by
  have hrun : (run serve anyStep (StakeTable.new ⟨100⟩) sampleCalls).map (fun table ↦
      (nonceOf table ⟨1⟩, nonceOf table ⟨2⟩)) = some (some 2, some 1) := by decide +kernel
  obtain ⟨table, htable, hnonces⟩ := Option.map_eq_some_iff.mp hrun
  obtain ⟨history, hcalls, hreaches⟩ := reaches_of_run htable
  have hslashes : slashes history < 2 ^ 64 := by
    have hlength := congrArg List.length hcalls
    rw [List.length_map] at hlength
    have hcount : slashes history ≤ history.length := List.countP_le_length
    have hsix : sampleCalls.length = 6 := rfl
    omega
  obtain ⟨hunwrapped, -⟩ := unwrapped_of_slashes_lt hreaches hslashes
  exact ⟨history, table, hunwrapped, hnonces, (slash_history hunwrapped).2.2.1⟩

/-- One operator can be slashed any number of times. The counter shows that number modulo
`2 ^ 64`, and the nonce is the one before it. -/
theorem exists_reaches_slashes (config : StakingConfig) (operator : AccountId) (count : ℕ) :
    ∃ (history : List (StakeTable × StakeCall)) (table : StakeTable),
      Reaches serve anyStep (StakeTable.new config) history table ∧
        table.slashCounter = count % 2 ^ 64 ∧
        (0 < count → nonceOf table operator = some ((count - 1) % 2 ^ 64)) := by
  induction count with
  | zero =>
    exact ⟨[], StakeTable.new config, .start, rfl, fun hless ↦ absurd hless (Nat.lt_irrefl 0)⟩
  | succ count ih =>
    obtain ⟨history, table, hreaches, hcounter, -⟩ := ih
    refine ⟨_, (table.slash operator).1, hreaches.next trivial
      (show serve table (.slash operator) = _ from rfl), ?_, fun _ ↦ ?_⟩
    · show (table.slashCounter + 1) % 2 ^ 64 = _
      rw [hcounter, Nat.mod_add_mod]
    · rw [nonceOf_slash, if_pos rfl, hcounter]
      rfl

/-- After `2 ^ 64` slashes of one operator the next slash takes nonce zero, below the recorded one.
-/
theorem nonces_wrap : ¬ ∀ (config : StakingConfig) (history : List (StakeTable × StakeCall))
    (table : StakeTable), Reaches serve anyStep (StakeTable.new config) history table →
      ∀ operator other nonce, nonceOf table other = some nonce →
        nonce < (table.slash operator).2.1 := by
  intro hclaim
  obtain ⟨history, table, hreaches, hcounter, hnonce⟩ :=
    exists_reaches_slashes ⟨100⟩ ⟨1⟩ (2 ^ 64)
  have hless : 2 ^ 64 - 1 < (table.slash ⟨2⟩).2.1 :=
    hclaim ⟨100⟩ history table hreaches ⟨2⟩ ⟨1⟩ (2 ^ 64 - 1) (hnonce (Nat.two_pow_pos 64))
  have hzero : (table.slash ⟨2⟩).2.1 = 0 := hcounter
  rw [hzero] at hless
  exact Nat.not_lt_zero _ hless

end SlashHistory

end Fluidic.Persistence
