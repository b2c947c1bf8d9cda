import Fluidic.Crypto.Keys
import Fluidic.Library.LabelledRun
import Fluidic.Value.Metabolic

/-!
# Metabolic streams

The streams of `src/value/metabolic.rs` and the engine that owns them. A stream is placed on the
decay curve of its initial balance. The curve rises where its powers saturate, and ticks may go
back, so that `process` takes the smaller of the curve and of what remained before. One call
therefore burns exactly what it takes away (`MetabolicStream.remaining_process`), and over a run the
burns telescope whatever the curve does (`decay_conserves`).
-/

set_option autoImplicit false
set_option relaxedAutoImplicit false

namespace Fluidic.Value

open Library Crypto
open Std (ExtTreeMap LawfulEqCmp)

/-- 32-byte identifier of a metabolic stream. -/
abbrev StreamId := Bytes32

/-- A value stream whose balance decays over synthesis ticks. -/
structure MetabolicStream where
  id : StreamId
  owner : AccountId
  initialBalance : ℕ
  createdTick : ℕ
  ratePpm : ℕ
  remaining : ℕ
  lastUpdateTick : ℕ
  deriving DecidableEq

namespace MetabolicStream

/-- A stream that starts at a tick. The decay constant is capped below the denominator. -/
def newAt (id : StreamId) (owner : AccountId) (initialBalance ratePpm createdTick : ℕ) :
    MetabolicStream where
  id := id
  owner := owner
  initialBalance := initialBalance
  createdTick := createdTick
  ratePpm := min ratePpm (decayDenominator - 1)
  remaining := initialBalance
  lastUpdateTick := createdTick

/-- A stream that starts at tick zero. -/
def new (id : StreamId) (owner : AccountId) (initialBalance ratePpm : ℕ) : MetabolicStream :=
  newAt id owner initialBalance ratePpm 0

/-- The balance that the decay curve leaves at a tick. -/
def remainingAt (stream : MetabolicStream) (tick : ℕ) : ℕ :=
  decayedBalance stream.initialBalance stream.ratePpm (tick - stream.createdTick)

/-- Advance the stream to a tick. Also returns what was burned and whether nothing remains. -/
def process (stream : MetabolicStream) (tick : ℕ) : MetabolicStream × ℕ × Bool :=
  let newRemaining := min (stream.remainingAt tick) stream.remaining
  let burned := stream.remaining - newRemaining
  ({ stream with remaining := newRemaining, lastUpdateTick := tick }, burned, newRemaining == 0)

/-- A stream never gains. -/
theorem remaining_process_le (stream : MetabolicStream) (tick : ℕ) :
    (stream.process tick).1.remaining ≤ stream.remaining :=
  min_le_right _ _

/-- A stream loses what its processing reports as burned. -/
theorem remaining_process (stream : MetabolicStream) (tick : ℕ) :
    (stream.process tick).1.remaining + (stream.process tick).2.1 = stream.remaining :=
  Nat.add_sub_cancel' (stream.remaining_process_le tick)

/-- A stream is exhausted when nothing remains of it. -/
theorem exhausted_process (stream : MetabolicStream) (tick : ℕ) :
    (stream.process tick).2.2 = true ↔ (stream.process tick).1.remaining = 0 :=
  beq_iff_eq

end MetabolicStream

/-! ### The engine -/

/-- The decay engine with the streams that it owns. -/
structure MetabolicStreamEngine extends MetabolicDecayEngine where
  streams : ExtTreeMap StreamId MetabolicStream

namespace MetabolicStreamEngine

/-- No streams, and nothing burned. -/
def new : MetabolicStreamEngine where
  toMetabolicDecayEngine := MetabolicDecayEngine.new
  streams := ∅

/-- Add a stream, in the place of one with the same identifier. -/
def addStream (engine : MetabolicStreamEngine) (stream : MetabolicStream) :
    MetabolicStreamEngine :=
  { engine with streams := engine.streams.insert stream.id stream }

/-- A stream after a tick, unless it is exhausted. -/
def retained (tick : ℕ) (stream : MetabolicStream) : Option MetabolicStream :=
  if (stream.process tick).2.2 then none else some (stream.process tick).1

/-- Process every active stream once and remove the exhausted ones. The second component is what
the tick burned. -/
def processMetabolicDegradation (engine : MetabolicStreamEngine)
    (order : IterationOrder (StreamId × MetabolicStream)) (tick : ℕ) :
    MetabolicStreamEngine × ℕ :=
  let tickBurn := ((order.visit engine.streams.toList).map fun entry ↦
    (entry.2.process tick).2.1).foldl (saturatingAdd 128) 0
  ({ toMetabolicDecayEngine := engine.recordBurn tickBurn
     streams := engine.streams.filterMap fun _ stream ↦ retained tick stream }, tickBurn)

/-- What remains in all active streams together. -/
def remaining (engine : MetabolicStreamEngine) : ℕ :=
  sumBy (fun _ stream ↦ stream.remaining) engine.streams

/-! ### One call -/

/-- A call of the engine: a new stream, or a tick with the order in which it visits the streams. -/
inductive Call where
  | addStream (id : StreamId) (owner : AccountId) (initialBalance ratePpm createdTick : ℕ)
  | process (order : IterationOrder (StreamId × MetabolicStream)) (tick : ℕ)

/-- The engine after a call, with what the call burned. -/
def step (engine : MetabolicStreamEngine) : Call → Option (MetabolicStreamEngine × ℕ)
  | .addStream id owner initialBalance ratePpm createdTick =>
    some (engine.addStream
      (MetabolicStream.newAt id owner initialBalance ratePpm createdTick), 0)
  | .process order tick => some (engine.processMetabolicDegradation order tick)

/-- A stream is added under an identifier that is not active. -/
def Fresh (engine : MetabolicStreamEngine) : Call → Prop
  | .addStream id _ _ _ _ => id ∉ engine.streams
  | .process _ _ => True

instance : DecidableRel Fresh := fun engine call ↦
  match call with
  | .addStream id _ _ _ _ => inferInstanceAs (Decidable (id ∉ engine.streams))
  | .process _ _ => isTrue trivial

/-- The initial balance of the stream that a call adds. -/
def added : Call → ℕ
  | .addStream _ _ initialBalance _ _ => initialBalance
  | .process _ _ => 0

/-- The initial balances of all streams that were ever added. -/
def totalAdded (history : List (MetabolicStreamEngine × Call)) : ℕ :=
  (history.map fun entry ↦ added entry.2).sum

/-- The streams after a tick are those of which something remains. -/
theorem getElem?_processMetabolicDegradation (engine : MetabolicStreamEngine)
    (order : IterationOrder (StreamId × MetabolicStream)) (tick : ℕ) (id : StreamId)
    (next : MetabolicStream) :
    (engine.processMetabolicDegradation order tick).1.streams[id]? = some next ↔
      ∃ stream, engine.streams[id]? = some stream ∧ (stream.process tick).1 = next ∧
        0 < next.remaining := by
  show (engine.streams.filterMap _)[id]? = _ ↔ _
  rw [ExtTreeMap.getElem?_filterMap', Option.bind_eq_some_iff]
  refine exists_congr fun stream ↦ and_congr_right fun _ ↦ ?_
  unfold retained
  split_ifs with hexhausted
  · rw [MetabolicStream.exhausted_process] at hexhausted
    refine ⟨fun hnone ↦ (nomatch hnone), ?_⟩
    rintro ⟨rfl, hpositive⟩
    omega
  · rw [MetabolicStream.exhausted_process] at hexhausted
    rw [Option.some.injEq]
    refine ⟨?_, And.left⟩
    rintro rfl
    exact ⟨rfl, Nat.pos_of_ne_zero hexhausted⟩

/-- A tick burns what the streams lose, also those that it removes. Assumes: what remains before it
is a `u128` value. -/
theorem remaining_processMetabolicDegradation {engine : MetabolicStreamEngine}
    (order : IterationOrder (StreamId × MetabolicStream)) (tick : ℕ)
    (hfits : engine.remaining < 2 ^ 128) :
    (engine.processMetabolicDegradation order tick).1.remaining +
      (engine.processMetabolicDegradation order tick).2 = engine.remaining := by
  have hkept : (engine.processMetabolicDegradation order tick).1.remaining =
      sumBy (fun _ stream ↦ (stream.process tick).1.remaining) engine.streams := by
    refine (sumBy_filterMap _ _ _).trans (sumBy_congr fun _ stream _ ↦ ?_)
    unfold retained
    split_ifs with hexhausted
    · exact ((stream.exhausted_process tick).mp hexhausted).symm
    · rfl
  have hburns : ((order.visit engine.streams.toList).map fun entry ↦
      (entry.2.process tick).2.1).sum =
        sumBy (fun _ stream ↦ (stream.process tick).2.1) engine.streams :=
    ((order.visit_perm engine.streams.toList).map _).sum_eq
  have hsplit : sumBy (fun _ stream ↦ (stream.process tick).1.remaining) engine.streams +
      sumBy (fun _ stream ↦ (stream.process tick).2.1) engine.streams = engine.remaining := by
    rw [sumBy_add]
    exact sumBy_congr fun _ stream _ ↦ stream.remaining_process tick
  have htick : (engine.processMetabolicDegradation order tick).2 =
      sumBy (fun _ stream ↦ (stream.process tick).2.1) engine.streams := by
    refine (foldl_saturatingAdd 128 _ (Nat.two_pow_pos 128)).trans ?_
    rw [hburns]
    omega
  rw [hkept, htick, hsplit]

/-- A new stream adds its balance to what remains. Assumes: the identifier of the stream is not
active. -/
theorem remaining_addStream {engine : MetabolicStreamEngine} {stream : MetabolicStream}
    (hfresh : stream.id ∉ engine.streams) :
    (engine.addStream stream).remaining = engine.remaining + stream.remaining := by
  have hinsert := sumBy_insert (fun _ (stream : MetabolicStream) ↦ stream.remaining)
    engine.streams stream.id stream
  rw [ExtTreeMap.getElem?_eq_none hfresh] at hinsert
  exact hinsert

/-- A call leaves no active stream with more than it had. Assumes: a new stream has a fresh
identifier. -/
theorem remaining_le_of_step {engine next : MetabolicStreamEngine} {call : Call} {burned : ℕ}
    (hfresh : Fresh engine call) (hstep : step engine call = some (next, burned)) {id : StreamId}
    {before after : MetabolicStream} (hbefore : engine.streams[id]? = some before)
    (hafter : next.streams[id]? = some after) : after.remaining ≤ before.remaining := by
  cases call with
  | addStream new owner initialBalance ratePpm createdTick =>
    obtain ⟨rfl, -⟩ := Prod.mk.inj (Option.some.inj hstep)
    have hother : new ≠ id := by
      rintro rfl
      exact hfresh (mem_iff_exists_getElem?.mpr ⟨before, hbefore⟩)
    have hkept : (engine.addStream (MetabolicStream.newAt new owner initialBalance ratePpm
        createdTick)).streams[id]? = engine.streams[id]? := getElem?_insert_of_ne _ hother _
    rw [hkept, hbefore] at hafter
    exact le_of_eq (congrArg MetabolicStream.remaining (Option.some.inj hafter)).symm
  | process order tick =>
    obtain rfl := congrArg Prod.fst (Option.some.inj hstep)
    obtain ⟨stream, hstream, rfl, -⟩ :=
      (getElem?_processMetabolicDegradation engine order tick id after).mp hafter
    obtain rfl := Option.some.inj (hbefore.symm.trans hstream)
    exact before.remaining_process_le tick

/-- A call that burns adds to the total what the streams lose; a new stream adds its balance to what
remains. Assumes: a new stream has a fresh identifier, and all balances fit together. -/
theorem total_step {engine next : MetabolicStreamEngine} {call : Call} {burned : ℕ}
    (hfresh : Fresh engine call) (hstep : step engine call = some (next, burned))
    (hfits : engine.remaining + engine.totalBurned < 2 ^ 128) :
    next.remaining + next.totalBurned = engine.remaining + engine.totalBurned + added call := by
  cases call with
  | addStream id owner initialBalance ratePpm createdTick =>
    obtain ⟨rfl, -⟩ := Prod.mk.inj (Option.some.inj hstep)
    have hadd := @remaining_addStream engine
      (MetabolicStream.newAt id owner initialBalance ratePpm createdTick) hfresh
    rw [hadd]
    exact Nat.add_right_comm _ _ _
  | process order tick =>
    obtain rfl := congrArg Prod.fst (Option.some.inj hstep)
    have hloss := @remaining_processMetabolicDegradation engine order tick (by omega)
    have htotal : (engine.processMetabolicDegradation order tick).1.totalBurned =
        engine.totalBurned + (engine.processMetabolicDegradation order tick).2 :=
      wrappingAdd_of_lt (show _ + (engine.processMetabolicDegradation order tick).2 < _ by omega)
    show _ = _ + 0
    omega

/-! ### Runs -/

/-- What was added is what remains and what was burned. Assumes: the engine was reached by a run
that adds streams under fresh identifiers, and the balances of all of them fit together. -/
theorem total_of_reaches {history : List (MetabolicStreamEngine × Call)}
    {engine : MetabolicStreamEngine} (hreaches : Reaches step Fresh new history engine)
    (hadded : totalAdded history < 2 ^ 128) :
    engine.remaining + engine.totalBurned = totalAdded history := by
  induction hreaches with
  | start => rfl
  | next hbefore hfresh hstep ih =>
    unfold totalAdded at hadded ih ⊢
    rw [List.map_append, List.sum_append, List.map_singleton, List.sum_singleton] at hadded ⊢
    have htotal := ih (by omega)
    rw [total_step hfresh hstep (by omega), htotal]

/-- In every run the decay of streams conserves value: what was added is what remains in the active
streams and what was burned; no call leaves a stream with more than it had; and after a tick the
active streams are those of which something remains. Assumes: streams are added under fresh
identifiers, and the balances of all of them fit together. -/
theorem decay_conserves {history : List (MetabolicStreamEngine × Call)}
    {engine : MetabolicStreamEngine} (hreaches : Reaches step Fresh new history engine)
    (hadded : totalAdded history < 2 ^ 128) :
    totalAdded history = engine.remaining + engine.totalBurned ∧
      (∀ call next burned, Fresh engine call → step engine call = some (next, burned) →
        ∀ (id : StreamId) before after, engine.streams[id]? = some before →
          next.streams[id]? = some after → after.remaining ≤ before.remaining) ∧
      ∀ order tick (id : StreamId) after,
        (engine.processMetabolicDegradation order tick).1.streams[id]? = some after ↔
          ∃ stream, engine.streams[id]? = some stream ∧ (stream.process tick).1 = after ∧
            0 < after.remaining :=
  ⟨(total_of_reaches hreaches hadded).symm,
    fun _ _ _ hfresh hstep _ _ _ hbefore hafter ↦
      remaining_le_of_step hfresh hstep hbefore hafter,
    fun order tick id after ↦ engine.getElem?_processMetabolicDegradation order tick id after⟩

/-- Two streams at half per tick, the second of a single unit, and ticks that go back. -/
def sampleCalls : List Call :=
  [.addStream 1 ⟨1⟩ 1000 500000 0, .addStream 2 ⟨2⟩ 1 500000 0, .process .forward 2,
    .process .backward 1, .process .forward 3]

/-- A quarter of the first stream remains after two ticks, and an eighth after three; the second one
is removed. -/
theorem decay_conserves_sample : ∃ (history : List (MetabolicStreamEngine × Call))
    (engine : MetabolicStreamEngine), Reaches step Fresh new history engine ∧
      totalAdded history = 1001 ∧ engine.remaining = 125 ∧ engine.totalBurned = 876 ∧
      totalAdded history = engine.remaining + engine.totalBurned := by
  have hrun : (run step Fresh new sampleCalls).map (fun engine ↦
      (engine.remaining, engine.totalBurned)) = some (125, 876) := by decide +kernel
  obtain ⟨engine, hengine, hvalues⟩ := Option.map_eq_some_iff.mp hrun
  obtain ⟨history, hcalls, hreaches⟩ := reaches_of_run hengine
  have hadded : totalAdded history = 1001 := by
    have hmap : (history.map fun entry ↦ added entry.2) = (history.map Prod.snd).map added := by
      rw [List.map_map]
      rfl
    rw [totalAdded, hmap, hcalls]
    rfl
  obtain ⟨hremaining, hburned⟩ := Prod.mk.inj hvalues
  exact ⟨history, engine, hreaches, hadded, hremaining, hburned,
    (decay_conserves hreaches (by rw [hadded]; decide)).1⟩

end MetabolicStreamEngine

end Fluidic.Value
