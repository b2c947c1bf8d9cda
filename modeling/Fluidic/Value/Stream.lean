import Fluidic.Value.Supply

/-!
# Value streams

`src/value/stream.rs`: a stream burns an escrowed value at a rate per synthesis tick. The product of
rate and elapsed ticks saturates, which never shows, because what is burned is clamped to what
remains (`snd_tick`). What a rising list of ticks burns is therefore a function of the last one
(`snd_advance`), whatever ticks were sampled before it.

The cap on the duration is read by `durationTicks` alone. `tick` goes on after it, and
`burnsByElapsedTime_iff` says when that makes no difference.
-/

set_option autoImplicit false
set_option relaxedAutoImplicit false

namespace Fluidic.Value

open Library

/-- A continuous value stream: the value in escrow, what is burned per tick and the cap on the
duration. -/
structure ValueStream where
  total : ℕ
  ratePerTick : ℕ
  maxDurationTicks : ℕ
  total_lt : total < 2 ^ 128
  ratePerTick_lt : ratePerTick < 2 ^ 128
  maxDurationTicks_lt : maxDurationTicks < 2 ^ 64

namespace ValueStream

theorem saturatingMul_lt (a b : ℕ) : saturatingMul 128 a b < 2 ^ 128 := by
  have hle : saturatingMul 128 a b ≤ 2 ^ 128 - 1 := min_le_right _ _
  omega

/-- A stream of whole WAVE. -/
def new (waveAmount ratePerSecondWave : ℕ) (maxDurationTicks : Fin (2 ^ 64)) : ValueStream where
  total := saturatingMul 128 waveAmount wavePrecision
  ratePerTick := saturatingMul 128 ratePerSecondWave wavePrecision
  maxDurationTicks := maxDurationTicks
  total_lt := saturatingMul_lt _ _
  ratePerTick_lt := saturatingMul_lt _ _
  maxDurationTicks_lt := maxDurationTicks.isLt

/-- A stream of sub-units. -/
def fromSubunits (total ratePerTick : Fin (2 ^ 128)) (maxDurationTicks : Fin (2 ^ 64)) :
    ValueStream where
  total := total
  ratePerTick := ratePerTick
  maxDurationTicks := maxDurationTicks
  total_lt := total.isLt
  ratePerTick_lt := ratePerTick.isLt
  maxDurationTicks_lt := maxDurationTicks.isLt

/-- The amount burned after a number of ticks. -/
def burnedIn (elapsedTicks ratePerTick : ℕ) : ℕ := saturatingMul 128 ratePerTick elapsedTicks

/-- The ticks that the stream lasts, at most the cap. -/
def durationTicks (stream : ValueStream) : ℕ :=
  if stream.ratePerTick = 0 then 0
  else min (stream.total / stream.ratePerTick) stream.maxDurationTicks % 2 ^ 64

/-- The reported duration respects the cap. -/
theorem durationTicks_le (stream : ValueStream) :
    stream.durationTicks ≤ stream.maxDurationTicks := by
  unfold durationTicks
  split_ifs
  · exact Nat.zero_le _
  · exact (Nat.mod_le _ _).trans (min_le_right _ _)

end ValueStream

/-- A value stream as it runs. No more remains than the escrow. -/
structure StreamState where
  stream : ValueStream
  remaining : ℕ
  lastUpdateTick : ℕ
  startTick : ℕ
  remaining_le : remaining ≤ stream.total

namespace StreamState

/-- A stream that burned nothing. -/
def new (stream : ValueStream) : StreamState := ⟨stream, stream.total, 0, 0, le_rfl⟩

/-- Advance the stream to a tick. The second component is the amount burned. -/
def tick (state : StreamState) (tick : ℕ) : StreamState × ℕ :=
  let elapsedTicks := tick - state.lastUpdateTick
  let burned := ValueStream.burnedIn elapsedTicks state.stream.ratePerTick
  let burned := min burned state.remaining
  ({ state with
      remaining := state.remaining - burned
      lastUpdateTick := tick
      remaining_le := (Nat.sub_le _ _).trans state.remaining_le }, burned)

/-- Advance the stream tick by tick. The second component is the amount burned on the way. -/
def advance : StreamState → List ℕ → StreamState × ℕ
  | state, [] => (state, 0)
  | state, tick :: ticks =>
    (((state.tick tick).1.advance ticks).1,
      (state.tick tick).2 + ((state.tick tick).1.advance ticks).2)

/-! ### What is burned -/

@[simp] theorem stream_tick (state : StreamState) (tick : ℕ) :
    (state.tick tick).1.stream = state.stream := rfl

@[simp] theorem remaining_tick (state : StreamState) (tick : ℕ) :
    (state.tick tick).1.remaining = state.remaining - (state.tick tick).2 := rfl

@[simp] theorem lastUpdateTick_tick (state : StreamState) (tick : ℕ) :
    (state.tick tick).1.lastUpdateTick = tick := rfl

/-- A tick burns for the time since the last one, as far as the escrow lasts. The product does not
have to fit. -/
theorem snd_tick (state : StreamState) (tick : ℕ) :
    (state.tick tick).2 =
      min (state.stream.ratePerTick * (tick - state.lastUpdateTick)) state.remaining := by
  have hremaining := state.remaining_le
  have htotal := state.stream.total_lt
  show min (min _ (2 ^ 128 - 1)) state.remaining = _
  rw [Nat.min_assoc, Nat.min_eq_right (show state.remaining ≤ 2 ^ 128 - 1 by omega)]

/-- A rising list of ticks burns for the time up to the last one, as far as the escrow lasts.
Assumes: no tick is before the last update, and the ticks rise. -/
theorem snd_advance {state : StreamState} {ticks : List ℕ}
    (hrises : (state.lastUpdateTick :: ticks).Pairwise (· ≤ ·)) :
    (state.advance ticks).2 =
      min (state.stream.ratePerTick *
        (ticks.getLastD state.lastUpdateTick - state.lastUpdateTick)) state.remaining := by
  induction ticks generalizing state with
  | nil =>
    rw [List.getLastD_nil, Nat.sub_self, Nat.mul_zero, Nat.zero_min]
    rfl
  | cons tick ticks ih =>
    rw [List.pairwise_cons] at hrises
    obtain ⟨hfirst, hlater⟩ := hrises
    have hrest := @ih (state.tick tick).1 hlater
    rw [stream_tick, lastUpdateTick_tick, remaining_tick, snd_tick] at hrest
    have hbefore : state.lastUpdateTick ≤ tick := hfirst tick List.mem_cons_self
    have hafter : tick ≤ ticks.getLastD tick := by
      rcases List.mem_cons.mp (@List.getLastD_mem_cons _ ticks tick) with hsame | hmem
      · exact hsame.ge
      · exact (List.pairwise_cons.mp hlater).1 _ hmem
    -- the time up to the last tick is the time up to this one and the time after it
    have hburns : state.stream.ratePerTick * (ticks.getLastD tick - state.lastUpdateTick) =
        state.stream.ratePerTick * (tick - state.lastUpdateTick) +
          state.stream.ratePerTick * (ticks.getLastD tick - tick) := by
      rw [← Nat.mul_add, Nat.add_comm, Nat.sub_add_sub_cancel hafter hbefore]
    rw [advance, hrest, snd_tick, List.getLastD_cons, hburns]
    omega

end StreamState

/-! ### The cap -/

namespace ValueStream

/-- What a stream burns over a list of ticks from its start. -/
def burnedBy (stream : ValueStream) (ticks : List ℕ) : ℕ :=
  ((StreamState.new stream).advance ticks).2

/-- What a stream burns over a rising list of ticks. Assumes: the ticks rise. -/
theorem burnedBy_eq (stream : ValueStream) {ticks : List ℕ}
    (hrises : ticks.Pairwise (· ≤ ·)) :
    stream.burnedBy ticks = min (stream.ratePerTick * ticks.getLastD 0) stream.total :=
  StreamState.snd_advance
    (List.pairwise_cons.mpr ⟨fun tick _ ↦ Nat.zero_le tick, hrises⟩ :
      ((StreamState.new stream).lastUpdateTick :: ticks).Pairwise (· ≤ ·))

/-- What a stream should burn: its rate for every tick up to the last one or to the cap, as far as
the escrow lasts, whichever ticks were sampled on the way. -/
structure BurnsByElapsedTime (stream : ValueStream) (ticks : List ℕ) : Prop where
  burned : stream.burnedBy ticks =
    min stream.total (stream.ratePerTick * min (ticks.getLastD 0) stream.maxDurationTicks)
  sampling : ∀ other : List ℕ, other.Pairwise (· ≤ ·) → other.getLastD 0 = ticks.getLastD 0 →
    stream.burnedBy other = stream.burnedBy ticks

/-- A stream burns by elapsed time if and only if the last tick is within the cap, or nothing is
burned at all, or the escrow does not outlast the cap. Assumes: the ticks rise. -/
theorem burnsByElapsedTime_iff (stream : ValueStream) {ticks : List ℕ}
    (hrises : ticks.Pairwise (· ≤ ·)) :
    stream.BurnsByElapsedTime ticks ↔
      ticks.getLastD 0 ≤ stream.maxDurationTicks ∨ stream.ratePerTick = 0 ∨
        stream.total ≤ stream.ratePerTick * stream.maxDurationTicks := by
  have hburned := stream.burnedBy_eq hrises
  constructor
  · intro hburns
    by_contra hover
    push Not at hover
    obtain ⟨hlate, hrate, hescrow⟩ := hover
    have hcapped := hburns.burned
    have hmore : stream.ratePerTick * stream.maxDurationTicks <
        stream.ratePerTick * ticks.getLastD 0 :=
      Nat.mul_lt_mul_of_pos_left hlate (Nat.pos_of_ne_zero hrate)
    rw [hburned, Nat.min_eq_right hlate.le] at hcapped
    omega
  · intro hwithin
    refine ⟨?_, fun other hother hlast ↦ ?_⟩
    · rw [hburned, Nat.min_comm]
      rcases hwithin with hearly | hidle | hescrow
      · rw [Nat.min_eq_left hearly]
      · rw [hidle, Nat.zero_mul, Nat.zero_mul]
      · obtain hearly | hlate := Nat.le_total (ticks.getLastD 0) stream.maxDurationTicks
        · rw [Nat.min_eq_left hearly]
        · have hmore := Nat.mul_le_mul_left stream.ratePerTick hlate
          rw [Nat.min_eq_right hlate, Nat.min_eq_left hescrow,
            Nat.min_eq_left (hescrow.trans hmore)]
    · rw [stream.burnedBy_eq hother, hlast, hburned]

/-- Ten sub-units that burn one by one, for at most two ticks. -/
def shortStream : ValueStream := fromSubunits 10 1 2

/-- Two ticks, with one in between, burn two sub-units. -/
theorem burnsByElapsedTime_iff_shortStream :
    [1, 2].Pairwise (· ≤ ·) ∧ shortStream.BurnsByElapsedTime [1, 2] ∧
      shortStream.burnedBy [1, 2] = 2 := by
  have hrises : [1, 2].Pairwise (· ≤ ·) := by decide
  exact ⟨hrises, (burnsByElapsedTime_iff shortStream hrises).mpr (.inl (by decide)), by decide⟩

/-- After five ticks five sub-units are gone. -/
theorem capped_stream_burns_on : ¬ ∀ (stream : ValueStream) (ticks : List ℕ),
    (∀ tick ∈ ticks, tick < 2 ^ 64) → ticks.Pairwise (· ≤ ·) →
      stream.BurnsByElapsedTime ticks := by
  intro hclaim
  have hburned := (hclaim shortStream [5] (by decide) (by decide)).burned
  revert hburned
  decide

end ValueStream

end Fluidic.Value
