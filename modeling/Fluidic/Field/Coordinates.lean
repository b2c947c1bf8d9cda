import Fluidic.Crypto.Keys

/-!
# Coordinates of the wave-field

`src/field/coordinates.rs`. A coordinate is four frequency indices. `toBytes` is the byte string
that signatures and roots cover, and `toNttIndex` the bin of the transform that a delta at the
coordinate is added to. The frequency vector that the source attaches to an account is never read
or written by the node and is left out.
-/

set_option autoImplicit false
set_option relaxedAutoImplicit false

namespace Fluidic.Field

open Library

/-- The number of components of a coordinate. -/
def coordDim : ℕ := 4

/-- A coordinate of the wave-field: a frequency index in each dimension. -/
structure Coordinate where
  components : Vector ℕ coordDim
  deriving DecidableEq

namespace Coordinate

/-- The coordinate with one nonzero component. -/
def fromScalar (scalar : ℕ) : Coordinate :=
  ⟨#v[scalar, 0, 0, 0]⟩

/-- The components, eight little-endian bytes each. -/
def toBytes (coordinate : Coordinate) : List UInt8 :=
  coordinate.components.toList.flatMap (leBytes 8)

@[simp] theorem length_toBytes (coordinate : Coordinate) : coordinate.toBytes.length = 32 := by
  have hcomponents : coordinate.components.toList.length = 4 := Vector.length_toList
  unfold toBytes
  rw [length_flatMap_of_length (length_leBytes 8), hcomponents]

/-- A coordinate within the range of its machine integers is determined by its bytes. Assumes: the
components of both are 64-bit numbers, and the bytes are the same. -/
theorem toBytes_inj {first second : Coordinate}
    (hfirst : ∀ component ∈ first.components.toList, component < 2 ^ 64)
    (hsecond : ∀ component ∈ second.components.toList, component < 2 ^ 64)
    (hbytes : first.toBytes = second.toBytes) : first = second := by
  have hlist := flatMap_inj (by decide) (length_leBytes 8)
    (fun a ha b hb ↦ leBytes_inj (hfirst a ha) (hsecond b hb)) hbytes
  obtain ⟨components⟩ := first
  exact congrArg Coordinate.mk (Vector.toList_inj.mp hlist)

/-- The bin of a transform of the given size: a weighted sum of the components modulo `2 ^ 64`,
reduced to the size. -/
def toNttIndex (coordinate : Coordinate) (size : ℕ) : ℕ :=
  (coordinate.components.toList.zipIdx.foldl
    (fun acc entry ↦ wrappingAdd 64 acc (entry.1 * wrappingAdd 64 2654435761 entry.2 % 2 ^ 64))
    0) % size

end Coordinate

end Fluidic.Field
