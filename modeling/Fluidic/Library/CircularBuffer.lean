import Mathlib.Data.Nat.ModEq
import Mathlib.Data.List.Basic

/-!
# A circular buffer

Positions in a vector of a fixed capacity are taken modulo the capacity. `store` writes a list from
a position on, and `window` reads a number of elements from a position on. What was stored is read
back (`window_store`), and a store leaves a window that it does not reach as it was
(`window_store_of_le`).
-/

set_option autoImplicit false
set_option relaxedAutoImplicit false

namespace Fluidic.Library.Circular

variable {α : Type} {capacity : ℕ}

variable [NeZero capacity]

/-- The index of a position. -/
def index (position : ℕ) : Fin capacity :=
  ⟨position % capacity, Nat.mod_lt position (Nat.pos_of_neZero capacity)⟩

/-- Two offsets that are less than the capacity apart have different indices. Assumes: the first is
less than the second, by less than the capacity. -/
theorem index_ne {position first second : ℕ} (hless : first < second)
    (hnear : second - first < capacity) :
    (index (position + first) : Fin capacity) ≠ index (position + second) := by
  intro hsame
  have hmod : first ≡ second [MOD capacity] :=
    Nat.ModEq.add_left_cancel' position (Fin.val_eq_of_eq hsame)
  have hdvd := (Nat.modEq_iff_dvd' hless.le).mp hmod
  have hle := Nat.le_of_dvd (by omega) hdvd
  omega

/-- Writes a list from a position on. -/
def store (cells : Vector α capacity) (position : ℕ) : List α → Vector α capacity
  | [] => cells
  | value :: values =>
    store (cells.set (index position : Fin capacity) value) (position + 1) values

/-- Reads a number of elements from a position on. -/
def window (cells : Vector α capacity) (position count : ℕ) : List α :=
  (List.range count).map fun offset ↦ cells.get (index (position + offset))

@[simp] theorem length_window (cells : Vector α capacity) (position count : ℕ) :
    (window cells position count).length = count := by
  unfold window
  rw [List.length_map, List.length_range]

/-- A window is one window after another. -/
theorem window_add (cells : Vector α capacity) (position first second : ℕ) :
    window cells position (first + second) =
      window cells position first ++ window cells (position + first) second := by
  unfold window
  rw [List.range_add, List.map_append, List.map_map]
  congr 1
  apply List.map_congr_left
  intro offset _
  show cells.get (index (position + (first + offset))) = _
  rw [Nat.add_assoc]

/-- The same window is read from two positions. Assumes: the two positions have the same index. -/
theorem window_congr (cells : Vector α capacity) {first second : ℕ} (count : ℕ)
    (hsame : first % capacity = second % capacity) :
    window cells first count = window cells second count := by
  apply List.map_congr_left
  intro offset _
  have hindex : (index (first + offset) : Fin capacity) = index (second + offset) :=
    Fin.ext (Nat.ModEq.add_right offset hsame)
  rw [hindex]

/-- A window is read from its front. Assumes: as much as is read is in the window. -/
theorem window_take (cells : Vector α capacity) (position : ℕ) {part count : ℕ}
    (hpart : part ≤ count) :
    (window cells position count).take part = window cells position part := by
  obtain ⟨rest, rfl⟩ := Nat.exists_eq_add_of_le hpart
  rw [window_add, List.take_left' (length_window _ _ _)]

/-- A window without its front starts later. Assumes: as much as is dropped is in the window. -/
theorem window_drop (cells : Vector α capacity) (position : ℕ) {part count : ℕ}
    (hpart : part ≤ count) :
    (window cells position count).drop part = window cells (position + part) (count - part) := by
  obtain ⟨rest, rfl⟩ := Nat.exists_eq_add_of_le hpart
  rw [window_add, List.drop_left' (length_window _ _ _), Nat.add_sub_cancel_left]

/-- A list is stored in the same cells from two positions. Assumes: the two positions have the same
index. -/
theorem store_congr (cells : Vector α capacity) {first second : ℕ} (values : List α)
    (hsame : first % capacity = second % capacity) :
    store cells first values = store cells second values := by
  induction values generalizing cells first second with
  | nil => rfl
  | cons value values ih =>
    have hindex : (index first : Fin capacity) = index second := Fin.ext hsame
    have hcells : cells.set (index first : Fin capacity) value =
        cells.set (index second : Fin capacity) value := by simp only [hindex]
    rw [store, store, hcells]
    exact ih _ (Nat.ModEq.add_right 1 hsame)

/-- A store leaves the positions that it does not reach. Assumes: none of the stored positions is
the position. -/
theorem get_store_of_ne {cells : Vector α capacity} {position : ℕ} {values : List α}
    {other : Fin capacity}
    (hother : ∀ offset < values.length, (index (position + offset) : Fin capacity) ≠ other) :
    (store cells position values).get other = cells.get other := by
  induction values generalizing cells position with
  | nil => rfl
  | cons value values ih =>
    have hhead := hother 0 (by simp)
    have htail : ∀ offset < values.length,
        (index (position + 1 + offset) : Fin capacity) ≠ other := by
      intro offset hoffset
      rw [Nat.add_assoc, Nat.add_comm 1]
      apply hother
      rw [List.length_cons]
      omega
    rw [store, ih htail]
    exact Vector.getElem_set_ne _ _ fun hsame ↦ hhead (Fin.ext hsame)

/-- A store leaves a window that it does not reach. Assumes: the window ends where the store begins,
and window and stored list fit the capacity together. -/
theorem window_store_of_le {cells : Vector α capacity} {position count : ℕ} {values : List α}
    (hfits : count + values.length ≤ capacity) :
    window (store cells (position + count) values) position count =
      window cells position count := by
  apply List.map_congr_left
  intro offset hoffset
  have hless := List.mem_range.mp hoffset
  apply get_store_of_ne
  intro stored hstored hsame
  rw [Nat.add_assoc] at hsame
  exact index_ne (by omega) (by omega) hsame.symm

/-- What was stored is read back. Assumes: the list fits the capacity. -/
theorem window_store {cells : Vector α capacity} {position : ℕ} {values : List α}
    (hfits : values.length ≤ capacity) :
    window (store cells position values) position values.length = values := by
  induction values generalizing cells position with
  | nil => rfl
  | cons value values ih =>
    rw [List.length_cons] at hfits
    have hhead : (store cells position (value :: values)).get (index position) = value := by
      rw [store, get_store_of_ne]
      · exact Vector.getElem_set_self _
      · intro offset hoffset
        rw [Nat.add_assoc]
        exact (@index_ne _ _ position 0 (1 + offset) (by omega) (by omega)).symm
    have htail := @ih (cells.set (index position : Fin capacity) value) (position + 1) (by omega)
    have hone : window (store cells position (value :: values)) position 1 = [value] :=
      congrArg ([·]) hhead
    rw [List.length_cons, Nat.add_comm, window_add, hone]
    exact congrArg ([value] ++ ·) htail

end Fluidic.Library.Circular
