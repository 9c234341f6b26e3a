import Mathlib.Logic.Function.Basic

/-!
# Reading a cyclic buffer

A memory is a function from addresses to values. The buffer occupies the addresses below its
capacity; a window of it starts anywhere and runs on at address zero once it reaches the end.
-/

namespace CyclicBuffer

variable {α : Type*}

/-- `n` consecutive slots from `start`. -/
def straight (mem : Nat → α) (start n : Nat) : List α :=
  (List.range n).map fun i => mem (start + i)

/-- `n` slots from `start`, read cyclically in a buffer of `capacity` slots. -/
def window (mem : Nat → α) (capacity start n : Nat) : List α :=
  (List.range n).map fun i => mem ((start + i) % capacity)

@[simp]
theorem straight_length (mem : Nat → α) (start n : Nat) :
    (straight mem start n).length = n := by simp [straight]

@[simp]
theorem window_length (mem : Nat → α) (capacity start n : Nat) :
    (window mem capacity start n).length = n := by simp [window]

theorem straight_getElem (mem : Nat → α) (start n i : Nat) (h : i < n) :
    (straight mem start n)[i]? = some (mem (start + i)) := by
  simp [straight, h]

theorem straight_update (mem : Nat → α) (start n : Nat) (v : α) :
    straight (Function.update mem (start + n) v) start (n + 1) = straight mem start n ++ [v] := by
  have hsame : (List.range n).map (fun i => Function.update mem (start + n) v (start + i)) =
      (List.range n).map fun i => mem (start + i) := by
    apply List.map_congr_left
    intro i hi
    have hlt := List.mem_range.mp hi
    rw [Function.update_of_ne (by omega)]
  rw [straight, straight, List.range_succ, List.map_append, hsame, List.map_singleton,
    Function.update_self]

theorem window_add (mem : Nat → α) (capacity start m n : Nat) :
    window mem capacity start (m + n) =
      window mem capacity start m ++ window mem capacity (start + m) n := by
  simp only [window, List.range_add, List.map_append, List.map_map, Function.comp_def,
    Nat.add_assoc]

theorem window_mod (mem : Nat → α) (capacity start n : Nat) :
    window mem capacity (start % capacity) n = window mem capacity start n := by
  simp only [window, Nat.mod_add_mod]

theorem window_eq_straight (mem : Nat → α) (capacity start n : Nat)
    (h : start + n ≤ capacity) : window mem capacity start n = straight mem start n := by
  apply List.map_congr_left
  intro i hi
  have hi' : i < n := List.mem_range.mp hi
  rw [Nat.mod_eq_of_lt (by omega)]

theorem window_congr (mem mem' : Nat → α) (capacity start n : Nat)
    (h : ∀ i, i < n → mem' ((start + i) % capacity) = mem ((start + i) % capacity)) :
    window mem' capacity start n = window mem capacity start n := by
  apply List.map_congr_left
  intro i hi
  exact h i (List.mem_range.mp hi)

theorem window_update (mem : Nat → α) (capacity start n a : Nat) (v : α)
    (h : ∀ i, i < n → (start + i) % capacity ≠ a) :
    window (Function.update mem a v) capacity start n = window mem capacity start n := by
  apply window_congr
  intro i hi
  exact Function.update_of_ne (h i hi) v mem

theorem slot_ne {capacity p q : Nat} (h : p < q) (h' : q < p + capacity) :
    p % capacity ≠ q % capacity := by
  intro heq
  have hc : 0 < capacity := by omega
  have hp := Nat.div_add_mod p capacity
  have hq := Nat.div_add_mod q capacity
  have hle : p / capacity ≤ q / capacity := Nat.div_le_div_right (by omega)
  rcases Nat.lt_or_ge (p / capacity) (q / capacity) with hlt | hge
  · have : capacity * (p / capacity + 1) ≤ capacity * (q / capacity) :=
      Nat.mul_le_mul_left capacity hlt
    rw [Nat.mul_add] at this
    omega
  · have : p / capacity = q / capacity := by omega
    rw [this] at hp
    omega

end CyclicBuffer
