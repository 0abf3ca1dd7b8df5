/-
# Integers modulo a size, in a window

Machine integers of a width are the residues of a power of two; unsigned and
signed ones are two windows of as many integers each. Wrapping an integer into
a window keeps its residue (`Window.wrap_modEq`), and sums may be wrapped at
any stage.

The residues from one to another are an arc of the window. So a bound on a sum
is an arc of the summand, turned by the other one, wherever the sum wraps
around (`Window.wrap_mem_arc`).

Key definitions: `Window`, `Window.wrap`.
Key theorems: `Window.eq_of_modEq`, `Window.mem_arc_iff`, `Window.wrap_mem_arc`,
`Window.wrap_mem_arc_ne`.
-/
import Mathlib.Data.Int.ModEq
import Mathlib.Tactic.Ring
import Apisan.Lib.Intervals

open Intervals

/-- As many integers in a row as there are residues. -/
structure Window where
  low : ℤ
  size : ℤ
  size_pos : 0 < size

namespace Window

instance : Membership ℤ Window := ⟨fun W z => W.low ≤ z ∧ z < W.low + W.size⟩

variable {V W : Window} {a b x y : ℤ}

theorem mem_iff : x ∈ W ↔ W.low ≤ x ∧ x < W.low + W.size := Iff.rfl

instance (W : Window) : DecidablePred (· ∈ W) := fun _ => inferInstanceAs (Decidable (_ ∧ _))

/-- The integer of the window with the residue. -/
def wrap (W : Window) (z : ℤ) : ℤ := W.low + (z - W.low) % W.size

theorem wrap_mem (W : Window) (z : ℤ) : W.wrap z ∈ W := by
  have h1 := Int.emod_nonneg (z - W.low) W.size_pos.ne'
  have h2 := Int.emod_lt_of_pos (z - W.low) W.size_pos
  rw [mem_iff, wrap]
  omega

theorem wrap_modEq (W : Window) (z : ℤ) : W.wrap z ≡ z [ZMOD W.size] := by
  have h : W.low + (z - W.low) % W.size ≡ W.low + (z - W.low) [ZMOD W.size] :=
    Int.ModEq.add_left _ (Int.mod_modEq _ _)
  rwa [add_sub_cancel] at h

theorem wrap_of_mem (h : x ∈ W) : W.wrap x = x := by
  rw [mem_iff] at h
  rw [wrap, Int.emod_eq_of_lt (by omega) (by omega)]
  omega

/-- **A residue has one integer in the window.** -/
theorem eq_of_modEq (hx : x ∈ W) (hy : y ∈ W) (h : x ≡ y [ZMOD W.size]) : x = y := by
  have hsub : x - W.low ≡ y - W.low [ZMOD W.size] := h.sub_right _
  rw [← wrap_of_mem hx, ← wrap_of_mem hy, wrap, wrap, hsub]

theorem wrap_eq_iff : W.wrap x = W.wrap y ↔ x ≡ y [ZMOD W.size] := by
  constructor
  · intro h
    exact (W.wrap_modEq x).symm.trans (h ▸ W.wrap_modEq y)
  · intro h
    exact eq_of_modEq (W.wrap_mem x) (W.wrap_mem y) ((W.wrap_modEq x).trans (h.trans (W.wrap_modEq y).symm))

theorem eq_wrap_iff (hx : x ∈ W) : x = W.wrap y ↔ x ≡ y [ZMOD W.size] := by
  rw [← wrap_eq_iff, wrap_of_mem hx]

/-- Wrapping into a window of the same size first changes nothing. -/
theorem wrap_wrap (h : V.size = W.size) (z : ℤ) : V.wrap (W.wrap z) = V.wrap z :=
  wrap_eq_iff.mpr (h ▸ W.wrap_modEq z)

theorem wrap_add (W : Window) (x y : ℤ) : W.wrap (W.wrap x + y) = W.wrap (x + y) :=
  wrap_eq_iff.mpr ((W.wrap_modEq x).add_right y)

/-- How far it is up to an integer of the window, around its end. -/
theorem sub_emod_cases (ha : a ∈ W) (hx : x ∈ W) :
    (x - a) % W.size = if a ≤ x then x - a else x - a + W.size := by
  rw [mem_iff] at ha hx
  by_cases h : a ≤ x
  · rw [if_pos h, Int.emod_eq_of_lt (by omega) (by omega)]
  · rw [if_neg h, ← Int.add_emod_right, Int.emod_eq_of_lt (by omega) (by omega)]

/-- **An arc** has the integers that are no farther than its end. -/
theorem mem_arc_iff (ha : a ∈ W) (hb : b ∈ W) (hx : x ∈ W) :
    x ∈ arc a b ↔ (x - a) % W.size ≤ (b - a) % W.size := by
  rw [sub_emod_cases ha hx, sub_emod_cases ha hb]
  rw [mem_iff] at ha hb hx
  by_cases hab : a ≤ b
  · rw [mem_arc_of_le hab, if_pos hab]
    split_ifs <;> omega
  · rw [mem_arc_of_lt (not_le.mp hab), if_neg hab]
    split_ifs <;> omega

/-- An arc of wrapped integers is one of residues. -/
theorem wrap_mem_arc_wrap (W : Window) (x a b : ℤ) :
    W.wrap x ∈ arc (W.wrap a) (W.wrap b) ↔ (x - a) % W.size ≤ (b - a) % W.size := by
  have hsub : ∀ y, (W.wrap y - W.wrap a) % W.size = (y - a) % W.size := fun y =>
    (W.wrap_modEq y).sub (W.wrap_modEq a)
  rw [mem_arc_iff (W.wrap_mem a) (W.wrap_mem b) (W.wrap_mem x), hsub, hsub]

/-- The arcs of two windows of one size have the same residues. -/
theorem wrap_mem_arc_congr (h : V.size = W.size) (x a b : ℤ) :
    V.wrap x ∈ arc (V.wrap a) (V.wrap b) ↔ W.wrap x ∈ arc (W.wrap a) (W.wrap b) := by
  rw [wrap_mem_arc_wrap, wrap_mem_arc_wrap, h]

/-- **A sum between two bounds**: an arc of the summand, turned by the other
one. -/
theorem wrap_mem_arc (ha : a ∈ W) (hb : b ∈ W) (hab : a ≤ b) (x k : ℤ) :
    W.wrap x ∈ arc (W.wrap (a - k)) (W.wrap (b - k)) ↔ a ≤ W.wrap (x + k) ∧ W.wrap (x + k) ≤ b := by
  have hx : (x - (a - k)) % W.size = (W.wrap (x + k) - a) % W.size := by
    rw [show x - (a - k) = x + k - a by ring]
    exact (((W.wrap_modEq (x + k)).sub_right a).symm : _ % _ = _ % _)
  have hb' : b - k - (a - k) = b - a := by ring
  rw [wrap_mem_arc_wrap, hx, hb', ← mem_arc_iff ha hb (W.wrap_mem _), mem_arc_of_le hab]

/-- **A sum other than an integer**: the arc from just above it to just below
it, turned by the other summand. -/
theorem wrap_mem_arc_ne (ha : a ∈ W) (hsize : 1 < W.size) (x k : ℤ) :
    W.wrap x ∈ arc (W.wrap (a + 1 - k)) (W.wrap (a - 1 - k)) ↔ W.wrap (x + k) ≠ a := by
  have hlast : (a - 1 - k - (a + 1 - k)) % W.size = W.size - 2 := by
    rw [show a - 1 - k - (a + 1 - k) = -2 by ring, ← Int.add_emod_right,
      Int.emod_eq_of_lt (by omega) (by omega)]
    omega
  have hx : (x - (a + 1 - k)) % W.size = (W.wrap (x + k) - a - 1) % W.size := by
    rw [show x - (a + 1 - k) = x + k - a - 1 by ring]
    exact ((((W.wrap_modEq (x + k)).sub_right a).sub_right 1).symm : _ % _ = _ % _)
  rw [wrap_mem_arc_wrap, hlast, hx]
  have hy := W.wrap_mem (x + k)
  generalize W.wrap (x + k) = y at hy ⊢
  rw [mem_iff] at ha hy
  rcases lt_trichotomy y a with hlt | rfl | hgt
  · rw [← Int.add_emod_right, Int.emod_eq_of_lt (by omega) (by omega)]
    omega
  · rw [sub_self, zero_sub, ← Int.add_emod_right, Int.emod_eq_of_lt (by omega) (by omega)]
    omega
  · rw [Int.emod_eq_of_lt (by omega) (by omega)]
    omega

end Window
