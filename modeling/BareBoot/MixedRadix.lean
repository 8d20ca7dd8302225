import Mathlib.Data.List.Forall2
import Mathlib.Tactic.Ring

/-! Numbers in mixed radices. The digits of a place are any `radix` consecutive numbers, from `low` on; then the
values are ordered as the digits are, the first digit first. -/

namespace MixedRadix

structure Place where
  radix : Nat
  low : Nat

def Place.Digit (place : Place) (digit : Nat) : Prop := place.low ≤ digit ∧ digit < place.low + place.radix

/-- The digits behind a number, as many as there are places. -/
def value : List Place → Nat → List Nat → Nat
  | place :: places, n, digit :: digits => value places (n * place.radix + digit) digits
  | _, n, _ => n

variable {places : List Place} {digits digits' : List Nat}

/-- A carry outweighs all that is behind it. -/
theorem value_lt_of_lt (h : List.Forall₂ Place.Digit places digits) (h' : List.Forall₂ Place.Digit places digits') {n n' : Nat}
    (hn : n < n') : value places n digits < value places n' digits' := by
  induction h generalizing digits' n n' with
  | nil =>
      cases h'
      exact hn
  | @cons place digit places digits hd _ ih =>
      cases h' with
      | cons hd' hrest' =>
          refine ih hrest' ?_
          calc n * place.radix + digit
              < n * place.radix + (place.low + place.radix) := Nat.add_lt_add_left hd.2 _
            _ = (n + 1) * place.radix + place.low := by ring
            _ ≤ n' * place.radix + place.low := Nat.add_le_add_right (Nat.mul_le_mul_right _ hn) _
            _ ≤ n' * place.radix + _ := Nat.add_le_add_left hd'.1 _

/-- **The values are ordered as the digits are.** -/
theorem value_lt_iff (h : List.Forall₂ Place.Digit places digits) (h' : List.Forall₂ Place.Digit places digits') (n : Nat) :
    value places n digits < value places n digits' ↔ digits < digits' := by
  induction h generalizing digits' n with
  | nil =>
      cases h'
      exact iff_of_false (lt_irrefl n) (List.not_lt_nil [])
  | @cons place digit places digits hd hrest ih =>
      cases h' with
      | @cons _ digit' _ digits' hd' hrest' =>
          rw [List.cons_lt_cons_iff]
          rcases lt_trichotomy digit digit' with hlt | rfl | hgt
          · exact iff_of_true (value_lt_of_lt hrest hrest' (Nat.add_lt_add_left hlt _)) (Or.inl hlt)
          · calc value places (n * place.radix + digit) digits < value places (n * place.radix + digit) digits'
                ↔ digits < digits' := ih hrest' _
              _ ↔ digit < digit ∨ digit = digit ∧ digits < digits' :=
                  ⟨fun hlt => Or.inr ⟨rfl, hlt⟩, fun hor => hor.elim (fun hlt => absurd hlt (lt_irrefl _)) And.right⟩
          · refine iff_of_false (lt_asymm (value_lt_of_lt hrest' hrest (Nat.add_lt_add_left hgt _))) ?_
            rintro (hlt | ⟨rfl, -⟩)
            · exact lt_asymm hlt hgt
            · exact lt_irrefl _ hgt

end MixedRadix
