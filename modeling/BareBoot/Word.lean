import Mathlib.Algebra.Order.Ring.Int
import Mathlib.Tactic.SplitIfs

/-! `UINT32` and `INT32` values of integers. -/

namespace BareBoot

def u32 (x : Int) : Nat := (x % 2 ^ 32).toNat
def i32 (x : Int) : Int := x.bmod (2 ^ 32)

theorem u32_lt (x : Int) : u32 x < 2 ^ 32 := by
  unfold u32
  omega

theorem u32_natCast {n : Nat} (h : n < 2 ^ 32) : u32 n = n := by
  unfold u32
  omega

theorem u32_sub {m n : Nat} (hle : n ≤ m) (h : m - n < 2 ^ 32) : u32 ((m : Int) - n) = m - n := by
  unfold u32
  omega

theorem i32_of_mem {x : Int} (hlow : -2 ^ 31 ≤ x) (hhigh : x < 2 ^ 31) : i32 x = x := by
  unfold i32
  rw [Int.bmod_def]
  split_ifs <;> omega

theorem i32_natCast {n : Nat} (h : n < 2 ^ 31) : i32 n = n := by
  apply i32_of_mem <;> omega

end BareBoot
