import BareBoot.HexText
import BareBoot.PlistNumber
import BareBoot.Word

/-! `hex2bin` of `Utils.c`. The text is a C string; what is returned are the bytes that were written, none
where it returns 0. -/

namespace BareBoot

open Plist

def isHexDigit (c : UInt8) : Bool := 48 ≤ c ∧ c ≤ 57 ∨ 65 ≤ c ∧ c ≤ 70 ∨ 97 ≤ c ∧ c ≤ 102

/-- The loop over `len` bytes. -/
def hex2binLoop : Nat → Bytes → Option Bytes
  | 0, _ => some []
  | len + 1, p =>
      match p.dropWhile fun c => c = 32 ∨ c = 44 with
      | [] => some []
      | [_] => none
      | c :: d :: p =>
          if isHexDigit c ∧ isHexDigit d then
            (hex2binLoop len p).map fun bin => UInt8.ofNat (asciiStrHexToUint64 [c, d]) :: bin
          else none

def hex2bin (hex : Bytes) (len : Int) : Bytes :=
  if len ≤ 0 ∨ i32 (hex.length : Int) ≠ i32 (len * 2) then [] else (hex2binLoop len.toNat hex).getD []

/-- Two digits are read as the byte they were printed from. -/
theorem digits_read (upper : Bool) (c : UInt8) :
    isHexDigit (hexChar upper (c.toNat / 16)) = true ∧ isHexDigit (hexChar upper (c.toNat % 16)) = true ∧
      UInt8.ofNat (asciiStrHexToUint64 [hexChar upper (c.toNat / 16), hexChar upper (c.toNat % 16)]) = c := by
  have hall : ∀ upper, ∀ n < 256, isHexDigit (hexChar upper (n / 16)) = true ∧ isHexDigit (hexChar upper (n % 16)) = true ∧
      UInt8.ofNat (asciiStrHexToUint64 [hexChar upper (n / 16), hexChar upper (n % 16)]) = UInt8.ofNat n := by
    decide +kernel
  have h := hall upper c.toNat c.toNat_lt
  rwa [UInt8.ofNat_toNat] at h

theorem isHexDigit_hexText (upper : Bool) (bytes : Bytes) : ∀ c ∈ hexText upper bytes, isHexDigit c = true := by
  induction bytes with
  | nil => exact List.forall_mem_nil _
  | cons c bytes ih =>
      obtain ⟨hhigh, hlow, -⟩ := digits_read upper c
      rw [hexText_cons, List.forall_mem_cons, List.forall_mem_cons]
      exact ⟨hhigh, hlow, ih⟩

theorem hex2binLoop_hexText (upper : Bool) (bytes : Bytes) : hex2binLoop bytes.length (hexText upper bytes) = some bytes := by
  induction bytes with
  | nil => rfl
  | cons c bytes ih =>
      obtain ⟨hhigh, hlow, hread⟩ := digits_read upper c
      have hskip : (hexText upper (c :: bytes)).dropWhile (fun c => c = 32 ∨ c = 44) = hexText upper (c :: bytes) := by
        rw [hexText_cons]
        apply List.dropWhile_cons_of_neg
        intro hblank
        rcases of_decide_eq_true hblank with h | h
        · rw [h] at hhigh
          exact absurd hhigh (by decide)
        · rw [h] at hhigh
          exact absurd hhigh (by decide)
      rw [List.length_cons, hex2binLoop, hskip, hexText_cons]
      dsimp only
      rw [if_pos ⟨hhigh, hlow⟩, ih, hread]
      rfl

/-- The text of some bytes is read back. -/
theorem hex2bin_hexText (upper : Bool) {bytes : Bytes} (hlen : bytes.length < 2 ^ 30) :
    hex2bin (hexText upper bytes) bytes.length = bytes := by
  unfold hex2bin
  rw [hexText_length]
  cases bytes with
  | nil => rfl
  | cons c bytes =>
      have hdouble : ((2 * (c :: bytes).length : Nat) : Int) = ((c :: bytes).length : Int) * 2 := by
        push_cast
        ring
      rw [hdouble, if_neg, Int.toNat_natCast, hex2binLoop_hexText]
      · rfl
      · rw [List.length_cons]
        omega

end BareBoot
