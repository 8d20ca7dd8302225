import BareBoot.Block
import BareBoot.PlistBase64

/-! Numbers as bytes and bytes as hexadecimal digits, of either case. -/

namespace BareBoot

open Plist (Bytes)

/-! ### Words -/

/-- The bytes of a number, least significant first. -/
def wordBytes : Nat → Nat → Bytes
  | 0, _ => []
  | width + 1, value => UInt8.ofNat value :: wordBytes width (value / 256)

/-- The number of little-endian bytes. -/
def bytesWord : Bytes → Nat
  | [] => 0
  | c :: cs => c.toNat + 256 * bytesWord cs

section Words

variable {width value : Nat} {bytes : Bytes}

@[simp] theorem wordBytes_length (width value : Nat) : (wordBytes width value).length = width := by
  induction width generalizing value with
  | zero => rfl
  | succ width ih => rw [wordBytes, List.length_cons, ih]

theorem bytesWord_wordBytes (width value : Nat) : bytesWord (wordBytes width value) = value % 256 ^ width := by
  induction width generalizing value with
  | zero => rw [wordBytes, bytesWord, Nat.pow_zero, Nat.mod_one]
  | succ width ih =>
      rw [wordBytes, bytesWord, ih, Nat.pow_succ', Nat.mod_mul]
      rfl

theorem bytesWord_wordBytes_of_lt (h : value < 256 ^ width) : bytesWord (wordBytes width value) = value := by
  rw [bytesWord_wordBytes, Nat.mod_eq_of_lt h]

theorem wordBytes_bytesWord (bytes : Bytes) : wordBytes bytes.length (bytesWord bytes) = bytes := by
  induction bytes with
  | nil => rfl
  | cons c cs ih =>
      have hlt : c.toNat < 256 := c.toNat_lt
      have hrest : (c.toNat + 256 * bytesWord cs) / 256 = bytesWord cs := by omega
      have hfirst : UInt8.ofNat (c.toNat + 256 * bytesWord cs) = c := by
        apply UInt8.toNat_inj.mp
        rw [UInt8.toNat_ofNat']
        omega
      rw [List.length_cons, bytesWord, wordBytes, hrest, ih, hfirst]

theorem wordBytes_mod (width value : Nat) : wordBytes width (value % 256 ^ width) = wordBytes width value := by
  have h := wordBytes_bytesWord (wordBytes width value)
  rwa [wordBytes_length, bytesWord_wordBytes] at h

/-- The number with its bytes in reverse. -/
def swapBytes (width value : Nat) : Nat := bytesWord (wordBytes width value).reverse

theorem wordBytes_swapBytes (width value : Nat) :
    wordBytes width (swapBytes width value) = (wordBytes width value).reverse := by
  have h := wordBytes_bytesWord (wordBytes width value).reverse
  rwa [List.length_reverse, wordBytes_length] at h

end Words

/-! ### Digits -/

section Digits

variable (upper : Bool)

def hexChar (n : Nat) : UInt8 :=
  if n < 10 then 48 + UInt8.ofNat n else if upper then 55 + UInt8.ofNat n else 87 + UInt8.ofNat n

/-- Two digits for each byte. -/
def hexText (bytes : Bytes) : Bytes := (bytes.map fun c => [hexChar upper (c.toNat / 16), hexChar upper (c.toNat % 16)]).flatten

/-- A number with so many digits, the most significant first. -/
def printHex : Nat → Nat → Bytes
  | 0, _ => []
  | width + 1, value => printHex width (value / 16) ++ [hexChar upper (value % 16)]

theorem hexText_append (s t : Bytes) : hexText upper (s ++ t) = hexText upper s ++ hexText upper t := by
  rw [hexText, List.map_append, List.flatten_append]
  rfl

theorem hexText_cons (c : UInt8) (s : Bytes) : hexText upper (c :: s) =
    hexChar upper (c.toNat / 16) :: hexChar upper (c.toNat % 16) :: hexText upper s := rfl

theorem hexText_length (bytes : Bytes) : (hexText upper bytes).length = 2 * bytes.length := by
  induction bytes with
  | nil => rfl
  | cons c bytes ih =>
      rw [hexText_cons, List.length_cons, List.length_cons, List.length_cons, ih]
      omega

/-- Each byte of the number is printed, the most significant first. -/
theorem printHex_eq (width value : Nat) :
    printHex upper (2 * width) value = hexText upper (wordBytes width value).reverse := by
  induction width generalizing value with
  | zero => rfl
  | succ width ih =>
      have hhigh : (UInt8.ofNat value).toNat / 16 = value / 16 % 16 := by
        rw [UInt8.toNat_ofNat']
        omega
      have hlow : (UInt8.ofNat value).toNat % 16 = value % 16 := by
        rw [UInt8.toNat_ofNat']
        omega
      rw [show 2 * (width + 1) = 2 * width + 1 + 1 by omega, printHex, printHex, Nat.div_div_eq_div_mul, ih, wordBytes,
        List.reverse_cons, hexText_append, hexText_cons, hhigh, hlow, List.append_assoc]
      rfl

theorem printHex_swapBytes (width value : Nat) :
    printHex upper (2 * width) (swapBytes width value) = hexText upper (wordBytes width value) := by
  rw [printHex_eq, wordBytes_swapBytes, List.reverse_reverse]

theorem hexChar_ne_zero {n : Nat} (h : n < 16) : hexChar upper n ≠ 0 := by
  have hall : ∀ upper, ∀ n < 16, hexChar upper n ≠ 0 := by decide
  exact hall upper n h

theorem zero_not_mem_hexText (bytes : Bytes) : 0 ∉ hexText upper bytes := by
  induction bytes with
  | nil => exact List.not_mem_nil
  | cons c bytes ih =>
      have hlt := c.toNat_lt
      rw [hexText_cons]
      intro h
      rcases List.mem_cons.mp h with h | h
      · exact hexChar_ne_zero upper (by omega) h.symm
      rcases List.mem_cons.mp h with h | h
      · exact hexChar_ne_zero upper (by omega) h.symm
      exact ih h

end Digits

end BareBoot
