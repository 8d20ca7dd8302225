import BareBoot.PlistBase64

/-! `_plint2str` and `_plstr2vlong` of `plist_helpers_edk2.c`, over the documented behaviour of the
EDK2 routines they call: decimal digits out, and decimal or hexadecimal digits in, with blanks and
zeros skipped in front and saturation at the largest 64-bit value. `vlong` is `Int64`, whose
arithmetic wraps. -/

namespace BareBoot.Plist

/-- The C string at the head of some bytes. -/
def cstr (b : Bytes) : Bytes := b.takeWhile (· ≠ 0)

/-! ### Writing -/

/-- The decimal digits of a number below `10 ^ count`. -/
def decimalDigits : Nat → Nat → Bytes
  | 0, _ => []
  | count + 1, n =>
      if n < 10 then [UInt8.ofNat (48 + n)]
      else decimalDigits count (n / 10) ++ [UInt8.ofNat (48 + n % 10)]

/-- `AsciiValueToStringS` without flags; 20 digits hold every 64-bit value. -/
def plint2str (val : Int64) : Bytes :=
  if val.toInt < 0 then 45 :: decimalDigits 20 val.toInt.natAbs
  else decimalDigits 20 val.toInt.natAbs

/-! ### Reading -/

def maxUint64 : Nat := 2 ^ 64 - 1

/-- Accumulate digits in a base until one is no digit. -/
def readDigits (base : Nat) (digit : UInt8 → Option Nat) : Nat → Bytes → Nat
  | acc, [] => acc
  | acc, c :: cs =>
      match digit c with
      | none => acc
      | some d => if acc > (maxUint64 - d) / base then maxUint64 else readDigits base digit (acc * base + d) cs

def decimalDigit (c : UInt8) : Option Nat :=
  if 48 ≤ c.toNat ∧ c.toNat ≤ 57 then some (c.toNat - 48) else none

def hexDigit (c : UInt8) : Option Nat :=
  if 48 ≤ c.toNat ∧ c.toNat ≤ 57 then some (c.toNat - 48)
  else if 65 ≤ c.toNat ∧ c.toNat ≤ 70 then some (c.toNat - 55)
  else if 97 ≤ c.toNat ∧ c.toNat ≤ 102 then some (c.toNat - 87)
  else none

/-- Pad blanks are a space or a tab. -/
def skipBlanks (s : Bytes) : Bytes := s.dropWhile fun c => c = 32 ∨ c = 9

def asciiStrDecimalToUint64 (s : Bytes) : Nat :=
  readDigits 10 decimalDigit 0 ((skipBlanks s).dropWhile (· = 48))

/-- An `x` counts only right after a zero; without one the result is zero. -/
def asciiStrHexToUint64 (s : Bytes) : Nat :=
  let padded := skipBlanks s
  match padded.dropWhile (· = 48) with
  | [] => 0
  | c :: cs =>
      if c = 120 ∨ c = 88 then
        if padded.head? = some 48 then readDigits 16 hexDigit 0 cs else 0
      else readDigits 16 hexDigit 0 (c :: cs)

/-- Reads at most 39 bytes of the text, whatever terminators they hold, and takes the sign and the
base from anywhere in them. -/
def plstr2vlong (vbuf : Bytes) (bsz : Nat) : Int64 :=
  if bsz < 1 then 0
  else
    let wbuffer := vbuf.take (min 39 bsz)
    let negative := wbuffer.contains 45
    let wptr := if negative then (wbuffer.dropWhile (· ≠ 45)).tail else wbuffer
    let rval :=
      if wptr.contains 120 ∨ wptr.contains 88 then asciiStrHexToUint64 (cstr wptr)
      else asciiStrDecimalToUint64 (cstr wptr)
    if negative then 0 - Int64.ofNat rval else Int64.ofNat rval

/-! ### Reading back what is written -/

def IsDecimalChar (c : UInt8) : Prop := 48 ≤ c.toNat ∧ c.toNat ≤ 57

theorem isDecimalChar_ofNat {d : Nat} (hd : d < 10) : IsDecimalChar (UInt8.ofNat (48 + d)) := by
  have h : (UInt8.ofNat (48 + d)).toNat = 48 + d := by
    rw [UInt8.toNat_ofNat', Nat.mod_eq_of_lt (by omega)]
  rw [IsDecimalChar, h]
  omega

theorem decimalDigit_ofNat {d : Nat} (hd : d < 10) : decimalDigit (UInt8.ofNat (48 + d)) = some d := by
  have h : (UInt8.ofNat (48 + d)).toNat = 48 + d := by
    rw [UInt8.toNat_ofNat', Nat.mod_eq_of_lt (by omega)]
  have hr : 48 ≤ 48 + d ∧ 48 + d ≤ 57 := by omega
  rw [decimalDigit, h, if_pos hr, Nat.add_sub_cancel_left]

theorem isDecimalChar_decimalDigits (count n : Nat) : ∀ c ∈ decimalDigits count n, IsDecimalChar c := by
  induction count generalizing n with
  | zero => simp [decimalDigits]
  | succ count ih =>
      intro c hc
      rw [decimalDigits] at hc
      split at hc
      · rename_i hn
        rw [List.mem_singleton] at hc
        exact hc ▸ isDecimalChar_ofNat hn
      · rcases List.mem_append.1 hc with hc | hc
        · exact ih _ c hc
        · rw [List.mem_singleton] at hc
          exact hc ▸ isDecimalChar_ofNat (Nat.mod_lt _ (by decide))

theorem length_decimalDigits_le (count n : Nat) : (decimalDigits count n).length ≤ count := by
  induction count generalizing n with
  | zero => simp [decimalDigits]
  | succ count ih =>
      rw [decimalDigits]
      split
      · simp
      · have := ih (n / 10)
        simp only [List.length_append, List.length_singleton]
        omega

/-- Digits that fit are accumulated, and reading goes on behind them. -/
theorem readDigits_decimalDigits (count n : Nat) (hn : n < 10 ^ count) (hcount : 0 < count)
    (hmax : n ≤ maxUint64) (rest : Bytes) :
    readDigits 10 decimalDigit 0 (decimalDigits count n ++ rest) = readDigits 10 decimalDigit n rest := by
  induction count generalizing n rest with
  | zero => omega
  | succ count ih =>
      rw [decimalDigits]
      split
      · rename_i hlt
        rw [List.singleton_append, readDigits, decimalDigit_ofNat hlt]
        simp only [Nat.not_lt_zero, if_false, Nat.zero_mul, Nat.zero_add]
      · rename_i hge
        have hpos : 0 < count := by
          rcases Nat.eq_zero_or_pos count with rfl | h
          · omega
          · exact h
        have hdiv : n / 10 < 10 ^ count := by
          rw [pow_succ] at hn
          omega
        have hd : n % 10 < 10 := Nat.mod_lt _ (by decide)
        rw [List.append_assoc, ih (n / 10) hdiv hpos (by omega), List.singleton_append, readDigits,
          decimalDigit_ofNat hd]
        have hno : ¬n / 10 > (maxUint64 - n % 10) / 10 := by omega
        simp only [if_neg hno]
        rw [show n / 10 * 10 + n % 10 = n by omega]

/-- Leading zeros do not change what is read. -/
theorem readDigits_dropZeros (s : Bytes) :
    readDigits 10 decimalDigit 0 (s.dropWhile (· = 48)) = readDigits 10 decimalDigit 0 s := by
  induction s with
  | nil => rfl
  | cons c s ih =>
      by_cases hc : c = 48
      · subst hc
        have h48 : decimalDigit 48 = some 0 := rfl
        rw [List.dropWhile_cons_of_pos (by simp), ih, readDigits, h48]
        simp
      · rw [List.dropWhile_cons_of_neg (by simpa using hc)]

theorem asciiStrDecimalToUint64_decimalDigits {n : Nat} (hn : n ≤ maxUint64) :
    asciiStrDecimalToUint64 (decimalDigits 20 n) = n := by
  have hskip : skipBlanks (decimalDigits 20 n) = decimalDigits 20 n := by
    rcases hd : decimalDigits 20 n with _ | ⟨c, cs⟩
    · rfl
    · have hc := isDecimalChar_decimalDigits 20 n c (by rw [hd]; simp)
      rw [skipBlanks, List.dropWhile_cons_of_neg]
      have h32 : c ≠ 32 := fun h => by subst h; exact absurd hc.1 (by decide)
      have h9 : c ≠ 9 := fun h => by subst h; exact absurd hc.1 (by decide)
      simp [h32, h9]
  have hlt : n < 10 ^ 20 := lt_of_le_of_lt hn (by decide)
  rw [asciiStrDecimalToUint64, hskip, readDigits_dropZeros]
  have h := readDigits_decimalDigits 20 n hlt (by decide) hn []
  rw [List.append_nil] at h
  exact h

theorem length_plint2str_le (v : Int64) : (plint2str v).length ≤ 21 := by
  have h := length_decimalDigits_le 20 v.toInt.natAbs
  rw [plint2str]
  split
  · simp only [List.length_cons]
    omega
  · omega

/-- A written number is a sign and digits. -/
theorem mem_plint2str {v : Int64} {c : UInt8} (hc : c ∈ plint2str v) : c = 45 ∨ IsDecimalChar c := by
  rw [plint2str] at hc
  split at hc
  · rcases List.mem_cons.1 hc with rfl | hc
    · exact Or.inl rfl
    · exact Or.inr (isDecimalChar_decimalDigits _ _ c hc)
  · exact Or.inr (isDecimalChar_decimalDigits _ _ c hc)

/-- What follows the digits in the text a written integer is read from. -/
def integerTail : Bytes := 0 :: ascii "/integer" ++ [0]

theorem plstr2vlong_plint2str (v : Int64) :
    plstr2vlong (plint2str v ++ integerTail) ((plint2str v).length + 10) = v := by
  have hlen : (plint2str v ++ integerTail).length = (plint2str v).length + 10 := by
    rw [List.length_append]
    rfl
  have hle := length_plint2str_le v
  have hwin : (plint2str v ++ integerTail).take (min 39 ((plint2str v).length + 10)) =
      plint2str v ++ integerTail := by
    rw [List.take_of_length_le]
    omega
  have hx : ∀ c : UInt8, c = 120 ∨ c = 88 → ∀ count n, c ∉ decimalDigits count n ++ integerTail := by
    intro c hc count n hmem
    rcases List.mem_append.1 hmem with hmem | hmem
    · have := isDecimalChar_decimalDigits _ _ c hmem
      rcases hc with rfl | rfl <;> exact absurd this.2 (by decide)
    · rcases hc with rfl | rfl <;> exact absurd hmem (by decide)
  have hminus : ∀ count n, (45 : UInt8) ∉ decimalDigits count n ++ integerTail := by
    intro count n hmem
    rcases List.mem_append.1 hmem with hmem | hmem
    · exact absurd (isDecimalChar_decimalDigits _ _ _ hmem).1 (by decide)
    · exact absurd hmem (by decide)
  have hread : ∀ n, n ≤ maxUint64 →
      asciiStrDecimalToUint64 (cstr (decimalDigits 20 n ++ integerTail)) = n := by
    intro n hn
    have hnul : cstr (decimalDigits 20 n ++ integerTail) = decimalDigits 20 n := by
      rw [cstr, List.takeWhile_append_of_pos]
      · simp [integerTail]
      · intro c hc
        have := (isDecimalChar_decimalDigits 20 n c hc).1
        have h0 : c ≠ 0 := fun h => by subst h; exact absurd this (by decide)
        simpa using h0
    rw [hnul, asciiStrDecimalToUint64_decimalDigits hn]
  have habs : v.toInt.natAbs ≤ maxUint64 := by
    have h1 := v.le_toInt
    have h2 := v.toInt_lt
    unfold maxUint64
    omega
  rw [plstr2vlong, if_neg (by omega), hwin]
  unfold plint2str
  have hnox : ∀ n, ((decimalDigits 20 n ++ integerTail).contains 120 ∨
      (decimalDigits 20 n ++ integerTail).contains 88) = False := by
    intro n
    simp only [List.contains_iff_mem, eq_iff_iff, iff_false, not_or]
    exact ⟨hx 120 (Or.inl rfl) 20 n, hx 88 (Or.inr rfl) 20 n⟩
  by_cases hneg : v.toInt < 0
  · have hcont : (45 :: decimalDigits 20 v.toInt.natAbs ++ integerTail).contains 45 = true := by
      simp
    have hdrop : ((45 :: decimalDigits 20 v.toInt.natAbs ++ integerTail).dropWhile (· ≠ 45)).tail =
        decimalDigits 20 v.toInt.natAbs ++ integerTail := by
      rw [List.cons_append, List.dropWhile_cons_of_neg (by simp), List.tail_cons]
    simp only [if_pos hneg, hcont, if_true, hdrop, hnox, if_false, hread _ habs]
    have hle63 : v.toInt.natAbs ≤ 2 ^ 63 := by
      have := v.le_toInt
      omega
    rw [← Int64.toInt_inj, Int64.zero_sub, Int64.toInt_neg_ofNat_of_le hle63]
    omega
  · have hcont : (decimalDigits 20 v.toInt.natAbs ++ integerTail).contains 45 = false := by
      rw [Bool.eq_false_iff, Ne, List.contains_iff_mem]
      exact hminus _ _
    simp only [if_neg hneg, hcont, Bool.false_eq_true, if_false, hnox, hread _ habs]
    have hlt63 : v.toInt.natAbs < 2 ^ 63 := by
      have := v.toInt_lt
      omega
    rw [← Int64.toInt_inj, Int64.toInt_ofNat_of_lt hlt63]
    omega

end BareBoot.Plist
