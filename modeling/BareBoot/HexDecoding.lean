import BareBoot.DevProp
import BareBoot.UserSettings

/-! Texts of digit pairs with separators: what `hex2bin` makes of them, and the sizes that `GetDataSetting` and
`GetDeviceProps` report. -/

namespace BareBoot

open Plist Config Exec

def hexDigitValue (c : UInt8) : Nat := if c ≤ 57 then c.toNat - 48 else if c ≤ 70 then c.toNat - 55 else c.toNat - 87

def isSeparator (c : UInt8) : Bool := c = 32 ∨ c = 44

/-- A text of pairs of digits and separators between them, and the bytes of the pairs. -/
inductive HexPairs : Bytes → Bytes → Prop
  | nil : HexPairs [] []
  | separator {values text : Bytes} {c : UInt8} (hc : isSeparator c = true) (h : HexPairs values text) :
      HexPairs values (c :: text)
  | pair {values text : Bytes} {c d : UInt8} (hc : isHexDigit c = true) (hd : isHexDigit d = true)
      (h : HexPairs values text) : HexPairs (UInt8.ofNat (16 * hexDigitValue c + hexDigitValue d) :: values) (c :: d :: text)

/-! ### The loop -/

theorem not_separator_of_digit {c : UInt8} (h : isHexDigit c = true) : isSeparator c = false := by
  have hall : ∀ n < 256, isHexDigit (UInt8.ofNat n) = true → isSeparator (UInt8.ofNat n) = false := by decide +kernel
  have hc := hall c.toNat c.toNat_lt
  rw [UInt8.ofNat_toNat] at hc
  exact hc h

/-- The characters for which `isHexDigit` holds. -/
def hexDigits : Bytes := ascii "0123456789ABCDEFabcdef"

theorem mem_hexDigits {c : UInt8} (h : isHexDigit c = true) : c ∈ hexDigits := by
  have hall : ∀ n < 256, isHexDigit (UInt8.ofNat n) = true → UInt8.ofNat n ∈ hexDigits := by decide +kernel
  have hc := hall c.toNat c.toNat_lt
  rw [UInt8.ofNat_toNat] at hc
  exact hc h

theorem asciiStrHexToUint64_pair {c d : UInt8} (hc : isHexDigit c = true) (hd : isHexDigit d = true) :
    asciiStrHexToUint64 [c, d] = 16 * hexDigitValue c + hexDigitValue d := by
  have hall : ∀ c ∈ hexDigits, ∀ d ∈ hexDigits, asciiStrHexToUint64 [c, d] = 16 * hexDigitValue c + hexDigitValue d := by
    decide +kernel
  exact hall c (mem_hexDigits hc) d (mem_hexDigits hd)

theorem skip_cons (c : UInt8) (text : Bytes) :
    (c :: text).dropWhile (fun c => c = 32 ∨ c = 44) =
      if isSeparator c then text.dropWhile fun c => c = 32 ∨ c = 44 else c :: text := List.dropWhile_cons

theorem hex2binLoop_separator {c : UInt8} {text : Bytes} (hc : isSeparator c = true) (n : Nat) :
    hex2binLoop n (c :: text) = hex2binLoop n text := by
  cases n with
  | zero => rfl
  | succ n => rw [hex2binLoop, hex2binLoop, skip_cons, if_pos hc]

theorem hex2binLoop_pair {c d : UInt8} {text : Bytes} (hc : isHexDigit c = true) (hd : isHexDigit d = true) (n : Nat) :
    hex2binLoop (n + 1) (c :: d :: text) =
      (hex2binLoop n text).map fun bin => UInt8.ofNat (16 * hexDigitValue c + hexDigitValue d) :: bin := by
  rw [hex2binLoop, skip_cons, not_separator_of_digit hc, if_neg Bool.false_ne_true]
  dsimp only
  rw [if_pos ⟨hc, hd⟩, asciiStrHexToUint64_pair hc hd]

variable {values text : Bytes}

/-- The rounds decode one pair each. -/
theorem HexPairs.loop (h : HexPairs values text) (n : Nat) : hex2binLoop n text = some (values.take n) := by
  induction h generalizing n with
  | nil =>
      cases n with
      | zero => rfl
      | succ n => rfl
  | separator hc _ ih => rw [hex2binLoop_separator hc, ih]
  | pair hc hd _ ih =>
      cases n with
      | zero => rfl
      | succ n => rw [hex2binLoop_pair hc hd, ih, List.take_succ_cons, Option.map_some]

theorem HexPairs.of_dropWhile (h : HexPairs values (text.dropWhile fun c => c = 32 ∨ c = 44)) : HexPairs values text := by
  induction text with
  | nil => exact h
  | cons c text ih =>
      by_cases hc : isSeparator c = true
      · rw [skip_cons, if_pos hc] at h
        exact (ih h).separator hc
      · rwa [skip_cons, if_neg hc] at h

/-- Where the rounds suffice for the whole text, what is decoded is a text of pairs. -/
theorem hexPairs_of_loop {n : Nat} (hn : text.length ≤ 2 * n) (h : hex2binLoop n text = some values) : HexPairs values text := by
  induction n generalizing text values with
  | zero =>
      obtain rfl := List.length_eq_zero_iff.mp (Nat.le_zero.mp hn)
      cases h
      exact .nil
  | succ n ih =>
      have hle := List.length_dropWhile_le (fun c : UInt8 => decide (c = 32 ∨ c = 44)) text
      apply HexPairs.of_dropWhile
      rw [hex2binLoop] at h
      split at h
      · rename_i hrest
        rw [hrest]
        cases h
        exact .nil
      · cases h
      · rename_i c d p hrest
        rw [hrest] at hle ⊢
        rw [List.length_cons, List.length_cons] at hle
        split_ifs at h with hdigits
        · rw [Option.map_eq_some_iff] at h
          obtain ⟨bin, hbin, rfl⟩ := h
          rw [asciiStrHexToUint64_pair hdigits.1 hdigits.2]
          exact (ih (by omega) hbin).pair hdigits.1 hdigits.2

theorem HexPairs.length_le (h : HexPairs values text) : 2 * values.length ≤ text.length := by
  induction h with
  | nil => exact Nat.le_refl _
  | separator _ _ ih =>
      rw [List.length_cons]
      omega
  | pair _ _ _ ih =>
      rw [List.length_cons, List.length_cons, List.length_cons]
      omega

/-- Two characters for each byte are digits only. -/
theorem HexPairs.length_eq_iff (h : HexPairs values text) :
    2 * values.length = text.length ↔ ∀ c ∈ text, isHexDigit c = true := by
  induction h with
  | nil => exact iff_of_true rfl (List.forall_mem_nil _)
  | separator hc h _ =>
      have hle := h.length_le
      rw [List.length_cons, List.forall_mem_cons]
      refine iff_of_false (by omega) ?_
      rintro ⟨hdigit, -⟩
      rw [not_separator_of_digit hdigit] at hc
      cases hc
  | pair hc hd _ ih =>
      rw [List.forall_mem_cons, List.forall_mem_cons, and_iff_right hc, and_iff_right hd, ← ih]
      rw [List.length_cons, List.length_cons, List.length_cons]
      omega

theorem HexPairs.hex2bin_iff (h : HexPairs values text) (len : Int) :
    hex2bin text len = values ↔
      values = [] ∨ (0 < len ∧ i32 (text.length : Int) = i32 (len * 2) ∧ (values.length : Int) ≤ len) := by
  rw [hex2bin, h.loop, Option.getD_some]
  split_ifs with hguard
  · constructor
    · intro hnil
      exact Or.inl hnil.symm
    · rintro (hnil | hfits)
      · exact hnil.symm
      · exact absurd hguard (not_or.mpr ⟨not_le.mpr hfits.1, not_not.mpr hfits.2.1⟩)
  · rw [not_or, not_le, not_not] at hguard
    rw [List.take_eq_self_iff]
    constructor
    · intro hle
      exact Or.inr ⟨hguard.1, hguard.2, by omega⟩
    · rintro (rfl | hfits)
      · exact Nat.zero_le _
      · omega

/-! ### `GetDataSetting` -/

/-- The size reported is that of the bytes given back. -/
def DataSettingExact (pool : Nat → Bool) (dict : Option Node) (propName : Bytes) (s : SettingsData) : Prop :=
  ∃ data size, (getDataSetting pool dict propName s).result = .ok (data, size) ∧ size = (data.getD []).length

theorem allocatePool_run (pool : Nat → Bool) (s : SettingsData) :
    allocatePool pool s = ⟨.ok (pool s.allocs), { s with allocs := s.allocs + 1 }, []⟩ := rfl

theorem allocateCopyPool_run (pool : Nat → Bool) (bytes : Bytes) (s : SettingsData) :
    allocateCopyPool pool bytes s =
      ⟨.ok (if pool s.allocs then some bytes else none), { s with allocs := s.allocs + 1 }, []⟩ := by
  rw [allocateCopyPool, bind_of_ok (allocatePool_run pool s)]
  cases pool s.allocs <;> rfl

/-- What is decoded goes with its size, and `NULL` with 0. -/
theorem decodedSize_exact (pool : Nat → Bool) (bin : Bytes) (s : SettingsData) :
    ∃ data size,
      ((if pool s.allocs = true then pure (some bin, bin.length) else pure (none, 0) : SettingsM (Option Bytes × Nat))
        { s with allocs := s.allocs + 1 }).result = .ok (data, size) ∧ size = (data.getD []).length := by
  cases pool s.allocs with
  | true => exact ⟨some bin, bin.length, rfl, rfl⟩
  | false => exact ⟨none, 0, rfl, rfl⟩

/-- Only for data that could not be copied another size is reported. -/
theorem getDataSetting_iff (pool : Nat → Bool) (dict : Option Node) (propName : Bytes) (s : SettingsData) :
    DataSettingExact pool dict propName s ↔
      ¬(plNodeGetKind (plDictFindKind dict propName .any) = .data ∧ pool s.allocs = false ∧
        plNodeGetSize (plDictFindKind dict propName .any) ≠ 0) := by
  rw [DataSettingExact, getDataSetting]
  cases hkind : plNodeGetKind (plDictFindKind dict propName .any) with
  | data =>
      obtain ⟨bytes, hbytes⟩ := plNodeGetBytes_of_kind (Or.inl hkind)
      dsimp only
      rw [hbytes, plNodeGetSize_of_bytes hbytes, Option.getD_some, bind_of_ok (allocateCopyPool_run pool bytes s),
        Outcome.after_nil]
      cases hpool : pool s.allocs with
      | true => exact iff_of_true ⟨some bytes, bytes.length, rfl, rfl⟩ fun h => Bool.noConfusion h.2.1
      | false =>
          constructor
          · rintro ⟨data, size, heq, hsize⟩ ⟨-, -, hne⟩
            cases heq
            exact hne hsize
          · intro hnot
            refine ⟨none, bytes.length, rfl, ?_⟩
            by_contra hne
            exact hnot ⟨rfl, rfl, hne⟩
  | string =>
      dsimp only
      rw [bind_of_ok (allocatePool_run pool s), Outcome.after_nil]
      exact iff_of_true (decodedSize_exact pool _ s) fun h => Kind.noConfusion h.1
  | _ => exact iff_of_true ⟨none, 0, rfl, rfl⟩ fun h => Kind.noConfusion h.1

/-! ### `GetDeviceProps` -/

/-- What `hex2bin` returns, what is stored in `*BufferSize`, and what is copied to the buffer. -/
structure DeviceProps where
  decoded : Nat
  bufferSize : Nat
  copied : Bytes

/-- One of the texts; `allocated` says whether there is memory for it. -/
def textProps (allocated : Bool) (text : Bytes) : DeviceProps :=
  let cnt := text.length % 2 ^ 32 / 2
  let binStr := if allocated then hex2bin text (i32 (cnt : Nat)) else []
  if binStr.length ≠ 0 then ⟨binStr.length, cnt, binStr ++ List.replicate (cnt - binStr.length) 0⟩ else ⟨0, 0, []⟩

/-- The text that is looked at: `cDevProp` before `gDevProp`, and only one of more than three characters. -/
def usedProp (cDevProp gDevProp : Option Bytes) : Option Bytes :=
  (cDevProp.filter fun text => 3 < text.length).or (gDevProp.filter fun text => 3 < text.length)

def getDeviceProps (allocated : Bool) (cDevProp gDevProp : Option Bytes) : DeviceProps :=
  match usedProp cDevProp gDevProp with
  | some text => textProps allocated text
  | none => ⟨0, 0, []⟩

/-- As many bytes are reported as were decoded, and no more are copied than the caller has room for. -/
def DeviceProps.Exact (capacity : Nat) (props : DeviceProps) : Prop :=
  props.bufferSize = props.decoded ∧ props.copied.length ≤ capacity

/-- A text that decodes to something has no separators and leaves room. -/
def PropFits (capacity : Nat) (text : Bytes) : Prop :=
  text.length % 2 = 0 → ∀ values, HexPairs values text → values ≠ [] →
    (∀ c ∈ text, isHexDigit c = true) ∧ text.length / 2 ≤ capacity

theorem textProps_iff {capacity : Nat} (hlen : text.length < 2 ^ 32) :
    (textProps true text).Exact capacity ↔ PropFits capacity text := by
  have hcnt : text.length % 2 ^ 32 / 2 = text.length / 2 := by rw [Nat.mod_eq_of_lt hlen]
  have hhalf : i32 ((text.length / 2 : Nat) : Int) = (text.length / 2 : Nat) := i32_natCast (by omega)
  rw [textProps, if_pos rfl, hcnt, hhalf]
  by_cases heven : text.length % 2 = 0
  · have hdouble : ((text.length / 2 : Nat) : Int) * 2 = text.length := by omega
    have hloop : hex2bin text (text.length / 2 : Nat) = (hex2binLoop (text.length / 2) text).getD [] := by
      rw [hex2bin, hdouble, Int.toNat_natCast]
      split_ifs with hguard
      · have hzero : text.length = 0 := by
          rcases hguard with h | h
          · omega
          · exact absurd rfl h
        rw [hzero]
        rfl
      · rfl
    rw [hloop]
    cases hrun : hex2binLoop (text.length / 2) text with
    | none =>
        refine iff_of_true ⟨rfl, Nat.zero_le _⟩ fun _ values hpairs _ => ?_
        rw [hpairs.loop] at hrun
        cases hrun
    | some values =>
        have hpairs := hexPairs_of_loop (by omega) hrun
        have hle := hpairs.length_le
        have hdigits := hpairs.length_eq_iff
        rw [Option.getD_some, PropFits]
        split_ifs with hsome
        · rw [DeviceProps.Exact, List.length_append, List.length_replicate]
          constructor
          · rintro ⟨hsize, hroom⟩ - values' hpairs' -
            have hsame : text.length / 2 = values.length := hsize
            exact ⟨hdigits.mp (by omega), by omega⟩
          · intro hall
            obtain ⟨hdigit, hroom⟩ := hall heven values hpairs (fun h => hsome (by rw [h]; rfl))
            have hsame : text.length / 2 = values.length := by
              have := hdigits.mpr hdigit
              omega
            exact ⟨hsame, by omega⟩
        · refine iff_of_true ⟨rfl, Nat.zero_le _⟩ fun _ values' hpairs' hne => ?_
          have hsame := hpairs'.loop (text.length / 2)
          have hle' := hpairs'.length_le
          rw [hrun, List.take_of_length_le (by omega), Option.some.injEq] at hsame
          rw [not_not, List.length_eq_zero_iff] at hsome
          exact absurd (hsame.symm.trans hsome) hne
  · have hnone : hex2bin text (text.length / 2 : Nat) = [] := by
      rw [hex2bin, if_pos]
      right
      intro hsame
      unfold i32 at hsame
      rw [Int.bmod_def, Int.bmod_def] at hsame
      split_ifs at hsame <;> omega
    rw [hnone]
    exact iff_of_true ⟨rfl, Nat.zero_le _⟩ fun h => absurd h heven

theorem getDeviceProps_iff {cDevProp gDevProp : Option Bytes} {allocated : Bool} {capacity : Nat}
    (hlen : ∀ text, usedProp cDevProp gDevProp = some text → text.length < 2 ^ 32) :
    (getDeviceProps allocated cDevProp gDevProp).Exact capacity ↔
      (allocated = true → ∀ text, usedProp cDevProp gDevProp = some text → PropFits capacity text) := by
  rw [getDeviceProps]
  cases hused : usedProp cDevProp gDevProp with
  | none => exact iff_of_true ⟨rfl, Nat.zero_le _⟩ fun _ text h => by cases h
  | some text =>
      cases allocated with
      | false =>
          refine iff_of_true ⟨?_, ?_⟩ fun h => by cases h
          · rfl
          · exact Nat.zero_le _
      | true =>
          simp only [textProps_iff (hlen text hused), true_implies, Option.some.injEq, forall_eq']

/-- The bytes that are handed out for a text of digits, where there is memory for it. -/
theorem textProps_copied (hlen : text.length < 2 ^ 32) (hlong : 3 < text.length) (hdigits : ∀ c ∈ text, isHexDigit c = true)
    (h : HexPairs values text) : (textProps true text).copied = DevProp.deviceProps text := by
  have hcnt : text.length % 2 ^ 32 / 2 = text.length / 2 := by rw [Nat.mod_eq_of_lt hlen]
  have hhalf : i32 ((text.length / 2 : Nat) : Int) = (text.length / 2 : Nat) := i32_natCast (by omega)
  have hlength := h.length_eq_iff.mpr hdigits
  have hbin : hex2bin text (text.length / 2 : Nat) = values := by
    rw [h.hex2bin_iff]
    refine Or.inr ⟨by omega, ?_, by omega⟩
    rw [show ((text.length / 2 : Nat) : Int) * 2 = text.length by omega]
  rw [textProps, if_pos rfl, hcnt, hhalf, hbin, DevProp.deviceProps, if_pos hlong, hbin, if_pos (by omega),
    show text.length / 2 - values.length = 0 by omega, List.replicate_zero, List.append_nil]

/-! ### The three functions -/

/-- A text is decoded where its length is twice the length asked for; `GetDataSetting` reports the size of what it gives back
but for data that could not be copied; `GetDeviceProps` reports what it decoded, within the buffer, for texts without
separators that leave room. -/
theorem hexDecoding_iff (h : HexPairs values text) (len : Int) (pool : Nat → Bool) (dict : Option Node) (propName : Bytes)
    (s : SettingsData) (allocated : Bool) (capacity : Nat) {cDevProp gDevProp : Option Bytes}
    (hlen : ∀ prop, usedProp cDevProp gDevProp = some prop → prop.length < 2 ^ 32) :
    (hex2bin text len = values ↔
        values = [] ∨ (0 < len ∧ i32 (text.length : Int) = i32 (len * 2) ∧ (values.length : Int) ≤ len)) ∧
      (DataSettingExact pool dict propName s ↔
        ¬(plNodeGetKind (plDictFindKind dict propName .any) = .data ∧ pool s.allocs = false ∧
          plNodeGetSize (plDictFindKind dict propName .any) ≠ 0)) ∧
      ((getDeviceProps allocated cDevProp gDevProp).Exact capacity ↔
        (allocated = true → ∀ prop, usedProp cDevProp gDevProp = some prop → PropFits capacity prop)) :=
  ⟨h.hex2bin_iff len, getDataSetting_iff pool dict propName s, getDeviceProps_iff hlen⟩

/-- `0A 0B`. -/
def spacedText : Bytes := ascii "0A 0B"

theorem spacedText_pairs : HexPairs [10, 11] spacedText := by
  have htext : spacedText = [48, 65, 32, 48, 66] := by decide +kernel
  have hlast : HexPairs [11] [48, 66] := .pair (c := 48) (d := 66) (by decide) (by decide) .nil
  have hrest : HexPairs [11] [32, 48, 66] := .separator (c := 32) (by decide) hlast
  rw [htext]
  exact .pair (c := 48) (d := 65) (by decide) (by decide) hrest

theorem spacedText_decoding :
    (hex2bin spacedText 2 = [10, 11] ↔
        [10, 11] = ([] : Bytes) ∨
          (0 < (2 : Int) ∧ i32 (spacedText.length : Int) = i32 (2 * 2) ∧ (([10, 11] : Bytes).length : Int) ≤ 2)) ∧
      (DataSettingExact (fun _ => false) none [] zeroSettings ↔
        ¬(plNodeGetKind (plDictFindKind none [] .any) = .data ∧ false = false ∧
          plNodeGetSize (plDictFindKind none [] .any) ≠ 0)) ∧
      ((getDeviceProps true (some spacedText) none).Exact 1 ↔
        (true = true → ∀ prop, usedProp (some spacedText) none = some prop → PropFits 1 prop)) := by
  refine hexDecoding_iff spacedText_pairs 2 (fun _ => false) none [] zeroSettings true 1 ?_
  intro prop hprop
  have hused : usedProp (some spacedText) none = some spacedText := by decide +kernel
  rw [hused, Option.some.injEq] at hprop
  rw [← hprop]
  decide +kernel

/-- Two pairs with one separator are not decoded, and of four digits two bytes are copied where there is room for one. -/
theorem fourDigits_overflow :
    (¬∀ values text, HexPairs values text → hex2bin text (text.length / 2 : Nat) = values) ∧
      ¬∀ (allocated : Bool) (capacity : Nat) (cDevProp gDevProp : Option Bytes),
        (getDeviceProps allocated cDevProp gDevProp).Exact capacity := by
  constructor
  · intro hdecodes
    exact absurd (hdecodes [10, 11] spacedText spacedText_pairs) (by decide +kernel)
  · intro hexact
    exact absurd (hexact true 1 (some (ascii "0A0B")) none).2 (by decide +kernel)

end BareBoot
