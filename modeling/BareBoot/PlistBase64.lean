import Mathlib.Tactic

/-! The base64 codec of `b64/cencode.c` and `b64/cdecode.c` and its wrappers in
`plist_helpers_edk2.c`. The C code resumes a block in the middle of a four-character group by jumping
into its loop; here the step reached and the byte under construction are arguments. The bit patterns
it joins with `|` are disjoint, so they are added. -/

namespace BareBoot.Plist

abbrev Bytes := List UInt8

/-- The bytes of an ASCII literal. -/
def ascii (s : String) : Bytes := s.toList.map fun c => UInt8.ofNat c.toNat

/-! ### Encoding -/

def encoding : Bytes := ascii "ABCDEFGHIJKLMNOPQRSTUVWXYZabcdefghijklmnopqrstuvwxyz0123456789+/"

/-- `'='`, also what a value out of range is written as. -/
def padChar : UInt8 := 61

def base64EncodeValue (valueIn : Nat) : UInt8 :=
  if valueIn > 63 then padChar else encoding.getD valueIn padChar

inductive EncodeStep where
  | A | B | C
  deriving DecidableEq, Repr

/-- The characters written and the state left for `base64EncodeBlockend`. -/
def base64EncodeBlock : EncodeStep → Nat → Bytes → Bytes × EncodeStep × Nat
  | step, result, [] => ([], step, result)
  | .A, _, fragment :: rest =>
      let f := fragment.toNat
      let (code, state) := base64EncodeBlock .B (f % 4 * 16) rest
      (base64EncodeValue (f / 4) :: code, state)
  | .B, result, fragment :: rest =>
      let f := fragment.toNat
      let (code, state) := base64EncodeBlock .C (f % 16 * 4) rest
      (base64EncodeValue (result + f / 16) :: code, state)
  | .C, result, fragment :: rest =>
      let f := fragment.toNat
      let (code, state) := base64EncodeBlock .A (f % 64) rest
      (base64EncodeValue (result + f / 64) :: base64EncodeValue (f % 64) :: code, state)

def base64EncodeBlockend : EncodeStep × Nat → Bytes
  | (.A, _) => []
  | (.B, result) => [base64EncodeValue result, padChar, padChar]
  | (.C, result) => [base64EncodeValue result, padChar]

/-- The text written for a non-empty datum. -/
def base64Encode (idat : Bytes) : Bytes :=
  let (code, state) := base64EncodeBlock .A 0 idat
  code ++ base64EncodeBlockend state

/-! ### Decoding -/

/-- The table `decoding`; `none` stands for its negative entries. -/
def decoding : List (Option Nat) :=
  [some 62, none, none, none, some 63] ++ (List.range 10).map (fun i => some (52 + i)) ++
    List.replicate 7 none ++ (List.range 26).map some ++
    List.replicate 6 none ++ (List.range 26).map fun i => some (26 + i)

/-- The value of a character, `none` when the C code gets a negative number. `char` is signed, so the
bytes from 128 on are below `'+'`, also after the subtraction wraps. The bound check lets the size of
the table itself pass: `'{'` reads the byte that lies behind the table. -/
def base64DecodeValue (afterTable valueIn : UInt8) : Option Nat :=
  let v := (valueIn - 43).toNat
  if v ≥ 128 ∨ v > decoding.length then none
  else if v = decoding.length then (if afterTable.toNat < 128 then some afterTable.toNat else none)
  else decoding.getD v none

inductive DecodeStep where
  | a | b | c | d
  deriving DecidableEq, Repr

/-- The bytes completed; the last one under construction is not counted in the result. -/
def base64DecodeBlock (afterTable : UInt8) : DecodeStep → Nat → Bytes → Bytes
  | _, _, [] => []
  | step, plainchar, codechar :: rest =>
      match base64DecodeValue afterTable codechar with
      | none => base64DecodeBlock afterTable step plainchar rest
      | some f =>
          match step with
          | .a => base64DecodeBlock afterTable .b (f % 64 * 4) rest
          | .b => UInt8.ofNat (plainchar + f / 16 % 4) ::
              base64DecodeBlock afterTable .c (f % 16 * 16) rest
          | .c => UInt8.ofNat (plainchar + f / 4 % 16) ::
              base64DecodeBlock afterTable .d (f % 4 * 64) rest
          | .d => UInt8.ofNat (plainchar + f % 64) :: base64DecodeBlock afterTable .a 0 rest

/-- What `_plb64decode` returns for the characters it is given. -/
def base64Decode (afterTable : UInt8) (idat : Bytes) : Bytes :=
  base64DecodeBlock afterTable .a 0 idat

theorem length_base64DecodeBlock_le (afterTable : UInt8) (step : DecodeStep) (plainchar : Nat)
    (idat : Bytes) : (base64DecodeBlock afterTable step plainchar idat).length ≤ idat.length := by
  induction idat generalizing step plainchar with
  | nil => simp [base64DecodeBlock]
  | cons c idat ih =>
      rw [base64DecodeBlock]
      rcases base64DecodeValue afterTable c with _ | f
      · exact Nat.le_succ_of_le (ih _ _)
      · cases step <;> simp only [List.length_cons]
        · exact Nat.le_succ_of_le (ih _ _)
        all_goals exact Nat.succ_le_succ (ih _ _)

/-! ### The decoder undoes the encoder -/

theorem decoding_length : decoding.length = 80 := by decide

private theorem decoding_encoding : ∀ v : Fin 64,
    (base64EncodeValue v.val - 43).toNat < 80 ∧
      decoding.getD (base64EncodeValue v.val - 43).toNat none = some v.val := by
  decide +kernel

theorem base64DecodeValue_encodeValue {v : Nat} (hv : v < 64) (p : UInt8) :
    base64DecodeValue p (base64EncodeValue v) = some v := by
  obtain ⟨hlt, hget⟩ := decoding_encoding ⟨v, hv⟩
  simp only at hlt hget
  have h1 : ¬((base64EncodeValue v - 43).toNat ≥ 128 ∨
      (base64EncodeValue v - 43).toNat > decoding.length) := by
    rw [decoding_length]
    omega
  have h2 : (base64EncodeValue v - 43).toNat ≠ decoding.length := by
    rw [decoding_length]
    omega
  simp only [base64DecodeValue, if_neg h1, if_neg h2, hget]

theorem base64DecodeBlock_value (p : UInt8) (step : DecodeStep) (plainchar v : Nat) (hv : v < 64)
    (rest : Bytes) :
    base64DecodeBlock p step plainchar (base64EncodeValue v :: rest) =
      match step with
      | .a => base64DecodeBlock p .b (v * 4) rest
      | .b => UInt8.ofNat (plainchar + v / 16) :: base64DecodeBlock p .c (v % 16 * 16) rest
      | .c => UInt8.ofNat (plainchar + v / 4) :: base64DecodeBlock p .d (v % 4 * 64) rest
      | .d => UInt8.ofNat (plainchar + v) :: base64DecodeBlock p .a 0 rest := by
  rw [base64DecodeBlock, base64DecodeValue_encodeValue hv]
  have h64 : v % 64 = v := Nat.mod_eq_of_lt hv
  have h16 : v / 16 % 4 = v / 16 := Nat.mod_eq_of_lt (by omega)
  have h4 : v / 4 % 16 = v / 4 := Nat.mod_eq_of_lt (by omega)
  cases step <;> simp only [h64, h16, h4]

/-- A character that is skipped: white space, the padding, `NUL`, `'<'`, `'/'` is not one. -/
def SkippedChar (c : UInt8) : Prop := ∀ p, base64DecodeValue p c = none

theorem base64DecodeBlock_skipped (p : UInt8) (step : DecodeStep) (plainchar : Nat) {junk : Bytes}
    (h : ∀ c ∈ junk, SkippedChar c) : base64DecodeBlock p step plainchar junk = [] := by
  induction junk with
  | nil => rfl
  | cons c junk ih =>
      rw [base64DecodeBlock, h c (by simp) p]
      exact ih fun c hc => h c (List.mem_cons_of_mem _ hc)

/-- Skipped characters behind a text add nothing to what it decodes to. -/
theorem base64DecodeBlock_append_skipped (p : UInt8) (step : DecodeStep) (plainchar : Nat) (idat : Bytes) {junk : Bytes}
    (h : ∀ c ∈ junk, SkippedChar c) :
    base64DecodeBlock p step plainchar (idat ++ junk) = base64DecodeBlock p step plainchar idat := by
  induction idat generalizing step plainchar with
  | nil => exact base64DecodeBlock_skipped p step plainchar h
  | cons c idat ih =>
      rw [List.cons_append, base64DecodeBlock, base64DecodeBlock]
      rcases base64DecodeValue p c with _ | f
      · exact ih step plainchar
      · cases step <;> simp only [ih]

theorem skippedChar_pad : SkippedChar padChar := fun _ => rfl

theorem skippedChar_nul : SkippedChar 0 := fun _ => rfl

private theorem ofNat_eq_of_toNat {b : UInt8} {n : Nat} (h : n = b.toNat) : UInt8.ofNat n = b := by
  rw [h, UInt8.ofNat_toNat]

/-- Decoding what the encoder writes gives the datum back, whatever skipped characters follow. -/
theorem base64Decode_encode (p : UInt8) (junk : Bytes) (hjunk : ∀ c ∈ junk, SkippedChar c) :
    ∀ idat : Bytes, base64Decode p (base64Encode idat ++ junk) = idat
  | [] => base64DecodeBlock_skipped p .a 0 hjunk
  | [x] => by
      have hx := x.toNat_lt
      have hpad : ∀ c ∈ padChar :: padChar :: junk, SkippedChar c := by
        intro c hc
        rcases List.mem_cons.1 hc with rfl | hc
        · exact skippedChar_pad
        · rcases List.mem_cons.1 hc with rfl | hc
          · exact skippedChar_pad
          · exact hjunk c hc
      simp only [base64Decode, base64Encode, base64EncodeBlock, base64EncodeBlockend, List.cons_append,
        List.nil_append]
      rw [base64DecodeBlock_value p .a 0 _ (by omega)]
      simp only
      rw [base64DecodeBlock_value p .b _ _ (by omega)]
      simp only
      rw [base64DecodeBlock_skipped p _ _ hpad, ofNat_eq_of_toNat (b := x) (by omega)]
  | [x, y] => by
      have hx := x.toNat_lt
      have hy := y.toNat_lt
      have hpad : ∀ c ∈ padChar :: junk, SkippedChar c := by
        intro c hc
        rcases List.mem_cons.1 hc with rfl | hc
        · exact skippedChar_pad
        · exact hjunk c hc
      simp only [base64Decode, base64Encode, base64EncodeBlock, base64EncodeBlockend, List.cons_append,
        List.nil_append]
      rw [base64DecodeBlock_value p .a 0 _ (by omega)]
      simp only
      rw [base64DecodeBlock_value p .b _ _ (by omega)]
      simp only
      rw [base64DecodeBlock_value p .c _ _ (by omega)]
      simp only
      rw [base64DecodeBlock_skipped p _ _ hpad, ofNat_eq_of_toNat (b := x) (by omega),
        ofNat_eq_of_toNat (b := y) (by omega)]
  | x :: y :: z :: rest => by
      have hx := x.toNat_lt
      have hy := y.toNat_lt
      have hz := z.toNat_lt
      have ih := base64Decode_encode p junk hjunk rest
      have hstate : ∀ r, base64EncodeBlock .A r rest = base64EncodeBlock .A 0 rest ∨ rest = [] := by
        intro r
        cases rest with
        | nil => exact Or.inr rfl
        | cons w rest => exact Or.inl rfl
      have htail : ∀ r, base64DecodeBlock p .a 0 ((base64EncodeBlock .A r rest).1 ++
          (base64EncodeBlockend (base64EncodeBlock .A r rest).2 ++ junk)) = rest := by
        intro r
        rcases hstate r with h | rfl
        · rw [h, ← List.append_assoc]
          exact ih
        · exact base64DecodeBlock_skipped p .a 0 hjunk
      simp only [base64Decode, base64Encode, base64EncodeBlock, List.cons_append, List.append_assoc]
      rw [base64DecodeBlock_value p .a 0 _ (by omega)]
      simp only
      rw [base64DecodeBlock_value p .b _ _ (by omega)]
      simp only
      rw [base64DecodeBlock_value p .c _ _ (by omega)]
      simp only
      rw [base64DecodeBlock_value p .d _ _ (by omega)]
      simp only
      rw [htail, ofNat_eq_of_toNat (b := x) (by omega), ofNat_eq_of_toNat (b := y) (by omega),
        ofNat_eq_of_toNat (b := z) (by omega)]

/-- The characters the encoder uses. -/
def IsBase64Char (c : UInt8) : Prop := c = padChar ∨ c ∈ encoding

theorem isBase64Char_encodeValue (v : Nat) : IsBase64Char (base64EncodeValue v) := by
  unfold base64EncodeValue
  split
  · exact Or.inl rfl
  · rename_i h
    have hlen : encoding.length = 64 := by decide
    have hlt : v < encoding.length := by omega
    rw [List.getD_eq_getElem?_getD, List.getElem?_eq_getElem hlt]
    exact Or.inr (List.getElem_mem hlt)

theorem isBase64Char_encodeBlock (step : EncodeStep) (result : Nat) (idat : Bytes) :
    ∀ c ∈ (base64EncodeBlock step result idat).1, IsBase64Char c := by
  induction idat generalizing step result with
  | nil => cases step <;> simp [base64EncodeBlock]
  | cons f rest ih =>
      intro c hc
      cases step <;> simp only [base64EncodeBlock, List.mem_cons] at hc
      · rcases hc with rfl | hc
        · exact isBase64Char_encodeValue _
        · exact ih _ _ c hc
      · rcases hc with rfl | hc
        · exact isBase64Char_encodeValue _
        · exact ih _ _ c hc
      · rcases hc with rfl | rfl | hc
        · exact isBase64Char_encodeValue _
        · exact isBase64Char_encodeValue _
        · exact ih _ _ c hc

theorem isBase64Char_encode (idat : Bytes) : ∀ c ∈ base64Encode idat, IsBase64Char c := by
  intro c hc
  simp only [base64Encode, List.mem_append] at hc
  rcases hc with hc | hc
  · exact isBase64Char_encodeBlock _ _ _ c hc
  · rcases hs : (base64EncodeBlock .A 0 idat).2 with ⟨step, result⟩
    rw [hs] at hc
    cases step <;> simp only [base64EncodeBlockend, List.mem_cons, List.not_mem_nil, or_false] at hc
    · rcases hc with rfl | rfl | rfl
      · exact isBase64Char_encodeValue _
      · exact Or.inl rfl
      · exact Or.inl rfl
    · rcases hc with rfl | rfl
      · exact isBase64Char_encodeValue _
      · exact Or.inl rfl

end BareBoot.Plist
