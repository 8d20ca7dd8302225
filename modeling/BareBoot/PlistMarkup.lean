import BareBoot.PlistText

/-! Text made of markup: single tags, and elements with a text between their tags. Markup whose text
holds no `'<'` is one token each, whatever blanks stand around it. A text that does hold one is never
read back as it stands. -/

namespace BareBoot.Plist

/-! ### Characters -/

/-- Bytes that neither end the text nor start a tag. -/
def Unmarked (b : Bytes) : Prop := ∀ c ∈ b, c ≠ 0 ∧ c ≠ 60

instance : DecidablePred Unmarked := fun b => inferInstanceAs (Decidable (∀ c ∈ b, c ≠ 0 ∧ c ≠ 60))

theorem unmarked_nil : Unmarked [] := by simp [Unmarked]

theorem Unmarked.append {a b : Bytes} (ha : Unmarked a) (hb : Unmarked b) : Unmarked (a ++ b) := by
  intro c hc
  rcases List.mem_append.1 hc with hc | hc
  · exact ha c hc
  · exact hb c hc

theorem cstr_of_not_mem {b : Bytes} (h : (0 : UInt8) ∉ b) : cstr b = b := by
  rw [cstr, List.takeWhile_eq_self_iff]
  intro c hc
  have : c ≠ 0 := fun h0 => h (h0 ▸ hc)
  simpa using this

theorem Unmarked.cstr {b : Bytes} (h : Unmarked b) : cstr b = b := cstr_of_not_mem fun h0 => (h 0 h0).1 rfl

/-! ### Pieces -/

/-- Markup: a tag alone, or an element with the text between its tags. -/
inductive Piece where
  | mark (name : Bytes)
  | text (name body : Bytes)
  deriving DecidableEq, Repr

/-- What the parser looks for behind a start tag. -/
def endName : Markup → Bytes
  | .key => ascii "key"
  | .string => ascii "string"
  | .integer => ascii "integer"
  | .data => ascii "data"
  | .date => ascii "date"
  | _ => []

def Piece.bytes : Piece → Bytes
  | .mark name => 60 :: (name ++ [62])
  | .text name body => 60 :: (name ++ 62 :: (body ++ 60 :: (47 :: endName (markupOf name) ++ [62])))

def markToken : Markup → Token
  | .plist => .plist
  | .list type empty => if empty then .element (listLabel type) else .opens (listLabel type)
  | .boolean type => .element (.bool (type = .true))
  | _ => .unknown

def textToken (body : Bytes) : Markup → Token
  | .key => .key body
  | .string => .element (.string body)
  | .date => .element (.date [])
  | .data => .element (.data (base64Decode 0 body))
  | .integer => .element (.integer (plstr2vlong (body ++ integerTail) (body.length + 10)))
  | _ => .unknown

def Piece.token : Piece → Token
  | .mark name => markToken (markupOf name)
  | .text name body => textToken body (markupOf name)

/-- Text of a data element that is decoded within its symbol. -/
def Decodable (body : Bytes) : Prop := 123 ∉ body ∧ body.length + 7 < 2 ^ 31

/-- The parser reads the piece as one token. -/
def Piece.Good : Piece → Prop
  | .mark name => (∀ c ∈ name, c ≠ 0 ∧ c ≠ 62) ∧ endName (markupOf name) = []
  | .text name body =>
      (∀ c ∈ name, c ≠ 0 ∧ c ≠ 62) ∧ endName (markupOf name) ≠ [] ∧ Unmarked body ∧
        (markupOf name = .data → Decodable body)

theorem matchEnd_append {tag body : Bytes} (hbody : Unmarked body) (htag : ∀ c ∈ tag, c ≠ 0 ∧ c ≠ 62) (rest : Bytes) :
    matchEnd tag (body ++ 60 :: (47 :: tag ++ 62 :: rest)) = some (body, rest) := by
  have hname : ∀ c ∈ (47 :: tag : Bytes), c ≠ 0 ∧ c ≠ 62 := by
    intro c hc
    rcases List.mem_cons.1 hc with rfl | hc
    · decide
    · exact htag c hc
  rw [matchEnd_of_some (nextTag_append hbody hname rest), if_pos rfl]

theorem endName_clean (markup : Markup) : ∀ c ∈ endName markup, c ≠ 0 ∧ c ≠ 62 := by
  cases markup <;> simp only [endName] <;> decide +kernel

theorem base64DecodeBlock_append (p : UInt8) (step : DecodeStep) (plainchar : Nat) (code : Bytes) {junk : Bytes}
    (h : ∀ c ∈ junk, SkippedChar c) :
    base64DecodeBlock p step plainchar (code ++ junk) = base64DecodeBlock p step plainchar code := by
  induction code generalizing step plainchar with
  | nil => exact base64DecodeBlock_skipped p step plainchar h
  | cons c code ih =>
      rw [List.cons_append, base64DecodeBlock, base64DecodeBlock]
      rcases base64DecodeValue p c with _ | f
      · exact ih step plainchar
      · cases step <;> simp only [ih]

/-- A decodable text is decoded to what its characters stand for. -/
theorem dataToken_of_decodable (env : Env) (buffer : Nat) {body : Bytes} (hbody : Unmarked body)
    (h : Decodable body) : dataToken env buffer body = .element (.data (base64Decode 0 body)) := by
  have htake : (body ++ List.replicate 9 (0 : UInt8)).take (body.length + 7) = body ++ List.replicate 7 0 := by
    rw [List.take_append, List.take_of_length_le (by omega), Nat.add_sub_cancel_left, List.take_replicate]
    rfl
  have hsymbol : symbolBytes env buffer body (body.length + 7) = some (body ++ List.replicate 7 0) := by
    rw [symbolBytes, if_pos (by simp), htake]
  have hno : (123 : UInt8) ∉ body ++ List.replicate 7 0 := by
    simp [h.1]
  have hjunk : ∀ c ∈ List.replicate 7 (0 : UInt8), SkippedChar c := by
    intro c hc
    rw [List.eq_of_mem_replicate hc]
    exact skippedChar_nul
  rw [dataToken, if_pos h.2, hbody.cstr, hsymbol, Option.bind_some, decodedBytes, if_neg hno, base64Decode,
    base64DecodeBlock_append 0 .a 0 body hjunk, base64Decode]

theorem nextToken_piece (env : Env) (total : Nat) {before : Bytes} (hb : Unmarked before) {p : Piece} (hp : p.Good)
    (rest : Bytes) : nextToken env total (before ++ (p.bytes ++ rest)) = some (p.token, rest) := by
  cases p with
  | mark name =>
      obtain ⟨hname, hend⟩ := hp
      have htext : before ++ ((Piece.mark name).bytes ++ rest) = before ++ 60 :: (name ++ 62 :: rest) := by
        simp [Piece.bytes]
      rw [htext, nextToken, nextTag_append hb hname, Option.bind_some]
      show elementToken env total before name rest (markupOf name) = some (markToken (markupOf name), rest)
      revert hend
      cases markupOf name <;> intro hend <;> first | rfl | exact absurd hend (by decide)
  | text name body =>
      obtain ⟨hname, hend, hbody, hdata⟩ := hp
      have htext : before ++ ((Piece.text name body).bytes ++ rest) =
          before ++ 60 :: (name ++ 62 :: (body ++ 60 :: (47 :: endName (markupOf name) ++ 62 :: rest))) := by
        simp [Piece.bytes]
      have hmatch := matchEnd_append hbody (endName_clean (markupOf name)) rest
      rw [htext, nextToken, nextTag_append hb hname, Option.bind_some]
      show elementToken env total before name _ (markupOf name) = some (textToken body (markupOf name), rest)
      generalize markupOf name = markup at hend hdata hmatch ⊢
      cases markup with
      | plist | list | boolean | unknown => exact absurd rfl hend
      | key =>
          simp only [elementToken, textToken, endName] at hmatch ⊢
          rw [hmatch, Option.map_some, hbody.cstr]
      | string =>
          simp only [elementToken, textToken, endName] at hmatch ⊢
          rw [hmatch, Option.map_some, hbody.cstr]
      | date =>
          simp only [elementToken, textToken, endName] at hmatch ⊢
          rw [hmatch, Option.map_some]
      | data =>
          simp only [elementToken, textToken, endName] at hmatch ⊢
          rw [hmatch, Option.map_some, dataToken_of_decodable env _ hbody (hdata rfl)]
      | integer =>
          have hhead : body.head? ≠ some 60 := by
            intro h
            exact (hbody 60 (List.mem_of_mem_head? h)).2 rfl
          simp only [elementToken, textToken, endName] at hmatch ⊢
          rw [hmatch, Option.map_some, integerToken, if_neg hhead]

/-! ### Runs of pieces -/

/-- A piece with the blanks around it. -/
structure Slot where
  before : Bytes
  piece : Piece
  behind : Bytes
  deriving DecidableEq, Repr

def Slot.bytes (s : Slot) : Bytes := s.before ++ (s.piece.bytes ++ s.behind)

structure Slot.Good (s : Slot) : Prop where
  before : Unmarked s.before
  piece : s.piece.Good
  behind : Unmarked s.behind

def slotsText (slots : List Slot) : Bytes := (slots.map Slot.bytes).flatten

@[simp] theorem slotsText_nil : slotsText [] = [] := rfl

@[simp] theorem slotsText_cons (s : Slot) (slots : List Slot) :
    slotsText (s :: slots) = s.bytes ++ slotsText slots := rfl

@[simp] theorem slotsText_append (a b : List Slot) : slotsText (a ++ b) = slotsText a ++ slotsText b := by
  simp [slotsText]

/-- The blanks behind the last of some slots, or those there were before. -/
def lastBlanks (blanks : Bytes) : List Slot → Bytes
  | [] => blanks
  | s :: slots => lastBlanks s.behind slots

theorem unmarked_lastBlanks {blanks : Bytes} (hb : Unmarked blanks) {slots : List Slot} (h : ∀ s ∈ slots, s.Good) :
    Unmarked (lastBlanks blanks slots) := by
  induction slots generalizing blanks with
  | nil => exact hb
  | cons s slots ih =>
      exact ih (h s List.mem_cons_self).behind fun t ht => h t (List.mem_cons_of_mem _ ht)

/-- Good slots are read as their tokens. -/
theorem tokens_slots (env : Env) (total : Nat) {blanks : Bytes} (hb : Unmarked blanks) {slots : List Slot}
    (h : ∀ s ∈ slots, s.Good) (rest : Bytes) :
    tokens env total (blanks ++ (slotsText slots ++ rest)) =
      slots.map (·.piece.token) ++ tokens env total (lastBlanks blanks slots ++ rest) := by
  induction slots generalizing blanks with
  | nil => rfl
  | cons s slots ih =>
      have hs := h s List.mem_cons_self
      have htext : blanks ++ (slotsText (s :: slots) ++ rest) =
          (blanks ++ s.before) ++ (s.piece.bytes ++ (s.behind ++ (slotsText slots ++ rest))) := by
        simp [Slot.bytes]
      rw [htext, tokens_of_some (nextToken_piece env total (hb.append hs.before) hs.piece _),
        ih hs.behind fun t ht => h t (List.mem_cons_of_mem _ ht)]
      rfl

/-! ### Texts that hold a tag -/

/-- A text whose next tag is closed reads as what stands before the `NUL`. -/
theorem cstr_closed {before name : Bytes} (hb : Unmarked before) (hn : ∀ c ∈ name, c ≠ 0 ∧ c ≠ 62) (rest : Bytes) :
    cstr (closed before name rest) = before ++ 60 :: name := by
  have hno : (0 : UInt8) ∉ before ++ 60 :: name := by
    intro h0
    rcases List.mem_append.1 h0 with h0 | h0
    · exact (hb 0 h0).1 rfl
    · rcases List.mem_cons.1 h0 with h0 | h0
      · cases h0
      · exact (hn 0 h0).1 rfl
  have hshape : closed before name rest = (before ++ 60 :: name) ++ 0 :: rest := by simp [closed]
  rw [hshape, cstr, List.takeWhile_append_of_pos, List.takeWhile_cons_of_neg (by simp), List.append_nil]
  intro c hc
  have : c ≠ 0 := fun h0 => hno (h0 ▸ hc)
  simpa using this

/-- The text found up to an end tag is not the text written, when that holds a `'<'`. -/
theorem cstr_matchEnd_ne {tag d w body rest : Bytes} (hnul : (0 : UInt8) ∉ d) (hmark : (60 : UInt8) ∈ d)
    (h : matchEnd tag (d ++ 60 :: w) = some (body, rest)) : cstr body ≠ d := by
  obtain ⟨d₁, d₂, rfl, hd₁⟩ := List.eq_append_cons_of_mem hmark
  have hclean : Unmarked d₁ := by
    intro c hc
    refine ⟨?_, ?_⟩
    · rintro rfl
      exact hnul (List.mem_append_left _ hc)
    · rintro rfl
      exact hd₁ hc
  have htext : d₁ ++ 60 :: d₂ ++ 60 :: w = d₁ ++ 60 :: (d₂ ++ 60 :: w) := by simp
  have hcut : cut 60 (d₁ ++ 60 :: d₂ ++ 60 :: w) = some (d₁, d₂ ++ 60 :: w) := by
    rw [htext, cut_append (by decide) hclean]
  rcases hname : cut 62 (d₂ ++ 60 :: w) with _ | ⟨name, r⟩
  · rw [matchEnd_of_none (by rw [nextTag, hcut, Option.bind_some, hname]; rfl)] at h
    cases h
  · obtain ⟨heq, hclean'⟩ := eq_of_cut hname
    have hnext : nextTag (d₁ ++ 60 :: d₂ ++ 60 :: w) = some (d₁, name, r) := by
      rw [nextTag, hcut, Option.bind_some, hname]
      rfl
    rw [matchEnd_of_some hnext] at h
    intro hsame
    by_cases hend : name = 47 :: tag
    · rw [if_pos hend] at h
      cases h
      rw [hclean.cstr] at hsame
      exact absurd (congrArg List.length hsame) (by simp)
    · rw [if_neg hend, Option.map_eq_some_iff] at h
      obtain ⟨⟨body', rest'⟩, -, h⟩ := h
      cases h
      rw [cstr_closed hclean hclean'] at hsame
      have hnames : name = d₂ := by simpa using hsame
      rw [hnames, List.append_cancel_left_eq] at heq
      cases heq

/-- An element whose text holds a `'<'` is never read as one with this text. -/
theorem nextToken_marked (env : Env) (total : Nat) {before name d : Bytes} (hb : Unmarked before)
    (hname : ∀ c ∈ name, c ≠ 0 ∧ c ≠ 62) (hkind : markupOf name = .key ∨ markupOf name = .string)
    (hnul : (0 : UInt8) ∉ d) (hmark : (60 : UInt8) ∈ d) (rest : Bytes) :
    nextToken env total (before ++ ((Piece.text name d).bytes ++ rest)) = none ∨
      ∃ d' rest', d' ≠ d ∧
        nextToken env total (before ++ ((Piece.text name d).bytes ++ rest)) =
          some (textToken d' (markupOf name), rest') := by
  have htext : before ++ ((Piece.text name d).bytes ++ rest) =
      before ++ 60 :: (name ++ 62 :: (d ++ 60 :: (47 :: endName (markupOf name) ++ 62 :: rest))) := by
    simp [Piece.bytes]
  rw [htext, nextToken, nextTag_append hb hname, Option.bind_some]
  simp only
  rcases hmatch : matchEnd (endName (markupOf name)) (d ++ 60 :: (47 :: endName (markupOf name) ++ 62 :: rest))
    with _ | ⟨body, rest'⟩
  · left
    rcases hkind with hkind | hkind <;> rw [hkind] at hmatch ⊢ <;> simp only [elementToken, endName] at hmatch ⊢ <;>
      rw [hmatch] <;> rfl
  · right
    refine ⟨cstr body, rest', cstr_matchEnd_ne hnul hmark hmatch, ?_⟩
    rcases hkind with hkind | hkind <;> rw [hkind] at hmatch ⊢ <;> simp only [elementToken, endName] at hmatch ⊢ <;>
      rw [hmatch] <;> rfl

end BareBoot.Plist
