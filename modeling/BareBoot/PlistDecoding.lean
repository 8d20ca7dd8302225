import BareBoot.PlistMarkup
import BareBoot.PlistElement
import BareBoot.PlistSoundness

/-! Decoding of data elements. The decoder is given a symbol, which holds the element's text up to the
first `'>'` of markup inside it, and the length of the whole text with its end tag. The symbol's allocation
has nine bytes behind the text, so that this length fits as long as the markup ends the text. A longer text
is decoded with bytes of whatever lies behind the symbol, and a `'{'` with the byte behind the table. -/

namespace BareBoot.Plist

open Exec

/-! ### The own text of an element -/

/-- What the symbol gets of an element's text: the first markup inside loses its `'>'`, and the text
ends there. -/
def interned (own : Bytes) : Bytes :=
  match nextTag own with
  | none => own
  | some (before, name, _) => before ++ 60 :: name

theorem cstr_of_matchEnd {tag u body rest : Bytes} (h : matchEnd tag u = some (body, rest)) :
    cstr body = interned (u.take body.length) := by
  rcases hu : nextTag u with _ | ⟨before, name, r⟩
  · rw [matchEnd_of_none hu] at h
    cases h
  · obtain ⟨htext, hb, hn⟩ := eq_of_nextTag hu
    rw [matchEnd_of_some hu] at h
    by_cases hname : name = 47 :: tag
    · rw [if_pos hname] at h
      cases h
      have hown : u.take body.length = body := by rw [htext, List.take_left]
      have hnone : nextTag body = none := by
        rw [nextTag, cut_eq_none fun hmem => (hb 60 hmem).2 rfl]
        rfl
      rw [hown, interned, hnone]
      exact Unmarked.cstr hb
    · rw [if_neg hname, Option.map_eq_some_iff] at h
      obtain ⟨⟨body', rest'⟩, -, h⟩ := h
      cases h
      have hown : u.take (closed before name body').length = before ++ 60 :: (name ++ 62 :: r.take body'.length) := by
        have hsplit : u = (before ++ 60 :: name) ++ 62 :: r := by
          rw [htext, List.append_assoc, List.cons_append]
        have hlen : (closed before name body').length = (before ++ 60 :: name).length + (body'.length + 1) := by
          rw [length_closed, List.length_append, List.length_cons]
          omega
        rw [hsplit, hlen, List.take_length_add_append, List.take_succ_cons, List.append_assoc, List.cons_append]
      rw [cstr_closed hb hn, hown, interned, nextTag_append hb hn]

/-- The text is short enough for an `int`, markup inside ends it or stands one character before its end,
and no `'{'` is in the part the symbol gets. -/
structure SelfContained (own : Bytes) : Prop where
  narrow : own.length + 7 < 2 ^ 31
  held : own.length ≤ (interned own).length + 2
  plain : 123 ∉ interned own

/-! ### What is read -/

/-- Decoding read, or would have read, what does not belong to the element. -/
def Event.Overreads : Event → Prop
  | .behindSymbol | .unreadable | .wideData => True
  | _ => False

/-- The run is not stopped and reads nothing that does not belong to the element, or `blame` says why. -/
abbrev Inside {α : Type} (blame : Prop) (x : ParserM α) (s : Parser) (Q : α → Parser → Prop) : Prop :=
  Under (fun e => ¬e.Overreads) (fun _ => True) (fun _ => False) blame x s Q

section Inside
variable {blame : Prop} {env : Env}

theorem emit_inside {e : Event} (he : ¬e.Overreads) (s : Parser) :
    Inside blame (emit e) s fun _ t => t = s :=
  Under.emit (fun _ => ⟨trivial, rfl⟩) fun h => absurd he h

theorem allocate_inside (pool : Pool) (s : Parser) :
    Inside blame (allocate env pool) s fun ok t =>
      t = { s with allocs := s.allocs + 1 } ∧ (ok = false → ¬env.Ample) := by
  refine Under.get_bind (Under.modify_bind ?_)
  by_cases h : env.alloc s.allocs = true
  · rw [if_pos h]
    refine Under.bind (emit_inside (e := .allocated pool) id _) ?_
    rintro _ _ rfl
    exact Under.pure ⟨rfl, fun h => nomatch h⟩
  · rw [if_neg h]
    exact Under.pure ⟨rfl, fun _ hample => h (hample.1 _)⟩

theorem plistXmlNewTag_inside {s : Parser} (hfree : ∀ a, s.tagsFree = some a → (s.tagAt a).isSome) :
    Inside blame (plistXmlNewTag env) s fun r t => Kept s t ∧
      match r with
      | none => ¬env.Ample
      | some a => (t.tagAt a).isSome := by
  refine Under.get_bind ?_
  rcases hhead : s.tagsFree with _ | a
  · refine Under.bind (allocate_inside .tag s) ?_
    rintro (_ | _) _ ⟨rfl, hok⟩
    · exact Under.pure ⟨⟨rfl, rfl⟩, hok rfl⟩
    · rw [if_pos rfl]
      refine Under.modify_bind (Under.pure ⟨⟨rfl, rfl⟩, ?_⟩)
      show (TagStore.tagAt ⟨s.tags ++ [some zeroTag], s.tagsFree⟩ s.tags.length).isSome
      rw [TagStore.tagAt_push, if_pos rfl]
      rfl
  · obtain ⟨tag, htag⟩ := Option.isSome_iff_exists.1 (hfree a hhead)
    refine Under.bind_eq (readTag_spec htag) (Under.modify_bind (Under.pure ⟨⟨rfl, rfl⟩, ?_⟩))
    show (s.tagAt a).isSome
    rw [htag]
    rfl

theorem plistXmlNewSymbol_inside {s : Parser} {buffer : Nat} {string : Bytes}
    (hs : readString buffer s = ⟨.ok string, s, []⟩) (hlive : s.danglingSymbols = false) :
    Inside blame (plistXmlNewSymbol env buffer) s fun r t =>
      t.toTagStore = s.toTagStore ∧ (r = some string ∨ r = none ∧ ¬env.Ample) := by
  refine Under.bind_eq hs (Under.bind_eq (liveSymbols_spec hlive) ?_)
  rcases bumpSymbol string s.symbols with _ | symbols
  · refine Under.bind (allocate_inside .symbol s) ?_
    rintro (_ | _) _ ⟨rfl, hok⟩
    · exact Under.pure ⟨rfl, Or.inr ⟨rfl, hok rfl⟩⟩
    · rw [if_pos rfl]
      by_cases hcpy : env.strcpy string.length = true
      · rw [if_pos hcpy]
        exact Under.modify_bind (Under.pure ⟨rfl, Or.inl rfl⟩)
      · rw [if_neg hcpy]
        refine Under.bind (emit_inside (e := .released .symbol) id _) ?_
        rintro _ _ rfl
        exact Under.pure ⟨rfl, Or.inr ⟨rfl, fun hample => hcpy (hample.2 _)⟩⟩
  · exact Under.modify_bind (Under.pure ⟨rfl, Or.inl rfl⟩)

theorem fillTag_inside {s : Parser} {a : Nat} {tag : Tag} (htag : s.tagAt a = some tag) (f : Tag → Tag) :
    Inside blame (fillTag a f) s fun _ t => t.tagAt a = some (f tag) := by
  obtain ⟨u, hwrite, -, -, -, hat⟩ := writeTag_spec htag (some (f tag))
  refine Under.bind_eq (readTag_spec htag) (Under.bind_eq hwrite (Under.get_bind ?_))
  refine Under.bind (emit_inside (e := .stored u.toTagStore) id u) ?_
  rintro _ u rfl
  refine (emit_inside (e := .counted u.symbols u.toTagStore) id u).mono id ?_
  rintro _ u rfl
  rw [hat, if_pos rfl]

/-- A text the symbol's allocation has room for is decoded by itself. -/
theorem base64Decode_held (string : Bytes) {count : Nat} (hle : string.length ≤ count) :
    base64Decode 0 ((string ++ List.replicate 9 0).take count) = base64Decode 0 string := by
  rw [List.take_append, List.take_of_length_le hle]
  refine base64DecodeBlock_append_skipped 0 .a 0 string ?_
  intro c hc
  rw [List.eq_of_mem_replicate (List.mem_of_mem_take hc)]
  exact skippedChar_nul

/-- Within the symbol's allocation the decoder reads the text and zeros. -/
theorem readSymbol_held (buffer : Nat) {string : Bytes} {count : Nat} (h : count ≤ string.length + 9) :
    readSymbol env buffer string count = pure ((string ++ List.replicate 9 0).take count) := by
  have hfits : count ≤ (string ++ List.replicate 9 (0 : UInt8)).length := by
    rwa [List.length_append, List.length_replicate]
  unfold readSymbol
  exact if_pos hfits

theorem plb64decode_inside {string : Bytes} {count : Nat} (hpos : 0 < count) (hnarrow : count < 2 ^ 31)
    (hle : string.length ≤ count) (hheld : count ≤ string.length + 9) (hplain : 123 ∉ string) (buffer : Nat)
    (s : Parser) :
    Inside blame (plb64decode env buffer (some string) count) s fun r t =>
      t.toTagStore = s.toTagStore ∧ (r = some (base64Decode 0 string) ∨ r = none ∧ ¬env.Ample) := by
  unfold plb64decode
  simp only
  rw [if_neg (by omega)]
  refine Under.bind (allocate_inside .datum s) ?_
  rintro (_ | _) _ ⟨rfl, hok⟩
  · exact Under.pure ⟨rfl, Or.inr ⟨rfl, hok rfl⟩⟩
  · have hno : 123 ∉ (string ++ List.replicate 9 (0 : UInt8)).take count := by
      intro hmem
      rcases List.mem_append.1 (List.mem_of_mem_take hmem) with hmem | hmem
      · exact hplain hmem
      · exact absurd (List.eq_of_mem_replicate hmem) (by decide)
    have hdecode : decodeSymbol env buffer string count = pure (base64Decode 0 string) := by
      rw [decodeSymbol, readSymbol_held buffer hheld]
      show (if 123 ∈ (string ++ List.replicate 9 (0 : UInt8)).take count then _ else _) = _
      rw [if_neg hno, base64Decode_held string hle]
    rw [if_pos rfl, if_pos hnarrow, hdecode]
    refine Under.bind_eq (pure_apply _ _) (Under.bind (emit_inside (e := .decoded) id _) ?_)
    rintro _ _ rfl
    exact Under.pure ⟨rfl, Or.inl rfl⟩

/-- A text that is not self-contained is decoded with bytes of something else, or not at all when these
cannot be read. -/
theorem plb64decode_overreads {string : Bytes} {count : Nat} (hample : env.Ample) (htable : env.behindTable = none)
    (hpos : 0 < count) (hle : string.length ≤ count)
    (h : ¬(count < 2 ^ 31 ∧ count ≤ string.length + 9 ∧ 123 ∉ string)) (buffer : Nat) (s : Parser) :
    Inside True (plb64decode env buffer (some string) count) s fun _ _ => False := by
  unfold plb64decode
  simp only
  rw [if_neg (by omega)]
  refine Under.bind (allocate_inside .datum s) ?_
  rintro (_ | _) _ ⟨rfl, hok⟩
  · exact absurd hample (hok rfl)
  · rw [if_pos rfl]
    by_cases hnarrow : count < 2 ^ 31
    · rw [if_pos hnarrow]
      refine Under.bind (Q := fun _ _ => False) ?_ fun _ _ h => h.elim
      by_cases hheld : count ≤ string.length + 9
      · have hbrace : 123 ∈ string := by
          by_contra hplain
          exact h ⟨hnarrow, hheld, hplain⟩
        have hmem : 123 ∈ (string ++ List.replicate 9 (0 : UInt8)).take count := by
          rw [List.take_append, List.take_of_length_le hle]
          exact List.mem_append_left _ hbrace
        rw [decodeSymbol, readSymbol_held buffer hheld]
        refine Under.bind_eq (pure_apply _ _) ?_
        rw [if_pos hmem, htable]
        exact Under.emit_bind (fun hg => absurd trivial hg) fun _ => trivial
      · have hbehind : ¬count ≤ (string ++ List.replicate 9 (0 : UInt8)).length := by
          rwa [List.length_append, List.length_replicate]
        refine Under.bind (Q := fun _ _ => False) ?_ fun _ _ h => h.elim
        unfold readSymbol
        simp only
        rw [if_neg hbehind]
        exact Under.emit_bind (fun hg => absurd trivial hg) fun _ => trivial
    · rw [if_neg hnarrow]
      exact Under.emit_bind (fun hg => absurd trivial hg) fun _ => trivial

end Inside

/-! ### Data elements -/

/-- The parser is at the text of a data element; `own` stands before the element's end tag. -/
structure AtData (s : Parser) (place : Nat) (own : Bytes) : Prop where
  text : ∃ pre u body rest, pre.length = place ∧ s.configBuffer = pre ++ (u ++ [0]) ∧
    matchEnd (ascii "data") u = some (body, rest) ∧ own = u.take body.length
  size : s.configBuffer.length ≤ 2 ^ 32
  live : s.danglingSymbols = false
  free : ∀ a, s.tagsFree = some a → (s.tagAt a).isSome

/-- Nothing that does not belong to the element is read, and the datum is what its own text decodes to,
unless the memory for it was refused. -/
structure DecodesOwn (env : Env) (s : Parser) (place : Nat) (own : Bytes) : Prop where
  inside : ∀ e ∈ (plistXmlParseTagData env place s).events, ¬e.Overreads
  datum : match (plistXmlParseTagData env place s).result with
    | .error _ => False
    | .ok none => ¬env.Ample
    | .ok (some (a, _)) => ∃ tag, (plistXmlParseTagData env place s).state.tagAt a = some tag ∧
        (tag.data = some (base64Decode 0 (interned own)) ∨ tag.data = none ∧ ¬env.Ample)

section Data
variable {env : Env} {s : Parser} {place : Nat} {own : Bytes}

/-- Up to the decoder: the text was fixed, a tag taken, and a symbol made of what the text is cut to. -/
theorem plistXmlParseTagData_inside {blame : Prop} {Q : Option (Nat × Nat) → Parser → Prop} (h : AtData s place own)
    (hnone : ∀ t, ¬env.Ample → Q none t)
    (hdecode : ∀ a string t, (t.tagAt a).isSome → (string = some (interned own) ∨ string = none ∧ ¬env.Ample) →
      Inside blame (do
        let data ← plb64decode env place string (own.length + 7)
        fillTag a fun tag => { tag with
          type := .data, string := string, data := data, dataLen := (data.getD []).length, tag := none,
          offset := offsetOf place, tagNext := none }
        pure (some (a, own.length + 7))) t Q) :
    Inside blame (plistXmlParseTagData env place) s Q := by
  obtain ⟨pre, u, body, rest, rfl, hs, hm, rfl⟩ := h.text
  have hfix := plistXmlFixDataMatchingTag_some hs h.size hm
  have hlen : (u.take body.length).length = body.length := by
    have hu := length_of_matchEnd hm
    rw [List.length_take]
    omega
  have htext : (s.withText (pre ++ (fixed (ascii "data") body rest ++ [0]))).configBuffer =
      pre ++ (fixed (ascii "data") body rest ++ [0]) := rfl
  have hcount : body.length + (ascii "data").length + 3 = (u.take body.length).length + 7 := by
    rw [hlen]
    rfl
  refine Under.bind_eq hfix (Under.bind (plistXmlNewTag_inside h.free) ?_)
  rintro (_ | a) t ⟨hkept, hnew⟩
  · exact Under.pure (hnone t hnew)
  · have hread : readString pre.length t = ⟨.ok (cstr body), t, []⟩ := readString_fixed (hkept.1.trans htext)
    rw [cstr_of_matchEnd hm] at hread
    refine Under.bind (plistXmlNewSymbol_inside hread (hkept.2.trans h.live)) ?_
    rintro string t' ⟨hstore, hstring⟩
    rw [hcount]
    refine hdecode a string t' ?_ hstring
    rw [hstore]
    exact hnew

theorem length_interned_le (own : Bytes) : (interned own).length ≤ own.length := by
  rw [interned]
  rcases hown : nextTag own with _ | ⟨before, name, rest⟩
  · exact Nat.le_refl _
  · have hlen := length_of_nextTag hown
    simp only [List.length_append, List.length_cons]
    omega

/-- Whatever memory lies behind symbols and the table, and whatever else is live, a data element is
decoded from its own text, exactly if that is self-contained. -/
theorem plistXmlParseTagData_own_iff (h : AtData s place own) :
    (∀ env, DecodesOwn env s place own) ↔ SelfContained own := by
  have hle := length_interned_le own
  constructor
  · intro hall
    by_contra hnot
    let bare : Env := { plentyEnv with behindTable := none }
    have hample : bare.Ample := ⟨fun _ => rfl, fun _ => rfl⟩
    have hrun : Inside True (plistXmlParseTagData bare place) s fun _ _ => False := by
      refine plistXmlParseTagData_inside h (fun t hno => hno hample) ?_
      rintro a string t - (rfl | ⟨rfl, hno⟩)
      · refine Under.bind (plb64decode_overreads hample rfl (by omega) (by omega) ?_ place t) fun _ _ h => h.elim
        rintro ⟨hnarrow, hheld, hplain⟩
        exact hnot ⟨hnarrow, by omega, hplain⟩
      · exact absurd hample hno
    rcases hrun with ⟨-, hresult⟩ | ⟨⟨e, he, hover⟩, -⟩
    · rcases hx : (plistXmlParseTagData bare place s).result with e | r <;> rw [hx] at hresult <;> exact hresult
    · exact hover ((hall bare).inside e he)
  · intro hself env
    have hrun : Inside False (plistXmlParseTagData env place) s fun r t =>
        (r = none → ¬env.Ample) ∧ ∀ a l, r = some (a, l) → ∃ tag, t.tagAt a = some tag ∧
          (tag.data = some (base64Decode 0 (interned own)) ∨ tag.data = none ∧ ¬env.Ample) := by
      refine plistXmlParseTagData_inside h (fun t hno => ⟨fun _ => hno, fun _ _ hsome => absurd hsome.symm (Option.some_ne_none _)⟩) ?_
      rintro a string t hat hstring
      have hdata : Inside False (plb64decode env place string (own.length + 7)) t fun r u =>
          u.toTagStore = t.toTagStore ∧ (r = some (base64Decode 0 (interned own)) ∨ r = none ∧ ¬env.Ample) := by
        rcases hstring with rfl | ⟨rfl, hno⟩
        · exact plb64decode_inside (by omega) hself.narrow (by omega) (by have := hself.held; omega) hself.plain place t
        · exact Under.pure ⟨rfl, Or.inr ⟨rfl, hno⟩⟩
      refine Under.bind hdata ?_
      rintro data u ⟨hstore, hdatum⟩
      obtain ⟨tag, htag⟩ := Option.isSome_iff_exists.1 hat
      rw [← hstore] at htag
      refine Under.bind (fillTag_inside htag _) ?_
      rintro _ v hv
      refine Under.pure ⟨fun hnone => absurd hnone (Option.some_ne_none _), ?_⟩
      rintro a' l heq
      cases heq
      exact ⟨_, hv, hdatum⟩
    rcases hrun with ⟨hevents, hresult⟩ | ⟨-, hfalse⟩
    · refine ⟨fun e he => (hevents e he).1, ?_⟩
      rcases hx : (plistXmlParseTagData env place s).result with e | _ | ⟨a, l⟩
      · rw [hx] at hresult
        exact hresult
      · rw [hx] at hresult
        exact hresult.1 rfl
      · rw [hx] at hresult
        exact hresult.2 a l rfl
    · exact hfalse.elim

end Data

/-- A parser at the text of a data element. -/
def dataParser : Parser := { initialParser with configBuffer := ascii "TQ==</data>" ++ [0] }

theorem dataParser_decodesOwn : DecodesOwn plentyEnv dataParser 0 (ascii "TQ==") := by
  have hnext : nextTag (ascii "TQ==</data>") = some (ascii "TQ==", 47 :: ascii "data", []) := by decide
  have hmatch : matchEnd (ascii "data") (ascii "TQ==</data>") = some (ascii "TQ==", []) := by
    rw [matchEnd_of_some hnext, if_pos rfl]
  have hat : AtData dataParser 0 (ascii "TQ==") :=
    ⟨⟨[], ascii "TQ==</data>", ascii "TQ==", [], rfl, rfl, hmatch, rfl⟩, by decide, rfl, fun _ h => nomatch h⟩
  exact (plistXmlParseTagData_own_iff hat).2 ⟨by decide, by decide, by decide⟩ plentyEnv

/-- A data element with markup inside, four characters before its end tag. -/
def markedData : Bytes := ascii "<dict><key>k</key><data>A<b>AAAA</data></dict>"

/-- As before, with other bytes behind the symbols. -/
def leftoverEnv : Env := { plentyEnv with behindSymbol := fun _ _ => some 65 }

/-- Its datum is read in part from behind the symbol: with other bytes there it is another one. -/
theorem markedData_overread :
    .behindSymbol ∈ (plXmlToNode plentyEnv (imageOf markedData) markedData.length initialParser).events ∧
      (plXmlToNode plentyEnv (imageOf markedData) markedData.length initialParser).result ≠
        (plXmlToNode leftoverEnv (imageOf markedData) markedData.length initialParser).result := by
  decide +kernel

end BareBoot.Plist
