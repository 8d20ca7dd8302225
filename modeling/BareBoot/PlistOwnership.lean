import BareBoot.PlistLedger

/-! Who owns what in a call of `plXmlToNode`. The functions of the parser hand every tag they make to
their caller or free it, and the functions that grow the tree do so with nodes; what they allocate beyond
that is lost. A call gives back all of its tags and symbols, and each step on the way that reports the
symbols finds every string once, counted as often as tags hold it. -/

namespace BareBoot.Plist

open Exec

/-! ### Overwriting the text -/

section Text
variable {s t u : Parser} {pending : List Nat} {live : List (Cells TagBody)} {free : Cells TagBody} {held : List Bytes}

/-- Nothing but bytes of the text changed. -/
def Overwrote (s t : Parser) : Prop := ∃ text : Bytes, text.length = s.configBuffer.length ∧ t = s.withText text

theorem Overwrote.refl (s : Parser) : Overwrote s s := ⟨s.configBuffer, rfl, rfl⟩

theorem Overwrote.trans (h : Overwrote s t) (h' : Overwrote t u) : Overwrote s u := by
  obtain ⟨text, hlen, rfl⟩ := h
  obtain ⟨text', hlen', rfl⟩ := h'
  exact ⟨text', hlen'.trans hlen, rfl⟩

theorem Overwrote.squares (h : Overwrote s t) : Squares s t 0 := by
  obtain ⟨text, -, rfl⟩ := h
  exact Squares.refl rfl

theorem Overwrote.ledger (h : Overwrote s t) (hs : Ledger s pending live free held) : Ledger t pending live free held := by
  obtain ⟨text, hlen, rfl⟩ := h
  exact ⟨hs.describes, hs.current, hlen.symm ▸ hs.size, hs.tallies⟩

theorem readByte_tells (i : Nat) (s : Parser) : Tells (readByte i) s fun _ t m => t = s ∧ m = 0 := by
  refine Weighs.get_bind ?_
  rcases s.configBuffer[i]? with _ | c
  · exact Weighs.stop
  · exact Weighs.pure ⟨rfl, rfl⟩

theorem readBytes_tells (buffer count : Nat) (s : Parser) :
    Tells (readBytes buffer count) s fun _ t m => t = s ∧ m = 0 := by
  refine Weighs.get_bind ?_
  by_cases h : buffer + count ≤ s.configBuffer.length
  · rw [if_pos h]
    exact Weighs.pure ⟨rfl, rfl⟩
  · rw [if_neg h]
    exact Weighs.stop

theorem writeByte_tells (i : Nat) (c : UInt8) (s : Parser) :
    Tells (writeByte i c) s fun _ t m => Overwrote s t ∧ m = 0 := by
  refine Weighs.get_bind ?_
  by_cases h : i < s.configBuffer.length
  · rw [if_pos h]
    exact Weighs.modify ⟨⟨s.configBuffer.set i c, List.length_set, rfl⟩, rfl⟩
  · rw [if_neg h]
    exact Weighs.stop

theorem plistXmlGetNextTag_tells (buffer : Nat) (s : Parser) :
    Tells (plistXmlGetNextTag buffer) s fun _ t m => Overwrote s t ∧ m = 0 := by
  refine Weighs.bind (scanFor_tells 60 buffer s) ?_
  rintro cnt s _ ⟨rfl, rfl, -⟩
  refine Weighs.bind (readByte_tells _ s) ?_
  rintro c s _ ⟨rfl, rfl⟩
  by_cases h : c = 0
  · rw [if_pos h]
    exact Weighs.pure ⟨Overwrote.refl s, by simp⟩
  · rw [if_neg h]
    refine Weighs.bind (scanFor_tells 62 _ s) ?_
    rintro more s _ ⟨rfl, rfl, -⟩
    refine Weighs.bind (readByte_tells _ s) ?_
    rintro c s _ ⟨rfl, rfl⟩
    by_cases h : c = 0
    · rw [if_pos h]
      exact Weighs.pure ⟨Overwrote.refl s, by simp⟩
    · rw [if_neg h]
      refine Weighs.bind (writeByte_tells _ 0 s) ?_
      rintro _ t _ ⟨ht, rfl⟩
      exact Weighs.pure ⟨ht, by simp⟩

theorem plistXmlFixDataMatchingTag_tells (buffer : Nat) (tag : Bytes) (s : Parser) :
    Tells (plistXmlFixDataMatchingTag buffer tag) s fun _ t m => Overwrote s t ∧ m = 0 := by
  have hloop : ∀ n start (s : Parser),
      Tells (fixDataFrom tag buffer n start) s fun _ t m => Overwrote s t ∧ m = 0 := by
    intro n
    induction n with
    | zero => exact fun _ _ => Weighs.stop
    | succ n ih =>
        intro start s
        refine Weighs.bind (plistXmlGetNextTag_tells _ s) ?_
        rintro (_ | ⟨endTag, stop, length⟩) t _ ⟨ht, rfl⟩
        · exact Weighs.pure ⟨ht, add_zero 0⟩
        · refine Weighs.bind (readString_tells endTag t) ?_
          rintro name t _ ⟨rfl, rfl, -⟩
          by_cases h : name = 47 :: tag
          · simp only [h, if_true]
            refine Weighs.bind (writeByte_tells _ 0 t) ?_
            rintro _ u _ ⟨hu, rfl⟩
            exact Weighs.pure ⟨ht.trans hu, by simp⟩
          · simp only [h, if_false]
            refine (ih _ t).mono ?_
            rintro _ u _ ⟨hu, rfl⟩
            exact ⟨ht.trans hu, by simp⟩
  exact hloop _ 0 s

end Text

/-! ### Elements -/

section Elements
variable {env : Env} {s t : Parser} {live : List (Cells TagBody)} {free : Cells TagBody} {held : List Bytes}

/-- A tag, if there is one, is a tree of its own beside the lists. -/
def Beside (live : List (Cells TagBody)) : Option Nat → Parser → Prop
  | none, t => ∃ free, Ledger t [] live free []
  | some a, t => ∃ b sub free, Ledger t [] (.cons (a, b) sub .nil :: live) free []

/-- What a function for an element comes to: it squares its accounts and hands over the tag it made. -/
def Makes {α : Type} (live : List (Cells TagBody)) (tag : α → Option Nat) (s : Parser) (r : α) (t : Parser)
    (owed : Pool → ℤ) : Prop :=
  Squares s t owed ∧ Beside live (tag r) t

/-- The steps all elements with an end tag start with. -/
theorem fixed_newTag_tells {f : Nat → Nat → ParserM (Option (Nat × Nat))} {buffer : Nat} {tag : Bytes}
    (h : Ledger s [] live free [])
    (hf : ∀ length a t tag' free', t.tagAt a = some tag' → tag'.type = .none → tag'.tag = none →
      tag'.string = none → tag'.dataLen = 0 → Ledger t [a] live free' [] →
      Tells (f length a) t (Makes live (·.map Prod.fst) t)) :
    Tells (do
      match ← plistXmlFixDataMatchingTag buffer tag with
      | none => pure none
      | some length =>
          match ← plistXmlNewTag env with
          | none => pure none
          | some tmpTag => f length tmpTag) s (Makes live (·.map Prod.fst) s) := by
  refine Weighs.bind (plistXmlFixDataMatchingTag_tells buffer tag s) ?_
  rintro (_ | length) t _ ⟨ht, rfl⟩
  · refine Weighs.pure ⟨?_, free, ht.ledger h⟩
    rw [add_zero]
    exact ht.squares
  · refine Weighs.bind (plistXmlNewTag_tells (ht.ledger h)) ?_
    rintro (_ | a) u m ⟨hm, hnew⟩
    · refine Weighs.pure ⟨?_, free, hnew⟩
      rw [add_zero]
      exact ht.squares.add hm
    · obtain ⟨tag', free', hat, htype, hsub, hstring, hlen, hledger⟩ := hnew
      refine (hf length a u tag' free' hat htype hsub hstring hlen hledger).mono ?_
      rintro r v m' ⟨hm', hbeside⟩
      exact ⟨ht.squares.add (hm.add hm'), hbeside⟩

/-- A tag taken for a leaf is filled in and handed over. -/
theorem fillLeaf_tells {a length : Nat} {tag' : Tag} {f : Tag → Tag} (h : Ledger t [a] live free (f tag').string.toList)
    (hat : t.tagAt a = some tag') (hsub : (f tag').tag = none) (hnext : (f tag').tagNext = none)
    (hsane : (f tag').toTagBody.Sane) :
    Tells (do
      fillTag a f
      pure (some (a, length))) t (Makes live (·.map Prod.fst) t) := by
  have hnil : Ledger t [a] (.nil :: live) free (f tag').string.toList :=
    h.kept (Kept.refl t) rfl (Describes.cons_nil.2 h.describes) (List.Perm.refl _)
  refine Weighs.bind (fillTag_tells hnil hat hsub hnext hsane) ?_
  rintro _ u m ⟨hm, hu⟩
  refine Weighs.pure ⟨?_, _, .nil, free, hu⟩
  rw [add_zero]
  exact hm

/-- A tag taken and not filled in is a list of its own. -/
theorem Ledger.single {a : Nat} {tag' : Tag} (h : Ledger t [a] live free []) (hat : t.tagAt a = some tag')
    (htype : tag'.type = .none) (hlen : tag'.dataLen = 0) (hsub : tag'.tag = none) (hstring : tag'.string = none)
    (hnext : tag'.tagNext = none) : Ledger t [] (.cons (a, tag'.toTagBody) .nil .nil :: live) free [] := by
  have hperm : (live.flatMap strings).Perm
      ((Forest.cons (a, tag'.toTagBody) .nil .nil :: live).flatMap strings) := by
    rw [List.flatMap_cons, strings_cons, hstring]
    exact List.Perm.refl _
  exact h.kept (Kept.refl t) rfl (h.describes.single hat htype hlen hsub hnext) hperm

theorem Ledger.perm {live' : List (Cells TagBody)} (h : Ledger t [] live free held) (hperm : live.Perm live') :
    Ledger t [] live' free held :=
  h.kept (Kept.refl t) rfl (h.describes.perm hperm) ((hperm.flatMap_right _).append_left held)

theorem sane_string {type : TagType} (htype : type = .key ∨ type = .string) {string : Bytes}
    (hsmall : string.length + 1 < 2 ^ 32) (data : Option Bytes) (intval : Int64) (offset : Nat) :
    TagBody.Sane ⟨type, some string, data, string.length % 2 ^ 32, intval, offset⟩ := by
  have hmod : string.length % 2 ^ 32 = string.length := Nat.mod_eq_of_lt (by omega)
  refine ⟨fun _ => ⟨string, rfl, hmod⟩, ?_, ?_, by rw [hmod]; exact hsmall⟩
  · intro h
    rcases htype with rfl | rfl <;> cases h
  · intro h
    rcases htype with rfl | rfl <;> cases h

theorem plistXmlParseTagString_tells (h : Ledger s [] live free []) (buffer : Nat) :
    Tells (plistXmlParseTagString env buffer) s (Makes live (·.map Prod.fst) s) := by
  refine fixed_newTag_tells h ?_
  intro length a t tag' free' hat htype hsub hstring hlen ht
  refine Weighs.bind (plistXmlNewSymbol_tells ht buffer) ?_
  rintro (_ | string) u m ⟨hm, hstore, hu, hsmall⟩
  · rw [← hstore] at hat
    refine Weighs.bind (reportUncleared_tells hat) ?_
    rintro _ u _ ⟨rfl, rfl, hnext⟩
    refine Weighs.bind (plistXmlFreeTag_tells (hu.single hat htype hlen hsub hstring hnext)) ?_
    rintro _ v m' ⟨hm', free'', hv⟩
    refine Weighs.pure ⟨?_, free'', hv⟩
    rw [add_zero, zero_add]
    exact hm.add hm'
  · rw [← hstore] at hat
    refine (fillLeaf_tells hu hat rfl rfl (sane_string (Or.inr rfl) (hsmall string rfl) _ _ _)).mono ?_
    rintro r v m' ⟨hm', hbeside⟩
    exact ⟨hm.add hm', hbeside⟩

theorem plistXmlParseTagInteger_tells (h : Ledger s [] live free []) (buffer startLength : Nat) :
    Tells (plistXmlParseTagInteger env buffer startLength) s (Makes live (·.map Prod.fst) s) := by
  refine fixed_newTag_tells h ?_
  intro length a t tag' free' hat htype hsub hstring hlen ht
  have hsane : ∀ (b : TagBody), b.type = .integer → b.dataLen = tag'.dataLen → b.Sane := by
    intro b hb hdata
    have hsmall : b.dataLen + 1 < 2 ^ 32 := by omega
    exact TagBody.Shows.sane (show b.Shows (.integer b.intval) from ⟨hb, rfl⟩) hsmall
  refine Weighs.bind (readByte_tells buffer t) ?_
  rintro c t _ ⟨rfl, rfl⟩
  simp only [zero_add]
  by_cases h60 : c = 60
  · rw [if_pos h60]
    have hnil : Ledger t [a] (.nil :: live) free' [] :=
      ht.kept (Kept.refl t) rfl (Describes.cons_nil.2 ht.describes) (List.Perm.refl _)
    refine Weighs.bind (fillTag_tells hnil hat rfl rfl (hsane _ rfl rfl)) ?_
    rintro _ u m ⟨hm, hu⟩
    refine Weighs.get_bind (Weighs.emit_bind fun _ => ⟨trivial, Weighs.pure ⟨?_, _, .nil, free', hu⟩⟩)
    have hzero : m + (Event.due (.shortInteger startLength (u.configBuffer.length - 1 - buffer)) + 0) = m := by
      show m + (0 - 0 + 0) = m
      abel
    rw [hzero]
    exact hm
  · rw [if_neg h60]
    refine Weighs.bind (readBytes_tells buffer _ t) ?_
    rintro vbuf t _ ⟨rfl, rfl⟩
    simp only [zero_add]
    have hheld : Ledger t [a] live free' tag'.string.toList := by
      rw [hstring]
      exact ht
    exact fillLeaf_tells hheld hat rfl rfl (hsane _ rfl rfl)

theorem readUnreadable_tells {α : Type} {Q : α → Parser → (Pool → ℤ) → Prop} (s : Parser) :
    Tells readUnreadable s Q :=
  Weighs.emit_bind fun _ => ⟨trivial, Weighs.stop⟩

theorem readSymbol_tells (buffer : Nat) (string : Bytes) (count : Nat) (s : Parser) :
    Tells (readSymbol env buffer string count) s fun r t m =>
      t = s ∧ m = 0 ∧ symbolBytes env buffer string count = some r := by
  unfold readSymbol symbolBytes
  simp only
  by_cases hle : count ≤ (string ++ List.replicate 9 0).length
  · rw [if_pos hle, if_pos hle]
    exact Weighs.pure ⟨rfl, rfl, rfl⟩
  · rw [if_neg hle, if_neg hle]
    refine Weighs.emit_bind fun _ => ⟨trivial, ?_⟩
    rcases hr : (List.range (count - (string ++ List.replicate 9 0).length)).mapM (env.behindSymbol buffer) with _ | r
    · rw [hr]
      exact readUnreadable_tells s
    · rw [hr]
      refine Weighs.pure ⟨rfl, ?_, rfl⟩
      show (0 - 0 : Pool → ℤ) + 0 = 0
      abel

theorem decodeSymbol_tells (buffer : Nat) (string : Bytes) (count : Nat) (s : Parser) :
    Tells (decodeSymbol env buffer string count) s fun r t m =>
      t = s ∧ m = 0 ∧ (symbolBytes env buffer string count).bind (decodedBytes env) = some r := by
  refine Weighs.bind (readSymbol_tells buffer string count s) ?_
  rintro idat s _ ⟨rfl, rfl, hidat⟩
  rw [hidat, Option.bind_some, decodedBytes]
  by_cases h : 123 ∈ idat
  · rw [if_pos h, if_pos h]
    rcases env.behindTable with _ | c
    · exact readUnreadable_tells s
    · exact Weighs.pure ⟨rfl, add_zero 0, rfl⟩
  · rw [if_neg h, if_neg h]
    exact Weighs.pure ⟨rfl, add_zero 0, rfl⟩

/-- A decoded buffer is lost when it is made: no function of the parser releases it. -/
theorem plb64decode_tells (buffer : Nat) (idat : Option Bytes) (ilen : Nat) (s : Parser) :
    Tells (plb64decode env buffer idat ilen) s fun r t m =>
      m = 0 ∧ t = { s with allocs := t.allocs } ∧ ∀ d, r = some d → d.length < 2 ^ 31 := by
  rcases idat with _ | string
  · exact Weighs.pure ⟨rfl, rfl, fun _ h => nomatch h⟩
  · unfold plb64decode
    simp only
    by_cases hzero : ilen = 0
    · rw [if_pos hzero]
      exact Weighs.pure ⟨rfl, rfl, fun _ h => nomatch h⟩
    · rw [if_neg hzero]
      refine Weighs.bind (allocate_tells .datum s) ?_
      rintro (_ | _) _ _ ⟨rfl, rfl⟩
      · exact Weighs.pure ⟨add_zero 0, rfl, fun _ h => nomatch h⟩
      · rw [if_pos rfl, if_pos rfl]
        by_cases hwide : ilen < 2 ^ 31
        · rw [if_pos hwide]
          refine Weighs.bind (decodeSymbol_tells buffer string ilen _) ?_
          rintro d t _ ⟨rfl, rfl, hd⟩
          refine Weighs.emit_bind fun _ => ⟨trivial, Weighs.pure ⟨?_, rfl, ?_⟩⟩
          · show countOf [.datum] + (0 + ((0 - countOf [.datum]) + 0)) = 0
            abel
          · rintro _ ⟨⟩
            have := length_decoded_le hd
            omega
        · rw [if_neg hwide]
          exact Weighs.emit_bind fun _ => ⟨trivial, Weighs.stop⟩

theorem plistXmlParseTagData_tells (h : Ledger s [] live free []) (buffer : Nat) :
    Tells (plistXmlParseTagData env buffer) s (Makes live (·.map Prod.fst) s) := by
  refine fixed_newTag_tells h ?_
  intro length a t tag' free' hat htype hsub hstring hlen ht
  refine Weighs.bind (plistXmlNewSymbol_tells ht buffer) ?_
  rintro string u m ⟨hm, hstore, hu, -⟩
  rw [← hstore] at hat
  refine Weighs.bind (plb64decode_tells buffer string length u) ?_
  rintro data v _ ⟨rfl, hv, hsmall⟩
  have hledger : Ledger v [a] live free' string.toList := by
    rw [hv]
    rw [List.append_nil] at hu
    exact ⟨hu.describes, hu.current, hu.size, hu.tallies⟩
  have hat' : v.tagAt a = some tag' := by
    rw [hv]
    exact hat
  have hsquares : Squares u v 0 := by
    rw [hv]
    exact Squares.refl rfl
  have hsane : TagBody.Sane
      ⟨.data, string, data, (data.getD []).length, tag'.intval, offsetOf buffer⟩ := by
    refine ⟨fun h => by simp at h, fun _ => ?_, fun h => by simp at h, ?_⟩
    · rcases data with _ | d
      · exact Or.inl ⟨rfl, rfl⟩
      · exact Or.inr ⟨d, rfl, rfl⟩
    · rcases data with _ | d
      · simp
      · have := hsmall d rfl
        simp only [Option.getD_some]
        omega
  refine (fillLeaf_tells hledger hat' rfl rfl hsane).mono ?_
  rintro r w m' ⟨hm', hbeside⟩
  exact ⟨hm.add (hsquares.add hm'), hbeside⟩

theorem plistXmlParseTagDate_tells (h : Ledger s [] live free []) (buffer : Nat) :
    Tells (plistXmlParseTagDate env buffer) s (Makes live (·.map Prod.fst) s) := by
  refine fixed_newTag_tells h ?_
  intro length a t tag' free' hat htype hsub hstring hlen ht
  have hshow : TagBody.Shows
      ⟨.date, none, tag'.data, tag'.dataLen, tag'.intval, offsetOf buffer⟩ (.date []) := ⟨rfl, rfl, rfl, hlen⟩
  have hsmall : tag'.dataLen + 1 < 2 ^ 32 := by omega
  exact fillLeaf_tells ht hat rfl rfl (hshow.sane hsmall)

theorem plistXmlParseTagBoolean_tells (h : Ledger s [] live free []) (buffer : Nat) {type : TagType}
    (htype : type = .true ∨ type = .false) :
    Tells (plistXmlParseTagBoolean env buffer type) s (Makes live (·.map Prod.fst) s) := by
  refine Weighs.bind (plistXmlNewTag_tells h) ?_
  rintro (_ | a) t m ⟨hm, hnew⟩
  · refine Weighs.pure ⟨?_, free, hnew⟩
    rw [add_zero]
    exact hm
  · obtain ⟨tag', free', hat, -, -, -, -, ht⟩ := hnew
    have hsane : TagBody.Sane ⟨type, none, tag'.data, 0, tag'.intval, offsetOf buffer⟩ := by
      rcases htype with rfl | rfl <;> constructor <;> simp
    refine (fillLeaf_tells ht hat rfl rfl hsane).mono ?_
    rintro r u m' ⟨hm', hbeside⟩
    exact ⟨hm.add hm', hbeside⟩

end Elements
/-! ### Containers -/

section Containers
variable {env : Env} {s : Parser} {live : List (Cells TagBody)} {free : Cells TagBody}
  {next : Nat → Option Nat → ParserM (Option (Option Nat × Nat))}

/-- `PListXMLParseNextTag`, as far as the functions it calls and that call it go. -/
def NextTells (next : Nat → Option Nat → ParserM (Option (Option Nat × Nat))) : Prop :=
  ∀ (s : Parser) (live : List (Cells TagBody)) (free : Cells TagBody) (buffer : Nat) (tag : Option Nat),
    Ledger s [] live free [] → Tells (next buffer tag) s (Makes live (·.bind Prod.fst) s)

/-- The tag handed over as a list of its own. -/
theorem Beside.exists_list {tag : Option Nat} {t : Parser} (h : Beside live tag t) :
    ∃ f free, Cells.head f = tag ∧ Ledger t [] (f :: live) free [] := by
  rcases tag with _ | a
  · obtain ⟨free, h⟩ := h
    exact ⟨.nil, free, rfl, h.kept (Kept.refl t) rfl (Describes.cons_nil.2 h.describes) (List.Perm.refl _)⟩
  · obtain ⟨b, sub, free, h⟩ := h
    exact ⟨.cons (a, b) sub .nil, free, rfl, h⟩

/-- A container's tag is taken and filled in over the list read for it, or the list is freed. -/
theorem fillList_tells {f : Cells TagBody} {fill : Tag → Tag} {length : Nat} (h : Ledger s [] (f :: live) free [])
    (hsub : ∀ tag, (fill tag).tag = Cells.head f) (hnext : ∀ tag, (fill tag).tagNext = none)
    (hstring : ∀ tag, (fill tag).string = none) (hsane : ∀ tag, (fill tag).toTagBody.Sane) :
    Tells (do
      match ← plistXmlNewTag env with
      | none =>
          plistXmlFreeTag (Cells.head f)
          pure none
      | some tmpTag =>
          fillTag tmpTag fill
          pure (some (tmpTag, length))) s (Makes live (·.map Prod.fst) s) := by
  refine Weighs.bind (plistXmlNewTag_tells h) ?_
  rintro (_ | a) t m ⟨hm, hnew⟩
  · refine Weighs.bind (plistXmlFreeTag_tells hnew) ?_
    rintro _ u m' ⟨hm', free', hu⟩
    refine Weighs.pure ⟨?_, free', hu⟩
    rw [add_zero]
    exact hm.add hm'
  · obtain ⟨tag, free', hat, -, -, -, -, ht⟩ := hnew
    have hheld : Ledger t [a] (f :: live) free' (fill tag).string.toList := by
      rw [hstring]
      exact ht
    refine Weighs.bind (fillTag_tells hheld hat (hsub tag) (hnext tag) (hsane tag)) ?_
    rintro _ u m' ⟨hm', hu⟩
    refine Weighs.pure ⟨?_, _, f, free', hu⟩
    rw [add_zero]
    exact hm.add hm'

theorem plistXmlParseTagKey_tells (hnext : NextTells next) (h : Ledger s [] live free []) (buffer : Nat) :
    Tells (plistXmlParseTagKey env next buffer) s (Makes live (·.map Prod.fst) s) := by
  refine Weighs.bind (plistXmlFixDataMatchingTag_tells buffer _ s) ?_
  rintro (_ | length) t _ ⟨ht, rfl⟩
  · refine Weighs.pure ⟨?_, free, ht.ledger h⟩
    rw [add_zero]
    exact ht.squares
  · refine Weighs.bind (hnext t live free _ none (ht.ledger h)) ?_
    rintro (_ | ⟨subTag, length2⟩) u m ⟨hm, hbeside⟩
    · refine Weighs.pure ⟨?_, hbeside⟩
      rw [add_zero]
      exact ht.squares.add hm
    · obtain ⟨f, free', hhead, hu⟩ := hbeside.exists_list
      have hhead' : Cells.head f = subTag := hhead
      subst hhead'
      refine Weighs.bind (plistXmlNewTag_tells hu) ?_
      rintro (_ | a) v m' ⟨hm', hnew⟩
      · refine Weighs.bind (plistXmlFreeTag_tells hnew) ?_
        rintro _ w m'' ⟨hm'', free'', hw⟩
        refine Weighs.pure ⟨?_, free'', hw⟩
        rw [add_zero]
        exact ht.squares.add (hm.add (hm'.add hm''))
      · obtain ⟨tag', free'', hat, htype, hsub, hstring, hlen, hv⟩ := hnew
        refine Weighs.bind (plistXmlNewSymbol_tells hv buffer) ?_
        rintro (_ | string) w m'' ⟨hm'', hstore, hw, hsmall⟩
        · rw [← hstore] at hat
          refine Weighs.bind (reportUncleared_tells hat) ?_
          rintro _ w _ ⟨rfl, rfl, hnil⟩
          -- The list read for the key is freed first, then the tag taken for it.
          have hlist := (hw.single hat htype hlen hsub hstring hnil).perm (List.Perm.swap _ _ _)
          refine Weighs.bind (plistXmlFreeTag_tells hlist) ?_
          rintro _ x m₃ ⟨hm₃, free₃, hx⟩
          refine Weighs.bind (plistXmlFreeTag_tells hx) ?_
          rintro _ y m₄ ⟨hm₄, free₄, hy⟩
          refine Weighs.pure ⟨?_, free₄, hy⟩
          rw [add_zero]
          exact ht.squares.add (hm.add (hm'.add (hm''.add ((Squares.refl rfl).add (hm₃.add hm₄)))))
        · rw [← hstore] at hat
          refine Weighs.bind (fillTag_tells hw hat rfl rfl (sane_string (Or.inl rfl) (hsmall string rfl) _ _ _)) ?_
          rintro _ x m₃ ⟨hm₃, hx⟩
          refine Weighs.pure ⟨?_, _, f, free'', hx⟩
          rw [add_zero]
          exact ht.squares.add (hm.add (hm'.add (hm''.add hm₃)))

/-- Reading a list: the one read so far is `f`, and every further element is linked behind it. -/
theorem parseTags_tells (hnext : NextTells next) (buffer n pos : Nat) {f : Cells TagBody}
    (h : Ledger s [] (f :: live) free []) :
    Tells (parseTags next buffer n pos (Cells.head f) (Cells.last f)) s fun r t m =>
      Squares s t m ∧
        match r with
        | none => ∃ free, Ledger t [] live free []
        | some (tagList, _) => ∃ f free, Cells.head f = tagList ∧ Ledger t [] (f :: live) free [] := by
  induction n generalizing s f pos free with
  | zero => exact Weighs.stop
  | succ n ih =>
      refine Weighs.bind (hnext s (f :: live) free _ (Cells.last f) h) ?_
      rintro (_ | ⟨_ | a, length⟩) t m ⟨hm, hbeside⟩
      · obtain ⟨free', ht⟩ := hbeside
        refine Weighs.bind (plistXmlFreeTag_tells ht) ?_
        rintro _ u m' ⟨hm', free'', hu⟩
        refine Weighs.pure ⟨?_, free'', hu⟩
        rw [add_zero]
        exact hm.add hm'
      · obtain ⟨free', ht⟩ := hbeside
        refine Weighs.pure ⟨?_, f, free', rfl, ht⟩
        rw [add_zero]
        exact hm
      · obtain ⟨b, sub, free', ht⟩ := hbeside
        have htag := TagStore.tagAt_of_cellAt (ht.describes.partition.linked (.cons (a, b) sub .nil) (by simp)).1
        refine Weighs.bind (linkTag_same_tells ht htag rfl) ?_
        rintro _ u m' ⟨hm', hu⟩
        rcases hlast : Cells.last f with _ | l
        · have hf : f = .nil := by
            by_contra hne
            have hsome := (Cells.last_isSome f).2 hne
            rw [hlast] at hsome
            cases hsome
          subst hf
          have hone : Ledger u [] (.cons (a, b) sub .nil :: live) free' [] :=
            hu.kept (Kept.refl u) rfl (Describes.cons_nil.1 (hu.describes.perm (List.Perm.swap _ _ _))) (List.Perm.refl _)
          refine (ih (addU32 pos length) hone).mono ?_
          rintro r v m'' ⟨hm'', hr⟩
          exact ⟨hm.add (hm'.add hm''), hr⟩
        · have hhead : Cells.head f = Cells.head (f ++ .cons (a, b) sub .nil) := by
            cases f with
            | nil => cases hlast
            | cons c s' n' => rfl
          refine Weighs.bind (linkTag_tells (hu.perm (List.Perm.swap _ _ _)) hlast) ?_
          rintro _ v m'' ⟨hm'', hv⟩
          have hrest := ih (addU32 pos length) hv
          rw [Cells.last_append_cons, ← hhead] at hrest
          refine hrest.mono ?_
          rintro r w m₃ ⟨hm₃, hr⟩
          exact ⟨hm.add (hm'.add (hm''.add hm₃)), hr⟩

theorem plistXmlParseTagList_tells (hnext : NextTells next) (h : Ledger s [] live free []) (fuel buffer : Nat)
    {type : TagType} (htype : type = .dict ∨ type = .array) (empty : Bool) :
    Tells (plistXmlParseTagList env next fuel buffer type empty) s (Makes live (·.map Prod.fst) s) := by
  have hnil : Ledger s [] (.nil :: live) free [] :=
    h.kept (Kept.refl s) rfl (Describes.cons_nil.2 h.describes) (List.Perm.refl _)
  have hsane : ∀ tag : Tag, TagBody.Sane ⟨type, none, tag.data, 0, tag.intval, offsetOf buffer⟩ := by
    intro tag
    rcases htype with rfl | rfl <;> constructor <;> simp
  have hlist : Tells (if empty then pure (some (none, 0)) else parseTags next buffer fuel 0 none none) s
      fun r t m => Squares s t m ∧
        match r with
        | none => ∃ free, Ledger t [] live free []
        | some (tagList, _) => ∃ f free, Cells.head f = tagList ∧ Ledger t [] (f :: live) free [] := by
    cases empty with
    | false => exact parseTags_tells hnext buffer fuel 0 hnil
    | true => exact Weighs.pure ⟨Squares.refl rfl, .nil, free, rfl, hnil⟩
  refine Weighs.bind hlist ?_
  rintro (_ | ⟨tagList, pos⟩) t m ⟨hm, hr⟩
  · refine Weighs.pure ⟨?_, hr⟩
    rw [add_zero]
    exact hm
  · obtain ⟨f, free', rfl, ht⟩ := hr
    refine (fillList_tells ht (fun _ => rfl) (fun _ => rfl) (fun _ => rfl) hsane).mono ?_
    rintro r u m' ⟨hm', hbeside⟩
    exact ⟨hm.add hm', hbeside⟩

/-! ### The next tag and the whole text -/

/-- The names of lists are those of dictionaries and arrays. -/
def Markup.Listed : Markup → Prop
  | .list type _ => type = .dict ∨ type = .array
  | .boolean type => type = .true ∨ type = .false
  | _ => True

theorem listed_ite {c : Prop} [Decidable c] {a b : Markup} (ha : a.Listed) (hb : b.Listed) :
    (if c then a else b).Listed := by
  by_cases h : c
  · rwa [if_pos h]
  · rwa [if_neg h]

theorem markupOf_listed (name : Bytes) : (markupOf name).Listed := by
  unfold markupOf
  repeat refine listed_ite (by simp [Markup.Listed]) ?_
  trivial

theorem parseElement_tells (hnext : NextTells next) (h : Ledger s [] live free []) (fuel buffer startLength : Nat)
    (tag : Option Nat) {markup : Markup} (hlisted : markup.Listed) :
    Tells (parseElement env next fuel buffer startLength tag markup) s (Makes live (·.bind Prod.fst) s) := by
  have hmap : ∀ {x : ParserM (Option (Nat × Nat))}, Tells x s (Makes live (·.map Prod.fst) s) →
      Tells ((·.map fun r => (some r.1, r.2)) <$> x : ParserM (Option (Option Nat × Nat))) s
        (Makes live (·.bind Prod.fst) s) := by
    intro x hx
    refine Weighs.map (hx.mono ?_)
    rintro (_ | r) t m hr
    · exact hr
    · exact hr
  cases markup with
  | plist =>
      have hkept : Tells (reportKept tag) s fun _ t m => t = s ∧ m = 0 ∧ tag = none := by
        rcases tag with _ | a
        · exact Weighs.pure ⟨rfl, rfl, rfl⟩
        · exact Weighs.emit fun hordered => hordered.elim
      refine Weighs.bind hkept ?_
      rintro _ s _ ⟨rfl, rfl, rfl⟩
      exact Weighs.pure ⟨by rw [add_zero]; exact Squares.refl rfl, free, h⟩
  | list type empty => exact hmap (plistXmlParseTagList_tells hnext h fuel buffer hlisted empty)
  | key => exact hmap (plistXmlParseTagKey_tells hnext h buffer)
  | string => exact hmap (plistXmlParseTagString_tells h buffer)
  | integer => exact hmap (plistXmlParseTagInteger_tells h buffer startLength)
  | data => exact hmap (plistXmlParseTagData_tells h buffer)
  | date => exact hmap (plistXmlParseTagDate_tells h buffer)
  | boolean type => exact hmap (plistXmlParseTagBoolean_tells h buffer hlisted)
  | unknown => exact Weighs.pure ⟨Squares.refl rfl, free, h⟩

theorem plistXmlParseNextTag_tells (fuel : Nat) : NextTells (plistXmlParseNextTag env fuel) := by
  induction fuel with
  | zero => exact fun _ _ _ _ _ _ => Weighs.stop
  | succ fuel ih =>
      intro s live free buffer tag h
      refine Weighs.bind (plistXmlGetNextTag_tells buffer s) ?_
      rintro (_ | ⟨tagName, start, pos⟩) t _ ⟨ht, rfl⟩
      · refine Weighs.pure ⟨?_, free, ht.ledger h⟩
        rw [add_zero]
        exact ht.squares
      · refine Weighs.bind (readString_tells tagName t) ?_
        rintro name t _ ⟨rfl, rfl, -⟩
        refine Weighs.bind (parseElement_tells ih (ht.ledger h) fuel _ pos tag (markupOf_listed name)) ?_
        rintro (_ | ⟨tag', length⟩) u m ⟨hm, hbeside⟩
        · refine Weighs.pure ⟨?_, hbeside⟩
          rw [add_zero, zero_add]
          exact ht.squares.add hm
        · refine Weighs.get_bind (Weighs.emit_bind fun _ => ⟨trivial, Weighs.pure ⟨?_, hbeside⟩⟩)
          have hzero : (0 : Pool → ℤ) + (0 + (m + (Event.due (.returned (u.configBuffer.length - 1 - buffer)
              (addU32 pos length) tag' u.toTagStore) + 0))) = 0 + m := by
            show (0 : Pool → ℤ) + (0 + (m + ((0 - 0) + 0))) = 0 + m
            abel
          rw [hzero]
          exact ht.squares.add hm

/-- The loop at top level frees what it does not hand over. -/
theorem parseTop_tells (fuel n pos : Nat) (tag : Option Nat) (h : Ledger s [] live free []) :
    Tells (parseTop env fuel n pos tag) s (Makes live id s) := by
  induction n generalizing s pos tag free with
  | zero => exact Weighs.stop
  | succ n ih =>
      refine Weighs.bind (plistXmlParseNextTag_tells fuel s live free pos tag h) ?_
      rintro (_ | ⟨_ | a, length⟩) t m ⟨hm, hbeside⟩
      · refine Weighs.pure ⟨?_, hbeside⟩
        rw [add_zero]
        exact hm
      · obtain ⟨free', ht⟩ := hbeside
        refine (ih (addU32 pos length) none ht).mono ?_
        rintro r u m' ⟨hm', hr⟩
        exact ⟨hm.add hm', hr⟩
      · obtain ⟨b, sub, free', ht⟩ := hbeside
        have htag := TagStore.tagAt_of_cellAt (ht.describes.partition.linked (.cons (a, b) sub .nil) (by simp)).1
        refine Weighs.bind_eq (readTag_spec htag) ?_
        by_cases htype : b.type = .dict
        · rw [if_pos htype]
          refine Weighs.pure ⟨?_, b, sub, free', ht⟩
          rw [add_zero]
          exact hm
        · rw [if_neg htype]
          refine Weighs.bind (plistXmlFreeTag_tells ht) ?_
          rintro _ u m' ⟨hm', free'', hu⟩
          refine (ih (addU32 pos length) (some a) hu).mono ?_
          rintro r v m'' ⟨hm'', hr⟩
          exact ⟨hm.add (hm'.add hm''), hr⟩

end Containers
end BareBoot.Plist
