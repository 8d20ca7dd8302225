import BareBoot.PlistOffText
import BareBoot.PlistSoundness

/-! The parser within its copy of the text. A call of `PListXMLParseNextTag` that succeeds moves on and
stays within the copy, and nothing is read or written outside it, as long as no integer that starts with
markup is reported with a length that leads out of the text. This holds whatever the tags are linked to,
also in runs whose tag lists have gone wrong. -/

namespace BareBoot.Plist

open Exec

/-- The length reported for an integer that starts with markup lies within the text. -/
def Event.InRange : Event → Prop
  | .shortInteger length left => 0 < addU32 length length ∧ addU32 length length ≤ length + left
  | _ => True

/-- A call that succeeds moves on and stays within the text. -/
def Event.Within : Event → Prop
  | .returned left length _ _ => 0 < length ∧ length ≤ left
  | _ => True

theorem Event.OffText.within {e : Event} (h : e.OffText) : e.InRange ∧ e.Within := by
  cases e <;> first | exact h.elim | exact ⟨trivial, trivial⟩

/-- The run stays within the text, or an integer is to blame. -/
abbrev Stays {α : Type} (x : ParserM α) (s : Parser) (Q : α → Parser → Prop) : Prop :=
  Under Event.InRange Event.Within (· ≠ .outOfBounds) True x s Q

/-- The copy holds a text of `n` bytes and its `NUL`. -/
def Holds (n : Nat) (s : Parser) : Prop := ∃ text, s.configBuffer = text ++ [0] ∧ text.length = n

section Holds
variable {n : Nat} {s t : Parser}

theorem Holds.same (h : Holds n s) (ht : t.configBuffer = s.configBuffer) : Holds n t := by
  obtain ⟨text, hs, hlen⟩ := h
  exact ⟨text, ht.trans hs, hlen⟩

theorem Holds.length (h : Holds n s) : s.configBuffer.length = n + 1 := by
  obtain ⟨text, hs, hlen⟩ := h
  rw [hs, List.length_append, List.length_singleton, hlen]

theorem Holds.split (h : Holds n s) {p : Nat} (hp : p ≤ n) :
    ∃ pre u, pre.length = p ∧ pre.length + u.length = n ∧ s.configBuffer = pre ++ (u ++ [0]) := by
  obtain ⟨text, hs, hlen⟩ := h
  have htake : (text.take p).length = p := by
    rw [List.length_take]
    omega
  refine ⟨text.take p, text.drop p, htake, ?_, ?_⟩
  · rw [htake, List.length_drop]
    omega
  · rw [hs, ← List.append_assoc, List.take_append_drop]

theorem holds_withText {pre v : Bytes} (h : pre.length + v.length = n) :
    Holds n (s.withText (pre ++ (v ++ [0]))) :=
  ⟨pre ++ v, by simp, by rw [List.length_append, h]⟩

theorem OffText.keeps {α : Type} {x : ParserM α} (hx : OffText x) (s : Parser) :
    Stays x s fun _ t => t.configBuffer = s.configBuffer := by
  refine Or.inl ⟨fun e he => (hx.quiet s e he).within, ?_⟩
  rcases hr : (x s).result with e | a
  · intro he
    rw [he] at hr
    exact hx.inside s hr
  · exact hx.configBuffer s

theorem OffText.stays {α : Type} {x : ParserM α} (hx : OffText x) (h : Holds n s) :
    Stays x s fun _ t => Holds n t :=
  (hx.keeps s).mono id fun _ _ ht => h.same ht

end Holds

/-! ### Scanning -/

section Bounds
variable {env : Env} {n : Nat} {s : Parser} {p : Nat}

theorem plistXmlGetNextTag_stays (h : Holds n s) (hp : p ≤ n) :
    Stays (plistXmlGetNextTag p) s fun r t => Holds n t ∧
      ∀ tagName start length, r = some (tagName, start, length) → tagName ≤ n ∧ 0 < length ∧ p + length ≤ n := by
  obtain ⟨pre, u, rfl, hsize, hs⟩ := h.split hp
  rcases hu : nextTag u with _ | ⟨before, name, rest⟩
  · exact Under.of_eq (plistXmlGetNextTag_none hs hu) ⟨h, fun _ _ _ h => by cases h⟩
  · have hlen := length_of_nextTag hu
    have hclosed : (closed before name rest).length = u.length := by rw [length_closed, hlen]
    refine Under.of_eq (plistXmlGetNextTag_some hs hu) ⟨holds_withText (by rw [hclosed, hsize]), ?_⟩
    intro tagName start length h
    cases h
    omega

theorem readString_stays (h : Holds n s) (hp : p ≤ n) : Stays (readString p) s fun _ t => t = s := by
  obtain ⟨pre, u, rfl, -, hs⟩ := h.split hp
  exact Under.of_eq (readString_nul hs) rfl

/-- The steps an element with an end tag starts with. -/
theorem fixed_stays {α : Type} {P : Option α → Parser → Prop} {f : Nat → ParserM (Option α)} {tag : Bytes}
    (hn : n < 2 ^ 32) (h : Holds n s) (hp : p ≤ n) (hnone : ∀ t, Holds n t → P none t)
    (hsome : ∀ length t, Holds n t → p + length ≤ n → Stays (f length) t P) :
    Stays (do
      match ← plistXmlFixDataMatchingTag p tag with
      | none => pure none
      | some length => f length) s P := by
  obtain ⟨pre, u, rfl, hsize, hs⟩ := h.split hp
  have hlength : s.configBuffer.length ≤ 2 ^ 32 := by
    rw [h.length]
    omega
  rcases hm : matchEnd tag u with _ | ⟨body, rest⟩
  · obtain ⟨v, hv, hfix⟩ := plistXmlFixDataMatchingTag_none hs hlength hm
    exact Under.bind_eq hfix (Under.pure (hnone _ (holds_withText (by rw [hv, hsize]))))
  · have hlen := length_of_matchEnd hm
    have hfixed : (fixed tag body rest).length = u.length := by rw [length_fixed, hlen]
    refine Under.bind_eq (plistXmlFixDataMatchingTag_some hs hlength hm) ?_
    exact hsome _ _ (holds_withText (by rw [hfixed, hsize])) (by omega)

/-! ### Elements -/

/-- What an element takes of the text behind its start tag lies within the text. -/
def Takes {α : Type} (n p : Nat) (r : Option (α × Nat)) (t : Parser) : Prop :=
  Holds n t ∧ ∀ a length, r = some (a, length) → p + length ≤ n

theorem takes_none {α : Type} (h : Holds n s) : Takes (α := α) n p none s := ⟨h, fun _ _ h => by cases h⟩

theorem takes_some {α : Type} {a : α} {length : Nat} (h : Holds n s) (hlen : p + length ≤ n) :
    Takes n p (some (a, length)) s := by
  refine ⟨h, ?_⟩
  rintro _ _ ⟨⟩
  exact hlen

theorem plistXmlNewSymbol_stays (h : Holds n s) (hp : p ≤ n) :
    Stays (plistXmlNewSymbol env p) s fun _ t => Holds n t := by
  refine Under.bind (readString_stays h hp) ?_
  rintro string _ rfl
  exact (offText_newSymbol env string).stays h

theorem plistXmlParseTagString_stays (hn : n < 2 ^ 32) (h : Holds n s) (hp : p ≤ n) :
    Stays (plistXmlParseTagString env p) s (Takes n p) := by
  refine fixed_stays hn h hp (fun t ht => takes_none ht) ?_
  intro length t ht hlen
  refine Under.bind ((offText_newTag env).stays ht) ?_
  rintro (_ | tmpTag) t ht
  · exact Under.pure (takes_none ht)
  · refine Under.bind (plistXmlNewSymbol_stays ht hp) ?_
    rintro (_ | string) t ht
    · refine Under.bind ((offText_reportUncleared tmpTag).stays ht) ?_
      intro _ t ht
      refine Under.bind ((offText_freeTag (some tmpTag)).stays ht) ?_
      intro _ t ht
      exact Under.pure (takes_none ht)
    · refine Under.bind ((offText_fillTag tmpTag _).stays ht) ?_
      intro _ t ht
      exact Under.pure (takes_some ht hlen)

theorem plistXmlParseTagData_stays (hn : n < 2 ^ 32) (h : Holds n s) (hp : p ≤ n) :
    Stays (plistXmlParseTagData env p) s (Takes n p) := by
  refine fixed_stays hn h hp (fun t ht => takes_none ht) ?_
  intro length t ht hlen
  refine Under.bind ((offText_newTag env).stays ht) ?_
  rintro (_ | tmpTag) t ht
  · exact Under.pure (takes_none ht)
  · refine Under.bind (plistXmlNewSymbol_stays ht hp) ?_
    intro string t ht
    refine Under.bind ((offText_plb64decode env p string length).stays ht) ?_
    intro data t ht
    refine Under.bind ((offText_fillTag tmpTag _).stays ht) ?_
    intro _ t ht
    exact Under.pure (takes_some ht hlen)

theorem plistXmlParseTagDate_stays (hn : n < 2 ^ 32) (h : Holds n s) (hp : p ≤ n) :
    Stays (plistXmlParseTagDate env p) s (Takes n p) := by
  refine fixed_stays hn h hp (fun t ht => takes_none ht) ?_
  intro length t ht hlen
  refine Under.bind ((offText_newTag env).stays ht) ?_
  rintro (_ | tmpTag) t ht
  · exact Under.pure (takes_none ht)
  · refine Under.bind ((offText_fillTag tmpTag _).stays ht) ?_
    intro _ t ht
    exact Under.pure (takes_some ht hlen)

theorem plistXmlParseTagBoolean_stays (type : TagType) (h : Holds n s) (hp : p ≤ n) :
    Stays (plistXmlParseTagBoolean env p type) s (Takes n p) := by
  refine Under.bind ((offText_newTag env).stays h) ?_
  rintro (_ | tmpTag) t ht
  · exact Under.pure (takes_none ht)
  · refine Under.bind ((offText_fillTag tmpTag _).stays ht) ?_
    intro _ t ht
    exact Under.pure (takes_some ht hp)

/-- An integer that starts with markup keeps the length of its start tag. -/
theorem plistXmlParseTagInteger_stays (hn : n < 2 ^ 32) (startLength : Nat) (h : Holds n s) (hp : p ≤ n) :
    Stays (plistXmlParseTagInteger env p startLength) s fun r t => Takes n p r t ∨ (Holds n t ∧
      0 < addU32 startLength startLength ∧ addU32 startLength startLength ≤ startLength + (n - p) ∧
        ∃ a, r = some (a, startLength)) := by
  refine fixed_stays hn h hp (fun t ht => Or.inl (takes_none ht)) ?_
  intro length t ht hlen
  refine Under.bind ((offText_newTag env).stays ht) ?_
  rintro (_ | tmpTag) t ht
  · exact Under.pure (Or.inl (takes_none ht))
  · obtain ⟨pre, u, rfl, hsize, hs⟩ := ht.split hp
    obtain ⟨c, hc⟩ : ∃ c, (u ++ [0])[0]? = some c := by
      cases u with
      | nil => exact ⟨0, rfl⟩
      | cons c u => exact ⟨c, rfl⟩
    refine Under.bind_eq (readByte_spec hs hc) ?_
    by_cases hmarkup : c = 60
    · rw [if_pos hmarkup]
      refine Under.bind ((offText_fillTag tmpTag _).stays ht) ?_
      intro _ t ht
      refine Under.get_bind (Under.emit_bind ?_ fun _ => trivial)
      rintro ⟨hpos, hle⟩
      refine ⟨trivial, Under.pure (Or.inr ⟨ht, hpos, ?_, tmpTag, rfl⟩)⟩
      rw [ht.length] at hle
      omega
    · rw [if_neg hmarkup]
      have hcount : min 39 length ≤ (u ++ [0]).length := by
        rw [List.length_append, List.length_singleton]
        omega
      refine Under.bind_eq (readBytes_spec hs hcount) ?_
      refine Under.bind ((offText_fillTag tmpTag _).stays ht) ?_
      intro _ t ht
      exact Under.pure (Or.inl (takes_some ht hlen))

/-! ### Containers -/

/-- `next` moves on and stays within a text of `n` bytes. -/
def NextStays (n : Nat) (next : Nat → Option Nat → ParserM (Option (Option Nat × Nat))) : Prop :=
  ∀ s p tag, Holds n s → p ≤ n →
    Stays (next p tag) s fun r t => Takes n p r t ∧ ∀ tag' length, r = some (tag', length) → 0 < length

section Containers
variable {next : Nat → Option Nat → ParserM (Option (Option Nat × Nat))}

theorem plistXmlParseTagKey_stays (hnext : NextStays n next) (hn : n < 2 ^ 32) (h : Holds n s) (hp : p ≤ n) :
    Stays (plistXmlParseTagKey env next p) s (Takes n p) := by
  refine fixed_stays hn h hp (fun t ht => takes_none ht) ?_
  intro length t ht hlen
  refine Under.bind (hnext t (p + length) none ht hlen) ?_
  rintro (_ | ⟨subTag, length2⟩) t ⟨⟨ht, hlen2⟩, -⟩
  · exact Under.pure (takes_none ht)
  · refine Under.bind ((offText_newTag env).stays ht) ?_
    rintro (_ | tmpTag) t ht
    · refine Under.bind ((offText_freeTag subTag).stays ht) ?_
      intro _ t ht
      exact Under.pure (takes_none ht)
    · refine Under.bind (plistXmlNewSymbol_stays ht hp) ?_
      rintro (_ | string) t ht
      · refine Under.bind ((offText_reportUncleared tmpTag).stays ht) ?_
        intro _ t ht
        refine Under.bind ((offText_freeTag subTag).stays ht) ?_
        intro _ t ht
        refine Under.bind ((offText_freeTag (some tmpTag)).stays ht) ?_
        intro _ t ht
        exact Under.pure (takes_none ht)
      · refine Under.bind ((offText_fillTag tmpTag _).stays ht) ?_
        intro _ t ht
        have hle := hlen2 subTag length2 rfl
        rw [addU32_eq hn (show length + length2 ≤ n by omega)]
        exact Under.pure (takes_some ht (by omega))

theorem parseTags_stays (hnext : NextStays n next) (hn : n < 2 ^ 32) (count : Nat) {pos : Nat}
    (tagList lastTag : Option Nat) (h : Holds n s) (hp : p + pos ≤ n) :
    Stays (parseTags next p count pos tagList lastTag) s (Takes n p) := by
  induction count generalizing s pos tagList lastTag with
  | zero => exact Under.stop (by decide)
  | succ count ih =>
      refine Under.bind (hnext s (p + pos) lastTag h hp) ?_
      rintro (_ | ⟨_ | tmpTag, length⟩) t ⟨⟨ht, hlen⟩, -⟩
      · refine Under.bind ((offText_freeTag tagList).stays ht) ?_
        intro _ t ht
        exact Under.pure (takes_none ht)
      · have hle := hlen none length rfl
        have hadd : addU32 pos length = pos + length := addU32_eq hn (by omega)
        simp only [hadd]
        exact Under.pure (takes_some ht (by omega))
      · have hle := hlen (some tmpTag) length rfl
        have hadd : addU32 pos length = pos + length := addU32_eq hn (by omega)
        simp only [hadd]
        refine Under.bind ((offText_linkTag tmpTag none).stays ht) ?_
        intro _ t ht
        cases lastTag with
        | none => exact ih (some tmpTag) (some tmpTag) ht (by omega)
        | some last =>
            refine Under.bind ((offText_linkTag last (some tmpTag)).stays ht) ?_
            intro _ t ht
            exact ih tagList (some tmpTag) ht (by omega)

theorem plistXmlParseTagList_stays (hnext : NextStays n next) (hn : n < 2 ^ 32) (fuel : Nat) (type : TagType)
    (empty : Bool) (h : Holds n s) (hp : p ≤ n) :
    Stays (plistXmlParseTagList env next fuel p type empty) s (Takes n p) := by
  have hlist : Stays (if empty then pure (some (none, 0)) else parseTags next p fuel 0 none none) s
      (Takes n p) := by
    cases empty
    · exact parseTags_stays hnext hn fuel none none h hp
    · exact Under.pure (takes_some h hp)
  refine Under.bind hlist ?_
  rintro (_ | ⟨tagList, pos⟩) t ⟨ht, hlen⟩
  · exact Under.pure (takes_none ht)
  · refine Under.bind ((offText_newTag env).stays ht) ?_
    rintro (_ | tmpTag) t ht
    · refine Under.bind ((offText_freeTag tagList).stays ht) ?_
      intro _ t ht
      exact Under.pure (takes_none ht)
    · refine Under.bind ((offText_fillTag tmpTag _).stays ht) ?_
      intro _ t ht
      exact Under.pure (takes_some ht (hlen tagList pos rfl))

/-! ### The next tag -/

/-- The length of a whole element, its start tag included, lies within the text. -/
theorem parseElement_stays (hnext : NextStays n next) (hn : n < 2 ^ 32) (fuel : Nat) {pos : Nat}
    (tag : Option Nat) (markup : Markup) (hpos : 0 < pos) (h : Holds n s) (hp : p + pos ≤ n) :
    Stays (parseElement env next fuel (p + pos) pos tag markup) s fun r t => Holds n t ∧
      ∀ tag' length, r = some (tag', length) → 0 < addU32 pos length ∧ p + addU32 pos length ≤ n := by
  have hsum : ∀ length, p + pos + length ≤ n → 0 < addU32 pos length ∧ p + addU32 pos length ≤ n := by
    intro length hle
    rw [addU32_eq hn (show pos + length ≤ n by omega)]
    omega
  have htakes : ∀ {x : ParserM (Option (Nat × Nat))}, Stays x s (Takes n (p + pos)) →
      Stays ((·.map fun r => (some r.1, r.2)) <$> x) s fun r t => Holds n t ∧
        ∀ (tag' : Option Nat) length, r = some (tag', length) → 0 < addU32 pos length ∧ p + addU32 pos length ≤ n := by
    intro x hx
    refine Under.map (hx.mono id ?_)
    rintro (_ | ⟨a, length⟩) t ⟨ht, hlen⟩
    · exact ⟨ht, fun _ _ h => by cases h⟩
    · refine ⟨ht, ?_⟩
      rintro _ _ ⟨⟩
      exact hsum length (hlen a length rfl)
  have hplain : ∀ tag' : Option Nat, Stays (pure (some (tag', 0)) : ParserM (Option (Option Nat × Nat))) s fun r t =>
      Holds n t ∧ ∀ tag' length, r = some (tag', length) → 0 < addU32 pos length ∧ p + addU32 pos length ≤ n := by
    intro tag'
    refine Under.pure ⟨h, ?_⟩
    rintro _ _ ⟨⟩
    exact hsum 0 hp
  cases markup with
  | plist =>
      have hkept : OffText (reportKept tag) := by
        cases tag with
        | none => exact OffText.pure ()
        | some a => exact OffText.emit trivial
      refine Under.bind (hkept.stays h) ?_
      intro _ t ht
      refine Under.pure ⟨ht, ?_⟩
      rintro _ _ ⟨⟩
      exact hsum 0 hp
  | unknown => exact hplain none
  | list type empty => exact htakes (plistXmlParseTagList_stays hnext hn fuel type empty h hp)
  | key => exact htakes (plistXmlParseTagKey_stays hnext hn h hp)
  | string => exact htakes (plistXmlParseTagString_stays hn h hp)
  | data => exact htakes (plistXmlParseTagData_stays hn h hp)
  | date => exact htakes (plistXmlParseTagDate_stays hn h hp)
  | boolean type => exact htakes (plistXmlParseTagBoolean_stays type h hp)
  | integer =>
      refine Under.map ((plistXmlParseTagInteger_stays hn pos h hp).mono id ?_)
      rintro r t (⟨ht, hlen⟩ | ⟨ht, hadd, hle, a, rfl⟩)
      · refine ⟨ht, ?_⟩
        intro tag' length hr
        cases r with
        | none => cases hr
        | some r =>
            cases hr
            exact hsum r.2 (hlen r.1 r.2 rfl)
      · refine ⟨ht, ?_⟩
        rintro _ _ ⟨⟩
        have hend : p + addU32 pos pos ≤ n := by omega
        exact ⟨hadd, hend⟩

end Containers

theorem plistXmlParseNextTag_stays (hn : n < 2 ^ 32) (fuel : Nat) :
    NextStays n (plistXmlParseNextTag env fuel) := by
  induction fuel with
  | zero =>
      intro s p tag _ _
      exact Under.stop (by decide)
  | succ fuel ih =>
      intro s p tag h hp
      refine Under.bind (plistXmlGetNextTag_stays h hp) ?_
      rintro (_ | ⟨tagName, start, pos⟩) t ⟨ht, hnext⟩
      · exact Under.pure ⟨takes_none ht, fun _ _ h => by cases h⟩
      · obtain ⟨hname, hpos, hle⟩ := hnext tagName start pos rfl
        refine Under.bind (readString_stays ht hname) ?_
        rintro name _ rfl
        refine Under.bind (parseElement_stays ih hn fuel tag (markupOf name) hpos ht hle) ?_
        rintro (_ | ⟨tag', length⟩) t ⟨ht, hlen⟩
        · exact Under.pure ⟨takes_none ht, fun _ _ h => by cases h⟩
        · obtain ⟨hpos', hle'⟩ := hlen tag' length rfl
          refine Under.get_bind (Under.emit_bind (fun _ => ⟨?_, ?_⟩) fun _ => trivial)
          · refine ⟨hpos', ?_⟩
            rw [ht.length]
            omega
          · refine Under.pure ⟨takes_some ht hle', ?_⟩
            rintro _ _ ⟨⟩
            exact hpos'

/-! ### Whole calls -/

theorem parseTop_stays (hn : n < 2 ^ 32) (fuel count : Nat) (tag : Option Nat) (h : Holds n s) (hp : p ≤ n) :
    Stays (parseTop env fuel count p tag) s fun _ _ => True := by
  induction count generalizing s p tag with
  | zero => exact Under.stop (by decide)
  | succ count ih =>
      refine Under.bind (plistXmlParseNextTag_stays hn fuel s p tag h hp) ?_
      rintro (_ | ⟨_ | a, length⟩) t ⟨⟨ht, hlen⟩, -⟩
      · exact Under.pure trivial
      · have hle := hlen none length rfl
        simp only [addU32_eq hn hle]
        exact ih none ht hle
      · have hle := hlen (some a) length rfl
        simp only [addU32_eq hn hle]
        refine Under.bind ((offText_readTag a).stays ht) ?_
        intro tag t ht
        by_cases htype : tag.type = .dict
        · rw [if_pos htype]
          exact Under.pure trivial
        · rw [if_neg htype]
          refine Under.bind ((offText_freeTag (some a)).stays ht) ?_
          intro _ t ht
          exact ih (some a) ht hle

theorem plXmlToNodeCopy_stays {copy : Bytes} {bufferSize : Nat}
    (hcopy : bufferSize ≠ 0 → ∃ text, copy = text ++ [0] ∧ text.length < 2 ^ 32) (s : Parser) :
    Stays (plXmlToNodeCopy env copy bufferSize) s fun _ _ => True := by
  have hparse : Stays (plistXmlParseCopy env copy bufferSize) s fun _ _ => True := by
    unfold plistXmlParseCopy
    by_cases hzero : bufferSize = 0
    · rw [if_pos hzero]
      exact Under.pure trivial
    · obtain ⟨text, rfl, hlen⟩ := hcopy hzero
      rw [if_neg hzero]
      refine Under.bind ((offText_allocate env .text).keeps s) ?_
      rintro (_ | _) t -
      · exact Under.pure trivial
      · rw [if_pos rfl]
        have hholds : Holds text.length { t with configBuffer := text ++ [0] } := ⟨text, rfl, rfl⟩
        refine Under.modify_bind (Under.bind (parseTop_stays hlen _ _ none hholds (Nat.zero_le _)) ?_)
        intro tag t _
        refine Under.bind ((offText_release .text).keeps t) ?_
        intro _ t _
        exact Under.pure trivial
  refine Under.bind hparse ?_
  rintro (_ | plist) t -
  · refine Under.bind (offText_cleanup.keeps t) ?_
    intro _ t _
    exact Under.pure trivial
  · refine Under.bind ((offText_readTag plist).keeps t) ?_
    intro tag t _
    refine Under.bind ((offText_growDict env tag).keeps t) ?_
    intro pn t _
    refine Under.bind ((offText_freeTag (some plist)).keeps t) ?_
    intro _ t _
    refine Under.bind (offText_cleanup.keeps t) ?_
    intro _ t _
    exact Under.pure trivial

end Bounds

/-! ### The other direction

An integer reported with a length that leads out of the text is the last thing a call reports before it
returns that very length. -/

/-- The run reports no such integer. -/
def Calm {α : Type} (x : ParserM α) : Prop := ∀ s, ∀ e ∈ (x s).events, e.InRange

/-- Every such integer is followed by a call that returns its length. -/
def Paired {α : Type} (x : ParserM α) : Prop :=
  ∀ s, (∀ e ∈ (x s).events, e.Within) → ∀ e ∈ (x s).events, e.InRange

section Paired
variable {α β : Type} {x : ParserM α} {f : α → ParserM β}

theorem OffText.calm (h : OffText x) : Calm x := fun s e he => (h.quiet s e he).within.1

theorem inRange_bind {s : Parser} (hx : ∀ e ∈ (x s).events, e.InRange) (hf : ∀ a, Calm (f a)) :
    ∀ e ∈ ((x >>= f) s).events, e.InRange := by
  rw [bind_apply]
  rcases hs : x s with ⟨_ | a, t, l⟩ <;> rw [hs] at hx
  · exact hx
  · intro e he
    rcases List.mem_append.1 he with he | he
    · exact hx e he
    · exact hf a t e he

theorem Calm.bind (hx : Calm x) (hf : ∀ a, Calm (f a)) : Calm (x >>= f) := fun s => inRange_bind (hx s) hf

theorem Calm.get_bind {f : Parser → ParserM α} (hf : ∀ s, Calm (f s)) : Calm (Exec.get >>= f) := fun s => hf s s

theorem calm_pure (a : α) : Calm (pure a : ParserM α) := fun _ _ h => by cases h

theorem calm_stop (e : Fault) : Calm (Exec.stop e : ParserM α) := fun _ _ h => by cases h

theorem Calm.paired (h : Calm x) : Paired x := fun s _ => h s

theorem Paired.bind (hx : Paired x) (hf : ∀ a, Paired (f a)) : Paired (x >>= f) := by
  intro s
  have h := hx s
  rw [bind_apply]
  rcases hs : x s with ⟨_ | a, t, l⟩ <;> rw [hs] at h
  · exact h
  · intro hwithin e he
    rcases List.mem_append.1 he with he | he
    · exact h (fun e he => hwithin e (List.mem_append_left _ he)) e he
    · exact hf a t (fun e he => hwithin e (List.mem_append_right _ he)) e he

theorem calm_scanFor (target : UInt8) (p : Nat) : Calm (scanFor target p) := by
  apply Calm.get_bind
  intro s
  cases scan target (s.configBuffer.drop p) with
  | none => exact calm_stop _
  | some cnt => exact calm_pure cnt

theorem calm_readByte (i : Nat) : Calm (readByte i) := by
  apply Calm.get_bind
  intro s
  cases s.configBuffer[i]? with
  | none => exact calm_stop _
  | some c => exact calm_pure c

theorem calm_writeByte (i : Nat) (c : UInt8) : Calm (writeByte i c) := by
  apply Calm.get_bind
  intro s
  by_cases h : i < s.configBuffer.length
  · rw [if_pos h]
    exact fun _ _ he => by cases he
  · rw [if_neg h]
    exact calm_stop _

theorem calm_readString (p : Nat) : Calm (readString p) :=
  (calm_scanFor 0 p).bind fun _ => Calm.get_bind fun _ => calm_pure _

theorem calm_getNextTag (p : Nat) : Calm (plistXmlGetNextTag p) := by
  apply (calm_scanFor 60 p).bind
  intro cnt
  apply (calm_readByte _).bind
  intro c
  by_cases h : c = 0
  · rw [if_pos h]
    exact calm_pure none
  · rw [if_neg h]
    apply (calm_scanFor 62 _).bind
    intro more
    apply (calm_readByte _).bind
    intro c
    by_cases h : c = 0
    · simp only [if_pos h]
      exact calm_pure none
    · simp only [if_neg h]
      exact (calm_writeByte _ 0).bind fun _ => calm_pure _

theorem calm_fixData (p : Nat) (tag : Bytes) : Calm (plistXmlFixDataMatchingTag p tag) := by
  have hloop : ∀ n start, Calm (fixDataFrom tag p n start) := by
    intro n
    induction n with
    | zero => exact fun _ => calm_stop _
    | succ n ih =>
        intro start
        apply (calm_getNextTag (p + start)).bind
        rintro (_ | ⟨endTag, stop, length⟩)
        · exact calm_pure none
        · apply (calm_readString endTag).bind
          intro name
          by_cases h : name = 47 :: tag
          · simp only [if_pos h]
            exact (calm_writeByte _ 0).bind fun _ => calm_pure _
          · simp only [if_neg h]
            exact ih _
  exact hloop _ 0

/-- The tail of an element function that runs once the text is fixed. -/
theorem Calm.afterFix {f : Nat → ParserM (Option α)} (hf : ∀ length, Calm (f length)) (p : Nat) (tag : Bytes) :
    Calm (do
      match ← plistXmlFixDataMatchingTag p tag with
      | none => pure none
      | some length => f length) := by
  apply (calm_fixData p tag).bind
  rintro (_ | length)
  · exact calm_pure none
  · exact hf length

variable (env : Env)

theorem calm_newSymbol (p : Nat) : Calm (plistXmlNewSymbol env p) :=
  (calm_readString p).bind fun string => (offText_newSymbol env string).calm

theorem calm_parseTagString (p : Nat) : Calm (plistXmlParseTagString env p) := by
  apply Calm.afterFix
  intro length
  apply (offText_newTag env).calm.bind
  rintro (_ | tmpTag)
  · exact calm_pure none
  · apply (calm_newSymbol env p).bind
    rintro (_ | string)
    · exact (offText_reportUncleared tmpTag).calm.bind fun _ =>
        (offText_freeTag _).calm.bind fun _ => calm_pure none
    · exact (offText_fillTag tmpTag _).calm.bind fun _ => calm_pure _

theorem calm_parseTagData (p : Nat) : Calm (plistXmlParseTagData env p) := by
  apply Calm.afterFix
  intro length
  apply (offText_newTag env).calm.bind
  rintro (_ | tmpTag)
  · exact calm_pure none
  · apply (calm_newSymbol env p).bind
    intro string
    apply (offText_plb64decode env p string length).calm.bind
    intro data
    exact (offText_fillTag tmpTag _).calm.bind fun _ => calm_pure _

theorem calm_parseTagDate (p : Nat) : Calm (plistXmlParseTagDate env p) := by
  apply Calm.afterFix
  intro length
  apply (offText_newTag env).calm.bind
  rintro (_ | tmpTag)
  · exact calm_pure none
  · exact (offText_fillTag tmpTag _).calm.bind fun _ => calm_pure _

theorem calm_parseTagBoolean (p : Nat) (type : TagType) : Calm (plistXmlParseTagBoolean env p type) := by
  apply (offText_newTag env).calm.bind
  rintro (_ | tmpTag)
  · exact calm_pure none
  · exact (offText_fillTag tmpTag _).calm.bind fun _ => calm_pure _

/-- How an integer is reported: within the text, or last and with the length of its start tag. -/
def Reports (p startLength : Nat) (x : ParserM (Option (Nat × Nat))) : Prop :=
  ∀ s, (∀ e ∈ (x s).events, e.InRange) ∨ ∃ a, (x s).result = .ok (some (a, startLength)) ∧
    ¬Event.InRange (.shortInteger startLength ((x s).state.configBuffer.length - 1 - p))

theorem Reports.bind {p startLength : Nat} {f : α → ParserM (Option (Nat × Nat))} (hx : Calm x)
    (hf : ∀ a, Reports p startLength (f a)) : Reports p startLength (x >>= f) := by
  intro s
  have h := hx s
  rw [bind_apply]
  rcases hs : x s with ⟨_ | a, t, l⟩ <;> rw [hs] at h
  · exact Or.inl h
  · rcases hf a t with hcalm | hshort
    · refine Or.inl fun e he => ?_
      rcases List.mem_append.1 he with he | he
      · exact h e he
      · exact hcalm e he
    · exact Or.inr hshort

theorem Calm.reports {p startLength : Nat} {x : ParserM (Option (Nat × Nat))} (h : Calm x) :
    Reports p startLength x := fun s => Or.inl (h s)

theorem reports_parseTagInteger (p startLength : Nat) :
    Reports p startLength (plistXmlParseTagInteger env p startLength) := by
  apply Reports.bind (calm_fixData p _)
  rintro (_ | length)
  · exact (calm_pure none).reports
  · apply Reports.bind (offText_newTag env).calm
    rintro (_ | tmpTag)
    · exact (calm_pure none).reports
    · apply Reports.bind (calm_readByte p)
      intro c
      by_cases h : c = 60
      · rw [if_pos h]
        apply Reports.bind (offText_fillTag tmpTag _).calm
        intro _ s
        by_cases hrange : Event.InRange (.shortInteger startLength (s.configBuffer.length - 1 - p))
        · refine Or.inl fun e he => ?_
          rw [List.mem_singleton.1 he]
          exact hrange
        · exact Or.inr ⟨tmpTag, rfl, hrange⟩
      · rw [if_neg h]
        have hread : Calm (readBytes p (min 39 length)) := by
          apply Calm.get_bind
          intro s
          by_cases hle : p + min 39 length ≤ s.configBuffer.length
          · rw [if_pos hle]
            exact calm_pure _
          · rw [if_neg hle]
            exact calm_stop _
        apply Reports.bind hread
        intro vbuf
        exact ((offText_fillTag tmpTag _).calm.bind fun _ => calm_pure _).reports

variable {env} {next : Nat → Option Nat → ParserM (Option (Option Nat × Nat))}

theorem paired_parseTagKey (hnext : ∀ p tag, Paired (next p tag)) (p : Nat) :
    Paired (plistXmlParseTagKey env next p) := by
  apply (calm_fixData p _).paired.bind
  rintro (_ | length)
  · exact (calm_pure none).paired
  · apply (hnext (p + length) none).bind
    rintro (_ | ⟨subTag, length2⟩)
    · exact (calm_pure none).paired
    · apply Calm.paired
      apply (offText_newTag env).calm.bind
      rintro (_ | tmpTag)
      · exact (offText_freeTag subTag).calm.bind fun _ => calm_pure none
      · apply (calm_newSymbol env p).bind
        rintro (_ | string)
        · exact (offText_reportUncleared tmpTag).calm.bind fun _ => (offText_freeTag subTag).calm.bind fun _ =>
            (offText_freeTag _).calm.bind fun _ => calm_pure none
        · exact (offText_fillTag tmpTag _).calm.bind fun _ => calm_pure _

theorem paired_parseTags (hnext : ∀ p tag, Paired (next p tag)) (p count pos : Nat)
    (tagList lastTag : Option Nat) : Paired (parseTags next p count pos tagList lastTag) := by
  induction count generalizing pos tagList lastTag with
  | zero => exact (calm_stop _).paired
  | succ count ih =>
      apply (hnext (p + pos) lastTag).bind
      rintro (_ | ⟨_ | tmpTag, length⟩)
      · exact ((offText_freeTag tagList).calm.bind fun _ => calm_pure none).paired
      · exact (calm_pure _).paired
      · apply (offText_linkTag tmpTag none).calm.paired.bind
        intro _
        cases lastTag with
        | none => exact ih _ _ _
        | some last => exact (offText_linkTag last _).calm.paired.bind fun _ => ih _ _ _

theorem paired_parseTagList (hnext : ∀ p tag, Paired (next p tag)) (fuel p : Nat) (type : TagType) (empty : Bool) :
    Paired (plistXmlParseTagList env next fuel p type empty) := by
  have hlist : Paired (if empty then pure (some (none, 0)) else parseTags next p fuel 0 none none) := by
    cases empty
    · exact paired_parseTags hnext p fuel 0 none none
    · exact (calm_pure _).paired
  apply hlist.bind
  rintro (_ | ⟨tagList, pos⟩)
  · exact (calm_pure none).paired
  · apply Calm.paired
    apply (offText_newTag env).calm.bind
    rintro (_ | tmpTag)
    · exact (offText_freeTag tagList).calm.bind fun _ => calm_pure none
    · exact (offText_fillTag tmpTag _).calm.bind fun _ => calm_pure _

/-- The call that returns an element reports its whole length. -/
def reportReturned (p pos : Nat) : Option (Option Nat × Nat) → ParserM (Option (Option Nat × Nat))
  | none => pure none
  | some (tag, length) => do
      let s ← Exec.get
      Exec.emit (.returned (s.configBuffer.length - 1 - p) (addU32 pos length) tag s.toTagStore)
      pure (some (tag, addU32 pos length))

theorem paired_parseElement (hnext : ∀ p tag, Paired (next p tag)) (fuel p pos : Nat) (tag : Option Nat)
    (markup : Markup) :
    Paired (parseElement env next fuel (p + pos) pos tag markup >>= reportReturned p pos) := by
  have hreport : ∀ r, Calm (reportReturned p pos r) := by
    rintro (_ | ⟨tag, length⟩)
    · exact calm_pure none
    · intro s e he
      rw [List.mem_singleton.1 he]
      trivial
  have hplain : ∀ {x : ParserM (Option (Nat × Nat))}, Paired x →
      Paired ((·.map fun r => (some r.1, r.2)) <$> x >>= reportReturned p pos) :=
    fun hx => (hx.bind fun _ => (calm_pure _).paired).bind fun r => (hreport r).paired
  cases markup with
  | plist =>
      have hkept : Calm (reportKept tag) := by
        cases tag with
        | none => exact calm_pure ()
        | some a => exact (OffText.emit (e := .keptTag a) trivial).calm
      exact ((hkept.bind fun _ => calm_pure _).bind hreport).paired
  | unknown => exact ((calm_pure _).bind hreport).paired
  | list type empty => exact hplain (paired_parseTagList hnext fuel (p + pos) type empty)
  | key => exact hplain (paired_parseTagKey hnext (p + pos))
  | string => exact hplain (calm_parseTagString env (p + pos)).paired
  | data => exact hplain (calm_parseTagData env (p + pos)).paired
  | date => exact hplain (calm_parseTagDate env (p + pos)).paired
  | boolean type => exact hplain (calm_parseTagBoolean env (p + pos) type).paired
  | integer =>
      intro s hwithin
      rcases reports_parseTagInteger env (p + pos) pos s with hcalm | ⟨a, hresult, hshort⟩
      · exact inRange_bind (inRange_bind hcalm fun _ => calm_pure _) hreport
      · refine absurd ?_ hshort
        rcases hx : plistXmlParseTagInteger env (p + pos) pos s with ⟨r, t, l⟩
        rw [hx] at hresult
        have hr : r = .ok (some (a, pos)) := hresult
        subst hr
        have hrun : (parseElement env next fuel (p + pos) pos tag .integer >>= reportReturned p pos) s =
            (reportReturned p pos (some (some a, pos)) t).after l := by
          have hmap : parseElement env next fuel (p + pos) pos tag .integer s =
              ⟨.ok (some (some a, pos)), t, l⟩ := by
            show ((plistXmlParseTagInteger env (p + pos) pos) >>= fun r => pure _) s = _
            rw [bind_of_ok hx]
            simp [Outcome.after]
          exact bind_of_ok hmap _
        rw [hrun] at hwithin
        obtain ⟨hpos, hle⟩ := hwithin _ (List.mem_append_right l List.mem_cons_self)
        refine ⟨hpos, ?_⟩
        simp only
        omega

theorem paired_parseNextTag (fuel p : Nat) (tag : Option Nat) : Paired (plistXmlParseNextTag env fuel p tag) := by
  induction fuel generalizing p tag with
  | zero => exact (calm_stop _).paired
  | succ fuel ih =>
      apply (calm_getNextTag p).paired.bind
      rintro (_ | ⟨tagName, start, pos⟩)
      · exact (calm_pure none).paired
      · apply (calm_readString tagName).paired.bind
        intro name
        exact paired_parseElement ih fuel p pos tag (markupOf name)

theorem paired_parseTop (fuel count p : Nat) (tag : Option Nat) : Paired (parseTop env fuel count p tag) := by
  induction count generalizing p tag with
  | zero => exact (calm_stop _).paired
  | succ count ih =>
      apply (paired_parseNextTag fuel p tag).bind
      rintro (_ | ⟨_ | a, length⟩)
      · exact (calm_pure none).paired
      · exact ih _ none
      · apply (offText_readTag a).calm.paired.bind
        intro tag
        by_cases htype : tag.type = .dict
        · rw [if_pos htype]
          exact (calm_pure _).paired
        · rw [if_neg htype]
          exact (offText_freeTag (some a)).calm.paired.bind fun _ => ih _ (some a)

theorem paired_plXmlToNodeCopy (copy : Bytes) (bufferSize : Nat) :
    Paired (plXmlToNodeCopy env copy bufferSize) := by
  have hparse : Paired (plistXmlParseCopy env copy bufferSize) := by
    unfold plistXmlParseCopy
    by_cases hzero : bufferSize = 0
    · rw [if_pos hzero]
      exact (calm_pure none).paired
    · rw [if_neg hzero]
      apply (offText_allocate env .text).calm.paired.bind
      intro ok
      cases ok
      · exact (calm_pure none).paired
      · have hmodify : Calm (Exec.modify fun s : Parser => { s with configBuffer := copy }) :=
          fun _ _ h => by cases h
        apply hmodify.paired.bind
        intro _
        exact (paired_parseTop _ _ 0 none).bind fun _ =>
          ((offText_release .text).calm.bind fun _ => calm_pure _).paired
  apply hparse.bind
  rintro (_ | plist)
  · exact (offText_cleanup.calm.bind fun _ => calm_pure none).paired
  · exact ((offText_readTag plist).calm.bind fun tag => (offText_growDict env tag).calm.bind fun _ =>
      (offText_freeTag _).calm.bind fun _ => offText_cleanup.calm.bind fun _ => calm_pure _).paired

end Paired

/-- An integer that holds markup, behind blanks: twice the length of its start tag leads out of the text. -/
def markedInteger : Bytes := ascii "                    <integer><x></integer>"

end BareBoot.Plist
