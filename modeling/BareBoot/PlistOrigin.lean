import BareBoot.PlistOffText
import BareBoot.PlistRoundTrip

/-! Every tree a call of `plXmlToNode` returns can be printed: it is built by the API, holds no date, and
its texts are C strings. This holds of any call whatever, also of one whose tag lists run into themselves,
as it only depends on what is ever written to a tag. -/

namespace BareBoot.Plist

open Exec

/-! ### What is kept -/

/-- The text of a tag is a C string, and a date has none. -/
structure TagBody.Origin (b : TagBody) : Prop where
  string : ∀ d, b.string = some d → 0 ∉ d ∧ d.length < 2 ^ 32
  data : ∀ d, b.data = some d → d.length < 2 ^ 32
  date : b.type = .date → b.string = none

structure Parser.Original (s : Parser) : Prop where
  tags : ∀ tag, some tag ∈ s.tags → tag.toTagBody.Origin
  text : s.configBuffer.length < 2 ^ 32

/-- A run that ends with a result keeps the tags in order, and the result meets `Q`. -/
def Keeps {α : Type} (x : ParserM α) (Q : α → Prop) : Prop :=
  ∀ s, s.Original → ∀ a, (x s).result = .ok a → (x s).state.Original ∧ Q a

section Keeps
variable {α β : Type} {Q : α → Prop} {P : β → Prop}

theorem Keeps.pure {a : α} (h : Q a) : Keeps (pure a : ParserM α) Q := by
  rintro s hs _ ⟨⟩
  exact ⟨hs, h⟩

theorem Keeps.stop {e : Fault} : Keeps (Exec.stop e : ParserM α) Q := by
  rintro s _ _ ⟨⟩

theorem Keeps.emit (e : Event) : Keeps (Exec.emit e : ParserM Unit) fun _ => True := by
  rintro s hs _ -
  exact ⟨hs, trivial⟩

theorem Keeps.get : Keeps (Exec.get : ParserM Parser) Parser.Original := by
  rintro s hs _ ⟨⟩
  exact ⟨hs, hs⟩

theorem Keeps.modify {f : Parser → Parser} (h : ∀ s : Parser, s.Original → (f s).Original) :
    Keeps (Exec.modify f : ParserM Unit) fun _ => True := by
  rintro s hs _ -
  exact ⟨h s hs, trivial⟩

theorem Keeps.bind {x : ParserM α} {f : α → ParserM β} (hx : Keeps x Q) (hf : ∀ a, Q a → Keeps (f a) P) :
    Keeps (x >>= f) P := by
  intro s hs b hb
  have hkept := hx s hs
  rw [bind_apply] at hb ⊢
  rcases hxs : x s with ⟨e | a, t, l⟩ <;> rw [hxs] at hb hkept
  · cases hb
  · obtain ⟨ht, hq⟩ := hkept a rfl
    exact hf a hq t ht b hb

theorem Keeps.modify_bind {f : Parser → Parser} {g : Unit → ParserM β} (h : ∀ s : Parser, s.Original → (f s).Original)
    (hg : Keeps (g ()) P) : Keeps (Exec.modify f >>= g) P := (Keeps.modify h).bind fun _ _ => hg

theorem Keeps.map {x : ParserM α} {f : α → β} (hx : Keeps x Q) (hf : ∀ a, Q a → P (f a)) : Keeps (f <$> x) P :=
  hx.bind fun a ha => Keeps.pure (hf a ha)

theorem Keeps.mono {x : ParserM α} {Q' : α → Prop} (hx : Keeps x Q) (h : ∀ a, Q a → Q' a) : Keeps x Q' :=
  fun s hs a ha => ⟨(hx s hs a ha).1, h a (hx s hs a ha).2⟩

theorem Keeps.forM {x : α → ParserM Unit} (hx : ∀ a, Keeps (x a) fun _ => True) (l : List α) :
    Keeps (l.forM x) fun _ => True := by
  induction l with
  | nil => exact Keeps.pure trivial
  | cons a l ih => exact (hx a).bind fun _ _ => ih

end Keeps

abbrev KeepsAny {α : Type} (x : ParserM α) : Prop := Keeps x fun _ => True

/-! ### The pool, the text and the symbols -/

section Memory
variable {env : Env}

theorem keeps_allocate (pool : Pool) : KeepsAny (allocate env pool) := by
  apply Keeps.get.bind
  intro s _
  refine Keeps.modify_bind (fun t ht => ⟨ht.tags, ht.text⟩) ?_
  by_cases h : env.alloc s.allocs = true
  · rw [if_pos h]
    exact (Keeps.emit _).bind fun _ _ => Keeps.pure trivial
  · rw [if_neg h]
    exact Keeps.pure trivial

theorem keeps_release (pool : Pool) : KeepsAny (release pool) := Keeps.emit _

theorem keeps_scanFor (target : UInt8) (buffer : Nat) : KeepsAny (scanFor target buffer) := by
  apply Keeps.get.bind
  intro s _
  cases scan target (s.configBuffer.drop buffer) with
  | none => exact Keeps.stop
  | some cnt => exact Keeps.pure trivial

theorem keeps_readByte (i : Nat) : KeepsAny (readByte i) := by
  apply Keeps.get.bind
  intro s _
  cases s.configBuffer[i]? with
  | none => exact Keeps.stop
  | some c => exact Keeps.pure trivial

theorem keeps_writeByte (i : Nat) (c : UInt8) : KeepsAny (writeByte i c) := by
  apply Keeps.get.bind
  intro s _
  by_cases h : i < s.configBuffer.length
  · rw [if_pos h]
    refine Keeps.modify fun t ht => ⟨ht.tags, ?_⟩
    rw [List.length_set]
    exact ht.text
  · rw [if_neg h]
    exact Keeps.stop

theorem keeps_readBytes (buffer count : Nat) : KeepsAny (readBytes buffer count) := by
  apply Keeps.get.bind
  intro s _
  by_cases h : buffer + count ≤ s.configBuffer.length
  · rw [if_pos h]
    exact Keeps.pure trivial
  · rw [if_neg h]
    exact Keeps.stop

/-- The bytes before the first `NUL`. -/
theorem not_mem_take_of_scan {l : Bytes} {cnt : Nat} (h : scan 0 l = some cnt) : (0 : UInt8) ∉ l.take cnt := by
  induction l generalizing cnt with
  | nil => cases h
  | cons c l ih =>
      rw [scan] at h
      by_cases h0 : c = 0
      · rw [if_pos (Or.inl h0)] at h
        cases h
        simp
      · rw [if_neg (by simpa using h0), Option.map_eq_some_iff] at h
        obtain ⟨cnt', hcnt, rfl⟩ := h
        rw [List.take_succ_cons, List.mem_cons, not_or]
        exact ⟨fun h => h0 h.symm, ih hcnt⟩

/-- A C string that fits 32 bits. -/
def CString (d : Bytes) : Prop := 0 ∉ d ∧ d.length < 2 ^ 32

theorem keeps_readString (buffer : Nat) : Keeps (readString buffer) CString := by
  intro s hs d hd
  rw [readString, bind_apply, scanFor, get_bind_apply] at hd ⊢
  rcases hscan : scan 0 (s.configBuffer.drop buffer) with _ | cnt <;> simp only [hscan, stop_apply, pure_apply] at hd ⊢
  · cases hd
  · rw [get_bind_apply] at hd ⊢
    cases hd
    refine ⟨hs, not_mem_take_of_scan hscan, ?_⟩
    have h1 := hs.text
    have h2 := List.length_take_le' cnt (s.configBuffer.drop buffer)
    rw [List.length_drop] at h2
    show (List.take cnt (s.configBuffer.drop buffer)).length < _
    omega

theorem keeps_liveSymbols : KeepsAny liveSymbols := by
  apply Keeps.get.bind
  intro s _
  cases s.danglingSymbols with
  | false => exact Keeps.pure trivial
  | true => exact Keeps.stop

/-- A symbol is the text read. -/
theorem keeps_newSymbol (buffer : Nat) : Keeps (plistXmlNewSymbol env buffer) fun r => ∀ d, r = some d → CString d := by
  apply (keeps_readString buffer).bind
  intro string hstring
  apply keeps_liveSymbols.bind
  intro symbols _
  have hsome : ∀ d, some string = some d → CString d := by
    rintro _ ⟨⟩
    exact hstring
  have hnone : ∀ d, (none : Option Bytes) = some d → CString d := fun d h => by cases h
  have hmodify : ∀ symbols : List Symbol, KeepsAny (Exec.modify fun s : Parser => { s with symbols := symbols }) :=
    fun symbols => Keeps.modify fun t ht => ⟨ht.tags, ht.text⟩
  cases bumpSymbol string symbols with
  | some symbols => exact (hmodify symbols).bind fun _ _ => Keeps.pure hsome
  | none =>
      apply (keeps_allocate .symbol).bind
      intro ok _
      cases ok with
      | false => exact Keeps.pure hnone
      | true =>
          rw [if_pos rfl]
          by_cases h : env.strcpy string.length = true
          · rw [if_pos h]
            exact (hmodify _).bind fun _ _ => Keeps.pure hsome
          · rw [if_neg h]
            exact (keeps_release .symbol).bind fun _ _ => Keeps.pure hnone

theorem keeps_freeString (string : Option Bytes) : KeepsAny (freeString string) := by
  cases string with
  | none => exact Keeps.pure trivial
  | some string =>
      apply keeps_liveSymbols.bind
      intro symbols _
      cases dropSymbol string symbols with
      | none => exact Keeps.pure trivial
      | some r =>
          obtain ⟨last, symbols⟩ := r
          refine Keeps.modify_bind (fun t ht => ⟨ht.tags, ht.text⟩) ?_
          cases last with
          | false => exact Keeps.pure trivial
          | true => exact keeps_release .symbol

end Memory

/-! ### Tags -/

section Tags
variable {env : Env}

theorem mem_tags_of_tagAt {s : TagStore} {a : Nat} {tag : Tag} (h : s.tagAt a = some tag) : some tag ∈ s.tags := by
  rw [TagStore.tagAt] at h
  rcases hget : s.tags[a]? with _ | t
  · rw [hget] at h
    cases h
  · rw [hget] at h
    have ht : t = some tag := h
    exact ht ▸ List.mem_of_getElem? hget

theorem keeps_readTag (a : Nat) : Keeps (readTag a) fun tag => tag.toTagBody.Origin := by
  apply Keeps.get.bind
  intro s hs
  rcases htag : s.tagAt a with _ | tag
  · exact Keeps.stop
  · exact Keeps.pure (hs.tags tag (mem_tags_of_tagAt htag))

theorem keeps_writeTag (a : Nat) {t : Option Tag} (h : ∀ tag, t = some tag → tag.toTagBody.Origin) :
    KeepsAny (writeTag a t) := by
  refine Keeps.modify fun s hs => ⟨?_, hs.text⟩
  intro tag htag
  rcases List.mem_or_eq_of_mem_set htag with htag | htag
  · exact hs.tags tag htag
  · exact h tag htag.symm

theorem keeps_snapshot : KeepsAny snapshot :=
  Keeps.get.bind fun _ _ => (Keeps.emit _).bind fun _ _ => Keeps.emit _

theorem keeps_newTag : KeepsAny (plistXmlNewTag env) := by
  apply Keeps.get.bind
  intro s _
  cases s.tagsFree with
  | none =>
      apply (keeps_allocate .tag).bind
      intro ok _
      cases ok with
      | false => exact Keeps.pure trivial
      | true =>
          rw [if_pos rfl]
          refine Keeps.modify_bind (fun t ht => ⟨?_, ht.text⟩) (Keeps.pure trivial)
          intro tag htag
          rcases List.mem_append.1 htag with htag | htag
          · exact ht.tags tag htag
          · have hzero : tag = zeroTag := by simpa using htag
            rw [hzero]
            exact ⟨fun d h => (by cases h), fun d h => (by cases h), fun h => by cases h⟩
  | some a =>
      apply (keeps_readTag a).bind
      intro tag _
      exact Keeps.modify_bind (fun t ht => ⟨ht.tags, ht.text⟩) (Keeps.pure trivial)

theorem keeps_fillTag (a : Nat) {f : Tag → Tag} (h : ∀ tag : Tag, tag.toTagBody.Origin → (f tag).toTagBody.Origin) :
    KeepsAny (fillTag a f) := by
  apply (keeps_readTag a).bind
  intro tag htag
  refine (keeps_writeTag a ?_).bind fun _ _ => keeps_snapshot
  rintro _ ⟨⟩
  exact h tag htag

theorem keeps_linkTag (a : Nat) (next : Option Nat) : KeepsAny (linkTag a next) := by
  apply (keeps_readTag a).bind
  intro tag htag
  refine (keeps_writeTag a ?_).bind fun _ _ => keeps_snapshot
  rintro _ ⟨⟩
  exact htag

theorem keeps_pushFree (a : Nat) : KeepsAny (pushFree a) := by
  have hreport : KeepsAny (reportFreed a) := by
    apply Keeps.get.bind
    intro s _
    by_cases h : a ∈ s.freeChain (s.tags.length + 1) s.tagsFree
    · rw [if_pos h]
      exact Keeps.emit _
    · rw [if_neg h]
      exact Keeps.pure trivial
  apply hreport.bind
  intro _ _
  apply Keeps.get.bind
  intro s _
  apply (keeps_readTag a).bind
  intro tag htag
  refine (keeps_writeTag a ?_).bind fun _ _ => Keeps.modify fun t ht => ⟨ht.tags, ht.text⟩
  rintro _ ⟨⟩
  exact ⟨fun d h => (by cases h), htag.data, fun h => by cases h⟩

theorem keeps_freeTags (n : Nat) (tag : Option Nat) : KeepsAny (freeTags n tag) := by
  induction n generalizing tag with
  | zero =>
      cases tag with
      | none => exact Keeps.pure trivial
      | some a => exact Keeps.stop
  | succ n ih =>
      cases tag with
      | none => exact Keeps.pure trivial
      | some a =>
          apply (keeps_readTag a).bind
          intro tag _
          apply (keeps_freeString tag.string).bind
          intro _ _
          apply (ih tag.tag).bind
          intro _ _
          apply (keeps_readTag a).bind
          intro tag _
          apply (ih tag.tagNext).bind
          intro _ _
          exact keeps_pushFree a

theorem keeps_freeTag (tag : Option Nat) : KeepsAny (plistXmlFreeTag tag) :=
  Keeps.get.bind fun _ _ => (keeps_freeTags _ tag).bind fun _ _ => keeps_snapshot

theorem keeps_reportUncleared (a : Nat) : KeepsAny (reportUncleared a) := by
  apply (keeps_readTag a).bind
  intro tag _
  by_cases h : tag.tagNext = none
  · rw [if_pos h]
    exact Keeps.pure trivial
  · rw [if_neg h]
    exact Keeps.emit _

end Tags

/-! ### Elements -/

section Elements
variable {env : Env}

theorem keeps_getNextTag (buffer : Nat) : KeepsAny (plistXmlGetNextTag buffer) := by
  apply (keeps_scanFor 60 buffer).bind
  intro cnt _
  apply (keeps_readByte _).bind
  intro c _
  by_cases h : c = 0
  · rw [if_pos h]
    exact Keeps.pure trivial
  · rw [if_neg h]
    apply (keeps_scanFor 62 _).bind
    intro more _
    apply (keeps_readByte _).bind
    intro c _
    by_cases h : c = 0
    · rw [if_pos h]
      exact Keeps.pure trivial
    · rw [if_neg h]
      exact (keeps_writeByte _ _).bind fun _ _ => Keeps.pure trivial

theorem keeps_fixData (buffer : Nat) (tag : Bytes) : KeepsAny (plistXmlFixDataMatchingTag buffer tag) := by
  have hloop : ∀ n start, KeepsAny (fixDataFrom tag buffer n start) := by
    intro n
    induction n with
    | zero => exact fun _ => Keeps.stop
    | succ n ih =>
        intro start
        apply (keeps_getNextTag _).bind
        rintro (_ | ⟨endTag, stop, length⟩) _
        · exact Keeps.pure trivial
        · apply (keeps_readString endTag).bind
          intro name _
          by_cases h : name = 47 :: tag
          · simp only [h, if_true]
            exact (keeps_writeByte _ _).bind fun _ _ => Keeps.pure trivial
          · simp only [h, if_false]
            exact ih _
  exact hloop _ _

/-- The steps an element with an end tag starts with. -/
theorem keeps_fixed {α : Type} {f : Nat → ParserM (Option α)} {buffer : Nat} {tag : Bytes}
    (hf : ∀ length, KeepsAny (f length)) :
    KeepsAny (do
      match ← plistXmlFixDataMatchingTag buffer tag with
      | none => pure none
      | some length => f length) := by
  apply (keeps_fixData buffer tag).bind
  rintro (_ | length) _
  · exact Keeps.pure trivial
  · exact hf length

theorem keeps_string (buffer : Nat) : KeepsAny (plistXmlParseTagString env buffer) := by
  apply keeps_fixed
  intro length
  apply keeps_newTag.bind
  rintro (_ | tmpTag) _
  · exact Keeps.pure trivial
  · apply (keeps_newSymbol buffer).bind
    rintro (_ | string) hstring
    · apply (keeps_reportUncleared tmpTag).bind
      intro _ _
      exact (keeps_freeTag _).bind fun _ _ => Keeps.pure trivial
    · refine (keeps_fillTag tmpTag ?_).bind fun _ _ => Keeps.pure trivial
      exact fun tag htag => ⟨hstring, htag.data, fun h => by cases h⟩

theorem keeps_integer (buffer startLength : Nat) : KeepsAny (plistXmlParseTagInteger env buffer startLength) := by
  apply keeps_fixed
  intro length
  apply keeps_newTag.bind
  rintro (_ | tmpTag) _
  · exact Keeps.pure trivial
  · apply (keeps_readByte buffer).bind
    intro c _
    by_cases h : c = 60
    · rw [if_pos h]
      refine (keeps_fillTag tmpTag ?_).bind fun _ _ => ?_
      · exact fun tag htag => ⟨fun d h => (by cases h), htag.data, fun h => by cases h⟩
      · exact Keeps.get.bind fun _ _ => (Keeps.emit _).bind fun _ _ => Keeps.pure trivial
    · rw [if_neg h]
      apply (keeps_readBytes _ _).bind
      intro vbuf _
      refine (keeps_fillTag tmpTag ?_).bind fun _ _ => Keeps.pure trivial
      exact fun tag htag => ⟨htag.string, htag.data, fun h => by cases h⟩

theorem keeps_readUnreadable {α : Type} {Q : α → Prop} : Keeps (readUnreadable : ParserM α) Q :=
  (Keeps.emit _).bind fun _ _ => Keeps.stop

/-- Decoding gives no more bytes than it reads. -/
theorem keeps_decode (buffer : Nat) (idat : Option Bytes) (ilen : Nat) :
    Keeps (plb64decode env buffer idat ilen) fun r => ∀ d, r = some d → d.length < 2 ^ 32 := by
  have hnone : ∀ d, (none : Option Bytes) = some d → d.length < 2 ^ 32 := fun d h => by cases h
  unfold plb64decode
  cases idat with
  | none => exact Keeps.pure hnone
  | some string =>
      simp only
      by_cases h0 : ilen = 0
      · rw [if_pos h0]
        exact Keeps.pure hnone
      · rw [if_neg h0]
        apply (keeps_allocate .datum).bind
        rintro (_ | _) _
        · exact Keeps.pure hnone
        · rw [if_pos rfl]
          by_cases hwide : ilen < 2 ^ 31
          · rw [if_pos hwide]
            have hread : Keeps (readSymbol env buffer string ilen) fun idat => idat.length ≤ ilen := by
              unfold readSymbol
              simp only
              by_cases hheld : ilen ≤ (string ++ List.replicate 9 (0 : UInt8)).length
              · rw [if_pos hheld]
                exact Keeps.pure (List.length_take_le _ _)
              · rw [if_neg hheld]
                apply (Keeps.emit _).bind
                intro _ _
                rcases hbehind : (List.range (ilen - (string ++ List.replicate 9 (0 : UInt8)).length)).mapM
                  (env.behindSymbol buffer) with _ | behind
                · exact keeps_readUnreadable
                · refine Keeps.pure ?_
                  have hlen := length_of_mapM _ hbehind
                  rw [List.length_range] at hlen
                  rw [List.length_append, hlen]
                  omega
            have hdecode : Keeps (decodeSymbol env buffer string ilen) fun d => d.length < 2 ^ 32 := by
              apply hread.bind
              intro idat hidat
              have hshort : ∀ c, (base64Decode c idat).length < 2 ^ 32 := by
                intro c
                have := length_base64DecodeBlock_le c .a 0 idat
                rw [base64Decode]
                omega
              by_cases hbrace : 123 ∈ idat
              · rw [if_pos hbrace]
                cases env.behindTable with
                | some c => exact Keeps.pure (hshort c)
                | none => exact keeps_readUnreadable
              · rw [if_neg hbrace]
                exact Keeps.pure (hshort 0)
            apply hdecode.bind
            intro d hd
            refine (Keeps.emit _).bind fun _ _ => Keeps.pure ?_
            rintro _ ⟨⟩
            exact hd
          · rw [if_neg hwide]
            exact (Keeps.emit _).bind fun _ _ => Keeps.stop

theorem keeps_data (buffer : Nat) : KeepsAny (plistXmlParseTagData env buffer) := by
  apply keeps_fixed
  intro length
  apply keeps_newTag.bind
  rintro (_ | tmpTag) _
  · exact Keeps.pure trivial
  · apply (keeps_newSymbol buffer).bind
    intro string hstring
    apply (keeps_decode buffer string length).bind
    intro data hdata
    refine (keeps_fillTag tmpTag ?_).bind fun _ _ => Keeps.pure trivial
    exact fun tag _ => ⟨hstring, hdata, fun h => by cases h⟩

theorem keeps_date (buffer : Nat) : KeepsAny (plistXmlParseTagDate env buffer) := by
  apply keeps_fixed
  intro length
  apply keeps_newTag.bind
  rintro (_ | tmpTag) _
  · exact Keeps.pure trivial
  · refine (keeps_fillTag tmpTag ?_).bind fun _ _ => Keeps.pure trivial
    exact fun tag htag => ⟨fun d h => (by cases h), htag.data, fun _ => rfl⟩

theorem keeps_boolean (buffer : Nat) (type : TagType) : KeepsAny (plistXmlParseTagBoolean env buffer type) := by
  apply keeps_newTag.bind
  rintro (_ | tmpTag) _
  · exact Keeps.pure trivial
  · refine (keeps_fillTag tmpTag ?_).bind fun _ _ => Keeps.pure trivial
    exact fun tag htag => ⟨fun d h => (by cases h), htag.data, fun _ => rfl⟩

end Elements

/-! ### Containers and the whole text -/

section Containers
variable {env : Env} {next : Nat → Option Nat → ParserM (Option (Option Nat × Nat))}

theorem keeps_key (hnext : ∀ buffer tag, KeepsAny (next buffer tag)) (buffer : Nat) :
    KeepsAny (plistXmlParseTagKey env next buffer) := by
  apply keeps_fixed
  intro length
  apply (hnext _ _).bind
  rintro (_ | ⟨subTag, length2⟩) _
  · exact Keeps.pure trivial
  · apply keeps_newTag.bind
    rintro (_ | tmpTag) _
    · exact (keeps_freeTag subTag).bind fun _ _ => Keeps.pure trivial
    · apply (keeps_newSymbol buffer).bind
      rintro (_ | string) hstring
      · apply (keeps_reportUncleared tmpTag).bind
        intro _ _
        apply (keeps_freeTag subTag).bind
        intro _ _
        exact (keeps_freeTag _).bind fun _ _ => Keeps.pure trivial
      · refine (keeps_fillTag tmpTag ?_).bind fun _ _ => Keeps.pure trivial
        exact fun tag htag => ⟨hstring, htag.data, fun h => by cases h⟩

theorem keeps_tags (hnext : ∀ buffer tag, KeepsAny (next buffer tag)) (buffer n pos : Nat)
    (tagList lastTag : Option Nat) : KeepsAny (parseTags next buffer n pos tagList lastTag) := by
  induction n generalizing pos tagList lastTag with
  | zero => exact Keeps.stop
  | succ n ih =>
      apply (hnext _ _).bind
      rintro (_ | ⟨_ | tmpTag, length⟩) _
      · exact (keeps_freeTag tagList).bind fun _ _ => Keeps.pure trivial
      · exact Keeps.pure trivial
      · apply (keeps_linkTag tmpTag none).bind
        intro _ _
        cases lastTag with
        | none => exact ih _ _ _
        | some last => exact (keeps_linkTag last _).bind fun _ _ => ih _ _ _

theorem keeps_list (hnext : ∀ buffer tag, KeepsAny (next buffer tag)) (fuel buffer : Nat) (type : TagType)
    (htype : type ≠ .date) (empty : Bool) : KeepsAny (plistXmlParseTagList env next fuel buffer type empty) := by
  have hlist : KeepsAny (if empty then pure (some (none, 0)) else parseTags next buffer fuel 0 none none) := by
    cases empty with
    | false => exact keeps_tags hnext buffer fuel 0 none none
    | true => exact Keeps.pure trivial
  apply hlist.bind
  rintro (_ | ⟨tagList, pos⟩) _
  · exact Keeps.pure trivial
  · apply keeps_newTag.bind
    rintro (_ | tmpTag) _
    · exact (keeps_freeTag tagList).bind fun _ _ => Keeps.pure trivial
    · refine (keeps_fillTag tmpTag ?_).bind fun _ _ => Keeps.pure trivial
      exact fun tag htag => ⟨fun d h => (by cases h), htag.data, fun h => absurd h htype⟩

theorem ite_ne {α : Type} {c : Prop} [Decidable c] {a b x : α} (ha : a ≠ x) (hb : b ≠ x) : (if c then a else b) ≠ x := by
  by_cases h : c
  · rwa [if_pos h]
  · rwa [if_neg h]

theorem markupOf_ne_dates (name : Bytes) (empty : Bool) : markupOf name ≠ .list .date empty := by
  unfold markupOf
  repeat refine ite_ne (fun h => by cases h) ?_
  exact fun h => by cases h

theorem keeps_element (hnext : ∀ buffer tag, KeepsAny (next buffer tag)) (fuel buffer startLength : Nat)
    (tag : Option Nat) (name : Bytes) :
    KeepsAny (parseElement env next fuel buffer startLength tag (markupOf name)) := by
  have hmap : ∀ {x : ParserM (Option (Nat × Nat))}, KeepsAny x →
      KeepsAny ((·.map fun r => (some r.1, r.2)) <$> x : ParserM (Option (Option Nat × Nat))) :=
    fun hx => hx.map fun _ _ => trivial
  cases hmarkup : markupOf name with
  | plist =>
      have hkept : KeepsAny (reportKept tag) := by
        cases tag with
        | none => exact Keeps.pure trivial
        | some a => exact Keeps.emit _
      exact hkept.bind fun _ _ => Keeps.pure trivial
  | list type empty =>
      refine hmap (keeps_list hnext fuel buffer type ?_ empty)
      rintro rfl
      exact markupOf_ne_dates name empty hmarkup
  | key => exact hmap (keeps_key hnext buffer)
  | string => exact hmap (keeps_string buffer)
  | integer => exact hmap (keeps_integer buffer startLength)
  | data => exact hmap (keeps_data buffer)
  | date => exact hmap (keeps_date buffer)
  | boolean type => exact hmap (keeps_boolean buffer type)
  | unknown => exact Keeps.pure trivial

theorem keeps_nextTag (fuel buffer : Nat) (tag : Option Nat) :
    KeepsAny (plistXmlParseNextTag env fuel buffer tag) := by
  induction fuel generalizing buffer tag with
  | zero => exact Keeps.stop
  | succ fuel ih =>
      apply (keeps_getNextTag buffer).bind
      rintro (_ | ⟨tagName, start, pos⟩) _
      · exact Keeps.pure trivial
      · apply (keeps_readString tagName).bind
        intro name _
        apply (keeps_element ih fuel _ pos tag name).bind
        rintro (_ | ⟨tag', length⟩) _
        · exact Keeps.pure trivial
        · exact Keeps.get.bind fun _ _ => (Keeps.emit _).bind fun _ _ => Keeps.pure trivial

theorem keeps_top (fuel n pos : Nat) (tag : Option Nat) : KeepsAny (parseTop env fuel n pos tag) := by
  induction n generalizing pos tag with
  | zero => exact Keeps.stop
  | succ n ih =>
      apply (keeps_nextTag fuel pos tag).bind
      rintro (_ | ⟨_ | a, length⟩) _
      · exact Keeps.pure trivial
      · exact ih _ _
      · apply (keeps_readTag a).bind
        intro t _
        by_cases h : t.type = .dict
        · rw [if_pos h]
          exact Keeps.pure trivial
        · rw [if_neg h]
          exact (keeps_freeTag _).bind fun _ _ => ih _ _

theorem keeps_parseCopy {copy : Bytes} (hcopy : copy.length < 2 ^ 32) (bufferSize : Nat) :
    KeepsAny (plistXmlParseCopy env copy bufferSize) := by
  unfold plistXmlParseCopy
  by_cases h : bufferSize = 0
  · rw [if_pos h]
    exact Keeps.pure trivial
  · rw [if_neg h]
    apply (keeps_allocate .text).bind
    rintro (_ | _) _
    · exact Keeps.pure trivial
    · rw [if_pos rfl]
      refine Keeps.modify_bind (fun s hs => ⟨hs.tags, hcopy⟩) ?_
      apply (keeps_top _ _ 0 none).bind
      intro tag _
      exact (keeps_release .text).bind fun _ _ => Keeps.pure trivial

end Containers

/-! ### Growing the tree -/

/-- A node the API can build, of texts that are C strings. -/
structure Grown (n : Node) : Prop where
  built : Built (.single n)
  labels : ∀ label ∈ Node.labels n, label.Textual ∧ label.size < 2 ^ 32

def GrownAll (o : Option Node) : Prop := ∀ n, o = some n → Grown n

/-- The bag after an addition, or after a failed one. -/
def Added (pn : Option Node) (r : Bool × Option Node) : Prop :=
  ∀ n', r.2 = some n' → Grown n' ∧ ∃ n, pn = some n ∧ n'.label = n.label

theorem grownAll_none : GrownAll none := fun n h => by cases h

theorem added_self {pn : Option Node} (h : GrownAll pn) (ok : Bool) : Added pn (ok, pn) :=
  fun n' hn' => ⟨h n' hn', n', hn', rfl⟩

theorem Added.grown {pn : Option Node} {r : Bool × Option Node} (h : Added pn r) : GrownAll r.2 :=
  fun n' hn' => (h n' hn').1

theorem Added.trans {pn : Option Node} {r r' : Bool × Option Node} (h : Added pn r) (h' : Added r.2 r') :
    Added pn r' := by
  intro n' hn'
  obtain ⟨hgrown, n, hn, hlabel⟩ := h' n' hn'
  obtain ⟨-, n₀, hn₀, hlabel₀⟩ := h n hn
  exact ⟨hgrown, n₀, hn₀, hlabel.trans hlabel₀⟩

theorem plNodeAddAll_append {f g : Forest Label} {pn pn' : Node} (h : plNodeAddAll pn f = some pn') :
    plNodeAddAll pn (f ++ g) = plNodeAddAll pn' g := by
  induction f generalizing pn with
  | nil =>
      cases h
      rfl
  | cons label kids next _ ih =>
      rw [plNodeAddAll, Option.bind_eq_some_iff] at h
      obtain ⟨pn₁, hadd, h⟩ := h
      rw [Forest.cons_append, plNodeAddAll, hadd, Option.bind_some]
      exact ih h

theorem Built.append {f g : Forest Label} (hf : Built f) (hg : Built g) : Built (f ++ g) := by
  induction f with
  | nil => exact hg
  | cons label kids next _ ih => exact ⟨hf.1, hf.2.1, ih hf.2.2⟩

theorem Grown.add {bag node bag' : Node} (hbag : Grown bag) (hnode : Grown node) (h : plNodeAdd bag node = some bag') :
    Grown bag' ∧ bag'.label = bag.label := by
  have heq := eq_of_plNodeAdd h
  obtain ⟨whole, hwhole⟩ := hbag.built.1
  have hall : plNodeAddAll (.leaf bag.label) (bag.kids ++ .single node) = some bag' := by
    rw [plNodeAddAll_append hwhole, eq_of_plNodeAddAll hwhole]
    show (plNodeAdd bag node).bind _ = _
    rw [h]
    rfl
  rw [heq]
  refine ⟨⟨⟨⟨bag', hall⟩, hbag.built.2.1.append hnode.built, trivial⟩, ?_⟩, rfl⟩
  intro label hlabel
  have hmem : label = bag.label ∨ label ∈ bag.kids.labels ∨ label = node.label ∨ label ∈ node.kids.labels := by
    simpa [Node.labels, Forest.labels_append, Forest.single, Forest.labels] using hlabel
  rcases hmem with rfl | hmem | rfl | hmem
  · exact hbag.labels _ List.mem_cons_self
  · exact hbag.labels _ (List.mem_cons_of_mem _ hmem)
  · exact hnode.labels _ List.mem_cons_self
  · exact hnode.labels _ (List.mem_cons_of_mem _ hmem)

theorem grown_leaf {label : Label} (h : label.Textual ∧ label.size < 2 ^ 32) : Grown (.leaf label) := by
  refine ⟨⟨⟨_, rfl⟩, trivial, trivial⟩, ?_⟩
  intro l hl
  have hself : l = label := by simpa [Node.labels, Node.leaf, Forest.labels] using hl
  exact hself ▸ h

section Grow
variable {env : Env}

theorem keeps_growMap (asiz : Nat) : KeepsAny (growMap env asiz) := by
  apply (keeps_allocate .map).bind
  intro ok _
  by_cases h : ok ∧ 0 < asiz
  · rw [if_pos h]
    exact (keeps_release .map).bind fun _ _ => Keeps.pure trivial
  · rw [if_neg h]
    exact Keeps.pure trivial

theorem keeps_addNode {bag : Option Node} {node : Node} (hbag : GrownAll bag) (hnode : Grown node) :
    Keeps (addNode env bag node) (Added bag) := by
  unfold addNode
  rcases hadd : bag.bind fun b => plNodeAdd b node with _ | added
  · exact Keeps.pure (added_self hbag false)
  · obtain ⟨b, rfl, hb⟩ := Option.bind_eq_some_iff.1 hadd
    have hadded : ∀ ok, Added (some b) (ok, some added) := by
      rintro ok _ ⟨⟩
      obtain ⟨hgrown, hlabel⟩ := (hbag b rfl).add hnode hb
      exact ⟨hgrown, b, rfl, hlabel⟩
    simp only
    split
    · exact Keeps.pure (hadded true)
    · apply (keeps_growMap _).bind
      rintro (_ | _) _
      · exact Keeps.pure (added_self hbag false)
      · exact Keeps.pure (hadded true)

theorem keeps_deleteNode (node : Option Node) : KeepsAny (deleteNode node) := Keeps.forM keeps_release _

theorem keeps_newNode {label : Label} (h : label.Textual ∧ label.size < 2 ^ 32) : Keeps (newNode env label) GrownAll := by
  apply (keeps_allocate .node).bind
  rintro (_ | _) _
  · exact Keeps.pure grownAll_none
  · refine Keeps.pure ?_
    rintro _ ⟨⟩
    exact grown_leaf h

theorem keeps_newScalar {label : Label} (h : label.Textual ∧ label.size < 2 ^ 32) :
    Keeps (newScalar env label) GrownAll := by
  apply (keeps_newNode h).bind
  rintro (_ | node) hnode
  · exact (Keeps.emit _).bind fun _ _ => Keeps.stop
  · exact Keeps.pure hnode

theorem keeps_newDatum {label : Bytes → Label} {datum : Option Bytes} (dlen : Nat)
    (h : ∀ d, datum = some d → ∀ n, (label (d.take n)).Textual ∧ (label (d.take n)).size < 2 ^ 32) :
    Keeps (newDatum env label datum dlen) GrownAll := by
  unfold newDatum
  by_cases hnone : datum = none ∧ dlen = 0
  · rw [if_pos hnone]
    exact Keeps.pure grownAll_none
  · rw [if_neg hnone]
    apply (keeps_allocate .node).bind
    rintro (_ | _) _
    · exact Keeps.pure grownAll_none
    · rw [if_pos rfl]
      have halloc : KeepsAny (if addU32 dlen 1 = 0 then pure false else allocate env .datum) := by
        split
        · exact Keeps.pure trivial
        · exact keeps_allocate .datum
      apply halloc.bind
      rintro (_ | _) _
      · exact (keeps_release .node).bind fun _ _ => Keeps.pure grownAll_none
      · rw [if_pos rfl]
        cases datum with
        | none =>
            have hpos : dlen ≠ 0 := fun h0 => hnone ⟨rfl, h0⟩
            rw [if_neg hpos]
            exact Keeps.stop
        | some d =>
            have hgrown : ∀ n, GrownAll (some (.leaf (label (d.take n)))) := by
              rintro n _ ⟨⟩
              exact grown_leaf (h d rfl n)
            by_cases h0 : dlen = 0
            · rw [if_pos h0]
              exact Keeps.pure (hgrown 0)
            · rw [if_neg h0]
              simp only
              split
              · exact Keeps.pure (hgrown dlen)
              · exact Keeps.stop

theorem CString.take {d : Bytes} (h : CString d) (n : Nat) : CString (d.take n) := by
  refine ⟨fun h0 => h.1 (List.mem_of_mem_take h0), ?_⟩
  exact lt_of_le_of_lt (List.length_take_le' n d) h.2

variable {grow : Option Nat → Option Node → ParserM (Bool × Option Node)}

theorem keeps_growBag (hgrow : ∀ tag pn, GrownAll pn → Keeps (grow tag pn) (Added pn)) (ipl : Tag)
    {parn bagn : Option Node} (hparn : GrownAll parn) (hbagn : GrownAll bagn) :
    Keeps (plGrowBag env grow ipl parn bagn) (Added parn) := by
  unfold plGrowBag
  cases bagn with
  | none => exact Keeps.pure (added_self hparn false)
  | some bag =>
      apply (hgrow ipl.tag _ hbagn).bind
      rintro ⟨_ | _, bagn'⟩ hadded
      · exact (keeps_deleteNode bagn').bind fun _ _ => Keeps.pure (added_self hparn false)
      · cases bagn' with
        | none => exact Keeps.pure (added_self hparn false)
        | some bag' =>
            apply (keeps_addNode hparn (hadded.grown bag' rfl)).bind
            rintro ⟨_ | _, parn'⟩ hadded'
            · exact (keeps_deleteNode _).bind fun _ _ => Keeps.pure hadded'
            · exact Keeps.pure hadded'

theorem keeps_growLeaf {pn wn : Option Node} (hpn : GrownAll pn) (hwn : GrownAll wn) :
    Keeps (growLeaf env pn wn) (Added pn) := by
  cases wn with
  | none => exact Keeps.pure (added_self hpn false)
  | some node =>
      apply (keeps_addNode hpn (hwn node rfl)).bind
      rintro ⟨_ | _, pn'⟩ hadded
      · exact (Keeps.emit _).bind fun _ _ => Keeps.pure hadded
      · exact Keeps.pure hadded

theorem keeps_growItem (hgrow : ∀ tag pn, GrownAll pn → Keeps (grow tag pn) (Added pn)) {ipl : Tag}
    (hipl : ipl.toTagBody.Origin) {pn : Option Node} (hpn : GrownAll pn) :
    Keeps (growItem env grow ipl pn) (Added pn) := by
  have hstring : ∀ d, ipl.string = some d → ∀ n, CString (d.take n) := fun d hd n => CString.take (hipl.string d hd) n
  have harmless : ∀ label : Label, label.Textual → label.size = 0 → label.Textual ∧ label.size < 2 ^ 32 := by
    intro label htextual hsize
    exact ⟨htextual, by omega⟩
  unfold growItem
  cases htype : ipl.type with
  | none => exact Keeps.pure (added_self hpn false)
  | array => exact (keeps_newNode (harmless .array trivial rfl)).bind fun bagn hbagn => keeps_growBag hgrow ipl hpn hbagn
  | dict => exact (keeps_newNode (harmless .dict trivial rfl)).bind fun bagn hbagn => keeps_growBag hgrow ipl hpn hbagn
  | key => exact (keeps_newDatum _ hstring).bind fun bagn hbagn => keeps_growBag hgrow ipl hpn hbagn
  | string => exact (keeps_newDatum _ hstring).bind fun wn hwn => keeps_growLeaf hpn hwn
  | data =>
      have hdata : ∀ d, ipl.data = some d → ∀ n, (Label.data (d.take n)).Textual ∧ (Label.data (d.take n)).size < 2 ^ 32 :=
        fun d hd n => ⟨trivial, lt_of_le_of_lt (List.length_take_le' n d) (hipl.data d hd)⟩
      exact (keeps_newDatum _ hdata).bind fun wn hwn => keeps_growLeaf hpn hwn
  | true => exact (keeps_newScalar (harmless (.bool true) trivial rfl)).bind fun wn hwn => keeps_growLeaf hpn hwn
  | false => exact (keeps_newScalar (harmless (.bool false) trivial rfl)).bind fun wn hwn => keeps_growLeaf hpn hwn
  | integer => exact (keeps_newScalar (harmless (.integer ipl.intval) trivial rfl)).bind fun wn hwn => keeps_growLeaf hpn hwn
  | date =>
      rw [hipl.date htype]
      have hnone : ∀ d, (none : Option Bytes) = some d → ∀ n,
          (Label.date (d.take n)).Textual ∧ (Label.date (d.take n)).size < 2 ^ 32 := fun d hd => by cases hd
      exact (keeps_newDatum _ hnone).bind fun wn hwn => keeps_growLeaf hpn hwn

theorem keeps_growTree (n : Nat) (tag : Option Nat) {pn : Option Node} (hpn : GrownAll pn) :
    Keeps (plGrowTree env n tag pn) (Added pn) := by
  induction n generalizing tag pn with
  | zero =>
      cases tag with
      | none => exact Keeps.pure (added_self hpn true)
      | some a => exact Keeps.stop
  | succ n ih =>
      cases tag with
      | none => exact Keeps.pure (added_self hpn true)
      | some a =>
          apply (keeps_readTag a).bind
          intro ipl hipl
          apply (keeps_growItem (fun tag pn h => ih tag h) hipl hpn).bind
          rintro ⟨_ | _, pn'⟩ hadded
          · exact Keeps.pure hadded
          · exact (ih ipl.tagNext hadded.grown).mono fun r hr => hadded.trans hr

/-- What is returned is a dictionary. -/
def Returned (r : Option Node) : Prop := ∀ n, r = some n → Grown n ∧ n.label = .dict

theorem keeps_growDict (plist : Tag) : Keeps (growDict env plist) Returned := by
  have hnone : Returned none := fun n h => by cases h
  unfold growDict
  by_cases h : plist.type = .dict
  · rw [if_pos h]
    have hroot : Keeps (newNode env .dict) Returned := by
      apply (keeps_allocate .node).bind
      rintro (_ | _) _
      · exact Keeps.pure hnone
      · refine Keeps.pure ?_
        rintro _ ⟨⟩
        exact ⟨grown_leaf ⟨trivial, by decide⟩, rfl⟩
    apply hroot.bind
    intro pn hpn
    apply Keeps.get.bind
    intro s _
    apply (keeps_growTree _ plist.tag fun n hn => (hpn n hn).1).bind
    rintro ⟨_ | _, pn'⟩ hadded
    · exact (keeps_deleteNode pn').bind fun _ _ => Keeps.pure hnone
    · refine Keeps.pure fun n' hn' => ?_
      obtain ⟨hgrown, n, hn, hlabel⟩ := hadded n' hn'
      exact ⟨hgrown, hlabel.trans (hpn n hn).2⟩
  · rw [if_neg h]
    exact Keeps.pure hnone

theorem keeps_cleanup : KeepsAny plistXmlCleanup := by
  have hrelease : ∀ n tag, KeepsAny (releaseTags n tag) := by
    intro n
    induction n with
    | zero =>
        intro tag
        cases tag with
        | none => exact Keeps.pure trivial
        | some a => exact Keeps.stop
    | succ n ih =>
        intro tag
        cases tag with
        | none => exact Keeps.pure trivial
        | some a =>
            apply (keeps_readTag a).bind
            intro tag _
            refine (keeps_writeTag a fun tag h => by cases h).bind fun _ _ => ?_
            exact (keeps_release .tag).bind fun _ _ => ih _
  apply keeps_liveSymbols.bind
  intro symbols _
  apply (Keeps.forM (fun _ => keeps_release .symbol) symbols).bind
  intro _ _
  refine Keeps.modify_bind (fun s hs => ⟨hs.tags, hs.text⟩) ?_
  apply Keeps.get.bind
  intro s _
  apply (hrelease _ _).bind
  intro _ _
  exact Keeps.modify fun s hs => ⟨hs.tags, hs.text⟩

theorem keeps_plXmlToNodeCopy {copy : Bytes} (hcopy : copy.length < 2 ^ 32) (bufferSize : Nat) :
    Keeps (plXmlToNodeCopy env copy bufferSize) Returned := by
  apply (keeps_parseCopy hcopy bufferSize).bind
  rintro (_ | plist) _
  · exact keeps_cleanup.bind fun _ _ => Keeps.pure fun n h => by cases h
  · apply (keeps_readTag plist).bind
    intro tag _
    apply (keeps_growDict tag).bind
    intro pn hpn
    apply (keeps_freeTag _).bind
    intro _ _
    exact keeps_cleanup.bind fun _ _ => Keeps.pure hpn

end Grow

/-- A call does not look at what an earlier one left in the copy of the text. -/
theorem result_withText (env : Env) (copy : Bytes) (bufferSize : Nat) (s : Parser) (b : Bytes) :
    (plXmlToNodeCopy env copy bufferSize (s.withText b)).result = (plXmlToNodeCopy env copy bufferSize s).result := by
  have hcleanup : ∀ t : Parser, ((do plistXmlCleanup; pure none : ParserM (Option Node)) (t.withText b)).result =
      ((do plistXmlCleanup; pure none : ParserM (Option Node)) t).result := by
    intro t
    have hsame := (offText_cleanup.bind fun _ => OffText.pure (none : Option Node)).same t b
    rw [hsame]
  have halloc : ∀ t : Parser, allocate env .text t =
      if env.alloc t.allocs then ⟨.ok true, { t with allocs := t.allocs + 1 }, [.allocated .text]⟩
      else ⟨.ok false, { t with allocs := t.allocs + 1 }, []⟩ := by
    intro t
    rw [allocate, get_bind_apply, modify_bind_apply]
    by_cases h : env.alloc t.allocs = true
    · rw [if_pos h, if_pos h]
      rfl
    · rw [if_neg h, if_neg h]
      rfl
  by_cases hzero : bufferSize = 0
  · rw [plXmlToNodeCopy, plistXmlParseCopy, if_pos hzero]
    exact hcleanup s
  · rw [plXmlToNodeCopy, plistXmlParseCopy, if_neg hzero]
    by_cases h : env.alloc s.allocs = true
    · have hs : allocate env .text s = ⟨.ok true, { s with allocs := s.allocs + 1 }, [.allocated .text]⟩ := by
        rw [halloc, if_pos h]
      have hs' : allocate env .text (s.withText b) =
          ⟨.ok true, { s with allocs := s.allocs + 1 }.withText b, [.allocated .text]⟩ := by
        rw [halloc]
        exact if_pos h
      simp only [bind_apply, hs, hs']
      rfl
    · have hs : allocate env .text s = ⟨.ok false, { s with allocs := s.allocs + 1 }, []⟩ := by
        rw [halloc, if_neg h]
      have hs' : allocate env .text (s.withText b) = ⟨.ok false, { s with allocs := s.allocs + 1 }.withText b, []⟩ := by
        rw [halloc]
        exact if_neg h
      have hboth := hcleanup { s with allocs := s.allocs + 1 }
      simp only [bind_apply, hs, hs'] at hboth ⊢
      exact hboth

/-- Whatever the call went through, what it returns can be printed. -/
theorem printable_of_plXmlToNode {env : Env} {dat : Nat → UInt8} {len : Nat} {s : Parser} (hs : s.Idle)
    {t : Node} (h : (plXmlToNode env dat len s).result = .ok (some t)) : Printable t ∧ Counted t := by
  have hcopy : (copyOf dat len).length < 2 ^ 32 := by
    rw [copyOf, List.length_map, List.length_range]
    exact Nat.mod_lt _ (by decide)
  have hs' : (s.withText []).Original := by
    refine ⟨fun tag htag => ?_, Nat.two_pow_pos 32⟩
    obtain ⟨a, ha⟩ := List.getElem?_of_mem htag
    have hnone := hs.tags a
    have hsome : s.tagAt a = some tag := by
      show (s.tags[a]?).join = _
      rw [show s.tags[a]? = some (some tag) from ha]
      rfl
    rw [hsome] at hnone
    cases hnone
  have h' : (plXmlToNodeCopy env (copyOf dat len) (addU32 len 1) (s.withText [])).result = .ok (some t) :=
    (result_withText env _ _ s []).trans h
  obtain ⟨-, hreturned⟩ := keeps_plXmlToNodeCopy hcopy (addU32 len 1) _ hs' _ h'
  obtain ⟨hgrown, hroot⟩ := hreturned t rfl
  refine ⟨⟨hroot, hgrown.built, fun label hlabel => ?_⟩, fun label hlabel => (hgrown.labels label hlabel).2⟩
  exact (hgrown.labels label (List.mem_cons_of_mem _ hlabel)).1

/-- What a call returned is printed and parsed to itself exactly when it is clean and the output leaves
room for its `NUL`. -/
theorem plNodeToXml_stable_iff {env env₁ env₂ : Env} {dat : Nat → UInt8} {len : Nat} {s : Parser} (hs : s.Idle)
    {t : Node} (hparse : (plXmlToNode env₁ dat len s).result = .ok (some t)) (henv : ∀ n, env.alloc n = true)
    (hample : env₂.Ample) {b : Writer} (hb : b.toPlBuf.Valid) (hok : (plNodeToXml env t b).result = .ok ())
    {image : Nat → UInt8} (himage : Image image (b.output (plNodeToXml env t b).state.toPlBuf)) {s' : Parser}
    (hs' : s'.Idle) :
    Reparses env₂ s' image (b.output (plNodeToXml env t b).state.toPlBuf).length t ↔
      Clean t ∧ (b.output (plNodeToXml env t b).state.toPlBuf).length + 1 < 2 ^ 32 := by
  obtain ⟨hprintable, hcounted⟩ := printable_of_plXmlToNode hs hparse
  exact reparses_output_iff henv hample hprintable hcounted hb hok himage hs'

def smallPlistTree : Node :=
  ⟨.dict, .cons (.key [97]) (.cons .array (.cons (.bool true) .nil (.cons (.data [77]) .nil .nil)) .nil) .nil⟩

theorem smallPlist_stable :
    Reparses plentyEnv initialParser
        (imageOf (emptyWriter.output (plNodeToXml plentyEnv smallPlistTree emptyWriter).state.toPlBuf))
        (emptyWriter.output (plNodeToXml plentyEnv smallPlistTree emptyWriter).state.toPlBuf).length smallPlistTree ↔
      Clean smallPlistTree ∧
        (emptyWriter.output (plNodeToXml plentyEnv smallPlistTree emptyWriter).state.toPlBuf).length + 1 < 2 ^ 32 :=
  plNodeToXml_stable_iff initialParser_idle
    (show (plXmlToNode plentyEnv (imageOf smallPlist) smallPlist.length initialParser).result = _ by decide +kernel)
    (fun _ => rfl) ⟨fun _ => rfl, fun _ => rfl⟩ emptyWriter_valid (by decide +kernel) (imageOf_image _) initialParser_idle

/-- A string with markup in it: the text ends at the `'>'`. -/
def markedString : Bytes := ascii "<dict><key>a</key><string>x<b>y</string></dict>"

def markedStringTree : Node := ⟨.dict, .cons (.key [97]) (.cons (.string (ascii "x<b")) .nil .nil) .nil⟩

/-- Printed, it runs into its end tag, and the text is not accepted any more. -/
theorem markedString_unstable :
    (plXmlToNode plentyEnv (imageOf markedString) markedString.length initialParser).result = .ok (some markedStringTree) ∧
      (plNodeToXml plentyEnv markedStringTree emptyWriter).result = .ok () ∧
      (plXmlToNode plentyEnv
        (imageOf (emptyWriter.output (plNodeToXml plentyEnv markedStringTree emptyWriter).state.toPlBuf))
        (emptyWriter.output (plNodeToXml plentyEnv markedStringTree emptyWriter).state.toPlBuf).length
        initialParser).result = .ok none := by
  refine ⟨?_, ?_, ?_⟩ <;> decide +kernel

end BareBoot.Plist
