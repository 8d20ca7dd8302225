import BareBoot.PlistOffText
import BareBoot.PlistSoundness

/-! What of the memory behind a text the parser's result depends on. The copy takes the byte behind the
text along and is scanned for `NUL` and the bytes of a tag, not up to its length. Two runs are compared
whose copies hold the same text with different ends. -/

namespace BareBoot.Plist

open Exec

/-- The bytes stop no scan. -/
def Plain (w : Bytes) : Prop := ∀ c ∈ w, c ≠ 0 ∧ c ≠ 60 ∧ c ≠ 62

/-- The two copies agree on their first `n` bytes, all else is the same. -/
def Tails (n : Nat) (w w' : Bytes) (s s' : Parser) : Prop :=
  ∃ b, b.length = n ∧ s.configBuffer = b ++ w ∧ s' = s.withText (b ++ w')

/-- Unless the first run leaves its copy, the second does the same. -/
abbrev Alike {α : Type} (n : Nat) (w w' : Bytes) (x : ParserM α) (s s' : Parser) (Q : α → Parser → Prop) : Prop :=
  Follows (Tails n w w') (· = Fault.outOfBounds) x x s s' Q

section Alike
variable {env : Env} {n : Nat} {w w' : Bytes} {s s' : Parser} {p : Nat}

theorem OffText.alike {α : Type} {x : ParserM α} (hx : OffText x) (h : Tails n w w' s s') :
    Alike n w w' x s s' fun _ _ => True := by
  obtain ⟨b, hlen, hs, rfl⟩ := h
  intro _
  rw [hx.same]
  refine ⟨rfl, ⟨b, hlen, ?_, rfl⟩, fun _ _ => trivial⟩
  rw [hx.configBuffer, hs]

/-! ### Scanning -/

theorem scan_append_plain {target : UInt8} {u w : Bytes} {cnt : Nat} (hw : ∀ c ∈ w, c ≠ 0 ∧ c ≠ target)
    (h : scan target (u ++ w) = some cnt) : cnt < u.length ∧ ∀ v, scan target (u ++ v) = some cnt := by
  induction u generalizing cnt with
  | nil =>
      have hnone : scan target w = none := by
        clear h
        induction w with
        | nil => rfl
        | cons c w ih =>
            have hc := hw c List.mem_cons_self
            rw [scan, if_neg (by simp [hc]), ih fun c hc => hw c (List.mem_cons_of_mem _ hc)]
            rfl
      rw [List.nil_append, hnone] at h
      cases h
  | cons c u ih =>
      simp only [List.cons_append, scan, List.length_cons] at h ⊢
      by_cases hc : c = 0 ∨ c = target
      · simp only [if_pos hc, Option.some.injEq] at h ⊢
        exact ⟨by omega, fun _ => h⟩
      · simp only [if_neg hc, Option.map_eq_some_iff] at h ⊢
        obtain ⟨cnt, h, rfl⟩ := h
        obtain ⟨hlt, hall⟩ := ih h
        exact ⟨by omega, fun v => ⟨cnt, hall v, rfl⟩⟩

theorem scanFor_alike {target : UInt8} (hw : ∀ c ∈ w, c ≠ 0 ∧ c ≠ target) (h : Tails n w w' s s') :
    Alike n w w' (scanFor target p) s s' fun cnt _ => p + cnt < n := by
  have htails := h
  obtain ⟨b, hlen, hs, rfl⟩ := h
  rcases hscan : scan target (s.configBuffer.drop p) with _ | cnt
  · refine Follows.of_bad (e := .outOfBounds) ?_ rfl
    simp only [scanFor, get_bind_apply, hscan, stop_apply]
  · have hcut := hscan
    rw [hs, List.drop_append] at hcut
    obtain ⟨hlt, hall⟩ := scan_append_plain (fun c hc => hw c (List.mem_of_mem_drop hc)) hcut
    rw [List.length_drop] at hlt
    have hx : scanFor target p s = ⟨.ok cnt, s, []⟩ := by
      simp only [scanFor, get_bind_apply, hscan, pure_apply]
    have hy : scanFor target p (s.withText (b ++ w')) = ⟨.ok cnt, s.withText (b ++ w'), []⟩ := by
      simp only [scanFor, get_bind_apply, Parser.withText_configBuffer, List.drop_append, hall, pure_apply]
    refine Follows.of_eq (a := cnt) (by rw [hx]) (by rw [hy]) ?_ ?_
    · rw [hx, hy]
      exact htails
    · omega

theorem readByte_alike (hp : p < n) (h : Tails n w w' s s') :
    Alike n w w' (readByte p) s s' fun _ _ => True := by
  have htails := h
  obtain ⟨b, hlen, hs, rfl⟩ := h
  obtain ⟨c, hc⟩ : ∃ c, b[p]? = some c := ⟨_, List.getElem?_eq_getElem (by omega)⟩
  have hat : ∀ v, (b ++ v)[p]? = some c := fun v => by rw [List.getElem?_append_left (by omega), hc]
  have hx : readByte p s = ⟨.ok c, s, []⟩ := by
    simp only [readByte, get_bind_apply, hs, hat, pure_apply]
  have hy : readByte p (s.withText (b ++ w')) = ⟨.ok c, s.withText (b ++ w'), []⟩ := by
    simp only [readByte, get_bind_apply, Parser.withText_configBuffer, hat, pure_apply]
  refine Follows.of_eq (a := c) (by rw [hx]) (by rw [hy]) ?_ trivial
  rw [hx, hy]
  exact htails

theorem writeByte_alike (c : UInt8) (hp : p < n) (h : Tails n w w' s s') :
    Alike n w w' (writeByte p c) s s' fun _ _ => True := by
  obtain ⟨b, hlen, hs, rfl⟩ := h
  have hset : ∀ v, (b ++ v).set p c = b.set p c ++ v := fun v => List.set_append_left _ _ (by omega)
  have hlt : ∀ v : Bytes, p < (b ++ v).length := fun v => by
    rw [List.length_append]
    omega
  have hrun : ∀ (t : Parser) v, t.configBuffer = b ++ v →
      writeByte p c t = ⟨.ok (), t.withText (b.set p c ++ v), []⟩ := by
    intro t v ht
    simp only [writeByte, get_bind_apply, ht, if_pos (hlt v), modify_apply, hset]
    rfl
  have hx := hrun s w hs
  have hy := hrun (s.withText (b ++ w')) w' rfl
  refine Follows.of_eq (a := ()) (by rw [hx]) (by rw [hy]) ?_ trivial
  rw [hx, hy]
  exact ⟨b.set p c, by rw [List.length_set, hlen], rfl, rfl⟩

/-- Bytes within what the copies share are the same in both. -/
theorem readBytes_alike {count : Nat} (hp : p + count ≤ n) (h : Tails n w w' s s') :
    Alike n w w' (readBytes p count) s s' fun _ _ => True := by
  have htails := h
  obtain ⟨b, hlen, hs, rfl⟩ := h
  have hle : ∀ v : Bytes, p + count ≤ (b ++ v).length := fun v => by
    rw [List.length_append]
    omega
  have htake : ∀ v, ((b ++ v).drop p).take count = (b.drop p).take count := fun v => by
    rw [List.drop_append, List.take_append_of_le_length]
    rw [List.length_drop]
    omega
  have hrun : ∀ (t : Parser) v, t.configBuffer = b ++ v →
      readBytes p count t = ⟨.ok ((b.drop p).take count), t, []⟩ := by
    intro t v ht
    simp only [readBytes, get_bind_apply, ht, if_pos (hle v), htake, pure_apply]
  have hx := hrun s w hs
  have hy := hrun (s.withText (b ++ w')) w' rfl
  refine Follows.of_eq (a := (b.drop p).take count) (by rw [hx]) (by rw [hy]) ?_ trivial
  rw [hx, hy]
  exact htails

theorem readString_alike (hw : Plain w) (h : Tails n w w' s s') :
    Alike n w w' (readString p) s s' fun _ _ => True := by
  refine Follows.bind (scanFor_alike (fun c hc => ⟨(hw c hc).1, (hw c hc).1⟩) h) ?_
  rintro cnt s s' htails hcnt
  obtain ⟨b, hlen, hs, rfl⟩ := htails
  have htake : ∀ v, ((b ++ v).drop p).take cnt = (b.drop p).take cnt := fun v => by
    rw [List.drop_append, List.take_append_of_le_length]
    rw [List.length_drop]
    omega
  refine Follows.of_eq (a := (b.drop p).take cnt) ?_ ?_ ⟨b, hlen, hs, rfl⟩ trivial
  · simp only [get_bind_apply, pure_apply, hs, htake]
  · simp only [get_bind_apply, pure_apply, Parser.withText_configBuffer, htake]

theorem plistXmlGetNextTag_alike (hw : Plain w) (h : Tails n w w' s s') :
    Alike n w w' (plistXmlGetNextTag p) s s' fun r _ =>
      ∀ tagName start length, r = some (tagName, start, length) → start < length ∧ p + length ≤ n := by
  refine Follows.bind (scanFor_alike (fun c hc => ⟨(hw c hc).1, (hw c hc).2.1⟩) h) ?_
  rintro cnt s s' h hcnt
  refine Follows.bind (readByte_alike hcnt h) ?_
  rintro c s s' h -
  by_cases hc : c = 0
  · rw [if_pos hc]
    exact Follows.pure h fun _ _ _ h => by cases h
  · rw [if_neg hc]
    refine Follows.bind (scanFor_alike (fun c hc => ⟨(hw c hc).1, (hw c hc).2.2⟩) h) ?_
    rintro more s s' h hmore
    have hplace : p + (cnt + 1 + more) < n := by omega
    refine Follows.bind (readByte_alike hplace h) ?_
    rintro c s s' h -
    by_cases hc : c = 0
    · simp only [if_pos hc]
      exact Follows.pure h fun _ _ _ h => by cases h
    · simp only [if_neg hc]
      refine Follows.bind (writeByte_alike 0 hplace h) ?_
      rintro _ s s' h -
      refine Follows.pure h ?_
      rintro _ _ _ ⟨⟩
      omega

theorem fixDataFrom_alike (hn : n < 2 ^ 32) (hw : Plain w) (tag : Bytes) (count start : Nat)
    (h : Tails n w w' s s') :
    Alike n w w' (fixDataFrom tag p count start) s s' fun r _ =>
      ∀ length, r = some length → start < length ∧ p + length ≤ n := by
  induction count generalizing s s' start with
  | zero => exact Follows.stop h
  | succ count ih =>
      refine Follows.bind (plistXmlGetNextTag_alike hw h) ?_
      rintro (_ | ⟨endTag, stop, length⟩) s s' h hnext
      · exact Follows.pure h fun _ h => by cases h
      · obtain ⟨hstop, hle⟩ := hnext endTag stop length rfl
        have hadd : addU32 start length = start + length := addU32_eq hn (by omega)
        have hadd' : addU32 start stop = start + stop := addU32_eq hn (by omega)
        refine Follows.bind (readString_alike hw h) ?_
        rintro name s s' h -
        simp only [hadd, hadd']
        by_cases hname : name = 47 :: tag
        · rw [if_pos hname]
          refine Follows.bind (writeByte_alike 0 (by omega) h) ?_
          rintro _ s s' h -
          refine Follows.pure h ?_
          rintro _ ⟨⟩
          omega
        · rw [if_neg hname]
          refine (ih (start + length) h).mono (fun _ _ h => h) ?_
          intro r _ hr length' hlength'
          have := hr length' hlength'
          omega

/-- The steps an element with an end tag starts with. -/
theorem fixed_alike {α : Type} {f : Nat → ParserM (Option α)} {tag : Bytes} (hn : n < 2 ^ 32) (hw : Plain w)
    (h : Tails n w w' s s')
    (hf : ∀ length t t', Tails n w w' t t' → 0 < length → p + length ≤ n →
      Alike n w w' (f length) t t' fun _ _ => True) :
    Alike n w w' (do
      match ← plistXmlFixDataMatchingTag p tag with
      | none => pure none
      | some length => f length) s s' fun _ _ => True := by
  refine Follows.bind (fixDataFrom_alike hn hw tag _ 0 h) ?_
  rintro (_ | length) s s' h hfix
  · exact Follows.pure h trivial
  · obtain ⟨hpos, hle⟩ := hfix length rfl
    exact hf length s s' h hpos hle

/-! ### Elements -/

theorem plistXmlNewSymbol_alike (hw : Plain w) (h : Tails n w w' s s') :
    Alike n w w' (plistXmlNewSymbol env p) s s' fun _ _ => True := by
  refine Follows.bind (readString_alike hw h) ?_
  rintro string s s' h -
  exact (offText_newSymbol env string).alike h

theorem plistXmlParseTagString_alike (hn : n < 2 ^ 32) (hw : Plain w) (h : Tails n w w' s s') :
    Alike n w w' (plistXmlParseTagString env p) s s' fun _ _ => True := by
  refine fixed_alike hn hw h ?_
  intro length s s' h _ _
  refine Follows.bind ((offText_newTag env).alike h) ?_
  rintro (_ | tmpTag) s s' h -
  · exact Follows.pure h trivial
  · refine Follows.bind (plistXmlNewSymbol_alike hw h) ?_
    rintro (_ | string) s s' h -
    · exact ((offText_reportUncleared tmpTag).bind fun _ => (offText_freeTag _).bind fun _ =>
        OffText.pure none).alike h
    · exact ((offText_fillTag tmpTag _).bind fun _ => OffText.pure _).alike h

theorem plistXmlParseTagData_alike (hn : n < 2 ^ 32) (hw : Plain w) (h : Tails n w w' s s') :
    Alike n w w' (plistXmlParseTagData env p) s s' fun _ _ => True := by
  refine fixed_alike hn hw h ?_
  intro length s s' h _ _
  refine Follows.bind ((offText_newTag env).alike h) ?_
  rintro (_ | tmpTag) s s' h -
  · exact Follows.pure h trivial
  · refine Follows.bind (plistXmlNewSymbol_alike hw h) ?_
    rintro string s s' h -
    exact ((offText_plb64decode env p string length).bind fun _ => (offText_fillTag tmpTag _).bind fun _ =>
      OffText.pure _).alike h

theorem plistXmlParseTagDate_alike (hn : n < 2 ^ 32) (hw : Plain w) (h : Tails n w w' s s') :
    Alike n w w' (plistXmlParseTagDate env p) s s' fun _ _ => True := by
  refine fixed_alike hn hw h ?_
  intro length s s' h _ _
  refine Follows.bind ((offText_newTag env).alike h) ?_
  rintro (_ | tmpTag) s s' h -
  · exact Follows.pure h trivial
  · exact ((offText_fillTag tmpTag _).bind fun _ => OffText.pure _).alike h

theorem plistXmlParseTagBoolean_alike (type : TagType) (h : Tails n w w' s s') :
    Alike n w w' (plistXmlParseTagBoolean env p type) s s' fun _ _ => True := by
  refine Follows.bind ((offText_newTag env).alike h) ?_
  rintro (_ | tmpTag) s s' h -
  · exact Follows.pure h trivial
  · exact ((offText_fillTag tmpTag _).bind fun _ => OffText.pure _).alike h

/-- The bytes of an integer lie before its end tag. -/
theorem plistXmlParseTagInteger_alike (hn : n < 2 ^ 32) (hw : Plain w) (startLength : Nat)
    (h : Tails n w w' s s') :
    Alike n w w' (plistXmlParseTagInteger env p startLength) s s' fun _ _ => True := by
  refine fixed_alike hn hw h ?_
  intro length s s' h hpos hle
  refine Follows.bind ((offText_newTag env).alike h) ?_
  rintro (_ | tmpTag) s s' h -
  · exact Follows.pure h trivial
  · refine Follows.bind (readByte_alike (by omega) h) ?_
    rintro c s s' h -
    by_cases hc : c = 60
    · rw [if_pos hc]
      refine Follows.bind ((offText_fillTag tmpTag _).alike h) ?_
      rintro _ s s' h -
      -- What is reported counts the bytes of the copy, the result does not.
      exact Follows.of_eq (a := some (tmpTag, startLength)) rfl rfl h trivial
    · rw [if_neg hc]
      refine Follows.bind (readBytes_alike (by omega) h) ?_
      rintro vbuf s s' h -
      exact ((offText_fillTag tmpTag _).bind fun _ => OffText.pure _).alike h

/-! ### Containers -/

/-- `next` does the same with both copies. -/
def NextAlike (n : Nat) (w w' : Bytes) (next : Nat → Option Nat → ParserM (Option (Option Nat × Nat))) : Prop :=
  ∀ p tag s s', Tails n w w' s s' → Alike n w w' (next p tag) s s' fun _ _ => True

section Containers
variable {next : Nat → Option Nat → ParserM (Option (Option Nat × Nat))}

theorem plistXmlParseTagKey_alike (hnext : NextAlike n w w' next) (hn : n < 2 ^ 32) (hw : Plain w)
    (h : Tails n w w' s s') : Alike n w w' (plistXmlParseTagKey env next p) s s' fun _ _ => True := by
  refine fixed_alike hn hw h ?_
  intro length s s' h _ _
  refine Follows.bind (hnext _ none s s' h) ?_
  rintro (_ | ⟨subTag, length2⟩) s s' h -
  · exact Follows.pure h trivial
  · refine Follows.bind ((offText_newTag env).alike h) ?_
    rintro (_ | tmpTag) s s' h -
    · exact ((offText_freeTag subTag).bind fun _ => OffText.pure none).alike h
    · refine Follows.bind (plistXmlNewSymbol_alike hw h) ?_
      rintro (_ | string) s s' h -
      · exact ((offText_reportUncleared tmpTag).bind fun _ => (offText_freeTag subTag).bind fun _ =>
          (offText_freeTag _).bind fun _ => OffText.pure none).alike h
      · exact ((offText_fillTag tmpTag _).bind fun _ => OffText.pure _).alike h

theorem parseTags_alike (hnext : NextAlike n w w' next) (count pos : Nat) (tagList lastTag : Option Nat)
    (h : Tails n w w' s s') :
    Alike n w w' (parseTags next p count pos tagList lastTag) s s' fun _ _ => True := by
  induction count generalizing s s' pos tagList lastTag with
  | zero => exact Follows.stop h
  | succ count ih =>
      refine Follows.bind (hnext _ lastTag s s' h) ?_
      rintro (_ | ⟨_ | tmpTag, length⟩) s s' h -
      · exact ((offText_freeTag tagList).bind fun _ => OffText.pure none).alike h
      · exact Follows.pure h trivial
      · refine Follows.bind ((offText_linkTag tmpTag none).alike h) ?_
        rintro _ s s' h -
        cases lastTag with
        | none => exact ih _ _ _ h
        | some last =>
            refine Follows.bind ((offText_linkTag last _).alike h) ?_
            rintro _ s s' h -
            exact ih _ _ _ h

theorem plistXmlParseTagList_alike (hnext : NextAlike n w w' next) (fuel : Nat) (type : TagType) (empty : Bool)
    (h : Tails n w w' s s') :
    Alike n w w' (plistXmlParseTagList env next fuel p type empty) s s' fun _ _ => True := by
  have hlist : Alike n w w' (if empty then pure (some (none, 0)) else parseTags next p fuel 0 none none) s s'
      fun _ _ => True := by
    cases empty
    · exact parseTags_alike hnext fuel 0 none none h
    · exact Follows.pure h trivial
  refine Follows.bind hlist ?_
  rintro (_ | ⟨tagList, pos⟩) s s' h -
  · exact Follows.pure h trivial
  · refine Follows.bind ((offText_newTag env).alike h) ?_
    rintro (_ | tmpTag) s s' h -
    · exact ((offText_freeTag tagList).bind fun _ => OffText.pure none).alike h
    · exact ((offText_fillTag tmpTag _).bind fun _ => OffText.pure _).alike h

theorem parseElement_alike (hnext : NextAlike n w w' next) (hn : n < 2 ^ 32) (hw : Plain w) (fuel pos : Nat)
    (tag : Option Nat) (markup : Markup) (h : Tails n w w' s s') :
    Alike n w w' (parseElement env next fuel p pos tag markup) s s' fun _ _ => True := by
  cases markup with
  | plist =>
      have hkept : OffText (reportKept tag) := by
        cases tag with
        | none => exact OffText.pure ()
        | some a => exact OffText.emit trivial
      exact (hkept.bind fun _ => OffText.pure _).alike h
  | unknown => exact Follows.pure h trivial
  | list type empty => exact Follows.map (plistXmlParseTagList_alike hnext fuel type empty h)
  | key => exact Follows.map (plistXmlParseTagKey_alike hnext hn hw h)
  | string => exact Follows.map (plistXmlParseTagString_alike hn hw h)
  | data => exact Follows.map (plistXmlParseTagData_alike hn hw h)
  | date => exact Follows.map (plistXmlParseTagDate_alike hn hw h)
  | integer => exact Follows.map (plistXmlParseTagInteger_alike hn hw pos h)
  | boolean type => exact Follows.map (plistXmlParseTagBoolean_alike type h)

end Containers

theorem plistXmlParseNextTag_alike (hn : n < 2 ^ 32) (hw : Plain w) (fuel : Nat) :
    NextAlike n w w' (plistXmlParseNextTag env fuel) := by
  induction fuel with
  | zero => exact fun _ _ _ _ h => Follows.stop h
  | succ fuel ih =>
      intro p tag s s' h
      refine Follows.bind (plistXmlGetNextTag_alike hw h) ?_
      rintro (_ | ⟨tagName, start, pos⟩) s s' h -
      · exact Follows.pure h trivial
      · refine Follows.bind (readString_alike hw h) ?_
        rintro name s s' h -
        refine Follows.bind (parseElement_alike ih hn hw fuel pos tag (markupOf name) h) ?_
        rintro (_ | ⟨tag, length⟩) s s' h -
        · exact Follows.pure h trivial
        · exact Follows.of_eq (a := some (tag, addU32 pos length)) rfl rfl h trivial

theorem parseTop_alike (hn : n < 2 ^ 32) (hw : Plain w) (fuel count : Nat) (tag : Option Nat)
    (h : Tails n w w' s s') : Alike n w w' (parseTop env fuel count p tag) s s' fun _ _ => True := by
  induction count generalizing s s' p tag with
  | zero => exact Follows.stop h
  | succ count ih =>
      refine Follows.bind (plistXmlParseNextTag_alike hn hw fuel p tag s s' h) ?_
      rintro (_ | ⟨_ | a, length⟩) s s' h -
      · exact Follows.pure h trivial
      · exact ih none h
      · refine Follows.bind ((offText_readTag a).alike h) ?_
        rintro t s s' h -
        by_cases htype : t.type = .dict
        · rw [if_pos htype]
          exact Follows.pure h trivial
        · rw [if_neg htype]
          refine Follows.bind ((offText_freeTag (some a)).alike h) ?_
          rintro _ s s' h -
          exact ih (some a) h

end Alike

/-! ### Whole calls -/

/-- The two states differ in their texts at most. -/
def SameButText (s s' : Parser) : Prop := ∃ b, s' = s.withText b

theorem SameButText.refl (s : Parser) : SameButText s s := ⟨s.configBuffer, (Parser.withText_self rfl).symm⟩

theorem OffText.follows {α : Type} {x : ParserM α} (hx : OffText x) {s s' : Parser} (h : SameButText s s') :
    Follows SameButText (· = Fault.outOfBounds) x x s s' fun _ _ => True := by
  obtain ⟨b, rfl⟩ := h
  intro _
  rw [hx.same]
  exact ⟨rfl, ⟨b, rfl⟩, fun _ _ => trivial⟩

/-- Unless a call on one copy leaves it, a call on a copy with another end has the same result. -/
theorem plXmlToNodeCopy_follows (env : Env) {b w : Bytes} (w' : Bytes) (hb : b.length < 2 ^ 32) (hw : Plain w)
    (bufferSize : Nat) (s : Parser)
    (hinside : (plXmlToNodeCopy env (b ++ w) bufferSize s).result ≠ .error .outOfBounds) :
    (plXmlToNodeCopy env (b ++ w') bufferSize s).result = (plXmlToNodeCopy env (b ++ w) bufferSize s).result := by
  have hparse : Follows SameButText (· = Fault.outOfBounds) (plistXmlParseCopy env (b ++ w) bufferSize)
      (plistXmlParseCopy env (b ++ w') bufferSize) s s fun _ _ => True := by
    unfold plistXmlParseCopy
    by_cases hzero : bufferSize = 0
    · rw [if_pos hzero, if_pos hzero]
      exact Follows.pure (SameButText.refl s) trivial
    · rw [if_neg hzero, if_neg hzero]
      refine Follows.bind ((offText_allocate env .text).follows (SameButText.refl s)) ?_
      rintro (_ | _) t t' h -
      · exact Follows.pure h trivial
      · obtain ⟨c, rfl⟩ := h
        have htails : Tails b.length w w' { t with configBuffer := b ++ w }
            { t.withText c with configBuffer := b ++ w' } := ⟨b, rfl, rfl, rfl⟩
        have hmodify : Follows (Tails b.length w w') (· = Fault.outOfBounds)
            (Exec.modify fun s : Parser => { s with configBuffer := b ++ w } : ParserM Unit)
            (Exec.modify fun s : Parser => { s with configBuffer := b ++ w' }) t (t.withText c) fun _ _ => True :=
          Follows.of_eq rfl rfl htails trivial
        have hrun : ∀ t t', Tails b.length w w' t t' → Alike b.length w w' (do
            let tag ← parseTop env (parseFuel bufferSize) (parseFuel bufferSize) 0 none
            release .text
            pure tag) t t' fun _ _ => True := by
          intro t t' h
          refine Follows.bind (parseTop_alike hb hw _ _ none h) ?_
          rintro tag t t' h -
          exact ((offText_release .text).bind fun _ => OffText.pure tag).alike h
        refine (Follows.bind hmodify fun _ t t' h _ => hrun t t' h).mono ?_ fun _ _ h => h
        rintro t t' ⟨b', -, -, rfl⟩
        exact ⟨_, rfl⟩
  have hcall : Follows SameButText (· = Fault.outOfBounds) (plXmlToNodeCopy env (b ++ w) bufferSize)
      (plXmlToNodeCopy env (b ++ w') bufferSize) s s fun _ _ => True := by
    refine Follows.bind hparse ?_
    rintro (_ | plist) t t' h -
    · exact (offText_cleanup.bind fun _ => OffText.pure none).follows h
    · exact ((offText_readTag plist).bind fun tag => (offText_growDict env tag).bind fun pn =>
        (offText_freeTag _).bind fun _ => offText_cleanup.bind fun _ => OffText.pure pn).follows h
  refine (hcall ?_).1
  rintro e he rfl
  exact hinside he

/-! ### The bytes of a file -/

/-- Run on the bytes of the text with nothing behind them, the parser makes an access behind them. -/
def ReadsBehind (env : Env) (s : Parser) (dat : Nat → UInt8) (len : Nat) : Prop :=
  (plXmlToNodeCopy env (textOf dat len) (addU32 len 1) s).result = .error .outOfBounds

theorem textOf_congr {dat dat' : Nat → UInt8} {len : Nat} (h : ∀ i < len, dat i = dat' i) :
    textOf dat len = textOf dat' len :=
  List.map_congr_left fun i hi => h i (List.mem_range.1 hi)

/-- The copy is the text and one byte more; only the longest text there can be is not copied at all. -/
theorem plXmlToNode_eq_copy {env : Env} {dat : Nat → UInt8} {len : Nat} (hlen : len < 2 ^ 32) :
    plXmlToNode env dat len = plXmlToNodeCopy env (textOf dat len ++ [dat len]) (addU32 len 1) := by
  by_cases hmax : len + 1 < 2 ^ 32
  · have hcopy : copyOf dat len = textOf dat len ++ [dat len] := by
      rw [copyOf, addU32, Nat.mod_eq_of_lt hmax, List.range_succ, List.map_append, textOf, List.map_singleton]
    rw [plXmlToNode, hcopy]
  · have hzero : addU32 len 1 = 0 := by
      have hfull : len + 1 = 2 ^ 32 := by omega
      rw [addU32, hfull, Nat.mod_self]
    have hnone : ∀ copy, plistXmlParseCopy env copy 0 = pure none := fun copy => if_pos rfl
    rw [plXmlToNode, hzero, plXmlToNodeCopy, plXmlToNodeCopy, hnone, hnone]

end BareBoot.Plist
