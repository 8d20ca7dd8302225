import BareBoot.PlistStore
import BareBoot.PlistText

/-! What the functions for leaf elements do: which part of the text they take, which tag they add to
the store, and which element of the text the tag shows. -/

namespace BareBoot.Plist

open Exec

/-! ### Tags that show elements -/

/-- The tag holds what the element says. -/
def TagBody.Shows (b : TagBody) : Label → Prop
  | .array => b.type = .array
  | .dict => b.type = .dict
  | .key d => b.type = .key ∧ b.string = some d ∧ b.dataLen = d.length
  | .bool v => b.type = if v then .true else .false
  | .data d => b.type = .data ∧ b.data = some d ∧ b.dataLen = d.length
  | .date d => d = [] ∧ b.type = .date ∧ b.string = none ∧ b.dataLen = 0
  | .integer v => b.type = .integer ∧ b.intval = v
  | .string d => b.type = .string ∧ b.string = some d ∧ b.dataLen = d.length

def Shows : Cells TagBody → Forest Label → Prop
  | .nil, .nil => True
  | .cons c sub next, .cons label kids rest => c.2.Shows label ∧ Shows sub kids ∧ Shows next rest
  | _, _ => False

theorem Shows.append {f g : Cells TagBody} {k l : Forest Label} (hf : Shows f k) (hg : Shows g l) :
    Shows (f ++ g) (k ++ l) := by
  induction f generalizing k with
  | nil =>
      cases k with
      | nil => exact hg
      | cons label kids rest => exact hf.elim
  | cons c sub next _ ih =>
      cases k with
      | nil => exact hf.elim
      | cons label kids rest => exact ⟨hf.1, hf.2.1, ih hf.2.2⟩

/-- A tag that shows an element is sane. -/
theorem TagBody.Shows.sane {b : TagBody} {label : Label} (h : b.Shows label) (hsmall : b.dataLen + 1 < 2 ^ 32) :
    b.Sane := by
  cases label with
  | key d | string d =>
      exact ⟨fun _ => ⟨d, h.2⟩, fun ht => by simp [h.1] at ht, fun ht => by simp [h.1] at ht, hsmall⟩
  | data d =>
      exact ⟨fun ht => by simp [h.1] at ht, fun _ => Or.inr ⟨d, h.2⟩, fun ht => by simp [h.1] at ht, hsmall⟩
  | date d =>
      exact ⟨fun ht => by simp [h.2.1] at ht, fun ht => by simp [h.2.1] at ht, fun _ => h.2.2, hsmall⟩
  | integer v =>
      exact ⟨fun ht => by simp [h.1] at ht, fun ht => by simp [h.1] at ht, fun ht => by simp [h.1] at ht, hsmall⟩
  | bool v =>
      have hb : b.type = if v then .true else .false := h
      refine ⟨?_, ?_, ?_, hsmall⟩ <;> cases v <;> simp [hb]
  | array | dict =>
      refine ⟨?_, ?_, ?_, hsmall⟩ <;> simp [show b.type = _ from h]

/-- A tag shows one element at most. -/
theorem TagBody.Shows.unique {b : TagBody} {label label' : Label} (h : b.Shows label) (h' : b.Shows label') :
    label' = label := by
  cases label with
  | bool v =>
      have hb : b.type = if v then .true else .false := h
      cases label' with
      | bool w =>
          have hb' : b.type = if w then .true else .false := h'
          cases v <;> cases w <;> simp_all
      | _ => cases v <;> simp_all [TagBody.Shows]
  | _ =>
      cases label' with
      | bool w =>
          have hb' : b.type = if w then .true else .false := h'
          cases w <;> simp_all [TagBody.Shows]
      | _ => simp_all [TagBody.Shows]

theorem TagBody.Shows.type_ne_none {b : TagBody} {label : Label} (h : b.Shows label) : b.type ≠ .none := by
  intro hnone
  cases label with
  | bool v =>
      have hb : b.type = if v then .true else .false := h
      cases v <;> simp [hnone] at hb
  | _ => simp_all [TagBody.Shows]

theorem TagBody.Shows.data_isSome {b : TagBody} {label : Label} (h : b.Shows label) (htype : b.type = .data) :
    b.data ≠ none := by
  intro hnone
  cases label with
  | bool v =>
      have hb : b.type = if v then .true else .false := h
      cases v <;> simp [htype] at hb
  | _ => simp_all [TagBody.Shows]

theorem Shows.eq_nil_iff {f : Cells TagBody} {k : Forest Label} (h : Shows f k) : f = .nil ↔ k = .nil := by
  cases f <;> cases k <;> simp_all [Shows]

/-! ### Reading at a place of the text -/

/-- The parser reads `u`, the rest of a text of `n` bytes, behind `pre`. -/
structure Reads (n : Nat) (s : Parser) (pre u : Bytes) : Prop where
  text : s.configBuffer = pre ++ (u ++ [0])
  size : pre.length + u.length = n
  live : s.danglingSymbols = false

section Reads
variable {n : Nat} {s t : Parser} {pre u : Bytes}

theorem Reads.kept (h : Reads n s pre u) (hk : Kept s t) : Reads n t pre u :=
  ⟨hk.1.trans h.text, h.size, hk.2.trans h.live⟩

theorem Reads.withText (h : Reads n s pre u) {v : Bytes} (hv : v.length = u.length) :
    Reads n (s.withText (pre ++ (v ++ [0]))) pre v :=
  ⟨rfl, by rw [hv, h.size], h.live⟩

theorem Reads.length (h : Reads n s pre u) : s.configBuffer.length = n + 1 := by
  rw [h.text, ← h.size]
  simp only [List.length_append, List.length_singleton]
  omega

/-- Reading further on. -/
theorem Reads.shift {v w : Bytes} (h : Reads n s pre (v ++ w)) : Reads n s (pre ++ v) w := by
  refine ⟨?_, ?_, h.live⟩
  · rw [h.text]
    simp
  · rw [← h.size]
    simp only [List.length_append]
    omega

theorem Reads.unshift {v w : Bytes} (h : Reads n s (pre ++ v) w) : Reads n s pre (v ++ w) := by
  refine ⟨?_, ?_, h.live⟩
  · rw [h.text]
    simp
  · rw [← h.size]
    simp only [List.length_append]
    omega

end Reads

/-! ### Leaf elements -/

/-- The result of a function for an element that ends with its own end tag: the element's text was
fixed, and a tag without children added that shows the element. -/
def LeafDone (env : Env) (n : Nat) (tag : Bytes) (shows : Bytes → TagBody → Prop) (pre u : Bytes)
    (live : List (Cells TagBody)) : Option (Nat × Nat) → Parser → Prop
  | none, t => (env.Ample → matchEnd tag u = none) ∧ (∃ v, Reads n t pre v) ∧
      ∃ free, Describes t.toTagStore [] live free
  | some (a, length), t => ∃ body rest b free, matchEnd tag u = some (body, rest) ∧
      Reads n t pre (fixed tag body rest) ∧ length = body.length + tag.length + 3 ∧
      Describes t.toTagStore [] (.cons (a, b) .nil .nil :: live) free ∧ (env.Ample → shows body b)

section Leaves
variable {env : Env} {n : Nat} {blame : Prop} {s : Parser} {pre u : Bytes} {live : List (Cells TagBody)}
  {free : Cells TagBody}

/-- The steps all elements with an end tag start with: fix the text, take a tag. -/
theorem fixed_newTag_spec {α : Type} {P : Option α → Parser → Prop} {f : Nat → Nat → ParserM (Option α)}
    {tag : Bytes} (hn : n < 2 ^ 32) (hr : Reads n s pre u) (hd : Describes s.toTagStore [] live free)
    (hnone : ∀ t, (env.Ample → matchEnd tag u = none) → (∃ v, Reads n t pre v) →
      (∃ free, Describes t.toTagStore [] live free) → P none t)
    (hsome : ∀ body rest a t tag' free, matchEnd tag u = some (body, rest) →
      Reads n t pre (fixed tag body rest) → t.tagAt a = some tag' → tag'.type = .none → tag'.tag = none →
      tag'.string = none → tag'.dataLen = 0 → Describes t.toTagStore [a] live free →
      Runs blame (f (body.length + tag.length + 3) a) t P) :
    Runs blame (do
      match ← plistXmlFixDataMatchingTag pre.length tag with
      | none => pure none
      | some length =>
          match ← plistXmlNewTag env with
          | none => pure none
          | some tmpTag => f length tmpTag) s P := by
  have hsize : s.configBuffer.length ≤ 2 ^ 32 := by
    rw [hr.length]
    omega
  rcases hm : matchEnd tag u with _ | ⟨body, rest⟩
  · obtain ⟨v, hv, hfix⟩ := plistXmlFixDataMatchingTag_none hr.text hsize hm
    exact Under.bind_eq hfix (Under.pure (hnone _ (fun _ => hm) ⟨v, hr.withText hv⟩ ⟨free, hd⟩))
  · have hfix := plistXmlFixDataMatchingTag_some hr.text hsize hm
    have hr' : Reads n (s.withText (pre ++ (fixed tag body rest ++ [0]))) pre (fixed tag body rest) :=
      hr.withText (by rw [length_fixed, length_of_matchEnd hm])
    refine Under.bind_eq hfix (Under.bind (plistXmlNewTag_spec hd) ?_)
    rintro (_ | a) t ⟨hkept, hnew⟩
    · obtain ⟨hample, hstore⟩ := hnew
      refine Under.pure (hnone t (fun h => absurd h hample) ⟨_, hr'.kept hkept⟩ ⟨free, ?_⟩)
      rw [hstore]
      exact hd
    · obtain ⟨tag', free', hat, htype, htag, hstring, hlen, hdesc⟩ := hnew
      exact hsome body rest a t tag' free' hm (hr'.kept hkept) hat htype htag hstring hlen hdesc

/-- A tag taken for a leaf is filled in. -/
theorem fillLeaf_spec {t : Parser} {a : Nat} {tag' : Tag} {f : Tag → Tag}
    (hat : t.tagAt a = some tag') (hdesc : Describes t.toTagStore [a] live free)
    (hsub : (f tag').tag = none) (hnext : (f tag').tagNext = none) (hsane : (f tag').toTagBody.Sane) :
    Runs blame (fillTag a f) t fun _ t' =>
      Kept t t' ∧ Describes t'.toTagStore [] (.cons (a, (f tag').toTagBody) .nil .nil :: live) free := by
  exact fillTag_spec (Describes.cons_nil.2 hdesc) hat hsub hnext hsane

theorem length_cstr_le (b : Bytes) : (cstr b).length ≤ b.length :=
  (List.takeWhile_sublist _).length_le

/-- The bytes of a text that fits the parser are counted exactly. -/
theorem length_cstr_mod {t : Parser} {tag body rest : Bytes} (hn : n < 2 ^ 32)
    (hr : Reads n t pre (fixed tag body rest)) :
    (cstr body).length % 2 ^ 32 = (cstr body).length ∧ (cstr body).length % 2 ^ 32 + 1 < 2 ^ 32 := by
  have h1 := length_cstr_le body
  have h2 := hr.size
  rw [length_fixed] at h2
  have h3 : (cstr body).length % 2 ^ 32 = (cstr body).length := Nat.mod_eq_of_lt (by omega)
  exact ⟨h3, by omega⟩

theorem plistXmlParseTagString_spec (hn : n < 2 ^ 32) (hblame : ¬env.Ample → blame) (hr : Reads n s pre u)
    (hd : Describes s.toTagStore [] live free) :
    Runs blame (plistXmlParseTagString env pre.length) s
      (LeafDone env n (ascii "string") (fun body b => b.Shows (.string (cstr body))) pre u live) := by
  refine fixed_newTag_spec hn hr hd (fun t hm hv hf => ⟨hm, hv, hf⟩) ?_
  intro body rest a t tag' free' hm hr' hat htype htag hstring hlen hdesc
  refine Under.bind (plistXmlNewSymbol_spec (readString_fixed hr'.text) hr'.live) ?_
  rintro (_ | string) t' ⟨hkept, hstore, hsym⟩
  · rw [← hstore] at hat hdesc
    refine Under.bind (reportUncleared_spec hat (hblame hsym)) ?_
    rintro _ _ ⟨rfl, hnext⟩
    refine Under.bind (plistXmlFreeTag_spec ((hr'.kept hkept).live) (hdesc.single hat htype hlen htag hnext)) ?_
    rintro _ t'' ⟨hkept', free'', hdesc'⟩
    exact Under.pure ⟨fun h => absurd h hsym, ⟨_, (hr'.kept hkept).kept hkept'⟩, free'', hdesc'⟩
  · subst hsym
    rw [← hstore] at hat hdesc
    have hshow : TagBody.Shows
        ⟨.string, some (cstr body), tag'.data, (cstr body).length % 2 ^ 32, tag'.intval, offsetOf pre.length⟩
        (.string (cstr body)) := ⟨rfl, rfl, (length_cstr_mod hn hr').1⟩
    refine Under.bind (fillLeaf_spec hat hdesc rfl rfl (hshow.sane (length_cstr_mod hn hr').2)) ?_
    rintro _ t'' ⟨hkept', hdesc'⟩
    exact Under.pure ⟨body, rest, _, free', hm, (hr'.kept hkept).kept hkept', rfl, hdesc', fun _ => hshow⟩

theorem plistXmlParseTagDate_spec (hn : n < 2 ^ 32) (hr : Reads n s pre u)
    (hd : Describes s.toTagStore [] live free) :
    Runs blame (plistXmlParseTagDate env pre.length) s
      (LeafDone env n (ascii "date") (fun _ b => b.Shows (.date [])) pre u live) := by
  refine fixed_newTag_spec (f := fun length tmpTag => do
    fillTag tmpTag fun tag => { tag with
      type := .date, string := none, tag := none, tagNext := none, offset := offsetOf pre.length }
    pure (some (tmpTag, length))) hn hr hd (fun t hm hv hf => ⟨hm, hv, hf⟩) ?_
  intro body rest a t tag' free' hm hr' hat htype htag hstring hlen hdesc
  have hshow : TagBody.Shows
      ⟨.date, none, tag'.data, tag'.dataLen, tag'.intval, offsetOf pre.length⟩ (.date []) := ⟨rfl, rfl, rfl, hlen⟩
  have hsmall : tag'.dataLen + 1 < 2 ^ 32 := by omega
  refine Under.bind (fillLeaf_spec hat hdesc rfl rfl (hshow.sane hsmall)) ?_
  rintro _ t' ⟨hkept, hdesc'⟩
  exact Under.pure ⟨body, rest, _, free', hm, hr'.kept hkept, rfl, hdesc', fun _ => hshow⟩

/-- The result of an integer: as for the other leaves, except that one which starts with markup leaves
the length of its start tag. -/
def IntegerDone (env : Env) (n startLength : Nat) (pre u : Bytes) (live : List (Cells TagBody)) :
    Option (Nat × Nat) → Parser → Prop
  | none, t => (env.Ample → matchEnd (ascii "integer") u = none) ∧ (∃ v, Reads n t pre v) ∧
      ∃ free, Describes t.toTagStore [] live free
  | some (a, length), t => ∃ body rest b free, matchEnd (ascii "integer") u = some (body, rest) ∧
      Reads n t pre (fixed (ascii "integer") body rest) ∧
      Describes t.toTagStore [] (.cons (a, b) .nil .nil :: live) free ∧
      if body.head? = some 60 then
        length = startLength ∧ b.Shows (.integer 0) ∧
          0 < addU32 startLength startLength ∧ addU32 startLength startLength ≤ startLength + u.length
      else length = body.length + 10 ∧ b.Shows (.integer (plstr2vlong (body ++ integerTail) (body.length + 10)))

/-- The number is read from the text, its end tag at most. -/
theorem plstr2vlong_fixed (body rest : Bytes) :
    plstr2vlong ((fixed (ascii "integer") body rest ++ [0]).take (min 39 (body.length + 10)))
      (body.length + 10) = plstr2vlong (body ++ integerTail) (body.length + 10) := by
  have hsplit : fixed (ascii "integer") body rest ++ [0] = (body ++ integerTail) ++ (rest ++ [0]) := by
    simp [fixed, integerTail, ascii]
  have hlen : (body ++ integerTail).length = body.length + 10 := by
    rw [List.length_append]
    rfl
  have hle : min 39 (body.length + 10) ≤ (body ++ integerTail).length := by omega
  rw [hsplit, List.take_append_of_le_length hle]
  unfold plstr2vlong
  simp only [List.take_take, Nat.min_self]

theorem plistXmlParseTagInteger_spec (hn : n < 2 ^ 32) {startLength : Nat}
    (hblame : ∀ body rest, matchEnd (ascii "integer") u = some (body, rest) → body.head? = some 60 →
      ¬(0 < addU32 startLength startLength ∧ addU32 startLength startLength ≤ startLength + u.length) → blame)
    (hr : Reads n s pre u) (hd : Describes s.toTagStore [] live free) :
    Runs blame (plistXmlParseTagInteger env pre.length startLength) s
      (IntegerDone env n startLength pre u live) := by
  refine fixed_newTag_spec (f := fun length tmpTag => do
    let c ← readByte pre.length
    if c = 60 then
      fillTag tmpTag fun tag => { tag with
        type := .integer, string := none, intval := 0, tag := none, offset := 0, tagNext := none }
      let s ← get
      emit (.shortInteger startLength (s.configBuffer.length - 1 - pre.length))
      pure (some (tmpTag, startLength))
    else
      let vbuf ← readBytes pre.length (min 39 length)
      fillTag tmpTag fun tag => { tag with
        type := .integer, intval := plstr2vlong vbuf length, tag := none,
        offset := offsetOf pre.length, tagNext := none }
      pure (some (tmpTag, length))) hn hr hd (fun t hm hv hf => ⟨hm, hv, hf⟩) ?_
  intro body rest a t tag' free' hm hr' hat htype htag hstring hlen hdesc
  have hbyte : ∃ c, (fixed (ascii "integer") body rest ++ [0])[0]? = some c ∧ (c = 60 ↔ body.head? = some 60) := by
    cases body with
    | nil => exact ⟨0, by simp [fixed], by simp⟩
    | cons c body => exact ⟨c, by simp [fixed], by simp⟩
  obtain ⟨c, hget, hc⟩ := hbyte
  have hsmall : tag'.dataLen + 1 < 2 ^ 32 := by omega
  refine Under.bind_eq (readByte_spec hr'.text hget) ?_
  by_cases h60 : body.head? = some 60
  · rw [if_pos (hc.2 h60)]
    refine Under.bind (fillLeaf_spec hat hdesc rfl rfl (TagBody.Shows.sane (show TagBody.Shows _ (.integer 0) from
      ⟨rfl, rfl⟩) hsmall)) ?_
    rintro _ t' ⟨hkept, hdesc'⟩
    have hr'' := hr'.kept hkept
    have hleft : t'.configBuffer.length - 1 - pre.length = u.length := by
      rw [hr''.length, ← hr.size]
      omega
    refine Under.get_bind (Under.emit_bind ?_ ?_)
    · rw [hleft]
      rintro ⟨hpos, hle⟩
      refine ⟨trivial, Under.pure ⟨body, rest, _, free', hm, hr'', hdesc', ?_⟩⟩
      rw [if_pos h60]
      exact ⟨rfl, ⟨rfl, rfl⟩, hpos, hle⟩
    · rw [hleft]
      exact fun hg => hblame body rest hm h60 hg
  · rw [if_neg fun h => h60 (hc.1 h)]
    have hcount : min 39 (body.length + (ascii "integer").length + 3) ≤
        (fixed (ascii "integer") body rest ++ [0]).length := by
      rw [List.length_append, length_fixed]
      omega
    refine Under.bind_eq (readBytes_spec hr'.text hcount)
      (Under.bind (fillLeaf_spec hat hdesc rfl rfl (TagBody.Shows.sane (show TagBody.Shows _ (.integer _) from
        ⟨rfl, rfl⟩) hsmall)) ?_)
    rintro _ t' ⟨hkept, hdesc'⟩
    refine Under.pure ⟨body, rest, _, free', hm, hr'.kept hkept, hdesc', ?_⟩
    rw [if_neg h60]
    exact ⟨rfl, rfl, plstr2vlong_fixed body rest⟩

/-! ### Data -/

theorem readUnreadable_spec {α : Type} {Q : α → Parser → Prop} (hblame : blame) (s : Parser) :
    Runs blame readUnreadable s Q :=
  Under.emit_bind (fun hg => hg.elim) fun _ => hblame

theorem readSymbol_spec (buffer : Nat) (string : Bytes) (count : Nat)
    (hblame : symbolBytes env buffer string count = none → blame) (s : Parser) :
    Runs blame (readSymbol env buffer string count) s fun r t =>
      t = s ∧ symbolBytes env buffer string count = some r := by
  unfold readSymbol symbolBytes at *
  simp only at *
  by_cases hle : count ≤ (string ++ List.replicate 9 0).length
  · rw [if_pos hle, if_pos hle]
    exact Under.pure ⟨rfl, rfl⟩
  · rw [if_neg hle] at hblame
    rw [if_neg hle, if_neg hle]
    refine Under.emit_bind (fun _ => ⟨trivial, ?_⟩) fun h => absurd trivial h
    rcases hr : (List.range (count - (string ++ List.replicate 9 0).length)).mapM (env.behindSymbol buffer) with _ | r
    · rw [hr] at hblame ⊢
      exact readUnreadable_spec (hblame rfl) s
    · rw [hr]
      exact Under.pure ⟨rfl, rfl⟩

theorem length_of_mapM {α β : Type} {f : α → Option β} (l : List α) {r : List β} (h : l.mapM f = some r) :
    r.length = l.length := by
  induction l generalizing r with
  | nil =>
      cases h
      rfl
  | cons a l ih =>
      rw [List.mapM_cons] at h
      rcases hb : f a with _ | b
      · rw [hb] at h
        cases h
      · rcases hr : l.mapM f with _ | r'
        · rw [hb, hr] at h
          cases h
        · rw [hb, hr] at h
          cases h
          rw [List.length_cons, List.length_cons, ih hr]

/-- Decoding yields no more bytes than it reads. -/
theorem length_decoded_le {buffer : Nat} {string : Bytes} {count : Nat} {d : Bytes}
    (h : (symbolBytes env buffer string count).bind (decodedBytes env) = some d) : d.length ≤ count := by
  rw [Option.bind_eq_some_iff] at h
  obtain ⟨idat, hidat, hd⟩ := h
  have hlen : idat.length ≤ count := by
    unfold symbolBytes at hidat
    simp only at hidat
    split at hidat
    · cases hidat
      rw [List.length_take]
      omega
    · rename_i hlt
      rw [Option.map_eq_some_iff] at hidat
      obtain ⟨behind, hb, rfl⟩ := hidat
      have := length_of_mapM _ hb
      rw [List.length_range] at this
      rw [List.length_append, this]
      omega
  have hdec : ∀ c, d = base64Decode c idat → d.length ≤ idat.length := by
    rintro c rfl
    exact length_base64DecodeBlock_le c .a 0 idat
  rw [decodedBytes] at hd
  split at hd
  · rw [Option.map_eq_some_iff] at hd
    obtain ⟨c, -, hc⟩ := hd
    exact (hdec c hc.symm).trans hlen
  · cases hd
    exact (hdec 0 rfl).trans hlen

theorem decodeSymbol_spec (buffer : Nat) (string : Bytes) (count : Nat)
    (hblame : (symbolBytes env buffer string count).bind (decodedBytes env) = none → blame) (s : Parser) :
    Runs blame (decodeSymbol env buffer string count) s fun r t =>
      t = s ∧ (symbolBytes env buffer string count).bind (decodedBytes env) = some r := by
  refine Under.bind (readSymbol_spec buffer string count (fun h => hblame (by rw [h]; rfl)) s) ?_
  rintro idat _ ⟨rfl, hidat⟩
  rw [hidat, Option.bind_some, decodedBytes] at hblame
  rw [hidat, Option.bind_some, decodedBytes]
  by_cases h : 123 ∈ idat
  · rw [if_pos h] at hblame
    rw [if_pos h, if_pos h]
    rcases hc : env.behindTable with _ | c
    · exact readUnreadable_spec (hblame (by rw [hc]; rfl)) _
    · exact Under.pure ⟨rfl, rfl⟩
  · rw [if_neg h, if_neg h]
    exact Under.pure ⟨rfl, rfl⟩

theorem plb64decode_spec {buffer : Nat} {idat : Option Bytes} {ilen : Nat} (hpos : 0 < ilen)
    (hwide : ¬ilen < 2 ^ 31 → blame) (hblame : ∀ string, idat = some string → ilen < 2 ^ 31 →
      (symbolBytes env buffer string ilen).bind (decodedBytes env) = none → blame) (s : Parser) :
    Runs blame (plb64decode env buffer idat ilen) s fun r t =>
      Kept s t ∧ t.toTagStore = s.toTagStore ∧ (∀ d, r = some d → d.length < 2 ^ 31) ∧
        ∀ string, idat = some string → env.Ample →
        ilen < 2 ^ 31 ∧ ∃ d, r = some d ∧
          (symbolBytes env buffer string ilen).bind (decodedBytes env) = some d := by
  cases idat with
  | none => exact Under.pure ⟨Kept.refl s, rfl, fun _ h => (by cases h), fun _ h => by cases h⟩
  | some string =>
      unfold plb64decode
      simp only
      rw [if_neg (by omega)]
      refine Under.bind (allocate_spec .datum s) ?_
      rintro (_ | _) t ⟨hok, hkept, hstore⟩
      · exact Under.pure ⟨hkept, hstore, fun _ h => (by cases h), fun _ _ h => absurd h (hok rfl)⟩
      · rw [if_pos rfl]
        by_cases hlt : ilen < 2 ^ 31
        · rw [if_pos hlt]
          refine Under.bind (decodeSymbol_spec buffer string ilen (hblame string rfl hlt) t) ?_
          rintro d _ ⟨rfl, hd⟩
          refine Under.emit_bind (fun _ => ⟨trivial, Under.pure ⟨hkept, hstore, ?_, ?_⟩⟩) fun hg => absurd trivial hg
          · rintro _ ⟨⟩
            have := length_decoded_le hd
            omega
          · intro string' hs _
            cases hs
            exact ⟨hlt, d, rfl, hd⟩
        · rw [if_neg hlt]
          exact Under.emit_bind (fun hg => hg.elim) fun _ => hwide hlt

theorem plistXmlParseTagData_spec (hn : n < 2 ^ 32)
    (hblame : ∀ body rest, matchEnd (ascii "data") u = some (body, rest) →
      dataToken env pre.length body = .bad → blame)
    (hr : Reads n s pre u) (hd : Describes s.toTagStore [] live free) :
    Runs blame (plistXmlParseTagData env pre.length) s
      (LeafDone env n (ascii "data")
        (fun body b => ∃ d, dataToken env pre.length body = .element (.data d) ∧ b.Shows (.data d))
        pre u live) := by
  refine fixed_newTag_spec (f := fun length tmpTag => do
    let string ← plistXmlNewSymbol env pre.length
    let data ← plb64decode env pre.length string length
    fillTag tmpTag fun tag => { tag with
      type := .data, string := string, data := data, dataLen := (data.getD []).length, tag := none,
      offset := offsetOf pre.length, tagNext := none }
    pure (some (tmpTag, length))) hn hr hd (fun t hm hv hf => ⟨hm, hv, hf⟩) ?_
  intro body rest a t tag' free' hm hr' hat htype htag hstring hlen hdesc
  refine Under.bind (plistXmlNewSymbol_spec (readString_fixed hr'.text) hr'.live) ?_
  rintro string t₁ ⟨hkept₁, hstore₁, hsym⟩
  have hlen7 : body.length + (ascii "data").length + 3 = body.length + 7 := rfl
  rw [hlen7]
  have hwide : ¬body.length + 7 < 2 ^ 31 → blame := by
    intro hnot
    apply hblame body rest hm
    rw [dataToken, if_neg hnot]
  have hbad : ∀ s, string = some s → body.length + 7 < 2 ^ 31 →
      (symbolBytes env pre.length s (body.length + 7)).bind (decodedBytes env) = none → blame := by
    rintro s rfl hlt hnone
    subst hsym
    apply hblame body rest hm
    rw [dataToken, if_pos hlt, hnone]
  refine Under.bind (plb64decode_spec (by omega) hwide hbad t₁) ?_
  rintro data t₂ ⟨hkept₂, hstore₂, hsmall, hdata⟩
  rw [← hstore₁, ← hstore₂] at hdesc
  rw [← hstore₁, ← hstore₂] at hat
  have hsane : TagBody.Sane
      ⟨.data, string, data, (data.getD []).length, tag'.intval, offsetOf pre.length⟩ := by
    refine ⟨fun h => by simp at h, fun _ => ?_, fun h => by simp at h, ?_⟩
    · rcases data with _ | d
      · exact Or.inl ⟨rfl, rfl⟩
      · exact Or.inr ⟨d, rfl, rfl⟩
    · rcases data with _ | d
      · simp
      · have := hsmall d rfl
        simp only [Option.getD_some]
        omega
  refine Under.bind (fillLeaf_spec hat hdesc rfl rfl hsane) ?_
  rintro _ t₃ ⟨hkept₃, hdesc₃⟩
  refine Under.pure ⟨body, rest, _, free', hm, ((hr'.kept hkept₁).kept hkept₂).kept hkept₃, rfl, hdesc₃, ?_⟩
  intro hample
  rcases string with _ | string
  · exact absurd hample hsym
  · obtain ⟨hlt, d, rfl, hbytes⟩ := hdata string rfl hample
    subst hsym
    refine ⟨d, ?_, rfl, rfl, rfl⟩
    rw [dataToken, if_pos hlt, hbytes]

/-- The result of a Boolean, which has no text of its own. -/
theorem plistXmlParseTagBoolean_spec {type : TagType} (htype : type = .true ∨ type = .false)
    (hr : Reads n s pre u) (hd : Describes s.toTagStore [] live free) :
    Runs blame (plistXmlParseTagBoolean env pre.length type) s fun r t => Reads n t pre u ∧
      match r with
      | none => ¬env.Ample ∧ ∃ free, Describes t.toTagStore [] live free
      | some (a, length) => length = 0 ∧ ∃ b free, b.type = type ∧
          Describes t.toTagStore [] (.cons (a, b) .nil .nil :: live) free := by
  refine Under.bind (plistXmlNewTag_spec hd) ?_
  rintro (_ | a) t ⟨hkept, hnew⟩
  · obtain ⟨hample, hstore⟩ := hnew
    refine Under.pure ⟨hr.kept hkept, hample, free, ?_⟩
    rw [hstore]
    exact hd
  · obtain ⟨tag', free', hat, -, htag, hstring, hlen, hdesc⟩ := hnew
    have hsane : TagBody.Sane ⟨type, none, tag'.data, 0, tag'.intval, offsetOf pre.length⟩ := by
      rcases htype with rfl | rfl <;> constructor <;> simp
    refine Under.bind (fillLeaf_spec hat hdesc rfl rfl hsane) ?_
    rintro _ t' ⟨hkept', hdesc'⟩
    exact Under.pure ⟨(hr.kept hkept).kept hkept', rfl, _, free', rfl, hdesc'⟩

end Leaves
end BareBoot.Plist
