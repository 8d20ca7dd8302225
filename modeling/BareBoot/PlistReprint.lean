import BareBoot.PlistMarkup
import BareBoot.PlistOutput
import BareBoot.PlistStream

/-! The parser on what the writer prints. The text of a tree is a run of slots, one for each tag or text
element, and the parser reads it as the tokens of the tree as long as every text comes through: one that
holds a `'<'`, or is too long for an `int`, is read as something else. -/

namespace BareBoot.Plist

open Exec

/-! ### How a tree begins -/

/-- A container without elements is written as one empty tag. -/
def opening (label : Label) (kids : Forest Label) : Opening :=
  match label with
  | .key datval => .key datval
  | .dict => if kids = .nil then .leaf .dict else .list .dict
  | .array => if kids = .nil then .leaf .array else .list .array
  | label => .leaf label

def openings : Forest Label → Forest Opening
  | .nil => .nil
  | .cons label kids next => .cons (opening label kids) (openings kids) (openings next)

theorem opening_label (label : Label) (kids : Forest Label) : (opening label kids).label = label := by
  cases label <;> simp only [opening] <;> first | rfl | (split <;> rfl)

theorem values_openings (f : Forest Label) : values (openings f) = f := by
  induction f with
  | nil => rfl
  | cons label kids next ihk ihn =>
      rw [values] at ihk ihn
      rw [openings, values, Forest.map, opening_label, ihk, ihn]

theorem openings_eq_nil {f : Forest Label} : openings f = .nil ↔ f = .nil := by
  cases f <;> simp [openings]

/-- A key takes one node. -/
theorem single_of_plNodeAddAll {datval : Bytes} {f : Forest Label} {t : Node}
    (h : plNodeAddAll (.leaf (.key datval)) f = some t) : f = .nil ∨ ∃ label kids, f = .cons label kids .nil := by
  cases f with
  | nil => exact Or.inl rfl
  | cons label kids next =>
      rw [plNodeAddAll, Option.bind_eq_some_iff] at h
      obtain ⟨pn, hadd, h⟩ := h
      have hpn : pn = ⟨.key datval, .cons label kids .nil⟩ := eq_of_plNodeAdd hadd
      cases next with
      | nil => exact Or.inr ⟨label, kids, rfl⟩
      | cons label' kids' next' =>
          rw [plNodeAddAll, Option.bind_eq_some_iff, hpn] at h
          obtain ⟨pn', hadd', -⟩ := h
          cases hadd'

theorem formed_openings {f : Forest Label} (h : Built f) : Formed (openings f) := by
  induction f with
  | nil => trivial
  | cons label kids next ihk ihn =>
      obtain ⟨⟨bag, hbag⟩, hkids, hnext⟩ := h
      refine ⟨?_, ihk hkids, ihn hnext⟩
      cases label with
      | key datval =>
          rcases single_of_plNodeAddAll hbag with rfl | ⟨label', kids', rfl⟩
          · exact Or.inl rfl
          · exact Or.inr ⟨_, _, rfl⟩
      | dict | array =>
          simp only [opening]
          split
          · rename_i hnil
            split at hnil
            · rename_i hkids
              cases hnil
              rw [hkids]
              exact ⟨rfl, rfl⟩
            · cases hnil
          · rename_i hlist
            split at hlist
            · cases hlist
            · cases hlist
              rfl
          · rename_i hkey
            split at hkey <;> cases hkey
      | bool | data | date | integer | string =>
          have hnil := nil_of_plNodeAddAll rfl hbag
          rw [hnil]
          exact ⟨rfl, rfl⟩

/-! ### Slots -/

def newline : Bytes := ascii "\n"

def textSlot (name body : Bytes) (indent : Nat) : Slot := ⟨indentText indent, .text name body, newline⟩

def markSlot (name : Bytes) (indent : Nat) : Slot := ⟨indentText indent, .mark name, newline⟩

def bagSlots (name : Bytes) (kids : Forest Label) (slots : List Slot) (indent : Nat) : List Slot :=
  if kids = .nil then [markSlot (name ++ ascii "/") indent]
  else markSlot name indent :: (slots ++ [markSlot (47 :: name) indent])

/-- The slots of one node, given those of the nodes it holds. -/
def nodeSlots (label : Label) (kids : Forest Label) (slots : List Slot) (indent : Nat) : List Slot :=
  match label with
  | .dict => bagSlots (ascii "dict") kids slots indent
  | .array => bagSlots (ascii "array") kids slots indent
  | .key datval => textSlot (ascii "key") datval indent :: slots
  | .string datval => [textSlot (ascii "string") datval indent]
  | .data datval => [textSlot (ascii "data") (base64Encode datval) indent]
  | .bool intval => [markSlot (if intval then ascii "true/" else ascii "false/") indent]
  | .integer intval => [textSlot (ascii "integer") (plint2str intval) indent]
  | .date _ => [textSlot (ascii "date") [] indent]

def forestSlots : Forest Label → Nat → List Slot
  | .nil, _ => []
  | .cons label kids next, indent =>
      nodeSlots label kids (forestSlots kids (indent + 1)) indent ++ forestSlots next indent

theorem slotsText_singleton (s : Slot) : slotsText [s] = s.bytes := by simp

theorem tagText_bytes (indent : Nat) (name : Bytes) (tlr : Bool) :
    tagText indent name true tlr = (markSlot ((if tlr then ascii "/" else []) ++ name) indent).bytes := by
  simp [tagText, markSlot, Slot.bytes, Piece.bytes, newline, ascii]

theorem emptyTagText_bytes (indent : Nat) (name : Bytes) :
    emptyTagText indent name = (markSlot (name ++ ascii "/") indent).bytes := by
  simp [emptyTagText, markSlot, Slot.bytes, Piece.bytes, newline, ascii]

theorem textElement_bytes (indent : Nat) {name : Bytes} (body : Bytes) (h : endName (markupOf name) = name) :
    textElement name body indent = (textSlot name body indent).bytes := by
  simp [textElement, tagText, textSlot, Slot.bytes, Piece.bytes, newline, ascii, indentText, h]

theorem length_itemTexts (f : Forest Label) : (itemTexts f).length = 0 ↔ f = .nil := by
  cases f <;> simp [itemTexts]

theorem bagText_slots {f : Forest Label} (name : Bytes) (indent : Nat)
    (h : ((itemTexts f).map fun text => text (indent + 1)).flatten = slotsText (forestSlots f (indent + 1))) :
    bagText name (itemTexts f) indent = slotsText (bagSlots name f (forestSlots f (indent + 1)) indent) := by
  unfold bagText bagSlots
  by_cases hnil : f = .nil
  · rw [if_pos ((length_itemTexts f).2 hnil), if_pos hnil, slotsText_singleton, emptyTagText_bytes]
  · rw [if_neg fun h => hnil ((length_itemTexts f).1 h), if_neg hnil, h, tagText_bytes, tagText_bytes]
    simp [ascii]

/-- The text of a tree is that of its slots. -/
theorem itemTexts_slots {f : Forest Label} (h : Formed (openings f)) (indent : Nat) :
    ((itemTexts f).map fun text => text indent).flatten = slotsText (forestSlots f indent) := by
  induction f generalizing indent with
  | nil => rfl
  | cons label kids next ihk ihn =>
      obtain ⟨hlabel, hkids, hnext⟩ := h
      have hfirst : nodeText label (itemTexts kids) indent =
          slotsText (nodeSlots label kids (forestSlots kids (indent + 1)) indent) := by
        cases label with
        | dict => exact bagText_slots _ indent (ihk hkids (indent + 1))
        | array => exact bagText_slots _ indent (ihk hkids (indent + 1))
        | key datval =>
            simp only [nodeText, nodeSlots]
            rw [textElement_bytes indent datval (by decide), slotsText_cons]
            congr 1
            rcases hlabel with hnil | ⟨o, kids', hsingle⟩
            · rw [openings_eq_nil.1 hnil]
              rfl
            · rw [← ihk hkids (indent + 1)]
              cases kids with
              | nil => rfl
              | cons label' kids'' next' =>
                  simp only [openings, Forest.cons.injEq] at hsingle
                  rw [openings_eq_nil.1 hsingle.2.2]
                  simp [itemTexts]
        | string datval => rw [nodeText, nodeSlots, textElement_bytes indent datval (by decide), slotsText_singleton]
        | data datval =>
            have hcode : (if datval.length > 0 then base64Encode datval else []) = base64Encode datval := by
              cases datval <;> rfl
            rw [nodeText, nodeSlots, hcode, textElement_bytes indent _ (by decide), slotsText_singleton]
        | bool intval =>
            rw [nodeText, nodeSlots, slotsText_singleton, emptyTagText_bytes]
            cases intval <;> rfl
        | integer intval =>
            rw [nodeText, nodeSlots, textElement_bytes indent _ (by decide), slotsText_singleton]
        | date datval => rw [nodeText, nodeSlots, textElement_bytes indent _ (by decide), slotsText_singleton]
      rw [itemTexts, List.map_cons, List.flatten_cons, hfirst, ihn hnext, forestSlots, slotsText_append]

/-! ### What is read back -/

/-- The text of the label comes through the writer and the parser. -/
def Label.Faithful : Label → Prop
  | .key datval | .string datval => 60 ∉ datval ∧ datval.length < 2 ^ 31
  | .data datval => (base64Encode datval).length + 7 < 2 ^ 31
  | _ => True

/-- The label is no date, and no text of it holds a `NUL`. -/
def Label.Textual : Label → Prop
  | .key datval | .string datval => 0 ∉ datval
  | .date _ => False
  | _ => True

/-- The tokens do not begin the way they should. -/
def Misread (tok : Token) (toks : List Token) : Prop :=
  toks = [] ∨ (∃ more, toks = .bad :: more) ∨
    ∃ tok' more label, toks = tok' :: more ∧ tok'.label? = some label ∧ tok.label? ≠ some label

def Slot.Yields (s : Slot) (tok : Token) : Prop := s.Good ∧ s.piece.token = tok

def Slot.Spoils (s : Slot) (tok : Token) : Prop :=
  tok.label?.isSome ∧ ∀ env total blanks rest, Unmarked blanks → Misread tok (tokens env total (blanks ++ (s.bytes ++ rest)))

/-- The first slots are read as they should be, the next one is not. -/
def Spoiled (slots : List Slot) (toks : List Token) : Prop :=
  ∃ slots₁ s slots₂ toks₁ tok toks₂, slots = slots₁ ++ s :: slots₂ ∧ toks = toks₁ ++ tok :: toks₂ ∧
    List.Forall₂ Slot.Yields slots₁ toks₁ ∧ s.Spoils tok

/-- The slots are read as these tokens if and only if the condition holds. -/
def ReadAs (slots : List Slot) (toks : List Token) (cond : Prop) : Prop :=
  (cond → List.Forall₂ Slot.Yields slots toks) ∧ (¬cond → Spoiled slots toks)

theorem ReadAs.nil : ReadAs [] [] True := ⟨fun _ => .nil, fun h => absurd trivial h⟩

theorem ReadAs.of_yields {s : Slot} {tok : Token} (h : s.Yields tok) : ReadAs [s] [tok] True :=
  ⟨fun _ => .cons h .nil, fun h => absurd trivial h⟩

theorem ReadAs.congr {slots : List Slot} {toks : List Token} {cond cond' : Prop} (h : ReadAs slots toks cond)
    (hcond : cond ↔ cond') : ReadAs slots toks cond' :=
  ⟨fun hc => h.1 (hcond.2 hc), fun hc => h.2 fun hc' => hc (hcond.1 hc')⟩

theorem ReadAs.append {a b : List Slot} {x y : List Token} {p q : Prop} (ha : ReadAs a x p) (hb : ReadAs b y q) :
    ReadAs (a ++ b) (x ++ y) (p ∧ q) := by
  constructor
  · rintro ⟨hp, hq⟩
    exact List.rel_append (ha.1 hp) (hb.1 hq)
  · intro hnot
    by_cases hp : p
    · obtain ⟨b₁, s, b₂, y₁, tok, y₂, rfl, rfl, hyields, hspoils⟩ := hb.2 fun hq => hnot ⟨hp, hq⟩
      refine ⟨a ++ b₁, s, b₂, x ++ y₁, tok, y₂, ?_, ?_, List.rel_append (ha.1 hp) hyields, hspoils⟩
      · rw [List.append_assoc]
      · rw [List.append_assoc]
    · obtain ⟨a₁, s, a₂, x₁, tok, x₂, rfl, rfl, hyields, hspoils⟩ := ha.2 hp
      refine ⟨a₁, s, a₂ ++ b, x₁, tok, x₂ ++ y, ?_, ?_, hyields, hspoils⟩
      · rw [List.append_assoc, List.cons_append]
      · rw [List.append_assoc, List.cons_append]

theorem Spoiled.single {s : Slot} {tok : Token} (h : s.Spoils tok) : Spoiled [s] [tok] :=
  ⟨[], s, [], [], tok, [], rfl, rfl, .nil, h⟩

theorem unmarked_replicate (n : Nat) : Unmarked (indentText n) := by
  intro c hc
  have hspace : c = 32 := by
    rw [indentText, List.mem_flatten] at hc
    obtain ⟨l, hl, hc⟩ := hc
    rw [List.eq_of_mem_replicate hl] at hc
    revert hc
    simp [ascii]
  rw [hspace]
  decide

theorem unmarked_newline : Unmarked newline := by decide +kernel

theorem markSlot_good {name : Bytes} (hname : ∀ c ∈ name, c ≠ 0 ∧ c ≠ 62) (h : endName (markupOf name) = [])
    (indent : Nat) : (markSlot name indent).Good :=
  ⟨unmarked_replicate indent, ⟨hname, h⟩, unmarked_newline⟩

theorem textSlot_good {name body : Bytes} (hname : ∀ c ∈ name, c ≠ 0 ∧ c ≠ 62)
    (h : endName (markupOf name) ≠ []) (hbody : Unmarked body)
    (hdata : markupOf name = .data → Decodable body) (indent : Nat) : (textSlot name body indent).Good :=
  ⟨unmarked_replicate indent, ⟨hname, h, hbody, hdata⟩, unmarked_newline⟩

/-- The text of a key or a string. -/
theorem readAs_text (name : Bytes) {d : Bytes} (hname : ∀ c ∈ name, c ≠ 0 ∧ c ≠ 62)
    (hkind : markupOf name = .key ∨ markupOf name = .string) (hnul : (0 : UInt8) ∉ d) (indent : Nat) :
    ReadAs [textSlot name (shown d) indent] [textToken d (markupOf name)] (60 ∉ d ∧ d.length < 2 ^ 31) := by
  have hend : endName (markupOf name) ≠ [] := by
    rcases hkind with h | h <;> rw [h] <;> decide
  have hdata : markupOf name ≠ .data := by
    rcases hkind with h | h <;> rw [h] <;> decide
  have hlabel : ∀ d₁ d₂ : Bytes, d₁ ≠ d₂ → ∃ label, (textToken d₁ (markupOf name)).label? = some label ∧
      (textToken d₂ (markupOf name)).label? ≠ some label := by
    intro d₁ d₂ hne
    rcases hkind with h | h <;> rw [h] <;> refine ⟨_, rfl, ?_⟩ <;> intro heq <;> cases heq <;> exact hne rfl
  constructor
  · rintro ⟨hmark, hlen⟩
    rw [shown_of_lt hlen]
    have hbody : Unmarked d := fun c hc => ⟨fun h => hnul (h ▸ hc), fun h => hmark (h ▸ hc)⟩
    exact .cons ⟨textSlot_good hname hend hbody (fun h => absurd h hdata) indent, rfl⟩ .nil
  · intro hnot
    refine Spoiled.single ⟨?_, ?_⟩
    · rcases hkind with h | h <;> rw [h] <;> rfl
    intro env total blanks rest hblanks
    have htext : ∀ body, blanks ++ ((textSlot name body indent).bytes ++ rest) =
        (blanks ++ indentText indent) ++ ((Piece.text name body).bytes ++ (newline ++ rest)) := by
      intro body
      simp [textSlot, Slot.bytes]
    have hbefore := hblanks.append (unmarked_replicate indent)
    by_cases hlen : d.length < 2 ^ 31
    · have hmark : (60 : UInt8) ∈ d := by
        by_contra h
        exact hnot ⟨h, hlen⟩
      rw [shown_of_lt hlen, htext]
      rcases nextToken_marked env total hbefore hname hkind hnul hmark (newline ++ rest) with
        hnone | ⟨d', rest', hne, hsome⟩
      · exact Or.inl (tokens_of_none hnone)
      · obtain ⟨label, hlabel, hlabel'⟩ := hlabel d' d hne
        exact Or.inr (Or.inr ⟨_, _, label, tokens_of_some hsome, hlabel, hlabel'⟩)
    · rw [shown, if_neg hlen, htext]
      have hgood : (Piece.text name []).Good := ⟨hname, hend, unmarked_nil, fun h => absurd h hdata⟩
      have hne : ([] : Bytes) ≠ d := by
        rintro rfl
        exact hlen (by decide)
      obtain ⟨label, hlabel, hlabel'⟩ := hlabel [] d hne
      exact Or.inr (Or.inr ⟨_, _, label, tokens_of_some (nextToken_piece env total hbefore hgood _), hlabel, hlabel'⟩)

theorem clean_base64Encode (d : Bytes) : Unmarked (base64Encode d) ∧ 123 ∉ base64Encode d := by
  have hchars : ∀ c ∈ base64Encode d, c ≠ 0 ∧ c ≠ 60 ∧ c ≠ 123 := by
    intro c hc
    have hall : ∀ c ∈ padChar :: encoding, c ≠ 0 ∧ c ≠ 60 ∧ c ≠ 123 := by decide +kernel
    rcases isBase64Char_encode d c hc with rfl | hc
    · exact hall _ List.mem_cons_self
    · exact hall c (List.mem_cons_of_mem _ hc)
  exact ⟨fun c hc => ⟨(hchars c hc).1, (hchars c hc).2.1⟩, fun h => (hchars 123 h).2.2 rfl⟩

theorem base64Decode_base64Encode (d : Bytes) : base64Decode 0 (base64Encode d) = d := by
  have h := base64Decode_encode 0 [] (fun c hc => absurd hc List.not_mem_nil) d
  rwa [List.append_nil] at h

/-- A data text that is too long for the decoder. -/
theorem nextToken_wideData (env : Env) (total : Nat) {before body : Bytes} (hb : Unmarked before)
    (hbody : Unmarked body) (h : ¬body.length + 7 < 2 ^ 31) (rest : Bytes) :
    nextToken env total (before ++ ((Piece.text (ascii "data") body).bytes ++ rest)) = some (.bad, rest) := by
  have hkind : markupOf (ascii "data") = .data := by decide
  have hname : ∀ c ∈ ascii "data", c ≠ 0 ∧ c ≠ 62 := by decide +kernel
  have htext : before ++ ((Piece.text (ascii "data") body).bytes ++ rest) =
      before ++ 60 :: (ascii "data" ++ 62 :: (body ++ 60 :: (47 :: ascii "data" ++ 62 :: rest))) := by
    simp [Piece.bytes, hkind, endName]
  rw [htext, nextToken, nextTag_append hb hname, Option.bind_some]
  simp only [hkind, elementToken]
  rw [matchEnd_append hbody hname, Option.map_some]
  simp only [dataToken, if_neg h]

theorem readAs_data (d : Bytes) (indent : Nat) :
    ReadAs [textSlot (ascii "data") (base64Encode (if (base64Encode d).length < 2 ^ 31 then d else [])) indent]
      [.element (.data d)] ((base64Encode d).length + 7 < 2 ^ 31) := by
  have hname : ∀ c ∈ ascii "data", c ≠ 0 ∧ c ≠ 62 := by decide +kernel
  have hend : endName (markupOf (ascii "data")) ≠ [] := by decide
  have hkind : markupOf (ascii "data") = .data := by decide
  have htoken : ∀ d', (Piece.text (ascii "data") (base64Encode d')).token = .element (.data d') := by
    intro d'
    rw [Piece.token, hkind, textToken, base64Decode_base64Encode]
  obtain ⟨hclean, hbrace⟩ := clean_base64Encode d
  constructor
  · intro hlen
    rw [if_pos (by omega)]
    exact .cons ⟨textSlot_good hname hend hclean (fun _ => ⟨hbrace, hlen⟩) indent, htoken d⟩ .nil
  · intro hnot
    refine Spoiled.single ⟨rfl, ?_⟩
    intro env total blanks rest hblanks
    have htext : ∀ body, blanks ++ ((textSlot (ascii "data") body indent).bytes ++ rest) =
        (blanks ++ indentText indent) ++ ((Piece.text (ascii "data") body).bytes ++ (newline ++ rest)) := by
      intro body
      simp [textSlot, Slot.bytes]
    have hbefore := hblanks.append (unmarked_replicate indent)
    rw [htext]
    by_cases hlen : (base64Encode d).length < 2 ^ 31
    · rw [if_pos hlen]
      exact Or.inr (Or.inl ⟨_, tokens_of_some (nextToken_wideData env total hbefore hclean hnot _)⟩)
    · rw [if_neg hlen]
      have hgood : (Piece.text (ascii "data") (base64Encode [])).Good :=
        ⟨hname, hend, by decide +kernel, fun _ => ⟨by decide +kernel, by decide +kernel⟩⟩
      have hne : d ≠ [] := by
        rintro rfl
        exact hlen (by decide)
      refine Or.inr (Or.inr ⟨_, _, .data [], tokens_of_some (nextToken_piece env total hbefore hgood _), ?_, ?_⟩)
      · rw [htoken]
        rfl
      · intro h
        cases h
        exact hne rfl

theorem unmarked_plint2str (v : Int64) : Unmarked (plint2str v) := by
  intro c hc
  rcases mem_plint2str hc with rfl | ⟨hlow, hhigh⟩
  · decide
  · constructor
    · rintro rfl
      exact absurd hlow (by decide)
    · rintro rfl
      exact absurd hhigh (by decide)

theorem readAs_mark {name : Bytes} {tok : Token} (hname : ∀ c ∈ name, c ≠ 0 ∧ c ≠ 62)
    (h : endName (markupOf name) = []) (htok : markToken (markupOf name) = tok) (indent : Nat) :
    ReadAs [markSlot name indent] [tok] True :=
  ReadAs.of_yields ⟨markSlot_good hname h indent, htok⟩

/-- A container and what it holds. -/
theorem readAs_bag (label : Label) (name : Bytes) (kids : Forest Label) {slots : List Slot} {toks : List Token}
    {cond : Prop} (hopens : markToken (markupOf name) = .opens label)
    (hempty : markToken (markupOf (name ++ ascii "/")) = .element label)
    (hclose : markToken (markupOf (47 :: name)) = .unknown)
    (hname : ∀ c ∈ name, c ≠ 0 ∧ c ≠ 62) (hmarks : endName (markupOf name) = [] ∧
      endName (markupOf (name ++ ascii "/")) = [] ∧ endName (markupOf (47 :: name)) = [])
    (h : ReadAs slots toks cond) (hnil : kids = .nil → cond) (indent : Nat) :
    ReadAs (bagSlots name kids slots indent)
      (if kids = .nil then [.element label] else .opens label :: (toks ++ [.unknown])) cond := by
  have hname' : ∀ c ∈ name ++ ascii "/", c ≠ 0 ∧ c ≠ 62 := by
    intro c hc
    rcases List.mem_append.1 hc with hc | hc
    · exact hname c hc
    · have hslash : c = 47 := by simpa [ascii] using hc
      rw [hslash]
      decide
  have hname'' : ∀ c ∈ (47 :: name : Bytes), c ≠ 0 ∧ c ≠ 62 := by
    intro c hc
    rcases List.mem_cons.1 hc with rfl | hc
    · decide
    · exact hname c hc
  unfold bagSlots
  by_cases hkids : kids = .nil
  · rw [if_pos hkids, if_pos hkids]
    exact (readAs_mark hname' hmarks.2.1 hempty indent).congr ⟨fun _ => hnil hkids, fun _ => trivial⟩
  · rw [if_neg hkids, if_neg hkids]
    have hall := (readAs_mark hname hmarks.1 hopens indent).append
      (h.append (readAs_mark hname'' hmarks.2.2 hclose indent))
    exact hall.congr (by simp)

theorem readAs_forest {f : Forest Label} (hformed : Formed (openings f)) (htextual : ∀ label ∈ f.labels, label.Textual)
    (indent : Nat) :
    ReadAs (forestSlots (f.map Label.written) indent) (stream (openings f)) (∀ label ∈ f.labels, label.Faithful) := by
  induction f generalizing indent with
  | nil => exact ReadAs.nil.congr (by simp [Forest.labels])
  | cons label kids next ihk ihn =>
      obtain ⟨hlabel, hkids, hnext⟩ := hformed
      simp only [Forest.labels, List.mem_cons, List.mem_append] at htextual
      have hheld := ihk hkids (fun l hl => htextual l (Or.inr (Or.inl hl))) (indent + 1)
      have hothers := ihn hnext (fun l hl => htextual l (Or.inr (Or.inr hl))) indent
      have hown := htextual label (Or.inl rfl)
      have hmap : ∀ g : Forest Label, g.map Label.written = .nil ↔ g = .nil := fun g => Forest.map_eq_nil
      have hheldNil : kids = .nil → ∀ l ∈ kids.labels, Label.Faithful l := by
        rintro rfl l hl
        cases hl
      have hfirst : ReadAs (nodeSlots label.written (kids.map Label.written)
          (forestSlots (kids.map Label.written) (indent + 1)) indent)
          (stream (.cons (opening label kids) (openings kids) .nil))
          (label.Faithful ∧ ∀ l ∈ kids.labels, Label.Faithful l) := by
        have hleaf : ∀ {slots : List Slot} {toks : List Token} {cond : Prop}, ReadAs slots toks cond →
            openings kids = .nil → ReadAs slots toks (cond ∧ ∀ l ∈ kids.labels, Label.Faithful l) := by
          intro slots toks cond hread hnil
          exact hread.congr ⟨fun hc => ⟨hc, hheldNil (openings_eq_nil.1 hnil)⟩, And.left⟩
        have hstream : openings kids = .nil → ∀ l, stream (.cons (.leaf l) (openings kids) .nil) = [.element l] := by
          intro hnil l
          rw [hnil]
          rfl
        have hlist : ∀ l, stream (.cons (.list l) (openings kids) .nil) =
            .opens l :: (stream (openings kids) ++ [.unknown]) := fun l => rfl
        cases label with
        | dict =>
            have hbag := readAs_bag .dict (ascii "dict") (kids.map Label.written) (by decide) (by decide) (by decide)
              (by decide +kernel) (by decide +kernel) hheld (fun h => hheldNil ((hmap kids).1 h)) indent
            simp only [opening]
            by_cases hnil : kids = .nil
            · rw [if_pos hnil, hstream (openings_eq_nil.2 hnil)]
              rw [if_pos ((hmap kids).2 hnil)] at hbag
              exact hbag.congr (by simp [Label.Faithful])
            · rw [if_neg hnil, hlist]
              rw [if_neg fun h => hnil ((hmap kids).1 h)] at hbag
              exact hbag.congr (by simp [Label.Faithful])
        | array =>
            have hbag := readAs_bag .array (ascii "array") (kids.map Label.written) (by decide) (by decide) (by decide)
              (by decide +kernel) (by decide +kernel) hheld (fun h => hheldNil ((hmap kids).1 h)) indent
            simp only [opening]
            by_cases hnil : kids = .nil
            · rw [if_pos hnil, hstream (openings_eq_nil.2 hnil)]
              rw [if_pos ((hmap kids).2 hnil)] at hbag
              exact hbag.congr (by simp [Label.Faithful])
            · rw [if_neg hnil, hlist]
              rw [if_neg fun h => hnil ((hmap kids).1 h)] at hbag
              exact hbag.congr (by simp [Label.Faithful])
        | key datval =>
            have htext := readAs_text (ascii "key") (by decide +kernel) (Or.inl (by decide +kernel)) hown indent
            have hstream : stream (.cons (.key datval) (openings kids) .nil) =
                [.key datval] ++ (stream (openings kids) ++ []) := rfl
            have hkind : markupOf (ascii "key") = .key := by decide
            rw [hkind] at htext
            simp only [opening]
            rw [hstream, List.append_nil]
            exact htext.append hheld
        | string datval =>
            have htext := readAs_text (ascii "string") (by decide +kernel) (Or.inr (by decide +kernel)) hown indent
            have hkind : markupOf (ascii "string") = .string := by decide
            rw [hkind] at htext
            simp only [opening]
            rw [hstream hlabel.1]
            exact hleaf htext hlabel.1
        | data datval =>
            simp only [opening]
            rw [hstream hlabel.1]
            exact hleaf (readAs_data datval indent) hlabel.1
        | bool intval =>
            simp only [opening]
            rw [hstream hlabel.1]
            cases intval
            · exact hleaf (readAs_mark (by decide +kernel) (by decide +kernel) (by decide +kernel) indent) hlabel.1
            · exact hleaf (readAs_mark (by decide +kernel) (by decide +kernel) (by decide +kernel) indent) hlabel.1
        | integer intval =>
            simp only [opening]
            rw [hstream hlabel.1]
            have hslot : (textSlot (ascii "integer") (plint2str intval) indent).Yields (.element (.integer intval)) := by
              refine ⟨textSlot_good (by decide +kernel) (by decide +kernel) (unmarked_plint2str intval) ?_ indent, ?_⟩
              · intro h
                exact absurd h (by decide)
              · show Token.element (.integer (plstr2vlong _ _)) = _
                rw [plstr2vlong_plint2str]
            exact hleaf (ReadAs.of_yields hslot) hlabel.1
        | date datval => exact hown.elim
      have hall := hfirst.append hothers
      rw [← stream_cons] at hall
      exact hall.congr (by simp [Forest.labels, or_imp, forall_and, and_assoc])

end BareBoot.Plist
