import BareBoot.PlistRoundTrip

/-! Plist documents as they are written: a header, the root dictionary, and what stands behind it, each tag or text
element with the blanks around it. The kinds of elements, and how their tags are spelled, are those the parser
knows. -/

namespace BareBoot.Plist

/-! ### Elements -/

/-- An element as it is written: in one piece, a container between its tags, or a key. -/
inductive Spelling where
  | leaf (element : Slot)
  | list (type : TagType) (start stop : Slot)
  | key (element : Slot)
  deriving DecidableEq, Repr

def Piece.body : Piece → Bytes
  | .mark _ => []
  | .text _ body => body

def Spelling.opening : Spelling → Opening
  | .leaf element => .leaf (element.piece.token.label?.getD .array)
  | .list type _ _ => .list (listLabel type)
  | .key element => .key element.piece.body

def slotsOf : Forest Spelling → List Slot
  | .nil => []
  | .cons (.list _ start stop) kids next => start :: (slotsOf kids ++ stop :: slotsOf next)
  | .cons (.leaf element) kids next => element :: (slotsOf kids ++ slotsOf next)
  | .cons (.key element) kids next => element :: (slotsOf kids ++ slotsOf next)

/-- The elements that are written. -/
def contents (f : Forest Spelling) : Forest Label := values (f.map Spelling.opening)

/-- An empty container or a truth value is one tag; a string, a number, data and a date have a text. -/
def Piece.IsLeaf : Piece → Prop
  | .mark name => (∃ type, markupOf name = .list type true) ∨ ∃ type, markupOf name = .boolean type
  | .text name _ =>
      markupOf name = .string ∨ markupOf name = .integer ∨ markupOf name = .data ∨ markupOf name = .date

/-- The name in the end tag of a container. -/
def endTag (type : TagType) : Bytes := if type = .dict then ascii "/dict" else ascii "/array"

def Spelling.Good : Spelling → Prop
  | .leaf element => element.Good ∧ element.piece.IsLeaf
  | .list type start stop => (start.Good ∧ ∃ name, start.piece = .mark name ∧ markupOf name = .list type false) ∧
      stop.Good ∧ stop.piece = .mark (endTag type)
  | .key element => element.Good ∧ ∃ body, element.piece = .text (ascii "key") body

/-- Each element is spelled well, and one in a single piece holds no other. -/
def Spelled : Forest Spelling → Prop
  | .nil => True
  | .cons o kids next => o.Good ∧ (∀ element, o = .leaf element → kids = .nil) ∧ Spelled kids ∧ Spelled next

/-- The slot is an end tag. -/
def Slot.IsEnd (s : Slot) : Prop := ∃ name, s.piece = .mark (47 :: name)

/-! ### Their tokens -/

/-- No tag of an element begins with a slash or an exclamation mark. -/
theorem markupOf_mark {c : UInt8} (hc : c = 47 ∨ c = 33) (name : Bytes) : markupOf (c :: name) = .unknown := by
  have hfirst : ∀ tag : Bytes, tag.head? ≠ some 47 ∧ tag.head? ≠ some 33 → c :: name ≠ tag := by
    rintro tag htag rfl
    rcases hc with rfl | rfl
    · exact htag.1 rfl
    · exact htag.2 rfl
  unfold markupOf
  repeat rw [if_neg (hfirst _ (by simp [ascii]))]

theorem markupOf_end (name : Bytes) : markupOf (47 :: name) = .unknown := markupOf_mark (Or.inl rfl) name

theorem token_endTag (type : TagType) : (Piece.mark (endTag type)).token = .unknown := by
  unfold endTag
  split_ifs
  · exact congrArg markToken (markupOf_end (ascii "dict"))
  · exact congrArg markToken (markupOf_end (ascii "array"))

theorem Piece.IsLeaf.token {p : Piece} (h : p.IsLeaf) : ∃ label, p.token = .element label ∧ label.isKey = false := by
  cases p with
  | mark name =>
      rw [Piece.token]
      rcases h with ⟨type, htype⟩ | ⟨type, htype⟩
      · rw [htype]
        cases type <;> exact ⟨_, rfl, rfl⟩
      · rw [htype]
        exact ⟨_, rfl, rfl⟩
  | text name body =>
      rw [Piece.token]
      rcases h with htype | htype | htype | htype <;> rw [htype] <;> exact ⟨_, rfl, rfl⟩

theorem Spelling.Good.leaf {element : Slot} (h : (Spelling.leaf element).Good) :
    element.piece.token = (Spelling.leaf element).opening.token ∧
      ∃ label, (Spelling.leaf element).opening = .leaf label ∧ label.isKey = false := by
  obtain ⟨label, htoken, hkey⟩ := h.2.token
  have hopening : (Spelling.leaf element).opening = .leaf label := by
    rw [Spelling.opening, htoken]
    rfl
  exact ⟨by rw [htoken, hopening]; rfl, label, hopening, hkey⟩

theorem Spelling.Good.list {type : TagType} {start stop : Slot} (h : (Spelling.list type start stop).Good) :
    start.piece.token = .opens (listLabel type) ∧ stop.piece.token = .unknown := by
  obtain ⟨⟨-, name, hname, htype⟩, -, hstop⟩ := h
  rw [hname, hstop, token_endTag]
  exact ⟨congrArg markToken htype, rfl⟩

theorem Spelling.Good.key {element : Slot} (h : (Spelling.key element).Good) :
    element.piece.token = .key element.piece.body := by
  obtain ⟨-, body, hbody⟩ := h
  rw [hbody]
  exact congrArg (textToken body) (show markupOf (ascii "key") = .key by simp [ascii, markupOf])

/-- The slots of some elements are read as the tokens of the elements. -/
theorem slotsOf_tokens {f : Forest Spelling} (h : Spelled f) :
    (slotsOf f).map (·.piece.token) = stream (f.map Spelling.opening) := by
  induction f with
  | nil => rfl
  | cons o kids next ihk ihn =>
      obtain ⟨hgood, -, hkids, hnext⟩ := h
      cases o with
      | leaf element =>
          obtain ⟨htoken, label, hopening, -⟩ := hgood.leaf
          rw [slotsOf, Forest.map, hopening, List.map_cons, List.map_append, ihk hkids, ihn hnext, htoken, hopening]
          rfl
      | list type start stop =>
          obtain ⟨hstart, hstop⟩ := hgood.list
          rw [slotsOf, List.map_cons, List.map_append, List.map_cons, ihk hkids, ihn hnext, hstart, hstop]
          rfl
      | key element =>
          rw [slotsOf, List.map_cons, List.map_append, ihk hkids, ihn hnext, hgood.key]
          rfl

theorem slotsOf_good {f : Forest Spelling} (h : Spelled f) : ∀ s ∈ slotsOf f, s.Good := by
  induction f with
  | nil => exact fun s hs => absurd hs List.not_mem_nil
  | cons o kids next ihk ihn =>
      obtain ⟨hgood, -, hkids, hnext⟩ := h
      cases o with
      | leaf element =>
          rw [slotsOf, List.forall_mem_cons, List.forall_mem_append]
          exact ⟨hgood.1, ihk hkids, ihn hnext⟩
      | list type start stop =>
          rw [slotsOf, List.forall_mem_cons, List.forall_mem_append, List.forall_mem_cons]
          exact ⟨hgood.1.1, ihk hkids, hgood.2.1, ihn hnext⟩
      | key element =>
          rw [slotsOf, List.forall_mem_cons, List.forall_mem_append]
          exact ⟨hgood.1, ihk hkids, ihn hnext⟩

theorem Slot.IsEnd.token {s : Slot} (h : s.IsEnd) : s.piece.token = .unknown := by
  obtain ⟨name, hname⟩ := h
  rw [hname]
  exact congrArg markToken (markupOf_end name)

/-- The slots that begin no element are the end tags. -/
theorem isEnd_iff {f : Forest Spelling} (h : Spelled f) : ∀ s ∈ slotsOf f, s.IsEnd ↔ s.piece.token = .unknown := by
  have hbegins : ∀ {s : Slot} {label : Label}, s.piece.token.label? = some label →
      (s.IsEnd ↔ s.piece.token = .unknown) := by
    intro s label hlabel
    refine ⟨fun hend => hend.token, fun htoken => ?_⟩
    rw [htoken] at hlabel
    cases hlabel
  induction f with
  | nil => exact fun s hs => absurd hs List.not_mem_nil
  | cons o kids next ihk ihn =>
      obtain ⟨hgood, -, hkids, hnext⟩ := h
      cases o with
      | leaf element =>
          obtain ⟨label, htoken, -⟩ := hgood.2.token
          rw [slotsOf, List.forall_mem_cons, List.forall_mem_append]
          exact ⟨hbegins (congrArg Token.label? htoken), ihk hkids, ihn hnext⟩
      | list type start stop =>
          obtain ⟨hstart, hstop⟩ := hgood.list
          rw [slotsOf, List.forall_mem_cons, List.forall_mem_append, List.forall_mem_cons]
          refine ⟨hbegins (congrArg Token.label? hstart), ihk hkids, ⟨fun _ => hstop, fun _ => ?_⟩, ihn hnext⟩
          obtain ⟨-, -, hpiece⟩ := hgood
          rw [Slot.IsEnd, hpiece, endTag]
          split_ifs
          · exact ⟨ascii "dict", by simp [ascii]⟩
          · exact ⟨ascii "array", by simp [ascii]⟩
      | key element =>
          rw [slotsOf, List.forall_mem_cons, List.forall_mem_append]
          exact ⟨hbegins (congrArg Token.label? hgood.key), ihk hkids, ihn hnext⟩

/-- What is well formed as a tree is formed as it is written. -/
theorem formed_of_proper {f : Forest Spelling} {inDict : Bool} (h : Spelled f) (hproper : Proper inDict (contents f)) :
    Formed (f.map Spelling.opening) := by
  induction f generalizing inDict with
  | nil => trivial
  | cons o kids next ihk ihn =>
      obtain ⟨hgood, hleaf, hkids, hnext⟩ := h
      obtain ⟨-, hlabel, hpropernext⟩ := hproper
      rw [Forest.map]
      cases o with
      | leaf element =>
          obtain ⟨-, label, hopening, hkey⟩ := hgood.leaf
          rw [hopening, hleaf element rfl]
          exact ⟨⟨rfl, hkey⟩, trivial, ihn hnext hpropernext⟩
      | list type start stop =>
          have hproperkids : Proper (type = .dict) (contents kids) := by cases type <;> exact hlabel
          exact ⟨by cases type <;> rfl, ihk hkids hproperkids, ihn hnext hpropernext⟩
      | key element =>
          obtain ⟨⟨value, held, hvalue⟩, hproperkids⟩ := hlabel
          refine ⟨Or.inr ?_, ihk hkids hproperkids, ihn hnext hpropernext⟩
          cases kids with
          | nil => cases hvalue
          | cons o' kids' next' =>
              refine ⟨_, _, congrArg (Forest.cons _ _) ?_⟩
              have hnone : values (next'.map Spelling.opening) = .nil := by
                rw [Forest.map, Forest.map, Forest.cons.injEq] at hvalue
                exact hvalue.2.2
              exact Forest.map_eq_nil.1 hnone

/-! ### Documents -/

structure Document where
  header : List Slot
  root : Forest Spelling
  trailer : List Slot

namespace Document

def slots (d : Document) : List Slot := d.header ++ (slotsOf d.root ++ d.trailer)

def text (d : Document) : Bytes := slotsText d.slots

/-- Tags stand before the root dictionary and end tags or other markup behind it. -/
structure WellFormed (d : Document) : Prop where
  header : ∀ s ∈ d.header, s.Good ∧ ∃ name, s.piece = .mark name ∧ (markupOf name = .plist ∨ markupOf name = .unknown)
  spelled : Spelled d.root
  root : ∃ kids, contents d.root = .cons .dict kids .nil ∧ Proper true kids
  trailer : ∀ s ∈ d.trailer, s.Good ∧ ∃ name, s.piece = .mark name ∧ markupOf name = .unknown

variable {d : Document} {kids : Forest Label}

theorem WellFormed.good (h : d.WellFormed) : ∀ s ∈ d.slots, s.Good := by
  intro s hs
  rcases List.mem_append.1 hs with hs | hs
  · exact (h.header s hs).1
  · rcases List.mem_append.1 hs with hs | hs
    · exact slotsOf_good h.spelled s hs
    · exact (h.trailer s hs).1

/-- The root dictionary is one tag, or stands between its tags. -/
theorem WellFormed.root_cases (h : d.WellFormed) (hkids : contents d.root = .cons .dict kids .nil) :
    (∃ element, slotsOf d.root = [element] ∧ element.piece.token = .element .dict ∧ kids = .nil) ∨
      ∃ start elements stop, slotsOf d.root = start :: (slotsOf elements ++ [stop]) ∧ start.piece.token = .opens .dict ∧
        stop.piece.token = .unknown ∧ Spelled elements ∧ contents elements = kids := by
  have hspelled := h.spelled
  generalize d.root = root at hkids hspelled
  cases root with
  | nil => cases hkids
  | cons o elements next =>
      obtain ⟨hgood, hleaf, helements, -⟩ := hspelled
      have hnext : next = .nil := by
        rw [contents, values, Forest.map, Forest.map, Forest.cons.injEq] at hkids
        exact Forest.map_eq_nil.1 (Forest.map_eq_nil.1 hkids.2.2)
      have hlabel : o.opening.label = .dict := by
        rw [contents, values, Forest.map, Forest.map, Forest.cons.injEq] at hkids
        exact hkids.1
      have hcontents : contents elements = kids := by
        rw [contents, values, Forest.map, Forest.map, Forest.cons.injEq] at hkids
        exact hkids.2.1
      subst hnext
      cases o with
      | leaf element =>
          obtain ⟨htoken, label, hopening, -⟩ := hgood.leaf
          rw [hopening] at htoken hlabel
          rw [hleaf element rfl] at hcontents ⊢
          have hdict : label = .dict := hlabel
          exact Or.inl ⟨element, rfl, hdict ▸ htoken, hcontents.symm⟩
      | list type start stop =>
          obtain ⟨hstart, hstop⟩ := hgood.list
          have hdict : listLabel type = .dict := hlabel
          exact Or.inr ⟨start, elements, stop, rfl, hdict ▸ hstart, hstop, helements, hcontents⟩
      | key element => cases hlabel

end Document

/-! ### Reading a document -/

theorem parseText_slots (env : Env) {slots : List Slot} (h : ∀ s ∈ slots, s.Good) :
    parseText env (slotsText slots) = (Machine.running (.top false)).run (slots.map (·.piece.token)) := by
  have htokens := tokens_slots env (slotsText slots).length unmarked_nil h []
  rw [List.append_nil, List.nil_append, List.append_nil,
    tokens_of_unmarked env _ (unmarked_lastBlanks unmarked_nil h), List.append_nil] at htokens
  rw [parseText, htokens]

/-- Markup at top level is passed by. -/
theorem run_header {toks : List Token} (h : ∀ tok ∈ toks, tok = .plist ∨ tok = .unknown) :
    (Machine.running (.top false)).run toks = .running (.top false) := by
  induction toks with
  | nil => rfl
  | cons tok toks ih =>
      rw [List.forall_mem_cons] at h
      rw [Machine.run_cons]
      rcases h.1 with rfl | rfl <;> exact ih h.2

/-- The elements of a dictionary that is open, up to its end tag. -/
theorem run_elements {f : Forest Spelling} (h : Spelled f) (hproper : Proper true (contents f)) :
    (Machine.running (.list .dict .nil (.top false))).run (stream (f.map Spelling.opening) ++ [.unknown]) =
      .finished (contents f) := by
  have hrooted : (Stack.list .dict .nil (.top false)).Rooted := Stack.Rooted.list.2 rfl
  have hspec := (stream_spec _ (formed_of_proper h hproper)).1 .dict .nil (.top false) hrooted
  rw [show gaps (values (f.map Spelling.opening)) = some false from (built_of_proper hproper).2] at hspec
  rw [Machine.run_append, show (Machine.running _).run (stream (f.map Spelling.opening)) = _ from hspec]
  rfl

theorem stream_tokens (f : Forest Opening) : ∀ tok ∈ stream f, tok = .unknown ∨ tok.label?.isSome := by
  induction f with
  | nil => exact fun tok h => absurd h List.not_mem_nil
  | cons o kids next ihk ihn =>
      cases o with
      | leaf label =>
          rw [stream, List.forall_mem_cons, List.forall_mem_append]
          · exact ⟨Or.inr rfl, ihk, ihn⟩
          · intro _ h
            cases h
      | list label =>
          rw [stream, List.forall_mem_cons, List.forall_mem_append, List.forall_mem_cons]
          exact ⟨Or.inr rfl, ihk, Or.inl rfl, ihn⟩
      | key datval =>
          rw [stream, List.forall_mem_cons, List.forall_mem_append]
          · exact ⟨Or.inr rfl, ihk, ihn⟩
          · intro _ h
            cases h

/-- With every allocation granted a call returns the tree of what the machine delivers. -/
theorem plXmlToNode_result {env : Env} (hample : env.Ample) {s : Parser} (hs : s.Idle) {image : Nat → UInt8} {text : Bytes}
    (himage : Image image text) (hlen : text.length + 1 < 2 ^ 32) (hstuck : parseText env text ≠ .stuck) :
    (plXmlToNode env image text.length s).result = .ok (parseText env text).tree := by
  have hcopy : plXmlToNode env image text.length = plXmlToNodeCopy env (text ++ [0]) (text.length + 1) := by
    rw [plXmlToNode, copyOf_eq hlen himage.nul, himage.textOf_eq, addU32, Nat.mod_eq_of_lt hlen]
  rw [hcopy]
  have hspec : Runs (env.Ample → parseText env text = .stuck) _ s _ := plXmlToNodeCopy_spec hlen hs
  rcases hspec with ⟨-, hr⟩ | ⟨-, hblame⟩
  · rcases hresult : (plXmlToNodeCopy env (text ++ [0]) (text.length + 1) s).result with e | r
    · rw [hresult] at hr
      exact hr.elim
    · rw [hresult] at hr
      rw [hr hample]
  · exact absurd (hblame hample) hstuck

/-- What grows to a tree holds no date. -/
theorem dateless_of_growForest {f : Forest Label} (h : Shaped f) {pn t : Node} (hgrow : growForest f pn = some t) :
    ∀ label ∈ f.labels, label.isDate = false := by
  induction f generalizing pn t with
  | nil => exact fun label hlabel => absurd hlabel List.not_mem_nil
  | cons label kids next ihk ihn =>
      obtain ⟨hbag, hkids, hnext⟩ := h
      rw [growForest_cons, Option.bind_eq_some_iff] at hgrow
      obtain ⟨pn', hadd, hgrow⟩ := hgrow
      obtain ⟨wn, hvalue, -⟩ := Option.bind_eq_some_iff.1 hadd
      rw [growValue] at hvalue
      rw [Forest.labels, List.forall_mem_cons, List.forall_mem_append]
      by_cases hdate : label.isDate
      · rw [if_pos hdate] at hvalue
        cases hvalue
      · refine ⟨Bool.eq_false_iff.2 hdate, ?_, ihn hnext hgrow⟩
        rw [if_neg hdate] at hvalue
        by_cases hlabel : label.isBag
        · rw [if_pos hlabel] at hvalue
          exact ihk hkids hvalue
        · rw [hbag.resolve_left hlabel]
          exact fun l hl => absurd hl List.not_mem_nil

theorem shaped_of_proper {f : Forest Label} {inDict : Bool} (h : Proper inDict f) : Shaped f := by
  induction f generalizing inDict with
  | nil => trivial
  | cons label kids next ihk ihn =>
      obtain ⟨-, hlabel, hnext⟩ := h
      have hnil : kids = .nil → (label.isBag ∨ kids = .nil) ∧ Shaped kids := by
        rintro rfl
        exact ⟨Or.inr rfl, trivial⟩
      rw [Shaped, ← and_assoc]
      refine ⟨?_, ihn hnext⟩
      cases label with
      | dict => exact ⟨Or.inl rfl, ihk hlabel⟩
      | array => exact ⟨Or.inl rfl, ihk hlabel⟩
      | key datval => exact ⟨Or.inl rfl, ihk hlabel.2⟩
      | bool | data | date | integer | string => exact hnil hlabel

/-- The elements of a dictionary grow to its tree, unless there is a date among them. -/
theorem growForest_eq {kids : Forest Label} (hproper : Proper true kids) :
    growForest kids (.leaf .dict) =
      if ∀ label ∈ kids.labels, label.isDate = false then some ⟨.dict, kids⟩ else none := by
  split_ifs with hdate
  · exact growForest_of_addAll (built_of_proper hproper).1 hdate (plNodeAddAll_of_proper.1 hproper)
  · cases hgrow : growForest kids (.leaf .dict) with
    | none => rfl
    | some t => exact absurd (dateless_of_growForest (shaped_of_proper hproper) hgrow) hdate

namespace Document

variable {d : Document} {kids : Forest Label}

theorem WellFormed.header_tokens (h : d.WellFormed) :
    ∀ tok ∈ d.header.map (·.piece.token), tok = .plist ∨ tok = .unknown := by
  rw [List.forall_mem_map]
  intro s hs
  obtain ⟨-, name, hname, hmarkup⟩ := h.header s hs
  rw [hname]
  exact hmarkup.imp (congrArg markToken) (congrArg markToken)

theorem WellFormed.trailer_tokens (h : d.WellFormed) : ∀ tok ∈ d.trailer.map (·.piece.token), tok = .unknown := by
  rw [List.forall_mem_map]
  intro s hs
  obtain ⟨-, name, hname, hmarkup⟩ := h.trailer s hs
  rw [hname]
  exact congrArg markToken hmarkup

theorem WellFormed.tokens (h : d.WellFormed) : ∀ tok ∈ (slotsOf d.root ++ d.trailer).map (·.piece.token),
    tok = .unknown ∨ tok.label?.isSome := by
  rw [List.map_append, slotsOf_tokens h.spelled, List.forall_mem_append]
  exact ⟨stream_tokens _, fun tok htok => Or.inl (h.trailer_tokens tok htok)⟩

/-- The root dictionary is what the parser finishes with. -/
theorem WellFormed.parseText_eq (h : d.WellFormed) (env : Env) (hkids : contents d.root = .cons .dict kids .nil)
    (hproper : Proper true kids) : parseText env d.text = .finished kids := by
  rw [Document.text, parseText_slots env h.good, Document.slots, List.map_append, Machine.run_append,
    run_header h.header_tokens, List.map_append, Machine.run_append]
  rcases h.root_cases hkids with ⟨element, hslots, htoken, rfl⟩ | ⟨start, elements, stop, hslots, hstart, hstop, hspelled, rfl⟩
  · rw [hslots, List.map_cons, List.map_nil, htoken]
    exact Machine.run_finished .nil _
  · rw [hslots, List.map_cons, List.map_append, List.map_cons, List.map_nil, hstart, hstop, slotsOf_tokens hspelled,
      Machine.run_cons]
    show ((Machine.running (.list .dict .nil (.top false))).run _).run _ = _
    rw [run_elements hspelled hproper, Machine.run_finished]

theorem WellFormed.result {env : Env} (h : d.WellFormed) (hkids : contents d.root = .cons .dict kids .nil)
    (hproper : Proper true kids) (hlen : d.text.length + 1 < 2 ^ 32) {image : Nat → UInt8} (himage : Image image d.text)
    (hample : env.Ample) {s : Parser} (hs : s.Idle) :
    (plXmlToNode env image d.text.length s).result = .ok (Machine.finished kids).tree := by
  have hfinished := h.parseText_eq env hkids hproper
  have hstuck : parseText env d.text ≠ .stuck := by
    rw [hfinished]
    intro hm
    cases hm
  rw [plXmlToNode_result hample hs himage hlen hstuck, hfinished]

/-- The root dictionary grows to a tree, unless there is a date in it. -/
theorem tree_of_root (hkids : contents d.root = .cons .dict kids .nil) (hproper : Proper true kids) :
    (Machine.finished kids).tree =
      if ∀ label ∈ (contents d.root).labels, label.isDate = false then some ⟨.dict, kids⟩ else none := by
  have hdates : (∀ label ∈ (contents d.root).labels, label.isDate = false) ↔
      ∀ label ∈ kids.labels, label.isDate = false := by
    rw [hkids, Forest.labels, Forest.labels, List.append_nil, List.forall_mem_cons]
    exact and_iff_right rfl
  rw [Machine.tree, growForest_eq hproper]
  simp only [hdates]

end Document

/-! ### Elements without blanks around them -/

def bare (piece : Piece) : Slot := ⟨[], piece, []⟩

def bareDict : Spelling := .list .dict (bare (.mark (ascii "dict"))) (bare (.mark (ascii "/dict")))

def bareArray : Spelling := .list .array (bare (.mark (ascii "array"))) (bare (.mark (ascii "/array")))

def bareKey (body : Bytes) : Spelling := .key (bare (.text (ascii "key") body))

def bareTrue : Spelling := .leaf (bare (.mark (ascii "true/")))

theorem bare_good {piece : Piece} (h : piece.Good) : (bare piece).Good := ⟨unmarked_nil, h, unmarked_nil⟩

theorem bareDict_good : bareDict.Good := by
  refine ⟨⟨bare_good ⟨?_, ?_⟩, _, rfl, ?_⟩, bare_good ⟨?_, ?_⟩, rfl⟩ <;> simp [ascii, markupOf, endName]

theorem bareArray_good : bareArray.Good := by
  refine ⟨⟨bare_good ⟨?_, ?_⟩, _, rfl, ?_⟩, bare_good ⟨?_, ?_⟩, rfl⟩ <;> simp [ascii, markupOf, endName]

theorem bareKey_good {body : Bytes} (h : Unmarked body) : (bareKey body).Good := by
  refine ⟨bare_good ⟨by simp [ascii], by simp [ascii, markupOf, endName], h, fun hdata => ?_⟩, body, rfl⟩
  exact absurd hdata (by simp [ascii, markupOf])

theorem bareTrue_good : bareTrue.Good := by
  refine ⟨bare_good ⟨by simp [ascii], by simp [ascii, markupOf, endName]⟩, Or.inr ⟨.true, ?_⟩⟩
  simp [ascii, markupOf]

section Spelled
variable {kids next : Forest Spelling}

theorem Spelled.list {type : TagType} {start stop : Slot} (h : (Spelling.list type start stop).Good) (hkids : Spelled kids)
    (hnext : Spelled next) : Spelled (.cons (.list type start stop) kids next) := by
  refine ⟨h, fun element ho => ?_, hkids, hnext⟩
  cases ho

theorem Spelled.key {element : Slot} (h : (Spelling.key element).Good) (hkids : Spelled kids) (hnext : Spelled next) :
    Spelled (.cons (.key element) kids next) := by
  refine ⟨h, fun element ho => ?_, hkids, hnext⟩
  cases ho

theorem Spelled.leaf {element : Slot} (h : (Spelling.leaf element).Good) (hnext : Spelled next) :
    Spelled (.cons (.leaf element) .nil next) :=
  ⟨h, fun _ _ => rfl, trivial, hnext⟩

end Spelled

end BareBoot.Plist
