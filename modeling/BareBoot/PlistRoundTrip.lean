import BareBoot.PlistReprint
import BareBoot.PlistSoundness

/-! Printing a tree and parsing what was printed. The parser returns the tree again exactly when every
text comes through, no key lacks its value before the end of the document, and the output leaves room
for its `NUL` in 32 bits. -/

namespace BareBoot.Plist

open Exec

/-! ### The machine on a printed text -/

def headerSlot (name : Bytes) : Slot := ⟨[], .mark name, newline⟩

/-- The declaration, the document type and the start tag of the whole. -/
def headerSlots : List Slot :=
  [headerSlot (ascii "?xml version=\"1.0\" encoding=\"UTF-8\"?"),
    headerSlot
      (ascii "!DOCTYPE plist PUBLIC \"-//Apple//DTD PLIST 1.0//EN\" \"http://www.apple.com/DTDs/PropertyList-1.0.dtd\""),
    headerSlot (ascii "plist version=\"1.0\"")]

def trailerSlot : Slot := headerSlot (ascii "/plist")

theorem headerSlots_text : slotsText headerSlots = plXmlHdr1 ++ (plXmlHdr2 ++ plXmlHdr3) := by decide +kernel

theorem trailerSlot_text : trailerSlot.bytes = plXmlTlr1 := by decide +kernel

theorem headerSlots_good : ∀ s ∈ headerSlots, s.Good := by
  have hname : ∀ s ∈ headerSlots, ∃ name, s = headerSlot name ∧ (∀ c ∈ name, c ≠ 0 ∧ c ≠ 62) ∧
      endName (markupOf name) = [] := by
    intro s hs
    simp only [headerSlots, List.mem_cons, List.not_mem_nil, or_false] at hs
    rcases hs with rfl | rfl | rfl <;> refine ⟨_, rfl, ?_, ?_⟩ <;> decide +kernel
  intro s hs
  obtain ⟨name, rfl, hclean, hend⟩ := hname s hs
  exact ⟨unmarked_nil, ⟨hclean, hend⟩, unmarked_newline⟩

theorem headerSlots_token : headerSlots.map (·.piece.token) = [.unknown, .unknown, .unknown] := by decide +kernel

theorem trailerSlot_yields : trailerSlot.Yields .unknown :=
  ⟨⟨unmarked_nil, ⟨by decide +kernel, by decide +kernel⟩, unmarked_newline⟩, by decide +kernel⟩

theorem forall_good_of_yields {slots : List Slot} {toks : List Token} (h : List.Forall₂ Slot.Yields slots toks) :
    (∀ s ∈ slots, s.Good) ∧ slots.map (·.piece.token) = toks := by
  induction h with
  | nil => exact ⟨by simp, rfl⟩
  | cons hfirst _ ih =>
      obtain ⟨hgood, htok⟩ := hfirst
      refine ⟨?_, ?_⟩
      · intro s hs
        rcases List.mem_cons.1 hs with rfl | hs
        · exact hgood
        · exact ih.1 s hs
      · rw [List.map_cons, ih.2, htok]

theorem tokens_of_unmarked (env : Env) (total : Nat) {blanks : Bytes} (h : Unmarked blanks) :
    tokens env total blanks = [] := by
  have hcut : cut 60 blanks = none := cut_eq_none fun h60 => (h 60 h60).2 rfl
  exact tokens_of_none (by rw [nextToken, nextTag, hcut]; rfl)

theorem tokens_of_yields (env : Env) (total : Nat) {blanks : Bytes} (hb : Unmarked blanks) {slots : List Slot}
    {toks : List Token} (h : List.Forall₂ Slot.Yields slots toks) (rest : Bytes) :
    ∃ blanks', Unmarked blanks' ∧
      tokens env total (blanks ++ (slotsText slots ++ rest)) = toks ++ tokens env total (blanks' ++ rest) := by
  obtain ⟨hgood, htoks⟩ := forall_good_of_yields h
  refine ⟨lastBlanks blanks slots, unmarked_lastBlanks hb hgood, ?_⟩
  rw [tokens_slots env total hb hgood rest, htoks]

/-- Tokens that go wrong where an element of the tree begins do not make the tree. -/
theorem ne_of_misread {stack : Stack} (h : stack.Rooted) {f : Forest Label} (toks₁ toks₂ : List Token)
    {wrong : List Token} {tok : Token} (htok : tok.label?.isSome)
    (hlabels : (Machine.finished f).trail.map Prod.snd =
      stack.trail.map Prod.snd ++ (toks₁ ++ tok :: toks₂).filterMap Token.label?)
    (hwrong : Misread tok wrong) : (Machine.running stack).run (toks₁ ++ wrong) ≠ .finished f := by
  intro hrun
  obtain ⟨label, hlabel⟩ := Option.isSome_iff_exists.1 htok
  have hsplit : (toks₁ ++ tok :: toks₂).filterMap Token.label? =
      toks₁.filterMap Token.label? ++ label :: toks₂.filterMap Token.label? := by
    rw [List.filterMap_append, List.filterMap_cons, hlabel]
  rw [hsplit, ← List.append_assoc] at hlabels
  -- Without another element the run has seen too few of them.
  have hshort : (Machine.running stack).run toks₁ ≠ .finished f := by
    intro hfinished
    have hpre := labels_prefix_of_run (m := .running stack) h hfinished
    rw [hlabels] at hpre
    have hlen := hpre.length_le
    simp only [Machine.trail, List.length_append, List.length_cons] at hlen
    omega
  rcases hwrong with rfl | ⟨more, rfl⟩ | ⟨tok', more, label', rfl, hlabel', hne⟩
  · rw [List.append_nil] at hrun
    exact hshort hrun
  · rw [Machine.run_append, Machine.run_cons] at hrun
    rcases hm : (Machine.running stack).run toks₁ with stack' | f' | _ <;> rw [hm] at hrun
    · have hstuck : (Machine.running stack').step .bad = .stuck := rfl
      rw [hstuck, Machine.run_stuck] at hrun
      cases hrun
    · have hstep : (Machine.finished f').step .bad = .finished f' := rfl
      rw [hstep, Machine.run_finished] at hrun
      exact hshort (hm.trans hrun)
    · have hstep : Machine.stuck.step .bad = .stuck := rfl
      rw [hstep, Machine.run_stuck] at hrun
      cases hrun
  · have hpre := labels_prefix_of_run (m := .running stack) h hrun
    rw [hlabels, List.filterMap_append, List.filterMap_cons, hlabel'] at hpre
    simp only [Machine.trail] at hpre
    rw [← List.append_assoc] at hpre
    refine hne ?_
    rw [hlabel]
    have hsame := (List.prefix_append_right_inj _).1 hpre
    rw [List.cons_prefix_cons] at hsame
    rw [hsame.1]

/-- Every text of the tree comes through, and a key without a value is at most its last element. -/
def Clean (t : Node) : Prop := (∀ label ∈ t.kids.labels, label.Faithful) ∧ gaps t.kids ≠ none

/-- The tree is a dictionary the API can build, without dates and without `NUL` in a text. -/
structure Printable (t : Node) : Prop where
  root : t.label = .dict
  built : Built (.single t)
  textual : ∀ label ∈ t.kids.labels, label.Textual

theorem Printable.built_kids {t : Node} (h : Printable t) : Built t.kids := h.built.2.1

/-- The written tree has the shape of the tree. -/
theorem formed_written {f : Forest Label} (h : Formed (openings f)) : Formed (openings (f.map Label.written)) := by
  have hnil : ∀ g : Forest Label, openings g = .nil → openings (g.map Label.written) = .nil := by
    intro g hg
    rw [openings_eq_nil.1 hg]
    rfl
  induction f with
  | nil => trivial
  | cons label kids next ihk ihn =>
      obtain ⟨hlabel, hkids, hnext⟩ := h
      refine ⟨?_, ihk hkids, ihn hnext⟩
      cases label with
      | dict | array =>
          simp only [Label.written, opening] at hlabel ⊢
          by_cases hk : kids.map Label.written = .nil
          · rw [if_pos hk]
            exact ⟨openings_eq_nil.2 hk, rfl⟩
          · rw [if_neg hk]
            rfl
      | key datval =>
          rcases hlabel with hk | ⟨o, kids', hk⟩
          · exact Or.inl (hnil _ hk)
          · refine Or.inr ?_
            cases kids with
            | nil => cases hk
            | cons label' kids'' next' =>
                simp only [openings, Forest.cons.injEq] at hk
                exact ⟨_, _, congrArg (Forest.cons _ _) (hnil _ hk.2.2)⟩
      | bool | data | date | integer | string => exact ⟨hnil _ hlabel.1, rfl⟩

theorem render_slots {t : Node} (h : Printable t) :
    render (Node.written t) = slotsText headerSlots ++
      (slotsText (bagSlots (ascii "dict") (t.kids.map Label.written)
        (forestSlots (t.kids.map Label.written) 2) 1) ++ trailerSlot.bytes) := by
  have hkids := itemTexts_slots (formed_written (formed_openings h.built_kids)) 2
  have hbag := bagText_slots (ascii "dict") 1 hkids
  have hroot : (Node.written t).label = .dict := by
    rw [Node.written, h.root]
    rfl
  rw [render, hroot, headerSlots_text, trailerSlot_text]
  show plXmlHdr1 ++ (plXmlHdr2 ++ (plXmlHdr3 ++ (bagText (ascii "dict") (itemTexts (t.kids.map Label.written)) 1 ++ _))) = _
  rw [hbag]
  simp only [List.append_assoc]

/-- The headers are markup at top level, which the machine passes by. -/
theorem parseText_headers (env : Env) (rest : Bytes) :
    ∃ blanks, Unmarked blanks ∧ ∀ total, (Machine.running (.top false)).run
        (tokens env total (slotsText headerSlots ++ rest)) =
      (Machine.running (.top false)).run (tokens env total (blanks ++ rest)) := by
  refine ⟨lastBlanks [] headerSlots, unmarked_lastBlanks unmarked_nil headerSlots_good, fun total => ?_⟩
  have htokens := tokens_slots env total unmarked_nil headerSlots_good rest
  rw [List.nil_append, headerSlots_token] at htokens
  rw [htokens]
  rfl

theorem parseText_written (env : Env) {t : Node} (h : Printable t) :
    parseText env (render (Node.written t)) = .finished t.kids ↔ Clean t := by
  have hformed := formed_openings h.built_kids
  obtain ⟨blanks, hblanks, hheaders⟩ := parseText_headers env
    (slotsText (bagSlots (ascii "dict") (t.kids.map Label.written) (forestSlots (t.kids.map Label.written) 2) 1) ++
      trailerSlot.bytes)
  rw [parseText, render_slots h, hheaders]
  generalize (_ : Bytes).length = total
  by_cases hnil : t.kids = .nil
  · -- The empty dictionary is one tag.
    have hslot : (markSlot (ascii "dict" ++ ascii "/") 1).Yields (.element .dict) :=
      ⟨markSlot_good (by decide +kernel) (by decide +kernel) 1, by decide +kernel⟩
    obtain ⟨blanks', -, htokens⟩ := tokens_of_yields env total hblanks (.cons hslot .nil) trailerSlot.bytes
    have hclean : Clean t := by
      rw [Clean, hnil]
      exact ⟨fun l hl => absurd hl List.not_mem_nil, by simp [gaps]⟩
    refine ⟨fun _ => hclean, fun _ => ?_⟩
    rw [bagSlots, if_pos (Forest.map_eq_nil.2 hnil), htokens, hnil]
    exact Machine.run_finished .nil _
  · have hopen : (markSlot (ascii "dict") 1).Yields (.opens .dict) :=
      ⟨markSlot_good (by decide +kernel) (by decide +kernel) 1, by decide +kernel⟩
    have hclose : (markSlot (47 :: ascii "dict") 1).Yields .unknown :=
      ⟨markSlot_good (by decide +kernel) (by decide +kernel) 1, by decide +kernel⟩
    have hends : ReadAs [markSlot (47 :: ascii "dict") 1, trailerSlot] [.unknown, .unknown] True :=
      ⟨fun _ => .cons hclose (.cons trailerSlot_yields .nil), fun h => absurd trivial h⟩
    have hread := (readAs_forest hformed h.textual 2).append hends
    have htext : slotsText (bagSlots (ascii "dict") (t.kids.map Label.written)
        (forestSlots (t.kids.map Label.written) 2) 1) ++ trailerSlot.bytes =
        slotsText [markSlot (ascii "dict") 1] ++ (slotsText (forestSlots (t.kids.map Label.written) 2 ++
          [markSlot (47 :: ascii "dict") 1, trailerSlot]) ++ []) := by
      rw [bagSlots, if_neg fun h => hnil (Forest.map_eq_nil.1 h)]
      simp
    obtain ⟨blanks', hblanks', hroot⟩ := tokens_of_yields env total hblanks (.cons hopen .nil : List.Forall₂ _ [_] [_])
      (slotsText (forestSlots (t.kids.map Label.written) 2 ++ [markSlot (47 :: ascii "dict") 1, trailerSlot]) ++ [])
    rw [htext, hroot, List.singleton_append, Machine.run_cons]
    show (Machine.running (.list .dict .nil (.top false))).run _ = _ ↔ _
    have hrooted : (Stack.list .dict .nil (.top false)).Rooted := Stack.Rooted.list.2 rfl
    have hstart : (Stack.list .dict .nil (.top false)).trail = [(0, .dict)] := rfl
    by_cases hfaithful : ∀ label ∈ t.kids.labels, label.Faithful
    · obtain ⟨blanks'', hblanks'', htokens⟩ := tokens_of_yields env total hblanks' (hread.1 ⟨hfaithful, trivial⟩) []
      rw [htokens, List.append_nil, tokens_of_unmarked env total hblanks'', List.append_nil, Machine.run_append]
      have hspec := (stream_spec (openings t.kids) hformed).1 .dict .nil (.top false) hrooted
      rw [values_openings] at hspec
      rw [Clean, and_iff_right hfaithful]
      rcases hg : gaps t.kids with _ | _ | _ <;> rw [hg] at hspec
      · refine ⟨fun hrun => ?_, fun h => absurd rfl h⟩
        rw [← Machine.run_append] at hrun
        exact absurd (List.prefix_refl _) (hspec _ _ hrun)
      · refine ⟨fun _ => by simp, fun _ => ?_⟩
        rw [show (Machine.running (.list .dict .nil (.top false))).run (stream (openings t.kids)) = _ from hspec]
        rfl
      · obtain ⟨stack', hrun, -, hdone, -, -⟩ := hspec
        refine ⟨fun _ => by simp, fun _ => ?_⟩
        rw [hrun, Machine.run_cons]
        show (deliver none stack').run _ = _
        rw [hdone]
        rfl
    · obtain ⟨slots₁, s, slots₂, toks₁, tok, toks₂, hslots, htoks, hyields, hlabel, hspoils⟩ :=
        hread.2 fun h => hfaithful h.1
      refine ⟨fun hrun => ?_, fun h => absurd h.1 hfaithful⟩
      have hsplit : slotsText (forestSlots (t.kids.map Label.written) 2 ++
          [markSlot (47 :: ascii "dict") 1, trailerSlot]) ++ [] =
          slotsText slots₁ ++ (s.bytes ++ slotsText slots₂) := by
        rw [hslots]
        simp
      obtain ⟨blanks'', hblanks'', htokens⟩ := tokens_of_yields env total hblanks' hyields (s.bytes ++ slotsText slots₂)
      rw [hsplit, htokens] at hrun
      refine absurd hrun (ne_of_misread hrooted toks₁ toks₂ hlabel ?_ (hspoils env total _ _ hblanks''))
      have hall := congrArg (List.filterMap Token.label?) htoks
      rw [List.filterMap_append, filterMap_stream, values_openings] at hall
      rw [← hall, hstart]
      simp [Machine.trail, depths_map_snd, Token.label?]

/-! ### What a successful run has printed -/

theorem fails_node (env : Env) {label : Label} {kids : Forest Label} {items : List (Nat → WriterM Unit)}
    (hbuilt : ∃ bag, plNodeAddAll (.leaf label) kids = some bag) (hitems : items = itemWriters env kids)
    (h : ¬label.Encodes ∨ ∃ item ∈ items, ∀ indent, Fails (item indent)) (indent : Nat) :
    Fails (plNode2Xml env label items indent) := by
  obtain ⟨bag, hbag⟩ := hbuilt
  have hleaf : label.isBag = false → items = [] := by
    intro hlabel
    rw [hitems, nil_of_plNodeAddAll hlabel hbag]
    rfl
  have hheld : (∀ datval, label ≠ .data datval) → ∃ item ∈ items, ∀ indent, Fails (item indent) := by
    intro hdata
    rcases h with h | h
    · exact absurd (fun datval hd => absurd hd (hdata datval)) h
    · exact h
  have hnone : label.isBag = false → (∀ datval, label ≠ .data datval) → Fails (plNode2Xml env label items indent) := by
    intro hlabel hdata
    obtain ⟨item, hitem, -⟩ := hheld hdata
    rw [hleaf hlabel] at hitem
    cases hitem
  cases label with
  | dict => exact fails_bag _ _ (hheld fun d hd => by cases hd)
  | array => exact fails_bag _ _ (hheld fun d hd => by cases hd)
  | key datval =>
      obtain ⟨item, hmem, hfails⟩ := hheld fun d hd => by cases hd
      refine Fails.bind_right fun _ => ?_
      rcases single_of_plNodeAddAll hbag with rfl | ⟨label, kids', rfl⟩
      · rw [hitems] at hmem
        cases hmem
      · rw [hitems] at hmem ⊢
        rw [List.mem_singleton.1 hmem] at hfails
        exact hfails (indent + 1)
  | data datval =>
      have hwide : 2 ^ 31 ≤ datval.length := by
        rcases h with h | ⟨item, hitem, -⟩
        · by_contra hlt
          refine h fun d hd => ?_
          cases hd
          omega
        · rw [hleaf rfl] at hitem
          cases hitem
      exact Fails.bind_right fun _ => (fails_code env hwide).bind_left _
  | string => exact hnone rfl fun d hd => by cases hd
  | bool => exact hnone rfl fun d hd => by cases hd
  | integer => exact hnone rfl fun d hd => by cases hd
  | date => exact hnone rfl fun d hd => by cases hd

theorem fails_forest (env : Env) {f : Forest Label} (hbuilt : Built f) (h : ∃ label ∈ f.labels, ¬label.Encodes) :
    ∃ item ∈ itemWriters env f, ∀ indent, Fails (item indent) := by
  induction f with
  | nil =>
      obtain ⟨label, hlabel, -⟩ := h
      cases hlabel
  | cons label kids next ihk ihn =>
      obtain ⟨hbag, hkids, hnext⟩ := hbuilt
      obtain ⟨l, hl, hwide⟩ := h
      simp only [Forest.labels, List.mem_cons, List.mem_append] at hl
      rcases hl with rfl | hl | hl
      · exact ⟨_, List.mem_cons_self, fails_node env hbag rfl (Or.inl hwide)⟩
      · exact ⟨_, List.mem_cons_self, fails_node env hbag rfl (Or.inr (ihk hkids ⟨l, hl, hwide⟩))⟩
      · obtain ⟨item, hitem, hfails⟩ := ihn hnext ⟨l, hl, hwide⟩
        exact ⟨item, List.mem_cons_of_mem _ hitem, hfails⟩

/-- What a run of the writer has put behind what was in the buffer. -/
def PlBuf.output (before after : PlBuf) : Bytes := (after.dat.drop before.pos).take (after.pos - before.pos)

theorem PlBuf.Valid.output_put {b : PlBuf} (h : b.Valid) {text : Bytes} (hroom : text.length ≤ b.room) :
    b.output (b.put text) = text := by
  have hpos := h.pos_put hroom
  have h1 := h.pos_le
  have h2 := h.len_le
  rw [PlBuf.output, hpos, Nat.add_sub_cancel_left]
  have hdat : (b.put text).dat = b.dat.take b.pos ++ (text ++ b.dat.drop (b.pos + text.length)) := by
    show overwrite b.dat b.pos text = _
    rw [overwrite, List.append_assoc]
  have htake : (b.dat.take b.pos).length = b.pos := by
    rw [List.length_take]
    omega
  rw [hdat, List.drop_append, List.drop_eq_nil_of_le (by omega), List.nil_append, htake, Nat.sub_self,
    List.drop_zero, List.take_left]

/-- The counts of a node are `unsigned int`. -/
def Counted (t : Node) : Prop := ∀ label ∈ Node.labels t, label.size < 2 ^ 32

theorem output_of_ok {env : Env} (henv : ∀ n, env.alloc n = true) {t : Node} (ht : Printable t) (hsize : Counted t)
    {b : Writer} (hb : b.toPlBuf.Valid) (hok : (plNodeToXml env t b).result = .ok ()) :
    b.output (plNodeToXml env t b).state.toPlBuf = render (Node.written t) ∧
      (render (Node.written t)).length < 2 ^ 32 := by
  have hencodes : ∀ label ∈ Node.labels t, label.Encodes := by
    by_contra hnot
    push Not at hnot
    obtain ⟨label, hlabel, hwide⟩ := hnot
    have hfails : Fails (plNodeToXml env t) := by
      refine Fails.bind_right fun _ => Fails.bind_right fun _ => Fails.bind_right fun _ => Fails.bind_left ?_ _
      refine fails_node env ht.built.1 rfl ?_ 1
      rcases List.mem_cons.1 hlabel with rfl | hlabel
      · exact Or.inl hwide
      · exact Or.inr (fails_forest env ht.built_kids ⟨label, hlabel, hwide⟩)
    exact hfails b () hok
  obtain ⟨hfits, hfull⟩ := plNodeToXml_writes henv (fun label h => ⟨hsize label h, hencodes label h⟩) b hb
  by_cases hroom : (render (Node.written t)).length ≤ b.room
  · rw [(hfits hroom).2]
    have hlen := hb.len_lt
    rw [PlBuf.room] at hroom
    exact ⟨hb.output_put hroom, by omega⟩
  · have hrefused := (hfull (Nat.lt_of_not_le hroom)).1
    rw [hok] at hrefused
    cases hrefused

/-! ### Parsing it again -/

/-- The call returns the tree, and has not left the behaviour C defines. -/
def Reparses (env : Env) (s : Parser) (image : Nat → UInt8) (len : Nat) (t : Node) : Prop :=
  (plXmlToNode env image len s).result = .ok (some t) ∧ ∀ e ∈ (plXmlToNode env image len s).events, e.Granted

/-- The image holds a text and a `NUL` behind it. -/
structure Image (image : Nat → UInt8) (text : Bytes) : Prop where
  bytes : ∀ i, ∀ h : i < text.length, image i = text.get ⟨i, h⟩
  nul : image text.length = 0

theorem Image.textOf_eq {image : Nat → UInt8} {text : Bytes} (h : Image image text) :
    textOf image text.length = text := by
  apply List.ext_getElem
  · rw [length_textOf]
  · intro i _ hi
    simp only [textOf, List.getElem_map, List.getElem_range]
    exact h.bytes i hi

theorem reparses_iff_tree {env : Env} (hample : env.Ample) {s : Parser} (hs : s.Idle) {image : Nat → UInt8}
    {text : Bytes} (himage : Image image text) (hlen : text.length < 2 ^ 32) {t : Node} :
    Reparses env s image text.length t ↔ (parseText env text).tree = some t ∧ text.length + 1 < 2 ^ 32 := by
  by_cases hmax : text.length + 1 < 2 ^ 32
  · have hcopy : plXmlToNode env image text.length = plXmlToNodeCopy env (text ++ [0]) (text.length + 1) := by
      rw [plXmlToNode, copyOf_eq hmax himage.nul, himage.textOf_eq, addU32, Nat.mod_eq_of_lt hmax]
    have hspec : Runs (env.Ample → parseText env text = .stuck) _ s _ := plXmlToNodeCopy_spec hmax hs
    rw [Reparses, hcopy]
    constructor
    · rintro ⟨hresult, hgranted⟩
      rcases hspec with ⟨-, hr⟩ | ⟨⟨e, he, hnot⟩, -⟩
      · rw [hresult] at hr
        exact ⟨(hr hample).symm, hmax⟩
      · exact absurd (hgranted e he) hnot
    · rintro ⟨htree, -⟩
      rcases hspec with ⟨hevents, hr⟩ | ⟨-, hstuck⟩
      · refine ⟨?_, fun e he => (hevents e he).1⟩
        rcases hresult : (plXmlToNodeCopy env (text ++ [0]) (text.length + 1) s).result with e | r
        · rw [hresult] at hr
          exact hr.elim
        · rw [hresult] at hr
          rw [hr hample, htree]
      · rw [hstuck hample] at htree
        cases htree
  · refine ⟨?_, fun h => absurd h.2 hmax⟩
    rintro ⟨hresult, hgranted⟩
    have hzero : addU32 text.length 1 = 0 := by
      have hfull : text.length + 1 = 2 ^ 32 := by omega
      rw [addU32, hfull, Nat.mod_self]
    have hspec : Runs True (plXmlToNode env image text.length) s _ := plXmlToNode_longest_spec hzero hs
    rcases hspec with ⟨-, hr⟩ | ⟨⟨e, he, hnot⟩, -⟩
    · rw [hresult] at hr
      cases hr
    · exact absurd (hgranted e he) hnot

/-- What is printed of a clean tree grows to the tree again. -/
theorem tree_iff_clean (env : Env) {t : Node} (ht : Printable t) :
    (parseText env (render (Node.written t))).tree = some t ↔ Clean t := by
  rw [← parseText_written env ht]
  refine ⟨fun htree => (finished_of_tree htree).1, fun hfinished => ?_⟩
  have hdate : ∀ label ∈ t.kids.labels, label.isDate = false := by
    intro label hlabel
    have htextual := ht.textual label hlabel
    cases label <;> first | rfl | exact htextual.elim
  obtain ⟨bag, hbag⟩ := ht.built.1
  have hgrown := growForest_of_addAll ht.built_kids hdate hbag
  have hsame : bag = t := by
    rw [eq_of_plNodeAddAll hbag]
    rfl
  rw [hsame, ht.root] at hgrown
  rw [hfinished]
  exact hgrown

/-- What is printed is parsed to the tree again exactly when the tree is clean and the output not the
longest there can be. -/
theorem reparses_output_iff {env env' : Env} (henv : ∀ n, env.alloc n = true) (hample : env'.Ample) {t : Node}
    (ht : Printable t) (hsize : Counted t) {b : Writer} (hb : b.toPlBuf.Valid)
    (hok : (plNodeToXml env t b).result = .ok ()) {image : Nat → UInt8}
    (himage : Image image (b.output (plNodeToXml env t b).state.toPlBuf)) {s : Parser} (hs : s.Idle) :
    Reparses env' s image (b.output (plNodeToXml env t b).state.toPlBuf).length t ↔
      Clean t ∧ (b.output (plNodeToXml env t b).state.toPlBuf).length + 1 < 2 ^ 32 := by
  obtain ⟨hout, hlen⟩ := output_of_ok henv ht hsize hb hok
  rw [hout] at himage ⊢
  rw [reparses_iff_tree hample hs himage hlen, tree_iff_clean env' ht]

/-! ### Well-formed trees -/

/-- Dictionaries hold keys, keys one value each, and nothing else holds keys. The flag tells whether keys
are expected. -/
def Proper : Bool → Forest Label → Prop
  | _, .nil => True
  | inDict, .cons label kids next =>
      label.isKey = inDict ∧
        (match label with
          | .dict => Proper true kids
          | .array => Proper false kids
          | .key _ => (∃ value held, kids = .cons value held .nil) ∧ Proper false kids
          | _ => kids = .nil) ∧
        Proper inDict next

/-- The label is no date, and its text holds no `NUL` and no `'<'`. -/
def Label.Plain : Label → Prop
  | .key datval | .string datval => 60 ∉ datval ∧ 0 ∉ datval
  | .date _ => False
  | _ => True

/-- The text of the label is short enough: for an `int` in the writer, with its end tag in the decoder. -/
def Label.Fits : Label → Prop
  | .key datval | .string datval => datval.length < 2 ^ 31
  | .data datval => (base64Encode datval).length + 7 < 2 ^ 31
  | _ => True

theorem Label.Plain.textual {label : Label} (h : label.Plain) : label.Textual := by
  cases label <;> first | exact h.2 | exact h

theorem Label.Plain.faithful_iff {label : Label} (h : label.Plain) : label.Faithful ↔ label.Fits := by
  cases label <;> first | exact and_iff_right h.1 | exact Iff.rfl

theorem plNodeAddAll_of_proper {f : Forest Label} {g : Forest Label} :
    (Proper true f → plNodeAddAll ⟨.dict, g⟩ f = some ⟨.dict, g ++ f⟩) ∧
      (Proper false f → plNodeAddAll ⟨.array, g⟩ f = some ⟨.array, g ++ f⟩) := by
  induction f generalizing g with
  | nil => simp [plNodeAddAll]
  | cons label kids next _ ih =>
      have happend : g ++ .single ⟨label, kids⟩ ++ next = g ++ .cons label kids next := by
        rw [Forest.append_assoc]
        rfl
      constructor
      · rintro ⟨hkey, hlabel, hnext⟩
        have hvalue : kids ≠ .nil := by
          cases label <;> try cases hkey
          obtain ⟨⟨value, held, rfl⟩, -⟩ := hlabel
          simp
        have hadd : plNodeAdd ⟨.dict, g⟩ ⟨label, kids⟩ = some ⟨.dict, g ++ .single ⟨label, kids⟩⟩ := if_pos ⟨hkey, hvalue⟩
        rw [plNodeAddAll, hadd, Option.bind_some, ih.1 hnext, happend]
      · rintro ⟨-, -, hnext⟩
        have hadd : plNodeAdd ⟨.array, g⟩ ⟨label, kids⟩ = some ⟨.array, g ++ .single ⟨label, kids⟩⟩ := rfl
        rw [plNodeAddAll, hadd, Option.bind_some, ih.2 hnext, happend]

/-- Well-formed trees are trees the API can build, and lack no value. -/
theorem built_of_proper {f : Forest Label} {inDict : Bool} (h : Proper inDict f) :
    Built f ∧ gaps f = some false := by
  induction f generalizing inDict with
  | nil => exact ⟨trivial, rfl⟩
  | cons label kids next ihk ihn =>
      obtain ⟨-, hlabel, hnext⟩ := h
      obtain ⟨hbuilt, hgaps⟩ := ihn hnext
      have hsuffices : (∃ bag, plNodeAddAll (.leaf label) kids = some bag) → Built kids →
          gaps (.cons label kids .nil) = some false →
          Built (.cons label kids next) ∧ gaps (.cons label kids next) = some false := by
        intro hbag hkids hgap
        refine ⟨⟨hbag, hkids, hbuilt⟩, ?_⟩
        rw [gaps_cons, hgap]
        exact hgaps
      have hleaf : label.isKey = false → kids = .nil →
          Built (.cons label kids next) ∧ gaps (.cons label kids next) = some false := by
        rintro hnokey rfl
        exact hsuffices ⟨_, rfl⟩ trivial (by simp [gaps, hnokey])
      cases label with
      | dict =>
          obtain ⟨hb, hg⟩ := ihk hlabel
          exact hsuffices ⟨_, plNodeAddAll_of_proper.1 hlabel⟩ hb (by simpa [gaps, Label.isKey] using hg)
      | array =>
          obtain ⟨hb, hg⟩ := ihk hlabel
          exact hsuffices ⟨_, plNodeAddAll_of_proper.2 hlabel⟩ hb (by simpa [gaps, Label.isKey] using hg)
      | key datval =>
          obtain ⟨⟨value, held, rfl⟩, hvalue⟩ := hlabel
          obtain ⟨hb, hg⟩ := ihk hvalue
          exact hsuffices ⟨⟨.key datval, .cons value held .nil⟩, rfl⟩ hb (by simpa [gaps, Label.isKey] using hg)
      | string | data | bool | integer | date => exact hleaf rfl hlabel

theorem built_root {t : Node} (hroot : t.label = .dict) (h : Proper true t.kids) : Built (.single t) := by
  have hbag : ∃ bag, plNodeAddAll (.leaf t.label) t.kids = some bag := by
    rw [hroot]
    exact ⟨_, plNodeAddAll_of_proper.1 h⟩
  exact ⟨hbag, (built_of_proper h).1, trivial⟩

theorem printable_of_proper {t : Node} (hroot : t.label = .dict) (h : Proper true t.kids)
    (hplain : ∀ label ∈ t.kids.labels, label.Plain) : Printable t :=
  ⟨hroot, built_root hroot h, fun label hlabel => (hplain label hlabel).textual⟩

theorem clean_iff_of_proper {t : Node} (h : Proper true t.kids) (hplain : ∀ label ∈ t.kids.labels, label.Plain) :
    Clean t ↔ ∀ label ∈ t.kids.labels, label.Fits := by
  rw [Clean, (built_of_proper h).2]
  simp only [ne_eq, reduceCtorEq, not_false_eq_true, and_true]
  exact forall₂_congr fun label hlabel => (hplain label hlabel).faithful_iff

/-- A well-formed tree that is printed whole is parsed to itself exactly when its texts are short enough
and the output leaves room for its `NUL`. -/
theorem plNodeToXml_reparses_iff {env env' : Env} (henv : ∀ n, env.alloc n = true) (hample : env'.Ample) {t : Node}
    (hroot : t.label = .dict) (hproper : Proper true t.kids) (hplain : ∀ label ∈ t.kids.labels, label.Plain)
    (hsize : Counted t) {b : Writer} (hb : b.toPlBuf.Valid) (hok : (plNodeToXml env t b).result = .ok ())
    {image : Nat → UInt8} (himage : Image image (b.output (plNodeToXml env t b).state.toPlBuf)) {s : Parser}
    (hs : s.Idle) :
    Reparses env' s image (b.output (plNodeToXml env t b).state.toPlBuf).length t ↔
      (∀ label ∈ t.kids.labels, label.Fits) ∧ (b.output (plNodeToXml env t b).state.toPlBuf).length + 1 < 2 ^ 32 := by
  rw [reparses_output_iff henv hample (printable_of_proper hroot hproper hplain) hsize hb hok himage hs,
    clean_iff_of_proper hproper hplain]

theorem imageOf_image (text : Bytes) : Image (imageOf text) text := by
  refine ⟨fun i h => ?_, imageOf_length text⟩
  rw [imageOf, List.getD_eq_getElem?_getD, List.getElem?_eq_getElem h]
  rfl

def smallTree : Node :=
  ⟨.dict, .cons (.key [97]) (.cons .array (.cons (.bool true) .nil (.cons (.data [77]) .nil (.cons .dict .nil .nil))) .nil)
    (.cons (.key [98]) (.cons (.integer (-5)) .nil .nil) .nil)⟩

def emptyWriter : Writer := ⟨⟨List.replicate 600 0, 600, 0⟩, 0⟩

theorem emptyWriter_valid : emptyWriter.toPlBuf.Valid := ⟨by decide, by decide +kernel, by decide⟩

theorem smallTree_reparses :
    Reparses plentyEnv initialParser
        (imageOf (emptyWriter.output (plNodeToXml plentyEnv smallTree emptyWriter).state.toPlBuf))
        (emptyWriter.output (plNodeToXml plentyEnv smallTree emptyWriter).state.toPlBuf).length smallTree ↔
      (∀ label ∈ smallTree.kids.labels, label.Fits) ∧
        (emptyWriter.output (plNodeToXml plentyEnv smallTree emptyWriter).state.toPlBuf).length + 1 < 2 ^ 32 :=
  plNodeToXml_reparses_iff (fun _ => rfl) ⟨fun _ => rfl, fun _ => rfl⟩ rfl (by simp [Proper, smallTree, Label.isKey])
    (by simp [smallTree, Forest.labels, Label.Plain]) (by simp [Counted, Node.labels, smallTree, Forest.labels, Label.size]) emptyWriter_valid (by decide +kernel)
    (imageOf_image _) initialParser_idle

/-- A dictionary with one string. -/
def stringTree (text : Bytes) : Node := ⟨.dict, .cons (.key [97]) (.cons (.string text) .nil .nil) .nil⟩

section LongText
variable {text : Bytes}

theorem mem_stringTree {label : Label} (h : label ∈ Node.labels (stringTree text)) :
    label = .dict ∨ label = .key [97] ∨ label = .string text := by
  simpa [Node.labels, stringTree, Forest.labels] using h

theorem stringTree_proper (text : Bytes) : Proper true (stringTree text).kids := by
  simp [Proper, stringTree, Label.isKey]

theorem stringTree_plain (hmark : 60 ∉ text) (hnul : 0 ∉ text) :
    ∀ label ∈ (stringTree text).kids.labels, label.Plain := by
  simp [stringTree, Forest.labels, Label.Plain, hmark, hnul]

theorem stringTree_counted (h : text.length < 2 ^ 32) : Counted (stringTree text) := by
  intro label hlabel
  rcases mem_stringTree hlabel with rfl | rfl | rfl
  · decide
  · decide
  · exact h

theorem stringTree_written (h : 2 ^ 31 ≤ text.length) : Node.written (stringTree text) = stringTree [] := by
  have hlong : shown text = [] := if_neg (Nat.not_lt.2 h)
  show stringTree (shown text) = _
  rw [hlong]

theorem stringTree_prints (h : 2 ^ 31 ≤ text.length) (h' : text.length < 2 ^ 32) :
    (plNodeToXml plentyEnv (stringTree text) emptyWriter).result = .ok () := by
  have hlabels : ∀ label ∈ Node.labels (stringTree text), label.size < 2 ^ 32 ∧ label.Encodes := by
    intro label hlabel
    refine ⟨stringTree_counted h' label hlabel, fun datval hd => ?_⟩
    rcases mem_stringTree hlabel with rfl | rfl | rfl <;> cases hd
  have henv : ∀ n, plentyEnv.alloc n = true := fun _ => rfl
  refine ((plNodeToXml_writes henv hlabels emptyWriter emptyWriter_valid).1 ?_).1
  rw [stringTree_written h]
  decide +kernel

/-- A text of 2 ^ 31 bytes or more is printed as nothing at all, and the run succeeds. -/
theorem stringTree_lost (h : 2 ^ 31 ≤ text.length) (h' : text.length < 2 ^ 32) (hmark : 60 ∉ text) (hnul : 0 ∉ text) :
    (plXmlToNode plentyEnv
        (imageOf (emptyWriter.output (plNodeToXml plentyEnv (stringTree text) emptyWriter).state.toPlBuf))
        (emptyWriter.output (plNodeToXml plentyEnv (stringTree text) emptyWriter).state.toPlBuf).length
        initialParser).result = .ok (some (stringTree [])) := by
  have hprintable := printable_of_proper rfl (stringTree_proper text) (stringTree_plain hmark hnul)
  obtain ⟨hout, hlen⟩ := output_of_ok (fun _ => rfl) hprintable (stringTree_counted h') emptyWriter_valid
    (stringTree_prints h h')
  rw [stringTree_written h] at hout hlen
  rw [hout]
  have hproper := stringTree_proper []
  have hplain : ∀ label ∈ (stringTree []).kids.labels, label.Plain := stringTree_plain List.not_mem_nil List.not_mem_nil
  have hclean : Clean (stringTree []) := by
    rw [clean_iff_of_proper hproper hplain]
    simp [stringTree, Forest.labels, Label.Fits]
  have hwritten : Node.written (stringTree []) = stringTree [] := rfl
  have htree := (tree_iff_clean plentyEnv (printable_of_proper rfl hproper hplain)).2 hclean
  rw [hwritten] at htree
  have hample : plentyEnv.Ample := ⟨fun _ => rfl, fun _ => rfl⟩
  exact ((reparses_iff_tree hample initialParser_idle (imageOf_image _) hlen).2 ⟨htree, by decide +kernel⟩).1

end LongText

/-- A string of 2 ^ 31 bytes comes back empty. -/
theorem longString_lost :
    (plNodeToXml plentyEnv (stringTree (List.replicate (2 ^ 31) 97)) emptyWriter).result = .ok () ∧
      (plXmlToNode plentyEnv
        (imageOf (emptyWriter.output
          (plNodeToXml plentyEnv (stringTree (List.replicate (2 ^ 31) 97)) emptyWriter).state.toPlBuf))
        (emptyWriter.output
          (plNodeToXml plentyEnv (stringTree (List.replicate (2 ^ 31) 97)) emptyWriter).state.toPlBuf).length
        initialParser).result ≠ .ok (some (stringTree (List.replicate (2 ^ 31) 97))) := by
  have hlen : (List.replicate (2 ^ 31) (97 : UInt8)).length = 2 ^ 31 := List.length_replicate
  have habsent : ∀ c : UInt8, c ≠ 97 → c ∉ List.replicate (2 ^ 31) (97 : UInt8) :=
    fun c hc hmem => hc (List.eq_of_mem_replicate hmem)
  generalize List.replicate (2 ^ 31) (97 : UInt8) = text at hlen habsent
  refine ⟨stringTree_prints (by omega) (by omega), ?_⟩
  rw [stringTree_lost (by omega) (by omega) (habsent 60 (by decide)) (habsent 0 (by decide))]
  intro hsame
  have htext : ([] : Bytes) = text := by simpa [stringTree] using hsame
  rw [← htext] at hlen
  cases hlen

end BareBoot.Plist
