import BareBoot.PlistComments

/-! What a tree holds, for a text with any markup: a run of the elements the text begins, none of them added, left out or
out of its place. For a document that is written well it is all of the root dictionary. -/

namespace BareBoot.Plist

/-! ### What is delivered -/

/-- The elements a machine holds, in document order. -/
def Machine.labels (m : Machine) : List Label := m.trail.map Prod.snd

@[simp] theorem Machine.labels_finished (f : Forest Label) : (Machine.finished f).labels = .dict :: f.labels := by
  simp [Machine.labels, Machine.trail, depths_map_snd]

@[simp] theorem Machine.labels_top (held : Bool) : (Machine.running (.top held)).labels = [] := rfl

@[simp] theorem Machine.labels_list (label : Label) (tags : Forest Label) (below : Stack) :
    (Machine.running (.list label tags below)).labels = (Machine.running below).labels ++ label :: tags.labels := by
  simp [Machine.labels, Machine.trail, Stack.trail, depths_map_snd]

@[simp] theorem Machine.labels_key (datval : Bytes) (below : Stack) :
    (Machine.running (.key datval below)).labels = (Machine.running below).labels ++ [.key datval] := by
  simp [Machine.labels, Machine.trail, Stack.trail]

/-- An element is handed over with all that was open around it, or all of it is dropped at top level. -/
theorem deliver_some_labels (stack : Stack) (label : Label) (kids : Forest Label) :
    (deliver (some (label, kids)) stack).labels <:+ (Machine.running stack).labels ++ label :: kids.labels := by
  induction stack generalizing label kids with
  | top held =>
      rw [deliver]
      by_cases hdict : label = .dict
      · rw [if_pos hdict, hdict]
        simp
      · rw [if_neg hdict]
        exact List.nil_suffix
  | list outer tags below _ =>
      rw [deliver]
      simp [Forest.labels]
  | key datval below ih =>
      have hvalue := ih (.key datval) (.cons label kids .nil)
      simpa [deliver, Forest.labels] using hvalue

theorem deliver_none_labels (stack : Stack) :
    (deliver none stack).labels <:+ (Machine.running stack).labels := by
  cases stack with
  | top held => exact List.suffix_rfl
  | list label tags below =>
      rw [Machine.labels_list]
      exact deliver_some_labels below label tags
  | key datval below =>
      rw [Machine.labels_key]
      exact deliver_some_labels below (.key datval) .nil

theorem step_labels (stack : Stack) (tok : Token) :
    ((Machine.running stack).step tok).labels <:+ (Machine.running stack).labels ++ tok.label?.toList := by
  cases tok with
  | plist =>
      rw [Machine.step]
      by_cases hheld : stack.held
      · rw [if_pos hheld]
        exact List.nil_suffix
      · rw [if_neg hheld]
        simpa [Token.label?] using deliver_none_labels stack
  | unknown => simpa [Machine.step, Token.label?] using deliver_none_labels stack
  | element label => exact deliver_some_labels stack label .nil
  | opens label => simp [Machine.step, Token.label?, Forest.labels]
  | key datval => simp [Machine.step, Token.label?]
  | bad => exact List.nil_suffix

/-- What a run finishes with are elements of the run, one behind the other. -/
theorem labels_infix_of_run {stack : Stack} {toks : List Token} {f : Forest Label}
    (hrun : (Machine.running stack).run toks = .finished f) :
    .dict :: f.labels <:+: (Machine.running stack).labels ++ toks.filterMap Token.label? := by
  induction toks generalizing stack with
  | nil => cases hrun
  | cons tok toks ih =>
      have hstep := step_labels stack tok
      have htokens : (Machine.running stack).labels ++ (tok :: toks).filterMap Token.label? =
          (Machine.running stack).labels ++ tok.label?.toList ++ toks.filterMap Token.label? := by
        cases hlabel : tok.label? <;> simp [hlabel]
      obtain ⟨dropped, hdropped⟩ := hstep
      rw [htokens, ← hdropped, List.append_assoc]
      apply List.IsInfix.trans _ (List.suffix_append dropped _).isInfix
      rw [Machine.run_cons] at hrun
      cases hm : (Machine.running stack).step tok with
      | running after =>
          rw [hm] at hrun
          exact ih hrun
      | finished g =>
          rw [hm, Machine.run_finished] at hrun
          cases hrun
          rw [Machine.labels_finished]
          exact (List.prefix_append _ _).isInfix
      | stuck =>
          rw [hm, Machine.run_stuck] at hrun
          cases hrun

/-! ### What is returned -/

/-- A tree that is returned is the root dictionary with the elements behind it, up to some place in the text. -/
theorem plXmlToNode_contiguous {env : Env} (hample : env.Ample) {s : Parser} (hs : s.Idle) {image : Nat → UInt8} {text : Bytes}
    (himage : Image image text) (hlen : text.length + 1 < 2 ^ 32)
    (hgranted : ∀ e ∈ (plXmlToNode env image text.length s).events, e.Granted) {t : Node}
    (h : (plXmlToNode env image text.length s).result = .ok (some t)) :
    t.label = .dict ∧ Node.labels t <:+: (tokens env text.length text).filterMap Token.label? := by
  have hcopy : plXmlToNode env image text.length = plXmlToNodeCopy env (text ++ [0]) (text.length + 1) := by
    rw [plXmlToNode, copyOf_eq hlen himage.nul, himage.textOf_eq, addU32, Nat.mod_eq_of_lt hlen]
  rw [hcopy] at hgranted h
  have hspec : Runs (env.Ample → parseText env text = .stuck) _ s _ := plXmlToNodeCopy_spec hlen hs
  rcases hspec with ⟨-, hr⟩ | ⟨⟨e, he, hnot⟩, -⟩
  · rw [h] at hr
    obtain ⟨hfinished, hdict⟩ := finished_of_tree (hr hample).symm
    refine ⟨hdict, ?_⟩
    have hinfix := labels_infix_of_run hfinished
    rwa [Machine.labels_top, List.nil_append, ← hdict] at hinfix
  · exact absurd (hgranted e he) hnot

/-- The comment ends the array, the tag behind it the key, and the next one the root dictionary. -/
theorem plXmlToNode_contiguous_comment :
    Node.labels ⟨.dict, .cons (.key (ascii "a")) (.cons .array .nil .nil) .nil⟩ <:+:
      (tokens plentyEnv 61 (ascii "<true/><dict><key>a</key><array><!-- --></dict></dict><true/>")).filterMap Token.label? :=
  (plXmlToNode_contiguous (t := ⟨.dict, .cons (.key (ascii "a")) (.cons .array .nil .nil) .nil⟩)
    ⟨fun _ => rfl, fun _ => rfl⟩ initialParser_idle
    (imageOf_image (ascii "<true/><dict><key>a</key><array><!-- --></dict></dict><true/>")) (by decide +kernel)
    (by decide +kernel) (by decide +kernel)).2

namespace Document

variable {d : Document}

/-- A document that is written well, without dates, is read as its root dictionary. -/
theorem tree_of_wellFormed {env : Env} (hd : d.WellFormed) (hlen : d.text.length + 1 < 2 ^ 32)
    (hdate : ∀ label ∈ (contents d.root).labels, label.isDate = false) {image : Nat → UInt8} (himage : Image image d.text)
    (hample : env.Ample) {s : Parser} (hs : s.Idle) :
    ∃ t, (plXmlToNode env image d.text.length s).result = .ok (some t) ∧ contents d.root = .single t := by
  obtain ⟨kids, hkids, hproper⟩ := hd.root
  refine ⟨⟨.dict, kids⟩, ?_, hkids⟩
  rw [hd.result hkids hproper hlen himage hample hs, tree_of_root hkids hproper, if_pos hdate]

end Document

theorem sampleDocument_tree :
    ∃ t, (plXmlToNode plentyEnv (imageOf sampleDocument.text) sampleDocument.text.length initialParser).result =
      .ok (some t) ∧ contents sampleDocument.root = .single t :=
  Document.tree_of_wellFormed sampleDocument_wellFormed (by decide +kernel) (by decide +kernel) (imageOf_image _)
    ⟨fun _ => rfl, fun _ => rfl⟩ initialParser_idle

end BareBoot.Plist
