import BareBoot.PlistDocument

/-! Comments in a document. The parser takes a comment for the end of what is open, so that one changes the tree
unless nothing of the root dictionary begins behind it. -/

namespace BareBoot.Plist

variable {env : Env} {stack stack' : Stack} {f : Forest Label} {tok : Token} {toks pre post : List Token}

/-! ### Runs with one more end -/

theorem deliver_ne_stuck (r : Option (Label × Forest Label)) (stack : Stack) : deliver r stack ≠ .stuck := by
  induction stack generalizing r with
  | top held =>
      rcases r with _ | ⟨label, kids⟩
      · intro h
        cases h
      · rw [deliver]
        split_ifs
        · intro h
          cases h
        · intro h
          cases h
  | list label tags below ih =>
      cases r with
      | none => exact ih _
      | some r =>
          intro h
          cases h
  | key datval below ih => cases r <;> exact ih _

/-- Only `<plist>` and what leaves the defined behaviour stop the machine. -/
theorem run_ne_stuck (h : ∀ tok ∈ toks, tok = .unknown ∨ tok.label?.isSome) (stack : Stack) :
    (Machine.running stack).run toks ≠ .stuck := by
  induction toks generalizing stack with
  | nil =>
      intro hrun
      cases hrun
  | cons tok toks ih =>
      rw [List.forall_mem_cons] at h
      have hstep : (Machine.running stack).step tok ≠ .stuck := by
        cases tok with
        | unknown => exact deliver_ne_stuck none stack
        | element label => exact deliver_ne_stuck _ stack
        | opens label =>
            intro h
            cases h
        | key datval =>
            intro h
            cases h
        | plist => rcases h.1 with h | h <;> cases h
        | bad => rcases h.1 with h | h <;> cases h
      rw [Machine.run_cons]
      cases hm : (Machine.running stack).step tok with
      | running stack' => exact ih h.2 stack'
      | finished f =>
          rw [Machine.run_finished]
          intro h
          cases h
      | stuck => exact absurd hm hstep

/-- A run that goes on has seen what its tokens begin. -/
theorem trail_of_run (h : stack.Rooted) (hrun : (Machine.running stack).run toks = .running stack') :
    stack'.Rooted ∧ stack'.trail.map Prod.snd = stack.trail.map Prod.snd ++ toks.filterMap Token.label? := by
  induction toks generalizing stack with
  | nil =>
      cases hrun
      exact ⟨h, (List.append_nil _).symm⟩
  | cons tok toks ih =>
      rw [Machine.run_cons] at hrun
      rcases step_spec h tok with hstuck | ⟨hrooted, htrail⟩
      · rw [hstuck, Machine.run_stuck] at hrun
        cases hrun
      · cases hm : (Machine.running stack).step tok with
        | running next =>
            rw [hm] at hrun hrooted htrail
            obtain ⟨hrooted', hlabels⟩ := ih hrooted hrun
            refine ⟨hrooted', hlabels.trans ?_⟩
            rw [show next.trail = _ from htrail, List.map_append, List.append_assoc, seen]
            rcases hlabel : tok.label? with _ | label <;> simp [hlabel]
        | finished f =>
            rw [hm, Machine.run_finished] at hrun
            cases hrun
        | stuck =>
            rw [hm, Machine.run_stuck] at hrun
            cases hrun

/-- An element behind one more end is seen less deep, or not at all. -/
theorem run_shifted_ne (h : stack.Rooted) (htok : tok.label?.isSome)
    (hrun : (Machine.running stack).run (tok :: toks) = .finished f) :
    (Machine.running stack).run (.unknown :: tok :: toks) ≠ .finished f := by
  obtain ⟨label, hlabel⟩ := Option.isSome_iff_exists.1 htok
  have hseen : ∀ height, seen height tok = [(height, label)] := by
    intro height
    rw [seen, hlabel]
    rfl
  have hpre : stack.trail ++ [(stack.height, label)] <+: (Machine.finished f).trail := by
    rw [Machine.run_cons] at hrun
    rcases step_spec h tok with hstuck | ⟨hrooted, htrail⟩
    · rw [hstuck, Machine.run_stuck] at hrun
      cases hrun
    · rw [← hseen, ← htrail]
      exact trail_prefix_of_run hrooted hrun
  obtain ⟨hrooted, htrail⟩ := deliver_none_spec h
  intro hshifted
  rw [Machine.run_cons] at hshifted
  have hstep : (Machine.running stack).step .unknown = deliver none stack := rfl
  rw [hstep] at hshifted
  cases hm : deliver none stack with
  | running next =>
      rw [hm] at hshifted hrooted htrail
      rw [Machine.run_cons] at hshifted
      rcases step_spec hrooted tok with hstuck | ⟨hrooted', htrail'⟩
      · rw [hstuck, Machine.run_stuck] at hshifted
        cases hshifted
      · have hpre' := trail_prefix_of_run hrooted' hshifted
        have hnext : next.trail = stack.trail := htrail
        rw [htrail', hnext, hseen] at hpre'
        have hheight := height_of_deliver_none h hm
        refine not_prefix_of_mismatch hpre ?_ hpre'
        intro heq
        have hsame : stack.height = next.height := congrArg Prod.fst heq
        omega
  | finished g =>
      rw [hm, Machine.run_finished] at hshifted
      rw [hm, hshifted] at htrail
      rw [htrail] at hpre
      have hlength := hpre.length_le
      rw [List.length_append, List.length_singleton] at hlength
      omega
  | stuck => exact deliver_ne_stuck none stack hm

/-- One more end among some tokens leaves the elements as they are exactly if only ends are behind it. -/
theorem run_inserted_iff (h : stack.Rooted) (hrun : (Machine.running stack).run (pre ++ post) = .finished f)
    (hcount : (Machine.finished f).trail.map Prod.snd =
      stack.trail.map Prod.snd ++ (pre ++ post).filterMap Token.label?)
    (hpost : ∀ tok ∈ post, tok = .unknown ∨ tok.label?.isSome) :
    (Machine.running stack).run (pre ++ .unknown :: post) = .finished f ↔ ∀ tok ∈ post, tok = .unknown := by
  induction post generalizing pre with
  | nil =>
      rw [List.append_nil] at hrun
      rw [Machine.run_append, hrun, Machine.run_finished]
      exact iff_of_true rfl fun tok htok => absurd htok List.not_mem_nil
  | cons tok post ih =>
      rw [List.forall_mem_cons] at hpost
      rcases hpost.1 with rfl | htok
      · -- one end more before an end is one more behind it
        have hshift : pre ++ .unknown :: .unknown :: post = (pre ++ [.unknown]) ++ .unknown :: post := by simp
        have hsplit : pre ++ .unknown :: post = (pre ++ [.unknown]) ++ post := by simp
        rw [hsplit] at hrun hcount
        rw [hshift, ih hrun hcount hpost.2, List.forall_mem_cons, and_iff_right rfl]
      · have hnot : ¬∀ tok' ∈ tok :: post, tok' = .unknown := by
          intro hall
          rw [hall tok List.mem_cons_self] at htok
          cases htok
        refine iff_of_false ?_ hnot
        rw [Machine.run_append] at hrun ⊢
        cases hm : (Machine.running stack).run pre with
        | running stack' =>
            rw [hm] at hrun
            exact run_shifted_ne (trail_of_run h hm).1 htok hrun
        | finished g =>
            -- too few elements have been seen
            rw [hm, Machine.run_finished] at hrun
            have hpre := labels_prefix_of_run (m := .running stack) h (hm.trans hrun)
            obtain ⟨label, hlabel⟩ := Option.isSome_iff_exists.1 htok
            rw [hcount, List.filterMap_append, List.filterMap_cons, hlabel] at hpre
            have hlength := hpre.length_le
            simp only [Machine.trail, List.length_append, List.length_cons] at hlength
            omega
        | stuck =>
            rw [hm, Machine.run_stuck] at hrun
            cases hrun

/-! ### Comments -/

/-- `<!-- comment -->`. -/
def commentSlot (comment : Bytes) : Slot := ⟨[], .mark (ascii "!-- " ++ (comment ++ ascii " --")), []⟩

theorem commentSlot_mark (comment : Bytes) :
    markupOf (ascii "!-- " ++ (comment ++ ascii " --")) = .unknown := by
  have hhead : ascii "!-- " = 33 :: ascii "-- " := by simp [ascii]
  rw [hhead]
  exact markupOf_mark (Or.inr rfl) _

theorem commentSlot_good {comment : Bytes} (h : ∀ c ∈ comment, c ≠ 0 ∧ c ≠ 60 ∧ c ≠ 62) : (commentSlot comment).Good := by
  refine ⟨unmarked_nil, ⟨?_, ?_⟩, unmarked_nil⟩
  · have hfront : ∀ c ∈ ascii "!-- ", c ≠ 0 ∧ c ≠ 62 := by simp [ascii]
    have hback : ∀ c ∈ ascii " --", c ≠ 0 ∧ c ≠ 62 := by simp [ascii]
    rw [List.forall_mem_append, List.forall_mem_append]
    exact ⟨hfront, fun c hc => ⟨(h c hc).1, (h c hc).2.2⟩, hback⟩
  · rw [commentSlot_mark]
    rfl

theorem commentSlot_token (comment : Bytes) : (commentSlot comment).piece.token = .unknown :=
  congrArg markToken (commentSlot_mark comment)

namespace Document

/-- The document with a comment in front of its tag number `i`. -/
def commented (d : Document) (i : Nat) (comment : Bytes) : Bytes :=
  slotsText (d.slots.take i ++ commentSlot comment :: d.slots.drop i)

/-- The place is in front of the root dictionary, or only end tags are behind it there. -/
def Harmless (d : Document) (i : Nat) : Prop :=
  i ≤ d.header.length ∨ ∀ s ∈ (slotsOf d.root).drop (i - d.header.length), s.IsEnd

variable {d : Document} {kids : Forest Label} {comment : Bytes}

theorem parseText_commented (hd : d.WellFormed) (hcomment : ∀ c ∈ comment, c ≠ 0 ∧ c ≠ 60 ∧ c ≠ 62) (env : Env) (i : Nat) :
    parseText env (d.commented i comment) = (Machine.running (.top false)).run
      ((d.slots.map (·.piece.token)).take i ++ .unknown :: (d.slots.map (·.piece.token)).drop i) := by
  have hgood : ∀ s ∈ d.slots.take i ++ commentSlot comment :: d.slots.drop i, s.Good := by
    rw [List.forall_mem_append, List.forall_mem_cons]
    exact ⟨fun s hs => hd.good s (List.mem_of_mem_take hs), commentSlot_good hcomment,
      fun s hs => hd.good s (List.mem_of_mem_drop hs)⟩
  rw [commented, parseText_slots env hgood, List.map_append, List.map_cons, commentSlot_token, List.map_take, List.map_drop]

/-- Behind the header a comment is an end tag among the tags of the root dictionary. -/
theorem run_commented_iff (hd : d.WellFormed) (hkids : contents d.root = .cons .dict kids .nil) (hproper : Proper true kids)
    (j : Nat) :
    (Machine.running (.top false)).run (((slotsOf d.root ++ d.trailer).map (·.piece.token)).take (j + 1) ++
        .unknown :: ((slotsOf d.root ++ d.trailer).map (·.piece.token)).drop (j + 1)) = .finished kids ↔
      ∀ s ∈ (slotsOf d.root).drop (j + 1), s.IsEnd := by
  rcases hd.root_cases hkids with ⟨element, hslots, htoken, rfl⟩ |
    ⟨start, elements, stop, hslots, hstart, hstop, hspelled, rfl⟩
  · rw [hslots, List.singleton_append, List.map_cons, htoken, List.take_succ_cons, List.cons_append, List.drop_succ_cons,
      List.drop_succ_cons, List.drop_nil]
    exact iff_of_true (Machine.run_finished .nil _) fun s hs => absurd hs List.not_mem_nil
  · have hends : (∀ s ∈ (slotsOf d.root).drop (j + 1), s.IsEnd) ↔
        ∀ tok ∈ ((slotsOf elements ++ [stop] ++ d.trailer).map (·.piece.token)).drop j, tok = .unknown := by
      have hiff : ∀ s ∈ (slotsOf d.root).drop (j + 1), s.IsEnd ↔ s.piece.token = .unknown := fun s hs =>
        isEnd_iff hd.spelled s (List.mem_of_mem_drop hs)
      have hends : ∀ s ∈ d.trailer.drop (j - (slotsOf elements ++ [stop]).length), s.piece.token = .unknown :=
        List.forall_mem_map.1 fun tok htok => hd.trailer_tokens tok (List.mem_of_mem_drop (List.map_drop ▸ htok))
      have hsplit : (slotsOf elements ++ [stop] ++ d.trailer).drop j = (slotsOf elements ++ [stop]).drop j ++
          d.trailer.drop (j - (slotsOf elements ++ [stop]).length) := List.drop_append
      rw [forall₂_congr hiff, hslots, List.drop_succ_cons, ← List.map_drop, List.forall_mem_map, hsplit,
        List.forall_mem_append]
      exact (and_iff_left hends).symm
    obtain ⟨toks, htoks⟩ : ∃ toks, toks = (slotsOf elements ++ [stop] ++ d.trailer).map (·.piece.token) := ⟨_, rfl⟩
    have hbody : toks = stream (elements.map Spelling.opening) ++ [.unknown] ++ d.trailer.map (·.piece.token) := by
      rw [htoks, List.map_append, List.map_append, slotsOf_tokens hspelled, List.map_cons, List.map_nil, hstop]
    have hrun : (Machine.running (.list .dict .nil (.top false))).run (toks.take j ++ toks.drop j) =
        .finished (contents elements) := by
      rw [List.take_append_drop, hbody, Machine.run_append, run_elements hspelled hproper, Machine.run_finished]
    have hlabels : toks.filterMap Token.label? = (contents elements).labels := by
      have htrailer : (d.trailer.map (·.piece.token)).filterMap Token.label? = [] := by
        rw [List.filterMap_eq_nil_iff]
        intro tok htok
        rw [hd.trailer_tokens tok htok]
        rfl
      rw [hbody, List.filterMap_append, List.filterMap_append, filterMap_stream, htrailer]
      simp [Token.label?, contents]
    have hcount : (Machine.finished (contents elements)).trail.map Prod.snd =
        (Stack.list .dict .nil (.top false)).trail.map Prod.snd ++
          (toks.take j ++ toks.drop j).filterMap Token.label? := by
      rw [List.take_append_drop, hlabels]
      simp [Machine.trail, Stack.trail, depths_map_snd, depths]
    have hpost : ∀ tok ∈ toks.drop j, tok = .unknown ∨ tok.label?.isSome := by
      intro tok htok
      refine hd.tokens tok ?_
      rw [hslots, List.cons_append, List.map_cons, ← htoks]
      exact List.mem_cons_of_mem _ (List.mem_of_mem_drop htok)
    have hrooted : (Stack.list .dict .nil (.top false)).Rooted := Stack.Rooted.list.2 rfl
    rw [hends, ← htoks, ← run_inserted_iff hrooted hrun hcount hpost, hslots, List.cons_append,
      List.map_cons, ← htoks, hstart, List.take_succ_cons, List.drop_succ_cons, List.cons_append, Machine.run_cons]
    exact Iff.rfl

/-- In front of the root dictionary a comment is passed by. -/
theorem parseText_commented_header (hd : d.WellFormed) (hcomment : ∀ c ∈ comment, c ≠ 0 ∧ c ≠ 60 ∧ c ≠ 62) (env : Env) {i : Nat}
    (hi : i ≤ d.header.length) : parseText env (d.commented i comment) = parseText env d.text := by
  have hlen : i ≤ (d.header.map (·.piece.token)).length := by rwa [List.length_map]
  have hheader := hd.header_tokens
  have hpassed : ∀ tok ∈ (d.header.map (·.piece.token)).take i ++ .unknown :: (d.header.map (·.piece.token)).drop i,
      tok = .plist ∨ tok = .unknown := by
    rw [List.forall_mem_append, List.forall_mem_cons]
    exact ⟨fun tok h => hheader tok (List.mem_of_mem_take h), Or.inr rfl, fun tok h => hheader tok (List.mem_of_mem_drop h)⟩
  rw [parseText_commented hd hcomment, Document.text, parseText_slots env hd.good, Document.slots, List.map_append,
    List.take_append_of_le_length hlen, List.drop_append_of_le_length hlen, ← List.cons_append, ← List.append_assoc,
    Machine.run_append, run_header hpassed, Machine.run_append, run_header hheader]

theorem parseText_commented_body (hd : d.WellFormed) (hcomment : ∀ c ∈ comment, c ≠ 0 ∧ c ≠ 60 ∧ c ≠ 62) (env : Env) (j : Nat) :
    parseText env (d.commented (d.header.length + j) comment) = (Machine.running (.top false)).run
      (((slotsOf d.root ++ d.trailer).map (·.piece.token)).take j ++
        .unknown :: ((slotsOf d.root ++ d.trailer).map (·.piece.token)).drop j) := by
  have hlen : d.header.length = (d.header.map (·.piece.token)).length := (List.length_map _).symm
  rw [parseText_commented hd hcomment, Document.slots, List.map_append, hlen, List.take_length_add_append,
    List.drop_length_add_append, List.append_assoc, Machine.run_append, run_header hd.header_tokens]

/-- The root dictionary is what the parser finishes with, for the places of a comment that are harmless. -/
theorem parseText_commented_iff (hd : d.WellFormed) (hkids : contents d.root = .cons .dict kids .nil) (hproper : Proper true kids)
    (hcomment : ∀ c ∈ comment, c ≠ 0 ∧ c ≠ 60 ∧ c ≠ 62) (env : Env) (i : Nat) :
    parseText env (d.commented i comment) ≠ .stuck ∧
      (parseText env (d.commented i comment) = .finished kids ↔ d.Harmless i) := by
  rcases Nat.lt_or_ge d.header.length i with hi | hi
  · obtain ⟨j, rfl⟩ := Nat.exists_eq_add_of_lt hi
    have hharmless : d.Harmless (d.header.length + (j + 1)) ↔ ∀ s ∈ (slotsOf d.root).drop (j + 1), s.IsEnd := by
      rw [Harmless, Nat.add_sub_cancel_left]
      exact or_iff_right (by omega)
    rw [Nat.add_assoc, parseText_commented_body hd hcomment, hharmless]
    refine ⟨run_ne_stuck ?_ _, run_commented_iff hd hkids hproper j⟩
    rw [List.forall_mem_append, List.forall_mem_cons]
    exact ⟨fun tok h => hd.tokens tok (List.mem_of_mem_take h), Or.inl rfl,
      fun tok h => hd.tokens tok (List.mem_of_mem_drop h)⟩
  · rw [parseText_commented_header hd hcomment env hi, hd.parseText_eq env hkids hproper]
    refine ⟨?_, iff_of_true rfl (Or.inl hi)⟩
    intro h
    cases h

theorem text_length_le (d : Document) (i : Nat) (comment : Bytes) : d.text.length ≤ (d.commented i comment).length := by
  have hsplit : slotsText (d.slots.take i) ++ slotsText (d.slots.drop i) = d.text := by
    rw [← slotsText_append, List.take_append_drop, Document.text]
  rw [← hsplit, commented, slotsText_append, slotsText_cons, List.length_append, List.length_append, List.length_append]
  omega

end Document

/-- `<plist><dict><key>a</key><array><true/></array></dict></plist>`. -/
def sampleDocument : Document where
  header := [bare (.mark (ascii "plist"))]
  root := .cons bareDict (.cons (bareKey [97]) (.cons bareArray (.cons bareTrue .nil .nil) .nil) .nil) .nil
  trailer := [bare (.mark (ascii "/plist"))]

theorem sampleDocument_wellFormed : sampleDocument.WellFormed := by
  have hvalue : Spelled (.cons bareArray (.cons bareTrue .nil .nil) .nil) :=
    .list bareArray_good (.leaf bareTrue_good trivial) trivial
  refine ⟨?_, .list bareDict_good (.key (bareKey_good (by simp [Unmarked])) hvalue trivial) trivial,
    ⟨.cons (.key [97]) (.cons .array (.cons (.bool true) .nil .nil) .nil) .nil, ?_, ?_⟩, ?_⟩
  · refine List.forall_mem_singleton.2 ⟨bare_good ⟨?_, ?_⟩, _, rfl, ?_⟩ <;> simp [ascii, markupOf, endName]
  · simp [contents, values, Forest.map, sampleDocument, bareDict, bareKey, bareArray, bareTrue, bare, Spelling.opening,
      Opening.label, Piece.body, Piece.token, Token.label?, markToken, markupOf, ascii, listLabel]
  · simp [Proper, Label.isKey]
  · refine List.forall_mem_singleton.2 ⟨bare_good ⟨?_, ?_⟩, _, rfl, ?_⟩ <;> simp [ascii, markupOf, endName]

end BareBoot.Plist
