import BareBoot.PlistText

/-! What the machine makes of the tokens of whole elements. Every element is remembered with its depth:
the elements the machine has seen, in the order of their first tokens and with the depths they were
found at, tell the tree it builds, and only ever grow while the root dictionary is open. -/

namespace BareBoot.Plist

/-! ### What the machine has seen -/

/-- The label of the element a token begins. -/
def Token.label? : Token → Option Label
  | .element label | .opens label => some label
  | .key datval => some (.key datval)
  | _ => none

/-- The labels of a forest with their depths, in document order. -/
def depths (d : Nat) : Forest Label → List (Nat × Label)
  | .nil => []
  | .cons label kids next => (d, label) :: (depths (d + 1) kids ++ depths d next)

theorem depths_append (d : Nat) (f g : Forest Label) : depths d (f ++ g) = depths d f ++ depths d g := by
  induction f with
  | nil => rfl
  | cons label kids next _ ih => simp [depths, ih]

theorem depths_map_snd (d : Nat) (f : Forest Label) : (depths d f).map Prod.snd = f.labels := by
  induction f generalizing d with
  | nil => rfl
  | cons label kids next ihk ihn => simp [depths, Forest.labels, ihk, ihn]

def Stack.height : Stack → Nat
  | .top _ => 0
  | .list _ _ below => below.height + 1
  | .key _ below => below.height + 1

/-- The elements on the stack, in document order. -/
def Stack.trail : Stack → List (Nat × Label)
  | .top _ => []
  | .list label tags below => below.trail ++ (below.height, label) :: depths (below.height + 1) tags
  | .key datval below => below.trail ++ [(below.height, .key datval)]

def Machine.trail : Machine → List (Nat × Label)
  | .running stack => stack.trail
  | .finished dict => (0, .dict) :: depths 1 dict
  | .stuck => []

/-- An element with this label can be handed over: at top level only a dictionary. -/
def Stack.Takes : Stack → Label → Prop
  | .top _, label => label = .dict
  | .list label _ below, _ => below.Takes label
  | .key datval below, _ => below.Takes (.key datval)

/-- The root dictionary is open. -/
def Stack.Rooted (stack : Stack) : Prop := ∀ label, stack.Takes label

def Machine.Rooted : Machine → Prop
  | .running stack => stack.Rooted
  | .finished _ => True
  | .stuck => False

theorem Stack.Rooted.list {label : Label} {tags : Forest Label} {below : Stack} :
    (Stack.list label tags below).Rooted ↔ below.Takes label := ⟨fun h => h label, fun h _ => h⟩

theorem Stack.Rooted.key {datval : Bytes} {below : Stack} :
    (Stack.key datval below).Rooted ↔ below.Takes (.key datval) := ⟨fun h => h .dict, fun h _ => h⟩

/-- An element handed over is seen at the height of the stack. -/
theorem deliver_some_spec {stack : Stack} {label : Label} (h : stack.Takes label) (kids : Forest Label) :
    (deliver (some (label, kids)) stack).Rooted ∧
      (deliver (some (label, kids)) stack).trail =
        stack.trail ++ (stack.height, label) :: depths (stack.height + 1) kids := by
  induction stack generalizing label kids with
  | top held =>
      have hdict : label = .dict := h
      subst hdict
      exact ⟨trivial, rfl⟩
  | list outer tags below ih =>
      refine ⟨fun _ => h, ?_⟩
      show (Stack.list outer (tags ++ .cons label kids .nil) below).trail = _
      simp [Stack.trail, Stack.height, depths_append, depths]
  | key datval below ih =>
      have hbelow : below.Takes (.key datval) := h
      obtain ⟨hrooted, htrail⟩ := ih hbelow (.cons label kids .nil)
      refine ⟨hrooted, htrail.trans ?_⟩
      simp [Stack.trail, Stack.height, depths]

/-- Markup that is no element closes what is innermost, and is not seen. -/
theorem deliver_none_spec {stack : Stack} (h : stack.Rooted) :
    (deliver none stack).Rooted ∧ (deliver none stack).trail = stack.trail := by
  cases stack with
  | top held => cases h .array
  | list label tags below => exact deliver_some_spec (Stack.Rooted.list.1 h) tags
  | key datval below => exact deliver_some_spec (Stack.Rooted.key.1 h) .nil

theorem height_of_deliver_some {stack stack' : Stack} {r : Label × Forest Label}
    (h : deliver (some r) stack = .running stack') : stack'.height ≤ stack.height := by
  induction stack generalizing r with
  | top held =>
      rw [deliver] at h
      split at h
      · cases h
      · cases h
        exact Nat.le_refl _
  | list outer tags below ih =>
      cases h
      exact Nat.le_refl _
  | key datval below ih => exact Nat.le_succ_of_le (ih h)

theorem height_of_deliver_none {stack stack' : Stack} (hrooted : stack.Rooted)
    (h : deliver none stack = .running stack') : stack'.height < stack.height := by
  cases stack with
  | top held => cases hrooted .array
  | list label tags below => exact Nat.lt_succ_of_le (height_of_deliver_some h)
  | key datval below => exact Nat.lt_succ_of_le (height_of_deliver_some h)

/-- What one token adds to the trail. -/
def seen (height : Nat) (tok : Token) : List (Nat × Label) := (tok.label?.map fun label => (height, label)).toList

theorem step_spec {stack : Stack} (h : stack.Rooted) (tok : Token) :
    (Machine.running stack).step tok = .stuck ∨
      ((Machine.running stack).step tok).Rooted ∧
        ((Machine.running stack).step tok).trail = stack.trail ++ seen stack.height tok := by
  cases tok with
  | plist =>
      by_cases hheld : stack.held
      · exact Or.inl (if_pos hheld)
      · have hstep : (Machine.running stack).step .plist = deliver none stack := if_neg hheld
        rw [hstep]
        obtain ⟨hrooted, htrail⟩ := deliver_none_spec h
        exact Or.inr ⟨hrooted, by rw [htrail]; simp [seen, Token.label?]⟩
  | unknown =>
      obtain ⟨hrooted, htrail⟩ := deliver_none_spec h
      exact Or.inr ⟨hrooted, htrail.trans (by simp [seen, Token.label?])⟩
  | element label => exact Or.inr (deliver_some_spec (h label) .nil)
  | opens label =>
      refine Or.inr ⟨fun _ => h label, ?_⟩
      rfl
  | key datval =>
      refine Or.inr ⟨fun _ => h (.key datval), ?_⟩
      rfl
  | bad => exact Or.inl rfl

theorem trail_prefix_of_run {m : Machine} (h : m.Rooted) {toks : List Token} {f : Forest Label}
    (hrun : m.run toks = .finished f) : m.trail <+: (Machine.finished f).trail := by
  induction toks generalizing m with
  | nil =>
      rw [Machine.run_nil] at hrun
      rw [hrun]
  | cons tok toks ih =>
      cases m with
      | stuck => exact h.elim
      | finished g =>
          rw [Machine.run_finished] at hrun
          rw [hrun]
      | running stack =>
          rw [Machine.run_cons] at hrun
          rcases step_spec h tok with hstuck | ⟨hrooted, htrail⟩
          · rw [hstuck, Machine.run_stuck] at hrun
            cases hrun
          · have hlater := ih hrooted hrun
            rw [htrail] at hlater
            exact (List.prefix_append _ _).trans hlater

/-- A tree is made of the elements the tokens begin, in their order. -/
theorem labels_prefix_of_run {m : Machine} (h : m.Rooted) {toks : List Token} {f : Forest Label}
    (hrun : m.run toks = .finished f) :
    (Machine.finished f).trail.map Prod.snd <+: m.trail.map Prod.snd ++ toks.filterMap Token.label? := by
  induction toks generalizing m with
  | nil =>
      rw [Machine.run_nil] at hrun
      rw [hrun]
      exact List.prefix_append _ _
  | cons tok toks ih =>
      cases m with
      | stuck => exact h.elim
      | finished g =>
          rw [Machine.run_finished] at hrun
          rw [hrun]
          exact List.prefix_append _ _
      | running stack =>
          rw [Machine.run_cons] at hrun
          rcases step_spec h tok with hstuck | ⟨hrooted, htrail⟩
          · rw [hstuck, Machine.run_stuck] at hrun
            cases hrun
          · have hlater := ih hrooted hrun
            rw [htrail] at hlater
            have hlabels : (stack.trail ++ seen stack.height tok).map Prod.snd ++ toks.filterMap Token.label? =
                stack.trail.map Prod.snd ++ (tok :: toks).filterMap Token.label? := by
              rw [List.map_append, List.append_assoc, seen]
              rcases hlabel : tok.label? with _ | label <;> simp [hlabel]
            rwa [hlabels] at hlater

/-! ### Elements -/

/-- How an element begins: a leaf or an empty container, a container with its own end tag, a key. -/
inductive Opening where
  | leaf (label : Label)
  | list (label : Label)
  | key (datval : Bytes)
  deriving DecidableEq, Repr

def Opening.token : Opening → Token
  | .leaf label => .element label
  | .list label => .opens label
  | .key datval => .key datval

def Opening.label : Opening → Label
  | .leaf label => label
  | .list label => label
  | .key datval => .key datval

@[simp] theorem Opening.token_label? (o : Opening) : o.token.label? = some o.label := by
  cases o <;> rfl

/-- The tokens of some elements. -/
def stream : Forest Opening → List Token
  | .nil => []
  | .cons (.list label) kids next => .opens label :: (stream kids ++ .unknown :: stream next)
  | .cons o kids next => o.token :: (stream kids ++ stream next)

/-- Only containers hold elements, and keys at most one. -/
def Formed : Forest Opening → Prop
  | .nil => True
  | .cons o kids next =>
      (match o with
        | .leaf label => kids = .nil ∧ label.isKey = false
        | .list label => label.isKey = false
        | .key _ => kids = .nil ∨ ∃ o' kids', kids = .cons o' kids' .nil) ∧ Formed kids ∧ Formed next

def values (f : Forest Opening) : Forest Label := f.map Opening.label

theorem filterMap_stream (f : Forest Opening) : (stream f).filterMap Token.label? = (values f).labels := by
  induction f with
  | nil => rfl
  | cons o kids next ihk ihn =>
      rw [values] at ihk ihn
      cases o <;>
        simp [stream, values, Forest.map, Forest.labels, ihk, ihn, Opening.token, Opening.label, Token.label?,
          List.filterMap_cons]

/-- Where keys have no value: nowhere, at the very end only, or elsewhere. -/
def gaps : Forest Label → Option Bool
  | .nil => some false
  | .cons label kids next =>
      let own := if label.isKey ∧ kids = .nil then some true else gaps kids
      if next = .nil then own else if own = some false then gaps next else none

/-- What reading the tokens of some elements comes to: `done` is the machine once they are all handed
over. With a gap at the end that takes one more closing. -/
def StreamOutcome (stack : Stack) (toks : List Token) (target : List (Nat × Label)) (done : Machine) :
    Option Bool → Prop
  | some false => (Machine.running stack).run toks = done
  | some true => ∃ stack', (Machine.running stack).run toks = .running stack' ∧ stack'.Rooted ∧
      deliver none stack' = done ∧ stack.height < stack'.height ∧ stack'.trail = stack.trail ++ target
  | none => ∀ rest f, (Machine.running stack).run (toks ++ rest) = .finished f →
      ¬stack.trail ++ target <+: (Machine.finished f).trail

theorem not_prefix_of_mismatch {α : Type} {l t u : List α} {a b : α} (h : l ++ [a] <+: t) (hne : a ≠ b) :
    ¬l ++ b :: u <+: t := by
  intro h'
  obtain ⟨x, rfl⟩ := h
  obtain ⟨y, hy⟩ := h'
  rw [List.append_assoc, List.append_assoc, List.append_cancel_left_eq] at hy
  cases hy
  exact hne rfl

/-- Another element behind a gap is found too deep. -/
theorem broken_of_gap {stack stack' : Stack} {target : List (Nat × Label)} (hrooted : stack'.Rooted)
    (hheight : stack.height < stack'.height) (htrail : stack'.trail = stack.trail ++ target) (o : Opening)
    {toks : List Token} {label : Label} {more : List (Nat × Label)} {f : Forest Label}
    (hrun : (Machine.running stack').run (o.token :: toks) = .finished f) :
    ¬stack.trail ++ (target ++ (stack.height, label) :: more) <+: (Machine.finished f).trail := by
  rw [Machine.run_cons] at hrun
  rcases step_spec hrooted o.token with hstuck | ⟨hrooted', htrail'⟩
  · rw [hstuck, Machine.run_stuck] at hrun
    cases hrun
  · have hpre := trail_prefix_of_run hrooted' hrun
    have hseen : seen stack'.height o.token = [(stack'.height, o.label)] := by simp [seen]
    rw [htrail', hseen, htrail] at hpre
    rw [← List.append_assoc]
    refine not_prefix_of_mismatch hpre ?_
    intro h
    have hsame : stack'.height = stack.height := congrArg Prod.fst h
    omega

theorem stream_cons (o : Opening) (kids next : Forest Opening) :
    stream (.cons o kids next) = stream (.cons o kids .nil) ++ stream next := by
  cases o <;> simp [stream]

theorem exists_stream_cons (o : Opening) (kids next : Forest Opening) :
    ∃ toks, stream (.cons o kids next) = o.token :: toks := by
  cases o <;> exact ⟨_, rfl⟩

/-- The gaps of one element, and of an element before others. -/
theorem gaps_cons (label : Label) (kids next : Forest Label) :
    gaps (.cons label kids next) =
      match gaps (.cons label kids .nil) with
      | some false => gaps next
      | some true => if next = .nil then some true else none
      | none => none := by
  cases next with
  | nil =>
      rcases gaps (.cons label kids .nil) with _ | _ | _ <;> rfl
  | cons label' kids' next' =>
      rw [gaps, if_neg (by simp)]
      have hown : gaps (.cons label kids .nil) = if label.isKey ∧ kids = .nil then some true else gaps kids := rfl
      rw [hown]
      rcases (if label.isKey ∧ kids = .nil then some true else gaps kids) with _ | _ | _ <;> rfl

/-- One element. -/
def ElementSpec (o : Opening) (kids : Forest Opening) : Prop :=
  ∀ stack : Stack, stack.Takes o.label →
    StreamOutcome stack (stream (.cons o kids .nil)) (depths stack.height (values (.cons o kids .nil)))
      (deliver (some (o.label, values kids)) stack) (gaps (values (.cons o kids .nil)))

/-- Elements of an open container. -/
def ElementsSpec (f : Forest Opening) : Prop :=
  ∀ label tags below, (Stack.list label tags below).Rooted →
    StreamOutcome (.list label tags below) (stream f) (depths (below.height + 1) (values f))
      (.running (.list label (tags ++ values f) below)) (gaps (values f))

theorem element_leaf {label : Label} (h : label.isKey = false) : ElementSpec (.leaf label) .nil := by
  intro stack _
  have hgaps : gaps (values (.cons (.leaf label) .nil .nil)) = some false := by
    simp [values, Forest.map, gaps, Opening.label, h]
  rw [hgaps]
  rfl

theorem element_list {label : Label} {kids : Forest Opening} (h : label.isKey = false) (hkids : ElementsSpec kids) :
    ElementSpec (.list label) kids := by
  intro stack htakes
  have hgaps : gaps (values (.cons (.list label) kids .nil)) = gaps (values kids) := by
    simp [values, Forest.map, gaps, Opening.label, h]
  have hrooted : (Stack.list label .nil stack).Rooted := Stack.Rooted.list.2 htakes
  have hread := hkids label .nil stack hrooted
  rw [hgaps]
  have hrun : ∀ rest, (Machine.running stack).run (stream (.cons (.list label) kids .nil) ++ rest) =
      ((Machine.running (.list label .nil stack)).run (stream kids)).run (.unknown :: rest) := by
    intro rest
    rw [← Machine.run_append]
    simp only [stream, List.cons_append, List.append_assoc, List.nil_append]
    rfl
  have hrun' := hrun []
  rw [List.append_nil] at hrun'
  rcases hg : gaps (values kids) with _ | _ | _ <;> rw [hg] at hread
  · intro rest f hfinished hpre
    rw [hrun, ← Machine.run_append] at hfinished
    refine hread _ f hfinished ?_
    simpa [Stack.trail, depths, values, Forest.map, Opening.label] using hpre
  · exact hrun'.trans (by rw [show (Machine.running _).run _ = _ from hread]; rfl)
  · obtain ⟨stack', hkidsRun, -, hdone, -, -⟩ := hread
    refine ⟨.list label (values kids) stack, ?_, Stack.Rooted.list.2 htakes, rfl, Nat.lt_succ_self _, ?_⟩
    · rw [hrun', hkidsRun, Machine.run_cons]
      exact hdone
    · simp [Stack.trail, depths, values, Forest.map, Opening.label]

theorem element_key {datval : Bytes} {kids : Forest Opening}
    (hkids : kids = .nil ∨ ∃ o kids', kids = .cons o kids' .nil ∧ ElementSpec o kids') :
    ElementSpec (.key datval) kids := by
  intro stack htakes
  have hrooted : (Stack.key datval stack).Rooted := Stack.Rooted.key.2 htakes
  rcases hkids with rfl | ⟨o, kids', rfl, hvalue⟩
  · exact ⟨.key datval stack, rfl, hrooted, rfl, Nat.lt_succ_self _, rfl⟩
  · have hgaps : gaps (values (.cons (.key datval) (.cons o kids' .nil) .nil)) = gaps (values (.cons o kids' .nil)) := by
      simp [values, Forest.map, gaps]
    have hread := hvalue (.key datval stack) (hrooted o.label)
    rw [hgaps]
    have hrun : ∀ rest, (Machine.running stack).run (stream (.cons (.key datval) (.cons o kids' .nil) .nil) ++ rest) =
        (Machine.running (.key datval stack)).run (stream (.cons o kids' .nil) ++ rest) := by
      intro rest
      have hkey : stream (.cons (.key datval) (.cons o kids' .nil) .nil) =
          .key datval :: (stream (.cons o kids' .nil) ++ []) := rfl
      rw [hkey, List.append_nil]
      rfl
    have hrun' := hrun []
    rw [List.append_nil, List.append_nil] at hrun'
    rcases hg : gaps (values (.cons o kids' .nil)) with _ | _ | _ <;> rw [hg] at hread
    · intro rest f hfinished hpre
      rw [hrun] at hfinished
      refine hread _ f hfinished ?_
      simpa [Stack.trail, Stack.height, depths, values, Forest.map, Opening.label] using hpre
    · exact hrun'.trans hread
    · obtain ⟨stack', hrun₁, hrooted', hdone, hheight, htrail⟩ := hread
      refine ⟨stack', hrun'.trans hrun₁, hrooted', hdone, Nat.lt_of_succ_lt hheight, htrail.trans ?_⟩
      simp [Stack.trail, Stack.height, depths, values, Forest.map, Opening.label]

theorem elements_cons {o : Opening} {kids next : Forest Opening} (hfirst : ElementSpec o kids)
    (hnext : ElementsSpec next) : ElementsSpec (.cons o kids next) := by
  intro label tags below hrooted
  have hread := hfirst (.list label tags below) (hrooted o.label)
  have hgaps := gaps_cons o.label (values kids) (values next)
  have hsplit : ∀ rest, (Machine.running (.list label tags below)).run (stream (.cons o kids next) ++ rest) =
      ((Machine.running (.list label tags below)).run (stream (.cons o kids .nil))).run (stream next ++ rest) := by
    intro rest
    rw [stream_cons, List.append_assoc, Machine.run_append]
  have hsplit' := hsplit []
  rw [List.append_nil, List.append_nil] at hsplit'
  have htarget : depths (below.height + 1) (values (.cons o kids next)) =
      depths (below.height + 1) (values (.cons o kids .nil)) ++ depths (below.height + 1) (values next) := by
    simp [values, Forest.map, depths]
  have htags : tags ++ .cons o.label (values kids) .nil ++ values next = tags ++ values (.cons o kids next) := by
    rw [Forest.append_assoc]
    rfl
  rw [show gaps (values (.cons o kids next)) = _ from hgaps]
  rcases hg : gaps (.cons o.label (values kids) .nil) with _ | _ | _ <;>
    rw [show gaps (values (.cons o kids .nil)) = _ from hg] at hread <;> simp only
  · intro rest f hfinished hpre
    rw [stream_cons, List.append_assoc] at hfinished
    refine hread _ f hfinished ?_
    rw [htarget, ← List.append_assoc] at hpre
    exact (List.prefix_append _ _).trans hpre
  · have hlater := hnext label (tags ++ .cons o.label (values kids) .nil) below hrooted
    have hstart : (Machine.running (.list label tags below)).run (stream (.cons o kids .nil)) =
        .running (.list label (tags ++ .cons o.label (values kids) .nil) below) := hread
    have htrail : (Stack.list label (tags ++ .cons o.label (values kids) .nil) below).trail =
        (Stack.list label tags below).trail ++ depths (below.height + 1) (values (.cons o kids .nil)) := by
      simp [Stack.trail, depths_append, values, Forest.map]
    rw [htags] at hlater
    rcases hgn : gaps (values next) with _ | _ | _ <;> rw [hgn] at hlater
    · intro rest f hfinished hpre
      rw [hsplit, hstart] at hfinished
      refine hlater rest f hfinished ?_
      rwa [htrail, List.append_assoc, ← htarget]
    · exact hsplit'.trans (by rw [hstart]; exact hlater)
    · obtain ⟨stack', hrun, hrooted', hdone, hheight, htrail'⟩ := hlater
      refine ⟨stack', hsplit'.trans (by rw [hstart]; exact hrun), hrooted', hdone, hheight, ?_⟩
      rw [htrail', htrail, List.append_assoc, ← htarget]
  · obtain ⟨stack', hrun, hrooted', hdone, hheight, htrail⟩ := hread
    cases next with
    | nil =>
        rw [if_pos (show values .nil = .nil from rfl)]
        refine ⟨stack', hsplit'.trans hrun, hrooted', ?_, hheight, htrail.trans ?_⟩
        · rw [hdone, ← htags, show values .nil = .nil from rfl, Forest.append_nil]
          rfl
        · rw [htarget]
          simp [values, Forest.map, depths, Stack.height]
    | cons o' kids' next' =>
        rw [if_neg (by simp [values, Forest.map])]
        intro rest f hfinished hpre
        obtain ⟨toks, htoks⟩ := exists_stream_cons o' kids' next'
        rw [hsplit, hrun, htoks] at hfinished
        rw [htarget] at hpre
        exact broken_of_gap hrooted' hheight htrail o' hfinished hpre

theorem stream_spec (f : Forest Opening) (h : Formed f) :
    ElementsSpec f ∧ ∀ o kids next, f = .cons o kids next → ElementSpec o kids := by
  induction f with
  | nil =>
      refine ⟨?_, fun _ _ _ h => by cases h⟩
      intro label tags below _
      show (Machine.running (.list label tags below)).run [] = _
      simp [values, Forest.map]
  | cons o kids next ihk ihn =>
      obtain ⟨ho, hkids, hnext⟩ := h
      have helement : ElementSpec o kids := by
        cases o with
        | leaf label =>
            obtain ⟨rfl, hkey⟩ := ho
            exact element_leaf hkey
        | list label => exact element_list ho (ihk hkids).1
        | key datval =>
            refine element_key ?_
            rcases ho with rfl | ⟨o', kids', rfl⟩
            · exact Or.inl rfl
            · exact Or.inr ⟨o', kids', rfl, (ihk hkids).2 _ _ _ rfl⟩
      refine ⟨elements_cons helement (ihn hnext).1, ?_⟩
      rintro _ _ _ ⟨⟩
      exact helement

/-! ### The tree built -/

/-- Only containers and keys hold elements. -/
def Shaped : Forest Label → Prop
  | .nil => True
  | .cons label kids next => (label.isBag ∨ kids = .nil) ∧ Shaped kids ∧ Shaped next

theorem Shaped.append {f g : Forest Label} (hf : Shaped f) (hg : Shaped g) : Shaped (f ++ g) := by
  induction f with
  | nil => exact hg
  | cons label kids next _ ih => exact ⟨hf.1, hf.2.1, ih hf.2.2⟩

def Stack.Shaped : Stack → Prop
  | .top _ => True
  | .list label tags below => label.isBag ∧ Plist.Shaped tags ∧ below.Shaped
  | .key _ below => below.Shaped

def Machine.Shaped : Machine → Prop
  | .running stack => stack.Shaped
  | .finished dict => Plist.Shaped dict
  | .stuck => True

theorem deliver_some_shaped {stack : Stack} (h : stack.Shaped) {label : Label} {kids : Forest Label}
    (hlabel : label.isBag ∨ kids = .nil) (hkids : Shaped kids) :
    (deliver (some (label, kids)) stack).Shaped := by
  induction stack generalizing label kids with
  | top held =>
      rw [deliver]
      split
      · exact hkids
      · trivial
  | list outer tags below _ => exact ⟨h.1, h.2.1.append ⟨hlabel, hkids, trivial⟩, h.2.2⟩
  | key datval below ih => exact ih h (Or.inl rfl) ⟨hlabel, hkids, trivial⟩

theorem deliver_none_shaped {stack : Stack} (h : stack.Shaped) : (deliver none stack).Shaped := by
  cases stack with
  | top held => trivial
  | list label tags below => exact deliver_some_shaped h.2.2 (Or.inl h.1) h.2.1
  | key datval below =>
      have hbelow : below.Shaped := h
      have hkey : (Label.key datval).isBag ∨ (.nil : Forest Label) = .nil := Or.inl rfl
      exact deliver_some_shaped hbelow hkey trivial

theorem step_shaped {m : Machine} (h : m.Shaped) {tok : Token} (htok : ∀ label, tok = .opens label → label.isBag) :
    (m.step tok).Shaped := by
  cases m with
  | stuck => cases tok <;> trivial
  | finished f => cases tok <;> exact h
  | running stack =>
      cases tok with
      | plist =>
          rw [Machine.step]
          split
          · trivial
          · exact deliver_none_shaped h
      | unknown => exact deliver_none_shaped h
      | element label => exact deliver_some_shaped h (Or.inr rfl) trivial
      | opens label => exact ⟨htok label rfl, trivial, h⟩
      | key datval => exact h
      | bad => trivial

theorem run_shaped {m : Machine} (h : m.Shaped) {toks : List Token}
    (htoks : ∀ label, .opens label ∈ toks → label.isBag) : (m.run toks).Shaped := by
  induction toks generalizing m with
  | nil => exact h
  | cons tok toks ih =>
      refine ih (step_shaped h fun label hl => htoks label (hl ▸ List.mem_cons_self)) ?_
      exact fun label hl => htoks label (List.mem_cons_of_mem _ hl)

theorem isBag_of_nextToken {env : Env} {total : Nat} {u rest : Bytes} {label : Label}
    (h : nextToken env total u = some (.opens label, rest)) : label.isBag := by
  rw [nextToken, Option.bind_eq_some_iff] at h
  obtain ⟨⟨before, name, r⟩, -, h⟩ := h
  simp only at h
  cases hm : markupOf name <;> rw [hm] at h <;>
    simp only [elementToken, Option.map_eq_some_iff, Option.some.injEq, Prod.mk.injEq, reduceCtorEq, false_and,
      and_false, exists_false] at h
  case list type empty =>
    cases empty with
    | false =>
        obtain ⟨hlabel, -⟩ := h
        cases hlabel
        cases type <;> rfl
    | true => cases h.1
  case data =>
    obtain ⟨⟨body, r'⟩, -, h, -⟩ := h
    unfold dataToken at h
    split at h
    · split at h <;> cases h
    · cases h
  case integer =>
    obtain ⟨⟨body, r'⟩, -, h⟩ := h
    unfold integerToken at h
    split at h
    · simp only at h
      split at h <;> cases h
    · cases h

theorem isBag_of_mem_tokens {env : Env} {total : Nat} {u : Bytes} {label : Label}
    (h : .opens label ∈ tokens env total u) : label.isBag := by
  induction hn : u.length using Nat.strong_induction_on generalizing u with
  | h n ih =>
      subst hn
      rcases hu : nextToken env total u with _ | ⟨tok, rest⟩
      · rw [tokens_of_none hu] at h
        cases h
      · rw [tokens_of_some hu] at h
        rcases List.mem_cons.1 h with rfl | h
        · exact isBag_of_nextToken hu
        · exact ih rest.length (length_lt_of_nextToken hu) h rfl

theorem parseText_shaped (env : Env) (text : Bytes) : (parseText env text).Shaped :=
  run_shaped (m := .running (.top false)) trivial fun _ h => isBag_of_mem_tokens h

/-- What is added to a bag ends up behind what it holds. -/
theorem eq_of_plNodeAdd {bag node bag' : Node} (h : plNodeAdd bag node = some bag') :
    bag' = ⟨bag.label, bag.kids ++ .single node⟩ := by
  obtain ⟨label, kids⟩ := bag
  cases label <;> simp only [plNodeAdd] at h
  case dict =>
    split at h
    · cases h
      rfl
    · cases h
  case array =>
    cases h
    rfl
  case key =>
    split at h
    · rename_i hkids
      cases h
      rw [hkids]
      rfl
    · cases h
  all_goals cases h

theorem eq_of_plNodeAddAll {f : Forest Label} {pn t : Node} (h : plNodeAddAll pn f = some t) :
    t = ⟨pn.label, pn.kids ++ f⟩ := by
  induction f generalizing pn with
  | nil =>
      cases h
      simp
  | cons label kids next _ ih =>
      rw [plNodeAddAll, Option.bind_eq_some_iff] at h
      obtain ⟨pn', hadd, h⟩ := h
      rw [ih h, eq_of_plNodeAdd hadd]
      simp [Forest.append_assoc, Forest.single]

/-- Nothing can be added to a node that is no bag. -/
theorem nil_of_plNodeAddAll {label : Label} (hlabel : label.isBag = false) {f : Forest Label} {t : Node}
    (h : plNodeAddAll (.leaf label) f = some t) : f = .nil := by
  cases f with
  | nil => rfl
  | cons l kids next =>
      rw [plNodeAddAll, Option.bind_eq_some_iff] at h
      obtain ⟨pn, hadd, -⟩ := h
      cases label <;> cases hlabel <;> cases hadd

theorem eq_of_growForest {f : Forest Label} (h : Shaped f) {pn t : Node} (hgrow : growForest f pn = some t) :
    t = ⟨pn.label, pn.kids ++ f⟩ := by
  induction f generalizing pn t with
  | nil =>
      cases hgrow
      simp
  | cons label kids next ihk ihn =>
      rw [growForest_cons, Option.bind_eq_some_iff] at hgrow
      obtain ⟨pn', hadd, hgrow⟩ := hgrow
      obtain ⟨wn, hvalue, hadd⟩ := Option.bind_eq_some_iff.1 hadd
      have hwn : wn = ⟨label, kids⟩ := by
        rw [growValue] at hvalue
        split at hvalue
        · cases hvalue
        · split at hvalue
          · rw [ihk h.2.1 hvalue]
            rfl
          · rename_i hbag
            rcases h.1 with hbag' | rfl
            · exact absurd hbag' hbag
            · cases hvalue
              rfl
      rw [ihn h.2.2 hgrow, eq_of_plNodeAdd hadd, hwn]
      show (⟨pn.label, pn.kids ++ .single ⟨label, kids⟩ ++ next⟩ : Node) = _
      rw [Forest.append_assoc]
      rfl

/-- A tree comes from the machine that delivered its elements. -/
theorem finished_of_tree {env : Env} {text : Bytes} {t : Node} (h : (parseText env text).tree = some t) :
    parseText env text = .finished t.kids ∧ t.label = .dict := by
  have hshaped := parseText_shaped env text
  rcases hm : parseText env text with stack | f | _ <;> rw [hm] at h hshaped
  · cases h
  · rw [eq_of_growForest hshaped h]
    exact ⟨rfl, rfl⟩
  · cases h

/-- Without dates a built forest grows back. -/
theorem growForest_of_addAll {f : Forest Label} (hbuilt : Built f) (hdate : ∀ label ∈ f.labels, label.isDate = false)
    {pn t : Node} (h : plNodeAddAll pn f = some t) : growForest f pn = some t := by
  induction f generalizing pn t with
  | nil => exact h
  | cons label kids next ihk ihn =>
      simp only [Forest.labels, List.mem_cons, List.mem_append] at hdate
      obtain ⟨⟨bag, hbag⟩, hkids, hnext⟩ := hbuilt
      rw [plNodeAddAll, Option.bind_eq_some_iff] at h
      obtain ⟨pn', hadd, h⟩ := h
      have hgrown := ihk hkids (fun l hl => hdate l (Or.inr (Or.inl hl))) hbag
      have hvalue : growValue label kids = some ⟨label, kids⟩ := by
        rw [growValue, hdate label (Or.inl rfl), if_neg Bool.false_ne_true]
        by_cases hlabel : label.isBag
        · rw [if_pos hlabel, hgrown, eq_of_plNodeAddAll hbag]
          rfl
        · rw [if_neg hlabel, nil_of_plNodeAddAll (Bool.eq_false_iff.2 hlabel) hbag]
          rfl
      rw [growForest_cons, hvalue, Option.bind_some, hadd]
      exact ihn hnext (fun l hl => hdate l (Or.inr (Or.inr hl))) h

end BareBoot.Plist
