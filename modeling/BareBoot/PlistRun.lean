import BareBoot.PlistSimulation

/-! Whole calls of `plXmlToNode`: the loop at top level, growing the tree, freeing the tags and the
cleanup. A call that no event is to blame for ends, and returns the tree of what the machine makes of
the text. -/

namespace BareBoot.Plist

open Exec

/-! ### Growing the tree -/

section Grow
variable {blame : Prop} {env : Env}

theorem release_all_spec (pools : List Pool) (s : Parser) :
    Runs blame (pools.forM release) s fun _ t => t = s := by
  induction pools with
  | nil => exact Under.pure rfl
  | cons pool pools ih =>
      refine Under.bind (release_spec pool s) ?_
      rintro _ _ rfl
      exact ih

/-- What growing does to the parser: it takes memory from the pool. -/
def Drew (s t : Parser) : Prop := Kept s t ∧ t.toTagStore = s.toTagStore

theorem Drew.refl (s : Parser) : Drew s s := ⟨Kept.refl s, rfl⟩

theorem Drew.trans {s t u : Parser} (h : Drew s t) (h' : Drew t u) : Drew s u :=
  ⟨h.1.trans h'.1, h'.2.trans h.2⟩

theorem deleteNode_spec (node : Option Node) (s : Parser) :
    Runs blame (deleteNode node) s fun _ t => Drew s t := by
  refine (release_all_spec _ s).mono id ?_
  rintro _ _ rfl
  exact Drew.refl _

theorem growMap_spec (asiz : Nat) (s : Parser) :
    Runs blame (growMap env asiz) s fun ok t => Drew s t ∧ (ok = false → ¬env.Ample) := by
  refine Under.bind (allocate_spec .map s) ?_
  rintro ok t ⟨hok, hkept, hstore⟩
  by_cases h : ok ∧ 0 < asiz
  · rw [if_pos h]
    refine Under.bind (release_spec .map t) ?_
    rintro _ _ rfl
    exact Under.pure ⟨⟨hkept, hstore⟩, fun h => by cases h⟩
  · rw [if_neg h]
    exact Under.pure ⟨⟨hkept, hstore⟩, hok⟩

/-- The answer of a function that adds to a bag: the bag added to, or a failure. -/
def Answers : Option Node → Bool × Option Node → Prop
  | some added, r => r = (true, some added)
  | none, r => r.1 = false

theorem answers_false {added bag : Option Node} (h : Answers added (false, bag)) : added = none := by
  cases added with
  | none => rfl
  | some node => cases h

theorem answers_true {added bag : Option Node} (h : Answers added (true, bag)) : added = bag := by
  cases added with
  | none => cases h
  | some node =>
      cases h
      rfl

def Adds (env : Env) (bag : Option Node) (added : Node → Option Node) (r : Bool × Option Node) : Prop :=
  env.Ample → ∀ node, bag = some node → Answers (added node) r

theorem addNode_spec (bag : Option Node) (node : Node) (s : Parser) :
    Runs blame (addNode env bag node) s fun r t =>
      Drew s t ∧ Adds env bag (plNodeAdd · node) r ∧ (r.1 = true → r.2.isSome) := by
  unfold addNode
  rcases hadd : bag.bind fun b => plNodeAdd b node with _ | added
  · refine Under.pure ⟨Drew.refl s, ?_, fun h => by cases h⟩
    rintro - b rfl
    rw [Option.bind_some] at hadd
    show Answers (plNodeAdd b node) _
    rw [hadd]
    rfl
  · have hall : ∀ b, bag = some b → plNodeAdd b node = some added := by
      rintro b rfl
      rwa [Option.bind_some] at hadd
    simp only
    split
    · refine Under.pure ⟨Drew.refl s, fun _ b hb => ?_, fun _ => rfl⟩
      show Answers (plNodeAdd b node) _
      rw [hall b hb]
      rfl
    · refine Under.bind (growMap_spec _ s) ?_
      rintro (_ | _) t ⟨hdrew, hok⟩
      · exact Under.pure ⟨hdrew, fun h => absurd h (hok rfl), fun h => by cases h⟩
      · rw [if_pos rfl]
        refine Under.pure ⟨hdrew, fun _ b hb => ?_, fun _ => rfl⟩
        show Answers (plNodeAdd b node) _
        rw [hall b hb]
        rfl

theorem newNode_spec (label : Label) (s : Parser) :
    Runs blame (newNode env label) s fun r t =>
      Drew s t ∧ (r = none → ¬env.Ample) ∧ ∀ node, r = some node → node = .leaf label := by
  refine Under.bind (allocate_spec .node s) ?_
  rintro (_ | _) t ⟨hok, hkept, hstore⟩
  · exact Under.pure ⟨⟨hkept, hstore⟩, fun _ => hok rfl, fun _ h => by cases h⟩
  · rw [if_pos rfl]
    refine Under.pure ⟨⟨hkept, hstore⟩, fun h => (by cases h), ?_⟩
    rintro _ ⟨⟩
    rfl

theorem newScalar_spec (hblame : ¬env.Ample → blame) (label : Label) (s : Parser) :
    Runs blame (newScalar env label) s fun r t => Drew s t ∧ r = some (.leaf label) := by
  refine Under.bind (newNode_spec label s) ?_
  rintro (_ | node) t ⟨hdrew, hnone, hnode⟩
  · exact Under.emit_bind (fun hg => hg.elim) fun _ => hblame (hnone rfl)
  · rw [hnode node rfl]
    exact Under.pure ⟨hdrew, rfl⟩

/-- A node with bytes: what the tag's `dataLen` counts, or nothing when the tag has no bytes at all. -/
theorem newDatum_spec (label : Bytes → Label) {datum : Option Bytes} {dlen : Nat}
    (h : (datum = none ∧ dlen = 0) ∨ ∃ d, datum = some d ∧ dlen = d.length) (hsmall : dlen + 1 < 2 ^ 32)
    (s : Parser) :
    Runs blame (newDatum env label datum dlen) s fun r t =>
      Drew s t ∧ (env.Ample → r = datum.map fun d => .leaf (label d)) := by
  unfold newDatum
  rcases h with ⟨rfl, rfl⟩ | ⟨d, rfl, rfl⟩
  · rw [if_pos ⟨rfl, rfl⟩]
    exact Under.pure ⟨Drew.refl s, fun _ => rfl⟩
  · rw [if_neg (by simp)]
    refine Under.bind (allocate_spec .node s) ?_
    rintro (_ | _) t ⟨hok, hkept, hstore⟩
    · exact Under.pure ⟨⟨hkept, hstore⟩, fun h => absurd h (hok rfl)⟩
    · have hne : addU32 d.length 1 ≠ 0 := by
        rw [addU32, Nat.mod_eq_of_lt hsmall]
        omega
      rw [if_pos rfl, if_neg hne]
      refine Under.bind (allocate_spec .datum t) ?_
      rintro (_ | _) t' ⟨hok', hkept', hstore'⟩
      · refine Under.bind (release_spec .node t') ?_
        rintro _ _ rfl
        exact Under.pure ⟨⟨hkept.trans hkept', hstore'.trans hstore⟩, fun h => absurd h (hok' rfl)⟩
      · have hdrew : Drew s t' := ⟨hkept.trans hkept', hstore'.trans hstore⟩
        rw [if_pos rfl]
        by_cases hd : d.length = 0
        · rw [if_pos hd]
          refine Under.pure ⟨hdrew, fun _ => ?_⟩
          rw [List.length_eq_zero_iff.1 hd]
          rfl
        · rw [if_neg hd]
          simp only
          rw [if_pos (Nat.le_refl _), List.take_length]
          exact Under.pure ⟨hdrew, fun _ => rfl⟩

theorem growLeaf_spec (pn wn : Option Node) (s : Parser) :
    Runs blame (growLeaf env pn wn) s fun r t =>
      Drew s t ∧ Adds env pn (fun b => wn.bind (plNodeAdd b ·)) r ∧ (r.1 = true → r.2.isSome) := by
  cases wn with
  | none => exact Under.pure ⟨Drew.refl s, fun _ _ _ => rfl, fun h => by cases h⟩
  | some wn =>
      refine Under.bind (addNode_spec pn wn s) ?_
      rintro ⟨_ | _, pn'⟩ t h
      · exact Under.emit_bind (fun _ => ⟨trivial, Under.pure h⟩) fun hg => absurd trivial hg
      · exact Under.pure h

/-- Growing a list of tags does not touch the tags, and adds what `growForest` adds. -/
def GrowSpec (env : Env) (blame : Prop) (grow : Option Nat → Option Node → ParserM (Bool × Option Node))
    (f : Cells TagBody) (s : Parser) : Prop :=
  ∀ t pn, Drew s t → Runs blame (grow (Cells.head f) pn) t fun r u =>
    Drew s u ∧ (pn.isSome → r.1 = true → r.2.isSome) ∧
      ∀ kids, Shows f kids → Adds env pn (growForest kids) r

theorem plGrowBag_spec {grow : Option Nat → Option Node → ParserM (Bool × Option Node)} {s t : Parser}
    {ipl : Tag} {sub : Cells TagBody} (hgrow : GrowSpec env blame grow sub s) (hsub : ipl.tag = Cells.head sub)
    (ht : Drew s t) (parn bagn : Option Node) :
    Runs blame (plGrowBag env grow ipl parn bagn) t fun r u =>
      Drew s u ∧ (r.1 = true → r.2.isSome) ∧ ∀ kids, Shows sub kids → ∀ bag, bagn = some bag →
        Adds env parn (fun node => (growForest kids bag).bind (plNodeAdd node ·)) r := by
  cases bagn with
  | none => exact Under.pure ⟨ht, fun h => (by cases h), fun _ _ _ h => by cases h⟩
  | some bag =>
      unfold plGrowBag
      simp only
      rw [hsub]
      refine Under.bind (hgrow t (some bag) ht) ?_
      rintro ⟨_ | _, bagn⟩ u ⟨hu, hsome, hadds⟩
      · refine Under.bind (deleteNode_spec bagn u) ?_
        rintro _ v hv
        refine Under.pure ⟨hu.trans hv, fun h => (by cases h), ?_⟩
        rintro kids hkids _ ⟨⟩ hample node -
        show Answers ((growForest kids bag).bind _) _
        rw [answers_false (hadds kids hkids hample bag rfl)]
        rfl
      · obtain ⟨bag', rfl⟩ := Option.isSome_iff_exists.1 (hsome rfl rfl)
        have hgrown : ∀ kids, Shows sub kids → env.Ample → growForest kids bag = some bag' :=
          fun kids hkids hample => answers_true (hadds kids hkids hample bag rfl)
        refine Under.bind (addNode_spec parn bag' u) ?_
        rintro ⟨_ | _, parn'⟩ v ⟨hv, hadd, hadded⟩
        · refine Under.bind (deleteNode_spec (some bag') v) ?_
          rintro _ w hw
          refine Under.pure ⟨(hu.trans hv).trans hw, fun h => (by cases h), ?_⟩
          rintro kids hkids _ ⟨⟩ hample node hnode
          have hrefused : plNodeAdd node bag' = none := answers_false (hadd hample node hnode)
          show Answers ((growForest kids bag).bind (plNodeAdd node ·)) _
          rw [hgrown kids hkids hample, Option.bind_some, hrefused]
          rfl
        · refine Under.pure ⟨hu.trans hv, fun _ => hadded rfl, ?_⟩
          rintro kids hkids _ ⟨⟩ hample node hnode
          show Answers ((growForest kids bag).bind _) _
          rw [hgrown kids hkids hample, Option.bind_some]
          exact hadd hample node hnode

/-- What adding the node of one tag comes to. -/
def ItemDone (env : Env) (s : Parser) (b : TagBody) (sub : Cells TagBody) (pn : Option Node)
    (r : Bool × Option Node) (u : Parser) : Prop :=
  Drew s u ∧ (r.1 = true → r.2.isSome) ∧ ∀ label kids, b.Shows label → Shows sub kids →
    Adds env pn (fun node => (growValue label kids).bind (plNodeAdd node ·)) r

section Item
variable {s t : Parser} {b : TagBody} {sub : Cells TagBody} {next : Option Nat} {make : ParserM (Option Node)}
  {grow : Option Nat → Option Node → ParserM (Bool × Option Node)}

theorem growBag_item (hgrow : GrowSpec env blame grow sub s) (ht : Drew s t) (label : Label)
    (hbag : label.isBag) (hmake : Runs blame make t fun r u => Drew t u ∧ (env.Ample → r = some (.leaf label)))
    (hlabel : ∀ label', b.Shows label' → label' = label) (pn : Option Node) :
    Runs blame (make >>= plGrowBag env grow ⟨b, Cells.head sub, next⟩ pn) t (ItemDone env s b sub pn) := by
  refine Under.bind hmake ?_
  rintro bagn u ⟨hu, hbagn⟩
  refine (plGrowBag_spec hgrow rfl (ht.trans hu) pn bagn).mono id ?_
  rintro r v ⟨hv, hsome, hadds⟩
  refine ⟨hv, hsome, ?_⟩
  intro label' kids hshows hkids hample
  have hvalue : growValue label' kids = growForest kids (.leaf label) := by
    rw [hlabel label' hshows]
    cases label <;> first | rfl | cases hbag
  show ∀ node, pn = some node → Answers ((growValue label' kids).bind _) r
  rw [hvalue]
  exact hadds kids hkids _ (hbagn hample) hample

theorem growLeaf_item (ht : Drew s t) (value : Option Node)
    (hmake : Runs blame make t fun r u => Drew t u ∧ (env.Ample → r = value))
    (hvalue : ∀ label kids, b.Shows label → growValue label kids = value) (pn : Option Node) :
    Runs blame (make >>= growLeaf env pn) t (ItemDone env s b sub pn) := by
  refine Under.bind hmake ?_
  rintro wn u ⟨hu, hwn⟩
  refine (growLeaf_spec pn wn u).mono id ?_
  rintro r v ⟨hv, hadds, hsome⟩
  refine ⟨(ht.trans hu).trans hv, hsome, ?_⟩
  intro label kids hshows _ hample
  show ∀ node, pn = some node → Answers ((growValue label kids).bind _) r
  rw [hvalue label kids hshows, ← hwn hample]
  exact hadds hample

/-- What a tag of some type can show. -/
theorem growItem_spec (hblame : ¬env.Ample → blame) (hgrow : GrowSpec env blame grow sub s) (ht : Drew s t)
    (hsane : b.Sane) (pn : Option Node) :
    Runs blame (growItem env grow ⟨b, Cells.head sub, next⟩ pn) t (ItemDone env s b sub pn) := by
  have hnode : ∀ label, Runs blame (newNode env label) t fun r u =>
      Drew t u ∧ (env.Ample → r = some (.leaf label)) := by
    intro label
    refine (newNode_spec label t).mono id ?_
    rintro (_ | node) u ⟨hu, hnone, hsome⟩
    · exact ⟨hu, fun h => absurd h (hnone rfl)⟩
    · exact ⟨hu, fun _ => congrArg some (hsome node rfl)⟩
  have hscalar : ∀ label, Runs blame (newScalar env label) t fun r u =>
      Drew t u ∧ (env.Ample → r = some (.leaf label)) :=
    fun label => (newScalar_spec hblame label t).mono id fun _ _ h => ⟨h.1, fun _ => h.2⟩
  have hbag : ∀ label make, label.isBag = true → b.Shows label →
      (Runs blame make t fun r u => Drew t u ∧ (env.Ample → r = some (.leaf label))) →
      Runs blame (make >>= plGrowBag env grow ⟨b, Cells.head sub, next⟩ pn) t (ItemDone env s b sub pn) :=
    fun label _ hlabel hshows hmake =>
      growBag_item hgrow ht label hlabel hmake (fun _ h => hshows.unique h) pn
  have hleaf : ∀ label make, label.isBag = false → label.isDate = false → b.Shows label →
      (Runs blame make t fun r u => Drew t u ∧ (env.Ample → r = some (.leaf label))) →
      Runs blame (make >>= growLeaf env pn) t (ItemDone env s b sub pn) := by
    intro label make hbag hdate hshows hmake
    refine growLeaf_item ht _ hmake ?_ pn
    intro label' kids h
    rw [hshows.unique h, growValue, hdate, hbag]
    rfl
  unfold growItem
  rcases htype : b.type <;> simp only
  case none =>
    refine Under.pure ⟨ht, fun h => (by cases h), ?_⟩
    intro label kids hshows
    exact absurd htype hshows.type_ne_none
  case array => exact hbag .array _ rfl htype (hnode .array)
  case dict => exact hbag .dict _ rfl htype (hnode .dict)
  case key =>
    obtain ⟨d, hd, hlen⟩ := hsane.string (Or.inl htype)
    have hmake := @newDatum_spec blame env .key _ _ (Or.inr ⟨d, hd, hlen⟩) hsane.small t
    rw [hd] at hmake
    exact hbag (.key d) _ rfl ⟨htype, hd, hlen⟩ (by rwa [hd])
  case string =>
    obtain ⟨d, hd, hlen⟩ := hsane.string (Or.inr htype)
    have hmake := @newDatum_spec blame env .string _ _ (Or.inr ⟨d, hd, hlen⟩) hsane.small t
    rw [hd] at hmake
    exact hleaf (.string d) _ rfl rfl ⟨htype, hd, hlen⟩ (by rwa [hd])
  case data =>
    have hmake := @newDatum_spec blame env .data _ _ (hsane.data htype) hsane.small t
    rcases hsane.data htype with ⟨hd, hlen⟩ | ⟨d, hd, hlen⟩
    · exact growLeaf_item ht _ hmake (fun _ _ hshows => absurd hd (hshows.data_isSome htype)) pn
    · rw [hd] at hmake
      exact hleaf (.data d) _ rfl rfl ⟨htype, hd, hlen⟩ (by rwa [hd])
  case true => exact hleaf (.bool true) _ rfl rfl htype (hscalar (.bool true))
  case false => exact hleaf (.bool false) _ rfl rfl htype (hscalar (.bool false))
  case integer => exact hleaf (.integer b.intval) _ rfl rfl ⟨htype, rfl⟩ (hscalar (.integer b.intval))
  case date =>
    obtain ⟨hd, hlen⟩ := hsane.date htype
    have hmake := @newDatum_spec blame env .date _ _ (Or.inl ⟨hd, hlen⟩) hsane.small t
    rw [hd] at hmake
    have hdate : b.Shows (.date []) := ⟨rfl, htype, hd, hlen⟩
    refine growLeaf_item ht none (by rwa [hd]) ?_ pn
    intro label kids hshows
    rw [hdate.unique hshows]
    rfl

end Item

theorem plGrowTree_spec (hblame : ¬env.Ample → blame) (n : Nat) {f : Cells TagBody} {s : Parser}
    (hlinked : Linked s.cellAt f) (hsane : ∀ c ∈ f.labels, c.2.Sane) (hn : (Cells.addresses f).length ≤ n) :
    GrowSpec env blame (plGrowTree env n) f s := by
  have hnil : ∀ n, GrowSpec env blame (plGrowTree env n) .nil s := by
    intro n t pn ht
    have hpure : plGrowTree env n none pn = pure (true, pn) := by cases n <;> rfl
    show Runs blame (plGrowTree env n none pn) t _
    rw [hpure]
    refine Under.pure ⟨ht, fun h _ => h, ?_⟩
    intro kids hshows _ node hnode
    cases kids with
    | nil => exact congrArg (Prod.mk true) hnode
    | cons label kids next => exact hshows.elim
  induction n generalizing f with
  | zero =>
      cases f with
      | nil => exact hnil 0
      | cons c sub next => simp at hn
  | succ n ih =>
      cases f with
      | nil => exact hnil (n + 1)
      | cons c sub next =>
          obtain ⟨a, b⟩ := c
          obtain ⟨hcell, hsub, hnext⟩ := hlinked
          simp only [Cells.addresses_cons, List.length_cons, List.length_append] at hn
          simp only [Forest.labels, List.mem_cons, List.mem_append] at hsane
          have hgrow := ih hsub (fun c hc => hsane c (Or.inr (Or.inl hc))) (by omega)
          have hrest := ih hnext (fun c hc => hsane c (Or.inr (Or.inr hc))) (by omega)
          intro t pn ht
          have htag : t.tagAt a = some ⟨b, Cells.head sub, Cells.head next⟩ := by
            rw [ht.2]
            exact TagStore.tagAt_of_cellAt hcell
          refine Under.bind_eq (readTag_spec htag) ?_
          refine Under.bind (growItem_spec hblame hgrow ht (hsane (a, b) (Or.inl rfl)) pn) ?_
          rintro ⟨_ | _, pn'⟩ u ⟨hu, hsome, hitem⟩
          · refine Under.pure ⟨hu, fun _ h => (by cases h), ?_⟩
            intro kids hshows hample node hnode
            cases kids with
            | nil => exact hshows.elim
            | cons label kids next =>
                have hnone : (growValue label kids).bind (plNodeAdd node ·) = none :=
                  answers_false (hitem label kids hshows.1 hshows.2.1 hample node hnode)
                show Answers (growForest (.cons label kids next) node) _
                rw [growForest_cons, hnone]
                rfl
          · refine (hrest u pn' hu).mono id ?_
            rintro r v ⟨hv, hsome', hadds⟩
            refine ⟨hv, fun _ => hsome' (hsome rfl), ?_⟩
            intro kids hshows hample node hnode
            cases kids with
            | nil => exact hshows.elim
            | cons label kids next =>
                have hadded : (growValue label kids).bind (plNodeAdd node ·) = pn' :=
                  answers_true (hitem label kids hshows.1 hshows.2.1 hample node hnode)
                show Answers (growForest (.cons label kids next) node) _
                rw [growForest_cons, hadded]
                obtain ⟨pn'', rfl⟩ := Option.isSome_iff_exists.1 (hsome rfl)
                exact hadds next hshows.2.2 hample pn'' rfl

/-- Growing the dictionary a tag stands for. -/
theorem growDict_spec (hblame : ¬env.Ample → blame) {s : Parser} {b : TagBody} {sub next : Cells TagBody}
    (htype : b.type = .dict) (hlinked : Linked s.cellAt sub) (hsane : ∀ c ∈ sub.labels, c.2.Sane)
    (hlen : (Cells.addresses sub).length ≤ s.tags.length) :
    Runs blame (growDict env ⟨b, Cells.head sub, Cells.head next⟩) s fun r t =>
      Drew s t ∧ ∀ kids, Shows sub kids → env.Ample → r = growForest kids (.leaf .dict) := by
  unfold growDict
  rw [if_pos htype]
  refine Under.bind (newNode_spec .dict s) ?_
  rintro pn t ⟨ht, hnone, hnode⟩
  refine Under.get_bind ?_
  have htags : t.tags = s.tags := congrArg TagStore.tags ht.2
  rw [htags]
  refine Under.bind (plGrowTree_spec hblame _ hlinked hsane (by omega) t pn ht) ?_
  have hpn : env.Ample → pn = some (.leaf .dict) := by
    intro hample
    cases pn with
    | none => exact absurd hample (hnone rfl)
    | some node => rw [hnode node rfl]
  rintro ⟨_ | _, pn'⟩ u ⟨hu, hsome, hadds⟩
  · refine Under.bind (deleteNode_spec pn' u) ?_
    rintro _ v hv
    refine Under.pure ⟨hu.trans hv, ?_⟩
    intro kids hshows hample
    exact (answers_false (hadds kids hshows hample _ (hpn hample))).symm
  · refine Under.pure ⟨hu, ?_⟩
    intro kids hshows hample
    exact (answers_true (hadds kids hshows hample _ (hpn hample))).symm

end Grow

/-! ### The cleanup -/

theorem releaseTags_spec {blame : Prop} (n : Nat) {f : Cells TagBody} {s : Parser} (hflat : Flat f)
    (hlinked : Linked s.cellAt f) (hnodup : (Cells.addresses f).Nodup) (hn : (Cells.addresses f).length ≤ n) :
    Runs blame (releaseTags n (Cells.head f)) s fun _ t => Kept s t := by
  have hnil : ∀ n s, Runs blame (releaseTags n none) s fun _ t => Kept s t := by
    intro n s
    cases n <;> exact Under.pure (Kept.refl s)
  induction n generalizing f s with
  | zero =>
      cases f with
      | nil => exact hnil 0 s
      | cons c sub next => simp at hn
  | succ n ih =>
      cases f with
      | nil => exact hnil (n + 1) s
      | cons c sub next =>
          obtain ⟨a, b⟩ := c
          obtain ⟨hsub, -, -, -, hflat⟩ := hflat
          subst hsub
          obtain ⟨hcell, -, hnext⟩ := hlinked
          rw [Cells.addresses_cons, Cells.addresses_nil, List.nil_append, List.nodup_cons] at hnodup
          rw [Cells.addresses_cons, Cells.addresses_nil, List.nil_append, List.length_cons] at hn
          have htag := TagStore.tagAt_of_cellAt hcell
          obtain ⟨u, hwrite, hkept, -, -, hat⟩ := writeTag_spec htag none
          refine Under.bind_eq (readTag_spec htag) (Under.bind_eq hwrite ?_)
          refine Under.bind (release_spec .tag u) ?_
          rintro _ u rfl
          have hnext' : Linked u.cellAt next := by
            refine hnext.congr fun x hx => ?_
            have hxa : x ≠ a := by
              rintro rfl
              exact hnodup.1 hx
            rw [TagStore.cellAt, TagStore.cellAt, hat, if_neg hxa]
          exact (ih hflat hnext' hnodup.2 (by omega)).mono id fun _ _ h => hkept.trans h

/-- The cleanup after a call that used up no list. -/
theorem plistXmlCleanup_spec {blame : Prop} {s : Parser} {live : List (Cells TagBody)} {free : Cells TagBody}
    (hlive : s.danglingSymbols = false) (h : Describes s.toTagStore [] live free) :
    Runs blame plistXmlCleanup s fun _ t => t.tagsFree = none := by
  refine Under.bind_eq (liveSymbols_spec hlive) (Under.bind (Q := fun _ t => t = s) ?_ ?_)
  · induction s.symbols with
    | nil => exact Under.pure rfl
    | cons symbol symbols ih =>
        refine Under.bind (release_spec .symbol s) ?_
        rintro _ _ rfl
        exact ih
  · rintro _ s rfl
    refine Under.modify_bind (Under.get_bind ?_)
    have hfree := h.length_addresses_le (f := free) List.mem_cons_self
    have hlinked := h.partition.linked free List.mem_cons_self
    have hnodup := h.partition.nodup_list (f := free) List.mem_cons_self
    show Runs blame (releaseTags _ s.tagsFree >>= _) _ _
    rw [h.head]
    refine Under.bind (releaseTags_spec _ h.flat hlinked hnodup (by simp; omega)) ?_
    intro _ t _
    exact Under.modify rfl

/-! ### The whole call -/

/-- The result of the loop at top level. -/
def TopDone (env : Env) (n : Nat) (u : Bytes) (tag : Option Nat) (live : List (Cells TagBody)) :
    Option Nat → Parser → Prop
  | none, t => t.danglingSymbols = false ∧ (∃ free, Describes t.toTagStore [] live free) ∧
      (env.Ample → ((Machine.running (.top tag.isSome)).run (tokens env n u)).Waiting)
  | some a, t => t.danglingSymbols = false ∧ ∃ b sub free,
      Describes t.toTagStore [] (.cons (a, b) sub .nil :: live) free ∧ b.type = .dict ∧
        (env.Ample → ∃ kids, Shows sub kids ∧
          (Machine.running (.top tag.isSome)).run (tokens env n u) = .finished kids)

theorem parseTop_spec {env : Env} {n fuel : Nat} (hn : n < 2 ^ 32) (hfuel : n < fuel)
    (count : Nat) {s : Parser} {pre u : Bytes} (tag : Option Nat) {live : List (Cells TagBody)}
    {free : Cells TagBody} (hcount : u.length < count) (hr : Reads n s pre u)
    (hd : Describes s.toTagStore [] live free) :
    Runs (env.Ample → (Machine.running (.top tag.isSome)).run (tokens env n u) = .stuck)
      (parseTop env fuel count pre.length tag) s (TopDone env n u tag live) := by
  induction count generalizing s pre u tag live free with
  | zero => omega
  | succ count ih =>
      have hu : u.length < fuel := by
        have := hr.size
        omega
      have hspec : NextSpec env n fuel (plistXmlParseNextTag env fuel) := plistXmlParseNextTag_spec hn fuel
      have hnext := hspec s pre u tag live free hu hr hd
      refine Under.bind (hnext.mono (fun h hample => h hample (.top tag.isSome) rfl) fun _ _ h => h) ?_
      have hmove : ∀ {t : Parser} {v : Bytes} {length : Nat}, Reads n t pre v → length ≤ v.length →
          Reads n t (pre ++ v.take length) (v.drop length) ∧
            addU32 pre.length length = (pre ++ v.take length).length := by
        intro t v length hv hle
        have hsize := hv.size
        refine ⟨Reads.shift (by rwa [List.take_append_drop]), ?_⟩
        rw [addU32_eq hn (by omega), List.length_append, List.length_take, Nat.min_eq_left hle]
      rintro (_ | ⟨_ | a, length⟩) t hdone
      · obtain ⟨⟨v, hv⟩, hfree, hwait⟩ := hdone
        exact Under.pure ⟨hv.live, hfree, fun hample => hwait hample (.top tag.isSome) rfl⟩
      · obtain ⟨v, hv, hpos, hle, ⟨free', hd'⟩, hexp⟩ := hdone
        obtain ⟨hr', hplace⟩ := hmove hv hle
        have hshort : (v.drop length).length < count := by
          have h1 := hv.size
          have h2 := hr.size
          rw [List.length_drop]
          omega
        have hsame : env.Ample → (Machine.running (.top tag.isSome)).run (tokens env n u) =
            (Machine.running (.top false)).run (tokens env n (v.drop length)) :=
          fun hample => hexp hample (.top tag.isSome) rfl
        simp only [hplace]
        refine (ih none hshort hr' hd').mono (fun h hample => (hsame hample).trans (h hample)) ?_
        intro r t' h
        cases r with
        | none => exact ⟨h.1, h.2.1, fun hample => by rw [hsame hample]; exact h.2.2 hample⟩
        | some a =>
            obtain ⟨hlive, b, sub, free'', hd'', htype, hkids⟩ := h
            refine ⟨hlive, b, sub, free'', hd'', htype, fun hample => ?_⟩
            rw [hsame hample]
            exact hkids hample
      · obtain ⟨v, hv, hpos, hle, b, sub, free', hd', hexp⟩ := hdone
        have hcell := (hd'.partition.linked (.cons (a, b) sub .nil) (by simp)).1
        refine Under.bind_eq (readTag_spec (TagStore.tagAt_of_cellAt hcell)) ?_
        by_cases htype : b.type = .dict
        · rw [if_pos htype]
          refine Under.pure ⟨hv.live, b, sub, free', hd', htype, fun hample => ?_⟩
          obtain ⟨label, kids, hshows, hrun⟩ := hexp hample
          have hdict : label = .dict := TagBody.Shows.unique (show b.Shows .dict from htype) hshows.1
          subst hdict
          refine ⟨kids, hshows.2.1, ?_⟩
          rw [hrun hample (.top tag.isSome) rfl]
          exact Machine.run_finished kids _
        · rw [if_neg htype]
          refine Under.bind (plistXmlFreeTag_spec hv.live hd') ?_
          rintro _ t' ⟨hkept, free'', hd''⟩
          obtain ⟨hr', hplace⟩ := hmove hv hle
          have hshort : (v.drop length).length < count := by
            have h1 := hv.size
            have h2 := hr.size
            rw [List.length_drop]
            omega
          have hsame : env.Ample → (Machine.running (.top tag.isSome)).run (tokens env n u) =
              (Machine.running (.top true)).run (tokens env n (v.drop length)) := by
            intro hample
            obtain ⟨label, kids, hshows, hrun⟩ := hexp hample
            have hdict : label ≠ .dict := by
              rintro rfl
              exact htype hshows.1
            rw [hrun hample (.top tag.isSome) rfl, deliver, if_neg hdict]
          simp only [hplace]
          refine (ih (some a) hshort (hr'.kept hkept) hd'').mono
            (fun h hample => (hsame hample).trans (h hample)) ?_
          intro r t'' h
          cases r with
          | none => exact ⟨h.1, h.2.1, fun hample => by rw [hsame hample]; exact h.2.2 hample⟩
          | some a' =>
              obtain ⟨hlive, b', sub', free₃, hd₃, htype', hkids⟩ := h
              refine ⟨hlive, b', sub', free₃, hd₃, htype', fun hample => ?_⟩
              rw [hsame hample]
              exact hkids hample

/-- The text of a call. -/
def textOf (dat : Nat → UInt8) (len : Nat) : Bytes := (List.range len).map dat

theorem length_textOf (dat : Nat → UInt8) (len : Nat) : (textOf dat len).length = len := by
  rw [textOf, List.length_map, List.length_range]

theorem copyOf_eq {dat : Nat → UInt8} {len : Nat} (hlen : len + 1 < 2 ^ 32) (hnul : dat len = 0) :
    copyOf dat len = textOf dat len ++ [0] := by
  rw [copyOf, addU32, Nat.mod_eq_of_lt hlen, List.range_succ, List.map_append, textOf, List.map_singleton, hnul]

/-- A parser between two calls: no tag is left, and no symbol that was released. -/
structure Parser.Idle (s : Parser) : Prop where
  tags : ∀ a, s.tagAt a = none
  tagsFree : s.tagsFree = none
  live : s.danglingSymbols = false

theorem initialParser_idle : initialParser.Idle := ⟨fun _ => rfl, rfl, rfl⟩

theorem Parser.Idle.describes {s : Parser} (h : s.Idle) : Describes s.toTagStore [] [] .nil := by
  refine ⟨⟨?_, List.nodup_nil, ?_⟩, h.tagsFree, trivial, fun f hf => by cases hf⟩
  · intro f hf
    rw [List.mem_singleton.1 hf]
    trivial
  · intro a
    rw [TagStore.cellAt_isSome, h.tags a]
    exact ⟨fun h => (by cases h), fun h => by cases h⟩

/-- `PListXMLParse` of a text with its `NUL`. -/
theorem plistXmlParseCopy_spec {env : Env} {text : Bytes} {s : Parser} (hn : text.length + 1 < 2 ^ 32)
    (hs : s.Idle) :
    Runs (env.Ample → parseText env text = .stuck)
      (plistXmlParseCopy env (text ++ [0]) (text.length + 1)) s fun r t =>
        TopDone env text.length text none [] r t ∨ (r = none ∧ ¬env.Ample ∧ t.danglingSymbols = false ∧
          ∃ free, Describes t.toTagStore [] [] free) := by
  unfold plistXmlParseCopy
  rw [if_neg (by omega)]
  refine Under.bind (allocate_spec .text s) ?_
  rintro (_ | _) t ⟨hok, hkept, hstore⟩
  · refine Under.pure (Or.inr ⟨rfl, hok rfl, hkept.2.trans hs.live, .nil, ?_⟩)
    rw [hstore]
    exact hs.describes
  · rw [if_pos rfl]
    refine Under.modify_bind ?_
    have hr : Reads text.length { t with configBuffer := text ++ [0] } [] text :=
      ⟨rfl, Nat.zero_add _, hkept.2.trans hs.live⟩
    have hd : Describes t.toTagStore [] [] .nil := by
      rw [hstore]
      exact hs.describes
    refine Under.bind (parseTop_spec (by omega) (by rw [parseFuel]; omega) (parseFuel (text.length + 1)) none
      (by rw [parseFuel]; omega) hr hd) ?_
    rintro r u hu
    refine Under.bind (release_spec .text u) ?_
    rintro _ _ rfl
    exact Under.pure (Or.inl hu)

theorem plXmlToNodeCopy_spec {env : Env} {text : Bytes} {s : Parser} (hn : text.length + 1 < 2 ^ 32)
    (hs : s.Idle) :
    Runs (env.Ample → parseText env text = .stuck)
      (plXmlToNodeCopy env (text ++ [0]) (text.length + 1)) s fun r _ =>
        env.Ample → r = (parseText env text).tree := by
  refine Under.bind (plistXmlParseCopy_spec hn hs) ?_
  rintro (_ | a) t h
  · have hfree : t.danglingSymbols = false ∧ ∃ free, Describes t.toTagStore [] [] free := by
      rcases h with ⟨hlive, hfree, -⟩ | ⟨-, -, hlive, hfree⟩
      · exact ⟨hlive, hfree⟩
      · exact ⟨hlive, hfree⟩
    obtain ⟨hlive, free, hd⟩ := hfree
    refine Under.bind (plistXmlCleanup_spec hlive hd) ?_
    intro _ u _
    refine Under.pure fun hample => ?_
    rcases h with ⟨-, -, hwait⟩ | ⟨-, hample', -⟩
    · obtain ⟨stack, hstack⟩ := hwait hample
      have hmachine : parseText env text = .running stack := hstack
      rw [hmachine]
      rfl
    · exact absurd hample hample'
  · rcases h with ⟨hlive, b, sub, free, hd, htype, hkids⟩ | ⟨h, -⟩
    · have hlinked := hd.partition.linked (.cons (a, b) sub .nil) (by simp)
      have hlen := hd.length_addresses_le (f := .cons (a, b) sub .nil) (by simp)
      rw [Cells.addresses_cons, List.length_cons, List.length_append] at hlen
      refine Under.bind_eq (readTag_spec (TagStore.tagAt_of_cellAt hlinked.1)) ?_
      have hblame : ¬env.Ample → env.Ample → parseText env text = .stuck := fun h hample => absurd hample h
      have hsane : ∀ c ∈ sub.labels, c.2.Sane :=
        fun c hc => hd.sane _ List.mem_cons_self c (by simp [Forest.labels, hc])
      have hgrow : Runs _ (growDict env ⟨b, Cells.head sub, Cells.head .nil⟩) t _ :=
        growDict_spec hblame htype hlinked.2.1 hsane (by omega)
      refine Under.bind hgrow ?_
      rintro pn u ⟨⟨hkept, hstore⟩, hpn⟩
      rw [← hstore] at hd
      refine Under.bind (plistXmlFreeTag_spec (f := .cons (a, b) sub .nil) (hkept.2.trans hlive) hd) ?_
      rintro _ v ⟨hkept', free', hd'⟩
      refine Under.bind (plistXmlCleanup_spec (hkept'.2.trans (hkept.2.trans hlive)) hd') ?_
      intro _ w _
      refine Under.pure fun hample => ?_
      obtain ⟨kids, hshows, hrun⟩ := hkids hample
      have hmachine : parseText env text = .finished kids := hrun
      rw [hmachine]
      exact hpn kids hshows hample
    · cases h

end BareBoot.Plist
