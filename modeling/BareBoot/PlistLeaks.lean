import BareBoot.PlistOwnership
import BareBoot.PlistSoundness

/-! Calls of `plXmlToNode` one after the other. Between two calls no tag and no symbol is left, and what a
call has allocated and not released is the tree it returns, the buffers of the data it decoded, and the
leaves that no bag took. So a call leaks exactly when it decodes a data text, or meets a leaf where only
keys fit or for which the bag cannot grow. All this needs that every tag reported or freed was its
caller's; `<plist>` breaks that, and then symbols stay behind that the next call still finds. -/

namespace BareBoot.Plist

open Exec

/-! ### Growing the tree -/

section Grow
variable {env : Env}

/-- Nothing but the number of allocations asked for changed. -/
def Grew (s t : Parser) : Prop := t = { s with allocs := t.allocs }

theorem Grew.refl (s : Parser) : Grew s s := rfl

theorem Grew.trans {s t u : Parser} (h : Grew s t) (h' : Grew t u) : Grew s u := by
  rw [Grew] at h h' ⊢
  rw [h', h]

/-- The allocations a node that may be `NULL` consists of. -/
def ownPools (node : Option Node) : List Pool := nodePools ((node.map Forest.single).getD .nil)

theorem nodePools_append (f g : Forest Label) : nodePools (f ++ g) = nodePools f ++ nodePools g := by
  induction f with
  | nil => rfl
  | cons label kids next _ ih =>
      rw [Forest.cons_append]
      cases label <;> simp only [nodePools, ih, List.append_assoc]

theorem deleteNode_tells (node : Option Node) (s : Parser) :
    Tells (deleteNode node) s fun _ t m => t = s ∧ m = -countOf (ownPools node) :=
  release_all_tells _ s

theorem newNode_tells (label : Label) (s : Parser) (hown : ownPools (some (.leaf label)) = [.node]) :
    Tells (newNode env label) s fun r t m => Grew s t ∧ m = countOf (ownPools r) := by
  refine Weighs.bind (allocate_tells .node s) ?_
  rintro (_ | _) _ _ ⟨rfl, rfl⟩
  · exact Weighs.pure ⟨rfl, add_zero 0⟩
  · rw [if_pos rfl]
    refine Weighs.pure ⟨rfl, ?_⟩
    rw [if_pos rfl, add_zero, hown]

theorem newScalar_tells (label : Label) (s : Parser) (hown : ownPools (some (.leaf label)) = [.node]) :
    Tells (newScalar env label) s fun r t m => Grew s t ∧ m = countOf (ownPools r) := by
  refine Weighs.bind (newNode_tells label s hown) ?_
  rintro (_ | node) t m ⟨ht, rfl⟩
  · exact Weighs.emit_bind fun _ => ⟨trivial, Weighs.stop⟩
  · refine Weighs.pure ⟨ht, ?_⟩
    rw [add_zero]

theorem newDatum_tells (label : Bytes → Label) (datum : Option Bytes) (dlen : Nat) (s : Parser)
    (hown : ∀ d, ownPools (some (.leaf (label d))) = [.node, .datum]) :
    Tells (newDatum env label datum dlen) s fun r t m => Grew s t ∧ m = countOf (ownPools r) := by
  unfold newDatum
  by_cases hnone : datum = none ∧ dlen = 0
  · rw [if_pos hnone]
    exact Weighs.pure ⟨rfl, rfl⟩
  · rw [if_neg hnone]
    refine Weighs.bind (allocate_tells .node s) ?_
    rintro (_ | _) _ _ ⟨rfl, rfl⟩
    · exact Weighs.pure ⟨rfl, add_zero 0⟩
    · rw [if_pos rfl, if_pos rfl]
      have hdatum : ∀ t : Parser, Tells (if addU32 dlen 1 = 0 then pure false else allocate env .datum) t
          fun ok u m => Grew t u ∧ m = if ok then countOf [.datum] else 0 := by
        intro t
        by_cases hwrap : addU32 dlen 1 = 0
        · rw [if_pos hwrap]
          exact Weighs.pure ⟨rfl, rfl⟩
        · rw [if_neg hwrap]
          refine (allocate_tells .datum t).mono ?_
          rintro ok _ _ ⟨rfl, rfl⟩
          exact ⟨rfl, rfl⟩
      refine Weighs.bind (hdatum _) ?_
      rintro (_ | _) t m ⟨ht, rfl⟩
      · refine Weighs.bind (release_tells .node t) ?_
        rintro _ t _ ⟨rfl, rfl⟩
        refine Weighs.pure ⟨Grew.trans (t := { s with allocs := s.allocs + 1 }) rfl ht, ?_⟩
        show countOf [.node] + (0 + (-countOf [.node] + 0)) = 0
        abel
      · rw [if_pos rfl, if_pos rfl]
        have hgrew : Grew s t := Grew.trans (t := { s with allocs := s.allocs + 1 }) rfl ht
        have hsum : ∀ d, countOf [.node] + (countOf [.datum] + 0) = countOf (ownPools (some (.leaf (label d)))) := by
          intro d
          rw [hown, add_zero, ← countOf_append]
          rfl
        by_cases hzero : dlen = 0
        · rw [if_pos hzero]
          exact Weighs.pure ⟨hgrew, hsum []⟩
        · rw [if_neg hzero]
          rcases datum with _ | d
          · exact Weighs.stop
          · simp only
            by_cases hle : dlen ≤ d.length
            · rw [if_pos hle]
              exact Weighs.pure ⟨hgrew, hsum _⟩
            · rw [if_neg hle]
              exact Weighs.stop

theorem growMap_tells (asiz : Nat) (s : Parser) :
    Tells (growMap env asiz) s fun ok t m =>
      Grew s t ∧ m = if ok = true ∧ asiz = 0 then countOf [.map] else 0 := by
  refine Weighs.bind (allocate_tells .map s) ?_
  rintro (_ | _) _ _ ⟨rfl, rfl⟩
  · exact Weighs.pure ⟨rfl, add_zero 0⟩
  · by_cases hpos : 0 < asiz
    · rw [if_pos ⟨rfl, hpos⟩]
      refine Weighs.bind (release_tells .map _) ?_
      rintro _ _ _ ⟨rfl, rfl⟩
      refine Weighs.pure ⟨rfl, ?_⟩
      rw [if_pos rfl, if_neg fun h => absurd h.2 (by omega)]
      abel
    · rw [if_neg fun h => hpos h.2]
      refine Weighs.pure ⟨rfl, ?_⟩
      rw [if_pos rfl, add_zero, if_pos ⟨rfl, by omega⟩]

theorem trees_length_eq_zero {f : Forest Label} : f.trees.length = 0 ↔ f = .nil := by
  cases f <;> simp [Forest.trees]

/-- The allocations of a bag with one more node: those of both, and an array when it is the first. -/
theorem ownPools_add {bag node added : Node} (h : plNodeAdd bag node = some added) :
    countOf (ownPools (some added)) = countOf (ownPools (some bag)) + countOf (ownPools (some node)) +
      if added.label.isKey = false ∧ bag.kids = .nil then countOf [.map] else 0 := by
  have hbag : ∀ label : Label, label.isKey = false → (∀ kids, nodePools (.cons label kids .nil) =
      (if kids = .nil then [.node] else [.node, .map]) ++ nodePools kids) →
      countOf (ownPools (some ⟨label, bag.kids ++ .single node⟩)) =
        countOf (ownPools (some ⟨label, bag.kids⟩)) + countOf (ownPools (some node)) +
          if label.isKey = false ∧ bag.kids = .nil then countOf [.map] else 0 := by
    intro label hkey hpools
    have hne : bag.kids ++ Forest.single node ≠ .nil := fun h => Forest.single_ne_nil node (Forest.append_eq_nil.1 h).2
    show countOf (nodePools (.cons label _ .nil)) = countOf (nodePools (.cons label _ .nil)) +
      countOf (nodePools (.single node)) + _
    rw [hpools, hpools, if_neg hne, nodePools_append, hkey]
    by_cases hnil : bag.kids = .nil
    · rw [if_pos hnil, if_pos ⟨rfl, hnil⟩]
      simp only [countOf_append, countOf_cons .node [.map]]
      abel
    · rw [if_neg hnil, if_neg fun h => hnil h.2]
      simp only [countOf_append]
      abel
  obtain ⟨label, kids⟩ := bag
  cases label with
  | dict =>
      have hdict : (if node.label.isKey ∧ node.kids ≠ .nil then some (⟨.dict, kids ++ .single node⟩ : Node) else none) =
          some added := h
      by_cases hkey : node.label.isKey ∧ node.kids ≠ .nil
      · rw [if_pos hkey] at hdict
        cases hdict
        exact hbag .dict rfl fun kids => List.append_nil _
      · rw [if_neg hkey] at hdict
        cases hdict
  | array =>
      cases h
      exact hbag .array rfl fun kids => List.append_nil _
  | key d =>
      have hone : (if kids = .nil then some (⟨.key d, .single node⟩ : Node) else none) = some added := h
      by_cases hnil : kids = .nil
      · rw [if_pos hnil] at hone
        cases hone
        subst hnil
        rw [if_neg (fun h => nomatch h.1), add_zero, ← countOf_append]
        exact congrArg countOf (List.append_nil _)
      · rw [if_neg hnil] at hone
        cases hone
  | bool | integer | string | data | date => cases h

theorem addNode_tells (bag : Option Node) (node : Node) (s : Parser) :
    Tells (addNode env bag node) s fun r t m => Grew s t ∧
      m = countOf (ownPools r.2) - countOf (ownPools bag) - if r.1 = true then countOf (ownPools (some node)) else 0 := by
  have hrefused : ∀ m : Pool → ℤ, m = 0 → m = countOf (ownPools bag) - countOf (ownPools bag) -
      if false = true then countOf (ownPools (some node)) else 0 := by
    rintro m rfl
    rw [if_neg Bool.false_ne_true, sub_self, sub_zero]
  unfold addNode
  rcases hadd : bag.bind fun b => plNodeAdd b node with _ | added
  · exact Weighs.pure ⟨rfl, hrefused 0 rfl⟩
  · obtain ⟨b, rfl, hb⟩ := Option.bind_eq_some_iff.1 hadd
    have hpools := ownPools_add hb
    have hadded : ∀ m : Pool → ℤ, (m = if added.label.isKey = false ∧ b.kids = .nil then countOf [.map] else 0) →
        m = countOf (ownPools (some added)) - countOf (ownPools (some b)) -
          if true = true then countOf (ownPools (some node)) else 0 := by
      rintro m rfl
      rw [if_pos rfl, hpools]
      abel
    simp only [Option.map_some, Option.getD_some]
    split
    · rename_i hno
      refine Weighs.pure ⟨rfl, hadded 0 (if_neg ?_).symm⟩
      rintro ⟨hkey, hnil⟩
      rcases hno with hkey' | hfull
      · rw [hkey] at hkey'
        cases hkey'
      · rw [hnil] at hfull
        exact absurd hfull (by decide)
    · rename_i hno
      have hkey : added.label.isKey = false := by
        by_contra hkey
        exact hno (Or.inl (Bool.not_eq_false _ ▸ hkey))
      refine Weighs.bind (growMap_tells _ s) ?_
      rintro (_ | _) t m ⟨ht, rfl⟩
      · refine Weighs.pure ⟨ht, hrefused _ ?_⟩
        rw [if_neg (fun h => nomatch h.1)]
        exact add_zero 0
      · rw [if_pos rfl]
        refine Weighs.pure ⟨ht, hadded _ ?_⟩
        simp only [true_and, hkey, trees_length_eq_zero, add_zero]

/-- A leaf no bag takes is lost. -/
theorem growLeaf_tells (pn wn : Option Node) (s : Parser) :
    Tells (growLeaf env pn wn) s fun r t m =>
      Grew s t ∧ m = countOf (ownPools r.2) - countOf (ownPools pn) - countOf (ownPools wn) := by
  rcases wn with _ | wn
  · refine Weighs.pure ⟨rfl, ?_⟩
    rw [sub_self, zero_sub]
    exact neg_zero.symm
  · refine Weighs.bind (addNode_tells pn wn s) ?_
    rintro ⟨_ | _, pn'⟩ t m ⟨ht, rfl⟩
    · refine Weighs.emit_bind fun _ => ⟨trivial, Weighs.pure ⟨ht, ?_⟩⟩
      rw [if_neg Bool.false_ne_true]
      show _ + ((0 - countOf (ownPools (some wn))) + 0) = _
      abel
    · refine Weighs.pure ⟨ht, ?_⟩
      rw [if_pos rfl, add_zero]

variable {grow : Option Nat → Option Node → ParserM (Bool × Option Node)}

/-- Growing adds to the bag what it takes from the pool. -/
def GrowTells (grow : Option Nat → Option Node → ParserM (Bool × Option Node)) : Prop :=
  ∀ (tag : Option Nat) (pn : Option Node) (s : Parser), Tells (grow tag pn) s fun r t m =>
    Grew s t ∧ m = countOf (ownPools r.2) - countOf (ownPools pn)

theorem plGrowBag_tells (hgrow : GrowTells grow) (ipl : Tag) (parn bagn : Option Node) (s : Parser) :
    Tells (plGrowBag env grow ipl parn bagn) s fun r t m =>
      Grew s t ∧ m = countOf (ownPools r.2) - countOf (ownPools parn) - countOf (ownPools bagn) := by
  unfold plGrowBag
  rcases bagn with _ | bag
  · refine Weighs.pure ⟨rfl, ?_⟩
    rw [sub_self, zero_sub]
    exact neg_zero.symm
  · refine Weighs.bind (hgrow ipl.tag (some bag) s) ?_
    rintro ⟨_ | _, bagn⟩ t m ⟨ht, rfl⟩
    · refine Weighs.bind (deleteNode_tells bagn t) ?_
      rintro _ t _ ⟨rfl, rfl⟩
      refine Weighs.pure ⟨ht, ?_⟩
      abel
    · rcases bagn with _ | bag'
      · refine Weighs.pure ⟨ht, ?_⟩
        have hnone : countOf (ownPools none) = 0 := rfl
        rw [hnone]
        abel
      · refine Weighs.bind (addNode_tells parn bag' t) ?_
        rintro ⟨_ | _, parn'⟩ u m ⟨hu, rfl⟩
        · refine Weighs.bind (deleteNode_tells (some bag') u) ?_
          rintro _ u _ ⟨rfl, rfl⟩
          refine Weighs.pure ⟨ht.trans hu, ?_⟩
          rw [if_neg Bool.false_ne_true]
          abel
        · refine Weighs.pure ⟨ht.trans hu, ?_⟩
          rw [if_pos rfl]
          abel

theorem growItem_tells (hgrow : GrowTells grow) (ipl : Tag) (pn : Option Node) (s : Parser) :
    Tells (growItem env grow ipl pn) s fun r t m =>
      Grew s t ∧ m = countOf (ownPools r.2) - countOf (ownPools pn) := by
  have hbag : ∀ {make : ParserM (Option Node)}, (Tells make s fun r t m => Grew s t ∧ m = countOf (ownPools r)) →
      Tells (make >>= plGrowBag env grow ipl pn) s fun r t m =>
        Grew s t ∧ m = countOf (ownPools r.2) - countOf (ownPools pn) := by
    intro make hmake
    refine Weighs.bind hmake ?_
    rintro bagn t m ⟨ht, rfl⟩
    refine (plGrowBag_tells hgrow ipl pn bagn t).mono ?_
    rintro r u m ⟨hu, rfl⟩
    refine ⟨ht.trans hu, ?_⟩
    abel
  have hleaf : ∀ {make : ParserM (Option Node)}, (Tells make s fun r t m => Grew s t ∧ m = countOf (ownPools r)) →
      Tells (make >>= growLeaf env pn) s fun r t m =>
        Grew s t ∧ m = countOf (ownPools r.2) - countOf (ownPools pn) := by
    intro make hmake
    refine Weighs.bind hmake ?_
    rintro wn t m ⟨ht, rfl⟩
    refine (growLeaf_tells pn wn t).mono ?_
    rintro r u m ⟨hu, rfl⟩
    refine ⟨ht.trans hu, ?_⟩
    abel
  unfold growItem
  cases ipl.type with
  | none => exact Weighs.pure ⟨rfl, (sub_self _).symm⟩
  | array => exact hbag (newNode_tells .array s rfl)
  | dict => exact hbag (newNode_tells .dict s rfl)
  | key => exact hbag (newDatum_tells .key _ _ s fun _ => rfl)
  | string => exact hleaf (newDatum_tells .string _ _ s fun _ => rfl)
  | data => exact hleaf (newDatum_tells .data _ _ s fun _ => rfl)
  | date => exact hleaf (newDatum_tells .date _ _ s fun _ => rfl)
  | true => exact hleaf (newScalar_tells (.bool true) s rfl)
  | false => exact hleaf (newScalar_tells (.bool false) s rfl)
  | integer => exact hleaf (newScalar_tells (.integer ipl.intval) s rfl)

theorem plGrowTree_tells (n : Nat) : GrowTells (plGrowTree env n) := by
  induction n with
  | zero =>
      rintro (_ | a) pn s
      · exact Weighs.pure ⟨rfl, (sub_self _).symm⟩
      · exact Weighs.stop
  | succ n ih =>
      rintro (_ | a) pn s
      · exact Weighs.pure ⟨rfl, (sub_self _).symm⟩
      · refine Weighs.bind (readTag_tells a s) ?_
        rintro ipl s _ ⟨rfl, rfl, -⟩
        refine Weighs.bind (growItem_tells ih ipl pn s) ?_
        rintro ⟨_ | _, pn'⟩ t m ⟨ht, rfl⟩
        · refine Weighs.pure ⟨ht, ?_⟩
          abel
        · refine (ih ipl.tagNext pn' t).mono ?_
          rintro r u m ⟨hu, rfl⟩
          refine ⟨ht.trans hu, ?_⟩
          abel

theorem growDict_tells (plist : Tag) (s : Parser) :
    Tells (growDict env plist) s fun r t m => Grew s t ∧ m = countOf (ownPools r) := by
  unfold growDict
  by_cases htype : plist.type = .dict
  · rw [if_pos htype]
    refine Weighs.bind (newNode_tells .dict s rfl) ?_
    rintro pn t m ⟨ht, rfl⟩
    refine Weighs.get_bind (Weighs.bind (plGrowTree_tells _ plist.tag pn t) ?_)
    rintro ⟨_ | _, pn'⟩ u m ⟨hu, rfl⟩
    · refine Weighs.bind (deleteNode_tells pn' u) ?_
      rintro _ u _ ⟨rfl, rfl⟩
      refine Weighs.pure ⟨ht.trans hu, ?_⟩
      have hnone : countOf (ownPools none) = 0 := rfl
      rw [hnone]
      abel
    · refine Weighs.pure ⟨ht.trans hu, ?_⟩
      abel
  · rw [if_neg htype]
    exact Weighs.pure ⟨rfl, rfl⟩

end Grow
/-! ### One call -/

section Call
variable {env : Env} {s : Parser}

theorem Parser.Rested.pools (h : s.Rested) : s.pools = 0 := by
  have hcount : s.tags.countP Option.isSome = 0 := by
    rw [List.countP_eq_zero]
    intro tag htag
    obtain ⟨a, ha⟩ := List.getElem?_of_mem htag
    have hnone := h.tags a
    rw [TagStore.tagAt, ha] at hnone
    have htag' : tag = none := hnone
    rw [htag']
    exact Bool.false_ne_true
  rw [Parser.pools, hcount, h.symbols, zero_smul, zero_add]
  exact zero_smul ℕ _

theorem Ledger.symbols_eq_nil {free : Cells TagBody} (h : Ledger s [] [] free []) : s.symbols = [] :=
  List.map_eq_nil_iff.1 h.tallies.eq_nil

/-- What `PListXMLParse` leaves: nothing but tags for the cleanup, or the dictionary it found. -/
def Parsed (t : Parser) : Option Nat → Prop
  | none => t.danglingSymbols = false ∧ t.symbols = [] ∧ ∃ free, Describes t.toTagStore [] [] free
  | some a => ∃ b sub free, Ledger t [] [.cons (a, b) sub .nil] free []

theorem plistXmlParseCopy_tells {copy : Bytes} (hcopy : copy.length < 2 ^ 32) (bufferSize : Nat) (hs : s.Rested) :
    Tells (plistXmlParseCopy env copy bufferSize) s fun r t m => Squares s t m ∧ Parsed t r := by
  unfold plistXmlParseCopy
  by_cases hzero : bufferSize = 0
  · rw [if_pos hzero]
    exact Weighs.pure ⟨Squares.refl rfl, hs.live, hs.symbols, .nil, hs.describes⟩
  · rw [if_neg hzero]
    refine Weighs.bind (allocate_tells .text s) ?_
    rintro (_ | _) _ _ ⟨rfl, rfl⟩
    · refine Weighs.pure ⟨?_, hs.live, hs.symbols, .nil, hs.describes⟩
      rw [if_neg Bool.false_ne_true, add_zero]
      exact Squares.refl rfl
    · rw [if_pos rfl, if_pos rfl]
      refine Weighs.modify_bind ?_
      have hledger : Ledger { s with allocs := s.allocs + 1, configBuffer := copy } [] [] .nil [] := by
        refine ⟨hs.describes, hs.live, hcopy, ?_⟩
        show Tallies (table s.symbols) []
        rw [hs.symbols]
        exact Tallies.nil
      refine Weighs.bind (parseTop_tells _ _ 0 none hledger) ?_
      rintro r t m ⟨hm, hbeside⟩
      refine Weighs.bind (release_tells .text t) ?_
      rintro _ t _ ⟨rfl, rfl⟩
      refine Weighs.pure ⟨?_, ?_⟩
      · have hsum : countOf [.text] + (m + (-countOf [.text] + 0)) = m := by abel
        rw [hsum]
        exact hm
      · rcases r with _ | a
        · obtain ⟨free, hfree⟩ := hbeside
          exact ⟨hfree.current, hfree.symbols_eq_nil, free, hfree.describes⟩
        · exact hbeside

theorem Grew.squares {t : Parser} (h : Grew s t) : t.pools = s.pools := by
  rw [h]
  rfl

/-- A call gives back every tag and symbol and owes the tree it returns. -/
theorem plXmlToNodeCopy_tells {copy : Bytes} (hcopy : copy.length < 2 ^ 32) (bufferSize : Nat) (hs : s.Rested) :
    Tells (plXmlToNodeCopy env copy bufferSize) s fun r t m => t.Rested ∧ m = countOf (ownPools r) := by
  refine Weighs.bind (plistXmlParseCopy_tells hcopy bufferSize hs) ?_
  rintro (_ | a) t m ⟨hm, hparsed⟩
  · obtain ⟨hcurrent, hsymbols, free, hd⟩ := hparsed
    refine Weighs.bind (plistXmlCleanup_tells hcurrent hd hsymbols) ?_
    rintro _ u m' ⟨hm', hu⟩
    refine Weighs.pure ⟨hu, ?_⟩
    have hsum : m + m' = u.pools - s.pools := hm.add hm'
    rw [add_zero, hsum, hu.pools, hs.pools, sub_zero]
    rfl
  · obtain ⟨b, sub, free, ht⟩ := hparsed
    have htag := TagStore.tagAt_of_cellAt (ht.describes.partition.linked (.cons (a, b) sub .nil) (by simp)).1
    refine Weighs.bind_eq (readTag_spec htag) (Weighs.bind (growDict_tells _ t) ?_)
    rintro pn u _ ⟨hu, rfl⟩
    have hledger : Ledger u [] [.cons (a, b) sub .nil] free [] := by
      rw [hu]
      exact ⟨ht.describes, ht.current, ht.size, ht.tallies⟩
    refine Weighs.bind (plistXmlFreeTag_tells hledger) ?_
    rintro _ v m' ⟨hm', free', hv⟩
    refine Weighs.bind (plistXmlCleanup_tells hv.current hv.describes hv.symbols_eq_nil) ?_
    rintro _ w m'' ⟨hm'', hw⟩
    refine Weighs.pure ⟨hw, ?_⟩
    have hsum : m = u.pools - s.pools := by
      rw [hu.squares]
      exact hm
    have hsum' : m' + m'' = w.pools - u.pools := hm'.add hm''
    calc m + (countOf (ownPools pn) + (m' + (m'' + 0)))
        = m + (m' + m'') + countOf (ownPools pn) := by abel
      _ = (u.pools - 0) + (0 - u.pools) + countOf (ownPools pn) := by rw [hsum, hsum', hw.pools, hs.pools]
      _ = countOf (ownPools pn) := by abel

theorem plXmlToNode_tells (dat : Nat → UInt8) (len : Nat) (hs : s.Rested) :
    Tells (plXmlToNode env dat len) s fun r t m => t.Rested ∧ m = countOf (ownPools r) := by
  refine plXmlToNodeCopy_tells ?_ _ hs
  rw [copyOf, List.length_map, List.length_range, addU32]
  exact Nat.mod_lt _ (by decide)

end Call

/-! ### Leaks -/

/-- What a run has allocated and not released, of each kind. -/
def alive (events : List Event) : Pool → ℤ := (events.map Event.taken).sum

/-- The steps after which an allocation is nobody's. -/
def Event.Loses : Event → Prop
  | .decoded => True
  | .unattached pools => pools ≠ []
  | _ => False

instance : DecidablePred Event.Loses
  | .decoded => inferInstanceAs (Decidable True)
  | .unattached pools => inferInstanceAs (Decidable (pools ≠ []))
  | .keptTag _ | .uncleared _ | .allocated _ | .released _ | .stored _ | .counted .. | .returned .. | .freedTwice _
  | .shortInteger .. | .wideData | .behindSymbol | .unreadable | .nullNode => inferInstanceAs (Decidable False)

theorem countOf_nonneg (pools : List Pool) : 0 ≤ countOf pools := fun pool => Int.natCast_nonneg (pools.count pool)

theorem countOf_eq_zero {pools : List Pool} : countOf pools = 0 ↔ pools = [] := by
  refine ⟨fun h => ?_, fun h => by rw [h, countOf_nil]⟩
  rcases pools with _ | ⟨pool, pools⟩
  · rfl
  · have hcount : (((pool :: pools).count pool : ℕ) : ℤ) = 0 := congrFun h pool
    rw [List.count_cons_self] at hcount
    omega

theorem Event.lost_nonneg (e : Event) : 0 ≤ e.lost := by
  cases e with
  | decoded => exact countOf_nonneg _
  | unattached pools => exact countOf_nonneg pools
  | _ => exact le_refl 0

theorem Event.lost_eq_zero (e : Event) : e.lost = 0 ↔ ¬e.Loses := by
  cases e with
  | decoded => exact iff_of_false (fun h => nomatch countOf_eq_zero.1 h) fun h => h trivial
  | unattached pools => exact countOf_eq_zero.trans not_not.symm
  | _ => exact iff_of_true rfl id

theorem sum_lost_nonneg (events : List Event) : 0 ≤ (events.map Event.lost).sum := by
  apply List.sum_nonneg
  intro m hm
  obtain ⟨e, -, rfl⟩ := List.mem_map.1 hm
  exact e.lost_nonneg

theorem sum_lost_eq_zero (events : List Event) :
    (events.map Event.lost).sum = 0 ↔ ∀ e ∈ events, ¬e.Loses := by
  induction events with
  | nil => exact iff_of_true rfl (List.forall_mem_nil _)
  | cons e events ih =>
      rw [List.map_cons, List.sum_cons, add_eq_zero_iff_of_nonneg e.lost_nonneg (sum_lost_nonneg events),
        e.lost_eq_zero, ih, List.forall_mem_cons]

theorem alive_eq (events : List Event) :
    alive events = (events.map Event.due).sum + (events.map Event.lost).sum := by
  induction events with
  | nil => exact (add_zero 0).symm
  | cons e events ih =>
      rw [alive, List.map_cons, List.map_cons, List.map_cons, List.sum_cons, List.sum_cons, List.sum_cons, ← alive, ih,
        Event.due]
      abel

/-- A dictionary without data elements. -/
def plainPlist : Bytes := ascii "<dict><key>a</key><true/></dict>"

def dataPlist : Bytes := ascii "<dict><key>a</key><data>TQ==</data></dict>"

structure Call where
  env : Env
  dat : Nat → UInt8
  len : Nat

/-- Calls of `plXmlToNode` one after the other, each with its own surroundings. -/
def plXmlToNodes (calls : List Call) : ParserM Unit :=
  calls.forM fun call => do
    let _ ← plXmlToNode call.env call.dat call.len
    pure ()

/-- The first calls of a sequence that returns leave nothing behind, and every report tallies. -/
theorem plXmlToNodes_rested {before after : List Call} {s : Parser} (hs : s.Rested)
    (hreturn : (plXmlToNodes (before ++ after) s).result = .ok ())
    (hordered : ∀ e ∈ (plXmlToNodes (before ++ after) s).events, e.Ordered) :
    (plXmlToNodes before s).state.Rested ∧ ∀ e ∈ (plXmlToNodes before s).events, e.Tallied := by
  induction before generalizing s with
  | nil => exact ⟨hs, List.forall_mem_nil _⟩
  | cons call before ih =>
      set first : ParserM Unit := do
        let _ ← plXmlToNode call.env call.dat call.len
        pure () with hfirst
      have htells : Tells first s fun _ t _ => t.Rested := by
        refine Weighs.bind (plXmlToNode_tells call.dat call.len hs) ?_
        rintro node t m ⟨ht, -⟩
        exact Weighs.pure ht
      have hone : ∀ a, (first s).result = .ok a → (∀ e ∈ (first s).events, e.Ordered) →
          (∀ e ∈ (first s).events, e.Tallied) ∧ (first s).state.Rested := htells
      have hall : plXmlToNodes (call :: (before ++ after)) s = (first >>= fun _ => plXmlToNodes (before ++ after)) s := rfl
      have hpart : plXmlToNodes (call :: before) s = (first >>= fun _ => plXmlToNodes before) s := rfl
      rw [List.cons_append, hall, bind_apply] at hreturn hordered
      rw [hpart, bind_apply]
      rcases hrun : first s with ⟨e | a, t, l⟩ <;> rw [hrun] at hreturn hordered hone
      · cases hreturn
      · obtain ⟨htallied, ht⟩ := hone a rfl fun e he => hordered e (List.mem_append.2 (Or.inl he))
        obtain ⟨hrested, htallied'⟩ := ih ht hreturn fun e he => hordered e (List.mem_append.2 (Or.inr he))
        refine ⟨hrested, ?_⟩
        intro e he
        rcases List.mem_append.1 he with he | he
        · exact htallied e he
        · exact htallied' e he

/-- In calls that free only tags of their own, the symbols are different and count the tags that hold
them, and none is left when a call returns. -/
theorem plXmlToNodes_symbols {calls : List Call} (hreturn : (plXmlToNodes calls initialParser).result = .ok ())
    (hordered : ∀ e ∈ (plXmlToNodes calls initialParser).events, e.Ordered) :
    (∀ symbols store, .counted symbols store ∈ (plXmlToNodes calls initialParser).events →
      (symbols.map Symbol.string).Nodup ∧
        ∀ symbol ∈ symbols, symbol.refCount = store.strings.count symbol.string) ∧
    ∀ before after, calls = before ++ after →
      (plXmlToNodes before initialParser).state.symbols = [] ∧
        (plXmlToNodes before initialParser).state.danglingSymbols = false := by
  refine ⟨?_, ?_⟩
  · intro symbols store hmem
    rw [← List.append_nil calls] at hreturn hordered
    exact (plXmlToNodes_rested initialParser_rested hreturn hordered).2 _ hmem
  · rintro before after rfl
    have hrested := (plXmlToNodes_rested initialParser_rested hreturn hordered).1
    exact ⟨hrested.symbols, hrested.live⟩

def callOf (text : Bytes) : Call := ⟨plentyEnv, imageOf text, text.length⟩

theorem plainPlist_symbols :
    (plXmlToNodes [callOf plainPlist, callOf plainPlist] initialParser).state.symbols = [] :=
  ((@plXmlToNodes_symbols [callOf plainPlist, callOf plainPlist] (by decide +kernel) (by decide +kernel)).2
    _ [] rfl).1

/-- `<plist>` behind an element, whose tag is then freed twice. -/
def plistAgain : Bytes := ascii "<true/><plist><array><string>a</string><true/><true/></array></plist>"

/-- The call returns and leaves a symbol, which the next call finds although it was released. -/
theorem plistAgain_symbolLeft :
    (plXmlToNodes [callOf plistAgain] initialParser).result = .ok () ∧
      (plXmlToNodes [callOf plistAgain] initialParser).state.symbols ≠ [] ∧
      (plXmlToNodes [callOf plistAgain, callOf plainPlist] initialParser).result = .error .badAddress := by
  decide +kernel

end BareBoot.Plist
