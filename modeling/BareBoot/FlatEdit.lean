import BareBoot.FlatTree

/-! Edits of a flattened tree: new properties for some of its nodes leave all other bytes in place. What stands behind a
name or a value is kept, so that an edit can be told of the bytes. -/

namespace BareBoot.DeviceTree

open Kext
open Plist (Bytes)

/-- A property with the bytes behind its name and behind its value. -/
structure RawProperty where
  field : Bytes
  value : Bytes
  padding : Bytes
  fieldLength : field.length = 32
  valueFits : value.length < 2 ^ 32
  paddingLength : padding.length = roundLong value.length - value.length

def RawProperty.encode (p : RawProperty) : Bytes := p.field ++ longWord p.value.length ++ p.value ++ p.padding

/-- The bytes behind the name and the value are zero. -/
def Property.raw (p : Property) : RawProperty where
  field := p.name ++ List.replicate (32 - p.name.length) 0
  value := p.value
  padding := List.replicate (roundLong p.value.length - p.value.length) 0
  fieldLength := by
    rw [List.length_append, List.length_replicate]
    exact Nat.add_sub_cancel' (Nat.le_of_lt p.nameFits)
  valueFits := p.valueFits
  paddingLength := List.length_replicate ..

def encodeRawProperties (properties : List RawProperty) : Bytes := (properties.map RawProperty.encode).flatten

def encodeRaw : Forest (List RawProperty) → Bytes
  | .nil => []
  | .cons properties kids next =>
      longWord properties.length ++ longWord kids.trees.length ++ encodeRawProperties properties ++ encodeRaw kids ++
        encodeRaw next

def Entry.raw (entry : Entry) : List RawProperty := entry.properties.map Property.raw

def rawForest (forest : Forest Entry) : Forest (List RawProperty) := forest.map Entry.raw

/-- The bytes of a node with these properties. -/
def rawNode (properties : List RawProperty) (kids : Forest Entry) : Bytes :=
  longWord properties.length ++ longWord kids.trees.length ++ encodeRawProperties properties ++ encodeForest kids

/-- Changes the properties of the node at the end of a way. -/
def editAt (f : List RawProperty → List RawProperty) : Forest (List RawProperty) → List Nat → Forest (List RawProperty)
  | .nil, _ => .nil
  | .cons properties kids next, [] => .cons properties kids next
  | .cons properties kids next, [0] => .cons (f properties) kids next
  | .cons properties kids next, 0 :: i :: way => .cons properties (editAt f kids (i :: way)) next
  | .cons properties kids next, (i + 1) :: way => .cons properties kids (editAt f next (i :: way))

/-- The node at the end of a way through the trees of a forest. -/
def placeIn (a : Nat) (forest : Forest Entry) : List Nat → Option (Nat × Node)
  | [] => none
  | i :: way => (childAt a forest i).bind fun child => place child.1 child.2 way

/-- The first node stands in front of the second one and does not contain it. -/
def Before : List Nat → List Nat → Prop
  | i :: way, j :: way' => i < j ∨ i = j ∧ Before way way'
  | _, _ => False

section Edit

variable {a b : Nat} {forest : Forest Entry} {found found' : Node} {way way' : List Nat}

theorem encodeRawProperties_raw (properties : List Property) :
    encodeRawProperties (properties.map Property.raw) = encodeProperties properties := by
  rw [encodeRawProperties, List.map_map]
  rfl

theorem length_trees_rawForest (forest : Forest Entry) : (rawForest forest).trees.length = forest.trees.length := by
  induction forest with
  | nil => rfl
  | cons entry kids next _ ih => exact congrArg Nat.succ ih

theorem length_trees_editAt (f : List RawProperty → List RawProperty) (forest : Forest (List RawProperty))
    (way : List Nat) : (editAt f forest way).trees.length = forest.trees.length := by
  induction forest generalizing way with
  | nil => rfl
  | cons properties kids next _ ih =>
      rcases way with _ | ⟨_ | i, _ | ⟨j, way⟩⟩
      · rfl
      · rfl
      · rfl
      · exact congrArg Nat.succ (ih _)
      · exact congrArg Nat.succ (ih _)

theorem encodeRaw_rawForest (forest : Forest Entry) : encodeRaw (rawForest forest) = encodeForest forest := by
  induction forest with
  | nil => rfl
  | cons entry kids next ihkids ihnext =>
      have hkids := length_trees_rawForest kids
      rw [rawForest, Forest.map, encodeRaw, encodeForest]
      rw [rawForest] at ihkids ihnext hkids
      rw [ihkids, ihnext, hkids, Entry.raw, encodeRawProperties_raw, List.length_map]

theorem rawNode_raw (node : Node) : rawNode node.label.raw node.kids = flatten node := by
  rw [rawNode, flatten, Forest.single, encodeForest, encodeForest, List.append_nil, Entry.raw, encodeRawProperties_raw,
    List.length_map]

theorem encodeRaw_cons (properties : List RawProperty) (kids : Forest Entry) (next : Forest (List RawProperty)) :
    encodeRaw (.cons properties (rawForest kids) next) = rawNode properties kids ++ encodeRaw next := by
  rw [encodeRaw, rawNode, length_trees_rawForest, encodeRaw_rawForest]

theorem rawForest_cons (entry : Entry) (kids next : Forest Entry) :
    rawForest (.cons entry kids next) = .cons entry.raw (rawForest kids) (rawForest next) := rfl

theorem rawNode_entry (entry : Entry) (kids : Forest Entry) : rawNode entry.raw kids = flatten ⟨entry, kids⟩ :=
  rawNode_raw ⟨entry, kids⟩

/-- The bytes in front of the children. -/
def header (entry : Entry) (kids : Forest Entry) : Bytes :=
  longWord entry.properties.length ++ longWord kids.trees.length ++ encodeProperties entry.properties

theorem encodeForest_header (entry : Entry) (kids next : Forest Entry) :
    encodeForest (.cons entry kids next) = header entry kids ++ encodeForest kids ++ encodeForest next := rfl

theorem encodeRaw_header (entry : Entry) (kids : Forest Entry) {kids' : Forest (List RawProperty)}
    (next : Forest (List RawProperty)) (hlength : kids'.trees.length = kids.trees.length) :
    encodeRaw (.cons entry.raw kids' next) = header entry kids ++ encodeRaw kids' ++ encodeRaw next := by
  rw [encodeRaw, header, hlength, Entry.raw, encodeRawProperties_raw, List.length_map]

theorem childrenAt_eq (a : Nat) (entry : Entry) (kids : Forest Entry) :
    childrenAt a ⟨entry, kids⟩ = a + (header entry kids).length := by
  rw [childrenAt, header]
  simp only [List.length_append, longWord_length]
  omega

/-- The bytes around the node of a way. -/
theorem placeIn_split (h : placeIn a forest way = some (b, found)) :
    ∃ pre post, b = a + pre.length ∧ encodeForest forest = pre ++ flatten found ++ post ∧
      ∀ f, encodeRaw (editAt f (rawForest forest) way) = pre ++ rawNode (f found.label.raw) found.kids ++ post := by
  induction forest generalizing a way with
  | nil => rcases way with _ | ⟨_ | i, way⟩ <;> cases h
  | cons entry kids next ihkids ihnext =>
      rcases way with _ | ⟨_ | i, way⟩
      · cases h
      · rcases way with _ | ⟨j, way⟩
        · cases h
          refine ⟨[], encodeForest next, rfl, by rw [encodeForest_cons]; rfl, fun f => ?_⟩
          exact (encodeRaw_cons (f entry.raw) kids (rawForest next)).trans
            (by rw [encodeRaw_rawForest]; rfl)
        · have hkids : placeIn (childrenAt a ⟨entry, kids⟩) kids (j :: way) = some (b, found) := h
          obtain ⟨pre, post, hb, hencode, hedit⟩ := ihkids hkids
          refine ⟨header entry kids ++ pre, post ++ encodeForest next, ?_, ?_, fun f => ?_⟩
          · rw [hb, childrenAt_eq, List.length_append, Nat.add_assoc]
          · rw [encodeForest_header, hencode]
            simp only [List.append_assoc]
          · have hlength : (editAt f (rawForest kids) (j :: way)).trees.length = kids.trees.length := by
              rw [length_trees_editAt, length_trees_rawForest]
            rw [rawForest_cons, editAt, encodeRaw_header entry kids _ hlength, hedit f, encodeRaw_rawForest]
            simp only [List.append_assoc]
      · have hnext : placeIn (a + (flatten ⟨entry, kids⟩).length) next (i :: way) = some (b, found) := h
        obtain ⟨pre, post, hb, hencode, hedit⟩ := ihnext hnext
        refine ⟨flatten ⟨entry, kids⟩ ++ pre, post, ?_, ?_, fun f => ?_⟩
        · rw [hb, List.length_append, Nat.add_assoc]
        · rw [encodeForest_cons, hencode]
          simp only [List.append_assoc]
        · rw [rawForest_cons, editAt, encodeRaw_cons, rawNode_entry, hedit f]
          simp only [List.append_assoc]

/-- The bytes around two nodes, one behind the other. -/
theorem placeIn_split_two {b' : Nat} (h : placeIn a forest way = some (b, found))
    (h' : placeIn a forest way' = some (b', found')) (hbefore : Before way way') :
    ∃ pre mid post, b = a + pre.length ∧ b' = b + (flatten found).length + mid.length ∧
      encodeForest forest = pre ++ flatten found ++ mid ++ flatten found' ++ post ∧
      ∀ f g, encodeRaw (editAt g (editAt f (rawForest forest) way) way') =
        pre ++ rawNode (f found.label.raw) found.kids ++ mid ++ rawNode (g found'.label.raw) found'.kids ++ post := by
  induction forest generalizing a way way' with
  | nil => rcases way with _ | ⟨_ | i, way⟩ <;> cases h
  | cons entry kids next ihkids ihnext =>
      rcases way with _ | ⟨_ | i, way⟩
      · cases h
      · rcases way' with _ | ⟨_ | i', way'⟩
        · cases h'
        · -- both are in the first tree
          have hrest : Before way way' := by
            rcases hbefore with hlt | ⟨-, hrest⟩
            · exact absurd hlt (Nat.lt_irrefl 0)
            · exact hrest
          rcases way with _ | ⟨j, way⟩
          · cases hrest
          rcases way' with _ | ⟨j', way'⟩
          · cases hrest
          have hkids : placeIn (childrenAt a ⟨entry, kids⟩) kids (j :: way) = some (b, found) := h
          have hkids' : placeIn (childrenAt a ⟨entry, kids⟩) kids (j' :: way') = some (b', found') := h'
          obtain ⟨pre, mid, post, hb, hb', hencode, hedit⟩ := ihkids hkids hkids' hrest
          refine ⟨header entry kids ++ pre, mid, post ++ encodeForest next, ?_, hb', ?_, fun f g => ?_⟩
          · rw [hb, childrenAt_eq, List.length_append, Nat.add_assoc]
          · rw [encodeForest_header, hencode]
            simp only [List.append_assoc]
          · have hlength : (editAt g (editAt f (rawForest kids) (j :: way)) (j' :: way')).trees.length = kids.trees.length := by
              rw [length_trees_editAt, length_trees_editAt, length_trees_rawForest]
            rw [rawForest_cons, editAt, editAt, encodeRaw_header entry kids _ hlength, hedit f g, encodeRaw_rawForest]
            simp only [List.append_assoc]
        · -- the second one is behind the first tree
          have hnext : placeIn (a + (flatten ⟨entry, kids⟩).length) next (i' :: way') = some (b', found') := h'
          obtain ⟨pre', post', hb', hencode', hedit'⟩ := placeIn_split hnext
          rcases way with _ | ⟨j, way⟩
          · cases h
            refine ⟨[], pre', post', rfl, hb', ?_, fun f g => ?_⟩
            · rw [encodeForest_cons, hencode']
              simp only [List.append_assoc, List.nil_append]
            · rw [rawForest_cons, editAt, editAt, encodeRaw_cons, hedit' g]
              simp only [List.append_assoc, List.nil_append]
          · have hkids : placeIn (childrenAt a ⟨entry, kids⟩) kids (j :: way) = some (b, found) := h
            obtain ⟨pre, post, hb, hencode, hedit⟩ := placeIn_split hkids
            refine ⟨header entry kids ++ pre, post ++ pre', post', ?_, ?_, ?_, fun f g => ?_⟩
            · rw [hb, childrenAt_eq, List.length_append, Nat.add_assoc]
            · have hflat : (flatten ⟨entry, kids⟩).length =
                  (header entry kids).length + (pre.length + (flatten found).length + post.length) := by
                have hcons := congrArg List.length (encodeForest_header entry kids .nil)
                rw [encodeForest_cons, hencode] at hcons
                simp only [encodeForest, List.append_nil, List.length_append] at hcons
                omega
              rw [hb', hflat, hb, childrenAt_eq, List.length_append]
              omega
            · rw [encodeForest_header, hencode, hencode']
              simp only [List.append_assoc]
            · have hlength : (editAt f (rawForest kids) (j :: way)).trees.length = kids.trees.length := by
                rw [length_trees_editAt, length_trees_rawForest]
              rw [rawForest_cons, editAt, editAt, encodeRaw_header entry kids _ hlength, hedit f, hedit' g]
              simp only [List.append_assoc]
      · rcases way' with _ | ⟨_ | i', way'⟩
        · cases h'
        · rcases hbefore with hlt | ⟨heq, -⟩
          · exact absurd hlt (Nat.not_lt_zero _)
          · cases heq
        · have hnext : placeIn (a + (flatten ⟨entry, kids⟩).length) next (i :: way) = some (b, found) := h
          have hnext' : placeIn (a + (flatten ⟨entry, kids⟩).length) next (i' :: way') = some (b', found') := h'
          have hrest : Before (i :: way) (i' :: way') := by
            rcases hbefore with hlt | ⟨heq, hrest⟩
            · exact Or.inl (Nat.lt_of_succ_lt_succ hlt)
            · exact Or.inr ⟨Nat.succ.inj heq, hrest⟩
          obtain ⟨pre, mid, post, hb, hb', hencode, hedit⟩ := ihnext hnext hnext' hrest
          refine ⟨flatten ⟨entry, kids⟩ ++ pre, mid, post, ?_, hb', ?_, fun f g => ?_⟩
          · rw [hb, List.length_append, Nat.add_assoc]
          · rw [encodeForest_cons, hencode]
            simp only [List.append_assoc]
          · rw [rawForest_cons, editAt, editAt, encodeRaw_cons, rawNode_entry, hedit f g]
            simp only [List.append_assoc]

end Edit

end BareBoot.DeviceTree
