import BareBoot.DeviceTree
import BareBoot.Forest

/-! The bytes of a flattened device tree whose nodes have properties of any kind, and what the functions
that pass over properties and subtrees do with them. -/

namespace BareBoot.DeviceTree

open Kext
open Plist (Bytes ascii cstr)

/-! ### Nodes -/

/-- A property with a C string of at most 31 characters as its name. -/
structure Property where
  name : Bytes
  value : Bytes
  nameFits : name.length < 32
  nameText : 0 ∉ name
  valueFits : value.length < 2 ^ 32

/-- The properties of a node. -/
structure Record where
  properties : List Property
  nonempty : properties ≠ []
  fits : properties.length < 2 ^ 32

/-- The numbers of children fit their fields. -/
def Fits {α : Type} : Forest α → Prop
  | .nil => True
  | .cons _ kids next => kids.trees.length < 2 ^ 32 ∧ Fits kids ∧ Fits next

def height {α : Type} : Forest α → Nat
  | .nil => 0
  | .cons _ kids next => max (height kids + 1) (height next)

/-! ### The bytes of a tree -/

def longWord (n : Nat) : Bytes := (List.range 4).map (wordByte n)

def Property.encode (p : Property) : Bytes :=
  p.name ++ List.replicate (32 - p.name.length) 0 ++ longWord p.value.length ++ p.value ++
    List.replicate (roundLong p.value.length - p.value.length) 0

def encodeProperties (properties : List Property) : Bytes := (properties.map Property.encode).flatten

def encodeNodes : Forest Record → Bytes
  | .nil => []
  | .cons record kids next =>
      longWord record.properties.length ++ longWord kids.trees.length ++ encodeProperties record.properties ++
        encodeNodes kids ++ encodeNodes next

def encodeNode (node : Tree Record) : Bytes := encodeNodes (.single node)

/-- Where the children of a record start. -/
def kidsAt (a : Nat) (record : Record) : Nat := a + 8 + (encodeProperties record.properties).length

/-- The trees of a forest with their addresses. -/
def siblings : Nat → Forest Record → List (Nat × Tree Record)
  | _, .nil => []
  | a, .cons record kids next => (a, ⟨record, kids⟩) :: siblings (a + (encodeNode ⟨record, kids⟩).length) next

/-- All nodes with their addresses, each in front of its children. -/
def preorder : Nat → Forest Record → List (Nat × Tree Record)
  | _, .nil => []
  | a, .cons record kids next =>
      (a, ⟨record, kids⟩) :: (preorder (kidsAt a record) kids ++ preorder (a + (encodeNode ⟨record, kids⟩).length) next)

/-! ### Properties in memory -/

section Bytes

variable {memory : Memory} {a : Nat} {s t : Bytes}

theorem longWord_length (n : Nat) : (longWord n).length = 4 := by
  rw [longWord, List.length_map, List.length_range]

theorem wordAt_of_holds {n : Nat} (h : holds memory a (longWord n) = true) (hn : n < 2 ^ 32) : wordAt memory 4 a = n := by
  have hbytes : ∀ i < 4, memory (a + i) = wordByte n i := by
    intro i hi
    rw [holds_getD h (by rwa [longWord_length]), longWord, List.getD_eq_getElem?_getD, List.getElem?_map,
      List.getElem?_range hi]
    rfl
  rw [wordAt_wordByte hbytes]
  exact Nat.mod_eq_of_lt hn

/-- Two C strings at one place are the same. -/
theorem equalsString_iff (ht : holds memory a (t ++ [0]) = true) (hs0 : 0 ∉ s) (ht0 : 0 ∉ t) :
    equalsString memory a s = true ↔ t = s := by
  unfold equalsString
  constructor
  · intro hs
    induction s generalizing a t with
    | nil =>
        cases t with
        | nil => rfl
        | cons d t =>
            have hd := (holds_cons.mp ht).1
            have h0 := (holds_cons.mp hs).1
            rw [hd] at h0
            exact absurd (List.mem_cons.mpr (Or.inl h0.symm)) ht0
    | cons c s ih =>
        have hc := (holds_cons.mp hs).1
        cases t with
        | nil =>
            have h0 := (holds_cons.mp ht).1
            rw [h0] at hc
            exact absurd (List.mem_cons.mpr (Or.inl hc)) hs0
        | cons d t =>
            have hd := (holds_cons.mp ht).1
            have hrest := ih (holds_cons.mp ht).2 (fun hmem => hs0 (List.mem_cons_of_mem _ hmem))
              (fun hmem => ht0 (List.mem_cons_of_mem _ hmem)) (holds_cons.mp hs).2
            rw [← hc, ← hd, hrest]
  · rintro rfl
    exact ht

theorem Property.encode_length (p : Property) : p.encode.length = 36 + roundLong p.value.length := by
  have hname := p.nameFits
  have hround : p.value.length ≤ roundLong p.value.length := by
    unfold roundLong
    omega
  simp only [Property.encode, List.length_append, List.length_replicate, longWord_length]
  omega

/-- What stands in memory for a property. -/
structure PropertyAt (memory : Memory) (a : Nat) (p : Property) : Prop where
  name : holds memory a (p.name ++ [0]) = true
  length : propLength memory a = p.value.length
  value : holds memory (a + 36) p.value = true
  next : nextProp memory a = a + p.encode.length

theorem propertyAt {p : Property} (h : holds memory a p.encode = true) : PropertyAt memory a p := by
  have hname := p.nameFits
  have hpad : List.replicate (32 - p.name.length) (0 : UInt8) = [0] ++ List.replicate (31 - p.name.length) 0 := by
    rw [show 32 - p.name.length = 1 + (31 - p.name.length) by omega, List.replicate_add]
    rfl
  have hsplit := h
  rw [Property.encode, holds_append, holds_append, holds_append, Bool.and_eq_true, Bool.and_eq_true,
    Bool.and_eq_true] at hsplit
  obtain ⟨⟨⟨hfield, hlength⟩, hvalue⟩, -⟩ := hsplit
  simp only [List.length_append, List.length_replicate, longWord_length] at hlength hvalue
  rw [show a + (p.name.length + (32 - p.name.length)) = a + 32 by omega] at hlength
  rw [show a + (p.name.length + (32 - p.name.length) + 4) = a + 36 by omega] at hvalue
  rw [hpad, ← List.append_assoc, holds_append, Bool.and_eq_true] at hfield
  have hlen : propLength memory a = p.value.length := wordAt_of_holds hlength p.valueFits
  refine ⟨hfield.1, hlen, hvalue, ?_⟩
  rw [nextProp, hlen, p.encode_length, Nat.add_assoc]

theorem encodeProperties_cons (p : Property) (ps : List Property) :
    encodeProperties (p :: ps) = p.encode ++ encodeProperties ps := by
  rw [encodeProperties, List.map_cons, List.flatten_cons]
  rfl

theorem skipProps_eq {ps : List Property} (h : holds memory a (encodeProperties ps) = true) :
    skipProps memory ps.length a = a + (encodeProperties ps).length := by
  induction ps generalizing a with
  | nil => rfl
  | cons p ps ih =>
      rw [encodeProperties_cons, holds_append, Bool.and_eq_true] at h
      rw [List.length_cons, skipProps, (propertyAt h.1).next, ih h.2, encodeProperties_cons, List.length_append,
        Nat.add_assoc]

/-- The property that is found is the first one of that name. -/
theorem getProperty_eq {ps : List Property} {name : Bytes} {value : Bytes} (h : holds memory a (encodeProperties ps) = true)
    (hname : 0 ∉ name) (hvalue : (ps.find? fun p => p.name = name).map Property.value = some value) :
    ∃ str, getProperty memory name ps.length a = some (str, value.length) ∧ holds memory str value = true := by
  induction ps generalizing a with
  | nil => cases hvalue
  | cons p ps ih =>
      rw [encodeProperties_cons, holds_append, Bool.and_eq_true] at h
      have hp := propertyAt h.1
      rw [List.length_cons, getProperty]
      by_cases hsame : p.name = name
      · have hequal : equalsString memory a name = true := (equalsString_iff hp.name hname p.nameText).mpr hsame
        rw [List.find?_cons_of_pos (by exact decide_eq_true hsame)] at hvalue
        obtain rfl := Option.some_inj.mp hvalue
        rw [if_pos hequal, hp.length]
        exact ⟨a + 36, rfl, hp.value⟩
      · have hequal : ¬ equalsString memory a name = true := fun h' => hsame ((equalsString_iff hp.name hname p.nameText).mp h')
        rw [List.find?_cons_of_neg (by simpa using hsame)] at hvalue
        rw [if_neg hequal, hp.next]
        exact ih h.2 hvalue

/-- A terminated value starts with its text and a `NUL`. -/
theorem cstr_terminated {value : Bytes} (h : 0 ∈ value) : ∃ rest, value = cstr value ++ 0 :: rest := by
  induction value with
  | nil => cases h
  | cons c value ih =>
      by_cases hc : c = 0
      · subst hc
        exact ⟨value, rfl⟩
      · rcases List.mem_cons.mp h with h0 | htail
        · exact absurd h0.symm hc
        · obtain ⟨rest, hrest⟩ := ih htail
          refine ⟨rest, ?_⟩
          have hcstr : cstr (c :: value) = c :: cstr value := List.takeWhile_cons_of_pos (decide_eq_true hc)
          rw [hcstr, List.cons_append, ← hrest]

end Bytes

/-! ### Nodes in memory -/

section Nodes

variable {memory : Memory} {fuel a : Nat} {record : Record} {kids next forest : Forest Record}

theorem encodeNodes_cons : encodeNodes (.cons record kids next) = encodeNode ⟨record, kids⟩ ++ encodeNodes next := by
  unfold encodeNode Forest.single
  rw [encodeNodes, encodeNodes, encodeNodes, List.append_nil]

theorem kidsAt_add : kidsAt a record + (encodeNodes kids).length = a + (encodeNode ⟨record, kids⟩).length := by
  unfold kidsAt encodeNode Forest.single
  rw [encodeNodes, encodeNodes, List.append_nil]
  simp only [List.length_append, longWord_length]
  omega

/-- A forest stands in memory, with counts that fit, and the recursion can follow it. -/
structure NodesAt (memory : Memory) (fuel a : Nat) (forest : Forest Record) : Prop where
  bytes : holds memory a (encodeNodes forest) = true
  fits : Fits forest
  depth : height forest ≤ fuel

/-- What stands in memory for the first tree. -/
structure FirstAt (memory : Memory) (a : Nat) (record : Record) (kids : Forest Record) : Prop where
  properties : nProperties memory a = record.properties.length
  children : nChildren memory a = kids.trees.length
  texts : holds memory (a + 8) (encodeProperties record.properties) = true

theorem NodesAt.first (h : NodesAt memory fuel a (.cons record kids next)) : FirstAt memory a record kids := by
  have hbytes := h.bytes
  rw [encodeNodes, holds_append, holds_append, holds_append, holds_append] at hbytes
  simp only [Bool.and_eq_true, List.length_append, longWord_length] at hbytes
  obtain ⟨⟨⟨⟨hproperties, hchildren⟩, htexts⟩, -⟩, -⟩ := hbytes
  exact ⟨wordAt_of_holds hproperties record.fits, wordAt_of_holds hchildren h.fits.1, htexts⟩

theorem NodesAt.behind (h : NodesAt memory fuel a (.cons record kids next)) :
    NodesAt memory fuel (a + (encodeNode ⟨record, kids⟩).length) next := by
  have hbytes := h.bytes
  have hdepth := h.depth
  rw [encodeNodes_cons, holds_append, Bool.and_eq_true] at hbytes
  rw [height] at hdepth
  exact ⟨hbytes.2, h.fits.2.2, by omega⟩

/-- The recursion is deep enough for the children of a node. -/
theorem NodesAt.below (h : NodesAt memory fuel a (.cons record kids next)) :
    ∃ depth, fuel = depth + 1 ∧ NodesAt memory depth (kidsAt a record) kids := by
  have hbytes := h.bytes
  have hdepth := h.depth
  rw [height] at hdepth
  rw [encodeNodes, holds_append, holds_append, Bool.and_eq_true, Bool.and_eq_true] at hbytes
  obtain ⟨⟨-, hkids⟩, -⟩ := hbytes
  simp only [List.length_append, longWord_length] at hkids
  rw [← Nat.add_assoc] at hkids
  exact ⟨fuel - 1, by omega, hkids, h.fits.2.1, by omega⟩

theorem NodesAt.skipProperties (h : NodesAt memory fuel a (.cons record kids next)) :
    skipProperties memory (some a) = some (kidsAt a record) := by
  have hpos : 0 < record.properties.length := List.length_pos_iff.mpr record.nonempty
  rw [DeviceTree.skipProperties, h.first.properties, if_neg hpos.ne', skipProps_eq h.first.texts]
  rfl

/-- The recursion passes over the trees it is sent over. -/
theorem NodesAt.skipChildren (h : NodesAt memory fuel a forest) :
    skipChildren (skipTree memory fuel) forest.trees.length (some a) = some (some (a + (encodeNodes forest).length)) := by
  induction forest generalizing fuel a with
  | nil => rfl
  | cons record kids next ihkids ihnext =>
      obtain ⟨depth, rfl, hkids⟩ := h.below
      have htree : skipTree memory (depth + 1) (some a) = some (some (a + (encodeNode ⟨record, kids⟩).length)) := by
        rw [skipTree.eq_def]
        dsimp only
        rw [h.skipProperties]
        dsimp only
        rw [h.first.children, ihkids hkids, kidsAt_add]
      rw [Forest.trees, List.length_cons, DeviceTree.skipChildren, htree, Option.bind_some, ihnext h.behind,
        encodeNodes_cons, List.length_append, Nat.add_assoc]

theorem NodesAt.skipTree (h : NodesAt memory fuel a (.cons record kids next)) :
    skipTree memory fuel (some a) = some (some (a + (encodeNode ⟨record, kids⟩).length)) := by
  have hone : NodesAt memory fuel a (.single ⟨record, kids⟩) := by
    have hbytes := h.bytes
    have hdepth := h.depth
    rw [encodeNodes_cons, holds_append, Bool.and_eq_true] at hbytes
    refine ⟨hbytes.1, ⟨h.fits.1, h.fits.2.1, trivial⟩, ?_⟩
    simp only [Forest.single, height] at hdepth ⊢
    omega
  have hskip := hone.skipChildren
  have hlength : (Forest.single (⟨record, kids⟩ : Tree Record)).trees.length = 1 := rfl
  rw [hlength, DeviceTree.skipChildren] at hskip
  cases hrest : DeviceTree.skipTree memory fuel (some a) with
  | none =>
      rw [hrest] at hskip
      cases hskip
  | some rest =>
      rw [hrest, Option.bind_some, DeviceTree.skipChildren] at hskip
      exact hskip

end Nodes

end BareBoot.DeviceTree
