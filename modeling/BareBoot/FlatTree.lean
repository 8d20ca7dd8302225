import BareBoot.FlatNode

/-! The tree a flattened device tree stands for, and the lookup of a path in it. -/

namespace BareBoot.DeviceTree

open Kext
open Plist (Bytes ascii cstr)

/-! ### Trees -/

/-- The properties of a node; the value of the first one that is called `name` is terminated. -/
structure Entry where
  properties : List Property
  nameValue : Bytes
  fits : properties.length < 2 ^ 32
  named : (properties.find? fun p => p.name = ascii "name").map Property.value = some nameValue
  terminated : 0 ∈ nameValue

abbrev Node := Tree Entry

def Entry.name (entry : Entry) : Bytes := cstr entry.nameValue

/-! ### The bytes of a tree -/

def encodeForest : Forest Entry → Bytes
  | .nil => []
  | .cons entry kids next =>
      longWord entry.properties.length ++ longWord kids.trees.length ++ encodeProperties entry.properties ++
        encodeForest kids ++ encodeForest next

def flatten (node : Node) : Bytes := encodeForest (.single node)

/-! ### Paths -/

/-- A component of a path. -/
structure Component (c : Bytes) : Prop where
  nonempty : c ≠ []
  fits : c.length < 32
  separator : 47 ∉ c
  text : 0 ∉ c

/-- The components with one separator between them. -/
def pathFrom : List Bytes → Bytes
  | [] => []
  | [c] => c
  | c :: cs => c ++ 47 :: pathFrom cs

/-- The canonical path, with or without the leading separator. -/
def pathName (leading : Bool) (components : List Bytes) : Bytes :=
  if leading then 47 :: pathFrom components else pathFrom components

/-- The first child of that name. -/
def childIndex (c : Bytes) (kids : Forest Entry) : Option Nat := kids.trees.findIdx? fun child => child.label.name = c

/-- The way down along the first children of these names. -/
def walk : Node → List Bytes → Option (List Nat)
  | _, [] => some []
  | node, c :: cs =>
      (childIndex c node.kids).bind fun i => (node.kids.trees[i]?).bind fun child => (walk child cs).map (i :: ·)

/-- The tree at an index of a forest, with the address of its bytes when those of the forest start at `a`. -/
def childAt : Nat → Forest Entry → Nat → Option (Nat × Node)
  | _, .nil, _ => none
  | a, .cons entry kids _, 0 => some (a, ⟨entry, kids⟩)
  | a, .cons entry kids next, i + 1 => childAt (a + (flatten ⟨entry, kids⟩).length) next i

/-- Where the children of a node start. -/
def childrenAt (a : Nat) (node : Node) : Nat := a + 8 + (encodeProperties node.label.properties).length

/-- The node at the end of a way down, with its address. -/
def place : Nat → Node → List Nat → Option (Nat × Node)
  | a, node, [] => some (a, node)
  | a, node, i :: way =>
      (childAt (childrenAt a node) node.kids i).bind fun child => place child.1 child.2 way

/-! ### Nodes in memory -/

section Nodes

variable {memory : Memory} {fuel a : Nat}

theorem encodeForest_cons (entry : Entry) (kids next : Forest Entry) :
    encodeForest (.cons entry kids next) = flatten ⟨entry, kids⟩ ++ encodeForest next := by
  unfold flatten Forest.single
  rw [encodeForest, encodeForest, encodeForest, List.append_nil]

theorem flatten_length (entry : Entry) (kids : Forest Entry) :
    (flatten ⟨entry, kids⟩).length = 8 + (encodeProperties entry.properties).length + (encodeForest kids).length := by
  unfold flatten Forest.single
  rw [encodeForest, encodeForest, List.append_nil]
  simp only [List.length_append, longWord_length]

theorem Entry.length_pos (entry : Entry) : 0 < entry.properties.length := by
  have hnamed := entry.named
  cases hproperties : entry.properties with
  | nil =>
      rw [hproperties] at hnamed
      cases hnamed
  | cons p ps => exact Nat.succ_pos _

/-- A node stands in memory, with counts that fit, and the recursion can follow it. -/
structure Stands (memory : Memory) (fuel a : Nat) (node : Node) : Prop where
  bytes : holds memory a (flatten node) = true
  count : node.kids.trees.length < 2 ^ 32
  kids : Fits node.kids
  depth : height node.kids ≤ fuel

theorem Stands.parts {node : Node} (h : Stands memory fuel a node) :
    nProperties memory a = node.label.properties.length ∧ nChildren memory a = node.kids.trees.length ∧
      holds memory (a + 8) (encodeProperties node.label.properties) = true ∧
      holds memory (childrenAt a node) (encodeForest node.kids) = true := by
  have hsplit := h.bytes
  unfold flatten Forest.single at hsplit
  rw [encodeForest, encodeForest, List.append_nil, holds_append, holds_append, holds_append, Bool.and_eq_true,
    Bool.and_eq_true, Bool.and_eq_true] at hsplit
  obtain ⟨⟨⟨hproperties, hchildren⟩, hprops⟩, hkids⟩ := hsplit
  simp only [List.length_append, longWord_length] at hchildren hprops hkids
  rw [← Nat.add_assoc] at hkids
  exact ⟨wordAt_of_holds hproperties node.label.fits, wordAt_of_holds hchildren h.count, hprops, hkids⟩

theorem Stands.skipProperties {node : Node} (h : Stands memory fuel a node) :
    skipProperties memory (some a) = some (childrenAt a node) := by
  obtain ⟨hcount, -, hprops, -⟩ := h.parts
  have hpos := node.label.length_pos
  rw [DeviceTree.skipProperties, hcount, if_neg hpos.ne', skipProps_eq hprops]
  rfl

/-- The value of the name. -/
theorem Stands.name {node : Node} (h : Stands memory fuel a node) :
    ∃ str, dtGetProperty memory (some a) (ascii "name") = some (str, node.label.nameValue.length) ∧
      holds memory str node.label.nameValue = true := by
  obtain ⟨hcount, -, hprops, -⟩ := h.parts
  rw [dtGetProperty, hcount]
  exact getProperty_eq hprops (by decide) node.label.named

/-- A node has the name of the component exactly when the strings agree. -/
theorem Entry.equalsString_name {str : Nat} {c : Bytes} (entry : Entry) (h : holds memory str entry.nameValue = true)
    (hc : 0 ∉ c) : equalsString memory str c = true ↔ entry.name = c := by
  obtain ⟨rest, hrest⟩ := cstr_terminated entry.terminated
  rw [hrest, show cstr entry.nameValue ++ 0 :: rest = cstr entry.nameValue ++ [0] ++ rest by simp, holds_append,
    Bool.and_eq_true] at h
  exact equalsString_iff h.1 hc (zero_not_mem_cstr _)

/-- A forest stands in memory. -/
structure StandsForest (memory : Memory) (fuel a : Nat) (forest : Forest Entry) : Prop where
  bytes : holds memory a (encodeForest forest) = true
  fits : Fits forest
  depth : height forest ≤ fuel

theorem Stands.children {node : Node} (h : Stands memory fuel a node) :
    StandsForest memory fuel (childrenAt a node) node.kids :=
  ⟨h.parts.2.2.2, h.kids, h.depth⟩

theorem Stands.deeper {node : Node} (h : Stands memory fuel a node) : Stands memory (fuel + 1) a node :=
  ⟨h.bytes, h.count, h.kids, Nat.le_succ_of_le h.depth⟩

/-- The recursion is deep enough for one more node. -/
theorem StandsForest.first {entry : Entry} {kids next : Forest Entry} (h : StandsForest memory fuel a (.cons entry kids next)) :
    ∃ depth, fuel = depth + 1 ∧ Stands memory depth a ⟨entry, kids⟩ ∧
      StandsForest memory fuel (a + (flatten ⟨entry, kids⟩).length) next := by
  obtain ⟨hcount, hkids, hnext⟩ := h.fits
  have hdepth := h.depth
  have hbytes := h.bytes
  rw [height] at hdepth
  rw [encodeForest_cons, holds_append, Bool.and_eq_true] at hbytes
  have hfirst : height kids ≤ fuel - 1 := by omega
  exact ⟨fuel - 1, by omega, ⟨hbytes.1, hcount, hkids, hfirst⟩, ⟨hbytes.2, hnext, by omega⟩⟩

/-- The record of an entry. -/
def Entry.record (entry : Entry) : Record := ⟨entry.properties, List.length_pos_iff.mp entry.length_pos, entry.fits⟩

theorem length_trees_map (forest : Forest Entry) : (forest.map Entry.record).trees.length = forest.trees.length := by
  induction forest with
  | nil => rfl
  | cons entry kids next _ ih => rw [Forest.map, Forest.trees, Forest.trees, List.length_cons, List.length_cons, ih]

theorem encodeNodes_map (forest : Forest Entry) : encodeNodes (forest.map Entry.record) = encodeForest forest := by
  induction forest with
  | nil => rfl
  | cons entry kids next ihkids ihnext =>
      rw [Forest.map, encodeNodes, encodeForest, ihkids, ihnext, length_trees_map]
      rfl

theorem fits_map {forest : Forest Entry} (h : Fits forest) : Fits (forest.map Entry.record) := by
  induction forest with
  | nil => trivial
  | cons entry kids next ihkids ihnext =>
      obtain ⟨hcount, hkids, hnext⟩ := h
      exact ⟨by rwa [length_trees_map], ihkids hkids, ihnext hnext⟩

theorem height_map (forest : Forest Entry) : height (forest.map Entry.record) = height forest := by
  induction forest with
  | nil => rfl
  | cons entry kids next ihkids ihnext => rw [Forest.map, height, height, ihkids, ihnext]

theorem StandsForest.records {forest : Forest Entry} (h : StandsForest memory fuel a forest) :
    NodesAt memory fuel a (forest.map Entry.record) where
  bytes := by rw [encodeNodes_map, h.bytes]
  fits := fits_map h.fits
  depth := by rw [height_map]; exact h.depth

theorem skipTree_eq {node : Node} (h : Stands memory fuel a node) :
    skipTree memory (fuel + 1) (some a) = some (some (a + (flatten node).length)) := by
  obtain ⟨entry, kids⟩ := node
  have hforest : StandsForest memory (fuel + 1) a (.single ⟨entry, kids⟩) := by
    refine ⟨h.bytes, ⟨h.count, h.kids, trivial⟩, ?_⟩
    have := h.depth
    dsimp only [Forest.single, height] at this ⊢
    omega
  have hencode : encodeNode ⟨entry.record, kids.map Entry.record⟩ = flatten ⟨entry, kids⟩ :=
    encodeNodes_map (.single ⟨entry, kids⟩)
  rw [← hencode]
  exact hforest.records.skipTree

/-! ### Looking for a child -/

/-- The child that is found has the first name that agrees. -/
theorem findChildFrom_eq {forest : Forest Entry} {c : Bytes} (hc : 0 ∉ c) (h : StandsForest memory fuel a forest) :
    findChildFrom memory fuel c forest.trees.length (some a) =
      some ((childIndex c forest).bind fun i => (childAt a forest i).map Prod.fst) := by
  induction forest generalizing a with
  | nil => rfl
  | cons entry kids next _ ih =>
      obtain ⟨depth, rfl, hfirst, hnext⟩ := h.first
      obtain ⟨str, hname, hstr⟩ := hfirst.name
      rw [Forest.trees, List.length_cons, findChildFrom, hname]
      dsimp only
      by_cases hsame : entry.name = c
      · have hindex : childIndex c (.cons entry kids next) = some 0 := by
          rw [childIndex, Forest.trees, List.findIdx?_cons, if_pos (decide_eq_true hsame)]
        rw [if_pos ((entry.equalsString_name hstr hc).mpr hsame), hindex]
        rfl
      · have hindex : childIndex c (.cons entry kids next) = (childIndex c next).map (· + 1) := by
          rw [childIndex, Forest.trees, List.findIdx?_cons, if_neg (by simpa using hsame)]
          rfl
        have hrest : (childIndex c (.cons entry kids next)).bind (fun i => (childAt a (.cons entry kids next) i).map Prod.fst) =
            (childIndex c next).bind fun i => (childAt (a + (flatten ⟨entry, kids⟩).length) next i).map Prod.fst := by
          rw [hindex, Option.bind_map]
          rfl
        rw [if_neg fun hequal => hsame ((entry.equalsString_name hstr hc).mp hequal), hrest, ← ih hnext]
        split_ifs with hlast
        · rw [hlast]
          rfl
        · rw [skipTree_eq hfirst, Option.bind_some]

theorem childAt_node (a : Nat) (forest : Forest Entry) (i : Nat) : (childAt a forest i).map Prod.snd = forest.trees[i]? := by
  induction forest generalizing a i with
  | nil => cases i <;> rfl
  | cons entry kids next _ ih =>
      cases i with
      | zero => rfl
      | succ i => exact ih _ i

theorem StandsForest.child {forest : Forest Entry} {i b : Nat} {node : Node} (h : StandsForest memory fuel a forest)
    (hchild : childAt a forest i = some (b, node)) : Stands memory fuel b node := by
  induction forest generalizing a i with
  | nil => cases i <;> cases hchild
  | cons entry kids next _ ih =>
      obtain ⟨depth, rfl, hfirst, hnext⟩ := h.first
      cases i with
      | zero =>
          obtain ⟨rfl, rfl⟩ := Prod.mk.inj (Option.some_inj.mp hchild)
          exact hfirst.deeper
      | succ i => exact ih hnext hchild

theorem Stands.place {node found : Node} {way : List Nat} {b : Nat} (h : Stands memory fuel a node)
    (hplace : DeviceTree.place a node way = some (b, found)) : Stands memory fuel b found := by
  induction way generalizing a node with
  | nil =>
      obtain ⟨rfl, rfl⟩ := Prod.mk.inj (Option.some_inj.mp hplace)
      exact h
  | cons i way ih =>
      obtain ⟨⟨c, child⟩, hchild, hrest⟩ := Option.bind_eq_some_iff.mp hplace
      exact ih (h.children.child hchild) hrest

theorem place_append (a : Nat) (node : Node) (way rest : List Nat) :
    place a node (way ++ rest) = (place a node way).bind fun found => place found.1 found.2 rest := by
  induction way generalizing a node with
  | nil => rfl
  | cons i way ih =>
      rw [List.cons_append, place, place, Option.bind_assoc]
      congr 1
      funext child
      exact ih child.1 child.2

/-! ### Looking up a path -/

theorem getNextComponent_last {c : Bytes} (h : 47 ∉ c) : getNextComponent c = (c, []) := by
  induction c with
  | nil => rfl
  | cons x c ih =>
      rw [getNextComponent, if_neg fun hx => h (List.mem_cons.mpr (Or.inl hx.symm)),
        ih fun hmem => h (List.mem_cons_of_mem _ hmem)]

theorem getNextComponent_append {c rest : Bytes} (h : 47 ∉ c) : getNextComponent (c ++ 47 :: rest) = (c, rest) := by
  induction c with
  | nil => rfl
  | cons x c ih =>
      rw [List.cons_append, getNextComponent, if_neg fun hx => h (List.mem_cons.mpr (Or.inl hx.symm)),
        ih fun hmem => h (List.mem_cons_of_mem _ hmem)]

theorem getNextComponent_pathFrom {c : Bytes} (cs : List Bytes) (h : 47 ∉ c) :
    getNextComponent (pathFrom (c :: cs)) = (c, pathFrom cs) := by
  cases cs with
  | nil => exact getNextComponent_last h
  | cons d cs => exact getNextComponent_append h

theorem pathFrom_length (cs : List Bytes) (h : ∀ c ∈ cs, Component c) : cs.length ≤ (pathFrom cs).length := by
  induction cs with
  | nil => exact Nat.le_refl 0
  | cons c cs ih =>
      have hc : 0 < c.length := List.length_pos_iff.mpr (h c List.mem_cons_self).nonempty
      cases cs with
      | nil => exact hc
      | cons d cs =>
          have hrest := ih fun x hx => h x (List.mem_cons_of_mem _ hx)
          have hpath : pathFrom (c :: d :: cs) = c ++ 47 :: pathFrom (d :: cs) := rfl
          rw [hpath, List.length_append, List.length_cons, List.length_cons (a := 47)]
          omega

/-- The lookup goes where the walk goes. -/
theorem lookupFrom_eq {node : Node} (h : Stands memory fuel a node) {cs : List Bytes} (hcs : ∀ c ∈ cs, Component c)
    {rounds : Nat} (hrounds : cs.length < rounds) :
    lookupFrom memory fuel rounds a (pathFrom cs) =
      some ((walk node cs).bind fun way => (place a node way).map Prod.fst) := by
  induction cs generalizing a node rounds with
  | nil =>
      obtain ⟨rounds, rfl⟩ := Nat.exists_eq_succ_of_ne_zero hrounds.ne'
      rfl
  | cons c cs ih =>
      obtain ⟨rounds, rfl⟩ := Nat.exists_eq_succ_of_ne_zero (Nat.ne_of_gt (Nat.zero_lt_of_lt hrounds))
      have hc := hcs c List.mem_cons_self
      have hfits := hc.fits
      have hfind : findChild memory fuel a c = some ((childIndex c node.kids).bind fun i =>
          (childAt (childrenAt a node) node.kids i).map Prod.fst) := by
        rw [findChild, h.skipProperties, h.parts.2.1]
        exact findChildFrom_eq hc.text h.children
      rw [lookupFrom, getNextComponent_pathFrom cs hc.separator]
      dsimp only
      rw [if_neg (by omega), if_neg hc.nonempty, hfind, walk]
      cases hindex : childIndex c node.kids with
      | none => rfl
      | some i =>
          rw [Option.bind_some, Option.bind_some, Option.bind_some, ← childAt_node (childrenAt a node) node.kids i]
          cases hchild : childAt (childrenAt a node) node.kids i with
          | none => rfl
          | some found =>
              obtain ⟨b, child⟩ := found
              have hrest := ih (h.children.child hchild) (fun x hx => hcs x (List.mem_cons_of_mem _ hx))
                (Nat.lt_of_succ_lt_succ hrounds)
              rw [Option.map_some, Option.map_some, Option.bind_some]
              dsimp only
              rw [hrest, Option.bind_map]
              congr 2
              funext way
              rw [Function.comp_apply, place, hchild, Option.bind_some]

theorem walk_place {node : Node} {cs : List Bytes} {way : List Nat} (a : Nat) (h : walk node cs = some way) :
    ∃ b found, place a node way = some (b, found) := by
  induction cs generalizing a node way with
  | nil =>
      obtain rfl := Option.some_inj.mp h
      exact ⟨a, node, rfl⟩
  | cons c cs ih =>
      obtain ⟨i, -, hchild⟩ := Option.bind_eq_some_iff.mp h
      obtain ⟨child, hget, hrest⟩ := Option.bind_eq_some_iff.mp hchild
      obtain ⟨rest, hwalk, rfl⟩ := Option.map_eq_some_iff.mp hrest
      rw [← childAt_node (childrenAt a node)] at hget
      obtain ⟨⟨b, other⟩, hat, rfl⟩ := Option.map_eq_some_iff.mp hget
      rw [place, hat, Option.bind_some]
      exact ih b hwalk

theorem dtLookupEntry_eq {device : Device} (hdevice : device.initialized = true) (searchPoint : Option Nat) (leading : Bool)
    {cs : List Bytes} (hcs : ∀ c ∈ cs, Component c) {node : Node} (h : Stands memory fuel (searchPoint.getD device.root) node) :
    dtLookupEntry memory fuel device searchPoint (pathName leading cs) =
      some ((walk node cs).bind fun way => (place (searchPoint.getD device.root) node way).map Prod.fst) := by
  have hlookup := lookupFrom_eq h hcs (Nat.lt_succ_of_le (pathFrom_length cs hcs))
  unfold dtLookupEntry
  rw [hdevice, if_neg Bool.noConfusion]
  dsimp only
  cases cs with
  | nil => cases leading <;> exact hlookup
  | cons c cs =>
      have hc := hcs c List.mem_cons_self
      obtain ⟨x, rest, hpath, hx⟩ : ∃ x rest, pathFrom (c :: cs) = x :: rest ∧ x ≠ 47 := by
        cases c with
        | nil => exact absurd rfl hc.nonempty
        | cons x c =>
            have hx : x ≠ 47 := fun h47 => hc.separator (List.mem_cons.mpr (Or.inl h47.symm))
            cases cs with
            | nil => exact ⟨x, c, rfl, hx⟩
            | cons d cs => exact ⟨x, c ++ 47 :: pathFrom (d :: cs), rfl, hx⟩
      cases leading with
      | true =>
          rw [pathName, if_pos rfl]
          dsimp only
          rw [if_pos rfl, if_neg (by rw [hpath]; nofun)]
          exact hlookup
      | false =>
          rw [pathName, if_neg Bool.noConfusion, hpath]
          dsimp only
          rw [if_neg hx, ← hpath]
          exact hlookup

/-- From any node of the tree, the entry of a canonical path is that of the node the path names. -/
theorem dtLookupEntry_refines {root : Node} {base : Nat} (hbase : base ≠ 0) (hroot : holds memory base (flatten root) = true)
    (hfits : Fits (.single root)) (hfuel : height root.kids ≤ fuel) {way : List Nat} {a : Nat} {node : Node}
    (hplace : place base root way = some (a, node)) (searchPoint : Option Nat)
    (hsearch : searchPoint = some a ∨ searchPoint = none ∧ way = []) (leading : Bool) {cs : List Bytes}
    (hcs : ∀ c ∈ cs, Component c) :
    match walk node cs with
    | none => dtLookupEntry memory fuel (dtInit base) searchPoint (pathName leading cs) = some none
    | some rest => ∃ b found, place base root (way ++ rest) = some (b, found) ∧
        holds memory b (flatten found) = true ∧
        dtLookupEntry memory fuel (dtInit base) searchPoint (pathName leading cs) = some (some b) := by
  have hnode : Stands memory fuel a node := by
    apply Stands.place ⟨hroot, hfits.1, hfits.2.1, hfuel⟩ hplace
  have hdevice : (dtInit base).initialized = true := decide_eq_true hbase
  have hpoint : searchPoint.getD (dtInit base).root = a := by
    rcases hsearch with rfl | ⟨rfl, rfl⟩
    · rfl
    · exact (Prod.mk.inj (Option.some_inj.mp hplace)).1
  have hlookup := dtLookupEntry_eq hdevice searchPoint leading hcs (hpoint ▸ hnode)
  rw [hpoint] at hlookup
  cases hwalk : walk node cs with
  | none =>
      rw [hlookup, hwalk]
      rfl
  | some rest =>
      obtain ⟨b, found, hfound⟩ := walk_place a hwalk
      refine ⟨b, found, ?_, (hnode.place hfound).bytes, ?_⟩
      · rw [place_append, hplace]
        exact hfound
      · rw [hlookup, hwalk, Option.bind_some, hfound]
        rfl

theorem length_name : (ascii "name").length < 32 := by decide

theorem zero_notMem_name : 0 ∉ ascii "name" := by decide

/-- An entry with a name and nothing else. -/
def namedEntry (name : Bytes) (h : name.length < 2 ^ 31) : Entry where
  properties := [{
    name := ascii "name"
    value := name ++ [0]
    nameFits := length_name
    nameText := zero_notMem_name
    valueFits := by
      rw [List.length_append, List.length_singleton]
      omega }]
  nameValue := name ++ [0]
  fits := by
    rw [List.length_singleton]
    decide
  named := by
    rw [List.find?_cons_of_pos (by exact decide_eq_true rfl)]
    rfl
  terminated := List.mem_append_right _ List.mem_cons_self

/-- The memory map of a boot: `/chosen/memory-map`, with a child of the same name elsewhere. -/
def bootTree : Node where
  label := namedEntry (ascii "device-tree") (by decide)
  kids :=
    .cons (namedEntry (ascii "efi") (by decide)) (.single ⟨namedEntry (ascii "memory-map") (by decide), .nil⟩) <|
      .cons (namedEntry (ascii "chosen") (by decide)) (.single ⟨namedEntry (ascii "memory-map") (by decide), .nil⟩) .nil

def bootMemory : Memory := store (fun _ => 0) 4096 (flatten bootTree)

theorem bootTree_memoryMap : ∃ b found, place 4096 bootTree [1, 0] = some (b, found) ∧
    holds bootMemory b (flatten found) = true ∧
    dtLookupEntry bootMemory 2 (dtInit 4096) none (ascii "/chosen/memory-map") = some (some b) := by
  have hcs : ∀ c ∈ [ascii "chosen", ascii "memory-map"], Component c := by
    have hparts : ∀ c ∈ [ascii "chosen", ascii "memory-map"], c ≠ [] ∧ c.length < 32 ∧ 47 ∉ c ∧ 0 ∉ c := by decide
    intro c hc
    obtain ⟨hne, hfits, hseparator, htext⟩ := hparts c hc
    exact ⟨hne, hfits, hseparator, htext⟩
  have hfits : Fits (.single bootTree) := by
    refine ⟨by decide, ⟨by decide, ⟨by decide, trivial, trivial⟩, by decide, ⟨by decide, trivial, trivial⟩, trivial⟩, trivial⟩
  have hwalk : walk bootTree [ascii "chosen", ascii "memory-map"] = some [1, 0] := by decide +kernel
  have hpath : pathName true [ascii "chosen", ascii "memory-map"] = ascii "/chosen/memory-map" := by decide +kernel
  have hroot : holds bootMemory 4096 (flatten bootTree) = true := by decide +kernel
  have hfuel : height bootTree.kids ≤ 2 := by decide
  have hlookup := dtLookupEntry_refines (by decide) hroot hfits hfuel rfl none (Or.inr ⟨rfl, rfl⟩) true hcs
  rw [hwalk, hpath] at hlookup
  exact hlookup

end Nodes

end BareBoot.DeviceTree
