import BareBoot.FlatNode

/-! `DTFindEntry` visits the nodes in preorder: its cursor stands behind a subtree as soon as the search of
that subtree has failed. -/

namespace BareBoot.DeviceTree

open Kext
open Plist (Bytes ascii cstr)

/-- The property has that name and, where one is given, that value as a C string. -/
def Property.has (p : Property) (propName : Bytes) (propValue : Option Bytes) : Bool :=
  p.name = propName && match propValue with
    | none => true
    | some value => cstr p.value = value

def Record.has (record : Record) (propName : Bytes) (propValue : Option Bytes) : Bool :=
  record.properties.any fun p => p.has propName propValue

/-- The first node in preorder with such a property. -/
def firstWith (propName : Bytes) (propValue : Option Bytes) (nodes : List (Nat × Tree Record)) : Option Nat :=
  (nodes.find? fun node => node.2.label.has propName propValue).map Prod.fst

/-- Every value is terminated. -/
def Terminated (forest : Forest Record) : Prop := ∀ record ∈ forest.labels, ∀ p ∈ record.properties, 0 ∈ p.value

/-- What the caller asks for: C strings. -/
structure Query (propName : Bytes) (propValue : Option Bytes) : Prop where
  name : 0 ∉ propName
  value : ∀ value ∈ propValue, 0 ∉ value

section Search

variable {memory : Memory} {fuel a : Nat} {propName : Bytes} {propValue : Option Bytes}

theorem entryMatches_eq {p : Property} (hquery : Query propName propValue) (h : PropertyAt memory a p) (hvalue : 0 ∈ p.value) :
    entryMatches memory propName propValue a = p.has propName propValue := by
  have hname : equalsString memory a propName = decide (p.name = propName) := by
    rw [Bool.eq_iff_iff, decide_eq_true_iff]
    exact equalsString_iff h.name hquery.name p.nameText
  unfold entryMatches Property.has
  rw [hname]
  congr 1
  cases propValue with
  | none => rfl
  | some value =>
      obtain ⟨rest, hrest⟩ := cstr_terminated hvalue
      have hstands := h.value
      rw [hrest, show cstr p.value ++ 0 :: rest = cstr p.value ++ [0] ++ rest by simp, holds_append, Bool.and_eq_true] at hstands
      rw [Bool.eq_iff_iff, decide_eq_true_iff]
      exact equalsString_iff hstands.1 (hquery.value value rfl) (zero_not_mem_cstr _)

/-- The padding does not wrap in a tree below 4 GiB. -/
theorem padded_eq {p : Property} (h : PropertyAt memory a p) (hsize : p.encode.length < 2 ^ 32) :
    a + (36 + (propLength memory a + 3) % 2 ^ 32 / 4 * 4) = a + p.encode.length := by
  rw [p.encode_length] at hsize ⊢
  rw [h.length]
  unfold roundLong at hsize ⊢
  omega

theorem findProperty_eq (hquery : Query propName propValue) {ps : List Property} (h : holds memory a (encodeProperties ps) = true)
    (hsize : (encodeProperties ps).length < 2 ^ 32) (hvalues : ∀ p ∈ ps, 0 ∈ p.value) :
    (findProperty memory propName propValue ps.length a).1 = (ps.any fun p => p.has propName propValue) ∧
      ((ps.any fun p => p.has propName propValue) = false →
        (findProperty memory propName propValue ps.length a).2 = a + (encodeProperties ps).length) := by
  induction ps generalizing a with
  | nil => exact ⟨rfl, fun _ => rfl⟩
  | cons p ps ih =>
      rw [encodeProperties_cons, holds_append, Bool.and_eq_true] at h
      rw [encodeProperties_cons, List.length_append] at hsize
      have hp := propertyAt h.1
      have hmatch := entryMatches_eq hquery hp (hvalues p List.mem_cons_self)
      rw [List.length_cons, findProperty, hmatch, List.any_cons]
      cases hhas : p.has propName propValue with
      | true => exact ⟨rfl, fun hnone => nomatch hnone⟩
      | false =>
          rw [if_neg Bool.false_ne_true, padded_eq hp (by omega), Bool.false_or, encodeProperties_cons, List.length_append,
            ← Nat.add_assoc]
          exact ih h.2 (by omega) fun q hq => hvalues q (List.mem_cons_of_mem _ hq)

/-- The node at which a search ends, and the cursor behind the nodes searched in vain. -/
structure Searched (nodes : List (Nat × Tree Record)) (last : Nat) (propName : Bytes) (propValue : Option Bytes)
    (found : Option Nat × Nat) : Prop where
  first : found.1 = firstWith propName propValue nodes
  cursor : found.1 = none → found.2 = last

theorem firstWith_cons (node : Nat × Tree Record) (nodes : List (Nat × Tree Record)) :
    firstWith propName propValue (node :: nodes) =
      if node.2.label.has propName propValue then some node.1 else firstWith propName propValue nodes := by
  unfold firstWith
  rw [List.find?_cons]
  cases node.2.label.has propName propValue <;> rfl

theorem firstWith_append (nodes nodes' : List (Nat × Tree Record)) :
    firstWith propName propValue (nodes ++ nodes') =
      (firstWith propName propValue nodes).or (firstWith propName propValue nodes') := by
  unfold firstWith
  rw [List.find?_append, Option.map_or]

/-- The search of the children finds the first node of their subtrees, or ends behind them. -/
theorem findInChildren_eq (hquery : Query propName propValue) {forest : Forest Record} (h : NodesAt memory fuel a forest)
    (hsize : (encodeNodes forest).length < 2 ^ 32) (hvalues : Terminated forest) :
    ∃ found, findInChildren (findEntry memory propName propValue fuel) forest.trees.length a = some found ∧
      Searched (preorder a forest) (a + (encodeNodes forest).length) propName propValue found := by
  induction forest generalizing fuel a with
  | nil => exact ⟨(none, a), rfl, rfl, fun _ => rfl⟩
  | cons record kids next ihkids ihnext =>
      obtain ⟨depth, rfl, hbelow⟩ := h.below
      have hpos : 0 < record.properties.length := List.length_pos_iff.mpr record.nonempty
      rw [encodeNodes_cons, List.length_append] at hsize
      have hnode : kidsAt a record + (encodeNodes kids).length = a + (encodeNode ⟨record, kids⟩).length := kidsAt_add
      have hown : (encodeProperties record.properties).length + (encodeNodes kids).length < 2 ^ 32 := by
        unfold kidsAt at hnode
        omega
      have hhere : ∀ r ∈ record :: (kids.labels ++ next.labels), ∀ p ∈ r.properties, 0 ∈ p.value := hvalues
      obtain ⟨hmatch, hbehind⟩ := findProperty_eq hquery h.first.texts (by omega) (hhere record List.mem_cons_self)
      obtain ⟨inner, hinner, hkids⟩ := ihkids hbelow (by omega) fun r hr =>
        hhere r (List.mem_cons_of_mem _ (List.mem_append_left _ hr))
      obtain ⟨outer, houter, hnext⟩ := ihnext h.behind (by omega) fun r hr =>
        hhere r (List.mem_cons_of_mem _ (List.mem_append_right _ hr))
      rw [Forest.trees, List.length_cons, findInChildren, findEntry, h.first.properties, if_neg hpos.ne']
      dsimp only
      rw [hmatch, preorder, encodeNodes_cons, List.length_append, ← Nat.add_assoc]
      by_cases hhas : (record.properties.any fun p => p.has propName propValue) = true
      · rw [if_pos hhas, Option.bind_some]
        refine ⟨_, rfl, ?_, ?_⟩
        · rw [firstWith_cons]
          exact (if_pos hhas).symm
        · intro hnone
          cases hnone
      · rw [Bool.not_eq_true] at hhas
        have hstart : a + 8 + (encodeProperties record.properties).length = kidsAt a record := rfl
        have hskip : firstWith propName propValue ((a, ⟨record, kids⟩) :: (preorder (kidsAt a record) kids ++
            preorder (a + (encodeNode ⟨record, kids⟩).length) next)) = inner.1.or outer.1 := by
          rw [firstWith_cons, firstWith_append, hkids.first, hnext.first]
          exact if_neg (by rw [Record.has, hhas]; exact Bool.false_ne_true)
        rw [hhas, if_neg Bool.false_ne_true, hbehind hhas, hstart, h.first.children, hinner, Option.bind_some]
        cases hresult : inner.1 with
        | some nodeP =>
            rw [hresult] at hskip
            refine ⟨_, rfl, hskip.symm, ?_⟩
            intro hnone
            cases hnone
        | none =>
            rw [hresult, Option.none_or] at hskip
            dsimp only
            rw [hkids.cursor hresult, hnode]
            exact ⟨outer, houter, hskip.symm, hnext.cursor⟩

/-- The entry that is found is the first node in preorder with the property; there is none where none is found. -/
theorem dtFindEntry_preorder {root : Tree Record} {base : Nat} (hbase : base ≠ 0)
    (hroot : holds memory base (encodeNode root) = true) (hfits : Fits (.single root)) (hfuel : height (.single root) ≤ fuel)
    (hsize : (encodeNode root).length < 2 ^ 32) (hvalues : Terminated (.single root)) (hquery : Query propName propValue) :
    dtFindEntry memory fuel (dtInit base) propName propValue =
      some (((preorder base (.single root)).find? fun node => node.2.label.has propName propValue).map Prod.fst) := by
  have hdevice : (dtInit base).initialized = true := decide_eq_true hbase
  obtain ⟨found, hrun, hfound⟩ := findInChildren_eq hquery ⟨hroot, hfits, hfuel⟩ hsize hvalues
  have hone : (Forest.single root).trees.length = 1 := rfl
  rw [hone, findInChildren] at hrun
  rw [dtFindEntry, hdevice, if_neg Bool.noConfusion]
  have hfirst := hfound.first
  unfold firstWith at hfirst
  rw [← hfirst]
  obtain ⟨⟨result, cursor⟩, hentry, hrest⟩ := Option.bind_eq_some_iff.mp hrun
  have hroot : (dtInit base).root = base := rfl
  rw [hroot, hentry, Option.map_some]
  cases result <;> cases hrest <;> rfl

end Search

/-- Two children, the second with a name and a kind. -/
def consoleTree : Tree Record where
  label := ⟨[⟨ascii "name", ascii "tree" ++ [0], by decide, by decide, by decide⟩], by decide, by decide⟩
  kids :=
    .cons ⟨[⟨ascii "name", ascii "first" ++ [0], by decide, by decide, by decide⟩], by decide, by decide⟩ .nil <|
      .single ⟨⟨[⟨ascii "name", ascii "second" ++ [0], by decide, by decide, by decide⟩,
        ⟨ascii "kind", ascii "console" ++ [0], by decide, by decide, by decide⟩], by decide, by decide⟩, .nil⟩

def consoleMemory : Memory := store (fun _ => 0) 4096 (encodeNode consoleTree)

theorem consoleTree_terminated : Terminated (.single consoleTree) := by
  have hall : ∀ ps ∈ (Forest.single consoleTree).labels.map Record.properties, ∀ p ∈ ps, 0 ∈ p.value := by decide +kernel
  intro record hrecord
  exact hall _ (List.mem_map_of_mem hrecord)

theorem consoleTree_find :
    dtFindEntry consoleMemory 2 (dtInit 4096) (ascii "kind") (some (ascii "console")) =
      some (((preorder 4096 (.single consoleTree)).find? fun node =>
        node.2.label.has (ascii "kind") (some (ascii "console"))).map Prod.fst) := by
  have hroot : holds consoleMemory 4096 (encodeNode consoleTree) = true := by decide +kernel
  have hfits : Fits (.single consoleTree) := by
    refine ⟨by decide, ⟨by decide, trivial, by decide, trivial, trivial⟩, trivial⟩
  have hvalue : ∀ value ∈ some (ascii "console"), 0 ∉ value := by decide
  exact dtFindEntry_preorder (by decide) hroot hfits (by decide) (by decide +kernel) consoleTree_terminated ⟨by decide, hvalue⟩

end BareBoot.DeviceTree
