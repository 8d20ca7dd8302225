import BareBoot.PlistNode

/-! The queries of `plist_internal.c`. A missing node is `NULL` and is of the kind `any`. -/

namespace BareBoot.Plist

inductive Kind
  | any
  | array
  | dict
  | key
  | bool
  | data
  | date
  | integer
  | string
  deriving DecidableEq, Repr

def Label.kind : Label → Kind
  | .array => .array
  | .dict => .dict
  | .key _ => .key
  | .bool _ => .bool
  | .data _ => .data
  | .date _ => .date
  | .integer _ => .integer
  | .string _ => .string

def plNodeGetKind : Option Node → Kind
  | none => .any
  | some node => node.label.kind

def plNodeGetBytes : Option Node → Option Bytes
  | some ⟨.key datval, _⟩ | some ⟨.data datval, _⟩ | some ⟨.string datval, _⟩ => some datval
  | _ => none

def plNodeGetSize : Option Node → Nat
  | some ⟨.dict, kids⟩ | some ⟨.array, kids⟩ => kids.trees.length
  | some ⟨.key datval, _⟩ | some ⟨.data datval, _⟩ | some ⟨.string datval, _⟩ => datval.length
  | _ => 0

def plNodeGetItem (bag : Option Node) (inum : Nat) : Option Node :=
  match bag with
  | some ⟨.array, kids⟩ | some ⟨.dict, kids⟩ => kids.trees[inum]?
  | some ⟨.key _, kids⟩ => kids.trees.head?
  | _ => none

/-- `plDictFind`: the search ends at the first key with these bytes, whatever the kind of its value. -/
def plDictFindKind (dict : Option Node) (key : Bytes) (kind : Kind) : Option Node :=
  match dict with
  | some ⟨.dict, kids⟩ =>
      if key = [] then none
      else
        match kids.trees.find? fun dent => dent.label = .key key with
        | none => none
        | some dent =>
            let kval := plNodeGetItem (some dent) 0
            if kind = .any ∨ plNodeGetKind kval = kind then kval else none
  | _ => none

section Query

variable {node : Option Node} {bytes : Bytes}

theorem plNodeGetSize_of_bytes (h : plNodeGetBytes node = some bytes) : plNodeGetSize node = bytes.length := by
  unfold plNodeGetBytes at h
  split at h <;> cases h <;> rfl

/-- Data and strings have bytes. -/
theorem plNodeGetBytes_of_kind (h : plNodeGetKind node = .data ∨ plNodeGetKind node = .string) :
    ∃ bytes, plNodeGetBytes node = some bytes := by
  cases node with
  | none => rcases h with h | h <;> cases h
  | some node =>
      obtain ⟨label, kids⟩ := node
      cases label with
      | data datval => exact ⟨datval, rfl⟩
      | string datval => exact ⟨datval, rfl⟩
      | _ => rcases h with h | h <;> cases h

/-- What is found is of the kind asked for. -/
theorem plDictFindKind_kind {dict : Option Node} {key : Bytes} {kind : Kind} {val : Node}
    (h : plDictFindKind dict key kind = some val) (hkind : kind ≠ .any) : plNodeGetKind (some val) = kind := by
  unfold plDictFindKind at h
  split at h
  · split_ifs at h with hkey
    split at h
    · cases h
    · dsimp only at h
      split_ifs at h with hval
      rw [← h]
      exact hval.resolve_left hkind
  · cases h

end Query

end BareBoot.Plist
