import BareBoot.Forest
import BareBoot.PlistNumber

/-! The node trees of `plist_internal.c` as values: a node's kind with its own data, over the nodes it
holds. A key holds at most one node, a leaf none. -/

namespace BareBoot.Plist

/-- The kind of a node and what it holds besides other nodes. -/
inductive Label where
  | array
  | dict
  | key (datval : Bytes)
  | bool (intval : Bool)
  | data (datval : Bytes)
  | date (datval : Bytes)
  | integer (intval : Int64)
  | string (datval : Bytes)
  deriving DecidableEq, Repr

abbrev Node := Tree Label

/-- A node that holds no other. -/
def Node.leaf (label : Label) : Node := ⟨label, .nil⟩

def Label.isKey : Label → Bool
  | .key _ => true
  | _ => false

/-- `plNodeAdd` as far as kinds decide it: the bag with the node added, or a refusal. A dict takes keys
that hold a value, an array takes anything, a key takes one node. -/
def plNodeAdd (bag node : Node) : Option Node :=
  match bag.label with
  | .dict =>
      if node.label.isKey ∧ node.kids ≠ .nil then some ⟨.dict, bag.kids ++ .single node⟩ else none
  | .array => some ⟨.array, bag.kids ++ .single node⟩
  | .key datval => if bag.kids = .nil then some ⟨.key datval, .single node⟩ else none
  | _ => none

/-- Add the trees of a forest one after the other. -/
def plNodeAddAll (bag : Node) : Forest Label → Option Node
  | .nil => some bag
  | .cons label kids next => (plNodeAdd bag ⟨label, kids⟩).bind fun bag => plNodeAddAll bag next

/-- `plDictFind` for any kind of value: the value of the first key with these bytes. -/
def plDictFind (key : Bytes) : Forest Label → Option (Forest Label)
  | .nil => none
  | .cons label kids next =>
      if key ≠ [] ∧ label = .key key then some kids else plDictFind key next

/-- The tree is one the API can build: dicts hold keys with a value, keys hold at most one node. -/
def Built : Forest Label → Prop
  | .nil => True
  | .cons label kids next =>
      (∃ bag, plNodeAddAll (.leaf label) kids = some bag) ∧ Built kids ∧ Built next

end BareBoot.Plist
