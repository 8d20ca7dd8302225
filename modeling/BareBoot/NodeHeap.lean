import BareBoot.PlistQuery
import BareBoot.Sharing
import BareBoot.Word

/-! The nodes of `plist_internal.c` with their reference counts, where several bags can hold one node. An address is
the number of the allocation, and nothing stands there once it is freed. A call ends in `none` where it reads or frees
what is freed, reads behind the bytes it is given, or writes behind a block or through `NULL`. A pointer has eight
bytes. -/

namespace BareBoot.Nodes

open Plist (Kind Bytes)

/-- A node; `asiz` is the number of the entries of `amap`, `datlen` that of the bytes of `datval`. -/
structure PlNode where
  refcnt : Int
  kind : Kind
  keyval : Option Nat
  datval : Option Bytes
  intval : Int64
  amap : List Nat
  acap : Nat
  deriving DecidableEq, Repr

/-- The nodes a node refers to, in the order `plNodeDelete` goes through them. -/
def PlNode.slots (pn : PlNode) : List Nat := pn.keyval.toList ++ pn.amap

abbrev NodeHeap := List (Option PlNode)

/-- Which of the allocations of a call succeed. -/
structure Grant where
  node : Bool
  datval : Bool
  amap : Bool
  deriving DecidableEq, Repr

namespace NodeHeap

def node (heap : NodeHeap) (a : Nat) : Option PlNode := heap[a]?.join

def put (heap : NodeHeap) (a : Nat) (pn : PlNode) : NodeHeap := heap.set a (some pn)

def update (heap : NodeHeap) (a : Nat) (f : PlNode → PlNode) : Option NodeHeap :=
  (heap.node a).map fun pn => heap.put a (f pn)

/-- `_plfree` of a node. -/
def free (heap : NodeHeap) (a : Nat) : Option NodeHeap := (heap.node a).map fun _ => heap.set a none

def slots (heap : NodeHeap) (a : Nat) : List Nat := ((heap.node a).map PlNode.slots).getD []

def live (heap : NodeHeap) : Finset Nat := (Finset.range heap.length).filter fun a => (heap.node a).isSome

/-- How many slots of live nodes refer to the node. -/
def references (heap : NodeHeap) (a : Nat) : Nat := Sharing.references heap.slots heap.live a

end NodeHeap

/-! ### Deleting and adding -/

/-- `plNodeDelete` with calls nested so deep. -/
def deleteNode : Nat → NodeHeap → Nat → Option NodeHeap
  | 0, _, _ => none
  | depth + 1, heap, a => do
      let pn ← heap.node a
      let refcnt := i32 (pn.refcnt - 1)
      let heap := heap.put a { pn with refcnt := refcnt }
      if 0 < refcnt then some heap
      else
        let heap ← pn.slots.foldlM (deleteNode depth) heap
        heap.free a

/-- A chain of calls comes to each node once. -/
def plNodeDelete (heap : NodeHeap) : Option Nat → Option NodeHeap
  | none => some heap
  | some a => deleteNode (heap.length + 1) heap a

def plNodeGetItem (pn : PlNode) (inum : Nat) : Option Nat :=
  match pn.kind with
  | .array | .dict => pn.amap[inum]?
  | .key => pn.keyval
  | _ => none

/-- The bag `b` as it is with the node `d` in it, and one more reference to that. -/
def attach (heap : NodeHeap) (b d : Nat) (bn : PlNode) : Option (NodeHeap × Bool) :=
  ((heap.put b bn).update d fun dn => { dn with refcnt := i32 (dn.refcnt + 1) }).map (·, true)

/-- The branch of the arrays. The sizes in bytes are of 32 bits. -/
def addItem (grant : Grant) (heap : NodeHeap) (b d : Nat) (bn : PlNode) : Option (NodeHeap × Bool) :=
  if bn.acap ≤ bn.amap.length then
    let ncap := u32 (bn.acap + bn.acap / 4 + 1)
    if grant.amap = false then some (heap, false)
    -- the new entry is behind the entries that fit in `nsz` bytes
    else if u32 (ncap * 8) / 8 ≤ bn.amap.length then none
    else attach heap b d { bn with acap := ncap, amap := bn.amap ++ [d] }
  else attach heap b d { bn with amap := bn.amap ++ [d] }

def plNodeAdd (grant : Grant) (heap : NodeHeap) (bag node : Option Nat) : Option (NodeHeap × Bool) :=
  match bag, node with
  | some b, some d => do
      let bn ← heap.node b
      let dn ← heap.node d
      match bn.kind with
      | .dict => if dn.kind ≠ .key ∨ plNodeGetItem dn 0 = none then some (heap, false) else addItem grant heap b d bn
      | .array => addItem grant heap b d bn
      | .key => if plNodeGetItem bn 0 ≠ none then some (heap, false) else attach heap b d { bn with keyval := some d }
      | _ => some (heap, false)
  | _, _ => some (heap, false)

/-! ### Making nodes -/

/-- `_plNodeNew`. -/
def plNodeNew (grant : Grant) (nk : Kind) (heap : NodeHeap) : NodeHeap × Option Nat :=
  if grant.node then (heap ++ [some ⟨0, nk, none, none, 0, [], 0⟩], some heap.length) else (heap, none)

def plDictNew (grant : Grant) (heap : NodeHeap) : NodeHeap × Option Nat := plNodeNew grant .dict heap
def plArrayNew (grant : Grant) (heap : NodeHeap) : NodeHeap × Option Nat := plNodeNew grant .array heap

/-- `_plzalloc` gives nothing for the zero that the size of the longest datum wraps to. -/
def plDataNew (grant : Grant) (datum : Option Bytes) (dlen : UInt32) (heap : NodeHeap) :
    Option (NodeHeap × Option Nat) :=
  if datum = none ∧ dlen = 0 then some (heap, none)
  else
    match plNodeNew grant .data heap with
    | (heap, none) => some (heap, none)
    | (heap, some node) =>
        if dlen + 1 = 0 ∨ grant.datval = false then (plNodeDelete heap (some node)).map (·, none)
        else if (datum.getD []).length < dlen.toNat then none
        else
          (heap.update node fun pn => { pn with datval := some ((datum.getD []).take dlen.toNat) }).map (·, some node)

/-- The kind is set once the node of a datum is made. -/
def ofKind (nk : Kind) : NodeHeap × Option Nat → Option (NodeHeap × Option Nat)
  | (heap, none) => some (heap, none)
  | (heap, some node) => (heap.update node fun pn => { pn with kind := nk }).map (·, some node)

def plKeyNew (grant : Grant) (key : Option Bytes) (klen : UInt32) (datum : Option Nat) (heap : NodeHeap) :
    Option (NodeHeap × Option Nat) := do
  let made ← plDataNew grant key klen heap
  let (heap, node) ← ofKind .key made
  match node, datum with
  | some _, some _ => (plNodeAdd grant heap node datum).map fun added => (added.1, node)
  | _, _ => some (heap, node)

def plDateNew (grant : Grant) (datum : Option Bytes) (dlen : UInt32) (heap : NodeHeap) :
    Option (NodeHeap × Option Nat) :=
  (plDataNew grant datum dlen heap).bind (ofKind .date)

def plStringNew (grant : Grant) (datum : Option Bytes) (dlen : UInt32) (heap : NodeHeap) :
    Option (NodeHeap × Option Nat) :=
  (plDataNew grant datum dlen heap).bind (ofKind .string)

/-- The value is written whether there is a node or not. -/
def scalarNew (grant : Grant) (nk : Kind) (val : Int64) (heap : NodeHeap) : Option (NodeHeap × Option Nat) :=
  match plNodeNew grant nk heap with
  | (_, none) => none
  | (heap, some node) => (heap.update node fun pn => { pn with intval := val }).map (·, some node)

def plBoolNew (grant : Grant) (bval : Int) (heap : NodeHeap) : Option (NodeHeap × Option Nat) :=
  scalarNew grant .bool (if bval ≠ 0 then 1 else 0) heap

def plIntegerNew (grant : Grant) (val : Int64) (heap : NodeHeap) : Option (NodeHeap × Option Nat) :=
  scalarNew grant .integer val heap

/-! ### Histories -/

/-- What a client calls; a pointer is `none` for `NULL`. -/
inductive Call
  | dictNew
  | arrayNew
  | dataNew (datum : Option Bytes) (dlen : UInt32)
  | keyNew (key : Option Bytes) (klen : UInt32) (datum : Option Nat)
  | dateNew (datum : Option Bytes) (dlen : UInt32)
  | stringNew (datum : Option Bytes) (dlen : UInt32)
  | boolNew (bval : Int)
  | integerNew (val : Int64)
  | nodeAdd (bag node : Option Nat)
  | nodeDelete (node : Option Nat)
  deriving DecidableEq, Repr

def step (heap : NodeHeap) : Call × Grant → Option NodeHeap
  | (.dictNew, grant) => some (plDictNew grant heap).1
  | (.arrayNew, grant) => some (plArrayNew grant heap).1
  | (.dataNew datum dlen, grant) => (plDataNew grant datum dlen heap).map Prod.fst
  | (.keyNew key klen datum, grant) => (plKeyNew grant key klen datum heap).map Prod.fst
  | (.dateNew datum dlen, grant) => (plDateNew grant datum dlen heap).map Prod.fst
  | (.stringNew datum dlen, grant) => (plStringNew grant datum dlen heap).map Prod.fst
  | (.boolNew bval, grant) => (plBoolNew grant bval heap).map Prod.fst
  | (.integerNew val, grant) => (plIntegerNew grant val heap).map Prod.fst
  | (.nodeAdd bag node, grant) => (plNodeAdd grant heap bag node).map Prod.fst
  | (.nodeDelete node, _) => plNodeDelete heap node

/-- A history from the heap without nodes. -/
def run (history : List (Call × Grant)) : Option NodeHeap := history.foldlM step []

end BareBoot.Nodes
