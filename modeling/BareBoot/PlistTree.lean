import BareBoot.PlistNode
import BareBoot.PlistParser

/-! From tags to nodes: `_plGrowTree`, `_plGrowBag` and `plXmlToNode` of `plist_internal.c`. A bag under
construction is passed along; `none` stands for `NULL`. -/

namespace BareBoot.Plist

open Exec

/-! ### Making nodes -/

/-- The capacity `plNodeAdd` grows an array to. -/
def growCapacity (acap : Nat) : Nat := acap + acap / 4 + 1

/-- Whether an array of so many items, grown from nothing, is full. -/
def isFull (asiz : Nat) : Bool := go (asiz + 1) 0
where
  go : Nat → Nat → Bool
    | 0, _ => false
    | n + 1, acap => if acap < asiz then go n (growCapacity acap) else acap = asiz

/-- `ReallocatePool` of the array of items a bag has. -/
def growMap (env : Env) (asiz : Nat) : ParserM Bool := do
  let ok ← allocate env .map
  if ok ∧ 0 < asiz then
    release .map
    pure true
  else pure ok

/-- `plNodeAdd`, with the growth of the array of items. -/
def addNode (env : Env) (bag : Option Node) (node : Node) : ParserM (Bool × Option Node) := do
  match bag.bind fun b => plNodeAdd b node with
  | none => pure (false, bag)
  | some added =>
      let asiz := ((bag.map fun b => b.kids.trees.length).getD 0)
      if added.label.isKey ∨ isFull asiz = false then pure (true, some added)
      else if ← growMap env asiz then pure (true, some added)
      else pure (false, bag)

/-- The allocations a node and the nodes below it consist of. -/
def nodePools : Forest Label → List Pool
  | .nil => []
  | .cons label kids next =>
      let own := match label with
        | .array | .dict => if kids = .nil then [.node] else [.node, .map]
        | .bool _ | .integer _ => [.node]
        | _ => [.node, .datum]
      own ++ nodePools kids ++ nodePools next

/-- `plNodeDelete` of a node no bag holds. -/
def deleteNode (node : Option Node) : ParserM Unit :=
  (nodePools ((node.map Forest.single).getD .nil)).forM release

def newNode (env : Env) (label : Label) : ParserM (Option Node) := do
  if ← allocate env .node then pure (some (.leaf label)) else pure none

/-- `plBoolNew` and `plIntegerNew` write the value without a look at the result of the allocation. -/
def newScalar (env : Env) (label : Label) : ParserM (Option Node) := do
  match ← newNode env label with
  | some node => pure (some node)
  | none =>
      emit .nullNode
      stop .nullDeref

/-- `plDataNew` and its siblings, which differ in the kind they set. -/
def newDatum (env : Env) (label : Bytes → Label) (datum : Option Bytes) (dlen : Nat) :
    ParserM (Option Node) := do
  if datum = none ∧ dlen = 0 then pure none
  else if ← allocate env .node then
    if ← (if addU32 dlen 1 = 0 then pure false else allocate env .datum) then
      if dlen = 0 then pure (some (.leaf (label [])))
      else
        match datum with
        | none => stop .nullDeref
        | some datum =>
            if dlen ≤ datum.length then pure (some (.leaf (label (datum.take dlen))))
            else stop .unreadable
    else
      release .node
      pure none
  else pure none

/-! ### Growing the tree -/

section Grow
variable (env : Env) (grow : Option Nat → Option Node → ParserM (Bool × Option Node))

/-- `_plGrowBag`; the Boolean is its status. -/
def plGrowBag (ipl : Tag) (parn bagn : Option Node) : ParserM (Bool × Option Node) := do
  match bagn with
  | none => pure (false, parn)
  | some _ =>
      match ← grow ipl.tag bagn with
      | (false, bagn) =>
          deleteNode bagn
          pure (false, parn)
      | (true, none) => pure (false, parn)
      | (true, some bag) =>
          match ← addNode env parn bag with
          | (true, parn) => pure (true, parn)
          | (false, parn) =>
              deleteNode (some bag)
              pure (false, parn)

def growLeaf (pn wn : Option Node) : ParserM (Bool × Option Node) := do
  match wn with
  | none => pure (false, pn)
  | some wn =>
      match ← addNode env pn wn with
      | (true, pn) => pure (true, pn)
      | (false, pn) =>
          emit (.unattached (nodePools (.single wn)))
          pure (false, pn)

/-- One turn of the loop of `_plGrowTree`. -/
def growItem (ipl : Tag) (pn : Option Node) : ParserM (Bool × Option Node) := do
  match ipl.type with
  | .array => plGrowBag env grow ipl pn (← newNode env .array)
  | .dict => plGrowBag env grow ipl pn (← newNode env .dict)
  | .key => plGrowBag env grow ipl pn (← newDatum env .key ipl.string ipl.dataLen)
  | .string => growLeaf env pn (← newDatum env .string ipl.string ipl.dataLen)
  | .data => growLeaf env pn (← newDatum env .data ipl.data ipl.dataLen)
  | .true => growLeaf env pn (← newScalar env (.bool true))
  | .false => growLeaf env pn (← newScalar env (.bool false))
  | .integer => growLeaf env pn (← newScalar env (.integer ipl.intval))
  | .date => growLeaf env pn (← newDatum env .date ipl.string ipl.dataLen)
  | .none => pure (false, pn)

end Grow

/-- Add a list of tags to a bag; a list that runs into itself uses up any number of links. -/
def plGrowTree (env : Env) : Nat → Option Nat → Option Node → ParserM (Bool × Option Node)
  | _, none, pn => pure (true, pn)
  | 0, some _, _ => stop .outOfFuel
  | n + 1, some a, pn => do
      let ipl ← readTag a
      match ← growItem env (plGrowTree env n) ipl pn with
      | (false, pn) => pure (false, pn)
      | (true, pn) => plGrowTree env n ipl.tagNext pn

/-- The tree of a dictionary, or `NULL`. -/
def growDict (env : Env) (plist : Tag) : ParserM (Option Node) := do
  if plist.type = .dict then
    let pn ← newNode env .dict
    let s ← get
    match ← plGrowTree env (s.tags.length + 1) plist.tag pn with
    | (true, pn) => pure pn
    | (false, pn) =>
        deleteNode pn
        pure none
  else pure none

/-- `plXmlToNode`, given what the copy of the text holds and its size. -/
def plXmlToNodeCopy (env : Env) (copy : Bytes) (bufferSize : Nat) : ParserM (Option Node) := do
  match ← plistXmlParseCopy env copy bufferSize with
  | none =>
      plistXmlCleanup
      pure none
  | some plist =>
      let tag ← readTag plist
      let pn ← growDict env tag
      plistXmlFreeTag (some plist)
      plistXmlCleanup
      pure pn

def plXmlToNode (env : Env) (dat : Nat → UInt8) (len : Nat) : ParserM (Option Node) :=
  plXmlToNodeCopy env (copyOf dat len) (addU32 len 1)

/-- The memory of the parser before its first call. -/
def initialParser : Parser := ⟨⟨[], none⟩, [], [], false, 0⟩

end BareBoot.Plist
