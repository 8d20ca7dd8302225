import BareBoot.Block
import BareBoot.KextSearch

/-! The flattened device tree, `device_tree.c`. An entry is the address of its header: two counts, then
the properties, then the children. `none` stands for `NULL`. -/

namespace BareBoot.DeviceTree

open Plist Kext

/-- `round_long`. -/
def roundLong (x : Nat) : Nat := (x + 3) / 4 * 4

def nProperties (memory : Memory) (entry : Nat) : Nat := wordAt memory 4 entry
def nChildren (memory : Memory) (entry : Nat) : Nat := wordAt memory 4 (entry + 4)

/-- The length behind the 32 bytes of the name. -/
def propLength (memory : Memory) (prop : Nat) : Nat := wordAt memory 4 (prop + 32)

def nextProp (memory : Memory) (prop : Nat) : Nat := prop + 36 + roundLong (propLength memory prop)

/-- `AsciiStrCmp` finds no difference. -/
def equalsString (memory : Memory) (a : Nat) (s : Bytes) : Bool := holds memory a (s ++ [0])

def skipProps (memory : Memory) : Nat → Nat → Nat
  | 0, prop => prop
  | count + 1, prop => skipProps memory count (nextProp memory prop)

def skipProperties (memory : Memory) : Option Nat → Option Nat
  | none => none
  | some entry =>
      if nProperties memory entry = 0 then none else some (skipProps memory (nProperties memory entry) (entry + 8))

/-- The loop over the children; the outer `none` says that the recursion is too deep. -/
def skipChildren (skip : Option Nat → Option (Option Nat)) : Nat → Option Nat → Option (Option Nat)
  | 0, entry => some entry
  | count + 1, entry => (skip entry).bind (skipChildren skip count)

/-- `fuel` bounds the depth of the recursion. -/
def skipTree (memory : Memory) : Nat → Option Nat → Option (Option Nat)
  | 0, _ => none
  | fuel + 1, root =>
      match root, skipProperties memory root with
      | some entry, some children => skipChildren (skipTree memory fuel) (nChildren memory entry) (some children)
      | _, _ => some none

/-- The loop of `DTGetProperty`: the address and the size of the value. -/
def getProperty (memory : Memory) (propertyName : Bytes) : Nat → Nat → Option (Nat × Nat)
  | 0, _ => none
  | count + 1, prop =>
      if equalsString memory prop propertyName then some (prop + 36, propLength memory prop)
      else getProperty memory propertyName count (nextProp memory prop)

def dtGetProperty (memory : Memory) (entry : Option Nat) (propertyName : Bytes) : Option (Nat × Nat) :=
  match entry with
  | none => none
  | some entry => getProperty memory propertyName (nProperties memory entry) (entry + 8)

/-- The component in front of the next separator and the path behind it. -/
def getNextComponent : Bytes → Bytes × Bytes
  | [] => ([], [])
  | c :: cp => if c = 47 then ([], cp) else (c :: (getNextComponent cp).1, (getNextComponent cp).2)

/-- The loop of `FindChild` over the children from `index` on, `left` of them. -/
def findChildFrom (memory : Memory) (fuel : Nat) (buf : Bytes) : Nat → Option Nat → Option (Option Nat)
  | 0, _ => some none
  | left + 1, child =>
      match dtGetProperty memory child (ascii "name") with
      | none => some none
      | some (str, _) =>
          if equalsString memory str buf then some child
          else if left = 0 then some none
          else (skipTree memory fuel child).bind (findChildFrom memory fuel buf left)

def findChild (memory : Memory) (fuel : Nat) (cur : Nat) (buf : Bytes) : Option (Option Nat) :=
  findChildFrom memory fuel buf (nChildren memory cur) (skipProperties memory (some cur))

/-- The loop of `DTLookupEntry`. A component that does not fit its buffer of 32 bytes is a fault. -/
def lookupFrom (memory : Memory) (fuel : Nat) : Nat → Nat → Bytes → Option (Option Nat)
  | 0, _, _ => none
  | rounds + 1, cur, cp =>
      let next := getNextComponent cp
      if 32 < next.1.length + 1 then none
      else if next.1 = [] then some (if next.2 = [] then some cur else none)
      else (findChild memory fuel cur next.1).bind fun child =>
        match child with
        | none => some none
        | some child => lookupFrom memory fuel rounds child next.2

/-- `DTRootNode` and `DTInitialized`. -/
structure Device where
  root : Nat
  initialized : Bool

def dtInit (base : Nat) : Device := ⟨base, base ≠ 0⟩

/-- The entry with `kSuccess`, or `kError`. -/
def dtLookupEntry (memory : Memory) (fuel : Nat) (device : Device) (searchPoint : Option Nat) (pathName : Bytes) :
    Option (Option Nat) :=
  if device.initialized = false then some none
  else
    let cur := searchPoint.getD device.root
    let lookup := fun cp => lookupFrom memory fuel (cp.length + 1) cur cp
    match pathName with
    | [] => lookup []
    | c :: cp => if c = 47 then (if cp = [] then some (some cur) else lookup cp) else lookup (c :: cp)

/-- The comparisons of `find_entry` at one property; no value stands for `NULL`. -/
def entryMatches (memory : Memory) (propName : Bytes) (propValue : Option Bytes) (propP : Nat) : Bool :=
  equalsString memory propP propName &&
    match propValue with
    | none => true
    | some value => equalsString memory (propP + 36) value

/-- The loop over the properties: whether one is found, and `startingP`. The padding is computed in `UINT32`. -/
def findProperty (memory : Memory) (propName : Bytes) (propValue : Option Bytes) : Nat → Nat → Bool × Nat
  | 0, startingP => (false, startingP)
  | count + 1, propP =>
      let startingP := propP + (36 + (propLength memory propP + 3) % 2 ^ 32 / 4 * 4)
      if entryMatches memory propName propValue propP then (true, startingP)
      else findProperty memory propName propValue count startingP

/-- The loop over the child nodes: the entry, and `startingP`. -/
def findInChildren (find : Nat → Option (Option Nat × Nat)) : Nat → Nat → Option (Option Nat × Nat)
  | 0, startingP => some (none, startingP)
  | count + 1, startingP =>
      (find startingP).bind fun found =>
        match found.1 with
        | some nodeP => some (some nodeP, found.2)
        | none => findInChildren find count found.2

/-- `fuel` bounds the depth of the recursion. -/
def findEntry (memory : Memory) (propName : Bytes) (propValue : Option Bytes) : Nat → Nat → Option (Option Nat × Nat)
  | 0, _ => none
  | fuel + 1, nodeP =>
      if nProperties memory nodeP = 0 then some (none, nodeP)
      else
        let searched := findProperty memory propName propValue (nProperties memory nodeP) (nodeP + 8)
        if searched.1 then some (some nodeP, searched.2)
        else findInChildren (findEntry memory propName propValue fuel) (nChildren memory nodeP) searched.2

def dtFindEntry (memory : Memory) (fuel : Nat) (device : Device) (propName : Bytes) (propValue : Option Bytes) :
    Option (Option Nat) :=
  if device.initialized = false then some none
  else (findEntry memory propName propValue fuel device.root).map Prod.fst

structure SavedScope where
  scope : Nat
  entry : Option Nat
  index : Nat
  deriving DecidableEq

/-- `OpaqueDTEntryIterator`; the list of saved scopes starts with the one saved last. The pool for a scope is
not refused. -/
structure EntryIterator where
  outerScope : Nat
  currentScope : Nat
  currentEntry : Option Nat
  savedScope : List SavedScope
  currentIndex : Nat
  deriving DecidableEq

/-- The status of a call, with the entry it gives. -/
inductive Answer where
  | error
  | iterationDone
  | success (entry : Option Nat)
  deriving DecidableEq

def dtCreateEntryIterator (device : Device) (startEntry : Option Nat) : Option EntryIterator :=
  if device.initialized = false then none
  else
    let scope := startEntry.getD device.root
    some ⟨scope, scope, none, [], 0⟩

def dtEnterEntry (iter : EntryIterator) (childEntry : Option Nat) : EntryIterator × Answer :=
  match childEntry with
  | none => (iter, .error)
  | some child =>
      let newScope : SavedScope := ⟨iter.currentScope, iter.currentEntry, iter.currentIndex⟩
      ({ iter with currentScope := child, currentEntry := none, savedScope := newScope :: iter.savedScope, currentIndex := 0 },
        .success none)

def dtExitEntry (iter : EntryIterator) : EntryIterator × Answer :=
  match iter.savedScope with
  | [] => (iter, .error)
  | newScope :: nextScope =>
      ({ iter with
          currentScope := newScope.scope, currentEntry := newScope.entry, savedScope := nextScope
          currentIndex := newScope.index % 2 ^ 32 },
        .success newScope.entry)

def dtIterateEntries (memory : Memory) (fuel : Nat) (iter : EntryIterator) : Option (EntryIterator × Answer) :=
  if nChildren memory iter.currentScope ≤ iter.currentIndex then some (iter, .iterationDone)
  else
    let index := (iter.currentIndex + 1) % 2 ^ 32
    let entry :=
      if index = 1 then some (skipProperties memory (some iter.currentScope))
      else skipTree memory fuel iter.currentEntry
    entry.map fun entry => ({ iter with currentEntry := entry, currentIndex := index }, .success entry)

def dtRestartEntryIteration (iter : EntryIterator) : EntryIterator × Answer :=
  ({ iter with currentEntry := none, currentIndex := 0 }, .success none)

/-- A call on an iterator. -/
inductive Call where
  | iterate
  | enter (childEntry : Option Nat)
  | exit
  | restart
  deriving DecidableEq

def call (memory : Memory) (fuel : Nat) (iter : EntryIterator) : Call → Option (EntryIterator × Answer)
  | .iterate => dtIterateEntries memory fuel iter
  | .enter childEntry => some (dtEnterEntry iter childEntry)
  | .exit => some (dtExitEntry iter)
  | .restart => some (dtRestartEntryIteration iter)

/-- The iterator behind some calls, and their answers. -/
def calls (memory : Memory) (fuel : Nat) : EntryIterator → List Call → Option (EntryIterator × List Answer)
  | iter, [] => some (iter, [])
  | iter, c :: cs => do
      let first ← call memory fuel iter c
      let rest ← calls memory fuel first.1 cs
      some (rest.1, first.2 :: rest.2)

end BareBoot.DeviceTree
