import BareBoot.Exec
import BareBoot.PlistNumber

/-! The memory of `plist_xml_parser.c`: the tags and the free list `gPListXMLTagsFree`, the symbol table
`gPListXMLSymbolsHead`, the private copy of the text, and the pool they are allocated from. The address
of a tag is its place in the store; a place is empty once the tag was given back to the pool. A symbol's
text never changes while the symbol lives, so a pointer to it is modelled by the text. -/

namespace BareBoot.Plist

/-- `PLIST_TAG_TYPE`. -/
inductive TagType where
  | none | dict | key | string | integer | data | date | false | true | array
  deriving DecidableEq, Repr

/-- The fields of a tag other than its links. -/
structure TagBody where
  type : TagType
  string : Option Bytes
  data : Option Bytes
  dataLen : Nat
  intval : Int64
  offset : Nat
  deriving DecidableEq, Repr

/-- A tag, linked to its first child and to its next sibling. -/
structure Tag extends TagBody where
  tag : Option Nat
  tagNext : Option Nat
  deriving DecidableEq, Repr

/-- A tag as `AllocateZeroPool` returns it. -/
def zeroTag : Tag := ⟨⟨.none, none, none, 0, 0, 0⟩, none, none⟩

structure TagStore where
  tags : List (Option Tag)
  tagsFree : Option Nat
  deriving DecidableEq, Repr

/-- The tag at an address, if one lives there. -/
def TagStore.tagAt (s : TagStore) (a : Nat) : Option Tag := (s.tags[a]?).join

/-- The addresses on the free list, up to a number of links. -/
def TagStore.freeChain (s : TagStore) : Nat → Option Nat → List Nat
  | 0, _ => []
  | _ + 1, none => []
  | n + 1, some a => a :: s.freeChain n ((s.tagAt a).bind Tag.tagNext)

structure Symbol where
  refCount : Nat
  string : Bytes
  deriving DecidableEq, Repr

/-- What a pool allocation is for. -/
inductive Pool where
  | text | tag | symbol | datum | node | map
  deriving DecidableEq, Repr

/-- What a run reports on its way; the program itself records none of it. -/
inductive Event where
  | allocated (pool : Pool)
  | released (pool : Pool)
  /-- The store after a tag was filled in, linked or freed. -/
  | stored (store : TagStore)
  /-- The symbols at the same time, with the store of the tags that refer to them. -/
  | counted (symbols : List Symbol) (store : TagStore)
  /-- `PListXMLParseNextTag` succeeded with `left` bytes before the end of the text. -/
  | returned (left length : Nat) (tag : Option Nat) (store : TagStore)
  /-- A tag on the free list was freed again. -/
  | freedTwice (a : Nat)
  /-- `<plist>` was reported with the tag its caller got for an earlier element. -/
  | keptTag (a : Nat)
  /-- An integer that starts with markup was reported with the length of its start tag. -/
  | shortInteger (length left : Nat)
  /-- A tag just taken from the free list was freed while it still linked the next free one. -/
  | uncleared (a : Nat)
  /-- The length of a data text is negative as an `int`. -/
  | wideData
  /-- Decoding read behind the allocation of a symbol. -/
  | behindSymbol
  /-- A byte behind a symbol or behind the decoding table could not be read. -/
  | unreadable
  /-- A Boolean or integer node was written although its allocation had failed. -/
  | nullNode
  /-- A data text was decoded into a buffer of its own. -/
  | decoded
  /-- A leaf that no bag took was left behind, with the allocations it consists of. -/
  | unattached (pools : List Pool)
  deriving DecidableEq, Repr

/-- Why a run is stopped. -/
inductive Fault where
  /-- An access outside the private copy of the text. -/
  | outOfBounds
  /-- An access to a tag or symbol that is not, or no longer, there. -/
  | badAddress
  | nullDeref
  /-- Decoding ran away. -/
  | wildRead
  /-- A byte behind a symbol or behind the decoding table that cannot be read. -/
  | unreadable
  | outOfFuel
  deriving DecidableEq, Repr

/-- What the surroundings decide: which pool allocations succeed, which lengths `AsciiStrCpyS` copies,
the bytes behind the symbol that was made at a place of the text, the byte behind the table
`decoding`. -/
structure Env where
  alloc : Nat → Bool
  strcpy : Nat → Bool
  behindSymbol : Nat → Nat → Option UInt8
  behindTable : Option UInt8

structure Parser extends TagStore where
  configBuffer : Bytes
  symbols : List Symbol
  /-- The symbols were released, and the head of their list still points to them. -/
  danglingSymbols : Bool
  allocs : Nat
  deriving DecidableEq, Repr

abbrev ParserM := Exec Fault Event Parser

open Exec

/-! ### The pool -/

def allocate (env : Env) (pool : Pool) : ParserM Bool := do
  let s ← get
  modify fun s => { s with allocs := s.allocs + 1 }
  if env.alloc s.allocs then
    emit (.allocated pool)
    pure true
  else pure false

def release (pool : Pool) : ParserM Unit := emit (.released pool)

/-! ### The private copy of the text -/

def readByte (i : Nat) : ParserM UInt8 := do
  let s ← get
  match s.configBuffer[i]? with
  | some c => pure c
  | none => stop .outOfBounds

def writeByte (i : Nat) (c : UInt8) : ParserM Unit := do
  let s ← get
  if i < s.configBuffer.length then modify fun s => { s with configBuffer := s.configBuffer.set i c }
  else stop .outOfBounds

/-- How many bytes lie before the first one that is `NUL` or the target; `none` when there is none. -/
def scan (target : UInt8) : Bytes → Option Nat
  | [] => none
  | c :: cs => if c = 0 ∨ c = target then some 0 else (scan target cs).map (· + 1)

/-- `while ((buffer[cnt] != '\0') && (buffer[cnt] != target)) cnt++`. -/
def scanFor (target : UInt8) (buffer : Nat) : ParserM Nat := do
  let s ← get
  match scan target (s.configBuffer.drop buffer) with
  | some cnt => pure cnt
  | none => stop .outOfBounds

/-- The C string at a place of the text. -/
def readString (buffer : Nat) : ParserM Bytes := do
  let cnt ← scanFor 0 buffer
  let s ← get
  pure ((s.configBuffer.drop buffer).take cnt)

/-- The first `count` bytes at a place of the text. -/
def readBytes (buffer count : Nat) : ParserM Bytes := do
  let s ← get
  if buffer + count ≤ s.configBuffer.length then pure ((s.configBuffer.drop buffer).take count)
  else stop .outOfBounds

/-! ### Symbols -/

/-- Find a symbol and count one more reference. -/
def bumpSymbol (string : Bytes) : List Symbol → Option (List Symbol)
  | [] => none
  | symbol :: next =>
      if symbol.string = string then some ({ symbol with refCount := symbol.refCount + 1 } :: next)
      else (bumpSymbol string next).map (symbol :: ·)

/-- Find a symbol and drop one reference, and the symbol with its last one. -/
def dropSymbol (string : Bytes) : List Symbol → Option (Bool × List Symbol)
  | [] => none
  | symbol :: next =>
      if symbol.string = string then
        if symbol.refCount - 1 ≠ 0 then
          some (false, { symbol with refCount := symbol.refCount - 1 } :: next)
        else some (true, next)
      else (dropSymbol string next).map fun r => (r.1, symbol :: r.2)

/-- The symbol table, which must not have been released. -/
def liveSymbols : ParserM (List Symbol) := do
  let s ← get
  if s.danglingSymbols then stop .badAddress else pure s.symbols

def plistXmlNewSymbol (env : Env) (buffer : Nat) : ParserM (Option Bytes) := do
  let string ← readString buffer
  let symbols ← liveSymbols
  match bumpSymbol string symbols with
  | some symbols =>
      modify fun s => { s with symbols := symbols }
      pure (some string)
  | none =>
      if ← allocate env .symbol then
        if env.strcpy string.length then
          modify fun s => { s with symbols := ⟨1, string⟩ :: symbols }
          pure (some string)
        else
          release .symbol
          pure none
      else pure none

def plistXmlFreeSymbol (string : Bytes) : ParserM Unit := do
  let symbols ← liveSymbols
  match dropSymbol string symbols with
  | none => pure ()
  | some (last, symbols) =>
      modify fun s => { s with symbols := symbols }
      if last then release .symbol else pure ()

def freeString : Option Bytes → ParserM Unit
  | some string => plistXmlFreeSymbol string
  | none => pure ()

/-! ### Tags -/

def readTag (a : Nat) : ParserM Tag := do
  let s ← get
  match s.tagAt a with
  | some t => pure t
  | none => stop .badAddress

def writeTag (a : Nat) (t : Option Tag) : ParserM Unit :=
  modify fun s => { s with tags := s.tags.set a t }

/-- Report the store, and the symbols. -/
def snapshot : ParserM Unit := do
  let s ← get
  emit (.stored s.toTagStore)
  emit (.counted s.symbols s.toTagStore)

def plistXmlNewTag (env : Env) : ParserM (Option Nat) := do
  let s ← get
  match s.tagsFree with
  | none =>
      if ← allocate env .tag then
        modify fun s => { s with tags := s.tags ++ [some zeroTag] }
        pure (some s.tags.length)
      else pure none
  | some a =>
      let tag ← readTag a
      modify fun s => { s with tagsFree := tag.tagNext }
      pure (some a)

/-- Report a tag about to be put on the free list that is there already. -/
def reportFreed (a : Nat) : ParserM Unit := do
  let s ← get
  if a ∈ s.freeChain (s.tags.length + 1) s.tagsFree then emit (.freedTwice a) else pure ()

/-- Clear a tag and put it in front of the free list. -/
def pushFree (a : Nat) : ParserM Unit := do
  reportFreed a
  let s ← get
  let tag ← readTag a
  writeTag a (some { tag with
    type := .none, string := none, dataLen := 0, tag := none, offset := 0, tagNext := s.tagsFree })
  modify fun s => { s with tagsFree := some a }

/-- The recursion of `PListXMLFreeTag`. A list that runs into itself uses up any number of links. -/
def freeTags : Nat → Option Nat → ParserM Unit
  | _, none => pure ()
  | 0, some _ => stop .outOfFuel
  | n + 1, some a => do
      let tag ← readTag a
      freeString tag.string
      freeTags n tag.tag
      let tag ← readTag a
      freeTags n tag.tagNext
      pushFree a

def plistXmlFreeTag (tag : Option Nat) : ParserM Unit := do
  let s ← get
  freeTags (s.tags.length + 1) tag
  snapshot

/-- Report a tag about to be freed that was taken for an element and not filled in. -/
def reportUncleared (a : Nat) : ParserM Unit := do
  let tag ← readTag a
  if tag.tagNext = none then pure () else emit (.uncleared a)

/-- The loop of `PListXMLCleanup` over the free list. -/
def releaseTags : Nat → Option Nat → ParserM Unit
  | _, none => pure ()
  | 0, some _ => stop .outOfFuel
  | n + 1, some a => do
      let tag ← readTag a
      writeTag a none
      release .tag
      releaseTags n tag.tagNext

/-- Release the symbols and the free tags; the head of the symbol list stays as it was. -/
def plistXmlCleanup : ParserM Unit := do
  let symbols ← liveSymbols
  symbols.forM fun _ => release .symbol
  modify fun s => { s with danglingSymbols := !s.symbols.isEmpty }
  let s ← get
  releaseTags (s.tags.length + 1) s.tagsFree
  modify fun s => { s with tagsFree := none }

end BareBoot.Plist
