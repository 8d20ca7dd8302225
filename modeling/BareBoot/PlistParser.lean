import BareBoot.PlistTag

/-! `PListXMLParse` and what it calls, over the private copy of the text. A `char*` into the copy is an
offset from its start; lengths and positions added up by the code are `unsigned int`. A function with a
status and out-parameters returns `none` for -1 and the values of its out-parameters otherwise. -/

namespace BareBoot.Plist

open Exec

/-- `unsigned int` addition. -/
def addU32 (a b : Nat) : Nat := (a + b) % 2 ^ 32

/-! ### Scanning -/

/-- The place of the tag's name, where the tag starts, and the length up to and with its `'>'`, which is
overwritten. -/
def plistXmlGetNextTag (buffer : Nat) : ParserM (Option (Nat × Nat × Nat)) := do
  let cnt ← scanFor 60 buffer
  let c ← readByte (buffer + cnt)
  if c = 0 then pure none
  else
    let more ← scanFor 62 (buffer + cnt + 1)
    let cnt2 := cnt + 1 + more
    let c ← readByte (buffer + cnt2)
    if c = 0 then pure none
    else
      writeByte (buffer + cnt2) 0
      pure (some (buffer + cnt + 1, cnt, cnt2 + 1))

/-- The loop of `PListXMLFixDataMatchingTag`: how far the text goes up to and with the end tag. -/
def fixDataFrom (tag : Bytes) (buffer : Nat) : Nat → Nat → ParserM (Option Nat)
  | 0, _ => stop .outOfFuel
  | n + 1, start => do
      match ← plistXmlGetNextTag (buffer + start) with
      | none => pure none
      | some (endTag, stop, length) =>
          let name ← readString endTag
          if name = 47 :: tag then
            writeByte (buffer + addU32 start stop) 0
            pure (some (addU32 start length))
          else fixDataFrom tag buffer n (addU32 start length)

/-- Every turn of the loop moves `start` on, and there are only so many values for it. -/
def plistXmlFixDataMatchingTag (buffer : Nat) (tag : Bytes) : ParserM (Option Nat) :=
  fixDataFrom tag buffer (2 ^ 32) 0

/-! ### Elements

Each returns the tag it made and the length it adds to that of the start tag. -/

/-- Fill in a tag taken for an element. -/
def fillTag (a : Nat) (f : Tag → Tag) : ParserM Unit := do
  let tag ← readTag a
  writeTag a (some (f tag))
  snapshot

/-- Set `tagNext` of a tag. -/
def linkTag (a : Nat) (next : Option Nat) : ParserM Unit := do
  let tag ← readTag a
  writeTag a (some { tag with tagNext := next })
  snapshot

/-- `buffer - buffer_start` as it is stored. -/
def offsetOf (buffer : Nat) : Nat := buffer % 2 ^ 32

def plistXmlParseTagString (env : Env) (buffer : Nat) : ParserM (Option (Nat × Nat)) := do
  match ← plistXmlFixDataMatchingTag buffer (ascii "string") with
  | none => pure none
  | some length =>
      match ← plistXmlNewTag env with
      | none => pure none
      | some tmpTag =>
          match ← plistXmlNewSymbol env buffer with
          | none =>
              reportUncleared tmpTag
              plistXmlFreeTag (some tmpTag)
              pure none
          | some string =>
              fillTag tmpTag fun tag => { tag with
                type := .string, string := some string, dataLen := string.length % 2 ^ 32, tag := none,
                tagNext := none, offset := offsetOf buffer }
              pure (some (tmpTag, length))

/-- `startLength` is what the out-parameter for the length holds before: the length of the start tag.
An integer that starts with markup leaves it there. -/
def plistXmlParseTagInteger (env : Env) (buffer startLength : Nat) : ParserM (Option (Nat × Nat)) := do
  match ← plistXmlFixDataMatchingTag buffer (ascii "integer") with
  | none => pure none
  | some length =>
      match ← plistXmlNewTag env with
      | none => pure none
      | some tmpTag =>
          let c ← readByte buffer
          if c = 60 then
            fillTag tmpTag fun tag => { tag with
              type := .integer, string := none, intval := 0, tag := none, offset := 0, tagNext := none }
            let s ← get
            emit (.shortInteger startLength (s.configBuffer.length - 1 - buffer))
            pure (some (tmpTag, startLength))
          else
            let vbuf ← readBytes buffer (min 39 length)
            fillTag tmpTag fun tag => { tag with
              type := .integer, intval := plstr2vlong vbuf length, tag := none,
              offset := offsetOf buffer, tagNext := none }
            pure (some (tmpTag, length))

/-- Reading a byte that cannot be read. -/
def readUnreadable {α : Type} : ParserM α := do
  emit .unreadable
  stop .unreadable

/-- The first bytes at a symbol's text, of which its allocation holds eight behind the `NUL`. -/
def readSymbol (env : Env) (buffer : Nat) (string : Bytes) (count : Nat) : ParserM Bytes := do
  let held := string ++ List.replicate 9 0
  if count ≤ held.length then pure (held.take count)
  else
    emit .behindSymbol
    match (List.range (count - held.length)).mapM (env.behindSymbol buffer) with
    | some behind => pure (held ++ behind)
    | none => readUnreadable

/-- The bytes a data text decodes to; only `'{'` reads the byte behind the table. -/
def decodeSymbol (env : Env) (buffer : Nat) (string : Bytes) (count : Nat) : ParserM Bytes := do
  let idat ← readSymbol env buffer string count
  if 123 ∈ idat then
    match env.behindTable with
    | some c => pure (base64Decode c idat)
    | none => readUnreadable
  else pure (base64Decode 0 idat)

/-- `_plb64decode` of a symbol: the decoded bytes, or `NULL`. -/
def plb64decode (env : Env) (buffer : Nat) (idat : Option Bytes) (ilen : Nat) :
    ParserM (Option Bytes) := do
  match idat with
  | none => pure none
  | some string =>
      if ilen = 0 then pure none
      else if ← allocate env .datum then
        if ilen < 2 ^ 31 then
          let odat ← decodeSymbol env buffer string ilen
          emit .decoded
          pure (some odat)
        else
          emit .wideData
          stop .wildRead
      else pure none

def plistXmlParseTagData (env : Env) (buffer : Nat) : ParserM (Option (Nat × Nat)) := do
  match ← plistXmlFixDataMatchingTag buffer (ascii "data") with
  | none => pure none
  | some length =>
      match ← plistXmlNewTag env with
      | none => pure none
      | some tmpTag =>
          let string ← plistXmlNewSymbol env buffer
          let data ← plb64decode env buffer string length
          fillTag tmpTag fun tag => { tag with
            type := .data, string := string, data := data, dataLen := (data.getD []).length, tag := none,
            offset := offsetOf buffer, tagNext := none }
          pure (some (tmpTag, length))

def plistXmlParseTagDate (env : Env) (buffer : Nat) : ParserM (Option (Nat × Nat)) := do
  match ← plistXmlFixDataMatchingTag buffer (ascii "date") with
  | none => pure none
  | some length =>
      match ← plistXmlNewTag env with
      | none => pure none
      | some tmpTag =>
          fillTag tmpTag fun tag => { tag with
            type := .date, string := none, tag := none, tagNext := none, offset := offsetOf buffer }
          pure (some (tmpTag, length))

def plistXmlParseTagBoolean (env : Env) (buffer : Nat) (type : TagType) :
    ParserM (Option (Nat × Nat)) := do
  match ← plistXmlNewTag env with
  | none => pure none
  | some tmpTag =>
      fillTag tmpTag fun tag => { tag with
        type := type, string := none, dataLen := 0, tag := none, tagNext := none,
        offset := offsetOf buffer }
      pure (some (tmpTag, 0))

/-! ### Containers

`next` is `PListXMLParseNextTag`: the place it reads at, what its out-parameter holds before, and what
it holds afterwards, with the length. -/

section Containers
variable (env : Env) (next : Nat → Option Nat → ParserM (Option (Option Nat × Nat)))

def plistXmlParseTagKey (buffer : Nat) : ParserM (Option (Nat × Nat)) := do
  match ← plistXmlFixDataMatchingTag buffer (ascii "key") with
  | none => pure none
  | some length =>
      match ← next (buffer + length) none with
      | none => pure none
      | some (subTag, length2) =>
          match ← plistXmlNewTag env with
          | none =>
              plistXmlFreeTag subTag
              pure none
          | some tmpTag =>
              match ← plistXmlNewSymbol env buffer with
              | none =>
                  reportUncleared tmpTag
                  plistXmlFreeTag subTag
                  plistXmlFreeTag (some tmpTag)
                  pure none
              | some string =>
                  fillTag tmpTag fun tag => { tag with
                    type := .key, string := some string, dataLen := string.length % 2 ^ 32,
                    tag := subTag, offset := offsetOf buffer, tagNext := none }
                  pure (some (tmpTag, addU32 length length2))

/-- The loop of `PListXMLParseTagList`: the list read, and the position behind the tag that ended it.
Its `tmpTag` holds the last tag of the list whenever `next` is called. -/
def parseTags (buffer : Nat) : Nat → Nat → Option Nat → Option Nat → ParserM (Option (Option Nat × Nat))
  | 0, _, _, _ => stop .outOfFuel
  | n + 1, pos, tagList, lastTag => do
      match ← next (buffer + pos) lastTag with
      | none =>
          plistXmlFreeTag tagList
          pure none
      | some (none, length) => pure (some (tagList, addU32 pos length))
      | some (some tmpTag, length) =>
          linkTag tmpTag none
          match lastTag with
          | none => parseTags buffer n (addU32 pos length) (some tmpTag) (some tmpTag)
          | some last =>
              linkTag last (some tmpTag)
              parseTags buffer n (addU32 pos length) tagList (some tmpTag)

def plistXmlParseTagList (fuel buffer : Nat) (type : TagType) (empty : Bool) :
    ParserM (Option (Nat × Nat)) := do
  match ← (if empty then pure (some (none, 0)) else parseTags next buffer fuel 0 none none) with
  | none => pure none
  | some (tagList, pos) =>
      match ← plistXmlNewTag env with
      | none =>
          plistXmlFreeTag tagList
          pure none
      | some tmpTag =>
          fillTag tmpTag fun tag => { tag with
            type := type, string := none, dataLen := 0, offset := offsetOf buffer, tag := tagList,
            tagNext := none }
          pure (some (tmpTag, pos))

end Containers

/-! ### The next tag -/

/-- What the name of a start tag is compared with, in this order. -/
inductive Markup where
  | plist
  | list (type : TagType) (empty : Bool)
  | key | string | integer | data | date
  | boolean (type : TagType)
  | unknown
  deriving DecidableEq, Repr

def markupOf (tagName : Bytes) : Markup :=
  if tagName = ascii "plist" then .plist
  else if tagName = ascii "dict" then .list .dict false
  else if tagName = ascii "dict/" then .list .dict true
  else if tagName = ascii "dict " then .list .dict false
  else if tagName = ascii "key" then .key
  else if tagName = ascii "string" then .string
  else if tagName = ascii "integer" then .integer
  else if tagName = ascii "integer " then .integer
  else if tagName = ascii "data" then .data
  else if tagName = ascii "data " then .data
  else if tagName = ascii "date" then .date
  else if tagName = ascii "false/" then .boolean .false
  else if tagName = ascii "true/" then .boolean .true
  else if tagName = ascii "array" then .list .array false
  else if tagName = ascii "array " then .list .array false
  else if tagName = ascii "array/" then .list .array true
  else .unknown

/-- Report an out-parameter that still holds the tag of an earlier element. -/
def reportKept : Option Nat → ParserM Unit
  | some a => emit (.keptTag a)
  | none => pure ()

/-- The element after its start tag: the value of `*tag` and the length added. -/
def parseElement (env : Env) (next : Nat → Option Nat → ParserM (Option (Option Nat × Nat)))
    (fuel buffer startLength : Nat) (tag : Option Nat) : Markup → ParserM (Option (Option Nat × Nat))
  | .plist => do
      -- The only branch that leaves `*tag` as it is.
      reportKept tag
      pure (some (tag, 0))
  | .list type empty => (·.map fun r => (some r.1, r.2)) <$>
      plistXmlParseTagList env next fuel buffer type empty
  | .key => (·.map fun r => (some r.1, r.2)) <$> plistXmlParseTagKey env next buffer
  | .string => (·.map fun r => (some r.1, r.2)) <$> plistXmlParseTagString env buffer
  | .integer => (·.map fun r => (some r.1, r.2)) <$> plistXmlParseTagInteger env buffer startLength
  | .data => (·.map fun r => (some r.1, r.2)) <$> plistXmlParseTagData env buffer
  | .date => (·.map fun r => (some r.1, r.2)) <$> plistXmlParseTagDate env buffer
  | .boolean type => (·.map fun r => (some r.1, r.2)) <$> plistXmlParseTagBoolean env buffer type
  | .unknown => pure (some (none, 0))

def plistXmlParseNextTag (env : Env) : Nat → Nat → Option Nat → ParserM (Option (Option Nat × Nat))
  | 0, _, _ => stop .outOfFuel
  | fuel + 1, buffer, tag => do
      match ← plistXmlGetNextTag buffer with
      | none => pure none
      | some (tagName, _, pos) =>
          let name ← readString tagName
          match ← parseElement env (plistXmlParseNextTag env fuel) fuel (buffer + pos) pos tag
              (markupOf name) with
          | none => pure none
          | some (tag, length) =>
              let s ← get
              emit (.returned (s.configBuffer.length - 1 - buffer) (addU32 pos length) tag s.toTagStore)
              pure (some (tag, addU32 pos length))

/-! ### The whole text -/

/-- The loop of `PListXMLParse`: the first dictionary at top level. -/
def parseTop (env : Env) (fuel : Nat) : Nat → Nat → Option Nat → ParserM (Option Nat)
  | 0, _, _ => stop .outOfFuel
  | n + 1, pos, tag => do
      match ← plistXmlParseNextTag env fuel pos tag with
      | none => pure none
      | some (none, length) => parseTop env fuel n (addU32 pos length) none
      | some (some a, length) =>
          let t ← readTag a
          if t.type = .dict then pure (some a)
          else
            plistXmlFreeTag (some a)
            parseTop env fuel n (addU32 pos length) (some a)

/-- Links and calls the parser can need for a text: one for each byte, and the ends. -/
def parseFuel (bufferSize : Nat) : Nat := bufferSize + 2

/-- `PListXMLParse`, given what the copy of the text holds and its size. -/
def plistXmlParseCopy (env : Env) (copy : Bytes) (bufferSize : Nat) : ParserM (Option Nat) := do
  if bufferSize = 0 then pure none
  else if ← allocate env .text then
    modify fun s => { s with configBuffer := copy }
    let tag ← parseTop env (parseFuel bufferSize) (parseFuel bufferSize) 0 none
    release .text
    pure tag
  else pure none

/-- The bytes of memory copied: the text and the byte behind it. -/
def copyOf (buffer : Nat → UInt8) (bSize : Nat) : Bytes := (List.range (addU32 bSize 1)).map buffer

def plistXmlParse (env : Env) (buffer : Nat → UInt8) (bSize : Nat) : ParserM (Option Nat) :=
  plistXmlParseCopy env (copyOf buffer bSize) (addU32 bSize 1)

end BareBoot.Plist
