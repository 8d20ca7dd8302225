import BareBoot.PlistTree

/-! `plNodeToXml` of `plist_xml_out.c`. A function that returns 0 makes every function above it return 0
at once, which is a refusal here. The length of what is appended is an `int`: a text of 2 ^ 31 bytes or
more counts as empty. -/

namespace BareBoot.Plist

open Exec

/-! ### The buffer -/

/-- `plbuf_t`; `dat` is the memory at the pointer. -/
structure PlBuf where
  dat : Bytes
  len : Nat
  pos : Nat
  deriving DecidableEq, Repr

structure Writer extends PlBuf where
  allocs : Nat
  deriving DecidableEq, Repr

/-- Why writing ends early. -/
inductive WriteStop where
  | refused
  /-- Encoding ran away. -/
  | wildRead
  deriving DecidableEq, Repr

abbrev WriterM := Exec WriteStop Event Writer

/-- The `int` with these 32 bits. -/
def asInt (n : Nat) : Int := if n % 2 ^ 32 < 2 ^ 31 then (n % 2 ^ 32 : Nat) else (n % 2 ^ 32 : Nat) - 2 ^ 32

/-- The `unsigned int` with the bits of an `int`. -/
def asUnsigned (i : Int) : Nat := (i % 2 ^ 32).toNat

def plBufHasNum (ibuf : PlBuf) (num : Nat) : Bool := num ≤ (ibuf.len + (2 ^ 32 - ibuf.pos)) % 2 ^ 32

/-- Copy bytes to a place of some memory. -/
def overwrite (dat : Bytes) (pos : Nat) (datum : Bytes) : Bytes :=
  dat.take pos ++ datum ++ dat.drop (pos + datum.length)

def PlBuf.put (b : PlBuf) (datum : Bytes) : PlBuf :=
  { b with dat := overwrite b.dat b.pos datum, pos := addU32 b.pos datum.length }

/-- `_plAppendBytes`; the Boolean is its result. -/
def plAppendBytes (datum : Bytes) (dlen : Int) : WriterM Bool := do
  if dlen < 1 then pure true
  else
    let obuf ← get
    if plBufHasNum obuf.toPlBuf (asUnsigned dlen) then
      modify fun obuf => { obuf with toPlBuf := obuf.toPlBuf.put (datum.take (asUnsigned dlen)) }
      pure true
    else pure false

/-- Append all the bytes of a datum, or refuse. -/
def append (datum : Bytes) : WriterM Unit := do
  if ← plAppendBytes datum (asInt datum.length) then pure () else stop .refused

def appendIf (c : Bool) (datum : Bytes) : WriterM Unit := if c then append datum else pure ()

/-! ### Tags -/

def plIndentXml : Nat → WriterM Unit
  | 0 => pure ()
  | indent + 1 => do
      append (ascii "  ")
      plIndentXml indent

def plNodeTagToXml (indent : Nat) (name : Bytes) (nl tlr : Bool) : WriterM Unit := do
  plIndentXml indent
  append (ascii "<")
  appendIf tlr (ascii "/")
  append name
  append (ascii ">")
  appendIf nl (ascii "\n")

def plEmptyNodeTagToXml (indent : Nat) (name : Bytes) (nl : Bool) : WriterM Unit := do
  plIndentXml indent
  append (ascii "<")
  append name
  append (ascii "/>")
  appendIf nl (ascii "\n")

/-! ### Nodes -/

/-- `plNodeGetItem` and the writers of the items: `items` are the writers of the nodes a node holds. -/
def plItemsToXml (indent : Nat) : List (Nat → WriterM Unit) → WriterM Unit
  | [] => pure ()
  | item :: items => do
      item indent
      plItemsToXml indent items

def plBagToXml (name : Bytes) (items : List (Nat → WriterM Unit)) (indent : Nat) : WriterM Unit := do
  if items.length = 0 then plEmptyNodeTagToXml indent name true
  else
    plNodeTagToXml indent name true false
    plItemsToXml (indent + 1) items
    plNodeTagToXml indent name true true

def plStrToXml (name bp : Bytes) (indent : Nat) : WriterM Unit := do
  plNodeTagToXml indent name false false
  appendIf (bp.length > 0) bp
  plNodeTagToXml 0 name true true

def allocateCode (env : Env) : WriterM Bool := do
  let s ← get
  modify fun s => { s with allocs := s.allocs + 1 }
  if env.alloc s.allocs then
    emit (.allocated .datum)
    pure true
  else pure false

/-- `_plb64encode` of a datum that is not empty. The size it allocates is computed in 32 bits. -/
def plb64encode (env : Env) (idat : Bytes) : WriterM Bytes := do
  if ← (if ((idat.length + 2) % 2 ^ 32 / 3 + 1) * 4 % 2 ^ 32 = 0 then pure false else allocateCode env) then
    if idat.length < 2 ^ 31 then pure (base64Encode idat) else stop .wildRead
  else stop .refused

/-- The part of `_plBytesToXml` between the tags. -/
def appendCode (env : Env) (bp : Bytes) : WriterM Unit := do
  if bp.length > 0 then
    let odat ← plb64encode env bp
    let rc ← plAppendBytes odat (asInt odat.length)
    emit (.released .datum)
    if rc then pure () else stop .refused
  else pure ()

def plBytesToXml (env : Env) (name bp : Bytes) (indent : Nat) : WriterM Unit := do
  plNodeTagToXml indent name false false
  appendCode env bp
  plNodeTagToXml 0 name true true

def plBoolToXml (intval : Bool) (indent : Nat) : WriterM Unit :=
  if intval then plEmptyNodeTagToXml indent (ascii "true") true
  else plEmptyNodeTagToXml indent (ascii "false") true

def plIntToXml (name : Bytes) (intval : Int64) (indent : Nat) : WriterM Unit := do
  plNodeTagToXml indent name false false
  append (plint2str intval)
  plNodeTagToXml 0 name true true

/-- A date is written without its bytes. -/
def plDateToXml (name : Bytes) (indent : Nat) : WriterM Unit := do
  plNodeTagToXml indent name false false
  plNodeTagToXml 0 name true true

def plNode2Xml (env : Env) (label : Label) (items : List (Nat → WriterM Unit)) (indent : Nat) : WriterM Unit :=
  match label with
  | .dict => plBagToXml (ascii "dict") items indent
  | .array => plBagToXml (ascii "array") items indent
  | .key datval => do
      plStrToXml (ascii "key") datval indent
      match items with
      | [] => pure ()
      | item :: _ => item (indent + 1)
  | .string datval => plStrToXml (ascii "string") datval indent
  | .data datval => plBytesToXml env (ascii "data") datval indent
  | .bool intval => plBoolToXml intval indent
  | .integer intval => plIntToXml (ascii "integer") intval indent
  | .date _ => plDateToXml (ascii "date") indent

/-- The writers of the trees of a forest. -/
def itemWriters (env : Env) : Forest Label → List (Nat → WriterM Unit)
  | .nil => []
  | .cons label kids next => plNode2Xml env label (itemWriters env kids) :: itemWriters env next

def plXmlHdr1 : Bytes := ascii "<?xml version=\"1.0\" encoding=\"UTF-8\"?>\n"

def plXmlHdr2 : Bytes :=
  ascii "<!DOCTYPE plist PUBLIC \"-//Apple//DTD PLIST 1.0//EN\" \"http://www.apple.com/DTDs/PropertyList-1.0.dtd\">\n"

def plXmlHdr3 : Bytes := ascii "<plist version=\"1.0\">\n"

def plXmlTlr1 : Bytes := ascii "</plist>\n"

def plNodeToXml (env : Env) (pl : Node) : WriterM Unit := do
  append plXmlHdr1
  append plXmlHdr2
  append plXmlHdr3
  plNode2Xml env pl.label (itemWriters env pl.kids) 1
  append plXmlTlr1

/-! ### The text of a tree -/

def indentText (indent : Nat) : Bytes := (List.replicate indent (ascii "  ")).flatten

def tagText (indent : Nat) (name : Bytes) (nl tlr : Bool) : Bytes :=
  indentText indent ++ (ascii "<" ++ ((if tlr then ascii "/" else []) ++ (name ++ (ascii ">" ++
    if nl then ascii "\n" else []))))

def emptyTagText (indent : Nat) (name : Bytes) : Bytes :=
  indentText indent ++ (ascii "<" ++ (name ++ (ascii "/>" ++ ascii "\n")))

def textElement (name body : Bytes) (indent : Nat) : Bytes :=
  tagText indent name false false ++ (body ++ tagText 0 name true true)

def bagText (name : Bytes) (items : List (Nat → Bytes)) (indent : Nat) : Bytes :=
  if items.length = 0 then emptyTagText indent name
  else tagText indent name true false ++ ((items.map fun item => item (indent + 1)).flatten ++ tagText indent name true true)

/-- The text of a node, given the texts of the nodes it holds. -/
def nodeText (label : Label) (items : List (Nat → Bytes)) (indent : Nat) : Bytes :=
  match label with
  | .dict => bagText (ascii "dict") items indent
  | .array => bagText (ascii "array") items indent
  | .key datval =>
      textElement (ascii "key") datval indent ++
        match items with
        | [] => []
        | item :: _ => item (indent + 1)
  | .string datval => textElement (ascii "string") datval indent
  | .data datval => textElement (ascii "data") (if datval.length > 0 then base64Encode datval else []) indent
  | .bool intval => emptyTagText indent (if intval then ascii "true" else ascii "false")
  | .integer intval => textElement (ascii "integer") (plint2str intval) indent
  | .date _ => textElement (ascii "date") [] indent

def itemTexts : Forest Label → List (Nat → Bytes)
  | .nil => []
  | .cons label kids next => nodeText label (itemTexts kids) :: itemTexts next

/-- The XML text of a tree. -/
def render (pl : Node) : Bytes :=
  plXmlHdr1 ++ (plXmlHdr2 ++ (plXmlHdr3 ++ (nodeText pl.label (itemTexts pl.kids) 1 ++ plXmlTlr1)))

end BareBoot.Plist
