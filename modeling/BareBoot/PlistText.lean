import BareBoot.PlistNode
import BareBoot.PlistScan

/-! What a plist text means to the parser, without its memory: the text is a sequence of tokens, and a
pushdown machine turns them into the tree of the first dictionary at top level. A container is closed,
and a key left without a value, by any markup that is no element. -/

namespace BareBoot.Plist

/-! ### Tokens -/

inductive Token where
  | plist
  | unknown
  /-- A leaf or an empty container. -/
  | element (label : Label)
  | opens (label : Label)
  | key (datval : Bytes)
  /-- The parser leaves its defined behaviour. -/
  | bad
  deriving DecidableEq, Repr

def listLabel : TagType → Label
  | .dict => .dict
  | _ => .array

/-- The bytes `_plb64decode` reads at a symbol. -/
def symbolBytes (env : Env) (buffer : Nat) (string : Bytes) (count : Nat) : Option Bytes :=
  let held := string ++ List.replicate 9 0
  if count ≤ held.length then some (held.take count)
  else ((List.range (count - held.length)).mapM (env.behindSymbol buffer)).map (held ++ ·)

def decodedBytes (env : Env) (idat : Bytes) : Option Bytes :=
  if 123 ∈ idat then env.behindTable.map (base64Decode · idat) else some (base64Decode 0 idat)

/-- The token of a data element whose text starts at a place and reads `body` up to its end tag. -/
def dataToken (env : Env) (buffer : Nat) (body : Bytes) : Token :=
  if body.length + 7 < 2 ^ 31 then
    match (symbolBytes env buffer (cstr body) (body.length + 7)).bind (decodedBytes env) with
    | some d => .element (.data d)
    | none => .bad
  else .bad

/-- The token of an integer element in the text `before <name> body </integer> rest`. One that starts
with markup is zero, and what follows it is read from within the element. -/
def integerToken (before name body rest : Bytes) : Token × Bytes :=
  if body.head? = some 60 then
    let start := before.length + name.length + 2
    let text := closed before name (fixed (ascii "integer") body rest)
    if 0 < addU32 start start ∧ addU32 start start ≤ text.length then
      (.element (.integer 0), text.drop (addU32 start start))
    else (.bad, [])
  else (.element (.integer (plstr2vlong (body ++ integerTail) (body.length + 10))), rest)

/-- The token an element makes after its start tag in `before <name> rest`, and the text it leaves;
`total` is the length of the whole text. -/
def elementToken (env : Env) (total : Nat) (before name rest : Bytes) : Markup → Option (Token × Bytes)
  | .plist => some (.plist, rest)
  | .unknown => some (.unknown, rest)
  | .list type empty => some (if empty then .element (listLabel type) else .opens (listLabel type), rest)
  | .boolean type => some (.element (.bool (type = .true)), rest)
  | .key => (matchEnd (ascii "key") rest).map fun r => (.key (cstr r.1), r.2)
  | .string => (matchEnd (ascii "string") rest).map fun r => (.element (.string (cstr r.1)), r.2)
  | .date => (matchEnd (ascii "date") rest).map fun r => (.element (.date []), r.2)
  | .data => (matchEnd (ascii "data") rest).map fun r => (dataToken env (total - rest.length) r.1, r.2)
  | .integer => (matchEnd (ascii "integer") rest).map fun r => integerToken before name r.1 r.2

def nextToken (env : Env) (total : Nat) (u : Bytes) : Option (Token × Bytes) :=
  (nextTag u).bind fun r => elementToken env total r.1 r.2.1 r.2.2 (markupOf r.2.1)

theorem length_integerToken_lt (before name body rest : Bytes) :
    (integerToken before name body rest).2.length <
      (closed before name (fixed (ascii "integer") body rest)).length := by
  have hlen : 0 < (closed before name (fixed (ascii "integer") body rest)).length := by
    rw [length_closed]
    omega
  unfold integerToken
  split
  · simp only
    split
    · rename_i h
      rw [List.length_drop]
      omega
    · exact hlen
  · rw [length_closed, length_fixed]
    simp only
    omega

theorem length_lt_of_elementToken {env : Env} {total : Nat} {before name rest rest' : Bytes} {tok : Token}
    {markup : Markup} (h : elementToken env total before name rest markup = some (tok, rest')) :
    rest'.length < before.length + name.length + 2 + rest.length := by
  have hmatch : ∀ (tag : Bytes) (f : Bytes × Bytes → Token),
      (matchEnd tag rest).map (fun p => (f p, p.2)) = some (tok, rest') →
        rest'.length < before.length + name.length + 2 + rest.length := by
    intro tag f hf
    rcases hm : matchEnd tag rest with _ | ⟨body, r⟩
    · rw [hm] at hf
      cases hf
    · rw [hm] at hf
      cases hf
      have := length_of_matchEnd hm
      simp only
      omega
  cases markup with
  | plist | unknown | list | boolean =>
      cases h
      omega
  | key => exact hmatch _ (fun r => .key (cstr r.1)) h
  | string => exact hmatch _ (fun r => .element (.string (cstr r.1))) h
  | date => exact hmatch _ (fun _ => .element (.date [])) h
  | data => exact hmatch _ (fun p => dataToken env (total - rest.length) p.1) h
  | integer =>
      rw [elementToken] at h
      rcases hm : matchEnd (ascii "integer") rest with _ | ⟨body, r⟩
      · rw [hm] at h
        cases h
      · rw [hm, Option.map_some, Option.some.injEq] at h
        have hint := length_integerToken_lt before name body r
        rw [h, length_closed, length_fixed] at hint
        have hfix := length_of_matchEnd hm
        simp only at hint
        omega

theorem length_lt_of_nextToken {env : Env} {total : Nat} {u : Bytes} {tok : Token} {rest : Bytes}
    (h : nextToken env total u = some (tok, rest)) : rest.length < u.length := by
  rw [nextToken, Option.bind_eq_some_iff] at h
  obtain ⟨⟨before, name, r⟩, hu, h⟩ := h
  rw [length_of_nextTag hu]
  exact length_lt_of_elementToken h

/-- The tokens of a text, up to an end tag that is missing or the end of the text. -/
def tokens (env : Env) (total : Nat) (u : Bytes) : List Token :=
  match _h : nextToken env total u with
  | none => []
  | some (tok, rest) => tok :: tokens env total rest
termination_by u.length
decreasing_by exact length_lt_of_nextToken _h

theorem tokens_of_none {env : Env} {total : Nat} {u : Bytes} (h : nextToken env total u = none) :
    tokens env total u = [] := by
  rw [tokens]
  split
  · rfl
  · rename_i heq
    rw [h] at heq
    cases heq

theorem tokens_of_some {env : Env} {total : Nat} {u rest : Bytes} {tok : Token}
    (h : nextToken env total u = some (tok, rest)) :
    tokens env total u = tok :: tokens env total rest := by
  rw [tokens]
  split
  · rename_i heq
    rw [h] at heq
    cases heq
  · rename_i heq
    rw [h] at heq
    cases heq
    rfl

/-! ### The machine -/

/-- The calls that wait for an element: a container with the elements it has, a key without its value,
the top level. -/
inductive Stack where
  | top (held : Bool)
  | list (label : Label) (tags : Forest Label) (below : Stack)
  | key (datval : Bytes) (below : Stack)
  deriving DecidableEq, Repr

inductive Machine where
  | running (stack : Stack)
  | finished (dict : Forest Label)
  | stuck
  deriving DecidableEq, Repr

/-- Whether the waiting call's out-parameter still holds the tag of an earlier element. -/
def Stack.held : Stack → Bool
  | .top held => held
  | .list _ tags _ => tags ≠ .nil
  | .key _ _ => false

/-- Hand an element, or markup that is none, to the call that waits for it. -/
def deliver : Option (Label × Forest Label) → Stack → Machine
  | none, .top _ => .running (.top false)
  | some (label, kids), .top _ => if label = .dict then .finished kids else .running (.top true)
  | none, .list label tags below => deliver (some (label, tags)) below
  | some (label, kids), .list outer tags below => .running (.list outer (tags ++ .cons label kids .nil) below)
  | none, .key datval below => deliver (some (.key datval, .nil)) below
  | some (label, kids), .key datval below => deliver (some (.key datval, .cons label kids .nil)) below

def Machine.step : Machine → Token → Machine
  | .running stack, .plist => if stack.held then .stuck else deliver none stack
  | .running stack, .unknown => deliver none stack
  | .running stack, .element label => deliver (some (label, .nil)) stack
  | .running stack, .opens label => .running (.list label .nil stack)
  | .running stack, .key datval => .running (.key datval stack)
  | .running _, .bad => .stuck
  | m, _ => m

def Machine.run (m : Machine) (toks : List Token) : Machine := toks.foldl Machine.step m

@[simp] theorem Machine.run_nil (m : Machine) : m.run [] = m := rfl

@[simp] theorem Machine.run_cons (m : Machine) (tok : Token) (toks : List Token) :
    m.run (tok :: toks) = (m.step tok).run toks := rfl

theorem Machine.run_append (m : Machine) (a b : List Token) : m.run (a ++ b) = (m.run a).run b :=
  List.foldl_append

@[simp] theorem Machine.run_stuck (toks : List Token) : Machine.stuck.run toks = .stuck := by
  induction toks with
  | nil => rfl
  | cons tok toks ih => exact ih

@[simp] theorem Machine.run_finished (f : Forest Label) (toks : List Token) :
    (Machine.finished f).run toks = .finished f := by
  induction toks with
  | nil => rfl
  | cons tok toks ih => exact ih

/-! ### The tree -/

def Label.isBag : Label → Bool
  | .array | .dict | .key _ => true
  | _ => false

def Label.isDate : Label → Bool
  | .date _ => true
  | _ => false

/-- `_plGrowTree` on what the machine delivers: a date has no bytes, so making its node fails. -/
def growForest : Forest Label → Node → Option Node
  | .nil, pn => some pn
  | .cons label kids next, pn =>
      if label.isDate then none
      else
        (if label.isBag then growForest kids (.leaf label) else some (.leaf label)).bind fun wn =>
          (plNodeAdd pn wn).bind fun pn => growForest next pn

/-- The node an element grows to. -/
def growValue (label : Label) (kids : Forest Label) : Option Node :=
  if label.isDate then none
  else if label.isBag then growForest kids (.leaf label) else some (.leaf label)

theorem growForest_cons (label : Label) (kids next : Forest Label) (pn : Node) :
    growForest (.cons label kids next) pn =
      ((growValue label kids).bind (plNodeAdd pn ·)).bind (growForest next) := by
  rw [growForest, growValue, Option.bind_assoc]
  by_cases hdate : label.isDate
  · rw [if_pos hdate, if_pos hdate, Option.bind_none]
  · rw [if_neg hdate, if_neg hdate]

/-- The machine's answer for a whole text. -/
def parseText (env : Env) (text : Bytes) : Machine :=
  (Machine.running (.top false)).run (tokens env text.length text)

/-- The tree a machine's answer grows to. -/
def Machine.tree : Machine → Option Node
  | .finished dict => growForest dict (.leaf .dict)
  | _ => none

end BareBoot.Plist
