import BareBoot.PlistScan
import BareBoot.PlistTree

/-! The functions on tags, symbols and nodes do not look at the text. Started with another text they do
the same and leave it as it is, whatever the tags are linked to. -/

namespace BareBoot.Plist

open Exec

/-- The events that say nothing about places of the text. -/
def Event.OffText : Event → Prop
  | .returned .. | .shortInteger .. => False
  | _ => True

/-- A run that neither reads nor writes the text. -/
structure OffText {α : Type} (x : ParserM α) : Prop where
  same : ∀ s b, x (s.withText b) = ⟨(x s).result, (x s).state.withText b, (x s).events⟩
  inside : ∀ s, (x s).result ≠ .error .outOfBounds
  quiet : ∀ s, ∀ e ∈ (x s).events, e.OffText

namespace OffText
variable {α β : Type}

theorem configBuffer {x : ParserM α} (h : OffText x) (s : Parser) :
    (x s).state.configBuffer = s.configBuffer := by
  have hs := h.same s s.configBuffer
  rw [Parser.withText_self rfl] at hs
  exact congrArg (fun o => o.state.configBuffer) hs

protected theorem pure (a : α) : OffText (pure a : ParserM α) :=
  ⟨fun _ _ => rfl, fun _ h => (by cases h), fun _ _ he => by cases he⟩

theorem stop {e : Fault} (he : e ≠ .outOfBounds) : OffText (Exec.stop e : ParserM α) := by
  refine ⟨fun _ _ => rfl, ?_, fun _ _ he => by cases he⟩
  intro s h
  cases h
  exact he rfl

theorem emit {e : Event} (he : e.OffText) : OffText (Exec.emit e : ParserM Unit) := by
  refine ⟨fun _ _ => rfl, fun _ h => (by cases h), ?_⟩
  intro s e' he'
  rw [List.mem_singleton.1 he']
  exact he

theorem modify {f : Parser → Parser} (hf : ∀ s b, f (s.withText b) = (f s).withText b) :
    OffText (Exec.modify f : ParserM Unit) := by
  refine ⟨?_, fun _ h => (by cases h), fun _ _ he => by cases he⟩
  intro s b
  rw [modify_apply, modify_apply, hf]

protected theorem bind {x : ParserM α} {f : α → ParserM β} (hx : OffText x) (hf : ∀ a, OffText (f a)) :
    OffText (x >>= f) := by
  have hquiet : ∀ s, ∀ e ∈ ((x >>= f) s).events, e.OffText := by
    intro s
    have h := hx.quiet s
    rw [bind_apply]
    rcases hs : x s with ⟨_ | a, t, l⟩ <;> rw [hs] at h
    · exact h
    · intro e he
      rcases List.mem_append.1 he with he | he
      · exact h e he
      · exact (hf a).quiet t e he
  refine ⟨?_, ?_, hquiet⟩
  · intro s b
    rw [bind_apply, bind_apply, hx.same]
    rcases hs : x s with ⟨_ | a, t, l⟩
    · rfl
    · simp only [(hf a).same t b]
      rfl
  · intro s
    have h := hx.inside s
    rw [bind_apply]
    rcases hs : x s with ⟨e | a, t, l⟩ <;> rw [hs] at h
    · intro he
      cases he
      exact h rfl
    · exact (hf a).inside t

protected theorem map {x : ParserM α} (f : α → β) (hx : OffText x) : OffText (f <$> x) :=
  hx.bind fun a => OffText.pure (f a)

theorem get_bind {f : Parser → ParserM α} (hsame : ∀ s b, f (s.withText b) = f s)
    (hf : ∀ s, OffText (f s)) : OffText (Exec.get >>= f) := by
  refine ⟨?_, fun s => (hf s).inside s, fun s => (hf s).quiet s⟩
  intro s b
  rw [get_bind_apply, get_bind_apply, hsame, (hf s).same]

protected theorem forM {x : α → ParserM Unit} (hx : ∀ a, OffText (x a)) (l : List α) : OffText (l.forM x) := by
  induction l with
  | nil => exact OffText.pure ()
  | cons a l ih => exact (hx a).bind fun _ => ih

end OffText

/-! ### The pool, symbols and tags -/

section Memory
variable (env : Env)

theorem offText_allocate (pool : Pool) : OffText (allocate env pool) := by
  apply OffText.get_bind (fun _ _ => rfl)
  intro s
  apply (OffText.modify fun _ _ => rfl).bind
  intro _
  by_cases h : env.alloc s.allocs = true
  · simp only [h, if_true]
    exact (OffText.emit (e := .allocated pool) trivial).bind fun _ => OffText.pure true
  · simp only [h]
    exact OffText.pure false

theorem offText_release (pool : Pool) : OffText (release pool) := OffText.emit trivial

theorem offText_liveSymbols : OffText liveSymbols := by
  apply OffText.get_bind (fun _ _ => rfl)
  intro s
  cases s.danglingSymbols
  · exact OffText.pure s.symbols
  · exact OffText.stop (by decide)

theorem offText_freeString (string : Option Bytes) : OffText (freeString string) := by
  cases string with
  | none => exact OffText.pure ()
  | some string =>
      apply offText_liveSymbols.bind
      intro symbols
      cases dropSymbol string symbols with
      | none => exact OffText.pure ()
      | some r =>
          apply (OffText.modify fun _ _ => rfl).bind
          intro _
          cases r.1
          · exact OffText.pure ()
          · exact offText_release .symbol

theorem offText_readTag (a : Nat) : OffText (readTag a) := by
  apply OffText.get_bind (fun _ _ => rfl)
  intro s
  cases s.tagAt a with
  | none => exact OffText.stop (by decide)
  | some tag => exact OffText.pure tag

theorem offText_writeTag (a : Nat) (tag : Option Tag) : OffText (writeTag a tag) :=
  OffText.modify fun _ _ => rfl

theorem offText_snapshot : OffText snapshot :=
  OffText.get_bind (fun _ _ => rfl) fun s =>
    (OffText.emit (e := .stored s.toTagStore) trivial).bind fun _ => OffText.emit trivial

theorem offText_fillTag (a : Nat) (f : Tag → Tag) : OffText (fillTag a f) :=
  (offText_readTag a).bind fun _ => (offText_writeTag a _).bind fun _ => offText_snapshot

theorem offText_linkTag (a : Nat) (next : Option Nat) : OffText (linkTag a next) :=
  (offText_readTag a).bind fun _ => (offText_writeTag a _).bind fun _ => offText_snapshot

theorem offText_newTag : OffText (plistXmlNewTag env) := by
  apply OffText.get_bind (fun _ _ => rfl)
  intro s
  cases s.tagsFree with
  | none =>
      apply (offText_allocate env .tag).bind
      intro ok
      cases ok
      · exact OffText.pure none
      · exact (OffText.modify fun _ _ => rfl).bind fun _ => OffText.pure _
  | some a =>
      exact (offText_readTag a).bind fun _ => (OffText.modify fun _ _ => rfl).bind fun _ => OffText.pure _

theorem offText_pushFree (a : Nat) : OffText (pushFree a) := by
  have hreport : OffText (reportFreed a) := by
    apply OffText.get_bind (fun _ _ => rfl)
    intro s
    by_cases h : a ∈ s.freeChain (s.tags.length + 1) s.tagsFree
    · rw [if_pos h]
      exact OffText.emit trivial
    · rw [if_neg h]
      exact OffText.pure ()
  apply hreport.bind
  intro _
  apply OffText.get_bind (fun _ _ => rfl)
  intro s
  apply (offText_readTag a).bind
  intro tag
  exact (offText_writeTag a _).bind fun _ => OffText.modify fun _ _ => rfl

theorem offText_freeTags (n : Nat) (tag : Option Nat) : OffText (freeTags n tag) := by
  induction n generalizing tag with
  | zero =>
      cases tag with
      | none => exact OffText.pure ()
      | some a => exact OffText.stop (by decide)
  | succ n ih =>
      cases tag with
      | none => exact OffText.pure ()
      | some a =>
          apply (offText_readTag a).bind
          intro tag
          apply (offText_freeString tag.string).bind
          intro _
          apply (ih tag.tag).bind
          intro _
          apply (offText_readTag a).bind
          intro tag
          exact (ih tag.tagNext).bind fun _ => offText_pushFree a

theorem offText_freeTag (tag : Option Nat) : OffText (plistXmlFreeTag tag) :=
  OffText.get_bind (fun _ _ => rfl) fun _ => (offText_freeTags _ tag).bind fun _ => offText_snapshot

theorem offText_reportUncleared (a : Nat) : OffText (reportUncleared a) := by
  apply (offText_readTag a).bind
  intro tag
  by_cases h : tag.tagNext = none
  · rw [if_pos h]
    exact OffText.pure ()
  · rw [if_neg h]
    exact OffText.emit trivial

theorem offText_releaseTags (n : Nat) (tag : Option Nat) : OffText (releaseTags n tag) := by
  induction n generalizing tag with
  | zero =>
      cases tag with
      | none => exact OffText.pure ()
      | some a => exact OffText.stop (by decide)
  | succ n ih =>
      cases tag with
      | none => exact OffText.pure ()
      | some a =>
          apply (offText_readTag a).bind
          intro tag
          exact (offText_writeTag a none).bind fun _ => (offText_release .tag).bind fun _ => ih tag.tagNext

theorem offText_cleanup : OffText plistXmlCleanup := by
  apply offText_liveSymbols.bind
  intro symbols
  apply (OffText.forM (fun _ => offText_release .symbol) symbols).bind
  intro _
  apply (OffText.modify fun _ _ => rfl).bind
  intro _
  apply OffText.get_bind (fun _ _ => rfl)
  intro s
  exact (offText_releaseTags _ s.tagsFree).bind fun _ => OffText.modify fun _ _ => rfl

/-- What `plistXmlNewSymbol` does with the string it read. -/
theorem offText_newSymbol (string : Bytes) : OffText (do
    let symbols ← liveSymbols
    match bumpSymbol string symbols with
    | some symbols =>
        Exec.modify fun s : Parser => { s with symbols := symbols }
        pure (some string)
    | none =>
        if ← allocate env .symbol then
          if env.strcpy string.length then
            Exec.modify fun s : Parser => { s with symbols := ⟨1, string⟩ :: symbols }
            pure (some string)
          else
            release .symbol
            pure none
        else pure none) := by
  apply offText_liveSymbols.bind
  intro symbols
  cases bumpSymbol string symbols with
  | some symbols => exact (OffText.modify fun _ _ => rfl).bind fun _ => OffText.pure _
  | none =>
      apply (offText_allocate env .symbol).bind
      intro ok
      cases ok
      · exact OffText.pure none
      · cases h : env.strcpy string.length
        · simp only [if_true, Bool.false_eq_true, if_false]
          exact (offText_release .symbol).bind fun _ => OffText.pure none
        · simp only [if_true]
          exact (OffText.modify fun _ _ => rfl).bind fun _ => OffText.pure _

theorem offText_readUnreadable {α : Type} : OffText (readUnreadable : ParserM α) :=
  (OffText.emit (e := .unreadable) trivial).bind fun _ => OffText.stop (by decide)

theorem offText_decodeSymbol (buffer : Nat) (string : Bytes) (count : Nat) :
    OffText (decodeSymbol env buffer string count) := by
  have hread : OffText (readSymbol env buffer string count) := by
    unfold readSymbol
    by_cases h : count ≤ (string ++ List.replicate 9 0).length
    · simp only [if_pos h]
      exact OffText.pure _
    · simp only [if_neg h]
      apply (OffText.emit (e := .behindSymbol) trivial).bind
      intro _
      cases (List.range (count - (string ++ List.replicate 9 0).length)).mapM (env.behindSymbol buffer) with
      | none => exact offText_readUnreadable
      | some behind => exact OffText.pure _
  apply hread.bind
  intro idat
  by_cases h : (123 : UInt8) ∈ idat
  · simp only [if_pos h]
    cases env.behindTable with
    | none => exact offText_readUnreadable
    | some c => exact OffText.pure _
  · simp only [if_neg h]
    exact OffText.pure _

theorem offText_plb64decode (buffer : Nat) (idat : Option Bytes) (ilen : Nat) :
    OffText (plb64decode env buffer idat ilen) := by
  cases idat with
  | none => exact OffText.pure none
  | some string =>
      unfold plb64decode
      by_cases h : ilen = 0
      · simp only [if_pos h]
        exact OffText.pure none
      · simp only [if_neg h]
        apply (offText_allocate env .datum).bind
        intro ok
        cases ok
        · exact OffText.pure none
        · by_cases hwide : ilen < 2 ^ 31
          · simp only [if_pos hwide]
            apply (offText_decodeSymbol env buffer string ilen).bind
            intro odat
            exact (OffText.emit (e := .decoded) trivial).bind fun _ => OffText.pure (some odat)
          · simp only [if_neg hwide]
            exact (OffText.emit (e := .wideData) trivial).bind fun _ => OffText.stop (by decide)

/-! ### Nodes -/

theorem offText_deleteNode (node : Option Node) : OffText (deleteNode node) :=
  OffText.forM offText_release _

theorem offText_addNode (bag : Option Node) (node : Node) : OffText (addNode env bag node) := by
  have hgrow : ∀ asiz, OffText (growMap env asiz) := by
    intro asiz
    apply (offText_allocate env .map).bind
    intro ok
    by_cases h : ok ∧ 0 < asiz
    · rw [if_pos h]
      exact (offText_release .map).bind fun _ => OffText.pure true
    · rw [if_neg h]
      exact OffText.pure ok
  unfold addNode
  cases bag.bind fun b => plNodeAdd b node with
  | none => exact OffText.pure _
  | some added =>
      simp only
      split
      · exact OffText.pure _
      · apply (hgrow _).bind
        intro ok
        cases ok <;> exact OffText.pure _

theorem offText_newNode (label : Label) : OffText (newNode env label) := by
  apply (offText_allocate env .node).bind
  intro ok
  cases ok <;> exact OffText.pure _

theorem offText_newScalar (label : Label) : OffText (newScalar env label) := by
  apply (offText_newNode env label).bind
  intro node
  cases node with
  | none => exact (OffText.emit (e := .nullNode) trivial).bind fun _ => OffText.stop (by decide)
  | some node => exact OffText.pure _

theorem offText_newDatum (label : Bytes → Label) (datum : Option Bytes) (dlen : Nat) :
    OffText (newDatum env label datum dlen) := by
  unfold newDatum
  by_cases hnone : datum = none ∧ dlen = 0
  · rw [if_pos hnone]
    exact OffText.pure none
  · rw [if_neg hnone]
    apply (offText_allocate env .node).bind
    intro ok
    cases ok
    · exact OffText.pure none
    · have hdatum : OffText (if addU32 dlen 1 = 0 then pure false else allocate env .datum : ParserM Bool) := by
        by_cases h : addU32 dlen 1 = 0
        · rw [if_pos h]
          exact OffText.pure false
        · rw [if_neg h]
          exact offText_allocate env .datum
      apply hdatum.bind
      intro ok
      cases ok
      · exact (offText_release .node).bind fun _ => OffText.pure none
      · by_cases hzero : dlen = 0
        · simp only [if_true, if_pos hzero]
          exact OffText.pure _
        · simp only [if_true, if_neg hzero]
          cases datum with
          | none => exact OffText.stop (by decide)
          | some d =>
              by_cases hle : dlen ≤ d.length
              · simp only [if_pos hle]
                exact OffText.pure _
              · simp only [if_neg hle]
                exact OffText.stop (by decide)

theorem offText_growBag {grow : Option Nat → Option Node → ParserM (Bool × Option Node)}
    (hgrow : ∀ tag pn, OffText (grow tag pn)) (ipl : Tag) (parn bagn : Option Node) :
    OffText (plGrowBag env grow ipl parn bagn) := by
  cases bagn with
  | none => exact OffText.pure _
  | some bag =>
      apply (hgrow ipl.tag (some bag)).bind
      rintro ⟨_ | _, _ | bagn⟩
      · exact (offText_deleteNode none).bind fun _ => OffText.pure _
      · exact (offText_deleteNode (some bagn)).bind fun _ => OffText.pure _
      · exact OffText.pure _
      · apply (offText_addNode env parn bagn).bind
        rintro ⟨_ | _, parn⟩
        · exact (offText_deleteNode _).bind fun _ => OffText.pure _
        · exact OffText.pure _

theorem offText_growItem {grow : Option Nat → Option Node → ParserM (Bool × Option Node)}
    (hgrow : ∀ tag pn, OffText (grow tag pn)) (ipl : Tag) (pn : Option Node) :
    OffText (growItem env grow ipl pn) := by
  have hleaf : ∀ wn, OffText (growLeaf env pn wn) := by
    rintro (_ | wn)
    · exact OffText.pure _
    · apply (offText_addNode env pn wn).bind
      rintro ⟨_ | _, pn⟩
      · exact (OffText.emit (e := .unattached _) trivial).bind fun _ => OffText.pure _
      · exact OffText.pure _
  have hbag := fun bagn => offText_growBag env hgrow ipl pn bagn
  unfold growItem
  cases ipl.type
  case none => exact OffText.pure _
  case array | dict => exact (offText_newNode env _).bind hbag
  case key => exact (offText_newDatum env _ _ _).bind hbag
  case string | data | date => exact (offText_newDatum env _ _ _).bind hleaf
  case true | false | integer => exact (offText_newScalar env _).bind hleaf

theorem offText_growTree (n : Nat) (tag : Option Nat) (pn : Option Node) : OffText (plGrowTree env n tag pn) := by
  induction n generalizing tag pn with
  | zero =>
      cases tag with
      | none => exact OffText.pure _
      | some a => exact OffText.stop (by decide)
  | succ n ih =>
      cases tag with
      | none => exact OffText.pure _
      | some a =>
          apply (offText_readTag a).bind
          intro ipl
          apply (offText_growItem env ih ipl pn).bind
          rintro ⟨_ | _, pn⟩
          · exact OffText.pure _
          · exact ih ipl.tagNext pn

theorem offText_growDict (plist : Tag) : OffText (growDict env plist) := by
  unfold growDict
  by_cases h : plist.type = .dict
  · rw [if_pos h]
    apply (offText_newNode env .dict).bind
    intro pn
    apply OffText.get_bind (fun _ _ => rfl)
    intro s
    apply (offText_growTree env _ plist.tag pn).bind
    rintro ⟨_ | _, pn⟩
    · exact (offText_deleteNode pn).bind fun _ => OffText.pure _
    · exact OffText.pure pn
  · rw [if_neg h]
    exact OffText.pure none

end Memory
end BareBoot.Plist
