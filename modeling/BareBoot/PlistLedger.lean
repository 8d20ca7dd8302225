import BareBoot.PlistRun
import BareBoot.PlistSymbols

/-! What the operations on tags and symbols owe the pool. A run allocates and releases; what it has taken
and not given back is the tags and symbols there are, what is returned to the caller, and what was lost:
buffers of decoded data, and leaves no bag took. The symbols count the tags that hold them at every step
that reports it. Both hold of a run that returns and in which no tag is reported or freed that is not its
caller's. -/

namespace BareBoot.Plist

open Exec

/-! ### Accounts -/

/-- The events of a run in which every tag that is reported or freed is its caller's. -/
def Event.Ordered : Event → Prop
  | .keptTag _ | .uncleared _ => False
  | _ => True

instance : DecidablePred Event.Ordered
  | .keptTag _ | .uncleared _ => inferInstanceAs (Decidable False)
  | .allocated _ | .released _ | .stored _ | .counted .. | .returned .. | .freedTwice _ | .shortInteger ..
  | .wideData | .behindSymbol | .unreadable | .nullNode | .decoded | .unattached _ =>
      inferInstanceAs (Decidable True)

/-- The symbols have different strings, and each counts the tags that hold it. -/
def Event.Tallied : Event → Prop
  | .counted symbols store =>
      (symbols.map Symbol.string).Nodup ∧ ∀ symbol ∈ symbols, symbol.refCount = store.strings.count symbol.string
  | _ => True

/-- How many allocations of each kind there are. -/
def countOf (pools : List Pool) (pool : Pool) : ℤ := pools.count pool

@[simp] theorem countOf_nil : countOf [] = 0 := rfl

@[simp] theorem countOf_append (l l' : List Pool) : countOf (l ++ l') = countOf l + countOf l' := by
  funext pool
  rw [Pi.add_apply, countOf, countOf, countOf, List.count_append, Nat.cast_add]

theorem countOf_cons (pool : Pool) (l : List Pool) : countOf (pool :: l) = countOf [pool] + countOf l :=
  countOf_append [pool] l

/-- What is allocated counts, what is released counts against it. -/
def Event.taken : Event → Pool → ℤ
  | .allocated pool => countOf [pool]
  | .released pool => -countOf [pool]
  | _ => 0

/-- What a step leaves to nobody. -/
def Event.lost : Event → Pool → ℤ
  | .decoded => countOf [.datum]
  | .unattached pools => countOf pools
  | _ => 0

def Event.due (e : Event) : Pool → ℤ := e.taken - e.lost

/-- The allocations the tags and the symbols are. -/
def Parser.pools (s : Parser) : Pool → ℤ :=
  s.tags.countP Option.isSome • countOf [.tag] + s.symbols.length • countOf [.symbol]

theorem Parser.pools_congr {s t : Parser} (htags : t.tags.countP Option.isSome = s.tags.countP Option.isSome)
    (hsymbols : t.symbols.length = s.symbols.length) : t.pools = s.pools := by
  rw [Parser.pools, Parser.pools, htags, hsymbols]

/-- A run that returns, its result, its state and what it owes, as long as its events are in order. -/
abbrev Tells {α : Type} (x : ParserM α) (s : Parser) (Q : α → Parser → (Pool → ℤ) → Prop) : Prop :=
  Weighs Event.Ordered Event.Tallied Event.due x s Q

/-- Nothing is owed but for the tags and symbols that were added. -/
def Squares (s t : Parser) (owed : Pool → ℤ) : Prop := owed = t.pools - s.pools

theorem Squares.refl {s t : Parser} (h : t.pools = s.pools) : Squares s t 0 := by
  rw [Squares, h, sub_self]

theorem Squares.add {s t u : Parser} {m m' : Pool → ℤ} (h : Squares s t m) (h' : Squares t u m') :
    Squares s u (m + m') := by
  rw [Squares] at h h' ⊢
  rw [h, h', add_comm, sub_add_sub_cancel]

/-- The tags make up these lists, and the symbols count the strings in them and some more. -/
structure Ledger (s : Parser) (pending : List Nat) (live : List (Cells TagBody)) (free : Cells TagBody)
    (held : List Bytes) : Prop where
  describes : Describes s.toTagStore pending live free
  current : s.danglingSymbols = false
  size : s.configBuffer.length < 2 ^ 32
  tallies : Tallies (table s.symbols) (held ++ live.flatMap strings)

theorem Ledger.kept {s t : Parser} {pending pending' : List Nat} {live live' : List (Cells TagBody)}
    {free free' : Cells TagBody} {held held' : List Bytes} (h : Ledger s pending live free held) (hkept : Kept s t)
    (hsymbols : t.symbols = s.symbols) (hd : Describes t.toTagStore pending' live' free')
    (hperm : (held ++ live.flatMap strings).Perm (held' ++ live'.flatMap strings)) :
    Ledger t pending' live' free' held' := by
  refine ⟨hd, hkept.2.trans h.current, ?_, ?_⟩
  · rw [hkept.1]
    exact h.size
  · rw [hsymbols]
    exact h.tallies.perm (List.Perm.refl _) hperm

/-! ### The pool and the text -/

section Operations
variable {env : Env}

theorem allocate_tells (pool : Pool) (s : Parser) :
    Tells (allocate env pool) s fun ok t m =>
      t = { s with allocs := s.allocs + 1 } ∧ m = if ok then countOf [pool] else 0 := by
  refine Weighs.get_bind (Weighs.modify_bind ?_)
  by_cases h : env.alloc s.allocs = true
  · rw [if_pos h]
    refine Weighs.emit_bind fun _ => ⟨trivial, Weighs.pure ⟨rfl, ?_⟩⟩
    rw [if_pos rfl, add_zero]
    exact sub_zero _
  · rw [if_neg h]
    exact Weighs.pure ⟨rfl, rfl⟩

theorem release_tells (pool : Pool) (s : Parser) :
    Tells (release pool) s fun _ t m => t = s ∧ m = -countOf [pool] :=
  Weighs.emit fun _ => ⟨trivial, rfl, sub_zero _⟩

theorem release_all_tells (pools : List Pool) (s : Parser) :
    Tells (pools.forM release) s fun _ t m => t = s ∧ m = -countOf pools := by
  induction pools with
  | nil => exact Weighs.pure ⟨rfl, neg_zero.symm⟩
  | cons pool pools ih =>
      refine Weighs.bind (release_tells pool s) ?_
      rintro _ _ _ ⟨rfl, rfl⟩
      refine ih.mono ?_
      rintro _ _ _ ⟨rfl, rfl⟩
      refine ⟨rfl, ?_⟩
      rw [countOf_cons pool pools, neg_add]

theorem scan_lt {target : UInt8} {b : Bytes} {cnt : Nat} (h : scan target b = some cnt) : cnt < b.length := by
  induction b generalizing cnt with
  | nil => cases h
  | cons c cs ih =>
      rw [scan] at h
      split at h
      · cases h
        exact Nat.succ_pos _
      · obtain ⟨n, hn, rfl⟩ := Option.map_eq_some_iff.1 h
        exact Nat.succ_lt_succ (ih hn)

theorem scanFor_tells (target : UInt8) (buffer : Nat) (s : Parser) :
    Tells (scanFor target buffer) s fun cnt t m => t = s ∧ m = 0 ∧ cnt < s.configBuffer.length := by
  refine Weighs.get_bind ?_
  rcases h : scan target (s.configBuffer.drop buffer) with _ | cnt
  · exact Weighs.stop
  · refine Weighs.pure ⟨rfl, rfl, ?_⟩
    have := scan_lt h
    rw [List.length_drop] at this
    omega

theorem readString_tells (buffer : Nat) (s : Parser) :
    Tells (readString buffer) s fun string t m => t = s ∧ m = 0 ∧ string.length < s.configBuffer.length := by
  refine Weighs.bind (scanFor_tells 0 buffer s) ?_
  rintro cnt _ _ ⟨rfl, rfl, hcnt⟩
  refine Weighs.get_bind (Weighs.pure ⟨rfl, add_zero 0, ?_⟩)
  exact lt_of_le_of_lt (List.length_take_le _ _) hcnt

/-! ### Symbols -/

variable {s : Parser} {pending : List Nat} {live : List (Cells TagBody)} {free : Cells TagBody} {held : List Bytes}

theorem plistXmlNewSymbol_tells (h : Ledger s pending live free held) (buffer : Nat) :
    Tells (plistXmlNewSymbol env buffer) s fun r t m =>
      Squares s t m ∧ t.toTagStore = s.toTagStore ∧ Ledger t pending live free (r.toList ++ held) ∧
        ∀ string, r = some string → string.length + 1 < 2 ^ 32 := by
  refine Weighs.bind (readString_tells buffer s) ?_
  rintro string s _ ⟨rfl, rfl, hlen⟩
  have hsmall : string.length + 1 < 2 ^ 32 := lt_of_le_of_lt hlen h.size
  refine Weighs.bind_eq (liveSymbols_spec h.current) ?_
  have hcases := bumpSymbol_cases string s.symbols
  rcases hb : bumpSymbol string s.symbols with _ | bumped
  · rw [hb] at hcases
    refine Weighs.bind (allocate_tells .symbol s) ?_
    rintro (_ | _) _ _ ⟨rfl, rfl⟩
    · refine Weighs.pure ⟨Squares.refl rfl, rfl, ⟨h.describes, h.current, h.size, h.tallies⟩, fun _ h => nomatch h⟩
    · rw [if_pos rfl]
      by_cases hcpy : env.strcpy string.length = true
      · rw [if_pos hcpy]
        refine Weighs.modify_bind (Weighs.pure ⟨?_, rfl, ⟨h.describes, h.current, h.size, ?_⟩, ?_⟩)
        · have hgrown : (s.symbols.length + 1) • countOf [.symbol] = s.symbols.length • countOf [.symbol] + countOf [.symbol] :=
            succ_nsmul _ _
          rw [Squares, Parser.pools, Parser.pools, List.length_cons, hgrown, if_pos rfl]
          abel
        · exact h.tallies.first hcases
        · rintro _ ⟨⟩
          exact hsmall
      · rw [if_neg hcpy]
        refine Weighs.bind (release_tells .symbol _) ?_
        rintro _ _ _ ⟨rfl, rfl⟩
        refine Weighs.pure ⟨?_, rfl, ⟨h.describes, h.current, h.size, h.tallies⟩, fun _ h => nomatch h⟩
        have hzero : (0 : Pool → ℤ) + ((if true = true then countOf [.symbol] else 0) + (-countOf [.symbol] + 0)) = 0 := by
          rw [if_pos rfl]
          abel
        rw [hzero]
        exact Squares.refl rfl
  · rw [hb] at hcases
    obtain ⟨hlength, n, rest, hold, hnew⟩ := hcases
    refine Weighs.modify_bind (Weighs.pure ⟨?_, rfl, ⟨h.describes, h.current, h.size, ?_⟩, ?_⟩)
    · rw [add_zero]
      exact Squares.refl (Parser.pools_congr rfl hlength)
    · exact ((h.tallies.perm hold (List.Perm.refl _)).again).perm hnew.symm (List.Perm.refl _)
    · rintro _ ⟨⟩
      exact hsmall

theorem freeString_tells (string : Option Bytes) (h : Ledger s pending live free (string.toList ++ held)) :
    Tells (freeString string) s fun _ t m =>
      Squares s t m ∧ t.toTagStore = s.toTagStore ∧ Ledger t pending live free held := by
  rcases string with _ | string
  · exact Weighs.pure ⟨Squares.refl rfl, rfl, h⟩
  · have hin : string ∈ (table s.symbols).map Prod.fst := (h.tallies.mem string).2 List.mem_cons_self
    have hcases := dropSymbol_cases string s.symbols
    refine Weighs.bind_eq (liveSymbols_spec h.current) ?_
    rcases hd : dropSymbol string s.symbols with _ | ⟨last, dropped⟩
    · rw [hd] at hcases
      exact absurd hin hcases
    · rw [hd] at hcases
      obtain ⟨n, rest, hold, hnew⟩ := hcases
      have htallies := h.tallies.perm hold (List.Perm.refl _)
      refine Weighs.modify_bind ?_
      cases last with
      | false =>
          obtain ⟨hlength, hn, hperm⟩ := hnew
          refine Weighs.pure ⟨Squares.refl (Parser.pools_congr rfl hlength.symm), rfl, h.describes, h.current, h.size, ?_⟩
          exact (htallies.drop hn).perm hperm.symm (List.Perm.refl _)
      | true =>
          obtain ⟨hlength, hn, hperm⟩ := hnew
          refine (release_tells .symbol _).mono ?_
          rintro _ _ _ ⟨rfl, rfl⟩
          refine ⟨?_, rfl, h.describes, h.current, h.size, ?_⟩
          · have hshrunk : (dropped.length + 1) • countOf [.symbol] = dropped.length • countOf [.symbol] + countOf [.symbol] :=
              succ_nsmul _ _
            rw [Squares, Parser.pools, Parser.pools, hlength, hshrunk]
            abel
          · exact (htallies.dropLast hn).perm hperm.symm (List.Perm.refl _)

/-! ### Tags -/

theorem readTag_tells (a : Nat) (s : Parser) :
    Tells (readTag a) s fun tag t m => t = s ∧ m = 0 ∧ s.tagAt a = some tag := by
  refine Weighs.get_bind ?_
  rcases htag : s.tagAt a with _ | tag
  · exact Weighs.stop
  · exact Weighs.pure ⟨rfl, rfl, rfl⟩

theorem reportUncleared_tells {a : Nat} {tag : Tag} (htag : s.tagAt a = some tag) :
    Tells (reportUncleared a) s fun _ t m => t = s ∧ m = 0 ∧ tag.tagNext = none := by
  refine Weighs.bind_eq (readTag_spec htag) ?_
  by_cases h : tag.tagNext = none
  · rw [if_pos h]
    exact Weighs.pure ⟨rfl, rfl, h⟩
  · rw [if_neg h]
    exact Weighs.emit fun hordered => hordered.elim

theorem countP_set {s : TagStore} {a : Nat} {tag : Tag} (h : s.tagAt a = some tag) (tag' : Tag) :
    (s.tags.set a (some tag')).countP Option.isSome = s.tags.countP Option.isSome := by
  have hlt := TagStore.lt_of_tagAt h
  have hget : s.tags[a] = some tag := by
    rw [TagStore.tagAt, List.getElem?_eq_getElem hlt] at h
    exact h
  have hpos : 0 < s.tags.countP Option.isSome :=
    List.countP_pos_iff.2 ⟨s.tags[a], List.getElem_mem hlt, by rw [hget]; rfl⟩
  rw [List.countP_set hlt, hget]
  simp only [Option.isSome_some, if_true]
  omega

/-- Taking a tag: a new one is allocated, or one of the free list is used again. -/
theorem plistXmlNewTag_pools (s : Parser) :
    Tells (plistXmlNewTag env) s fun _ t m => t.symbols = s.symbols ∧ Squares s t m := by
  refine Weighs.get_bind ?_
  rcases s.tagsFree with _ | a
  · refine Weighs.bind (allocate_tells .tag s) ?_
    rintro (_ | _) _ _ ⟨rfl, rfl⟩
    · exact Weighs.pure ⟨rfl, Squares.refl rfl⟩
    · rw [if_pos rfl]
      refine Weighs.modify_bind (Weighs.pure ⟨rfl, ?_⟩)
      have hcount : (s.tags ++ [some zeroTag]).countP Option.isSome = s.tags.countP Option.isSome + 1 := by
        rw [List.countP_append]
        rfl
      rw [Squares, Parser.pools, Parser.pools, hcount, succ_nsmul, if_pos rfl]
      abel
  · refine Weighs.bind (readTag_tells a s) ?_
    rintro tag s _ ⟨rfl, rfl, -⟩
    exact Weighs.modify_bind (Weighs.pure ⟨rfl, Squares.refl rfl⟩)

theorem plistXmlNewTag_tells (h : Ledger s [] live free held) :
    Tells (plistXmlNewTag env) s fun r t m =>
      Squares s t m ∧
        match r with
        | none => Ledger t [] live free held
        | some a => ∃ tag free', t.tagAt a = some tag ∧ tag.type = .none ∧ tag.tag = none ∧
            tag.string = none ∧ tag.dataLen = 0 ∧ Ledger t [a] live free' held := by
  refine ((plistXmlNewTag_pools s).and_under (plistXmlNewTag_spec h.describes)).mono ?_
  rintro (_ | a) t m ⟨⟨hkept, hnew⟩, hsymbols, hsquares⟩
  · refine ⟨hsquares, h.kept hkept hsymbols ?_ (List.Perm.refl _)⟩
    rw [hnew.2]
    exact h.describes
  · obtain ⟨tag, free', hat, htype, hsub, hstring, hlen, hd⟩ := hnew
    exact ⟨hsquares, tag, free', hat, htype, hsub, hstring, hlen, h.kept hkept hsymbols hd (List.Perm.refl _)⟩

theorem snapshot_tells (h : Ledger s [] live free []) : Tells snapshot s fun _ t m => t = s ∧ m = 0 := by
  have htallied : Event.Tallied (.counted s.symbols s.toTagStore) := by
    have hall := h.tallies.perm (List.Perm.refl _) h.describes.strings_perm.symm
    refine ⟨?_, fun symbol hsymbol => ?_⟩
    · have hdistinct := hall.distinct
      rw [table, List.map_map] at hdistinct
      exact hdistinct
    · exact hall.counted (symbol.string, symbol.refCount) (List.mem_map_of_mem hsymbol)
  refine Weighs.get_bind (Weighs.emit_bind fun _ => ⟨trivial, Weighs.emit fun _ => ⟨htallied, rfl, ?_⟩⟩)
  show (0 - 0 : Pool → ℤ) + (0 - 0) = 0
  abel

/-- A tag is written, and the store reported. -/
theorem written_tells {a : Nat} {tag tag' : Tag} {x : ParserM Unit} {live' : List (Cells TagBody)} {free' : Cells TagBody}
    (h : Ledger s pending live free held) (htag : s.tagAt a = some tag)
    (hx : x s = snapshot { s with tags := s.tags.set a (some tag') })
    (hspec : Runs False x s fun _ t => Kept s t ∧ Describes t.toTagStore [] live' free')
    (hperm : (held ++ live.flatMap strings).Perm (live'.flatMap strings)) :
    Tells x s fun _ t m => Squares s t m ∧ Ledger t [] live' free' [] := by
  set u : Parser := { s with tags := s.tags.set a (some tag') } with hu
  have hledger : Ledger u [] live' free' [] := by
    rcases hspec with ⟨-, hq⟩ | ⟨-, hfalse⟩
    · rw [hx] at hq
      obtain ⟨hkept, hdesc⟩ : Kept s u ∧ Describes u.toTagStore [] live' free' := hq
      exact h.kept hkept rfl hdesc hperm
    · exact hfalse.elim
  have hsquares : Squares s u 0 := Squares.refl (Parser.pools_congr (countP_set htag tag') rfl)
  intro r hr hordered
  rw [hx] at hr hordered ⊢
  obtain ⟨htallied, hstate, hsum⟩ := snapshot_tells hledger r hr hordered
  rw [hstate, hsum]
  exact ⟨htallied, hsquares, hledger⟩

/-- A tag taken for an element is filled in over the list it is to hold, with the symbol it refers to. -/
theorem fillTag_tells {a : Nat} {tag : Tag} {f : Tag → Tag} {sub : Cells TagBody}
    (h : Ledger s [a] (sub :: live) free (f tag).string.toList) (htag : s.tagAt a = some tag)
    (hsub : (f tag).tag = Cells.head sub) (hnext : (f tag).tagNext = none) (hsane : (f tag).toTagBody.Sane) :
    Tells (fillTag a f) s fun _ t m =>
      Squares s t m ∧ Ledger t [] (.cons (a, (f tag).toTagBody) sub .nil :: live) free [] := by
  have hx : fillTag a f s = snapshot { s with tags := s.tags.set a (some (f tag)) } := by
    rw [fillTag, bind_of_ok (readTag_spec htag), Outcome.after_nil]
    rfl
  refine written_tells h htag hx (fillTag_spec h.describes htag hsub hnext hsane) (List.Perm.of_eq ?_)
  rw [List.flatMap_cons, List.flatMap_cons, strings_cons]
  simp only [strings, Forest.labels, List.filterMap_nil, List.append_nil, List.append_assoc]

theorem linkTag_same_tells {a : Nat} {tag : Tag} (h : Ledger s [] live free []) (htag : s.tagAt a = some tag)
    (hnext : tag.tagNext = none) :
    Tells (linkTag a none) s fun _ t m => Squares s t m ∧ Ledger t [] live free [] := by
  have hx : linkTag a none s = snapshot { s with tags := s.tags.set a (some { tag with tagNext := none }) } := by
    rw [linkTag, bind_of_ok (readTag_spec htag), Outcome.after_nil]
    rfl
  exact written_tells h htag hx (linkTag_same_spec h.describes htag hnext) (List.Perm.refl _)

theorem linkTag_tells {a : Nat} {f g : Cells TagBody} (h : Ledger s [] (f :: g :: live) free [])
    (hlast : Cells.last f = some a) :
    Tells (linkTag a (Cells.head g)) s fun _ t m => Squares s t m ∧ Ledger t [] ((f ++ g) :: live) free [] := by
  obtain ⟨b, sub, hcell⟩ := (h.describes.partition.linked f (by simp)).last_next hlast
  have htag := TagStore.tagAt_of_cellAt hcell
  have hx : linkTag a (Cells.head g) s =
      snapshot { s with tags := s.tags.set a (some ⟨b, sub, Cells.head g⟩) } := by
    rw [linkTag, bind_of_ok (readTag_spec htag), Outcome.after_nil]
    rfl
  refine written_tells h htag hx (linkTag_spec h.describes hlast) (List.Perm.of_eq ?_)
  rw [List.flatMap_cons, List.flatMap_cons, List.flatMap_cons, strings_append, List.append_assoc]
  rfl

/-! ### Freeing -/

/-- Freeing a tag changes neither the symbols nor how many tags there are. -/
theorem pushFree_pools (a : Nat) (s : Parser) :
    Tells (pushFree a) s fun _ t m => t.symbols = s.symbols ∧ Squares s t m := by
  have hreport : Tells (reportFreed a) s fun _ t m => t = s ∧ m = 0 := by
    refine Weighs.get_bind ?_
    by_cases h : a ∈ s.freeChain (s.tags.length + 1) s.tagsFree
    · rw [if_pos h]
      exact Weighs.emit fun _ => ⟨trivial, rfl, sub_zero _⟩
    · rw [if_neg h]
      exact Weighs.pure ⟨rfl, rfl⟩
  refine Weighs.bind hreport ?_
  rintro _ s _ ⟨rfl, rfl⟩
  refine Weighs.get_bind (Weighs.bind (readTag_tells a s) ?_)
  rintro tag s _ ⟨rfl, rfl, htag⟩
  refine Weighs.modify_bind (Weighs.modify ⟨rfl, ?_⟩)
  rw [add_zero, add_zero]
  exact Squares.refl (Parser.pools_congr (countP_set htag _) rfl)

/-- Freeing a list gives back its strings. -/
theorem freeTags_tells (n : Nat) {f : Cells TagBody}
    (h : Ledger s pending (f :: live) free held) (hn : (Cells.addresses f).length ≤ n) :
    Tells (freeTags n (Cells.head f)) s fun _ t m =>
      Squares s t m ∧ (∀ x ∈ pending, t.tagAt x = s.tagAt x) ∧ ∃ free', Ledger t pending live free' held := by
  have hnil : ∀ {n : Nat} {s : Parser} {pending : List Nat} {live : List (Cells TagBody)} {free : Cells TagBody}
      {held : List Bytes}, Ledger s pending (.nil :: live) free held → Tells (freeTags n none) s fun _ t m =>
        Squares s t m ∧ (∀ x ∈ pending, t.tagAt x = s.tagAt x) ∧ ∃ free', Ledger t pending live free' held := by
    intro n s pending live free held h
    have hpure : freeTags n none = pure () := by cases n <;> rfl
    rw [hpure]
    exact Weighs.pure ⟨Squares.refl rfl, fun _ _ => rfl, free,
      h.kept (Kept.refl s) rfl (Describes.cons_nil.1 h.describes) (List.Perm.refl _)⟩
  induction n generalizing s f pending live free held with
  | zero =>
      cases f with
      | nil => exact hnil h
      | cons c sub next => simp at hn
  | succ n ih =>
      cases f with
      | nil => exact hnil h
      | cons c sub next =>
          obtain ⟨a, b⟩ := c
          have htag := TagStore.tagAt_of_cellAt (h.describes.partition.perm (List.Perm.swap _ _ _)).cell_head
          simp only [Cells.addresses_cons, List.length_cons, List.length_append] at hn
          have hperm : (held ++ (.cons (a, b) sub next :: live).flatMap strings).Perm
              ((b.string.toList ++ held) ++ (sub :: next :: live).flatMap strings) := by
            rw [List.flatMap_cons, List.flatMap_cons, List.flatMap_cons, strings_cons]
            simp only [List.append_assoc]
            exact List.perm_append_comm_assoc _ _ _
          have hsplit := h.kept (Kept.refl s) rfl h.describes.split hperm
          refine Weighs.bind_eq (readTag_spec htag) (Weighs.bind (freeString_tells b.string hsplit) ?_)
          rintro _ t m ⟨hm, hstore, ht⟩
          rw [← hstore] at htag
          refine Weighs.bind (ih ht (by omega)) ?_
          rintro _ u m' ⟨hm', hsame, free', hu⟩
          rw [← hsame a List.mem_cons_self] at htag
          refine Weighs.bind_eq (readTag_spec htag) (Weighs.bind (ih hu (by omega)) ?_)
          rintro _ v m'' ⟨hm'', hsame', free'', hv⟩
          rw [← hsame' a List.mem_cons_self] at htag
          refine ((pushFree_pools a v).and_under (pushFree_spec hv.describes htag)).mono ?_
          rintro _ w m₃ ⟨⟨hkept, -, hother, free₃, hw⟩, hsymbols, hm₃⟩
          refine ⟨hm.add (hm'.add (hm''.add hm₃)), ?_, free₃, hv.kept hkept hsymbols hw (List.Perm.refl _)⟩
          intro x hx
          have hxa : x ≠ a := by
            rintro rfl
            have hnodup := hsplit.describes.partition.nodup
            rw [owned, List.cons_append, List.nodup_cons] at hnodup
            exact hnodup.1 (List.mem_append_left _ hx)
          rw [hother x hxa, hsame' x (List.mem_cons_of_mem _ hx), hsame x (List.mem_cons_of_mem _ hx), hstore]

theorem plistXmlFreeTag_tells {f : Cells TagBody} (h : Ledger s [] (f :: live) free []) :
    Tells (plistXmlFreeTag (Cells.head f)) s fun _ t m => Squares s t m ∧ ∃ free', Ledger t [] live free' [] := by
  have hn := h.describes.length_addresses_le (f := f) (by simp)
  refine Weighs.get_bind (Weighs.bind (freeTags_tells _ h (by omega)) ?_)
  rintro _ t m ⟨hm, -, free', ht⟩
  refine (snapshot_tells ht).mono ?_
  rintro _ t _ ⟨rfl, rfl⟩
  rw [add_zero]
  exact ⟨hm, free', ht⟩

/-! ### The cleanup -/

/-- A parser that has given back everything, as it is between two calls. -/
structure Parser.Rested (s : Parser) : Prop extends s.Idle where
  symbols : s.symbols = []

theorem initialParser_rested : initialParser.Rested := ⟨initialParser_idle, rfl⟩

theorem countP_set_none {s : TagStore} {a : Nat} {tag : Tag} (h : s.tagAt a = some tag) :
    s.tags.countP Option.isSome = (s.tags.set a none).countP Option.isSome + 1 := by
  have hlt := TagStore.lt_of_tagAt h
  have hget : s.tags[a] = some tag := by
    rw [TagStore.tagAt, List.getElem?_eq_getElem hlt] at h
    exact h
  have hpos : 0 < s.tags.countP Option.isSome :=
    List.countP_pos_iff.2 ⟨s.tags[a], List.getElem_mem hlt, by rw [hget]; rfl⟩
  rw [List.countP_set hlt, hget]
  simp only [Option.isSome_some, if_true, Option.isSome_none]
  simp
  omega

/-- The tags of a list are given back, and no other. -/
theorem releaseTags_tells (n : Nat) {f : Cells TagBody} (hflat : Flat f) (hlinked : Linked s.cellAt f)
    (hnodup : (Cells.addresses f).Nodup) :
    Tells (releaseTags n (Cells.head f)) s fun _ t m =>
      Kept s t ∧ t.symbols = s.symbols ∧ Squares s t m ∧
        ∀ x, t.tagAt x = if x ∈ Cells.addresses f then none else s.tagAt x := by
  induction n generalizing f s with
  | zero =>
      cases f with
      | nil => exact Weighs.pure ⟨Kept.refl s, rfl, Squares.refl rfl, fun x => (if_neg List.not_mem_nil).symm⟩
      | cons c sub next => exact Weighs.stop
  | succ n ih =>
      cases f with
      | nil => exact Weighs.pure ⟨Kept.refl s, rfl, Squares.refl rfl, fun x => (if_neg List.not_mem_nil).symm⟩
      | cons c sub next =>
          obtain ⟨a, b⟩ := c
          obtain ⟨rfl, -, -, -, hflat⟩ := hflat
          obtain ⟨hcell, -, hnext⟩ := hlinked
          rw [Cells.addresses_cons, Cells.addresses_nil, List.nil_append, List.nodup_cons] at hnodup
          have htag := TagStore.tagAt_of_cellAt hcell
          set u : Parser := { s with tags := s.tags.set a none } with hu
          have hat : ∀ x, u.tagAt x = if x = a then none else s.tagAt x := TagStore.tagAt_set htag none
          have hnext' : Linked u.cellAt next := by
            refine hnext.congr fun x hx => ?_
            have hxa : x ≠ a := by
              rintro rfl
              exact hnodup.1 hx
            rw [TagStore.cellAt, TagStore.cellAt, hat, if_neg hxa]
          have hsquares : Squares s u (-countOf [.tag]) := by
            rw [Squares, Parser.pools, Parser.pools, countP_set_none htag, succ_nsmul]
            abel
          refine Weighs.bind_eq (readTag_spec htag) (Weighs.modify_bind (Weighs.bind (release_tells .tag u) ?_))
          rintro _ v _ ⟨rfl, rfl⟩
          refine (ih hflat hnext' hnodup.2).mono ?_
          rintro _ t m ⟨hkept, hsymbols, hm, hsame⟩
          refine ⟨hkept, hsymbols, hsquares.add hm, fun x => ?_⟩
          rw [hsame, hat, Cells.addresses_cons, Cells.addresses_nil, List.nil_append]
          by_cases hxa : x = a
          · rw [if_pos hxa, ite_self, if_pos (by rw [hxa]; exact List.mem_cons_self)]
          · have hiff : x ∈ a :: Cells.addresses next ↔ x ∈ Cells.addresses next := by
              rw [List.mem_cons, or_iff_right hxa]
            rw [if_neg hxa]
            simp only [hiff]

/-- The cleanup after every tag was freed gives back everything. -/
theorem plistXmlCleanup_tells (hcurrent : s.danglingSymbols = false) (hd : Describes s.toTagStore [] [] free)
    (hsymbols : s.symbols = []) :
    Tells plistXmlCleanup s fun _ t m => Squares s t m ∧ t.Rested := by
  refine Weighs.bind_eq (liveSymbols_spec hcurrent) ?_
  rw [hsymbols]
  refine Weighs.bind_eq (pure_apply PUnit.unit s) (Weighs.modify_bind (Weighs.get_bind ?_))
  have hlinked := hd.partition.linked free List.mem_cons_self
  have hnodup := hd.partition.nodup_list (f := free) List.mem_cons_self
  have hempty : (!s.symbols.isEmpty) = false := by rw [hsymbols]; rfl
  show Tells (releaseTags _ s.tagsFree >>= _) { s with danglingSymbols := !s.symbols.isEmpty } _
  rw [hd.head, hempty]
  refine Weighs.bind (releaseTags_tells _ hd.flat hlinked hnodup) ?_
  rintro _ t m ⟨hkept, hsame, hm, hat⟩
  refine Weighs.modify ⟨?_, ⟨?_, rfl, hkept.2⟩, hsame.trans hsymbols⟩
  · rw [add_zero]
    exact hm
  · intro a
    show t.tagAt a = none
    rw [hat]
    by_cases ha : a ∈ Cells.addresses free
    · rw [if_pos ha]
    · rw [if_neg ha]
      have hcover := hd.partition.cover a
      rw [TagStore.cellAt_isSome, owned, List.nil_append, List.flatMap_cons, List.flatMap_nil, List.append_nil] at hcover
      exact Option.not_isSome_iff_eq_none.1 fun hsome => ha (hcover.1 hsome)

end Operations
end BareBoot.Plist
