import BareBoot.LinkedForest
import BareBoot.PlistTree

/-! The tag store of a run: what it means that the store is sound, and how the operations on tags and
symbols change a store that is partitioned into the lists under construction and the free list. -/

namespace BareBoot.Plist

open Exec

/-! ### Sound stores and sound runs -/

def TagStore.cellAt (s : TagStore) (a : Nat) : Option (Cell TagBody) :=
  (s.tagAt a).map fun t => ⟨t.toTagBody, t.tag, t.tagNext⟩

/-- No tag is linked twice, none from itself, and the head of the free list from nowhere. -/
def TagStore.Sound (s : TagStore) : Prop :=
  LinksSound s.cellAt ∧ ∀ a, s.tagsFree = some a → ∀ p, linkAt s.cellAt p ≠ some a

/-- No tag is both on the free list and below the given one. -/
def TagStore.Apart (s : TagStore) (tag : Option Nat) : Prop :=
  ∀ a f x, tag = some a → s.tagsFree = some f → Relation.ReflTransGen (Links s.cellAt) a x →
    ¬Relation.ReflTransGen (Links s.cellAt) f x

/-- The events of a run in which no step goes wrong. -/
def Event.Granted : Event → Prop
  | .keptTag _ => False
  | .shortInteger length left => 0 < addU32 length length ∧ addU32 length length ≤ length + left
  | .uncleared _ => False
  | .wideData => False
  | .unreadable => False
  | .nullNode => False
  | _ => True

instance : DecidablePred Event.Granted
  | .keptTag _ | .uncleared _ | .wideData | .unreadable | .nullNode => inferInstanceAs (Decidable False)
  | .shortInteger length left =>
      inferInstanceAs (Decidable (0 < addU32 length length ∧ addU32 length length ≤ length + left))
  | .allocated _ | .released _ | .stored _ | .counted .. | .returned .. | .freedTwice _ | .behindSymbol
  | .decoded | .unattached _ => inferInstanceAs (Decidable True)

/-- What the events of a sound run say. -/
def Event.Sound : Event → Prop
  | .stored store => store.Sound
  | .returned left length tag store => 0 < length ∧ length ≤ left ∧ store.Sound ∧ store.Apart tag
  | .freedTwice _ => False
  | _ => True

/-- Every allocation succeeds and every text is copied. -/
def Env.Ample (env : Env) : Prop := (∀ n, env.alloc n = true) ∧ ∀ n, env.strcpy n = true

/-- The run is not stopped and stays sound, or an event that is not granted is to blame. -/
abbrev Runs {α : Type} (blame : Prop) (x : ParserM α) (s : Parser) (Q : α → Parser → Prop) : Prop :=
  Under Event.Granted Event.Sound (fun _ => False) blame x s Q

/-- What operations on tags and symbols leave as it is. -/
def Kept (s t : Parser) : Prop :=
  t.configBuffer = s.configBuffer ∧ t.danglingSymbols = s.danglingSymbols

theorem Kept.refl (s : Parser) : Kept s s := ⟨rfl, rfl⟩

theorem Kept.trans {s t u : Parser} (h : Kept s t) (h' : Kept t u) : Kept s u :=
  ⟨h'.1.trans h.1, h'.2.trans h.2⟩

/-! ### Partitioned stores -/

/-- A list of cleared tags. -/
def Flat : Cells TagBody → Prop
  | .nil => True
  | .cons c sub next =>
      sub = .nil ∧ c.2.type = .none ∧ c.2.string = none ∧ c.2.dataLen = 0 ∧ Flat next

/-- What `dataLen` counts is there; a tag that is not filled in counts nothing. -/
structure TagBody.Sane (b : TagBody) : Prop where
  string : b.type = .key ∨ b.type = .string → ∃ d, b.string = some d ∧ b.dataLen = d.length
  data : b.type = .data → (b.data = none ∧ b.dataLen = 0) ∨ ∃ d, b.data = some d ∧ b.dataLen = d.length
  date : b.type = .date → b.string = none ∧ b.dataLen = 0
  small : b.dataLen + 1 < 2 ^ 32

/-- The store holds these lists, this free list, and some tags that are in none of them. -/
structure Describes (s : TagStore) (pending : List Nat) (live : List (Cells TagBody)) (free : Cells TagBody) :
    Prop where
  partition : Partition s.cellAt pending (free :: live)
  head : s.tagsFree = Cells.head free
  flat : Flat free
  sane : ∀ f ∈ live, ∀ c ∈ f.labels, c.2.Sane

section Describes
variable {s : TagStore} {pending : List Nat} {live : List (Cells TagBody)} {free : Cells TagBody}

theorem TagStore.cellAt_of_tagAt {a : Nat} {t : Tag} (h : s.tagAt a = some t) :
    s.cellAt a = some ⟨t.toTagBody, t.tag, t.tagNext⟩ := by
  rw [TagStore.cellAt, h]
  rfl

theorem TagStore.tagAt_of_cellAt {a : Nat} {b : TagBody} {sub next : Option Nat}
    (h : s.cellAt a = some ⟨b, sub, next⟩) : s.tagAt a = some ⟨b, sub, next⟩ := by
  rw [TagStore.cellAt, Option.map_eq_some_iff] at h
  obtain ⟨t, ht, heq⟩ := h
  cases heq
  exact ht

theorem TagStore.cellAt_isSome {a : Nat} : (s.cellAt a).isSome = (s.tagAt a).isSome := by
  rw [TagStore.cellAt, Option.isSome_map]

theorem TagStore.lt_of_tagAt {a : Nat} {t : Tag} (h : s.tagAt a = some t) : a < s.tags.length := by
  rw [TagStore.tagAt] at h
  by_contra hge
  rw [List.getElem?_eq_none (by omega)] at h
  cases h

/-- Setting a tag that is there. -/
theorem TagStore.tagAt_set {a : Nat} {t : Tag} (h : s.tagAt a = some t) (t' : Option Tag) (x : Nat) :
    ({ s with tags := s.tags.set a t' } : TagStore).tagAt x = if x = a then t' else s.tagAt x := by
  have hlt := TagStore.lt_of_tagAt h
  simp only [TagStore.tagAt, List.getElem?_set]
  by_cases hx : a = x
  · subst hx
    simp [hlt]
  · rw [if_neg hx, if_neg fun h => hx h.symm]

/-- Adding a tag behind the last one. -/
theorem TagStore.tagAt_push (s : TagStore) (t : Option Tag) (free : Option Nat) (x : Nat) :
    (⟨s.tags ++ [t], free⟩ : TagStore).tagAt x = if x = s.tags.length then t else s.tagAt x := by
  simp only [TagStore.tagAt, List.getElem?_append]
  by_cases hlt : x < s.tags.length
  · rw [if_pos hlt, if_neg (by omega)]
  · rw [if_neg hlt]
    by_cases hx : x = s.tags.length
    · simp [hx]
    · rw [if_neg hx, List.getElem?_eq_none (by simp; omega), List.getElem?_eq_none (by omega)]

theorem Describes.perm {live' : List (Cells TagBody)} (h : Describes s pending live free)
    (hperm : live.Perm live') : Describes s pending live' free :=
  ⟨h.partition.perm (hperm.cons _), h.head, h.flat, fun f hf => h.sane f (hperm.mem_iff.2 hf)⟩

@[simp] theorem Describes.cons_nil :
    Describes s pending (.nil :: live) free ↔ Describes s pending live free := by
  constructor
  · intro h
    exact ⟨Partition.cons_nil.1 (h.partition.perm (List.Perm.swap _ _ _)), h.head, h.flat,
      fun f hf => h.sane f (List.mem_cons_of_mem _ hf)⟩
  · intro h
    refine ⟨(Partition.cons_nil.2 h.partition).perm (List.Perm.swap _ _ _), h.head, h.flat, ?_⟩
    intro f hf
    rcases List.mem_cons.1 hf with rfl | hf
    · simp [Forest.labels]
    · exact h.sane f hf

theorem Describes.sound (h : Describes s [] live free) : s.Sound := by
  refine ⟨h.partition.linksSound, ?_⟩
  intro a ha p
  rw [h.head] at ha
  exact h.partition.head_unlinked List.mem_cons_self ha p

theorem Describes.apart {f : Cells TagBody} (h : Describes s [] live free) (hf : f ∈ live) :
    s.Apart (Cells.head f) := by
  intro a b x ha hb hax hbx
  rw [h.head] at hb
  have hmem : f ∈ free :: live := List.mem_cons_of_mem _ hf
  have hxf := (h.partition.linked f hmem).reach_mem (h.partition.nodup_list hmem) (Cells.mem_of_head ha) hax
  have hxfree := (h.partition.linked free List.mem_cons_self).reach_mem
    (h.partition.nodup_list List.mem_cons_self) (Cells.mem_of_head hb) hbx
  have hnodup := h.partition.nodup
  rw [owned, List.nil_append, List.flatMap_cons] at hnodup
  exact (List.disjoint_of_nodup_append hnodup) hxfree (List.mem_flatMap.2 ⟨f, hf, hxf⟩)

theorem TagStore.apart_none : s.Apart none := by
  intro a f x ha
  cases ha

/-- The walk along the free list meets its addresses only. -/
theorem Describes.freeChain_subset (h : Describes s pending live free) (n : Nat) :
    ∀ a ∈ s.freeChain n s.tagsFree, a ∈ Cells.addresses free := by
  rw [h.head]
  have hlinked := h.partition.linked free List.mem_cons_self
  clear h
  induction n generalizing free with
  | zero => simp [TagStore.freeChain]
  | succ n ih =>
      cases free with
      | nil => simp [TagStore.freeChain, Cells.head]
      | cons c sub next =>
          obtain ⟨hc, -, hn⟩ := hlinked
          have htag := TagStore.tagAt_of_cellAt hc
          intro a ha
          simp only [TagStore.freeChain, Cells.head, htag, Option.bind_some, List.mem_cons] at ha
          simp only [Cells.addresses_cons, List.mem_cons, List.mem_append]
          rcases ha with ha | ha
          · exact Or.inl ha
          · exact Or.inr (Or.inr (ih hn a ha))

/-- The tags of each list fit into the store. -/
theorem Describes.length_addresses_le {f : Cells TagBody} (h : Describes s pending live free)
    (hf : f ∈ free :: live) : (Cells.addresses f).length ≤ s.tags.length := by
  have hsub : Cells.addresses f ⊆ List.range s.tags.length := by
    intro a ha
    have hsome := (h.partition.linked f hf).isSome ha
    rw [TagStore.cellAt_isSome, Option.isSome_iff_exists] at hsome
    obtain ⟨t, ht⟩ := hsome
    exact List.mem_range.2 (TagStore.lt_of_tagAt ht)
  have := (List.subperm_of_subset (h.partition.nodup_list hf) hsub).length_le
  rwa [List.length_range] at this

/-- A tag in no list becomes the one tree over the list it links. -/
theorem Describes.settle {a : Nat} {b : TagBody} {sub : Cells TagBody} (h : Describes s [a] (sub :: live) free)
    (hcell : s.cellAt a = some ⟨b, Cells.head sub, none⟩) (hb : b.Sane) :
    Describes s [] (.cons (a, b) sub .nil :: live) free := by
  refine ⟨((h.partition.perm (List.Perm.swap _ _ _)).settle hcell).perm (List.Perm.swap _ _ _), h.head, h.flat, ?_⟩
  intro f hf c hc
  rcases List.mem_cons.1 hf with rfl | hf
  · simp only [Forest.labels, List.append_nil, List.mem_cons] at hc
    rcases hc with rfl | hc
    · exact hb
    · exact h.sane sub List.mem_cons_self c hc
  · exact h.sane f (List.mem_cons_of_mem _ hf) c hc

theorem sub_next_free (sub next free : Cells TagBody) (live : List (Cells TagBody)) :
    (sub :: next :: free :: live).Perm (free :: sub :: next :: live) :=
  ((List.Perm.swap free next live).cons sub).trans (List.Perm.swap free sub (next :: live))

/-- The first tag of a list is taken out; its children and its siblings are lists of their own. -/
theorem Describes.split {a : Nat} {b : TagBody} {sub next : Cells TagBody}
    (h : Describes s pending (.cons (a, b) sub next :: live) free) :
    Describes s (a :: pending) (sub :: next :: live) free := by
  have hsplit := (h.partition.perm (List.Perm.swap _ _ _)).split
  refine ⟨hsplit.perm (sub_next_free sub next free live), h.head, h.flat, ?_⟩
  have hsane := h.sane _ List.mem_cons_self
  simp only [Forest.labels, List.mem_cons, List.mem_append] at hsane
  intro f hf c hc
  rcases List.mem_cons.1 hf with rfl | hf
  · exact hsane c (by simp [hc])
  · rcases List.mem_cons.1 hf with rfl | hf
    · exact hsane c (by simp [hc])
    · exact h.sane f (by simp [hf]) c hc

theorem TagBody.sane_of_none {b : TagBody} (h : b.type = .none) (hlen : b.dataLen = 0) : b.Sane := by
  constructor <;> simp [h, hlen]

/-- A tag that is not filled in and links nothing is a list of its own. -/
theorem Describes.single {a : Nat} {tag : Tag} (h : Describes s [a] live free) (htag : s.tagAt a = some tag)
    (htype : tag.type = .none) (hlen : tag.dataLen = 0) (hsub : tag.tag = none) (hnext : tag.tagNext = none) :
    Describes s [] (.cons (a, tag.toTagBody) .nil .nil :: live) free := by
  refine (Describes.cons_nil.2 h).settle ?_ (TagBody.sane_of_none htype hlen)
  rw [TagStore.cellAt_of_tagAt htag, hsub, hnext]
  rfl

end Describes

/-! ### The pool and the symbols -/

section Operations
variable {blame : Prop} {env : Env}

theorem allocate_spec (pool : Pool) (s : Parser) :
    Runs blame (allocate env pool) s fun ok t =>
      (ok = false → ¬env.Ample) ∧ Kept s t ∧ t.toTagStore = s.toTagStore := by
  refine Under.get_bind (Under.modify_bind ?_)
  by_cases h : env.alloc s.allocs = true
  · rw [if_pos h]
    refine Under.emit_bind (fun _ => ⟨trivial, Under.pure ⟨?_, ⟨rfl, rfl⟩, rfl⟩⟩) fun h => absurd trivial h
    exact fun h => by cases h
  · rw [if_neg h]
    exact Under.pure ⟨fun _ hample => h (hample.1 _), ⟨rfl, rfl⟩, rfl⟩

theorem release_spec (pool : Pool) (s : Parser) :
    Runs blame (release pool) s fun _ t => t = s :=
  Under.emit (fun _ => ⟨trivial, rfl⟩) fun h => absurd trivial h

theorem liveSymbols_spec {s : Parser} (hs : s.danglingSymbols = false) :
    liveSymbols s = ⟨.ok s.symbols, s, []⟩ := by
  simp [liveSymbols, hs]

theorem plistXmlNewSymbol_spec {s : Parser} {buffer : Nat} {string : Bytes}
    (hs : readString buffer s = ⟨.ok string, s, []⟩) (hlive : s.danglingSymbols = false) :
    Runs blame (plistXmlNewSymbol env buffer) s fun r t =>
      Kept s t ∧ t.toTagStore = s.toTagStore ∧
        match r with
        | none => ¬env.Ample
        | some w => w = string := by
  refine Under.bind_eq hs (Under.bind_eq (liveSymbols_spec hlive) ?_)
  rcases bumpSymbol string s.symbols with _ | symbols
  · refine Under.bind (allocate_spec .symbol s) ?_
    rintro (_ | _) t ⟨hok, hkept, hstore⟩
    · exact Under.pure ⟨hkept, hstore, hok rfl⟩
    · rw [if_pos rfl]
      by_cases hcpy : env.strcpy string.length = true
      · rw [if_pos hcpy]
        exact Under.modify_bind (Under.pure ⟨hkept, hstore, rfl⟩)
      · rw [if_neg hcpy]
        refine Under.bind (release_spec .symbol t) ?_
        rintro _ _ rfl
        exact Under.pure ⟨hkept, hstore, fun hample => hcpy (hample.2 _)⟩
  · exact Under.modify_bind (Under.pure ⟨Kept.refl s, rfl, rfl⟩)

theorem plistXmlFreeSymbol_spec {s : Parser} (string : Bytes) (hlive : s.danglingSymbols = false) :
    Runs blame (plistXmlFreeSymbol string) s fun _ t => Kept s t ∧ t.toTagStore = s.toTagStore := by
  refine Under.bind_eq (liveSymbols_spec hlive) ?_
  rcases dropSymbol string s.symbols with _ | ⟨last, symbols⟩
  · exact Under.pure ⟨Kept.refl s, rfl⟩
  · refine Under.modify_bind ?_
    cases last
    · exact Under.pure ⟨Kept.refl s, rfl⟩
    · refine (release_spec .symbol _).mono id ?_
      rintro _ _ rfl
      exact ⟨Kept.refl s, rfl⟩

theorem freeString_spec {s : Parser} (string : Option Bytes) (hlive : s.danglingSymbols = false) :
    Runs blame (freeString string) s fun _ t => Kept s t ∧ t.toTagStore = s.toTagStore := by
  cases string with
  | none => exact Under.pure ⟨Kept.refl s, rfl⟩
  | some string => exact plistXmlFreeSymbol_spec string hlive

/-! ### Tags -/

theorem readTag_spec {s : Parser} {a : Nat} {t : Tag} (h : s.tagAt a = some t) :
    readTag a s = ⟨.ok t, s, []⟩ := by
  simp [readTag, h]

theorem snapshot_spec {s : Parser} (h : s.toTagStore.Sound) :
    Runs blame snapshot s fun _ t => t = s :=
  Under.get_bind (Under.emit_bind (fun _ => ⟨h, Under.emit (fun _ => ⟨trivial, rfl⟩) fun hg => absurd trivial hg⟩)
    fun hg => absurd trivial hg)

/-- A tag is taken: a new one, or the first of the free list with its old links. -/
theorem plistXmlNewTag_spec {s : Parser} {live : List (Cells TagBody)} {free : Cells TagBody}
    (h : Describes s.toTagStore [] live free) :
    Runs blame (plistXmlNewTag env) s fun r t =>
      Kept s t ∧
        match r with
        | none => ¬env.Ample ∧ t.toTagStore = s.toTagStore
        | some a => ∃ tag free', t.tagAt a = some tag ∧ tag.type = .none ∧ tag.tag = none ∧
            tag.string = none ∧ tag.dataLen = 0 ∧ Describes t.toTagStore [a] live free' := by
  refine Under.get_bind ?_
  cases free with
  | nil =>
      have hhead : s.tagsFree = none := h.head
      rw [hhead]
      refine Under.bind (allocate_spec .tag s) ?_
      rintro (_ | _) t ⟨hok, hkept, hstore⟩
      · exact Under.pure ⟨hkept, hok rfl, hstore⟩
      · rw [if_pos rfl]
        have hnone : s.tagAt s.tags.length = none := by
          rw [TagStore.tagAt, List.getElem?_eq_none (Nat.le_refl _)]
          rfl
        have hset : ∀ x, TagStore.tagAt ⟨s.tags ++ [some zeroTag], t.tagsFree⟩ x =
            if x = s.tags.length then some zeroTag else s.tagAt x :=
          fun x => s.toTagStore.tagAt_push (some zeroTag) t.tagsFree x
        have hstore' : t.tags = s.tags := congrArg TagStore.tags hstore
        have hfree' : t.tagsFree = none := (congrArg TagStore.tagsFree hstore).trans hhead
        refine Under.modify_bind (Under.pure ⟨hkept, zeroTag, .nil, ?_, rfl, rfl, rfl, rfl, ?_, hfree', trivial, h.sane⟩)
        · rw [hstore']
          simp only [hset, if_pos]
        · rw [hstore']
          refine h.partition.fresh (a := s.tags.length) ?_ ?_ ?_
          · rw [TagStore.cellAt, hnone]
            rfl
          · rw [TagStore.cellAt, hset, if_pos rfl]
            rfl
          · intro x hx
            rw [TagStore.cellAt, TagStore.cellAt, hset, if_neg hx]
  | cons c sub next =>
      obtain ⟨a, b⟩ := c
      have hhead : s.tagsFree = some a := h.head
      obtain ⟨hsub, hflat⟩ := h.flat
      subst hsub
      have htag := TagStore.tagAt_of_cellAt h.partition.cell_head
      rw [hhead]
      refine Under.bind_eq (readTag_spec htag) (Under.modify_bind (Under.pure ?_))
      refine ⟨Kept.refl s, _, next, htag, hflat.1, rfl, hflat.2.1, hflat.2.2.1, ?_⟩
      exact ⟨Partition.cons_nil.1 h.partition.split, rfl, hflat.2.2.2, h.sane⟩

theorem writeTag_spec {s : Parser} {a : Nat} {t : Tag} (h : s.tagAt a = some t) (t' : Option Tag) :
    ∃ u, writeTag a t' s = ⟨.ok (), u, []⟩ ∧ Kept s u ∧ u.tagsFree = s.tagsFree ∧
      u.tags.length = s.tags.length ∧ ∀ x, u.tagAt x = if x = a then t' else s.tagAt x :=
  ⟨_, rfl, ⟨rfl, rfl⟩, rfl, List.length_set, TagStore.tagAt_set h t'⟩

/-- A tag taken for an element is filled in over the list it is to hold. -/
theorem fillTag_spec {s : Parser} {a : Nat} {tag : Tag} {f : Tag → Tag} {sub : Cells TagBody}
    {live : List (Cells TagBody)} {free : Cells TagBody} (h : Describes s.toTagStore [a] (sub :: live) free)
    (htag : s.tagAt a = some tag) (hsub : (f tag).tag = Cells.head sub) (hnext : (f tag).tagNext = none)
    (hsane : (f tag).toTagBody.Sane) :
    Runs blame (fillTag a f) s fun _ t =>
      Kept s t ∧ Describes t.toTagStore [] (.cons (a, (f tag).toTagBody) sub .nil :: live) free := by
  obtain ⟨u, hwrite, hkept, hfree, -, hat⟩ := writeTag_spec htag (some (f tag))
  refine Under.bind_eq (readTag_spec htag) (Under.bind_eq hwrite ?_)
  have hcell : u.cellAt a = some ⟨(f tag).toTagBody, Cells.head sub, none⟩ := by
    rw [TagStore.cellAt, hat, if_pos rfl, Option.map_some, hsub, hnext]
  have hpart : Partition u.cellAt [a] (free :: sub :: live) := by
    refine h.partition.set_pending List.mem_cons_self (by rw [hcell]; rfl) ?_
    intro x hx
    rw [TagStore.cellAt, TagStore.cellAt, hat, if_neg hx]
  have hdesc : Describes u.toTagStore [] (.cons (a, (f tag).toTagBody) sub .nil :: live) free :=
    Describes.settle ⟨hpart, hfree.trans h.head, h.flat, h.sane⟩ hcell hsane
  refine (snapshot_spec hdesc.sound).mono id ?_
  rintro _ _ rfl
  exact ⟨hkept, hdesc⟩

/-- Setting a link that is set already changes nothing. -/
theorem linkTag_same_spec {s : Parser} {a : Nat} {tag : Tag} {live : List (Cells TagBody)}
    {free : Cells TagBody} (h : Describes s.toTagStore [] live free) (htag : s.tagAt a = some tag)
    (hnext : tag.tagNext = none) :
    Runs blame (linkTag a none) s fun _ t => Kept s t ∧ Describes t.toTagStore [] live free := by
  obtain ⟨u, hwrite, hkept, hfree, -, hat⟩ := writeTag_spec htag (some { tag with tagNext := none })
  refine Under.bind_eq (readTag_spec htag) (Under.bind_eq hwrite ?_)
  have hsame : u.cellAt = s.cellAt := by
    funext x
    rw [TagStore.cellAt, TagStore.cellAt, hat]
    by_cases hx : x = a
    · rw [if_pos hx, hx, htag, ← hnext]
    · rw [if_neg hx]
  have hdesc : Describes u.toTagStore [] live free := 
    ⟨by rw [hsame]; exact h.partition, hfree.trans h.head, h.flat, h.sane⟩
  refine (snapshot_spec hdesc.sound).mono id ?_
  rintro _ _ rfl
  exact ⟨hkept, hdesc⟩

/-- Linking the last tag of a list to the next list joins the two. -/
theorem linkTag_spec {s : Parser} {a : Nat} {f g : Cells TagBody} {live : List (Cells TagBody)}
    {free : Cells TagBody} (h : Describes s.toTagStore [] (f :: g :: live) free)
    (hlast : Cells.last f = some a) :
    Runs blame (linkTag a (Cells.head g)) s fun _ t =>
      Kept s t ∧ Describes t.toTagStore [] ((f ++ g) :: live) free := by
  obtain ⟨b, sub, hcell⟩ := (h.partition.linked f (by simp)).last_next hlast
  have htag := TagStore.tagAt_of_cellAt hcell
  obtain ⟨u, hwrite, hkept, hfree, -, hat⟩ := writeTag_spec htag (some ⟨b, sub, Cells.head g⟩)
  refine Under.bind_eq (readTag_spec htag) (Under.bind_eq hwrite ?_)
  have hpart : Partition u.cellAt [] ((f ++ g) :: free :: live) := by
    have hperm : (free :: f :: g :: live).Perm (f :: g :: free :: live) :=
      ((List.Perm.swap f free (g :: live)).trans ((List.Perm.swap g free live).cons f))
    refine (h.partition.perm hperm).append hlast hcell ?_ ?_
    · rw [TagStore.cellAt, hat, if_pos rfl]
      rfl
    · intro x hx
      rw [TagStore.cellAt, TagStore.cellAt, hat, if_neg hx]
  have hdesc : Describes u.toTagStore [] ((f ++ g) :: live) free := by
    refine ⟨hpart.perm (List.Perm.swap _ _ _), hfree.trans h.head, h.flat, ?_⟩
    intro k hk c hc
    rcases List.mem_cons.1 hk with rfl | hk
    · rw [Forest.labels_append, List.mem_append] at hc
      rcases hc with hc | hc
      · exact h.sane f (by simp) c hc
      · exact h.sane g (by simp) c hc
    · exact h.sane k (by simp [hk]) c hc
  refine (snapshot_spec hdesc.sound).mono id ?_
  rintro _ _ rfl
  exact ⟨hkept, hdesc⟩

/-- A tag that is in no list is put in front of the free list. -/
theorem pushFree_spec {s : Parser} {a : Nat} {tag : Tag} {pending : List Nat} {live : List (Cells TagBody)}
    {free : Cells TagBody} (h : Describes s.toTagStore (a :: pending) live free) (htag : s.tagAt a = some tag) :
    Runs blame (pushFree a) s fun _ t =>
      Kept s t ∧ t.tags.length = s.tags.length ∧ (∀ x, x ≠ a → t.tagAt x = s.tagAt x) ∧
        ∃ free', Describes t.toTagStore pending live free' := by
  have hnot : a ∉ s.freeChain (s.tags.length + 1) s.tagsFree := by
    intro hmem
    have hin := h.freeChain_subset _ a hmem
    have hnodup := h.partition.nodup
    rw [owned, List.cons_append, List.nodup_cons, List.flatMap_cons] at hnodup
    exact hnodup.1 (List.mem_append_right _ (List.mem_append_left _ hin))
  set cleared : Tag := { tag with
    type := .none, string := none, dataLen := 0, tag := none, offset := 0, tagNext := s.tagsFree }
    with hcleared
  obtain ⟨u, hwrite, hkept, hfree, hlen, hat⟩ := writeTag_spec htag (some cleared)
  have hreport : reportFreed a s = ⟨.ok (), s, []⟩ := by
    rw [reportFreed, get_bind_apply, if_neg hnot, pure_apply]
  refine Under.bind_eq hreport (Under.get_bind (Under.bind_eq (readTag_spec htag) ?_))
  refine Under.bind_eq hwrite (Under.modify ?_)
  refine ⟨hkept, hlen, fun x hx => by rw [← hat x |>.trans (if_neg hx)]; rfl, ?_⟩
  have hcell : u.cellAt a = some ⟨cleared.toTagBody, none, Cells.head free⟩ := by
    rw [TagStore.cellAt, hat, if_pos rfl, Option.map_some, hcleared, h.head]
  have hpart : Partition u.cellAt (a :: pending) (free :: live) := by
    refine h.partition.set_pending List.mem_cons_self (by rw [hcell]; rfl) ?_
    intro x hx
    rw [TagStore.cellAt, TagStore.cellAt, hat, if_neg hx]
  exact ⟨.cons (a, cleared.toTagBody) .nil free, hpart.push hcell, rfl, ⟨rfl, rfl, rfl, rfl, h.flat⟩, h.sane⟩

/-- Freeing a list moves its tags to the free list, and touches no tag outside it. -/
theorem freeTags_spec (n : Nat) {s : Parser} {f : Cells TagBody} {pending : List Nat}
    {live : List (Cells TagBody)} {free : Cells TagBody} (hlive : s.danglingSymbols = false)
    (h : Describes s.toTagStore pending (f :: live) free) (hn : (Cells.addresses f).length ≤ n) :
    Runs blame (freeTags n (Cells.head f)) s fun _ t =>
      Kept s t ∧ (∀ x ∈ pending, t.tagAt x = s.tagAt x) ∧ ∃ free', Describes t.toTagStore pending live free' := by
  induction n generalizing s f pending live free with
  | zero =>
      cases f with
      | nil =>
          refine Under.pure ⟨Kept.refl s, fun _ _ => rfl, free, ?_⟩
          exact Describes.cons_nil.1 h
      | cons c sub next => simp at hn
  | succ n ih =>
      cases f with
      | nil =>
          refine Under.pure ⟨Kept.refl s, fun _ _ => rfl, free, ?_⟩
          exact Describes.cons_nil.1 h
      | cons c sub next =>
          obtain ⟨a, b⟩ := c
          simp only [Cells.addresses_cons, List.length_cons, List.length_append] at hn
          have hdesc := h.split
          have htag := TagStore.tagAt_of_cellAt (h.partition.perm (List.Perm.swap _ _ _)).cell_head
          refine Under.bind_eq (readTag_spec htag) (Under.bind (freeString_spec b.string hlive) ?_)
          rintro _ t ⟨hkept, hstore⟩
          rw [← hstore] at hdesc htag
          -- The children are freed first, then the siblings; the tag itself is in no list meanwhile.
          refine Under.bind (ih (hkept.2.trans hlive) hdesc (by omega)) ?_
          rintro _ u ⟨hkept', hsame, free', hdesc'⟩
          rw [← hsame a List.mem_cons_self] at htag
          refine Under.bind_eq (readTag_spec htag) ?_
          refine Under.bind (ih (hkept'.2.trans (hkept.2.trans hlive)) hdesc' (by omega)) ?_
          rintro _ v ⟨hkept'', hsame', free'', hdesc''⟩
          rw [← hsame' a List.mem_cons_self] at htag
          refine (pushFree_spec hdesc'' htag).mono id ?_
          rintro _ w ⟨hkept₃, -, hother, free₃, hdesc₃⟩
          refine ⟨((hkept.trans hkept').trans hkept'').trans hkept₃, ?_, free₃, hdesc₃⟩
          intro x hx
          have hxa : x ≠ a := by
            rintro rfl
            have hnodup := hdesc.partition.nodup
            rw [owned, List.cons_append, List.nodup_cons] at hnodup
            exact hnodup.1 (List.mem_append_left _ hx)
          rw [hother x hxa, hsame' x (List.mem_cons_of_mem _ hx), hsame x (List.mem_cons_of_mem _ hx), hstore]

theorem plistXmlFreeTag_spec {s : Parser} {f : Cells TagBody} {live : List (Cells TagBody)}
    {free : Cells TagBody} (hlive : s.danglingSymbols = false)
    (h : Describes s.toTagStore [] (f :: live) free) :
    Runs blame (plistXmlFreeTag (Cells.head f)) s fun _ t =>
      Kept s t ∧ ∃ free', Describes t.toTagStore [] live free' := by
  have hn := h.length_addresses_le (f := f) (by simp)
  refine Under.get_bind (Under.bind (freeTags_spec _ hlive h (by omega)) ?_)
  rintro _ t ⟨hkept, -, free', hdesc⟩
  refine (snapshot_spec hdesc.sound).mono id ?_
  rintro _ _ rfl
  exact ⟨hkept, free', hdesc⟩

/-- A tag that is not filled in can be freed only when it links no other free tag. -/
theorem reportUncleared_spec {s : Parser} {a : Nat} {tag : Tag} (htag : s.tagAt a = some tag)
    (hblame : blame) :
    Runs blame (reportUncleared a) s fun _ t => t = s ∧ tag.tagNext = none := by
  refine Under.bind_eq (readTag_spec htag) ?_
  by_cases h : tag.tagNext = none
  · rw [if_pos h]
    exact Under.pure ⟨rfl, h⟩
  · rw [if_neg h]
    exact Under.emit (fun hg => hg.elim) fun _ => hblame

end Operations
end BareBoot.Plist
