import BareBoot.PlistStore
import BareBoot.RefCount

/-! What a run owes the pool, and the symbols its tags refer to. The symbol table counts, for each string,
the tags that hold it; the tags and symbols there are account for what was allocated and not released.
Both are kept by every operation on tags and symbols, as long as no tag is freed that its caller does not
own. -/

namespace BareBoot.Plist

open Exec

/-! ### Counting symbols -/

/-- The symbol table as a table of counts. -/
def table (symbols : List Symbol) : List (Bytes × Nat) :=
  symbols.map fun symbol => (symbol.string, symbol.refCount)

/-- What bumping does to the table: the string's count goes up, or the string is not there. -/
theorem bumpSymbol_cases (string : Bytes) (symbols : List Symbol) :
    match bumpSymbol string symbols with
    | none => string ∉ (table symbols).map Prod.fst
    | some bumped => bumped.length = symbols.length ∧ ∃ n rest,
        (table symbols).Perm ((string, n) :: rest) ∧ (table bumped).Perm ((string, n + 1) :: rest) := by
  induction symbols with
  | nil => exact List.not_mem_nil
  | cons symbol next ih =>
      rw [bumpSymbol]
      by_cases h : symbol.string = string
      · rw [if_pos h]
        refine ⟨rfl, symbol.refCount, table next, ?_, ?_⟩
        · rw [← h]
          exact List.Perm.refl _
        · rw [← h]
          exact List.Perm.refl _
      · rw [if_neg h]
        rcases hb : bumpSymbol string next with _ | bumped
        · rw [hb] at ih
          intro hmem
          rcases List.mem_cons.1 hmem with hmem | hmem
          · exact h hmem.symm
          · exact ih hmem
        · rw [hb] at ih
          obtain ⟨hlen, n, rest, hold, hnew⟩ := ih
          refine ⟨congrArg (· + 1) hlen, n, (symbol.string, symbol.refCount) :: rest, ?_, ?_⟩
          · exact (hold.cons _).trans (List.Perm.swap _ _ _)
          · exact (hnew.cons _).trans (List.Perm.swap _ _ _)

/-- What dropping does to the table: the string's count goes down, or its entry is gone. -/
theorem dropSymbol_cases (string : Bytes) (symbols : List Symbol) :
    match dropSymbol string symbols with
    | none => string ∉ (table symbols).map Prod.fst
    | some (last, dropped) => ∃ n rest, (table symbols).Perm ((string, n) :: rest) ∧
        if last then symbols.length = dropped.length + 1 ∧ n - 1 = 0 ∧ (table dropped).Perm rest
        else symbols.length = dropped.length ∧ n - 1 ≠ 0 ∧ (table dropped).Perm ((string, n - 1) :: rest) := by
  induction symbols with
  | nil => exact List.not_mem_nil
  | cons symbol next ih =>
      rw [dropSymbol]
      by_cases h : symbol.string = string
      · subst h
        rw [if_pos rfl]
        by_cases hlast : symbol.refCount - 1 ≠ 0
        · rw [if_pos hlast]
          exact ⟨symbol.refCount, table next, List.Perm.refl _, rfl, hlast, List.Perm.refl _⟩
        · rw [if_neg hlast]
          exact ⟨symbol.refCount, table next, List.Perm.refl _, rfl, not_ne_iff.1 hlast, List.Perm.refl _⟩
      · rw [if_neg h]
        rcases hd : dropSymbol string next with _ | ⟨last, dropped⟩
        · rw [hd] at ih
          intro hmem
          rcases List.mem_cons.1 hmem with hmem | hmem
          · exact h hmem.symm
          · exact ih hmem
        · rw [hd] at ih
          obtain ⟨n, rest, hold, hnew⟩ := ih
          refine ⟨n, (symbol.string, symbol.refCount) :: rest, (hold.cons _).trans (List.Perm.swap _ _ _), ?_⟩
          cases last with
          | true => exact ⟨congrArg (· + 1) hnew.1, hnew.2.1, hnew.2.2.cons _⟩
          | false => exact ⟨congrArg (· + 1) hnew.1, hnew.2.1, (hnew.2.2.cons _).trans (List.Perm.swap _ _ _)⟩

/-! ### The strings of a store -/

/-- The strings the tags hold, one for each tag; a freed tag holds none. -/
def TagStore.strings (s : TagStore) : List Bytes := s.tags.filterMap fun tag => tag.bind fun t => t.string

/-- The strings of a list of tags. -/
def strings (f : Cells TagBody) : List Bytes := f.labels.filterMap fun c => c.2.string

theorem strings_cons (c : Nat × TagBody) (sub next : Cells TagBody) :
    strings (.cons c sub next) = c.2.string.toList ++ (strings sub ++ strings next) := by
  unfold strings
  rw [Forest.labels, List.filterMap_cons, List.filterMap_append]
  rcases c.2.string with _ | string <;> rfl

theorem strings_append (f g : Cells TagBody) : strings (f ++ g) = strings f ++ strings g := by
  rw [strings, Forest.labels_append, List.filterMap_append]
  rfl

theorem strings_of_flat {f : Cells TagBody} (h : Flat f) : strings f = [] := by
  induction f with
  | nil => rfl
  | cons c sub next _ ih =>
      obtain ⟨rfl, -, hnone, -, hflat⟩ := h
      rw [strings_cons, hnone, ih hflat]
      rfl

theorem filterMap_getElem {α β : Type} (g : α → Option β) (l : List α) :
    l.filterMap g = (List.range l.length).filterMap fun i => l[i]?.bind g := by
  induction l using List.reverseRecOn with
  | nil => rfl
  | append_singleton l a ih =>
      have hsame : ∀ i ∈ List.range l.length, (l ++ [a])[i]?.bind g = l[i]?.bind g := by
        intro i hi
        rw [List.getElem?_append_left (List.mem_range.1 hi)]
      have hlast : (l ++ [a])[l.length]? = some a := by
        rw [List.getElem?_append_right (Nat.le_refl _), Nat.sub_self]
        rfl
      rw [List.filterMap_append, List.length_append, List.length_singleton, List.range_succ, List.filterMap_append,
        List.filterMap_congr hsame, ← ih]
      simp only [List.filterMap_cons, List.filterMap_nil, hlast, Option.bind_some]

/-- The string of the tag at an address. -/
def TagStore.stringAt (s : TagStore) (a : Nat) : Option Bytes := (s.tagAt a).bind fun t => t.string

theorem strings_of_linked {s : TagStore} {f : Cells TagBody} (h : Linked s.cellAt f) :
    (Cells.addresses f).filterMap s.stringAt = strings f := by
  induction f with
  | nil => rfl
  | cons c sub next ihs ihn =>
      obtain ⟨a, b⟩ := c
      obtain ⟨hc, hs, hn⟩ := h
      have hstring : s.stringAt a = b.string := by
        rw [TagStore.stringAt, TagStore.tagAt_of_cellAt hc]
        rfl
      rw [Cells.addresses_cons, List.filterMap_cons, List.filterMap_append, ihs hs, ihn hn, strings_cons, hstring]
      rcases b.string with _ | string <;> rfl

theorem strings_of_lists {s : TagStore} {lists : List (Cells TagBody)} (h : ∀ f ∈ lists, Linked s.cellAt f) :
    (lists.flatMap Cells.addresses).filterMap s.stringAt = lists.flatMap strings := by
  induction lists with
  | nil => rfl
  | cons f lists ih =>
      rw [List.flatMap_cons, List.flatMap_cons, List.filterMap_append, strings_of_linked (h f List.mem_cons_self),
        ih fun g hg => h g (List.mem_cons_of_mem f hg)]

/-- The strings of a store are those of its lists. -/
theorem Describes.strings_perm {s : TagStore} {live : List (Cells TagBody)} {free : Cells TagBody}
    (h : Describes s [] live free) : s.strings.Perm (live.flatMap strings) := by
  set present := (List.range s.tags.length).filter fun a => (s.tagAt a).isSome with hpresent
  have hrange : s.strings = present.filterMap s.stringAt := by
    rw [TagStore.strings, filterMap_getElem, hpresent, List.filterMap_filter]
    refine List.filterMap_congr fun a _ => ?_
    rw [TagStore.stringAt, TagStore.tagAt]
    rcases s.tags[a]? with _ | _ | tag <;> rfl
  have hmem : ∀ a, a ∈ present ↔ a ∈ owned [] (free :: live) := by
    intro a
    rw [← h.partition.cover, TagStore.cellAt_isSome, hpresent, List.mem_filter, List.mem_range]
    refine and_iff_right_of_imp fun hsome => ?_
    obtain ⟨tag, htag⟩ := Option.isSome_iff_exists.1 hsome
    exact TagStore.lt_of_tagAt htag
  have hperm : present.Perm (owned [] (free :: live)) :=
    (List.perm_ext_iff_of_nodup (List.nodup_range.filter _) h.partition.nodup).2 hmem
  rw [hrange]
  refine (hperm.filterMap _).trans (List.Perm.of_eq ?_)
  rw [owned, List.nil_append, strings_of_lists h.partition.linked, List.flatMap_cons, strings_of_flat h.flat,
    List.nil_append]

end BareBoot.Plist
