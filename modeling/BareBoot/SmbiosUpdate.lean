import BareBoot.SmbiosString

/-! When `UpdateSmbiosString` replaces the string of a field and nothing else. The measure of the old string ends at 64
characters, so of a longer one the rest stays behind the new string; an empty buffer leaves two zeros in the place of
a string, where the structure then ends. -/

namespace BareBoot.Smbios

open Plist Kext

variable {memory : Memory} {a raw field : Nat} {s text : Bytes} {strings : List Bytes}

/-! ### The strings at an address -/

theorem text_unique {s' t t' : Bytes} (hs : 0 ∉ s) (hs' : 0 ∉ s') (h : holds memory a (s ++ 0 :: t) = true)
    (h' : holds memory a (s' ++ 0 :: t') = true) : s = s' := by
  have hhead {u v : Bytes} (h : holds memory a (u ++ 0 :: v) = true) : holds memory a (u ++ [0]) = true := by
    rw [holds_append, Bool.and_eq_true, holds_cons] at h
    rw [holds_append, Bool.and_eq_true, holds_cons]
    exact ⟨h.1, h.2.1, rfl⟩
  have hlength : s.length < max s.length s'.length + 1 := Nat.lt_succ_of_le (le_max_left _ _)
  have hlength' : s'.length < max s.length s'.length + 1 := Nat.lt_succ_of_le (le_max_right _ _)
  exact (textAt_eq (hhead h) hs hlength).symm.trans (textAt_eq (hhead h') hs' hlength')

theorem terminated_unique {strings' : List Bytes} {t t' : Bytes} (htexts : ∀ s ∈ strings, IsText s)
    (htexts' : ∀ s ∈ strings', IsText s) (h : holds memory a (terminated strings ++ 0 :: t) = true)
    (h' : holds memory a (terminated strings' ++ 0 :: t') = true) : strings = strings' := by
  induction strings generalizing a strings' with
  | nil =>
      rcases strings' with _ | ⟨s', strings'⟩
      · rfl
      · rw [terminated_cons, List.append_assoc] at h'
        exact absurd (holds_cons.1 h).1 ((htexts' s' List.mem_cons_self).first_ne h')
  | cons s strings ih =>
      rw [terminated_cons, List.append_assoc] at h
      rcases strings' with _ | ⟨s', strings'⟩
      · exact absurd (holds_cons.1 h').1 ((htexts s List.mem_cons_self).first_ne h)
      · rw [terminated_cons, List.append_assoc] at h'
        rw [List.forall_mem_cons] at htexts htexts'
        obtain rfl := text_unique htexts.1.2 htexts'.1.2 h h'
        rw [List.cons_append, holds_append, Bool.and_eq_true, holds_cons] at h h'
        rw [ih htexts.2 htexts'.2 h.2.2 h'.2.2]

theorem holds_prefix_of {u v : Bytes} (h : holds memory a (u ++ v) = true) : holds memory a u = true := by
  rw [holds_append, Bool.and_eq_true] at h
  exact h.1

/-! ### The property -/

/-- The structure is well formed with strings of which the one the field refers to is the text, or is none for an empty
text, and every other number refers to what it did; of the formatted area only the field differs. -/
def StringUpdated (memory after : Memory) (raw field : Nat) (strings : List Bytes) (text : Bytes) : Prop :=
  ∃ strings', (∀ s ∈ strings', IsText s) ∧ holds after (firstString memory raw) (stringSet strings') = true ∧
    stringOf strings' (after field).toNat = (if text = [] then none else some text) ∧
    (∀ number, number ≠ (after field).toNat → stringOf strings' number = stringOf strings number) ∧
    ∀ x, raw ≤ x → x < firstString memory raw → x ≠ field → after x = memory x

/-- The strings and the text for which that is so. -/
def UpdateFits (strings : List Bytes) (number : Nat) (text : Bytes) : Prop :=
  match stringOf strings number with
  | none => text = [] ∨ strings.length < 255
  | some s =>
      if text = [] then number = strings.length ∧ (s.length ≤ 65 ∨ 2 ≤ number)
      else s.length ≤ 64 ∨ s.length = 65 ∧ number = strings.length

theorem isText_bufferText {buffer : Bytes} (h : bufferText buffer ≠ []) : IsText (bufferText buffer) :=
  ⟨h, fun hmem => zero_not_mem_cstr buffer (List.mem_of_mem_take hmem)⟩

/-- Without a string there is one more, with the next number. -/
theorem updateSmbiosString_missing_iff (h : IsStructure memory raw strings) (hraw : raw ≠ 0) (hfield : raw + 4 ≤ field)
    (hinside : field < firstString memory raw) (hnumber : memory field = 0) (buffer : Bytes) :
    (∃ after, updateSmbiosString memory raw field (some buffer) = some (after, .success) ∧
      StringUpdated memory after raw field strings (bufferText buffer)) ↔
      bufferText buffer = [] ∨ strings.length < 255 := by
  have hnumbers := h.numbers
  obtain ⟨after, hrun, hafter, hindex, hframe⟩ := updateSmbiosString_missing h hraw hfield hinside hnumber buffer
  have hframe' : ∀ x, raw ≤ x → x < firstString memory raw → x ≠ field → after x = memory x := fun x _ => hframe x
  have hvalue : (after field).toNat = (strings.length + 1) % 256 := by rw [hindex, UInt8.toNat_ofNat']
  by_cases htext : bufferText buffer = []
  · rw [if_pos htext] at hafter
    refine iff_of_true ⟨after, hrun, strings, h.texts, hafter, ?_, fun number _ => rfl, hframe'⟩ (Or.inl htext)
    rw [if_pos htext, hvalue]
    by_cases hfull : strings.length = 255
    · rw [hfull]
      rfl
    · rw [Nat.mod_eq_of_lt (by omega), stringOf]
      exact List.getElem?_eq_none le_rfl
  · rw [if_neg htext] at hafter
    have htexts : ∀ s ∈ strings ++ [bufferText buffer], IsText s := by
      rw [List.forall_mem_append, List.forall_mem_singleton]
      exact ⟨h.texts, isText_bufferText htext⟩
    rw [or_iff_right htext]
    constructor
    · rintro ⟨after', hrun', strings', htexts', hstands', hstring, -⟩
      cases hrun.symm.trans hrun'
      by_contra hfull
      rw [hvalue, show strings.length = 255 by omega, if_neg htext] at hstring
      cases hstring
    · intro hroom
      refine ⟨after, hrun, _, htexts, hafter, ?_, ?_, hframe'⟩
      · rw [if_neg htext, hvalue, Nat.mod_eq_of_lt (by omega), stringOf, List.getElem?_concat_length]
      · intro number hne
        rw [hvalue, Nat.mod_eq_of_lt (by omega)] at hne
        cases number with
        | zero => rfl
        | succ number =>
            rw [stringOf, stringOf]
            by_cases hlt : number < strings.length
            · rw [List.getElem?_append_left hlt]
            · rw [List.getElem?_eq_none (by rw [List.length_append, List.length_singleton]; omega),
                List.getElem?_eq_none (by omega)]

section Existing

variable {before behind : List Bytes}

/-- Strings that agree but for one number, which is given. -/
theorem replaced_eq {strings' : List Bytes}
    (hstring : stringOf strings' (before.length + 1) = some text)
    (hother : ∀ number, number ≠ before.length + 1 → stringOf strings' number = stringOf (before ++ s :: behind) number) :
    strings' = before ++ text :: behind := by
  apply List.ext_getElem?
  intro i
  by_cases hi : i = before.length
  · rw [hi, List.getElem?_append_right le_rfl, Nat.sub_self]
    exact hstring
  · have hsame : strings'[i]? = (before ++ s :: behind)[i]? := hother (i + 1) (by omega)
    rw [hsame]
    rcases Nat.lt_or_ge i before.length with hlt | hge
    · rw [List.getElem?_append_left hlt, List.getElem?_append_left hlt]
    · obtain ⟨j, rfl⟩ := Nat.exists_eq_add_of_lt (lt_of_le_of_ne hge (Ne.symm hi))
      rw [List.getElem?_append_right (by omega), List.getElem?_append_right (by omega),
        show before.length + j + 1 - before.length = j + 1 by omega, List.getElem?_cons_succ, List.getElem?_cons_succ]

/-- Strings that agree but for one number, which refers to none: it was the last. -/
theorem removed_eq {strings' : List Bytes} (hstring : stringOf strings' (before.length + 1) = none)
    (hother : ∀ number, number ≠ before.length + 1 → stringOf strings' number = stringOf (before ++ s :: behind) number) :
    strings' = before ∧ behind = [] := by
  have hshort : strings'.length ≤ before.length := List.getElem?_eq_none_iff.1 hstring
  have hbehind : behind = [] := by
    rcases behind with _ | ⟨b, behind⟩
    · rfl
    · have hnext : strings'[before.length + 1]? = (before ++ s :: b :: behind)[before.length + 1]? :=
        hother (before.length + 2) (by omega)
      rw [List.getElem?_eq_none (by omega), List.getElem?_append_right (by omega), Nat.add_sub_cancel_left] at hnext
      exact absurd hnext.symm (Option.some_ne_none _)
  refine ⟨List.ext_getElem? fun i => ?_, hbehind⟩
  by_cases hi : i < before.length
  · have hsame : strings'[i]? = (before ++ s :: behind)[i]? := hother (i + 1) (by omega)
    rw [hsame, List.getElem?_append_left hi]
  · rw [List.getElem?_eq_none (by omega), List.getElem?_eq_none (by omega)]

/-- What stands behind the new string: the strings behind the old one, or first what is left of the old one. -/
theorem tail_cases (s t : Bytes) :
    (s.length ≤ 64 ∧ (s.drop stringMaxLength ++ 0 :: t).tail = t) ∨
      (s.length = 65 ∧ (s.drop stringMaxLength ++ 0 :: t).tail = 0 :: t) ∨
      (65 < s.length ∧ (s.drop stringMaxLength ++ 0 :: t).tail = s.drop 65 ++ 0 :: t) := by
  rw [stringMaxLength]
  rcases Nat.lt_trichotomy s.length 65 with h | h | h
  · refine Or.inl ⟨by omega, ?_⟩
    rw [List.drop_eq_nil_of_le (by omega)]
    rfl
  · refine Or.inr (Or.inl ⟨h, ?_⟩)
    rw [List.tail_append_of_ne_nil (List.ne_nil_of_length_pos (by rw [List.length_drop]; omega)), List.tail_drop,
      List.drop_eq_nil_of_le (by omega), List.nil_append]
  · refine Or.inr (Or.inr ⟨h, ?_⟩)
    rw [List.tail_append_of_ne_nil (List.ne_nil_of_length_pos (by rw [List.length_drop]; omega)), List.tail_drop]

theorem isText_drop (hs : IsText s) (hlong : 65 < s.length) : IsText (s.drop 65) :=
  ⟨List.ne_nil_of_length_pos (by rw [List.length_drop]; omega), fun hmem => hs.2 (List.mem_of_mem_drop hmem)⟩

/-- The string is replaced by one that is not empty. -/
theorem replaced_iff (hbefore : ∀ s ∈ before, IsText s) (hs : IsText s) (hbehind : ∀ s ∈ behind, IsText s) (htext : IsText text)
    (h : holds memory a (terminated before ++
      (text ++ 0 :: (s.drop stringMaxLength ++ 0 :: (terminated behind ++ [0])).tail)) = true) :
    (∃ strings', (∀ s ∈ strings', IsText s) ∧ holds memory a (stringSet strings') = true ∧
        stringOf strings' (before.length + 1) = some text ∧
        ∀ number, number ≠ before.length + 1 → stringOf strings' number = stringOf (before ++ s :: behind) number) ↔
      s.length ≤ 64 ∨ s.length = 65 ∧ behind = [] := by
  have hset : stringSet (before ++ text :: behind) = terminated before ++ (text ++ 0 :: (terminated behind ++ [0])) := by
    rw [stringSet_of_ne (List.append_ne_nil_of_right_ne_nil _ (List.cons_ne_nil _ _)), terminated_append, terminated_cons]
    simp only [List.append_assoc, List.cons_append]
  have htexts : ∀ s ∈ before ++ text :: behind, IsText s := by
    rw [List.forall_mem_append, List.forall_mem_cons]
    exact ⟨hbefore, htext, hbehind⟩
  have hplace : stringOf (before ++ text :: behind) (before.length + 1) = some text := by
    rw [stringOf, List.getElem?_append_right le_rfl, Nat.sub_self, List.getElem?_cons_zero]
  have hother : ∀ number, number ≠ before.length + 1 →
      stringOf (before ++ text :: behind) number = stringOf (before ++ s :: behind) number := by
    intro number hne
    cases number with
    | zero => rfl
    | succ i =>
        rw [stringOf, stringOf]
        rcases Nat.lt_trichotomy i before.length with hlt | heq | hgt
        · rw [List.getElem?_append_left hlt, List.getElem?_append_left hlt]
        · omega
        · obtain ⟨j, rfl⟩ := Nat.exists_eq_add_of_lt hgt
          rw [List.getElem?_append_right (by omega), List.getElem?_append_right (by omega),
            show before.length + j + 1 - before.length = j + 1 by omega, List.getElem?_cons_succ, List.getElem?_cons_succ]
  rcases tail_cases s (terminated behind ++ [0]) with ⟨hlen, htail⟩ | ⟨hlen, htail⟩ | ⟨hlen, htail⟩ <;> rw [htail] at h
  · exact iff_of_true ⟨_, htexts, hset ▸ h, hplace, hother⟩ (Or.inl hlen)
  · constructor
    · rintro ⟨strings', -, hstands, hstring, hrest⟩
      obtain rfl := replaced_eq hstring hrest
      rw [hset, holds_append, holds_append, Bool.and_eq_true, Bool.and_eq_true, holds_cons] at hstands
      rw [holds_append, holds_append, Bool.and_eq_true, Bool.and_eq_true, holds_cons] at h
      exact Or.inr ⟨hlen, (terminated_unique (fun _ hmem => absurd hmem List.not_mem_nil) hbehind h.2.2.2
        hstands.2.2.2).symm⟩
    · rintro (hshort | ⟨-, rfl⟩)
      · omega
      · refine ⟨_, htexts, ?_, hplace, hother⟩
        rw [hset]
        have hsplit : terminated before ++ (text ++ 0 :: 0 :: (terminated [] ++ [0])) =
            terminated before ++ (text ++ 0 :: (terminated [] ++ [0])) ++ [0] := by
          simp [terminated]
        rw [hsplit] at h
        exact holds_prefix_of h
  · refine iff_of_false ?_ (by omega)
    rintro ⟨strings', -, hstands, hstring, hrest⟩
    obtain rfl := replaced_eq hstring hrest
    rw [hset, holds_append, holds_append, Bool.and_eq_true, Bool.and_eq_true, holds_cons] at hstands
    rw [holds_append, holds_append, Bool.and_eq_true, Bool.and_eq_true, holds_cons] at h
    have hlonger : holds memory (a + (terminated before).length + text.length + 1)
        (terminated (s.drop 65 :: behind) ++ 0 :: []) = true := by
      rw [terminated_cons, List.append_assoc]
      exact h.2.2.2
    have heq := terminated_unique (List.forall_mem_cons.2 ⟨isText_drop hs hlen, hbehind⟩) hbehind hlonger hstands.2.2.2
    exact absurd (congrArg List.length heq) (by rw [List.length_cons]; omega)

/-- The string is replaced by none. -/
theorem removed_iff (hbefore : ∀ s ∈ before, IsText s) (hs : IsText s)
    (h : holds memory a (terminated before ++ 0 :: (s.drop stringMaxLength ++ 0 :: (terminated behind ++ [0])).tail) = true) :
    (∃ strings', (∀ s ∈ strings', IsText s) ∧ holds memory a (stringSet strings') = true ∧
        stringOf strings' (before.length + 1) = none ∧
        ∀ number, number ≠ before.length + 1 → stringOf strings' number = stringOf (before ++ s :: behind) number) ↔
      behind = [] ∧ (s.length ≤ 65 ∨ before ≠ []) := by
  constructor
  · rintro ⟨strings', -, hstands, hstring, hrest⟩
    obtain ⟨rfl, hbehind⟩ := removed_eq hstring hrest
    refine ⟨hbehind, ?_⟩
    by_contra hnot
    obtain ⟨hlong, hempty⟩ := not_or.1 hnot
    obtain rfl := not_not.1 hempty
    rcases tail_cases s (terminated behind ++ [0]) with ⟨hlen, -⟩ | ⟨hlen, -⟩ | ⟨hlen, htail⟩
    · omega
    · omega
    · rw [htail] at h
      have hsecond : memory (a + 1) = 0 := (holds_cons.1 (holds_cons.1 hstands).2).1
      exact (isText_drop hs hlen).first_ne (holds_cons.1 h).2 hsecond
  · rintro ⟨rfl, hlen⟩
    refine ⟨before, hbefore, ?_, List.getElem?_eq_none le_rfl, ?_⟩
    · by_cases hempty : before = []
      · subst hempty
        refine holds_cons.2 ⟨(holds_cons.1 h).1, ?_⟩
        have hsecond := (holds_cons.1 h).2
        rcases tail_cases s (terminated [] ++ [0]) with ⟨-, htail⟩ | ⟨-, htail⟩ | ⟨hlong, -⟩
        · rw [htail] at hsecond
          exact hsecond
        · rw [htail] at hsecond
          exact holds_cons.2 ⟨(holds_cons.1 hsecond).1, rfl⟩
        · rcases hlen with hlen | hlen
          · omega
          · exact absurd rfl hlen
      · rw [stringSet_of_ne hempty]
        rw [← List.singleton_append, ← List.append_assoc] at h
        exact holds_prefix_of h
    · intro number hne
      cases number with
      | zero => rfl
      | succ i =>
          rw [stringOf, stringOf]
          rcases Nat.lt_or_ge i before.length with hlt | hge
          · rw [List.getElem?_append_left hlt]
          · rw [List.getElem?_eq_none hge, List.getElem?_eq_none (by rw [List.length_append, List.length_singleton]; omega)]

end Existing

/-- The exact strings, numbers and buffers. -/
theorem updateSmbiosString_existing_iff {before behind : List Bytes} (h : IsStructure memory raw (before ++ s :: behind))
    (hraw : raw ≠ 0) (hfield : raw + 4 ≤ field) (hinside : field < firstString memory raw)
    (hnumber : (memory field).toNat = before.length + 1) (buffer : Bytes) :
    (∃ after, updateSmbiosString memory raw field (some buffer) = some (after, .success) ∧
      StringUpdated memory after raw field (before ++ s :: behind) (bufferText buffer)) ↔
      if bufferText buffer = [] then behind = [] ∧ (s.length ≤ 65 ∨ before ≠ [])
      else s.length ≤ 64 ∨ s.length = 65 ∧ behind = [] := by
  have htexts := h.texts
  rw [List.forall_mem_append, List.forall_mem_cons] at htexts
  obtain ⟨hbefore, hs, hbehind⟩ := htexts
  obtain ⟨after, hrun, hafter, hframe⟩ := updateSmbiosString_existing h hraw hfield hnumber buffer
  have hvalue : (after field).toNat = before.length + 1 := by rw [hframe field hinside, hnumber]
  have hupdated : (∃ after, updateSmbiosString memory raw field (some buffer) = some (after, .success) ∧
        StringUpdated memory after raw field (before ++ s :: behind) (bufferText buffer)) ↔
      ∃ strings', (∀ s ∈ strings', IsText s) ∧ holds after (firstString memory raw) (stringSet strings') = true ∧
        stringOf strings' (before.length + 1) = (if bufferText buffer = [] then none else some (bufferText buffer)) ∧
        ∀ number, number ≠ before.length + 1 → stringOf strings' number = stringOf (before ++ s :: behind) number := by
    constructor
    · rintro ⟨after', hrun', strings', htexts', hstands, hstring, hother, -⟩
      cases hrun.symm.trans hrun'
      rw [hvalue] at hstring hother
      exact ⟨strings', htexts', hstands, hstring, hother⟩
    · rintro ⟨strings', htexts', hstands, hstring, hother⟩
      refine ⟨after, hrun, strings', htexts', hstands, ?_, ?_, fun x _ hx _ => hframe x hx⟩
      · rw [hvalue, hstring]
      · rw [hvalue]
        exact hother
  rw [hupdated]
  by_cases htext : bufferText buffer = []
  · simp only [htext, if_true]
    rw [htext] at hafter
    exact removed_iff hbefore hs hafter
  · simp only [htext, if_false]
    exact replaced_iff hbefore hs hbehind (isText_bufferText htext) hafter

/-- Of a well-formed structure and a field in its formatted area that refers to a string or to none: the update leaves the
first 64 characters of the buffer there, and everything else as it was, for these strings and texts. -/
theorem updateSmbiosString_iff (h : IsStructure memory raw strings) (hraw : raw ≠ 0) (hfield : raw + 4 ≤ field)
    (hinside : field < firstString memory raw) (hnumber : (memory field).toNat ≤ strings.length) (buffer : Bytes) :
    (∃ after, updateSmbiosString memory raw field (some buffer) = some (after, .success) ∧
      StringUpdated memory after raw field strings (bufferText buffer)) ↔
      UpdateFits strings (memory field).toNat (bufferText buffer) := by
  rcases hvalue : (memory field).toNat with _ | i
  · exact updateSmbiosString_missing_iff h hraw hfield hinside (UInt8.toNat_inj.1 hvalue) buffer
  · rw [hvalue] at hnumber
    obtain ⟨before, s, behind, rfl, rfl⟩ : ∃ before s behind, strings = before ++ s :: behind ∧ before.length = i :=
      ⟨strings.take i, strings[i], strings.drop (i + 1), by rw [List.getElem_cons_drop, List.take_append_drop],
        by rw [List.length_take]; omega⟩
    rw [updateSmbiosString_existing_iff h hraw hfield hinside hvalue buffer, UpdateFits, stringOf,
      List.getElem?_append_right le_rfl, Nat.sub_self, List.getElem?_cons_zero]
    have hlast : before.length + 1 = (before ++ s :: behind).length ↔ behind = [] := by
      rw [List.length_append, List.length_cons, ← List.length_eq_zero_iff]
      omega
    have hfirst : 2 ≤ before.length + 1 ↔ before ≠ [] := by
      rw [← List.length_pos_iff]
      omega
    simp only [hlast, hfirst]

/-! A structure at 4096 with eight bytes of formatted area and the strings `AB` and `CD`; the byte at 4100 refers to the
first one. -/

def twoStrings : Memory := fun x =>
  if x < 4096 then 0 else ([17, 8, 0, 0, 1, 2, 0, 0] ++ stringSet [ascii "AB", ascii "CD"]).getD (x - 4096) 0

theorem twoStrings_isStructure : IsStructure twoStrings 4096 [ascii "AB", ascii "CD"] where
  header := by decide
  texts := by
    intro s hs
    simp only [List.mem_cons, List.not_mem_nil, or_false] at hs
    rcases hs with rfl | rfl <;> exact ⟨by decide, by decide⟩
  numbers := by decide
  size := by decide
  stands := by decide

theorem twoStrings_updated :
    (∃ after, updateSmbiosString twoStrings 4096 4100 (some (ascii "XYZ")) = some (after, .success) ∧
      StringUpdated twoStrings after 4096 4100 [ascii "AB", ascii "CD"] (bufferText (ascii "XYZ"))) ↔
      UpdateFits [ascii "AB", ascii "CD"] (twoStrings 4100).toNat (bufferText (ascii "XYZ")) :=
  updateSmbiosString_iff twoStrings_isStructure (by decide) (by decide) (by decide) (by decide) (ascii "XYZ")

/-- The same with a first string of 66 characters. -/
def longString : Memory := fun x =>
  if x < 4096 then 0 else ([17, 8, 0, 0, 1, 2, 0, 0] ++ stringSet [List.replicate 66 65, ascii "CD"]).getD (x - 4096) 0

theorem longString_isStructure : IsStructure longString 4096 [List.replicate 66 65, ascii "CD"] where
  header := by decide +kernel
  texts := by
    intro s hs
    simp only [List.mem_cons, List.not_mem_nil, or_false] at hs
    rcases hs with rfl | rfl <;> exact ⟨by decide, by decide⟩
  numbers := by decide
  size := by decide +kernel
  stands := by decide +kernel

/-- An empty buffer for the first of two strings ends the structure before the second one, and of a string of 66
characters the last one stays as a string of its own. -/
theorem update_fails :
    IsStructure twoStrings 4096 [ascii "AB", ascii "CD"] ∧ IsStructure longString 4096 [List.replicate 66 65, ascii "CD"] ∧
      (¬∃ after, updateSmbiosString twoStrings 4096 4100 (some []) = some (after, .success) ∧
        StringUpdated twoStrings after 4096 4100 [ascii "AB", ascii "CD"] (bufferText [])) ∧
      ¬∃ after, updateSmbiosString longString 4096 4100 (some (ascii "XYZ")) = some (after, .success) ∧
        StringUpdated longString after 4096 4100 [List.replicate 66 65, ascii "CD"] (bufferText (ascii "XYZ")) := by
  refine ⟨twoStrings_isStructure, longString_isStructure, ?_, ?_⟩
  · have h := @updateSmbiosString_existing_iff twoStrings 4096 4100 (ascii "AB") [] [ascii "CD"] twoStrings_isStructure
      (by decide) (by decide) (by decide) (by decide) []
    rw [List.nil_append] at h
    rw [h, if_pos (by decide)]
    exact fun hlast => absurd hlast.1 (by decide)
  · have h := @updateSmbiosString_existing_iff longString 4096 4100 (List.replicate 66 65) [] [ascii "CD"]
      longString_isStructure (by decide) (by decide) (by decide +kernel) (by decide +kernel) (ascii "XYZ")
    rw [List.nil_append] at h
    rw [h, if_neg (by decide)]
    decide

end BareBoot.Smbios
