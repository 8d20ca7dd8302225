import BareBoot.Smbios

/-! `UpdateSmbiosString` over the strings of a well-formed structure: what the walk over them finds, what the move of the
tail leaves, and for which strings and buffers the string is replaced and nothing else. -/

namespace BareBoot.Smbios

open Plist Kext

variable {memory : Memory} {a : Nat} {s t : Bytes} {strings : List Bytes}

/-! ### Walking over the strings -/

theorem terminated_cons (s : Bytes) (strings : List Bytes) : terminated (s :: strings) = s ++ 0 :: terminated strings := by
  rw [terminated, List.flatMap_cons, List.append_assoc, List.singleton_append]
  rfl

theorem terminated_append (strings strings' : List Bytes) :
    terminated (strings ++ strings') = terminated strings ++ terminated strings' := List.flatMap_append

theorem stringSet_of_ne (h : strings ≠ []) : stringSet strings = terminated strings ++ [0] := if_neg h

/-- The first byte of a string is not zero. -/
theorem IsText.first_ne (h : IsText s) (hs : holds memory a (s ++ t) = true) : memory a ≠ 0 := by
  obtain ⟨hne, hzero⟩ := h
  obtain ⟨c, cs, rfl⟩ := List.exists_cons_of_ne_nil hne
  rw [List.cons_append, holds_cons] at hs
  rw [hs.1]
  exact fun h0 => hzero (h0 ▸ List.mem_cons_self)

theorem stringEnd_text (h : holds memory a (s ++ 0 :: t) = true) (hs : 0 ∉ s) {rounds : Nat} (hrounds : s.length < rounds) :
    stringEnd memory rounds a = some (a + s.length) := by
  induction s generalizing a rounds with
  | nil =>
      obtain ⟨rounds, rfl⟩ := Nat.exists_eq_succ_of_ne_zero (Nat.ne_of_gt hrounds)
      rw [List.nil_append, holds_cons] at h
      rw [stringEnd, if_pos h.1, List.length_nil, Nat.add_zero]
  | cons c s ih =>
      obtain ⟨rounds, rfl⟩ := Nat.exists_eq_succ_of_ne_zero (show rounds ≠ 0 by omega)
      obtain ⟨hc, hs⟩ := not_or.1 (mt List.mem_cons.2 hs)
      rw [List.cons_append, holds_cons] at h
      rw [List.length_cons] at hrounds ⊢
      rw [stringEnd, if_neg (by rw [h.1]; exact Ne.symm hc), ih h.2 hs (by omega)]
      congr 1
      omega

/-- Over the characters of a string. -/
theorem doubleZero_text (h : holds memory a (s ++ 0 :: t) = true) (hs : 0 ∉ s) (rounds : Nat) :
    doubleZero memory (rounds + s.length) a = doubleZero memory rounds (a + s.length) := by
  induction s generalizing a with
  | nil => rfl
  | cons c s ih =>
      obtain ⟨hc, hs⟩ := not_or.1 (mt List.mem_cons.2 hs)
      rw [List.cons_append, holds_cons] at h
      rw [List.length_cons, ← Nat.add_assoc, doubleZero, if_pos (Or.inl (by rw [h.1]; exact Ne.symm hc)), ih h.2 hs]
      congr 1
      omega

/-- Two zeros stand behind the last string only. -/
theorem doubleZero_terminated (htexts : ∀ s ∈ strings, IsText s) (hne : strings ≠ [])
    (h : holds memory a (terminated strings ++ [0]) = true) {rounds : Nat} (hrounds : (terminated strings).length ≤ rounds) :
    doubleZero memory rounds a = some (a + (terminated strings).length - 1) := by
  induction strings generalizing a rounds with
  | nil => exact absurd rfl hne
  | cons s strings ih =>
      rw [List.forall_mem_cons] at htexts
      rw [terminated_cons] at h hrounds ⊢
      rw [List.length_append, List.length_cons] at hrounds
      rw [List.append_assoc, List.cons_append] at h
      obtain ⟨rounds, rfl⟩ := Nat.exists_eq_add_of_le' (show s.length + 1 ≤ rounds by omega)
      have hbehind := h
      rw [holds_append, Bool.and_eq_true, holds_cons] at hbehind
      rw [← Nat.add_assoc, Nat.add_right_comm, doubleZero_text h htexts.1.2, doubleZero]
      by_cases hlast : strings = []
      · subst hlast
        have hzero : memory (a + s.length + 1) = 0 := (holds_cons.1 hbehind.2.2).1
        rw [if_neg (by rw [hbehind.2.1, hzero]; exact fun h => h.elim (fun h => h rfl) fun h => h rfl), List.length_append]
        rfl
      · obtain ⟨s', rest, rfl⟩ := List.exists_cons_of_ne_nil hlast
        have hnext : memory (a + s.length + 1) ≠ 0 := by
          have := hbehind.2.2
          rw [terminated_cons, List.append_assoc] at this
          exact (htexts.2 s' List.mem_cons_self).first_ne this
        rw [if_pos (Or.inr hnext), ih htexts.2 hlast hbehind.2.2 (by omega), List.length_append, List.length_cons]
        have hpos : 0 < (terminated (s' :: rest)).length := by
          rw [terminated_cons, List.length_append, List.length_cons]
          omega
        congr 1
        omega

theorem smbiosTableLength_of_stands {raw : Nat} (htexts : ∀ s ∈ strings, IsText s)
    (hsize : (memory (raw + 1)).toNat + (stringSet strings).length < 2 ^ 16)
    (hstands : holds memory (firstString memory raw) (stringSet strings) = true) :
    smbiosTableLength memory raw = some ((memory (raw + 1)).toNat + (stringSet strings).length) := by
  have hend : doubleZero memory (2 ^ 64) (firstString memory raw) =
      some (firstString memory raw + (stringSet strings).length - 2) := by
    by_cases hne : strings = []
    · subst hne
      rw [show stringSet [] = [0, 0] from rfl, holds_cons, holds_cons] at hstands
      rw [show (2 : Nat) ^ 64 = 2 ^ 64 - 1 + 1 from rfl, doubleZero, if_neg (by simp [hstands.1, hstands.2.1])]
      rfl
    · rw [stringSet_of_ne hne] at hstands hsize ⊢
      rw [List.length_append, List.length_singleton] at hsize ⊢
      rw [doubleZero_terminated htexts hne hstands (by omega)]
      rfl
  have hlength : 2 ≤ (stringSet strings).length := by
    by_cases hne : strings = []
    · rw [hne]
      decide
    · obtain ⟨s, rest, rfl⟩ := List.exists_cons_of_ne_nil hne
      rw [stringSet_of_ne hne, terminated_cons, List.length_append, List.length_append, List.length_cons,
        List.length_singleton]
      omega
  rw [smbiosTableLength, hend, Option.map_some, firstString]
  congr 1
  rw [show raw + (memory (raw + 1)).toNat + (stringSet strings).length - 2 - raw + 2 =
    (memory (raw + 1)).toNat + (stringSet strings).length by omega, Nat.mod_eq_of_lt hsize]

theorem IsStructure.smbiosTableLength_eq {raw : Nat} (h : IsStructure memory raw strings) :
    smbiosTableLength memory raw = some ((memory (raw + 1)).toNat + (stringSet strings).length) :=
  smbiosTableLength_of_stands h.texts h.size h.stands

theorem length_terminated_cons (s : Bytes) (strings : List Bytes) :
    (terminated (s :: strings)).length = s.length + 1 + (terminated strings).length := by
  rw [terminated_cons, List.length_append, List.length_cons]
  omega

theorem length_le_terminated (strings : List Bytes) : strings.length ≤ (terminated strings).length := by
  induction strings with
  | nil => exact le_rfl
  | cons s strings ih =>
      rw [length_terminated_cons, List.length_cons]
      omega

theorem toNat_succ {c : UInt8} (h : c.toNat < 255) : (c + 1).toNat = c.toNat + 1 := by
  rw [UInt8.toNat_add, show (1 : UInt8).toNat = 1 from rfl, Nat.mod_eq_of_lt (by omega)]

section Place

variable {field : Nat}

/-- One round over a string that another one follows. -/
theorem placeFrom_skip (hs : IsText s) (h : holds memory a (s ++ 0 :: t) = true) (hnext : memory (a + s.length + 1) ≠ 0)
    (hshort : s.length < 2 ^ 64) {lIndex : UInt8} (hindex : lIndex ≠ memory field) (rounds : Nat) :
    placeFrom field memory (rounds + 1) lIndex a = placeFrom field memory rounds (lIndex + 1) (a + s.length + 1) := by
  rw [placeFrom, if_neg hindex]
  simp only [stringEnd_text h hs.2 hshort, Option.bind_eq_bind, Option.bind_some, if_pos (hs.first_ne h), if_neg hnext]

/-- The walk ends at the string the field refers to. -/
theorem placeFrom_found {before : List Bytes} (htexts : ∀ s ∈ before, IsText s) (hs : IsText s)
    (h : holds memory a (terminated before ++ (s ++ t)) = true) (hshort : (terminated before).length < 2 ^ 64)
    {lIndex : UInt8} (hindex : (memory field).toNat = lIndex.toNat + before.length) {rounds : Nat}
    (hrounds : before.length < rounds) :
    placeFrom field memory rounds lIndex a = some (memory, a + (terminated before).length) := by
  induction before generalizing a lIndex rounds with
  | nil =>
      obtain ⟨rounds, rfl⟩ := Nat.exists_eq_succ_of_ne_zero (Nat.ne_of_gt hrounds)
      rw [placeFrom, if_pos (UInt8.toNat_inj.1 hindex.symm)]
      rfl
  | cons b before ih =>
      rw [List.forall_mem_cons] at htexts
      rw [length_terminated_cons] at hshort ⊢
      rw [List.length_cons] at hindex hrounds
      rw [terminated_cons, List.append_assoc, List.cons_append] at h
      obtain ⟨rounds, rfl⟩ := Nat.exists_eq_succ_of_ne_zero (show rounds ≠ 0 by omega)
      have hbyte := (memory field).toNat_lt
      have hbehind := h
      rw [holds_append, Bool.and_eq_true, holds_cons] at hbehind
      have hnext : memory (a + b.length + 1) ≠ 0 := by
        have hrest := hbehind.2.2
        rcases before with _ | ⟨b', before⟩
        · exact hs.first_ne hrest
        · rw [terminated_cons, List.append_assoc] at hrest
          exact (htexts.2 b' List.mem_cons_self).first_ne hrest
      have hne : lIndex ≠ memory field := by
        intro heq
        rw [heq] at hindex
        omega
      rw [placeFrom_skip htexts.1 h hnext (by omega) hne,
        ih htexts.2 hbehind.2.2 (by omega) (by rw [toNat_succ (by omega)]; omega) (by omega)]
      congr 2
      omega

/-- Without a string to refer to the walk ends at the last zero, whose number the field is given. -/
theorem placeFrom_end (hfield : memory field = 0) (htexts : ∀ s ∈ strings, IsText s) (hne : strings ≠ [])
    (h : holds memory a (terminated strings ++ [0]) = true) (hshort : (terminated strings).length < 2 ^ 64)
    (lIndex : UInt8) (hindex : 0 < lIndex.toNat) (hnumbers : lIndex.toNat + strings.length ≤ 256) {rounds : Nat}
    (hrounds : strings.length ≤ rounds) :
    placeFrom field memory rounds lIndex a =
      some (store (store memory (a + (terminated strings).length + 1) [0]) field
        [UInt8.ofNat (lIndex.toNat + strings.length)], a + (terminated strings).length) := by
  induction strings generalizing a lIndex rounds with
  | nil => exact absurd rfl hne
  | cons s strings ih =>
      rw [List.forall_mem_cons] at htexts
      rw [length_terminated_cons] at hshort ⊢
      rw [List.length_cons] at hnumbers hrounds ⊢
      rw [terminated_cons, List.append_assoc, List.cons_append] at h
      obtain ⟨rounds, rfl⟩ := Nat.exists_eq_succ_of_ne_zero (show rounds ≠ 0 by omega)
      have hbehind := h
      rw [holds_append, Bool.and_eq_true, holds_cons] at hbehind
      have hzero : lIndex ≠ 0 := fun h0 => by rw [h0] at hindex; exact absurd hindex (by decide)
      by_cases hlast : strings = []
      · subst hlast
        have hend : memory (a + s.length + 1) = 0 := (holds_cons.1 hbehind.2.2).1
        have hterminator : stringEnd memory (2 ^ 64) a = some (a + s.length) := stringEnd_text h htexts.1.2 (by omega)
        have hone : lIndex + 1 ≠ 1 := fun h1 => hzero (by simpa using h1)
        have hnumber : lIndex + 1 = UInt8.ofNat (lIndex.toNat + ([] : List Bytes).length.succ) := by
          rw [List.length_nil, Nat.succ_eq_add_one, Nat.zero_add, UInt8.ofNat_add, UInt8.ofNat_toNat]
          rfl
        rw [placeFrom, if_neg (by rw [hfield]; exact hzero)]
        simp only [hterminator, Option.bind_eq_bind, Option.bind_some, if_pos (htexts.1.first_ne h), if_pos hend,
          if_pos hfield, if_neg hone]
        rw [hnumber]
        rfl
      · obtain ⟨s', rest, rfl⟩ := List.exists_cons_of_ne_nil hlast
        have hnext : memory (a + s.length + 1) ≠ 0 := by
          have hrest := hbehind.2.2
          rw [terminated_cons, List.append_assoc] at hrest
          exact (htexts.2 s' List.mem_cons_self).first_ne hrest
        have hsucc : (lIndex + 1).toNat = lIndex.toNat + 1 := toNat_succ (by rw [List.length_cons] at hnumbers; omega)
        rw [placeFrom_skip htexts.1 h hnext (by omega) (by rw [hfield]; exact hzero),
          ih htexts.2 hlast hbehind.2.2 (by omega) (lIndex + 1) (by omega) (by omega) (by omega), hsucc,
          show a + s.length + 1 + (terminated (s' :: rest)).length = a + (s.length + 1 + (terminated (s' :: rest)).length) by
            omega,
          show lIndex.toNat + 1 + (s' :: rest).length = lIndex.toNat + ((s' :: rest).length + 1) by omega]

end Place

theorem getSmbiosStringFrom_eq (htexts : ∀ s ∈ strings, IsText s) (hne : strings ≠ [])
    (h : holds memory a (terminated strings ++ [0]) = true) (hshort : (terminated strings).length < 2 ^ 64)
    (number lIndex : UInt8) (hnumbers : lIndex.toNat + strings.length ≤ 256) {rounds : Nat}
    (hrounds : strings.length ≤ rounds) :
    ∃ b, getSmbiosStringFrom memory number rounds lIndex a = some b ∧
      holds memory b ((if number.toNat < lIndex.toNat then [] else strings.getD (number.toNat - lIndex.toNat) []) ++ [0]) =
        true := by
  induction strings generalizing a lIndex rounds with
  | nil => exact absurd rfl hne
  | cons s strings ih =>
      rw [List.forall_mem_cons] at htexts
      rw [length_terminated_cons] at hshort
      rw [List.length_cons] at hnumbers hrounds
      rw [terminated_cons, List.append_assoc, List.cons_append] at h
      obtain ⟨rounds, rfl⟩ := Nat.exists_eq_succ_of_ne_zero (show rounds ≠ 0 by omega)
      have hterminator : stringEnd memory (2 ^ 64) a = some (a + s.length) := stringEnd_text h htexts.1.2 (by omega)
      have hbehind := h
      rw [holds_append, Bool.and_eq_true, holds_cons] at hbehind
      rw [getSmbiosStringFrom]
      by_cases hhere : lIndex = number
      · rw [if_pos hhere, if_neg (by rw [hhere]; exact lt_irrefl _), hhere, Nat.sub_self, List.getD_cons_zero]
        refine ⟨a, rfl, ?_⟩
        rw [holds_append, hbehind.1, Bool.true_and]
        exact holds_cons.2 ⟨hbehind.2.1, rfl⟩
      · have hne' : number.toNat ≠ lIndex.toNat := fun heq => hhere (UInt8.toNat_inj.1 heq.symm)
        simp only [if_neg hhere, hterminator, Option.bind_eq_bind, Option.bind_some]
        by_cases hlast : strings = []
        · subst hlast
          have hend : memory (a + s.length + 1) = 0 := (holds_cons.1 hbehind.2.2).1
          refine ⟨a + s.length + 1, if_pos hend, ?_⟩
          have hnone : (if number.toNat < lIndex.toNat then [] else [s].getD (number.toNat - lIndex.toNat) []) = [] := by
            split_ifs with hlt
            · rfl
            · rw [List.getD_eq_getElem?_getD, List.getElem?_eq_none (by rw [List.length_singleton]; omega), Option.getD_none]
          rw [hnone]
          exact holds_cons.2 ⟨hend, rfl⟩
        · obtain ⟨s', rest, rfl⟩ := List.exists_cons_of_ne_nil hlast
          have hnext : memory (a + s.length + 1) ≠ 0 := by
            have hrest := hbehind.2.2
            rw [terminated_cons, List.append_assoc] at hrest
            exact (htexts.2 s' List.mem_cons_self).first_ne hrest
          have hsucc : (lIndex + 1).toNat = lIndex.toNat + 1 := toNat_succ (by rw [List.length_cons] at hnumbers; omega)
          obtain ⟨b, hrun, hb⟩ := ih htexts.2 hlast hbehind.2.2 (by omega) (lIndex + 1) (by omega)
            (show (s' :: rest).length ≤ rounds by omega)
          refine ⟨b, by rw [if_neg hnext, hrun], ?_⟩
          rw [← hb, hsucc]
          by_cases hlt : number.toNat < lIndex.toNat
          · rw [if_pos hlt, if_pos (by omega)]
          · rw [if_neg hlt, if_neg (by omega), show number.toNat - lIndex.toNat = number.toNat - (lIndex.toNat + 1) + 1 by omega,
              List.getD_cons_succ]

/-- `GetSmbiosString` gives the string of a number, and an empty one for a number that refers to none. -/
theorem IsStructure.getSmbiosString_eq {raw : Nat} (h : IsStructure memory raw strings) (number : UInt8) :
    ∃ b, getSmbiosString memory raw number = some b ∧
      holds memory b ((stringOf strings number.toNat).getD [] ++ [0]) = true := by
  have hstands := h.stands
  have hsize := h.size
  have hnumbers := h.numbers
  by_cases hne : strings = []
  · subst hne
    have hzero : memory (firstString memory raw) = 0 := (holds_cons.1 hstands).1
    have hone : memory (firstString memory raw + 1) = 0 := (holds_cons.1 (holds_cons.1 hstands).2).1
    have hnone : (stringOf [] number.toNat).getD [] = [] := by
      cases number.toNat <;> rfl
    rw [hnone, getSmbiosString, show (2 : Nat) ^ 64 = 2 ^ 64 - 1 + 1 from rfl, getSmbiosStringFrom]
    split_ifs
    · exact ⟨_, rfl, holds_cons.2 ⟨hzero, rfl⟩⟩
    · have hterminator : stringEnd memory (2 ^ 64) (firstString memory raw) = some (firstString memory raw) :=
        stringEnd_text (s := []) hstands List.not_mem_nil (by decide)
      refine ⟨firstString memory raw + 1, ?_, holds_cons.2 ⟨hone, rfl⟩⟩
      simp only [hterminator, Option.bind_eq_bind, Option.bind_some, hone, if_true]
  · rw [stringSet_of_ne hne] at hstands hsize
    rw [List.length_append, List.length_singleton] at hsize
    have hcount := length_le_terminated strings
    obtain ⟨b, hrun, hb⟩ := getSmbiosStringFrom_eq h.texts hne hstands (by omega) number 1
      (by rw [show (1 : UInt8).toNat = 1 from rfl]; omega) (show strings.length ≤ 2 ^ 64 by omega)
    refine ⟨b, hrun, ?_⟩
    rw [← hb]
    congr 2
    rcases number.toNat with _ | i
    · rfl
    · rw [if_neg (by rw [show (1 : UInt8).toNat = 1 from rfl]; omega), show i + 1 - (1 : UInt8).toNat = i from rfl,
        stringOf, List.getD_eq_getElem?_getD]

/-! ### Moving the tail -/

theorem asciiStrnLenS_text (h : holds memory a (s ++ 0 :: t) = true) (hs : 0 ∉ s) (maxSize : Nat) :
    asciiStrnLenS memory maxSize a = min s.length maxSize := by
  induction maxSize generalizing a s with
  | zero => rw [asciiStrnLenS, Nat.min_zero]
  | succ maxSize ih =>
      rw [asciiStrnLenS]
      cases s with
      | nil =>
          rw [List.nil_append, holds_cons] at h
          rw [if_pos h.1, List.length_nil, Nat.zero_min]
      | cons c s =>
          obtain ⟨hc, hs⟩ := not_or.1 (mt List.mem_cons.2 hs)
          rw [List.cons_append, holds_cons] at h
          rw [if_neg (by rw [h.1]; exact Ne.symm hc), ih h.2 hs, List.length_cons]
          omega

theorem store_one (memory : Memory) (a : Nat) (c : UInt8) (x : Nat) :
    store memory a [c] x = if x = a then c else memory x := by
  unfold store
  rw [List.length_singleton]
  by_cases hx : x = a
  · rw [if_pos (by omega), if_pos hx, hx, Nat.sub_self]
    rfl
  · rw [if_neg (by omega), if_neg hx]

theorem copyDown_apply {count c1 c2 : Nat} (hlt : c1 < c2) (hcount : count ≤ c1) (x : Nat) :
    copyDown memory count c1 c2 x = if c2 ≤ x + count ∧ x < c2 then memory (x - (c2 - c1)) else memory x := by
  induction count generalizing memory c1 c2 with
  | zero => rw [copyDown, if_neg (by omega)]
  | succ count ih =>
      rw [copyDown, ih (by omega) (by omega), show c2 - 1 - (c1 - 1) = c2 - c1 by omega]
      by_cases hlast : x = c2 - 1
      · rw [if_neg (by omega), if_pos (by omega), store_one, if_pos hlast]
        congr 1
        omega
      · by_cases hin : c2 ≤ x + (count + 1) ∧ x < c2
        · rw [if_pos (by omega), if_pos hin, store_one, if_neg (by omega)]
        · rw [if_neg (by omega), if_neg hin, store_one, if_neg hlast]

theorem copyUp_apply {count c1 c2 : Nat} (hlt : c2 < c1) (x : Nat) :
    copyUp memory count c1 c2 x = if c2 ≤ x ∧ x < c2 + count then memory (x + (c1 - c2)) else memory x := by
  induction count generalizing memory c1 c2 with
  | zero => rw [copyUp, if_neg (by omega)]
  | succ count ih =>
      rw [copyUp, ih (by omega), show c1 + 1 - (c2 + 1) = c1 - c2 by omega]
      by_cases hfirst : x = c2
      · rw [if_neg (by omega), if_pos (by omega), store_one, if_pos hfirst]
        congr 1
        omega
      · by_cases hin : c2 ≤ x ∧ x < c2 + (count + 1)
        · rw [if_pos (by omega), if_pos hin, store_one, if_neg (by omega)]
        · rw [if_neg (by omega), if_neg hin, store_one, if_neg hfirst]

/-- The tail behind a string that is to have `b` characters. -/
theorem moveTail_spec {aString b : Nat} {u : Bytes} (h : holds memory aString (u ++ t) = true)
    (hlast : t.getLast? = some 0) :
    ∃ after, moveTail memory aString (aString + u.length + t.length) u.length b = some after ∧
      holds after (aString + b) t = true ∧ (∀ x < aString, after x = memory x) ∧
      (u.length < b → after (aString + b + t.length) = 0) := by
  rw [holds_append, Bool.and_eq_true] at h
  have htail : 0 < t.length := by
    rcases t with _ | ⟨c, t⟩
    · cases hlast
    · exact Nat.succ_pos _
  rw [moveTail]
  split_ifs with hlonger hmiss hshorter hmiss
  · omega
  · refine ⟨_, rfl, holds_of_getD fun i hi => ?_, fun x hx => ?_, fun _ => ?_⟩
    · rw [copyDown_apply (by omega) (by omega), if_pos (by omega), store_one, if_neg (by omega), ← holds_getD h.2 hi]
      congr 1
      omega
    · rw [copyDown_apply (by omega) (by omega), if_neg (by omega), store_one, if_neg (by omega)]
    · rw [copyDown_apply (by omega) (by omega), if_neg (by omega), store_one, if_pos (by omega)]
  · omega
  · have hcount : aString + u.length + t.length - (aString + u.length) = t.length := by omega
    rw [hcount]
    refine ⟨_, rfl, holds_of_getD fun i hi => ?_, fun x hx => ?_, fun hlt => absurd hlt hlonger⟩
    · rw [store_one]
      by_cases hend : i = t.length - 1
      · rw [if_pos (by omega), hend, List.getD_eq_getElem?_getD, ← List.getLast?_eq_getElem?, hlast]
        rfl
      · rw [if_neg (by omega), store_one, if_neg (by omega), copyUp_apply (by omega), if_pos (by omega), ← holds_getD h.2 hi]
        congr 1
        omega
    · rw [store_one, if_neg (by omega), store_one, if_neg (by omega), copyUp_apply (by omega), if_neg (by omega)]
  · have hsame : b = u.length := by omega
    exact ⟨memory, rfl, hsame ▸ h.2, fun _ _ => rfl, fun hlt => absurd hlt hlonger⟩

/-- The text in the place of a string: of a string beyond the longest, what is behind its first 65 characters stays. -/
theorem write_spec {aString : Nat} (h : holds memory aString (s ++ 0 :: t) = true) (hs : 0 ∉ s)
    (hlast : (0 :: t).getLast? = some 0) (text : Bytes) :
    ∃ moved, moveTail memory aString (aString + s.length + 1 + t.length) (asciiStrnLenS memory stringMaxLength aString)
        text.length = some moved ∧
      holds (store (store moved aString text) (aString + text.length) [0]) aString
        (text ++ 0 :: (s.drop stringMaxLength ++ 0 :: t).tail) = true ∧
      (∀ x < aString, store (store moved aString text) (aString + text.length) [0] x = memory x) ∧
      (s.length < text.length → s.length ≤ stringMaxLength →
        store (store moved aString text) (aString + text.length) [0] (aString + text.length + 1 + t.length) = 0) := by
  have hsplit : s ++ 0 :: t = s.take stringMaxLength ++ (s.drop stringMaxLength ++ 0 :: t) := by
    rw [← List.append_assoc, List.take_append_drop]
  have hlength : (s.take stringMaxLength).length = min s.length stringMaxLength := by rw [List.length_take, Nat.min_comm]
  have htail : (s.drop stringMaxLength ++ 0 :: t).length = s.length - stringMaxLength + 1 + t.length := by
    rw [List.length_append, List.length_drop, List.length_cons]
    omega
  have hlast' : (s.drop stringMaxLength ++ 0 :: t).getLast? = some 0 := by
    rw [List.getLast?_append, hlast]
    rfl
  rw [asciiStrnLenS_text h hs, ← hlength]
  rw [hsplit] at h
  obtain ⟨moved, hrun, hmoved, hframe, hzero⟩ := moveTail_spec (b := text.length) h hlast'
  refine ⟨moved, ?_, ?_, fun x hx => ?_, fun hlt hle => ?_⟩
  · rw [← hrun, htail, hlength]
    congr 1
    omega
  · obtain ⟨c, rest, hrest⟩ := List.exists_cons_of_ne_nil (List.ne_nil_of_length_pos (by omega : 0 < (s.drop stringMaxLength ++ 0 :: t).length))
    rw [hrest, holds_cons] at hmoved
    rw [hrest, List.tail_cons, holds_append, Bool.and_eq_true, holds_cons]
    refine ⟨?_, ?_, ?_⟩
    · rw [holds_store_before le_rfl, holds_store]
    · rw [store_one, if_pos rfl]
    · rw [← hmoved.2]
      apply holds_congr
      intro i hi
      rw [store_one, if_neg (by omega), store_outside (Or.inr (by omega))]
  · rw [store_one, if_neg (by omega), store_outside (Or.inl hx), hframe x hx]
  · have := hzero (by rw [hlength]; omega)
    rw [htail, Nat.sub_eq_zero_of_le hle] at this
    rw [store_one, if_neg (by omega), store_outside (Or.inr (by omega)), ← this]
    congr 1
    omega

/-! ### The update -/

section Update

variable {raw field : Nat}

/-- What of a buffer becomes the string. -/
def bufferText (buffer : Bytes) : Bytes := (cstr buffer).take stringMaxLength

/-- The update from the place the walk has found, with the strings up to the end of the structure behind it. -/
theorem updateSmbiosString_eq {placed : Memory} {aString : Nat} (h : IsStructure memory raw strings) (hraw : raw ≠ 0)
    (hfield : field ≠ 0) (hplace : placeFrom field memory (2 ^ 64) 1 (firstString memory raw) = some (placed, aString))
    (hs : holds placed aString (s ++ 0 :: t) = true) (hzero : 0 ∉ s) (hlast : (0 :: t).getLast? = some 0)
    (hend : aString + s.length + 1 + t.length = firstString memory raw + (stringSet strings).length) (buffer : Bytes) :
    ∃ after, updateSmbiosString memory raw field (some buffer) = some (after, .success) ∧
      holds after aString (bufferText buffer ++ 0 :: (s.drop stringMaxLength ++ 0 :: t).tail) = true ∧
      (∀ x < aString, after x = placed x) ∧
      (s.length < (bufferText buffer).length → s.length ≤ stringMaxLength →
        after (aString + (bufferText buffer).length + 1 + t.length) = 0) := by
  obtain ⟨moved, hmove, hrest⟩ := write_spec hs hzero hlast (bufferText buffer)
  refine ⟨_, ?_, hrest⟩
  rw [updateSmbiosString, h.smbiosTableLength_eq, Option.bind_eq_bind, Option.bind_some]
  simp only [hraw, hfield, or_self, if_false, hplace]
  rw [← Nat.add_assoc, ← firstString, ← hend, ← bufferText, Option.bind_eq_bind, Option.bind_some, hmove]
  rfl

theorem terminated_length_append (before behind : List Bytes) (s : Bytes) :
    (stringSet (before ++ s :: behind)).length =
      (terminated before).length + s.length + 1 + (terminated behind ++ [0]).length := by
  rw [stringSet_of_ne (List.append_ne_nil_of_right_ne_nil _ (List.cons_ne_nil _ _)), terminated_append, terminated_cons]
  simp only [List.length_append, List.length_cons]
  omega

/-- The update of a string that is there. -/
theorem updateSmbiosString_existing {before behind : List Bytes} (h : IsStructure memory raw (before ++ s :: behind))
    (hraw : raw ≠ 0) (hfield : raw + 4 ≤ field) (hnumber : (memory field).toNat = before.length + 1) (buffer : Bytes) :
    ∃ after, updateSmbiosString memory raw field (some buffer) = some (after, .success) ∧
      holds after (firstString memory raw) (terminated before ++
        (bufferText buffer ++ 0 :: (s.drop stringMaxLength ++ 0 :: (terminated behind ++ [0])).tail)) = true ∧
      ∀ x < firstString memory raw, after x = memory x := by
  have htexts := h.texts
  have hnumbers := h.numbers
  have hsize := h.size
  have hstands := h.stands
  rw [List.forall_mem_append, List.forall_mem_cons] at htexts
  rw [List.length_append, List.length_cons] at hnumbers
  rw [terminated_length_append] at hsize
  rw [stringSet_of_ne (List.append_ne_nil_of_right_ne_nil _ (List.cons_ne_nil _ _)), terminated_append, terminated_cons,
    List.append_assoc, List.append_assoc, List.cons_append] at hstands
  have hplace : placeFrom field memory (2 ^ 64) 1 (firstString memory raw) =
      some (memory, firstString memory raw + (terminated before).length) :=
    placeFrom_found htexts.1 htexts.2.1 hstands (by omega) (by rw [hnumber, Nat.add_comm]; rfl) (by omega)
  rw [holds_append, Bool.and_eq_true] at hstands
  obtain ⟨after, hrun, hafter, hframe, -⟩ := updateSmbiosString_eq h hraw (by omega) hplace hstands.2 htexts.2.1.2
    (by rw [List.getLast?_cons, List.getLast?_append]; rfl) (by rw [terminated_length_append]; omega) buffer
  refine ⟨after, hrun, ?_, fun x hx => hframe x (by omega)⟩
  rw [holds_append, hafter, Bool.and_true, ← hstands.1]
  exact holds_congr fun i hi => hframe _ (by omega)

/-- The update of a field that refers to no string. -/
theorem updateSmbiosString_missing (h : IsStructure memory raw strings) (hraw : raw ≠ 0) (hfield : raw + 4 ≤ field)
    (hinside : field < firstString memory raw) (hnumber : memory field = 0) (buffer : Bytes) :
    ∃ after, updateSmbiosString memory raw field (some buffer) = some (after, .success) ∧
      holds after (firstString memory raw)
        (stringSet (if bufferText buffer = [] then strings else strings ++ [bufferText buffer])) = true ∧
      after field = UInt8.ofNat (strings.length + 1) ∧ ∀ x < firstString memory raw, x ≠ field → after x = memory x := by
  have hstands := h.stands
  have hsize := h.size
  have hnumbers := h.numbers
  by_cases hne : strings = []
  · subst hne
    rw [show stringSet [] = [] ++ 0 :: [0] from rfl] at hstands
    have hone : memory (firstString memory raw + 1) = 0 := (holds_cons.1 (holds_cons.1 hstands).2).1
    have hterminator : stringEnd memory (2 ^ 64) (firstString memory raw) = some (firstString memory raw) :=
      stringEnd_text hstands List.not_mem_nil (by decide)
    have hplace : placeFrom field memory (2 ^ 64) 1 (firstString memory raw) =
        some (store (store memory (firstString memory raw + 1 + 1) [0]) field [1], firstString memory raw) := by
      rw [show (2 : Nat) ^ 64 = 2 ^ 64 - 1 + 1 from rfl, placeFrom, if_neg (by rw [hnumber]; decide)]
      simp only [hterminator, Option.bind_eq_bind, Option.bind_some,
        (holds_cons.1 hstands).1, hone, hnumber]
      rfl
    have hplaced : holds (store (store memory (firstString memory raw + 1 + 1) [0]) field [1]) (firstString memory raw)
        ([] ++ 0 :: [0]) = true := by
      rw [← hstands]
      apply holds_congr
      intro i hi
      simp only [List.nil_append, List.length_cons, List.length_nil] at hi
      rw [store_one, if_neg (by omega), store_one, if_neg (by omega)]
    obtain ⟨after, hrun, hafter, hframe, -⟩ := updateSmbiosString_eq h hraw (by omega) hplace hplaced List.not_mem_nil
      rfl rfl buffer
    refine ⟨after, hrun, ?_, ?_, fun x hx hxfield => ?_⟩
    · split_ifs with htext
      · rw [htext] at hafter
        exact hafter
      · rw [List.nil_append, stringSet_of_ne (List.cons_ne_nil _ _), terminated_cons, List.append_assoc]
        exact hafter
    · rw [hframe field hinside, store_one, if_pos rfl]
      rfl
    · rw [hframe x hx, store_one, if_neg hxfield, store_one, if_neg (by omega)]
  · rw [stringSet_of_ne hne] at hstands hsize
    rw [List.length_append, List.length_singleton] at hsize
    have hcount := length_le_terminated strings
    have hplace := placeFrom_end hnumber h.texts hne hstands (by omega) 1 (by decide)
      (by rw [show (1 : UInt8).toNat = 1 from rfl]; omega) (show strings.length ≤ 2 ^ 64 by omega)
    rw [holds_append, Bool.and_eq_true] at hstands
    have hlow : ∀ x < firstString memory raw + (terminated strings).length, x ≠ field →
        store (store memory (firstString memory raw + (terminated strings).length + 1) [0]) field
          [UInt8.ofNat ((1 : UInt8).toNat + strings.length)] x = memory x := by
      intro x hx hxfield
      rw [store_one, if_neg hxfield, store_one, if_neg (by omega)]
    have hplaced : holds (store (store memory (firstString memory raw + (terminated strings).length + 1) [0]) field
        [UInt8.ofNat ((1 : UInt8).toNat + strings.length)]) (firstString memory raw + (terminated strings).length)
        ([] ++ 0 :: []) = true := by
      rw [List.nil_append, holds_cons, store_one, if_neg (by omega), store_one, if_neg (by omega)]
      exact ⟨(holds_cons.1 hstands.2).1, rfl⟩
    obtain ⟨after, hrun, hafter, hframe, hend⟩ := updateSmbiosString_eq h hraw (by omega) hplace hplaced List.not_mem_nil rfl
      (by rw [stringSet_of_ne hne, List.length_append, List.length_nil, List.length_singleton]; rfl) buffer
    have hbefore : holds after (firstString memory raw) (terminated strings) = true := by
      rw [← hstands.1]
      exact holds_congr fun i hi => (hframe _ (by omega)).trans (hlow _ (by omega) (by omega))
    refine ⟨after, hrun, ?_, ?_, fun x hx hxfield => (hframe x (by omega)).trans (hlow x (by omega) hxfield)⟩
    · split_ifs with htext
      · rw [htext] at hafter
        rw [stringSet_of_ne hne, holds_append, hbefore, Bool.true_and]
        exact hafter
      · have hpos : 0 < (bufferText buffer).length := List.length_pos_of_ne_nil htext
        have hzero := hend hpos (Nat.zero_le _)
        rw [stringSet_of_ne (List.append_ne_nil_of_right_ne_nil _ (List.cons_ne_nil _ _)), terminated_append,
          List.append_assoc, holds_append, hbefore, Bool.true_and, terminated_cons, List.append_assoc, holds_append,
          Bool.and_eq_true]
        have hboth := hafter
        rw [holds_append, Bool.and_eq_true, holds_cons] at hboth
        refine ⟨hboth.1, holds_cons.2 ⟨hboth.2.1, holds_cons.2 ⟨?_, rfl⟩⟩⟩
        exact hzero
    · rw [hframe field (by omega), store_one, if_pos rfl, Nat.add_comm]
      rfl

end Update

end BareBoot.Smbios
