import BareBoot.DsdtProgress

/-! When `FixAny` replaces every occurrence of a byte string in the DSDT behind its first twenty bytes. It
passes over the byte behind each replacement, its last search looks behind the end of the table, and it
takes an empty string to stand everywhere. -/

namespace BareBoot.Acpi

open Replacement

section Specification

variable (find replace : DataBytes) (dsdt : Block) (len : Nat)

/-- The table that the patch is for. -/
def replacedTable : List UInt8 :=
  segment dsdt.byte 0 (min 20 len) ++ replaceAll find.1 replace.1 (segment dsdt.byte 20 (len - 20))

/-- `FixAny` returns with that table and its length. -/
def Replaced : Prop :=
  ∃ after, fixAny dsdt len (.ofBytes find replace) = some (after, (replacedTable find replace dsdt len).length) ∧
    segment after.byte 0 (replacedTable find replace dsdt len).length = replacedTable find replace dsdt len

/-- No occurrence taken stands directly behind the one before. -/
def OccurrencesApart : Prop :=
  (takenFrom find.1 0 20 (segment dsdt.byte 20 (len - 20))).IsChain fun q q' => q + find.1.length < q'

/-- The search behind the last match leaves the table as it is then. -/
def EndsWell : Prop :=
  let found := hits dsdt.byte find.byte find.1.length len (2 ^ 32) 20
  EndsAt find replace len dsdt.byte found.1 found.2

/-- The table is too short for the search. -/
def Short : Prop := len ≤ 20 ∨ len < u32 (find.1.length + 20)

/-- What `FixAny` needs to replace every occurrence. -/
def Replaceable : Prop :=
  Short find len ∨ len < 2 ^ 31 ∧ (replacedTable find replace dsdt len).length < 2 ^ 31 ∧ find.1.length + 20 ≤ len ∧
    (replace = find ∨ 0 < find.1.length ∧ OccurrencesApart find dsdt len ∧ EndsWell find replace dsdt len)

/-- No length wraps, and an occurrence that is passed over is not made up for by words that overlap. -/
structure Regular : Prop where
  table : len < 2 ^ 30
  replacement : replace.1.length < 2 ^ 30
  result : (replacedTable find replace dsdt len).length < 2 ^ 30
  found : find.1.length ≤ (replacedTable find replace dsdt len).length
  inserted : find.1.length = 0 → len + (len - 20) * replace.1.length < 2 ^ 30
  apart : replace.1.length = find.1.length ∨ OccurrencesApart find dsdt len

end Specification

/-! ### Replacements of the same length -/

section Same

variable {find replace : DataBytes} {b dsdt : Block} {len p : Nat}

/-- The round of the loop that replaces what the search finds. -/
theorem fixLoop_same (hsame : replace.1.length = find.1.length) (hN : find.1.length ≤ len) (hlen : len < 2 ^ 31)
    (hp : p < len) {j : Nat} (hj : j < len - find.1.length)
    (hsearch : findBin dsdt.byte p len find.byte find.1.length = some (j : Int)) (rounds : Nat) :
    ∃ dsdt', fixLoop (.ofBytes find replace) find.byte (rounds + 1) p len dsdt =
        fixLoop (.ofBytes find replace) find.byte rounds (p + j + find.1.length + 1) len dsdt' ∧
      (∀ y, y < p + j ∨ p + j + find.1.length ≤ y → dsdt'.byte y = dsdt.byte y) ∧
      ∀ t < find.1.length, dsdt'.byte (p + j + t) = replace.byte t := by
  have hfind := Patch.lenToFind_ofBytes find replace
  have hto := Patch.lenToReplace_ofBytes find replace
  have hoffset : (Patch.ofBytes find replace).sizeOffset = 0 := by
    rw [sizeOffset_eq (by omega) (by omega)]
    omega
  have hbytes : ∀ y, (moveData (p + j) dsdt len 0).1.byte y = dsdt.byte y := by
    intro y
    rw [moveData, if_neg (by omega), byte_moveToBack]
    exact ite_self _
  have hmoved : (moveData (p + j) dsdt len 0).2 = len := by
    rw [moveData]
    unfold u32
    omega
  refine ⟨(Patch.ofBytes find replace).put (p + j) (moveData (p + j) dsdt len 0).1, ?_, ?_, ?_⟩
  · rw [fixLoop, if_pos hp, hfind, hsearch]
    simp only [hoffset, hto, hsame, show u32 ((p : Int) + j) = p + j by unfold u32; omega, hmoved]
    rw [if_neg (by omega), show u32 (((p + j : Nat) : Int) + find.1.length + 1) = p + j + find.1.length + 1 by
      unfold u32; omega]
  · intro y hy
    rw [byte_put (by omega), hbytes]
  · intro t ht
    exact byte_put_inside rfl (by omega)

theorem fixLoop_same_front (hsame : replace.1.length = find.1.length) (hN : find.1.length ≤ len) (hlen : len < 2 ^ 31)
    {rounds n : Nat} {after : Block}
    (hrun : fixLoop (.ofBytes find replace) find.byte rounds p len dsdt = some (after, n)) :
    n = len ∧ ∀ a < p, after.byte a = dsdt.byte a := by
  induction rounds generalizing p dsdt with
  | zero => cases hrun
  | succ rounds ih =>
      by_cases hp : p < len
      · cases hsearch : findBin dsdt.byte p len find.byte find.1.length with
        | none =>
            rw [fixLoop, if_pos hp, Patch.lenToFind_ofBytes, hsearch] at hrun
            cases hrun
        | some adr =>
            by_cases hneg : adr < 0
            · rw [fixLoop, if_pos hp, Patch.lenToFind_ofBytes, hsearch] at hrun
              dsimp only at hrun
              rw [if_pos hneg, Option.some.injEq, Prod.mk.injEq] at hrun
              obtain ⟨rfl, rfl⟩ := hrun
              exact ⟨rfl, fun _ _ => rfl⟩
            · obtain ⟨j, rfl, hj, -⟩ := findBin_pos hN hlen hsearch hneg
              obtain ⟨dsdt', hround, hout, -⟩ := fixLoop_same hsame hN hlen hp hj hsearch rounds
              rw [hround] at hrun
              obtain ⟨hn, hfront⟩ := ih hrun
              refine ⟨hn, ?_⟩
              intro a ha
              rw [hfront a (by omega), hout a (by omega)]
      · rw [fixLoop, if_neg hp, Option.some.injEq, Prod.mk.injEq] at hrun
        obtain ⟨rfl, rfl⟩ := hrun
        exact ⟨rfl, fun _ _ => rfl⟩

/-- A string replaced by itself. -/
theorem fixLoop_self (hN : find.1.length ≤ len) (hlen : len < 2 ^ 31) (rounds : Nat) (hrounds : len < rounds + p)
    (hpos : 0 < rounds) :
    ∃ after, fixLoop (.ofBytes find find) find.byte rounds p len dsdt = some (after, len) ∧
      ∀ a, after.byte a = dsdt.byte a := by
  induction rounds generalizing p dsdt with
  | zero => omega
  | succ rounds ih =>
      by_cases hp : p < len
      · obtain ⟨adr, hsearch⟩ : ∃ adr, findBin dsdt.byte p len find.byte find.1.length = some adr := by
          rw [findBin, if_pos hN]
          split <;> exact ⟨_, rfl⟩
        by_cases hneg : adr < 0
        · refine ⟨dsdt, ?_, fun _ => rfl⟩
          rw [fixLoop, if_pos hp, Patch.lenToFind_ofBytes, hsearch]
          exact if_pos hneg
        · obtain ⟨j, rfl, hj, hmatch⟩ := findBin_pos hN hlen hsearch hneg
          obtain ⟨dsdt', hround, hout, hin⟩ := fixLoop_same rfl hN hlen hp hj hsearch rounds
          obtain ⟨after, hrun, hbytes⟩ := @ih dsdt' (p + j + find.1.length + 1) (by omega) (by omega)
          refine ⟨after, hround.trans hrun, ?_⟩
          intro a
          rw [hbytes]
          by_cases ha : a < p + j ∨ p + j + find.1.length ≤ a
          · exact hout a ha
          · obtain ⟨t, rfl⟩ : ∃ t, a = p + j + t := ⟨a - (p + j), by omega⟩
            rw [hin t (by omega), matchesAt_byte hmatch (by omega)]
      · refine ⟨dsdt, ?_, fun _ => rfl⟩
        rw [fixLoop, if_neg hp]

/-- An occurrence passed over is replaced all the same only where the replacement is the string itself. -/
theorem bytes_of_passed (hsame : replace.1.length = find.1.length) (hN : find.1.length ≤ len) (hlen : len < 2 ^ 31)
    {rounds n : Nat} {after : Block} (hmatch : matchesAt dsdt.byte p find.byte find.1.length = true)
    (hrun : fixLoop (.ofBytes find replace) find.byte rounds (p + 1) len dsdt = some (after, n))
    (htext : ∀ t < find.1.length, after.byte (p + t) = replace.byte t) {t : Nat} (ht : t < find.1.length) :
    replace.byte t = find.byte t := by
  cases rounds with
  | zero => cases hrun
  | succ rounds =>
      by_cases hp : p + 1 < len
      · cases hsearch : findBin dsdt.byte (p + 1) len find.byte find.1.length with
        | none =>
            rw [fixLoop, if_pos hp, Patch.lenToFind_ofBytes, hsearch] at hrun
            cases hrun
        | some adr =>
            by_cases hneg : adr < 0
            · rw [fixLoop, if_pos hp, Patch.lenToFind_ofBytes, hsearch] at hrun
              dsimp only at hrun
              rw [if_pos hneg, Option.some.injEq, Prod.mk.injEq] at hrun
              rw [← htext t ht, ← hrun.1, matchesAt_byte hmatch ht]
            · obtain ⟨j, rfl, hj, hfound⟩ := findBin_pos hN hlen hsearch hneg
              obtain ⟨dsdt', hround, hout, hin⟩ := fixLoop_same hsame hN hlen hp hj hsearch rounds
              rw [hround] at hrun
              have hfront := (fixLoop_same_front hsame hN hlen hrun).2
              -- The bytes repeat with the distance of the two occurrences.
              induction t using Nat.strong_induction_on with
              | _ t ih =>
                  rw [← htext t ht, hfront _ (by omega)]
                  rcases Nat.lt_or_ge t (j + 1) with hbefore | hbehind
                  · rw [hout _ (by omega), matchesAt_byte hmatch ht]
                  · have hshift : p + t = p + 1 + j + (t - (j + 1)) := by omega
                    rw [hshift, hin _ (by omega), ih (t - (j + 1)) (by omega) (by omega),
                      ← matchesAt_byte hfound (by omega), ← hshift, matchesAt_byte hmatch ht]
      · rw [fixLoop, if_neg hp, Option.some.injEq, Prod.mk.injEq] at hrun
        rw [← htext t ht, ← hrun.1, matchesAt_byte hmatch ht]

theorem DataBytes.eq_of_bytes (hsame : replace.1.length = find.1.length)
    (h : ∀ t < find.1.length, replace.byte t = find.byte t) : replace = find := by
  apply Subtype.ext
  rw [← segment_bytes replace, ← segment_bytes find, hsame]
  exact segment_eq_iff.mpr fun t ht => by rw [Nat.zero_add, h t ht]

/-- With replacements of the same length an occurrence directly behind the one before is missed. -/
theorem eq_of_adjacent (hsame : replace.1.length = find.1.length) (hpos : 0 < find.1.length)
    (hN : find.1.length ≤ len) (hlen : len < 2 ^ 31) {rounds n : Nat} {after : Block}
    (hrest : ∀ a, p ≤ a → dsdt.byte a = b.byte a) (hp0 : 0 < p)
    (hadjacent : ¬ (takenAt find b.byte len p).IsChain fun q q' => q + find.1.length < q')
    (hrun : fixLoop (.ofBytes find replace) find.byte rounds p len dsdt = some (after, n))
    (htext : segment after.byte p (len - p) = replacedFrom find replace b.byte len p) : replace = find := by
  induction rounds generalizing p dsdt with
  | zero => cases hrun
  | succ rounds ih =>
      cases hnext : nextHit b.byte find.byte find.1.length len p with
      | none =>
          rw [takenAt_none hpos hnext] at hadjacent
          exact absurd List.isChain_nil hadjacent
      | some hit =>
          obtain ⟨hp, hin, hmatch, hbefore⟩ := nextHit_some hnext
          have hsearch : findBin dsdt.byte p len find.byte find.1.length = some ((hit - p : Nat) : Int) := by
            rw [findBin_congr hrest]
            apply findBin_some hN (by omega) (by omega)
            · rw [Nat.add_sub_cancel' hp]
              exact hmatch
            · exact fun j hj => hbefore j (by omega)
          obtain ⟨dsdt', hround, hout, hput⟩ := fixLoop_same hsame hN hlen (by omega) (by omega) hsearch rounds
          rw [hround, Nat.add_sub_cancel' hp] at hrun
          rw [Nat.add_sub_cancel' hp] at hout
          have hrest' : ∀ a, hit + find.1.length ≤ a → dsdt'.byte a = b.byte a := by
            intro a ha
            rw [hout a (Or.inr ha), hrest a (by omega)]
          have htail : segment after.byte (hit + find.1.length) (len - (hit + find.1.length)) =
              replacedFrom find replace b.byte len (hit + find.1.length) := by
            have hdrop := congrArg (List.drop (hit - p + find.1.length)) htext
            rw [drop_segment, replacedFrom_hit hpos hnext, ← List.append_assoc, List.drop_left'
              (by rw [List.length_append, length_segment, hsame]), ← Nat.add_assoc, Nat.add_sub_cancel' hp] at hdrop
            rw [← hdrop]
            exact congrArg (segment after.byte (hit + find.1.length)) (by omega)
          by_cases hhere : hit + find.1.length + find.1.length ≤ len ∧
              matchesAt b.byte (hit + find.1.length) find.byte find.1.length = true
          · have hmatch' : matchesAt dsdt'.byte (hit + find.1.length) find.byte find.1.length = true := by
              rw [← hhere.2]
              exact matchesAt_congr fun j _ => hrest' _ (Nat.le_add_right _ j)
            have hpre : find.1 <+: segment b.byte (hit + find.1.length) (len - (hit + find.1.length)) :=
              prefix_segment_iff.mpr ⟨by omega, hhere.2⟩
            have htake := congrArg (List.take find.1.length) htail
            rw [replacedFrom, replaceFrom_match hpos hpre, take_segment _ _ (by omega), List.take_left' hsame,
              ← segment_bytes replace, hsame, segment_eq_iff] at htake
            apply DataBytes.eq_of_bytes hsame
            intro t ht
            apply bytes_of_passed hsame hN hlen hmatch' hrun _ ht
            intro t ht
            rw [htake t ht, Nat.zero_add]
          · apply ih (fun a ha => hrest' a (by omega)) (by omega) _ hrun _
            · intro hchain
              apply hadjacent
              rw [takenAt_hit hpos hnext, takenAt_pass hpos hhere, List.isChain_cons]
              refine ⟨?_, hchain⟩
              intro q hq
              exact le_of_mem_takenFrom (List.mem_of_mem_head? hq)
            · rcases Nat.lt_or_ge (hit + find.1.length) len with hmore | hlast
              · have hdrop := congrArg (List.drop 1) htail
                rw [drop_segment, replacedFrom_pass hpos hhere, Nat.min_eq_left (by omega),
                  List.drop_left' (length_segment _ _ _)] at hdrop
                rw [← hdrop]
                exact congrArg (segment after.byte (hit + find.1.length + 1)) (by omega)
              · rw [replacedFrom, show len - (hit + find.1.length + 1) = 0 by omega]
                rfl

/-- An empty string is found everywhere, and each time the replacement goes in. -/
theorem fixLoop_empty (hempty : find.1.length = 0) {rounds n : Nat} {after : Block} (hp : p ≤ len)
    (hbound : len + (len - p) * replace.1.length < 2 ^ 30) (hreplace : replace.1.length < 2 ^ 30)
    (hrun : fixLoop (.ofBytes find replace) find.byte rounds p len dsdt = some (after, n)) :
    n = len + (len - p) * replace.1.length := by
  induction rounds generalizing p len dsdt with
  | zero => cases hrun
  | succ rounds ih =>
      rcases Nat.lt_or_ge p len with hin | hout
      · obtain ⟨m, hm⟩ : ∃ m, len = p + (m + 1) := ⟨len - p - 1, by omega⟩
        have hleft : len - p = m + 1 := by omega
        rw [hleft, Nat.succ_mul] at hbound ⊢
        have hsearch : findBin dsdt.byte p len find.byte find.1.length = some ((0 : Nat) : Int) := by
          rw [hempty]
          exact findBin_some (Nat.zero_le len) (by omega) (by omega) rfl (fun j hj => by omega)
        have hoffset : (Patch.ofBytes find replace).sizeOffset = replace.1.length := by
          rw [sizeOffset_eq, Patch.lenToFind_ofBytes, Patch.lenToReplace_ofBytes, hempty]
          · omega
          · rw [Patch.lenToReplace_ofBytes]
            omega
          · rw [Patch.lenToFind_ofBytes]
            omega
        have hmoved : (moveData p dsdt len (replace.1.length : Int)).2 = len + replace.1.length := by
          rw [moveData]
          unfold u32
          omega
        rw [fixLoop, if_pos hin, Patch.lenToFind_ofBytes, hsearch] at hrun
        simp only [hoffset, Patch.lenToReplace_ofBytes] at hrun
        rw [if_neg (by omega), show u32 ((p : Int) + ((0 : Nat) : Int)) = p by unfold u32; omega, hmoved,
          show u32 ((p : Int) + replace.1.length + 1) = p + replace.1.length + 1 by unfold u32; omega] at hrun
        have hrest : len + replace.1.length - (p + replace.1.length + 1) = m := by omega
        have := ih (by omega) (by rw [hrest]; omega) hrun
        rw [hrest] at this
        omega
      · rw [fixLoop, if_neg (by omega), Option.some.injEq, Prod.mk.injEq] at hrun
        rw [show len - p = 0 by omega, Nat.zero_mul, Nat.add_zero]
        exact hrun.2.symm

end Same

/-! ### One call -/

section Call

variable {find replace : DataBytes} {dsdt : Block} {len : Nat}

theorem progress_start {patch : Patch} (h : 20 ≤ len) : Progress patch dsdt len 0 20 (segment dsdt.byte 0 20) dsdt where
  toReached := reached_start patch dsdt h
  written := by rw [length_segment]
  reach := by rw [length_segment, Nat.min_eq_left h, lenAfter_zero]
  rest := fun _ _ => rfl

theorem replacedTable_eq (hpos : 0 < find.1.length) (h : 20 ≤ len) :
    replacedTable find replace dsdt len = segment dsdt.byte 0 20 ++ replacedFrom find replace dsdt.byte len 20 := by
  rw [replacedTable, Nat.min_eq_left h, replaceAll_eq hpos]

theorem length_replacedTable (hpos : 0 < find.1.length) (h : 20 ≤ len) :
    (replacedTable find replace dsdt len).length =
      (Patch.ofBytes find replace).lenAfter len (takenAt find dsdt.byte len 20).length := by
  have hlength := @length_replaceFrom UInt8 _ find.1 replace.1 (segment dsdt.byte 20 (len - 20)) hpos 0 20 (Nat.zero_le _)
  rw [length_segment] at hlength
  rw [replacedTable_eq hpos h, List.length_append, length_segment, Patch.lenAfter, Patch.lenToFind_ofBytes,
    Patch.lenToReplace_ofBytes, takenAt, replacedFrom]
  omega

/-- Of two tables in bounds, those with fewer replacements are. -/
theorem lenAfter_lt {patch : Patch} {count m : Nat} (hlen : len < 2 ^ 31) (h : patch.lenAfter len count < 2 ^ 31)
    (hm : m ≤ count) : patch.lenAfter len m < 2 ^ 31 := by
  rcases Nat.le_total patch.lenToFind patch.lenToReplace with hgrow | hshrink
  · exact (lenAfter_mono hgrow hm).trans_lt h
  · exact (lenAfter_le hshrink).trans_lt hlen

theorem fixAny_search (h : find.1.length + 20 ≤ len) (hlen : len < 2 ^ 31) :
    fixAny dsdt len (.ofBytes find replace) = fixLoop (.ofBytes find replace) find.byte (2 ^ 32) 20 len dsdt := by
  have := @fixAny_find (Patch.ofBytes find replace) dsdt len find.byte rfl
    (by rw [Patch.lenToFind_ofBytes]; unfold u32; omega)
  rwa [lenAfter_zero, lenAfter_zero] at this

/-- The call comes to the end of the greedy scan. -/
theorem fixAny_apart (hpos : 0 < find.1.length) (hroom : find.1.length + 20 ≤ len) (hlen : len < 2 ^ 31)
    (hsize : (replacedTable find replace dsdt len).length < 2 ^ 31) (hapart : OccurrencesApart find dsdt len) :
    ∃ q left front dsdt', hits dsdt.byte find.byte find.1.length len (2 ^ 32) 20 =
        ((takenAt find dsdt.byte len 20).length, q) ∧
      (len ≤ q ∨ nextHit dsdt.byte find.byte find.1.length len q = none) ∧ len + 2 ≤ left + q ∧
      fixAny dsdt len (.ofBytes find replace) = fixLoop (.ofBytes find replace) find.byte left
        ((Patch.ofBytes find replace).lenAfter q (takenAt find dsdt.byte len 20).length)
        ((Patch.ofBytes find replace).lenAfter len (takenAt find dsdt.byte len 20).length) dsdt' ∧
      Progress (.ofBytes find replace) dsdt len (takenAt find dsdt.byte len 20).length q front dsdt' ∧
      replacedTable find replace dsdt len = front ++ segment dsdt.byte q (len - q) := by
  rw [length_replacedTable hpos (by omega)] at hsize
  have hrun := (progress_start (by omega)).run (2 ^ 32) hpos hlen (by omega) hapart
    (fun m hm => lenAfter_lt hlen hsize (by omega))
  rw [Nat.zero_add, lenAfter_zero, lenAfter_zero, ← fixAny_search hroom hlen,
    ← replacedTable_eq hpos (by omega)] at hrun
  exact hrun

theorem replacedTable_short (h : len ≤ 20 ∨ len < find.1.length + 20) :
    replacedTable find replace dsdt len = segment dsdt.byte 0 len := by
  have hrest : replaceAll find.1 replace.1 (segment dsdt.byte 20 (len - 20)) = segment dsdt.byte 20 (len - 20) := by
    rcases Nat.lt_or_ge (len - 20) find.1.length with hshort | hlong
    · exact replaceAll_short (by rwa [length_segment])
    · rw [show len - 20 = 0 by omega]
      unfold replaceAll
      exact ite_self _
  rw [replacedTable, hrest]
  rcases Nat.le_total 20 len with hlen | hlen
  · rw [Nat.min_eq_left hlen, ← segment_split dsdt.byte 0 hlen]
  · rw [Nat.min_eq_right hlen, Nat.sub_eq_zero_of_le hlen]
    exact List.append_nil _

theorem fixLoop_done {patch : Patch} {bytes : Nat → UInt8} {rounds i : Nat} (hrounds : 0 < rounds) (h : len ≤ i) :
    fixLoop patch bytes rounds i len dsdt = some (dsdt, len) := by
  obtain ⟨left, rfl⟩ : ∃ left, rounds = left + 1 := ⟨rounds - 1, by omega⟩
  rw [fixLoop, if_neg (Nat.not_lt.mpr h)]

theorem fixAny_short (h : Short find len) : fixAny dsdt len (.ofBytes find replace) = some (dsdt, len) := by
  have hcall : fixAny dsdt len (.ofBytes find replace) = if len < u32 (find.1.length + 20) then some (dsdt, len)
      else fixLoop (.ofBytes find replace) find.byte (2 ^ 32) 20 len dsdt := rfl
  rw [hcall]
  split_ifs with hcheck
  · rfl
  · exact fixLoop_done (by decide) (h.resolve_right hcheck)

theorem replaced_of_short (h : Short find len) : Replaced find replace dsdt len := by
  have htable : replacedTable find replace dsdt len = segment dsdt.byte 0 len := by
    apply replacedTable_short
    apply h.imp_right
    intro hlen
    unfold u32 at hlen
    omega
  refine ⟨dsdt, ?_, ?_⟩
  · rw [fixAny_short h, htable, length_segment]
  · rw [htable, length_segment]

theorem replacedTable_empty (hempty : find.1 = []) (h : 20 ≤ len) :
    replacedTable find replace dsdt len = segment dsdt.byte 0 len := by
  rw [replacedTable, replaceAll, if_pos hempty, Nat.min_eq_left h, ← segment_split dsdt.byte 0 h]

theorem replacedTable_self (h : 20 ≤ len) : replacedTable find find dsdt len = segment dsdt.byte 0 len := by
  rw [replacedTable, replaceAll_self, Nat.min_eq_left h, ← segment_split dsdt.byte 0 h]

theorem replaced_bySelf (hroom : find.1.length + 20 ≤ len) (hlen : len < 2 ^ 31) : Replaced find find dsdt len := by
  obtain ⟨after, hrun, hbytes⟩ := @fixLoop_self find dsdt len 20 (by omega) hlen (2 ^ 32) (by omega) (by omega)
  have htable : replacedTable find find dsdt len = segment dsdt.byte 0 len := replacedTable_self (by omega)
  refine ⟨after, ?_, ?_⟩
  · rw [fixAny_search hroom hlen, hrun, htable, length_segment]
  · rw [htable, length_segment]
    exact segment_eq_iff.mpr fun i _ => hbytes _

theorem replaced_of_endsWell (hpos : 0 < find.1.length) (hroom : find.1.length + 20 ≤ len) (hlen : len < 2 ^ 31)
    (hsize : (replacedTable find replace dsdt len).length < 2 ^ 31) (hapart : OccurrencesApart find dsdt len)
    (hends : EndsWell find replace dsdt len) : Replaced find replace dsdt len := by
  obtain ⟨q, left, front, dsdt', hhits, hend, hleft, hrun, hstate, htable⟩ :=
    @fixAny_apart find replace dsdt len hpos hroom hlen hsize hapart
  have hlength := @length_replacedTable find replace dsdt len hpos (by omega)
  unfold EndsWell at hends
  rw [hhits] at hends
  rw [hlength] at hsize
  obtain ⟨after, hresult, htext⟩ := hstate.finish hleft hsize hend (by omega) hends
  refine ⟨after, ?_, ?_⟩
  · rw [hrun, hresult, hlength]
  · rw [htable, ← htext, length_segment]

theorem replaceable_of_replaced (hregular : Regular find replace dsdt len) (h : Replaced find replace dsdt len) :
    Replaceable find replace dsdt len := by
  by_cases hshort : Short find len
  · exact Or.inl hshort
  · obtain ⟨hlong, hcheck⟩ := not_or.mp hshort
    have hlen := hregular.table
    have hsize := hregular.result
    have hfound := hregular.found
    have hroom : find.1.length + 20 ≤ len := by
      unfold u32 at hcheck
      omega
    refine Or.inr ⟨by omega, by omega, hroom, ?_⟩
    obtain ⟨after, hrun, htext⟩ := h
    rcases Nat.eq_zero_or_pos find.1.length with hempty | hpos
    · left
      rw [fixAny_search hroom (by omega)] at hrun
      have hgrown := fixLoop_empty hempty (by omega) (hregular.inserted hempty) hregular.replacement hrun
      rw [replacedTable_empty (List.length_eq_zero_iff.mp hempty) (by omega), length_segment] at hgrown
      have hnone : replace.1.length = 0 := by
        rcases Nat.mul_eq_zero.mp (show (len - 20) * replace.1.length = 0 by omega) with hzero | hzero
        · omega
        · exact hzero
      apply Subtype.ext
      rw [List.length_eq_zero_iff.mp hnone, List.length_eq_zero_iff.mp hempty]
    · by_cases hapart : OccurrencesApart find dsdt len
      · obtain ⟨q, left, front, dsdt', hhits, hend, hleft, hstart, hstate, htable⟩ :=
          @fixAny_apart find replace dsdt len hpos hroom (by omega) (by omega) hapart
        have hlength := @length_replacedTable find replace dsdt len hpos (by omega)
        refine Or.inr ⟨hpos, hapart, ?_⟩
        unfold EndsWell
        rw [hhits]
        rw [hstart, hlength] at hrun
        rw [hlength, htable] at htext
        exact hstate.endsAt hleft (by omega) hend (by omega) (by omega) hregular.replacement hrun htext
      · left
        have hsame := hregular.apart.resolve_right hapart
        have hlength : (replacedTable find replace dsdt len).length = len := by
          rw [length_replacedTable hpos (by omega)]
          exact lenAfter_same hsame
        rw [fixAny_search hroom (by omega)] at hrun
        apply eq_of_adjacent hsame hpos (by omega) (by omega) (fun _ _ => rfl) (by omega) hapart hrun
        rw [hlength, replacedTable_eq hpos (by omega)] at htext
        have hdrop := congrArg (List.drop 20) htext
        rwa [drop_segment, List.drop_left' (length_segment _ _ _)] at hdrop

/-- `FixAny` replaces every occurrence of a table that is `Replaceable`, and where nothing wraps and the lengths or
the distances of the occurrences leave no other way, of no other table. -/
theorem fixAny_replaces (find replace : DataBytes) (dsdt : Block) (len : Nat) :
    (Replaceable find replace dsdt len → Replaced find replace dsdt len) ∧
      (Regular find replace dsdt len → (Replaced find replace dsdt len ↔ Replaceable find replace dsdt len)) := by
  have hreplaced : Replaceable find replace dsdt len → Replaced find replace dsdt len := by
    rintro (hshort | ⟨hlen, hsize, hroom, rfl | ⟨hpos, hapart, hends⟩⟩)
    · exact replaced_of_short hshort
    · exact replaced_bySelf hroom hlen
    · exact replaced_of_endsWell hpos hroom hlen hsize hapart hends
  exact ⟨hreplaced, fun hregular => ⟨replaceable_of_replaced hregular, hreplaced⟩⟩

end Call

def letterA : DataBytes := ⟨[97], by decide⟩

/-- Zeros, and `a` from `first` on. -/
def endsInA (first : Nat) : Block := .fresh 4096 fun a => if first ≤ a ∧ a < 22 then 97 else 0

/-- The last byte of the table. -/
theorem lastByte_replaced : Replaced letterA ⟨[98, 99], by decide⟩ (endsInA 21) 22 := by
  apply (fixAny_replaces letterA ⟨[98, 99], by decide⟩ (endsInA 21) 22).1
  refine Or.inr ⟨by decide, by decide, by decide, Or.inr ⟨by decide, ?_, Or.inl (by decide)⟩⟩
  unfold OccurrencesApart
  decide

/-- Of two bytes side by side the second stays. -/
theorem twoBytes_notReplaced : ¬ Replaced letterA ⟨[98], by decide⟩ (endsInA 20) 22 := by
  intro h
  have hregular : Regular letterA ⟨[98], by decide⟩ (endsInA 20) 22 :=
    ⟨by decide, by decide, by decide, by decide, fun hempty => absurd hempty (by decide), Or.inl rfl⟩
  rcases replaceable_of_replaced hregular h with hshort | ⟨-, -, -, hsame | ⟨-, hapart, -⟩⟩
  · revert hshort
    unfold Short
    decide
  · exact absurd (congrArg Subtype.val hsame) (by decide)
  · revert hapart
    unfold OccurrencesApart
    decide

end BareBoot.Acpi
