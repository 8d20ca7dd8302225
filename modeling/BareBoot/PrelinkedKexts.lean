import BareBoot.KextPatcher
import BareBoot.GreedyReplace

/-! Which dicts `PatchPrelinkedKexts` takes for kexts. The scanner has a depth and one saved start; a stack
of the open dicts says what they stand for. -/

namespace BareBoot.Kext

open Plist

/-! ### The nesting of a text -/

inductive Mark
  | opening
  | closing
  deriving DecidableEq, Repr

section Nesting

variable (memory : Memory) (last : Nat)

/-- The literal tag at `x`, if it ends in front of `last`. -/
def markAt (x : Nat) : Option Mark :=
  if x + 6 ≤ last ∧ holds memory x dictTag then some .opening
  else if x + 7 ≤ last ∧ holds memory x dictEndTag then some .closing
  else none

/-- The literal tags at the next `left` places. -/
def marksFrom : Nat → Nat → List (Nat × Mark)
  | 0, _ => []
  | left + 1, x =>
      match markAt memory last x with
      | none => marksFrom left (x + 1)
      | some mark => (x, mark) :: marksFrom left (x + 1)

end Nesting

/-- No dict is closed that is not open, and all `depth` open ones are closed. -/
def Balanced : Nat → List (Nat × Mark) → Prop
  | depth, [] => depth = 0
  | depth, (_, .opening) :: marks => Balanced (depth + 1) marks
  | 0, (_, .closing) :: _ => False
  | depth + 1, (_, .closing) :: marks => Balanced depth marks

/-- The extents of the dicts at depth 2, in the order of the text; the open dicts are on the stack. -/
def extents : List Nat → List (Nat × Mark) → List (Nat × Nat)
  | _, [] => []
  | stack, (x, .opening) :: marks => extents (x :: stack) marks
  | [], (_, .closing) :: marks => extents [] marks
  | start :: stack, (x, .closing) :: marks =>
      if stack.length = 1 then (start, x + 7 - start) :: extents stack marks else extents stack marks

/-- At `x` a text starts as if inside a tag. -/
def InsideTag (memory : Memory) (last x : Nat) : Prop :=
  (x + 5 ≤ last ∧ holds memory x (ascii "dict>") = true) ∨ (x + 6 ≤ last ∧ holds memory x (ascii "/dict>") = true)

instance (memory : Memory) (last x : Nat) : Decidable (InsideTag memory last x) :=
  inferInstanceAs (Decidable (_ ∨ _))

/-- The literal tags are balanced, and neither the text nor what follows the end of a dict starts inside a tag. -/
structure Document (memory : Memory) (plist size : Nat) : Prop where
  balanced : Balanced 0 (marksFrom memory (plist + size) size plist)
  start : ¬ InsideTag memory (plist + size) plist
  behind : ∀ x, plist ≤ x → markAt memory (plist + size) x = some .closing → ¬ InsideTag memory (plist + size) (x + 7)

/-! ### The places of `dict>` -/

section Marks

variable {memory memory' : Memory} {last x a d : Nat}

theorem holds_dictTag : holds memory x dictTag = true ↔ memory x = 60 ∧ holds memory (x + 1) (ascii "dict>") = true :=
  holds_cons

theorem holds_dictEndTag : holds memory x dictEndTag = true ↔
    memory x = 60 ∧ memory (x + 1) = 47 ∧ holds memory (x + 2) (ascii "dict>") = true := by
  have htag : dictEndTag = 60 :: 47 :: ascii "dict>" := by decide
  rw [htag, holds_cons, holds_cons]

theorem markAt_eq_opening : markAt memory last x = some .opening ↔
    x + 6 ≤ last ∧ memory x = 60 ∧ holds memory (x + 1) (ascii "dict>") = true := by
  unfold markAt
  rw [← holds_dictTag]
  split_ifs with hopen hclose
  · exact ⟨fun _ => hopen, fun _ => rfl⟩
  · exact ⟨nofun, fun h => absurd h hopen⟩
  · exact ⟨nofun, fun h => absurd h hopen⟩

theorem markAt_eq_closing : markAt memory last x = some .closing ↔
    x + 7 ≤ last ∧ memory x = 60 ∧ memory (x + 1) = 47 ∧ holds memory (x + 2) (ascii "dict>") = true := by
  unfold markAt
  rw [← holds_dictEndTag]
  split_ifs with hopen hclose
  · constructor
    · intro h
      cases h
    · rintro ⟨-, hclose⟩
      have hd := holds_getD (holds_dictTag.mp hopen.2).2 (i := 0) (by decide)
      have hslash := (holds_dictEndTag.mp hclose).2.1
      rw [Nat.add_zero, hslash] at hd
      exact absurd hd (by decide)
  · exact ⟨fun _ => hclose, fun _ => rfl⟩
  · exact ⟨nofun, fun h => absurd h hclose⟩

/-- The bytes of `dict>`. -/
theorem holds_dict : holds memory d (ascii "dict>") = true ↔
    memory d = 100 ∧ memory (d + 1) = 105 ∧ memory (d + 2) = 99 ∧ memory (d + 3) = 116 ∧ memory (d + 4) = 62 := by
  have htag : ascii "dict>" = [100, 105, 99, 116, 62] := by decide
  rw [htag, holds_cons, holds_cons, holds_cons, holds_cons, holds_cons, holds, and_iff_left rfl]

theorem markAt_none_of_ne (h : memory x ≠ 60) : markAt memory last x = none := by
  cases hmark : markAt memory last x with
  | none => rfl
  | some mark =>
      cases mark with
      | opening => exact absurd (markAt_eq_opening.mp hmark).2.1 h
      | closing => exact absurd (markAt_eq_closing.mp hmark).2.1 h

theorem markAt_congr (h : ∀ b, x ≤ b → b < last → memory' b = memory b) : markAt memory' last x = markAt memory last x := by
  have hopen : x + 6 ≤ last → holds memory' x dictTag = holds memory x dictTag := by
    intro hin
    apply holds_congr
    intro i hi
    have hlen : dictTag.length = 6 := by decide
    exact h (x + i) (by omega) (by omega)
  have hclose : x + 7 ≤ last → holds memory' x dictEndTag = holds memory x dictEndTag := by
    intro hin
    apply holds_congr
    intro i hi
    have hlen : dictEndTag.length = 7 := by decide
    exact h (x + i) (by omega) (by omega)
  unfold markAt
  by_cases h6 : x + 6 ≤ last
  · by_cases h7 : x + 7 ≤ last
    · rw [hopen h6, hclose h7]
    · rw [hopen h6]
      simp only [h7, false_and]
  · have h7 : ¬ x + 7 ≤ last := by omega
    simp only [h6, h7, false_and]

theorem insideTag_congr (h : ∀ b, x ≤ b → b < last → memory' b = memory b) :
    InsideTag memory' last x ↔ InsideTag memory last x := by
  unfold InsideTag
  apply or_congr
  · apply and_congr_right
    intro hin
    have hlen : (ascii "dict>").length = 5 := by decide
    rw [holds_congr fun i hi => h (x + i) (by omega) (by omega)]
  · apply and_congr_right
    intro hin
    have hlen : (ascii "/dict>").length = 6 := by decide
    rw [holds_congr fun i hi => h (x + i) (by omega) (by omega)]

theorem marksFrom_congr {left : Nat} (h : ∀ b, x ≤ b → b < last → memory' b = memory b) :
    marksFrom memory' last left x = marksFrom memory last left x := by
  induction left generalizing x with
  | zero => rfl
  | succ left ih =>
      rw [marksFrom, marksFrom, markAt_congr h, ih fun b hb => h b (by omega)]

/-- Places without a tag are passed over. -/
theorem marksFrom_skip (count left : Nat) (h : ∀ b, x ≤ b → b < x + count → markAt memory last b = none) :
    marksFrom memory last (left + count) x = marksFrom memory last left (x + count) := by
  induction count generalizing x with
  | zero => rfl
  | succ count ih =>
      rw [← Nat.add_assoc, marksFrom, h x (Nat.le_refl _) (by omega)]
      dsimp only
      rw [ih fun b hb hlt => h b (by omega) (by omega), Nat.add_assoc, Nat.add_comm 1]

theorem marksFrom_some {left : Nat} {mark : Mark} (h : markAt memory last x = some mark) :
    marksFrom memory last (left + 1) x = (x, mark) :: marksFrom memory last left (x + 1) := by
  rw [marksFrom, h]

/-- No tag stands across `a`. -/
structure Clear (memory : Memory) (last a : Nat) : Prop where
  name : a + 5 ≤ last → holds memory a (ascii "dict>") = true →
    memory (a - 1) ≠ 60 ∧ ¬ (memory (a - 2) = 60 ∧ memory (a - 1) = 47)
  slash : a + 6 ≤ last → holds memory a (ascii "/dict>") = true → memory (a - 1) ≠ 60

theorem clear_of_not_insideTag (h : ¬ InsideTag memory last a) : Clear memory last a where
  name := fun hin hdict => absurd (Or.inl ⟨hin, hdict⟩) h
  slash := fun hin hdict => absurd (Or.inr ⟨hin, hdict⟩) h

/-- Behind `dict>` no tag is open. -/
theorem clear_behind (h : holds memory d (ascii "dict>") = true) : Clear memory last (d + 5) := by
  obtain ⟨-, -, -, ht, hgt⟩ := holds_dict.mp h
  have hone : memory (d + 5 - 1) = 62 := hgt
  have htwo : memory (d + 5 - 2) = 116 := ht
  constructor
  · intro _ _
    rw [hone, htwo]
    decide
  · intro _ _
    rw [hone]
    decide

/-- In front of the first `dict>` there is no tag. -/
theorem markAt_none_before (hfirst : ∀ b, a ≤ b → b < d → holds memory b (ascii "dict>") = false) {b : Nat} (hab : a ≤ b)
    (hbd : b + 2 < d) : markAt memory last b = none := by
  cases hmark : markAt memory last b with
  | none => rfl
  | some mark =>
      cases mark with
      | opening =>
          have := (markAt_eq_opening.mp hmark).2.2
          rw [hfirst (b + 1) (by omega) (by omega)] at this
          cases this
      | closing =>
          have := (markAt_eq_closing.mp hmark).2.2.2
          rw [hfirst (b + 2) (by omega) (by omega)] at this
          cases this

/-- Nor inside it. -/
theorem markAt_none_inside (h : holds memory d (ascii "dict>") = true) {b : Nat} (hdb : d ≤ b) (hbd : b < d + 5) :
    markAt memory last b = none := by
  apply markAt_none_of_ne
  obtain ⟨h0, h1, h2, h3, h4⟩ := holds_dict.mp h
  obtain rfl | rfl | rfl | rfl | rfl : b = d ∨ b = d + 1 ∨ b = d + 2 ∨ b = d + 3 ∨ b = d + 4 := by omega
  · rw [h0]
    decide
  · rw [h1]
    decide
  · rw [h2]
    decide
  · rw [h3]
    decide
  · rw [h4]
    decide

/-- What the search for the next `dict>` has found. -/
structure Found (memory : Memory) (last a d : Nat) : Prop where
  behind : a ≤ d
  within : d + 5 ≤ last
  here : holds memory d (ascii "dict>") = true
  first : ∀ b, a ≤ b → b < d → holds memory b (ascii "dict>") = false

theorem markAt_none_two (h : Found memory last a d) (hclosing : ¬ (memory (d - 2) = 60 ∧ memory (d - 1) = 47)) {b : Nat}
    (hab : a ≤ b) (hbd : b + 2 = d) : markAt memory last b = none := by
  cases hmark : markAt memory last b with
  | none => rfl
  | some mark =>
      cases mark with
      | opening =>
          have := (markAt_eq_opening.mp hmark).2.2
          rw [h.first (b + 1) (by omega) (by omega)] at this
          cases this
      | closing =>
          obtain ⟨-, hlt, hslash, -⟩ := markAt_eq_closing.mp hmark
          rw [show d - 2 = b by omega, show d - 1 = b + 1 by omega] at hclosing
          exact absurd ⟨hlt, hslash⟩ hclosing

theorem marksFrom_opening (h : Found memory last a d) (hclear : Clear memory last a) (hopen : memory (d - 1) = 60) :
    a < d ∧ marksFrom memory last (last - a) a = (d - 1, .opening) :: marksFrom memory last (last - (d + 5)) (d + 5) := by
  have hin := h.within
  have had : a < d := by
    rcases Nat.lt_or_eq_of_le h.behind with hlt | rfl
    · exact hlt
    · exact absurd hopen (hclear.name hin h.here).1
  refine ⟨had, ?_⟩
  have hbefore : ∀ b, a ≤ b → b < a + (d - 1 - a) → markAt memory last b = none := by
    intro b hab hbd
    by_cases htwo : b + 2 = d
    · have hslash : ¬ (memory (d - 2) = 60 ∧ memory (d - 1) = 47) := by
        rw [hopen]
        exact fun hboth => absurd hboth.2 (by decide)
      exact markAt_none_two h hslash hab htwo
    · exact markAt_none_before h.first hab (by omega)
  have hmark : markAt memory last (d - 1) = some .opening := by
    rw [markAt_eq_opening, Nat.sub_add_cancel (by omega)]
    exact ⟨by omega, hopen, h.here⟩
  have hinside : ∀ b, d ≤ b → b < d + 5 → markAt memory last b = none := fun b hb hlt => markAt_none_inside h.here hb hlt
  calc marksFrom memory last (last - a) a
      = marksFrom memory last (last - (d - 1) + (d - 1 - a)) a := by rw [show last - a = last - (d - 1) + (d - 1 - a) by omega]
    _ = marksFrom memory last (last - d + 1) (d - 1) := by
        rw [marksFrom_skip _ _ hbefore, show a + (d - 1 - a) = d - 1 by omega, show last - (d - 1) = last - d + 1 by omega]
    _ = (d - 1, .opening) :: marksFrom memory last (last - d) d := by
        rw [marksFrom_some hmark, Nat.sub_add_cancel (by omega)]
    _ = _ := by
        rw [show last - d = last - (d + 5) + 5 by omega, marksFrom_skip 5 _ hinside]

theorem marksFrom_closing (h : Found memory last a d) (hclear : Clear memory last a) (hlt : memory (d - 2) = 60)
    (hslash : memory (d - 1) = 47) : a + 2 ≤ d ∧ markAt memory last (d - 2) = some .closing ∧
      marksFrom memory last (last - a) a = (d - 2, .closing) :: marksFrom memory last (last - (d + 5)) (d + 5) := by
  have hin := h.within
  have had : a + 2 ≤ d := by
    rcases Nat.lt_or_eq_of_le h.behind with hlt' | rfl
    · by_contra hshort
      obtain rfl : d = a + 1 := by omega
      have hholds : holds memory a (ascii "/dict>") = true := by
        have htag : ascii "/dict>" = 47 :: ascii "dict>" := by decide
        rw [htag, holds_cons]
        exact ⟨hslash, h.here⟩
      exact hclear.slash (by omega) hholds hlt
    · exact absurd ⟨hlt, hslash⟩ (hclear.name hin h.here).2
  have hbefore : ∀ b, a ≤ b → b < a + (d - 2 - a) → markAt memory last b = none := fun b hab hbd =>
    markAt_none_before h.first hab (by omega)
  have hmark : markAt memory last (d - 2) = some .closing := by
    rw [markAt_eq_closing, show d - 2 + 1 = d - 1 by omega, Nat.sub_add_cancel (by omega)]
    exact ⟨by omega, hlt, hslash, h.here⟩
  have hinside : ∀ b, d - 1 ≤ b → b < d - 1 + 6 → markAt memory last b = none := by
    intro b hb hbd
    by_cases hb' : b = d - 1
    · apply markAt_none_of_ne
      rw [hb', hslash]
      decide
    · exact markAt_none_inside h.here (by omega) (by omega)
  refine ⟨had, hmark, ?_⟩
  calc marksFrom memory last (last - a) a
      = marksFrom memory last (last - (d - 2) + (d - 2 - a)) a := by rw [show last - a = last - (d - 2) + (d - 2 - a) by omega]
    _ = marksFrom memory last (last - (d - 1) + 1) (d - 2) := by
        rw [marksFrom_skip _ _ hbefore, show a + (d - 2 - a) = d - 2 by omega,
          show last - (d - 2) = last - (d - 1) + 1 by omega]
    _ = (d - 2, .closing) :: marksFrom memory last (last - (d - 1)) (d - 1) := by
        rw [marksFrom_some hmark, show d - 2 + 1 = d - 1 by omega]
    _ = _ := by
        rw [show last - (d - 1) = last - (d + 5) + 6 by omega, marksFrom_skip 6 _ hinside, show d - 1 + 6 = d + 5 by omega]

theorem marksFrom_other (h : Found memory last a d) (hopen : memory (d - 1) ≠ 60)
    (hclosing : ¬ (memory (d - 2) = 60 ∧ memory (d - 1) = 47)) :
    marksFrom memory last (last - a) a = marksFrom memory last (last - (d + 5)) (d + 5) := by
  have hin := h.within
  have hbehind := h.behind
  have hnone : ∀ b, a ≤ b → b < a + (d + 5 - a) → markAt memory last b = none := by
    intro b hab hbd
    by_cases hbefore : b + 2 < d
    · exact markAt_none_before h.first hab hbefore
    · by_cases htwo : b + 2 = d
      · exact markAt_none_two h hclosing hab htwo
      · by_cases hone : b + 1 = d
        · apply markAt_none_of_ne
          rwa [show b = d - 1 by omega]
        · exact markAt_none_inside h.here (by omega) (by omega)
  rw [show last - a = last - (d + 5) + (d + 5 - a) by omega, marksFrom_skip _ _ hnone, show a + (d + 5 - a) = d + 5 by omega]

theorem marksFrom_nil (h : ∀ b, a ≤ b → b + 5 ≤ last → holds memory b (ascii "dict>") = false) :
    marksFrom memory last (last - a) a = [] := by
  have hnone : ∀ b, a ≤ b → b < a + (last - a) → markAt memory last b = none := by
    intro b hab _
    cases hmark : markAt memory last b with
    | none => rfl
    | some mark =>
        cases mark with
        | opening =>
            obtain ⟨hin, -, hdict⟩ := markAt_eq_opening.mp hmark
            rw [h (b + 1) (by omega) (by omega)] at hdict
            cases hdict
        | closing =>
            obtain ⟨hin, -, -, hdict⟩ := markAt_eq_closing.mp hmark
            rw [h (b + 2) (by omega) (by omega)] at hdict
            cases hdict
  have := marksFrom_skip (last - a) 0 hnone
  rwa [Nat.zero_add] at this

end Marks

/-! ### What a call changes -/

section Calls

variable {memory : Memory}

/-- A text without `NUL` that stands in front of one ends in front of it. -/
theorem holds_before {a e : Nat} {s : Bytes} (h : holds memory a s = true) (hnul : memory e = 0) (hs : (0 : UInt8) ∉ s)
    (hle : a ≤ e) : a + s.length ≤ e := by
  by_contra hin
  have hbyte := holds_getD h (i := e - a) (by omega)
  rw [Nat.add_sub_cancel' hle, hnul] at hbyte
  rw [List.getD_eq_getElem?_getD, List.getElem?_eq_getElem (by omega), Option.getD_some] at hbyte
  exact hs (hbyte ▸ List.getElem_mem _)

theorem nextTag_some {e : Nat} (hnul : memory e = 0) (rounds tag : Nat) (hle : tag ≤ e) (hrounds : e < tag + rounds) :
    ∃ next, nextTag memory rounds tag = some next ∧ tag ≤ next ∧ next ≤ e := by
  induction rounds generalizing tag with
  | zero => omega
  | succ rounds ih =>
      rw [nextTag]
      by_cases hgo : memory tag ≠ 60 ∧ memory tag ≠ 0
      · have hne : tag ≠ e := by
          rintro rfl
          exact hgo.2 hnul
        obtain ⟨next, hnext, hfrom, hto⟩ := ih (tag + 1) (by omega) (by omega)
        rw [if_pos hgo]
        exact ⟨next, hnext, by omega, hto⟩
      · rw [if_neg hgo]
        exact ⟨tag, rfl, Nat.le_refl _, hle⟩

/-- The loop ends at the terminator at the latest, and writes the identifier only. -/
theorem identifierLoop_frame (identifier plist plistSize : Nat) {e : Nat} (hnul : memory e = 0) (rounds tag : Nat)
    (dictLevel : Int) (idLength : Nat) (hle : tag ≤ e) (hrounds : e < tag + rounds) :
    ∃ after length, identifierLoop identifier plist plistSize rounds tag dictLevel idLength memory = some (after, length) ∧
      ∀ x, (x < identifier ∨ identifier + 256 ≤ x) → after x = memory x := by
  induction rounds generalizing tag dictLevel idLength with
  | zero => omega
  | succ rounds ih =>
      rw [identifierLoop]
      by_cases hend : memory tag = 0
      · rw [if_pos hend]
        exact ⟨memory, idLength, rfl, fun _ _ => rfl⟩
      · have hne : tag ≠ e := by
          rintro rfl
          exact hend hnul
        have hgo : ∀ step level length, 0 < step → tag + step ≤ e →
            ∃ after length', (do
              let tag ← nextTag memory (rounds + 1) (tag + step)
              identifierLoop identifier plist plistSize rounds tag level length memory) = some (after, length') ∧
              ∀ x, (x < identifier ∨ identifier + 256 ≤ x) → after x = memory x := by
          intro step level length hpos hstep
          obtain ⟨next, hnext, hfrom, hto⟩ := nextTag_some hnul (rounds + 1) (tag + step) hstep (by omega)
          rw [hnext, Option.bind_eq_bind, Option.bind_some]
          exact ih next level length hto (by omega)
        rw [if_neg hend]
        split_ifs with hopen hclose hkey
        · exact hgo 6 _ _ (by decide) (holds_before hopen hnul (by decide) hle)
        · exact hgo 7 _ _ (by decide) (holds_before hclose hnul (by decide) hle)
        · split
          next => exact hgo 1 _ _ (by decide) (by omega)
          next => exact hgo 1 _ _ (by decide) (by omega)
          next start last _ =>
            dsimp only
            split_ifs with hshort
            · refine ⟨_, _, rfl, ?_⟩
              intro x hx
              have hlen : (bytesAt memory start (u32 ((last : Int) - start))).length = u32 ((last : Int) - start) := by
                rw [bytesAt, List.length_map, List.length_range]
              rw [store_outside (by rw [List.length_singleton]; omega), store_outside (by rw [hlen]; omega)]
            · exact hgo 1 _ _ (by decide) (by omega)
        · exact hgo 1 _ _ (by decide) (by omega)

theorem extractKextBundleIdentifier_frame (identifier : Nat) {plist plistSize e : Nat} (hnul : memory e = 0)
    (hend : plist + plistSize ≤ e) (hlong : e < plist + 2 ^ 32 + 6) :
    ∃ after length, extractKextBundleIdentifier identifier plist plistSize memory = some (after, length) ∧
      ∀ x, (x < identifier ∨ identifier + 256 ≤ x) → after x = memory x := by
  have hframe : ∀ x, (x < identifier ∨ identifier + 256 ≤ x) → store memory identifier [0] x = memory x := by
    intro x hx
    exact store_outside (by rw [List.length_singleton]; omega)
  have hnul' : store memory identifier [0] e = 0 := by
    unfold store
    split_ifs with h
    · rw [List.length_singleton] at h
      rw [show e - identifier = 0 by omega]
      rfl
    · exact hnul
  unfold extractKextBundleIdentifier
  dsimp only
  cases hfound : searchMemory (store memory identifier [0]) plist plistSize dictTag with
  | none => exact ⟨_, 0, rfl, hframe⟩
  | some tag =>
      obtain ⟨hle, hin, -, -⟩ := searchMemory_eq_some.mp hfound
      have hlen : dictTag.length = 6 := by decide
      obtain ⟨after, length, hrun, hafter⟩ := identifierLoop_frame identifier plist plistSize hnul' (2 ^ 32) (tag + 6) 1 0 (by omega) (by omega)
      exact ⟨after, length, hrun, fun x hx => (hafter x hx).trans (hframe x hx)⟩

/-- A patch writes the binary or the plist of its kext. -/
theorem anyKextPatch_frame (patch : KextPatch) (driver driverSize infoPlist infoPlistSize : Nat) (memory : Memory)
    (hlen : 1 ≤ patch.dataLen) :
    ∃ after, anyKextPatch driver driverSize infoPlist infoPlistSize patch memory = some after ∧
      ∀ x, (x < driver ∨ driver + driverSize ≤ x) → (x < infoPlist ∨ infoPlist + infoPlistSize ≤ x) →
        after x = memory x := by
  have hpos : 0 < patch.find.length := by
    rw [KextPatch.find, List.length_map, List.length_range]
    exact hlen
  have hsame : patch.replace.length = patch.find.length := by
    rw [KextPatch.replace, KextPatch.find, List.length_map, List.length_map]
  unfold anyKextPatch
  split_ifs with hplist hnoplist hnodriver
  · exact ⟨memory, rfl, fun _ _ _ => rfl⟩
  · obtain ⟨run, hrun, hframe⟩ := searchAndReplace_frame hpos hsame infoPlist infoPlistSize (-1) memory
    rw [hrun]
    exact ⟨run.1, rfl, fun x _ hx => hframe x hx⟩
  · exact ⟨memory, rfl, fun _ _ _ => rfl⟩
  · obtain ⟨run, hrun, hframe⟩ := searchAndReplace_frame hpos hsame driver driverSize (-1) memory
    rw [hrun]
    exact ⟨run.1, rfl, fun x hx _ => hframe x hx⟩

theorem patchSlots_frame (identifier idLength driver driverSize infoPlist infoPlistSize : Nat) (slots : List KextPatch)
    (memory : Memory) :
    ∃ after, slots.foldlM (patchSlot identifier idLength driver driverSize infoPlist infoPlistSize) memory = some after ∧
      ∀ x, (x < driver ∨ driver + driverSize ≤ x) → (x < infoPlist ∨ infoPlist + infoPlistSize ≤ x) →
        after x = memory x := by
  induction slots generalizing memory with
  | nil => exact ⟨memory, rfl, fun _ _ _ => rfl⟩
  | cons patch slots ih =>
      have hslot : ∃ after, patchSlot identifier idLength driver driverSize infoPlist infoPlistSize memory patch = some after ∧
          ∀ x, (x < driver ∨ driver + driverSize ≤ x) → (x < infoPlist ∨ infoPlist + infoPlistSize ≤ x) →
            after x = memory x := by
        unfold patchSlot
        split_ifs with hlen
        · exact ⟨memory, rfl, fun _ _ _ => rfl⟩
        · split
          · exact ⟨memory, rfl, fun _ _ _ => rfl⟩
          · exact anyKextPatch_frame patch driver driverSize infoPlist infoPlistSize memory (by omega)
      obtain ⟨middle, hfirst, hframe⟩ := hslot
      obtain ⟨after, hrest, hframe'⟩ := ih middle
      rw [List.foldlM_cons, hfirst, Option.bind_eq_bind, Option.bind_some]
      exact ⟨after, hrest, fun x hd hp => (hframe' x hd hp).trans (hframe x hd hp)⟩

/-- Outside of the kext, its plist and the identifier nothing changes. -/
theorem patchKext_frame (patcher : Patcher) (driver driverSize infoPlist infoPlistSize : Nat) {e : Nat}
    (hnul : memory e = 0) (hend : infoPlist + infoPlistSize ≤ e)
    (hlong : e < infoPlist + 2 ^ 32 + 6) :
    ∃ after, patchKext patcher driver driverSize infoPlist infoPlistSize memory = some after ∧
      ∀ x, (x < driver ∨ driver + driverSize ≤ x) → (x < infoPlist ∨ infoPlist + infoPlistSize ≤ x) →
        (x < patcher.bundleIdentifier ∨ patcher.bundleIdentifier + 256 ≤ x) → after x = memory x := by
  obtain ⟨extracted, length, hextract, hframe⟩ := extractKextBundleIdentifier_frame patcher.bundleIdentifier hnul hend hlong
  obtain ⟨after, hslots, hframe'⟩ := patchSlots_frame patcher.bundleIdentifier length driver driverSize infoPlist
    infoPlistSize patcher.kexts extracted
  rw [patchKext, hextract, Option.bind_eq_bind, Option.bind_some]
  exact ⟨after, hslots, fun x hd hp hi => (hframe' x hd hp).trans (hframe x hi)⟩

end Calls

/-! ### The run -/

section Run

variable {patcher : Patcher} {plist size : Nat} {memory : Memory}

/-- The binary of the kext does not overlap the plist. -/
def KextCall.Apart (call : KextCall) (plist size : Nat) : Prop :=
  call.driverSize = 0 ∨ call.driver + call.driverSize ≤ plist ∨ plist + size ≤ call.driver

/-- The call leaves the plist it is given as it was. -/
def KextCall.KeepsInfoPlist (call : KextCall) : Prop :=
  ∀ x, call.infoPlist ≤ x → x < call.infoPlist + call.infoPlistSize → call.after x = call.before x

/-- The identifier is not in the plist, nor right behind it. -/
def Patcher.Outside (patcher : Patcher) (plist size : Nat) : Prop :=
  patcher.bundleIdentifier + 256 ≤ plist ∨ plist + size < patcher.bundleIdentifier

theorem store_self (memory : Memory) (a : Nat) (c : UInt8) : store memory a [c] a = c := by
  have hfirst : store memory a [c] (a + 0) = ([c] : Bytes).getD 0 0 := store_inside Nat.one_pos
  rwa [Nat.add_zero] at hfirst

/-- The text of the kext is terminated, so that its patches end. -/
theorem patchPrelinked_some {start last : Nat} (hlt : start < last) (hlong : last ≤ start + 2 ^ 32) :
    ∃ run, patchPrelinked patcher plist size start last memory = some run := by
  have hlen : u32 ((last : Int) - start) ≤ last - start := by
    unfold u32
    omega
  unfold patchPrelinked
  dsimp only
  generalize u32 ((last : Int) - start) = infoPlistSize at hlen
  generalize u32 _ = driver
  generalize u32 _ = driverSize
  obtain ⟨patched, hrun, -⟩ := patchKext_frame patcher driver driverSize start infoPlistSize (store_self memory last 0)
    (by omega) (by omega)
  rw [hrun, Option.bind_eq_bind, Option.bind_some]
  exact ⟨_, rfl⟩

/-- The kext between `start` and `last` is patched, and the text behind it stays. -/
theorem patchPrelinked_spec (memory : Memory) (houtside : patcher.Outside plist size) (hsize : size < 2 ^ 32) {start last : Nat}
    (hstart : plist ≤ start) (hlt : start < last) (hlast : last ≤ plist + size) :
    ∃ after call, patchPrelinked patcher plist size start last memory = some (after, call) ∧
      call.infoPlist = start ∧ call.infoPlistSize = last - start ∧
      (call.Apart plist size → ∀ x, plist ≤ x → x < plist + size → (x < start ∨ last ≤ x) → after x = memory x) ∧
      (call.Apart plist size → call.KeepsInfoPlist → ∀ x, plist ≤ x → x < plist + size → after x = memory x) := by
  have hlen : u32 ((last : Int) - start) = last - start := u32_sub hlt.le (by omega)
  have hnul : store memory last [0] last = 0 := store_self _ _ _
  unfold patchPrelinked
  dsimp only
  rw [hlen]
  generalize hdriver : u32 _ = driver
  generalize hdriverSize : u32 _ = driverSize
  obtain ⟨patched, hrun, hframe⟩ := patchKext_frame patcher driver driverSize start (last - start) hnul (by omega) (by omega)
  rw [hrun, Option.bind_eq_bind, Option.bind_some]
  have hother : ∀ x, x ≠ last → store patched last [memory last] x = patched x ∧ store memory last [0] x = memory x := by
    intro x hx
    exact ⟨store_outside (by rw [List.length_singleton]; omega), store_outside (by rw [List.length_singleton]; omega)⟩
  have hrestored : store patched last [memory last] last = memory last := store_self _ _ _
  have hoff : ∀ x, plist ≤ x → x < plist + size → x < patcher.bundleIdentifier ∨ patcher.bundleIdentifier + 256 ≤ x := by
    intro x hle hin
    rcases houtside with h | h
    · exact Or.inr (h.trans hle)
    · exact Or.inl (hin.trans h)
  have hbinary : (KextCall.Apart ⟨driver, driverSize, start, last - start, store memory last [0], patched⟩ plist size) →
      ∀ x, plist ≤ x → x < plist + size → x < driver ∨ driver + driverSize ≤ x := by
    intro h x hle hin
    unfold KextCall.Apart at h
    dsimp only at h
    omega
  refine ⟨_, _, rfl, rfl, rfl, ?_, ?_⟩
  · intro hapart x hle hin hx
    by_cases hxlast : x = last
    · rw [hxlast, hrestored]
    · rw [(hother x hxlast).1, hframe x (hbinary hapart x hle hin) (by omega) (hoff x hle hin), (hother x hxlast).2]
  · intro hapart hkeeps x hle hin
    by_cases hxlast : x = last
    · rw [hxlast, hrestored]
    · rw [(hother x hxlast).1]
      by_cases hinside : start ≤ x ∧ x < last
      · have hbefore : patched x = store memory last [0] x := hkeeps x hinside.1 (by dsimp only; omega)
        rw [hbefore, (hother x hxlast).2]
      · rw [hframe x (hbinary hapart x hle hin) (by omega) (hoff x hle hin), (hother x hxlast).2]

/-- What the saved start stands for: from depth 2 on it is where the open dict at depth 2 starts. -/
def Saved (stack : List Nat) (start : Option Nat) : Prop := 2 ≤ stack.length → start = stack.reverse[1]?

theorem Saved.push {stack : List Nat} {start : Option Nat} (h : Saved stack start) (x : Nat) :
    Saved (x :: stack) (if (stack.length : Int) + 1 = 2 then some x else start) := by
  intro hlen
  rw [List.length_cons] at hlen
  rw [List.reverse_cons]
  split_ifs with hone
  · rw [List.getElem?_append_right (by rw [List.length_reverse]; omega), List.length_reverse,
      show 1 - stack.length = 0 by omega]
    rfl
  · rw [List.getElem?_append_left (by rw [List.length_reverse]; omega)]
    exact h (by omega)

theorem Saved.pop {stack : List Nat} {x : Nat} {start : Option Nat} (h : Saved (x :: stack) start) : Saved stack start := by
  intro hlen
  have := h (by rw [List.length_cons]; omega)
  rwa [List.reverse_cons, List.getElem?_append_left (by rw [List.length_reverse]; omega)] at this

theorem Saved.top {stack : List Nat} {x : Nat} {start : Option Nat} (h : Saved (x :: stack) start)
    (hlen : stack.length = 1) : start = some x := by
  have := h (by rw [List.length_cons]; omega)
  rw [List.reverse_cons, List.getElem?_append_right (by rw [List.length_reverse]; omega), List.length_reverse, hlen] at this
  exact this

/-- The calls are the extents, and where no call changes its plist the whole plist stays. -/
structure Enumerates (plist size : Nat) (marks : List (Nat × Nat)) (memory after : Memory) (calls : List KextCall) : Prop where
  extents : calls.map (fun call => (call.infoPlist, call.infoPlistSize)) = marks
  kept : (∀ call ∈ calls, call.KeepsInfoPlist) → ∀ x, plist ≤ x → x < plist + size → after x = memory x

/-- Every text is scanned to its end. -/
theorem scanDicts_some (hsize : size < 2 ^ 32) (rounds a range : Nat) (dictLevel : Int) (start : Option Nat)
    (memory : Memory) (hrange : a + range = plist + size) (ha : plist ≤ a) (hrounds : plist + size < a + rounds)
    (hstart : ∀ x ∈ start, plist ≤ x + 1 ∧ x < a) :
    ∃ run, scanDicts patcher plist size rounds a range dictLevel start memory = some run := by
  induction rounds generalizing a range dictLevel start memory with
  | zero => omega
  | succ rounds ih =>
      rw [scanDicts]
      cases hsearch : searchMemory memory a range (ascii "dict>") with
      | none => exact ⟨_, rfl⟩
      | some d =>
          obtain ⟨hle, hend, -, -⟩ := searchMemory_eq_some.mp hsearch
          have hlen : (ascii "dict>").length = 5 := by decide
          have hleft : u32 (size - (((d + 5 : Nat) : Int) - plist)) = plist + size - (d + 5) := by
            unfold u32
            omega
          have hnext : ∀ level start memory, (∀ x ∈ start, plist ≤ x + 1 ∧ x < d + 5) →
              ∃ run, scanDicts patcher plist size rounds (d + 5) (plist + size - (d + 5)) level start memory = some run :=
            fun level start memory hstart => ih (d + 5) _ level start memory (by omega) (by omega) (by omega) hstart
          have hold : ∀ x ∈ start, plist ≤ x + 1 ∧ x < d + 5 := by
            intro x hx
            obtain ⟨hlow, hhigh⟩ := hstart x hx
            exact ⟨hlow, by omega⟩
          dsimp only
          rw [hleft]
          by_cases hopen : memory (d - 1) = 60
          · rw [if_pos hopen]
            apply hnext
            intro x hx
            split_ifs at hx
            · obtain rfl := Option.some_inj.mp hx
              omega
            · exact hold x hx
          rw [if_neg hopen]
          by_cases hclose : memory (d - 2) = 60 ∧ memory (d - 1) = 47
          · rw [if_pos hclose]
            cases start with
            | none => exact hnext _ _ _ nofun
            | some x =>
                dsimp only
                split_ifs with hlevel
                · obtain ⟨hlow, hhigh⟩ := hstart x rfl
                  have hpatch : ∃ run, patchPrelinked patcher plist size x (d + 5) memory = some run :=
                    patchPrelinked_some (by omega) (by omega)
                  obtain ⟨run, hrun⟩ := hpatch
                  obtain ⟨rest, hrest⟩ := hnext (dictLevel - 1) (some x) run.1 hold
                  rw [hrun, Option.bind_eq_bind, Option.bind_some, hrest]
                  exact ⟨_, rfl⟩
                · exact hnext _ _ _ hold
          · rw [if_neg hclose]
            exact hnext _ _ _ hold

theorem Enumerates.nil : Enumerates plist size [] memory memory [] := ⟨rfl, fun _ _ _ _ => rfl⟩

/-- A call in front of a run over the memory it leaves. -/
theorem Enumerates.cons {marks : List (Nat × Nat)} {middle after : Memory} {call : KextCall} {calls : List KextCall}
    (hkept : call.KeepsInfoPlist → ∀ x, plist ≤ x → x < plist + size → middle x = memory x)
    (h : Enumerates plist size marks middle after calls) :
    Enumerates plist size ((call.infoPlist, call.infoPlistSize) :: marks) memory after (call :: calls) where
  extents := by rw [List.map_cons, h.extents]
  kept := by
    intro hall x hle hin
    have hrest : after x = middle x := h.kept (fun other hmem => hall other (List.mem_cons_of_mem _ hmem)) x hle hin
    rw [hrest]
    exact hkept (hall call List.mem_cons_self) x hle hin

theorem extents_nil (stack : List Nat) : Kext.extents stack [] = [] := by
  rw [Kext.extents.eq_def]

theorem extents_closing (start x : Nat) (stack : List Nat) (marks : List (Nat × Mark)) :
    Kext.extents (start :: stack) ((x, .closing) :: marks) =
      if stack.length = 1 then (start, x + 7 - start) :: Kext.extents stack marks else Kext.extents stack marks := rfl

/-- What the scanner relies on at `a`, with the open dicts on the stack. -/
structure Scanning (plist size : Nat) (stack : List Nat) (start : Option Nat) (memory : Memory) (a : Nat) : Prop where
  behind : plist ≤ a
  within : a ≤ plist + size
  clear : Clear memory (plist + size) a
  closings : ∀ x, a ≤ x → markAt memory (plist + size) x = some .closing → ¬ InsideTag memory (plist + size) (x + 7)
  balanced : Balanced stack.length (marksFrom memory (plist + size) (plist + size - a) a)
  saved : Saved stack start
  opened : ∀ x ∈ stack, plist ≤ x ∧ x < a

/-- The scanner goes on with a text it has not changed. -/
theorem Scanning.congr {stack : List Nat} {start : Option Nat} {memory' : Memory} {a : Nat}
    (h : Scanning plist size stack start memory a) (hclear : Clear memory' (plist + size) a)
    (hsame : ∀ x, a ≤ x → x < plist + size → memory' x = memory x) : Scanning plist size stack start memory' a where
  behind := h.behind
  within := h.within
  clear := hclear
  closings := by
    intro x hx hmark hinside
    rw [markAt_congr fun b hb hlt => hsame b (by omega) hlt] at hmark
    apply h.closings x hx hmark
    rwa [insideTag_congr fun b hb hlt => hsame b (by omega) hlt] at hinside
  balanced := by
    rw [marksFrom_congr fun b hb hlt => hsame b hb hlt]
    exact h.balanced
  saved := h.saved
  opened := h.opened

theorem Scanning.opening {stack : List Nat} {start : Option Nat} {a d : Nat} (h : Scanning plist size stack start memory a)
    (hfound : Found memory (plist + size) a d) (hopen : memory (d - 1) = 60) :
    Scanning plist size ((d - 1) :: stack) (if (stack.length : Int) + 1 = 2 then some (d - 1) else start) memory (d + 5) ∧
      Kext.extents stack (marksFrom memory (plist + size) (plist + size - a) a) =
        Kext.extents ((d - 1) :: stack) (marksFrom memory (plist + size) (plist + size - (d + 5)) (d + 5)) := by
  obtain ⟨had, hmarks⟩ := marksFrom_opening hfound h.clear hopen
  have ha := h.behind
  refine ⟨⟨by omega, hfound.within, clear_behind hfound.here, ?_, ?_, h.saved.push _, ?_⟩, ?_⟩
  · exact fun x hx => h.closings x (by omega)
  · have hbalanced := h.balanced
    rw [hmarks] at hbalanced
    exact hbalanced
  · intro x hx
    cases hx with
    | head => omega
    | tail _ hx =>
        have := h.opened x hx
        omega
  · rw [hmarks]
    rfl

theorem Scanning.closing {stack : List Nat} {start : Option Nat} {a d : Nat} (h : Scanning plist size stack start memory a)
    (hfound : Found memory (plist + size) a d) (hlt : memory (d - 2) = 60) (hslash : memory (d - 1) = 47) :
    ∃ x rest, stack = x :: rest ∧ Scanning plist size rest start memory (d + 5) ∧
      ¬ InsideTag memory (plist + size) (d + 5) ∧
      Kext.extents stack (marksFrom memory (plist + size) (plist + size - a) a) =
        if rest.length = 1 then
          (x, d + 5 - x) :: Kext.extents rest (marksFrom memory (plist + size) (plist + size - (d + 5)) (d + 5))
        else Kext.extents rest (marksFrom memory (plist + size) (plist + size - (d + 5)) (d + 5)) := by
  obtain ⟨had, hmark, hmarks⟩ := marksFrom_closing hfound h.clear hlt hslash
  have ha := h.behind
  have hbalanced := h.balanced
  have hsaved := h.saved
  have hopened := h.opened
  have hbehind : ¬ InsideTag memory (plist + size) (d + 5) := by
    have := h.closings (d - 2) (by omega) hmark
    rwa [show d - 2 + 7 = d + 5 by omega] at this
  rw [hmarks] at hbalanced
  cases stack with
  | nil => exact hbalanced.elim
  | cons x rest =>
      refine ⟨x, rest, rfl, ?_, hbehind, ?_⟩
      · refine ⟨by omega, hfound.within, clear_of_not_insideTag hbehind, ?_, hbalanced, hsaved.pop, ?_⟩
        · exact fun y hy => h.closings y (by omega)
        · intro y hy
          have := hopened y (List.mem_cons_of_mem _ hy)
          omega
      · rw [hmarks, extents_closing, show d - 2 + 7 = d + 5 by omega]

theorem Scanning.other {stack : List Nat} {start : Option Nat} {a d : Nat} (h : Scanning plist size stack start memory a)
    (hfound : Found memory (plist + size) a d) (hopen : memory (d - 1) ≠ 60)
    (hclosing : ¬ (memory (d - 2) = 60 ∧ memory (d - 1) = 47)) :
    Scanning plist size stack start memory (d + 5) ∧
      marksFrom memory (plist + size) (plist + size - a) a =
        marksFrom memory (plist + size) (plist + size - (d + 5)) (d + 5) := by
  have hmarks := marksFrom_other hfound hopen hclosing
  have ha := h.behind
  have had := hfound.behind
  refine ⟨⟨by omega, hfound.within, clear_behind hfound.here, ?_, ?_, h.saved, ?_⟩, hmarks⟩
  · exact fun x hx => h.closings x (by omega)
  · rw [← hmarks]
    exact h.balanced
  · intro x hx
    have := h.opened x hx
    omega

/-- The calls of a run are the extents of the dicts that end in the rest of the text. -/
theorem scanDicts_enumerates (houtside : patcher.Outside plist size) (hsize : size < 2 ^ 32) (rounds a : Nat)
    (stack : List Nat) (start : Option Nat) (memory after : Memory) (calls : List KextCall)
    (hrun : scanDicts patcher plist size rounds a (plist + size - a) stack.length start memory = some (after, calls))
    (h : Scanning plist size stack start memory a) (hapart : ∀ call ∈ calls, call.Apart plist size) :
    Enumerates plist size (Kext.extents stack (marksFrom memory (plist + size) (plist + size - a) a)) memory after calls := by
  induction rounds generalizing a stack start memory after calls with
  | zero => cases hrun
  | succ rounds ih =>
      rw [scanDicts] at hrun
      cases hsearch : searchMemory memory a (plist + size - a) (ascii "dict>") with
      | none =>
          rw [hsearch] at hrun
          have hnone : marksFrom memory (plist + size) (plist + size - a) a = [] := by
            apply marksFrom_nil
            intro b hab hin
            have hlen : (ascii "dict>").length = 5 := by decide
            exact searchMemory_eq_none.mp hsearch b hab (by omega)
          obtain ⟨rfl, rfl⟩ := Prod.mk.inj (Option.some_inj.mp hrun)
          rw [hnone, extents_nil]
          exact Enumerates.nil
      | some d =>
          obtain ⟨hle, hend, hhere, hfirst⟩ := searchMemory_eq_some.mp hsearch
          have hlen : (ascii "dict>").length = 5 := by decide
          have ha := h.behind
          have hfound : Found memory (plist + size) a d := ⟨hle, by omega, hhere, hfirst⟩
          have hleft : u32 (size - (((d + 5 : Nat) : Int) - plist)) = plist + size - (d + 5) := by
            unfold u32
            omega
          rw [hsearch] at hrun
          dsimp only at hrun
          rw [hleft] at hrun
          by_cases hopen : memory (d - 1) = 60
          · rw [if_pos hopen] at hrun
            obtain ⟨hnext, hextents⟩ := h.opening hfound hopen
            rw [hextents]
            exact ih (d + 5) _ _ memory after calls hrun hnext hapart
          rw [if_neg hopen] at hrun
          by_cases hclose : memory (d - 2) = 60 ∧ memory (d - 1) = 47
          · rw [if_pos hclose] at hrun
            obtain ⟨x, rest, rfl, hnext, hbehind, hextents⟩ := h.closing hfound hclose.1 hclose.2
            have hlevel : (((x :: rest).length : Nat) : Int) - 1 = rest.length := by
              rw [List.length_cons]
              omega
            rw [hextents]
            by_cases htop : rest.length = 1
            · rw [h.saved.top htop] at hrun hnext
              have htwo : (((x :: rest).length : Nat) : Int) = 2 := by
                rw [List.length_cons, htop]
                rfl
              dsimp only at hrun
              rw [if_pos htwo, hlevel] at hrun
              have hx := h.opened x List.mem_cons_self
              obtain ⟨middle, call, hpatch, hstart, hextent, hrest, hkept⟩ :=
                patchPrelinked_spec memory houtside hsize hx.1 (show x < d + 5 by omega) hfound.within
              rw [hpatch, Option.bind_eq_bind, Option.bind_some, Option.map_eq_some_iff] at hrun
              obtain ⟨⟨final, others⟩, hothers, hcalled⟩ := hrun
              obtain ⟨rfl, rfl⟩ := Prod.mk.inj hcalled
              have hcall : call.Apart plist size := hapart call List.mem_cons_self
              have hsame : ∀ y, d + 5 ≤ y → y < plist + size → middle y = memory y := by
                intro y hy hin
                exact hrest hcall y (by omega) hin (Or.inr hy)
              have hmiddle : Scanning plist size rest (some x) middle (d + 5) := by
                apply hnext.congr _ hsame
                apply clear_of_not_insideTag
                rwa [insideTag_congr hsame]
              have hothers := ih (d + 5) rest (some x) middle final others hothers hmiddle
                fun other hmem => hapart other (List.mem_cons_of_mem _ hmem)
              rw [marksFrom_congr hsame] at hothers
              rw [if_pos htop]
              have henumerates := Enumerates.cons (hkept hcall) hothers
              rwa [hstart, hextent] at henumerates
            · rw [if_neg htop]
              apply ih (d + 5) rest start memory after calls _ hnext hapart
              have htwo : (((x :: rest).length : Nat) : Int) ≠ 2 := by
                rw [List.length_cons]
                omega
              rw [← hlevel]
              cases start with
              | none => exact hrun
              | some y =>
                  dsimp only at hrun
                  rwa [if_neg htwo] at hrun
          · rw [if_neg hclose] at hrun
            obtain ⟨hnext, hmarks⟩ := h.other hfound hopen hclose
            rw [hmarks]
            exact ih (d + 5) stack start memory after calls hrun hnext hapart

/-- `PatchKext` is called for each dict at depth 2, in the order of the text and with its extent. -/
theorem patchPrelinkedKexts_enumerates (patcher : Patcher) (plist size : Nat) (memory : Memory)
    (hdocument : Document memory plist size) (houtside : patcher.Outside plist size) (hsize : size < 2 ^ 32) :
    ∃ after calls, patchPrelinkedKexts patcher plist size memory = some (after, calls) ∧
      ((∀ call ∈ calls, call.Apart plist size) →
        calls.map (fun call => (call.infoPlist, call.infoPlistSize)) =
            Kext.extents [] (marksFrom memory (plist + size) size plist) ∧
          ((∀ call ∈ calls, call.KeepsInfoPlist) → ∀ x, plist ≤ x → x < plist + size → after x = memory x)) := by
  have hrun : ∃ run, patchPrelinkedKexts patcher plist size memory = some run :=
    scanDicts_some hsize (size + 1) plist size 0 none memory rfl (Nat.le_refl _) (by omega) nofun
  obtain ⟨⟨after, calls⟩, hrun⟩ := hrun
  refine ⟨after, calls, hrun, ?_⟩
  intro hapart
  have hwhole : plist + size - plist = size := Nat.add_sub_cancel_left plist size
  have hscanning : Scanning plist size [] none memory plist := {
    behind := Nat.le_refl _
    within := Nat.le_add_right _ _
    clear := clear_of_not_insideTag hdocument.start
    closings := hdocument.behind
    balanced := by
      rw [hwhole]
      exact hdocument.balanced
    saved := nofun
    opened := nofun }
  have hscan : scanDicts patcher plist size (size + 1) plist (plist + size - plist) ([] : List Nat).length none memory =
      some (after, calls) := by
    rw [hwhole]
    exact hrun
  have henumerates := scanDicts_enumerates houtside hsize (size + 1) plist [] none memory after calls hscan hscanning hapart
  rw [hwhole] at henumerates
  exact ⟨henumerates.extents, henumerates.kept⟩

/-- Two kexts, the second one with an empty dict inside. -/
def twoKexts : Bytes := ascii "<dict><dict></dict><string>a</string><dict><dict/><dict></dict></dict></dict>"

def twoKextsMemory : Memory := store (fun _ => 0) 4096 twoKexts

/-- No patch is set. -/
def noPatches : Patcher := ⟨256, [], 0, 0⟩

theorem twoKexts_marks : marksFrom twoKextsMemory (4096 + 77) 77 4096 =
    [(4096, .opening), (4102, .opening), (4108, .closing), (4133, .opening), (4146, .opening), (4152, .closing),
      (4159, .closing), (4166, .closing)] := by
  decide +kernel

theorem twoKexts_document : Document twoKextsMemory 4096 77 where
  balanced := by
    rw [twoKexts_marks]
    exact rfl
  start := by decide +kernel
  behind := by
    have hplaces : ∀ i < 71, markAt twoKextsMemory (4096 + 77) (4096 + i) = some .closing →
        ¬ InsideTag twoKextsMemory (4096 + 77) (4096 + i + 7) := by
      decide +kernel
    intro x hx hmark
    obtain ⟨hin, -⟩ := markAt_eq_closing.mp hmark
    have hplace := hplaces (x - 4096) (by omega)
    rw [Nat.add_sub_cancel' hx] at hplace
    exact hplace hmark

theorem twoKexts_enumerated : ∃ after calls, patchPrelinkedKexts noPatches 4096 77 twoKextsMemory = some (after, calls) ∧
    calls.map (fun call => (call.infoPlist, call.infoPlistSize)) = [(4102, 13), (4133, 33)] := by
  obtain ⟨after, calls, hrun, henumerates⟩ := patchPrelinkedKexts_enumerates noPatches 4096 77 twoKextsMemory
    twoKexts_document (Or.inl (by decide)) (by decide)
  have hempty : (patchPrelinkedKexts noPatches 4096 77 twoKextsMemory).all
      (fun run => run.2.all fun call => decide (call.driverSize = 0)) = true := by
    decide +kernel
  rw [hrun, Option.all_some, List.all_eq_true] at hempty
  have hextents := (henumerates fun call hmem => Or.inl (of_decide_eq_true (hempty call hmem))).1
  rw [twoKexts_marks] at hextents
  exact ⟨after, calls, hrun, hextents⟩

end Run

end BareBoot.Kext
