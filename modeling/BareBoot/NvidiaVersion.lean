import BareBoot.PlistBase64
import Mathlib.Data.List.Basic

/-! The search for the version in a video BIOS, in `setup_nvidia_devprop` of `device_inject.c`: lines in the first 384
bytes, and from the end of each line backwards for the zero byte in front of the version. -/

namespace BareBoot.Nvidia

open Plist (Bytes ascii)

/-! ### The scan -/

/-- How far a piece of the scan gets with its fuel; `outside` is a byte that is not in the image. -/
inductive Outcome (α : Type)
  | value (a : α)
  | outside
  | running
  deriving DecidableEq, Repr

def versionText : Bytes := ascii "Version "

section Scan

variable (rom : Bytes)

/-- `AsciiStrnCmp` with all of a text that has no zero byte. -/
def asciiStrnCmp : Bytes → Nat → Option Bool
  | [], _ => some true
  | c :: text, at' =>
      match rom[at']? with
      | none => none
      | some b => if b = c then asciiStrnCmp text (at' + 1) else some false

/-- The cursor is a `UINT16`; its bound `i - 32` is an `int`. The result is where the version starts. -/
def searchBack (crlfCount i : Nat) : Nat → Nat → Outcome (Option Nat)
  | 0, _ => .running
  | fuel + 1, versionStart =>
      if (i : Int) - 32 < versionStart then
        match rom[versionStart]? with
        | none => .outside
        | some b =>
            if b = 0 then
              match asciiStrnCmp rom versionText (versionStart + 1) with
              | none => .outside
              | some isVersion =>
                  if isVersion = true ∨ crlfCount = 2 then
                    .value (some (((if isVersion then versionStart + 8 else versionStart) + 1) % 2 ^ 16))
                  else searchBack crlfCount i fuel ((versionStart + (2 ^ 16 - 1)) % 2 ^ 16)
            else searchBack crlfCount i fuel ((versionStart + (2 ^ 16 - 1)) % 2 ^ 16)
      else .value none

/-- `pool` tells which allocations succeed; a negative length is no length at all. Without the pool the bytes are
copied to `NULL`, and the scan goes on. -/
def copyVersion (pool : Nat → Bool) (crlfCount i : Nat) : Option Nat → Option (Option Bytes)
  | none => some none
  | some versionStart =>
      if versionStart < i ∧ rom.length < i then none
      else if pool crlfCount = true ∧ versionStart ≤ i + 1 then some (some ((rom.drop versionStart).take (i - versionStart)))
      else some none

/-- A line feed behind `i`: the index at the end of the round, and the version. -/
def crlf (pool : Nat → Bool) (crlfCount i fuel : Nat) : Outcome (Nat × Option Bytes) :=
  if i = 0 then .outside
  else
    match rom[i - 1]? with
    | none => .outside
    | some b =>
        let i := if b = 0x20 then i - 1 else i
        match searchBack rom crlfCount i fuel i with
        | .outside => .outside
        | .running => .running
        | .value versionStart =>
            match copyVersion rom pool crlfCount i versionStart with
            | none => .outside
            | some (some version) => .value (i, some version)
            | some none =>
                match rom[i]? with
                | none => .outside
                | some c => .value (if c = 0x20 then i + 1 else i, none)

def scan (pool : Nat → Bool) : Nat → Nat → Nat → Outcome (Option Bytes)
  | 0, _, _ => .running
  | fuel + 1, i, crlfCount =>
      if i < 0x180 then
        match rom[i]? with
        | none => .outside
        | some c =>
            if c = 0x0D then
              match rom[i + 1]? with
              | none => .outside
              | some d =>
                  if d = 0x0A then
                    match crlf rom pool (crlfCount + 1) i fuel with
                    | .outside => .outside
                    | .running => .running
                    | .value (_, some version) => .value (some version)
                    | .value (i, none) => scan pool fuel (i + 1) (crlfCount + 1)
                  else scan pool fuel (i + 1) crlfCount
            else scan pool fuel (i + 1) crlfCount
      else .value none

/-! ### Lines -/

/-- The byte at the cursor, and the text behind a zero byte, can be compared. -/
def Readable (i : Nat) : Prop := ∃ b, rom[i]? = some b ∧ (b = 0 → ∃ r, asciiStrnCmp rom versionText (i + 1) = some r)

/-- A version begins behind the zero byte: it says so, or the line is the second one. -/
def Hit (crlfCount i : Nat) : Prop :=
  rom[i]? = some 0 ∧ ∃ r, asciiStrnCmp rom versionText (i + 1) = some r ∧ (r = true ∨ crlfCount = 2)

/-- The cursor after `j` rounds: down to zero, and on from the top. -/
def cursor (e j : Nat) : Nat := if j ≤ e then e - j else 2 ^ 16 + e - j

/-- Where the version starts that stands behind a zero byte. -/
def versionStart (i : Nat) : Nat :=
  ((if asciiStrnCmp rom versionText (i + 1) = some true then i + 8 else i) + 1) % 2 ^ 16

/-- The version begins behind the cursor of round `j`, the first time. -/
def Found (crlfCount e j : Nat) : Prop :=
  j < 2 ^ 16 ∧ (32 ≤ e → j < 32) ∧ Hit rom crlfCount (cursor e j) ∧
    ∀ j' < j, Readable rom (cursor e j') ∧ ¬ Hit rom crlfCount (cursor e j')

def isLine (p : Nat) : Prop := rom[p]? = some 0x0D ∧ rom[p + 1]? = some 0x0A

instance (p : Nat) : Decidable (isLine rom p) := inferInstanceAs (Decidable (_ ∧ _))

/-- A blank at the end of the line is stripped. -/
def lineEnd (p : Nat) : Nat := if rom[p - 1]? = some 0x20 then p - 1 else p

/-- The number of the line that ends at `p`. -/
def lineNumber (p : Nat) : Nat := ((List.range p).filter (isLine rom)).length + 1

/-- The version of the line at `p` is found and copied. -/
def Ends (pool : Nat → Bool) (p : Nat) : Prop :=
  ∃ j, Found rom (lineNumber rom p) (lineEnd rom p) j ∧ pool (lineNumber rom p) = true ∧
    versionStart rom (cursor (lineEnd rom p) j) ≤ lineEnd rom p + 1

/-- The cursor stops: the line is not among the first 32 bytes, or a version begins before the cursor meets what cannot be
read. -/
def Stops (crlfCount e : Nat) : Prop :=
  32 ≤ e ∨ ∃ j < 2 ^ 16, Hit rom crlfCount (cursor e j) ∧ ∀ j' < j, Readable rom (cursor e j')

/-- What the byte at `p` has to be like. -/
structure Fine (p : Nat) : Prop where
  inside : p < rom.length
  next : rom[p]? = some 0x0D → p + 1 < rom.length
  first : isLine rom p → 0 < p
  stops : isLine rom p → Stops rom (lineNumber rom p) (lineEnd rom p)

end Scan

/-! ### The cursor -/

section Cursor

variable {rom : Bytes} {crlfCount e i : Nat}

theorem cursor_step {j : Nat} (he : e < 2 ^ 16) (hj : j < 2 ^ 16) :
    (cursor e j + (2 ^ 16 - 1)) % 2 ^ 16 = cursor e (j + 1) := by
  rw [cursor, cursor]
  split_ifs <;> omega

theorem exists_cursor (he : e < 2 ^ 16) (hi : i < 2 ^ 16) : ∃ j < 2 ^ 16, cursor e j = i := by
  by_cases hle : i ≤ e
  · exact ⟨e - i, by omega, by rw [cursor, if_pos (by omega)]; omega⟩
  · exact ⟨2 ^ 16 + e - i, by omega, by rw [cursor, if_neg (by omega)]; omega⟩

/-- The loop condition. -/
theorem guard_cursor {j : Nat} (hj : 32 ≤ e → j < 32) : (e : Int) - 32 < cursor e j := by
  rw [cursor]
  split_ifs <;> omega

theorem searchBack_next {fuel : Nat} (hguard : (e : Int) - 32 < i) (hread : Readable rom i) (hhit : ¬ Hit rom crlfCount i) :
    searchBack rom crlfCount e (fuel + 1) i = searchBack rom crlfCount e fuel ((i + (2 ^ 16 - 1)) % 2 ^ 16) := by
  obtain ⟨b, hb, hcompare⟩ := hread
  rw [searchBack, if_pos hguard, hb]
  dsimp only
  split_ifs with hzero
  · subst hzero
    obtain ⟨r, hr⟩ := hcompare rfl
    have hno : ¬ (r = true ∨ crlfCount = 2) := fun h => hhit ⟨hb, r, hr, h⟩
    rw [hr]
    dsimp only
    rw [if_neg hno]
  · rfl

theorem searchBack_hit {fuel : Nat} (hguard : (e : Int) - 32 < i) (hhit : Hit rom crlfCount i) :
    searchBack rom crlfCount e (fuel + 1) i = .value (some (versionStart rom i)) := by
  obtain ⟨hb, r, hr, hor⟩ := hhit
  rw [searchBack, if_pos hguard, hb, hr]
  dsimp only
  rw [if_pos rfl, if_pos hor, versionStart, hr]
  cases r with
  | true => rfl
  | false => rfl

theorem searchBack_outside {fuel : Nat} (hguard : (e : Int) - 32 < i) (hread : ¬ Readable rom i) :
    searchBack rom crlfCount e (fuel + 1) i = .outside := by
  rw [searchBack, if_pos hguard]
  cases hb : rom[i]? with
  | none => rfl
  | some b =>
      have hzero : b = 0 := by
        by_contra hne
        exact hread ⟨b, hb, fun h => absurd h hne⟩
      have hcompare : asciiStrnCmp rom versionText (i + 1) = none := by
        rw [Option.eq_none_iff_forall_ne_some]
        exact fun r hr => hread ⟨b, hb, fun _ => ⟨r, hr⟩⟩
      dsimp only
      rw [if_pos hzero, hcompare]

theorem Hit.readable (h : Hit rom crlfCount i) : Readable rom i :=
  ⟨0, h.1, fun _ => ⟨h.2.choose, h.2.choose_spec.1⟩⟩

/-- Without a version in the whole image the cursor goes round and round. -/
theorem searchBack_running (he : e < 32) (hnone : ∀ i < 2 ^ 16, Readable rom i ∧ ¬ Hit rom crlfCount i) (fuel : Nat)
    (hi : i < 2 ^ 16) : searchBack rom crlfCount e fuel i = .running := by
  induction fuel generalizing i with
  | zero => rfl
  | succ fuel ih =>
      obtain ⟨hread, hhit⟩ := hnone i hi
      rw [searchBack_next (by omega) hread hhit]
      exact ih (Nat.mod_lt _ (by decide))

/-- What a search has found when it ends. -/
theorem searchBack_value {fuel j : Nat} {r : Option Nat} (he : e < 2 ^ 16) (hj : j ≤ 2 ^ 16) (hwindow : 32 ≤ e → j ≤ 32)
    (hbefore : ∀ j' < j, Readable rom (cursor e j') ∧ ¬ Hit rom crlfCount (cursor e j'))
    (h : searchBack rom crlfCount e fuel (cursor e j) = .value r) :
    (r = none ∧ 32 ≤ e ∧ ∀ j' < 32, ¬ Hit rom crlfCount (cursor e j')) ∨
      ∃ j, Found rom crlfCount e j ∧ r = some (versionStart rom (cursor e j)) := by
  induction fuel generalizing j with
  | zero => cases h
  | succ fuel ih =>
      by_cases hend : 32 ≤ e ∧ j = 32
      · obtain ⟨hle, rfl⟩ := hend
        rw [searchBack, if_neg (by rw [cursor, if_pos hle]; omega)] at h
        obtain rfl : none = r := Outcome.value.inj h
        exact Or.inl ⟨rfl, hle, fun j' hj' => (hbefore j' hj').2⟩
      · by_cases hround : j = 2 ^ 16
        · have hall : ∀ i < 2 ^ 16, Readable rom i ∧ ¬ Hit rom crlfCount i := by
            intro i hi
            obtain ⟨j', hj', rfl⟩ := exists_cursor he hi
            exact hbefore j' (hround ▸ hj')
          have hcursor : cursor e j < 2 ^ 16 := by
            rw [cursor]
            split_ifs <;> omega
          rw [searchBack_running (by omega) hall _ hcursor] at h
          cases h
        · have hguard : (e : Int) - 32 < cursor e j := guard_cursor (by omega)
          by_cases hhit : Hit rom crlfCount (cursor e j)
          · rw [searchBack_hit hguard hhit] at h
            exact Or.inr ⟨j, ⟨by omega, by omega, hhit, hbefore⟩, (Outcome.value.inj h).symm⟩
          · by_cases hread : Readable rom (cursor e j)
            · rw [searchBack_next hguard hread hhit, cursor_step he (by omega)] at h
              refine ih (by omega) (by omega) (fun j' hj' => ?_) h
              rcases Nat.lt_succ_iff_lt_or_eq.mp hj' with hlt | rfl
              · exact hbefore j' hlt
              · exact ⟨hread, hhit⟩
            · rw [searchBack_outside hguard hread] at h
              cases h

theorem cursor_zero (e : Nat) : cursor e 0 = e := by rw [cursor, if_pos (Nat.zero_le _), Nat.sub_zero]

theorem searchBack_value_start {fuel : Nat} {r : Option Nat} (he : e < 2 ^ 16)
    (h : searchBack rom crlfCount e fuel e = .value r) :
    (r = none ∧ 32 ≤ e ∧ ∀ j' < 32, ¬ Hit rom crlfCount (cursor e j')) ∨
      ∃ j, Found rom crlfCount e j ∧ r = some (versionStart rom (cursor e j)) := by
  refine @searchBack_value _ _ _ fuel 0 _ he (Nat.zero_le _) (fun _ => Nat.zero_le _)
    (fun j' hj' => absurd hj' (Nat.not_lt_zero j')) ?_
  rw [cursor_zero]
  exact h

/-- The rounds before the version is found. -/
theorem searchBack_rounds {j : Nat} (he : e < 2 ^ 16) (hj : j ≤ 2 ^ 16) (hwindow : 32 ≤ e → j ≤ 32)
    (hbefore : ∀ j' < j, Readable rom (cursor e j') ∧ ¬ Hit rom crlfCount (cursor e j')) (fuel : Nat) :
    searchBack rom crlfCount e (j + fuel) e = searchBack rom crlfCount e fuel (cursor e j) := by
  induction j generalizing fuel with
  | zero => rw [Nat.zero_add, cursor_zero]
  | succ j ih =>
      obtain ⟨hread, hhit⟩ := hbefore j (Nat.lt_succ_self j)
      rw [Nat.add_right_comm, Nat.add_assoc, ih (by omega) (by omega) (fun j' hj' => hbefore j' (by omega)),
        searchBack_next (guard_cursor (by omega)) hread hhit, cursor_step he (by omega)]

theorem Found.searchBack {j : Nat} (he : e < 2 ^ 16) (h : Found rom crlfCount e j) {fuel : Nat} (hfuel : j < fuel) :
    searchBack rom crlfCount e fuel e = .value (some (versionStart rom (cursor e j))) := by
  obtain ⟨hj, hwindow, hhit, hbefore⟩ := h
  obtain ⟨rest, rfl⟩ := Nat.exists_eq_add_of_le (Nat.succ_le_of_lt hfuel)
  rw [Nat.succ_eq_add_one, Nat.add_assoc, Nat.add_comm 1 rest,
    searchBack_rounds he hj.le (fun h => (hwindow h).le) hbefore]
  exact searchBack_hit (guard_cursor hwindow) hhit

theorem searchBack_none (he : e < 2 ^ 16) (hlow : 32 ≤ e)
    (hbefore : ∀ j' < 32, Readable rom (cursor e j') ∧ ¬ Hit rom crlfCount (cursor e j')) {fuel : Nat} (hfuel : 32 < fuel) :
    searchBack rom crlfCount e fuel e = .value none := by
  obtain ⟨rest, rfl⟩ := Nat.exists_eq_add_of_le (Nat.succ_le_of_lt hfuel)
  rw [Nat.succ_eq_add_one, Nat.add_assoc, Nat.add_comm 1 rest, searchBack_rounds he (by decide) (fun _ => le_rfl) hbefore,
    Nvidia.searchBack, if_neg (by rw [cursor, if_pos hlow]; omega)]

end Cursor

/-! ### Lines -/

section Lines

variable {rom : Bytes} {pool : Nat → Bool} {p fuel : Nat}

/-- What a comparison that runs out of the image has met is in its text. -/
theorem mem_of_asciiStrnCmp {text : Bytes} {i q : Nat} {c : UInt8} (h : asciiStrnCmp rom text i = none) (hle : i ≤ q)
    (hq : rom[q]? = some c) : c ∈ text := by
  induction text generalizing i with
  | nil => cases h
  | cons d text ih =>
      rw [asciiStrnCmp] at h
      cases hi : rom[i]? with
      | none =>
          have hend := List.getElem?_eq_none_iff.mp hi
          have hlt := (List.getElem?_eq_some_iff.mp hq).1
          omega
      | some b =>
          rw [hi] at h
          dsimp only at h
          split_ifs at h with hb
          rcases Nat.lt_or_eq_of_le hle with hlt | rfl
          · exact List.mem_cons_of_mem _ (ih h hlt)
          · obtain rfl := Option.some_inj.mp (hi.symm.trans hq)
            rw [hb]
            exact List.mem_cons_self

/-- All in front of a carriage return is readable. -/
theorem readable_of_le (hp : rom[p]? = some 0x0D) {i : Nat} (hi : i ≤ p) : Readable rom i := by
  have hlt : p < rom.length := (List.getElem?_eq_some_iff.mp hp).1
  refine ⟨rom[i], List.getElem?_eq_getElem (by omega), fun hzero => ?_⟩
  have hne : i ≠ p := by
    rintro rfl
    rw [List.getElem?_eq_getElem hlt, hzero] at hp
    exact absurd hp (by decide)
  cases hcompare : asciiStrnCmp rom versionText (i + 1) with
  | none => exact absurd (mem_of_asciiStrnCmp hcompare (by omega : i + 1 ≤ p) hp) (by decide)
  | some r => exact ⟨r, rfl⟩

theorem lineEnd_le : lineEnd rom p ≤ p := by
  rw [lineEnd]
  split_ifs <;> omega

theorem readable_cursor (hp : rom[p]? = some 0x0D) {j : Nat} (hj : j ≤ lineEnd rom p) :
    Readable rom (cursor (lineEnd rom p) j) := by
  have hle : lineEnd rom p ≤ p := lineEnd_le
  rw [cursor, if_pos hj]
  exact readable_of_le hp (by omega)

/-- Away from the beginning the window of a line holds a version or ends the search. -/
theorem window_cases (hp : rom[p]? = some 0x0D) (hlow : 32 ≤ lineEnd rom p) :
    (∃ j, Found rom (lineNumber rom p) (lineEnd rom p) j) ∨
      ∀ j < 32, Readable rom (cursor (lineEnd rom p) j) ∧ ¬ Hit rom (lineNumber rom p) (cursor (lineEnd rom p) j) := by
  classical
  by_cases hfound : ∃ j, j < 32 ∧ Hit rom (lineNumber rom p) (cursor (lineEnd rom p) j)
  · obtain ⟨hlt, hhit⟩ := Nat.find_spec hfound
    refine Or.inl ⟨Nat.find hfound, by omega, fun _ => hlt, hhit, fun j' hj' => ?_⟩
    exact ⟨readable_cursor hp (by omega), fun h => Nat.find_min hfound hj' ⟨by omega, h⟩⟩
  · exact Or.inr fun j hj => ⟨readable_cursor hp (by omega), fun h => hfound ⟨j, hj, h⟩⟩

/-- A search that stops has found a version, or its window is over. -/
theorem Stops.cases (hp : rom[p]? = some 0x0D) (h : Stops rom (lineNumber rom p) (lineEnd rom p)) :
    (∃ j, Found rom (lineNumber rom p) (lineEnd rom p) j) ∨ 32 ≤ lineEnd rom p ∧
      ∀ j < 32, Readable rom (cursor (lineEnd rom p) j) ∧ ¬ Hit rom (lineNumber rom p) (cursor (lineEnd rom p) j) := by
  classical
  by_cases hlow : 32 ≤ lineEnd rom p
  · exact (window_cases hp hlow).imp_right fun hnone => ⟨hlow, hnone⟩
  · obtain ⟨j, hj, hhit, hread⟩ := h.resolve_left hlow
    have hfound : ∃ j, Hit rom (lineNumber rom p) (cursor (lineEnd rom p) j) := ⟨j, hhit⟩
    have hle : Nat.find hfound ≤ j := Nat.find_min' hfound hhit
    refine Or.inl ⟨Nat.find hfound, by omega, fun h => absurd h hlow, Nat.find_spec hfound, fun j' hj' => ?_⟩
    exact ⟨hread j' (by omega), Nat.find_min hfound hj'⟩

theorem Found.unique {crlfCount e j j' : Nat} (h : Found rom crlfCount e j) (h' : Found rom crlfCount e j') : j = j' := by
  rcases lt_trichotomy j j' with hlt | heq | hgt
  · exact absurd h.2.2.1 (h'.2.2.2 j hlt).2
  · exact heq
  · exact absurd h'.2.2.1 (h.2.2.2 j' hgt).2

/-- The byte at the end of a line, and where the round leaves the index. -/
theorem lineEnd_byte (hp : rom[p]? = some 0x0D) (hpos : 0 < p) :
    ∃ c, rom[lineEnd rom p]? = some c ∧ (if c = 0x20 then lineEnd rom p + 1 else lineEnd rom p) = p := by
  rw [lineEnd]
  split_ifs with hblank
  · exact ⟨0x20, hblank, by rw [if_pos rfl]; omega⟩
  · exact ⟨0x0D, hp, by rw [if_neg (by decide)]⟩

theorem copyVersion_eq {crlfCount i : Nat} (hi : i < rom.length) (vs : Nat) :
    copyVersion rom pool crlfCount i (some vs) =
      if pool crlfCount = true ∧ vs ≤ i + 1 then some (some ((rom.drop vs).take (i - vs))) else some none := by
  rw [copyVersion, if_neg (by omega)]

/-- The round of a line, with what its search gives. -/
theorem crlf_eq {crlfCount : Nat} (hp : rom[p]? = some 0x0D) (hpos : 0 < p) :
    crlf rom pool crlfCount p fuel =
      match searchBack rom crlfCount (lineEnd rom p) fuel (lineEnd rom p) with
      | .outside => .outside
      | .running => .running
      | .value versionStart =>
          match copyVersion rom pool crlfCount (lineEnd rom p) versionStart with
          | none => .outside
          | some (some version) => .value (lineEnd rom p, some version)
          | some none => .value (p, none) := by
  have hlt : p < rom.length := (List.getElem?_eq_some_iff.mp hp).1
  have hbyte : rom[p - 1]? = some rom[p - 1] := List.getElem?_eq_getElem (by omega)
  have hend : (if rom[p - 1] = 0x20 then p - 1 else p) = lineEnd rom p := by
    rw [lineEnd, hbyte]
    simp only [Option.some_inj]
  obtain ⟨c, hc, hindex⟩ := lineEnd_byte hp hpos
  rw [crlf, if_neg (by omega), hbyte]
  dsimp only
  rw [hend]
  cases searchBack rom crlfCount (lineEnd rom p) fuel (lineEnd rom p) with
  | outside => rfl
  | running => rfl
  | value versionStart =>
      dsimp only
      cases copyVersion rom pool crlfCount (lineEnd rom p) versionStart with
      | none => rfl
      | some version =>
          cases version with
          | some version => rfl
          | none =>
              dsimp only
              rw [hc]
              dsimp only
              rw [hindex]

variable (hline : isLine rom p) (hsmall : p < 2 ^ 16)
include hline hsmall

/-- A round that ends stopped its search; it ended the scan, or left it at the line. -/
theorem crlf_value {i : Nat} {r : Option Bytes} (h : crlf rom pool (lineNumber rom p) p fuel = .value (i, r)) :
    0 < p ∧ Stops rom (lineNumber rom p) (lineEnd rom p) ∧
      ((∃ version, r = some version ∧ Ends rom pool p) ∨ r = none ∧ i = p ∧ ¬ Ends rom pool p) := by
  have hpos : 0 < p := by
    by_contra hzero
    rw [crlf, if_pos (by omega)] at h
    cases h
  have hlt : p < rom.length := (List.getElem?_eq_some_iff.mp hline.1).1
  have hle : lineEnd rom p ≤ p := lineEnd_le
  rw [crlf_eq hline.1 hpos] at h
  cases hresult : searchBack rom (lineNumber rom p) (lineEnd rom p) fuel (lineEnd rom p) with
  | outside =>
      rw [hresult] at h
      cases h
  | running =>
      rw [hresult] at h
      cases h
  | value found =>
      rw [hresult] at h
      rcases searchBack_value_start (by omega) hresult with ⟨rfl, hlow, hnone⟩ | ⟨j, hfound, rfl⟩
      · obtain ⟨rfl, rfl⟩ := Prod.mk.inj (Outcome.value.inj h)
        refine ⟨hpos, Or.inl hlow, Or.inr ⟨rfl, rfl, ?_⟩⟩
        rintro ⟨j, hfound, -⟩
        exact hnone j (hfound.2.1 hlow) hfound.2.2.1
      · have hstops : Stops rom (lineNumber rom p) (lineEnd rom p) :=
          Or.inr ⟨j, hfound.1, hfound.2.2.1, fun j' hj' => (hfound.2.2.2 j' hj').1⟩
        dsimp only at h
        rw [copyVersion_eq (by omega)] at h
        refine ⟨hpos, hstops, ?_⟩
        split_ifs at h with hpool
        · obtain ⟨-, rfl⟩ := Prod.mk.inj (Outcome.value.inj h)
          exact Or.inl ⟨_, rfl, j, hfound, hpool⟩
        · obtain ⟨rfl, rfl⟩ := Prod.mk.inj (Outcome.value.inj h)
          refine Or.inr ⟨rfl, rfl, ?_⟩
          rintro ⟨j', hfound', hpool'⟩
          obtain rfl := hfound.unique hfound'
          exact hpool hpool'

/-- A search that stops lets its round end. -/
theorem crlf_stops (hpos : 0 < p) (hstops : Stops rom (lineNumber rom p) (lineEnd rom p)) :
    ∃ n, (∃ version, ∀ fuel, n ≤ fuel → crlf rom pool (lineNumber rom p) p fuel = .value (lineEnd rom p, some version)) ∨
      ¬ Ends rom pool p ∧ ∀ fuel, n ≤ fuel → crlf rom pool (lineNumber rom p) p fuel = .value (p, none) := by
  have hlt : p < rom.length := (List.getElem?_eq_some_iff.mp hline.1).1
  have hle : lineEnd rom p ≤ p := lineEnd_le
  rcases hstops.cases hline.1 with ⟨j, hfound⟩ | ⟨hlow, hnone⟩
  · have hround : ∀ fuel, j + 1 ≤ fuel → crlf rom pool (lineNumber rom p) p fuel =
        if pool (lineNumber rom p) = true ∧ versionStart rom (cursor (lineEnd rom p) j) ≤ lineEnd rom p + 1 then
          .value (lineEnd rom p, some ((rom.drop (versionStart rom (cursor (lineEnd rom p) j))).take
            (lineEnd rom p - versionStart rom (cursor (lineEnd rom p) j))))
        else .value (p, none) := by
      intro fuel hfuel
      rw [crlf_eq hline.1 hpos, hfound.searchBack (by omega) (by omega)]
      dsimp only
      rw [copyVersion_eq (by omega)]
      split_ifs <;> rfl
    refine ⟨j + 1, ?_⟩
    split_ifs at hround with hpool
    · exact Or.inl ⟨_, hround⟩
    · refine Or.inr ⟨?_, hround⟩
      rintro ⟨j', hfound', hpool'⟩
      obtain rfl := hfound.unique hfound'
      exact hpool hpool'
  · refine ⟨33, Or.inr ⟨?_, fun fuel hfuel => ?_⟩⟩
    · rintro ⟨j, hfound, -⟩
      exact (hnone j (hfound.2.1 hlow)).2 hfound.2.2.1
    · rw [crlf_eq hline.1 hpos, searchBack_none (by omega) hlow hnone (by omega)]
      rfl

end Lines

/-! ### The scan -/

section Scan

variable {rom : Bytes} {pool : Nat → Bool}

/-- The lines in front of `i`. -/
def linesBefore (rom : Bytes) (i : Nat) : Nat := ((List.range i).filter (isLine rom)).length

theorem linesBefore_succ (i : Nat) :
    linesBefore rom (i + 1) = if isLine rom i then linesBefore rom i + 1 else linesBefore rom i := by
  rw [linesBefore, List.range_succ, List.filter_append, List.length_append, List.filter_singleton, linesBefore]
  split_ifs <;> simp_all

/-- The bytes from `i` on that the scan comes to. -/
def FineFrom (rom : Bytes) (pool : Nat → Bool) (i : Nat) : Prop :=
  ∀ p, i ≤ p → p < 0x180 → (∀ q, i ≤ q → q < p → isLine rom q → ¬ Ends rom pool q) → Fine rom p

theorem fineFrom_end {i : Nat} (hi : 0x180 ≤ i) : FineFrom rom pool i := fun p hip hp _ => by omega

theorem fineFrom_iff {i : Nat} (hi : i < 0x180) : FineFrom rom pool i ↔
    Fine rom i ∧ ((isLine rom i → ¬ Ends rom pool i) → FineFrom rom pool (i + 1)) := by
  constructor
  · intro h
    refine ⟨h i le_rfl hi fun q hiq hqi => by omega, fun hgoes p hip hp hbefore => h p (by omega) hp fun q hiq hqp => ?_⟩
    rcases Nat.lt_or_eq_of_le hiq with hlt | rfl
    · exact hbefore q hlt hqp
    · exact hgoes
  · rintro ⟨hfine, hrest⟩ p hip hp hbefore
    rcases Nat.lt_or_eq_of_le hip with hlt | rfl
    · exact hrest (hbefore i le_rfl hlt) p hlt hp fun q hiq hqp => hbefore q (by omega) hqp
    · exact hfine

/-- A byte that ends no line. -/
theorem scan_plain {i fuel : Nat} (hi : i < 0x180) (hfine : Fine rom i) (hline : ¬ isLine rom i) :
    scan rom pool (fuel + 1) i (linesBefore rom i) = scan rom pool fuel (i + 1) (linesBefore rom (i + 1)) := by
  rw [scan, if_pos hi, linesBefore_succ, if_neg hline, List.getElem?_eq_getElem hfine.inside]
  dsimp only
  split_ifs with hreturn
  · have hnext := hfine.next ((List.getElem?_eq_getElem hfine.inside).trans (congrArg some hreturn))
    rw [List.getElem?_eq_getElem hnext]
    dsimp only
    rw [if_neg fun hfeed => hline ⟨?_, ?_⟩]
    · exact (List.getElem?_eq_getElem hfine.inside).trans (congrArg some hreturn)
    · exact (List.getElem?_eq_getElem hnext).trans (congrArg some hfeed)
  · rfl

theorem scan_line {i fuel : Nat} (hi : i < 0x180) (hline : isLine rom i) :
    scan rom pool (fuel + 1) i (linesBefore rom i) =
      match crlf rom pool (lineNumber rom i) i fuel with
      | .outside => .outside
      | .running => .running
      | .value (_, some version) => .value (some version)
      | .value (j, none) => scan rom pool fuel (j + 1) (linesBefore rom (i + 1)) := by
  rw [scan, if_pos hi, linesBefore_succ, if_pos hline, hline.1, hline.2]
  rfl

theorem fine_of_scan {i fuel crlfCount : Nat} {v : Option Bytes} (hi : i < 0x180) (hline : ¬ isLine rom i)
    (h : scan rom pool (fuel + 1) i crlfCount = .value v) : Fine rom i := by
  rw [scan, if_pos hi] at h
  cases hbyte : rom[i]? with
  | none =>
      rw [hbyte] at h
      cases h
  | some c =>
      refine ⟨(List.getElem?_eq_some_iff.mp hbyte).1, fun hreturn => ?_, fun hl => absurd hl hline, fun hl => absurd hl hline⟩
      rw [hreturn] at h
      dsimp only at h
      rw [if_pos rfl] at h
      cases hnext : rom[i + 1]? with
      | none =>
          rw [hnext] at h
          cases h
      | some d => exact (List.getElem?_eq_some_iff.mp hnext).1

/-- What a scan that ends has read. -/
theorem fineFrom_of_scan {fuel i : Nat} {v : Option Bytes} (h : scan rom pool fuel i (linesBefore rom i) = .value v) :
    FineFrom rom pool i := by
  induction fuel generalizing i with
  | zero => cases h
  | succ fuel ih =>
      by_cases hi : i < 0x180
      · rw [fineFrom_iff hi]
        by_cases hline : isLine rom i
        · have hlt : i < rom.length := (List.getElem?_eq_some_iff.mp hline.1).1
          have hnext : i + 1 < rom.length := (List.getElem?_eq_some_iff.mp hline.2).1
          rw [scan_line hi hline] at h
          cases hround : crlf rom pool (lineNumber rom i) i fuel with
          | outside =>
              rw [hround] at h
              cases h
          | running =>
              rw [hround] at h
              cases h
          | value result =>
              obtain ⟨j, version⟩ := result
              rw [hround] at h
              obtain ⟨hpos, hstops, hor⟩ := crlf_value hline (by omega) hround
              refine ⟨⟨hlt, fun _ => hnext, fun _ => hpos, fun _ => hstops⟩, fun hgoes => ?_⟩
              rcases hor with ⟨_, rfl, hends⟩ | ⟨rfl, rfl, -⟩
              · exact absurd hends (hgoes hline)
              · exact ih h
        · have hfine := fine_of_scan hi hline h
          rw [scan_plain hi hfine hline] at h
          exact ⟨hfine, fun _ => ih h⟩
      · exact fineFrom_end (not_lt.mp hi)

/-- Fine bytes let the scan end. -/
theorem scan_of_fineFrom {i : Nat} (h : FineFrom rom pool i) :
    ∃ n v, ∀ fuel, n ≤ fuel → scan rom pool fuel i (linesBefore rom i) = .value v := by
  rcases Nat.lt_or_ge i 0x180 with hi | hend
  rotate_left
  · refine ⟨1, none, fun fuel hfuel => ?_⟩
    obtain ⟨fuel, rfl⟩ := Nat.exists_eq_add_of_le' hfuel
    rw [scan, if_neg (by omega)]
  · obtain ⟨hfine, hrest⟩ := (fineFrom_iff hi).mp h
    by_cases hline : isLine rom i
    · obtain ⟨n, hround⟩ := @crlf_stops _ pool _ hline (by omega) (hfine.first hline) (hfine.stops hline)
      rcases hround with ⟨version, hround⟩ | ⟨hends, hround⟩
      · refine ⟨n + 1, some version, fun fuel hfuel => ?_⟩
        obtain ⟨fuel, rfl⟩ : ∃ m, fuel = m + 1 := ⟨fuel - 1, by omega⟩
        rw [scan_line hi hline, hround fuel (by omega)]
      · obtain ⟨m, v, hm⟩ := scan_of_fineFrom (hrest fun _ => hends)
        refine ⟨max n m + 1, v, fun fuel hfuel => ?_⟩
        obtain ⟨fuel, rfl⟩ : ∃ k, fuel = k + 1 := ⟨fuel - 1, by omega⟩
        rw [scan_line hi hline, hround fuel (by omega)]
        exact hm fuel (by omega)
    · obtain ⟨n, v, hn⟩ := scan_of_fineFrom (hrest fun hl => absurd hl hline)
      refine ⟨n + 1, v, fun fuel hfuel => ?_⟩
      obtain ⟨fuel, rfl⟩ : ∃ m, fuel = m + 1 := ⟨fuel - 1, by omega⟩
      rw [scan_plain hi hfine hline]
      exact hn fuel (by omega)
termination_by 0x180 - i

end Scan

/-- **The scan for the version** ends inside the image exactly if every byte it comes to is fine. -/
theorem scan_ends_iff (rom : Bytes) (pool : Nat → Bool) :
    (∃ fuel v, scan rom pool fuel 0 0 = .value v) ↔ FineFrom rom pool 0 := by
  constructor
  · rintro ⟨fuel, v, h⟩
    exact fineFrom_of_scan h
  · intro h
    obtain ⟨n, v, hn⟩ := scan_of_fineFrom h
    exact ⟨n, v, hn n le_rfl⟩

/-- A line at the beginning of an image of 512 bytes. -/
def earlyLine : Bytes := [0x55, 0xAA, 0x0D, 0x0A] ++ List.replicate 508 0

/-- The cursor goes from 0 to 65535. -/
theorem earlyLine_outside : ¬ ∃ fuel v, scan earlyLine (fun _ => true) fuel 0 0 = .value v := by
  rintro ⟨fuel, v, h⟩
  have hbefore : ∀ q, 0 ≤ q → q < 2 → isLine earlyLine q → ¬ Ends earlyLine (fun _ => true) q := by
    intro q _ hq hline
    have hno : ∀ q < 2, ¬ isLine earlyLine q := by decide
    exact absurd hline (hno q hq)
  have hfine := fineFrom_of_scan (i := 0) h 2 (Nat.zero_le _) (by decide) hbefore
  have hend : lineEnd earlyLine 2 = 2 := by decide
  have hlength : earlyLine.length = 512 := by rw [earlyLine, List.length_append, List.length_replicate]; rfl
  have htop : earlyLine[2 ^ 16 - 1]? = none := List.getElem?_eq_none (by omega)
  have hstops := hfine.stops (by decide)
  rw [hend] at hstops
  rcases hstops with hlow | ⟨j, hj, hhit, hread⟩
  · omega
  · rcases Nat.lt_trichotomy j 3 with hlt | rfl | hgt
    · have hbytes : ∀ j < 3, earlyLine[cursor 2 j]? ≠ some 0 := by decide
      exact hbytes j hlt hhit.1
    · exact absurd (htop.symm.trans hhit.1) (by decide)
    · obtain ⟨b, hb, -⟩ := hread 3 hgt
      exact absurd (htop.symm.trans hb) (by simp)

end BareBoot.Nvidia
