import BareBoot.PlistParser
import Mathlib.Data.List.TakeWhile

/-! What the scanning functions of `plist_xml_parser.c` do, in terms of the text they have not read yet.
The private copy is written as `pre ++ (u ++ [0])`: `u` is what lies between the place read at and the
`NUL` that ends the copy. -/

namespace BareBoot.Plist

open Exec

/-- The parser with other bytes in its private copy. -/
def Parser.withText (s : Parser) (text : Bytes) : Parser := { s with configBuffer := text }

@[simp] theorem Parser.withText_configBuffer (s : Parser) (b : Bytes) : (s.withText b).configBuffer = b := rfl

@[simp] theorem Parser.withText_withText (s : Parser) (b c : Bytes) :
    (s.withText b).withText c = s.withText c := rfl

theorem Parser.withText_self {s : Parser} {b : Bytes} (h : s.configBuffer = b) : s.withText b = s := by
  rw [← h]
  rfl

/-! ### Cutting a text at a character -/

/-- The text before and after the first target; a `NUL` before it ends the search. -/
def cut (target : UInt8) : Bytes → Option (Bytes × Bytes)
  | [] => none
  | c :: cs =>
      if c = 0 then none
      else if c = target then some ([], cs)
      else (cut target cs).map fun r => (c :: r.1, r.2)

theorem cut_append {target : UInt8} (ht : target ≠ 0) {a : Bytes} (ha : ∀ c ∈ a, c ≠ 0 ∧ c ≠ target)
    (b : Bytes) : cut target (a ++ target :: b) = some (a, b) := by
  induction a with
  | nil => simp [cut, ht]
  | cons c a ih =>
      obtain ⟨h0, h1⟩ := ha c (by simp)
      rw [List.cons_append, cut, if_neg h0, if_neg h1, ih fun c hc => ha c (List.mem_cons_of_mem _ hc)]
      rfl

theorem eq_of_cut {target : UInt8} {u a b : Bytes} (h : cut target u = some (a, b)) :
    u = a ++ target :: b ∧ ∀ c ∈ a, c ≠ 0 ∧ c ≠ target := by
  induction u generalizing a with
  | nil => cases h
  | cons c u ih =>
      rw [cut] at h
      by_cases h0 : c = 0
      · rw [if_pos h0] at h
        cases h
      · rw [if_neg h0] at h
        by_cases h1 : c = target
        · rw [if_pos h1] at h
          cases h
          subst h1
          exact ⟨rfl, by simp⟩
        · rw [if_neg h1] at h
          rcases hu : cut target u with _ | ⟨a', b'⟩
          · rw [hu] at h
            cases h
          · rw [hu] at h
            cases h
            obtain ⟨rfl, ha⟩ := ih hu
            refine ⟨rfl, ?_⟩
            intro d hd
            rcases List.mem_cons.1 hd with rfl | hd
            · exact ⟨h0, h1⟩
            · exact ha d hd

/-- A target that does not occur is not found. -/
theorem cut_eq_none {target : UInt8} {u : Bytes} (h : target ∉ u) : cut target u = none := by
  rcases hu : cut target u with _ | ⟨a, b⟩
  · rfl
  · obtain ⟨rfl, -⟩ := eq_of_cut hu
    simp at h

theorem scan_of_cut {target : UInt8} {u a b : Bytes} (h : cut target u = some (a, b)) (w : Bytes) :
    scan target (u ++ w) = some a.length := by
  obtain ⟨rfl, ha⟩ := eq_of_cut h
  clear h
  induction a with
  | nil => simp [scan]
  | cons c a ih =>
      obtain ⟨h0, h1⟩ := ha c (by simp)
      have hno : ¬(c = 0 ∨ c = target) := by
        rintro (h | h)
        · exact h0 h
        · exact h1 h
      rw [List.cons_append, List.cons_append, scan, if_neg hno,
        ih fun c hc => ha c (List.mem_cons_of_mem _ hc)]
      rfl

/-- Without a target the scan runs to a `NUL`, at the end of the text at the latest. -/
theorem scan_of_cut_none {target : UInt8} {u : Bytes} (h : cut target u = none) (w : Bytes) :
    ∃ cnt, scan target (u ++ 0 :: w) = some cnt ∧ cnt ≤ u.length ∧ (u ++ 0 :: w)[cnt]? = some 0 := by
  induction u with
  | nil => exact ⟨0, by simp [scan]⟩
  | cons c u ih =>
      rw [cut] at h
      by_cases h0 : c = 0
      · exact ⟨0, by simp [scan, h0]⟩
      · rw [if_neg h0] at h
        by_cases h1 : c = target
        · rw [if_pos h1] at h
          cases h
        · rw [if_neg h1, Option.map_eq_none_iff] at h
          obtain ⟨cnt, hscan, hle, hget⟩ := ih h
          have hno : ¬(c = 0 ∨ c = target) := by
            rintro (h | h)
            · exact h0 h
            · exact h1 h
          refine ⟨cnt + 1, ?_, ?_, ?_⟩
          · rw [List.cons_append, scan, if_neg hno, hscan]
            rfl
          · rw [List.length_cons]
            omega
          · simpa using hget

/-! ### Reading -/

theorem scanFor_spec {s : Parser} {pre u : Bytes} (hs : s.configBuffer = pre ++ u) {target : UInt8}
    {cnt : Nat} (h : scan target u = some cnt) : scanFor target pre.length s = ⟨.ok cnt, s, []⟩ := by
  simp only [scanFor, get_bind_apply, hs, List.drop_left, h, pure_apply]

theorem readByte_spec {s : Parser} {pre u : Bytes} (hs : s.configBuffer = pre ++ u) {i : Nat} {c : UInt8}
    (h : u[i]? = some c) : readByte (pre.length + i) s = ⟨.ok c, s, []⟩ := by
  have hget : s.configBuffer[pre.length + i]? = some c := by
    rw [hs, List.getElem?_append_right (by omega), Nat.add_sub_cancel_left, h]
  simp only [readByte, get_bind_apply, hget, pure_apply]

theorem writeByte_spec {s : Parser} {pre post : Bytes} {c : UInt8} (hs : s.configBuffer = pre ++ c :: post)
    (d : UInt8) : writeByte pre.length d s = ⟨.ok (), s.withText (pre ++ d :: post), []⟩ := by
  have hlt : pre.length < s.configBuffer.length := by
    rw [hs, List.length_append, List.length_cons]
    omega
  have hset : s.configBuffer.set pre.length d = pre ++ d :: post := by
    rw [hs, List.set_append_right _ _ (Nat.le_refl _), Nat.sub_self, List.set_cons_zero]
  simp only [writeByte, get_bind_apply, if_pos hlt, modify_apply, hset]
  rfl

theorem readString_spec {s : Parser} {pre w post : Bytes} (hs : s.configBuffer = pre ++ (w ++ 0 :: post))
    (hw : (0 : UInt8) ∉ w) : readString pre.length s = ⟨.ok w, s, []⟩ := by
  have hcut : cut 0 w = none := cut_eq_none hw
  have hscan : scan 0 (w ++ 0 :: post) = some w.length := by
    clear hs hcut
    induction w with
    | nil => simp [scan]
    | cons c w ih =>
        rw [List.mem_cons, not_or] at hw
        have h0 : c ≠ 0 := fun h => hw.1 h.symm
        have hno : ¬(c = 0 ∨ c = 0) := by simp [h0]
        rw [List.cons_append, scan, if_neg hno, ih hw.2]
        rfl
  rw [readString, bind_of_ok (scanFor_spec hs hscan), Outcome.after_nil, get_bind_apply, hs,
    List.drop_left, List.take_left, pure_apply]

/-- The C string at a place ends at the first `NUL` behind it. -/
theorem readString_nul {s : Parser} {pre u post : Bytes} (hs : s.configBuffer = pre ++ (u ++ 0 :: post)) :
    readString pre.length s = ⟨.ok (cstr u), s, []⟩ := by
  obtain ⟨post', hpost⟩ : ∃ post', u ++ 0 :: post = cstr u ++ 0 :: post' := by
    rw [cstr]
    clear hs
    induction u with
    | nil => exact ⟨_, rfl⟩
    | cons c u ih =>
        obtain ⟨post', hpost⟩ := ih
        by_cases h0 : c = 0
        · refine ⟨u ++ 0 :: post, ?_⟩
          simp [h0]
        · refine ⟨post', ?_⟩
          rw [List.takeWhile_cons_of_pos (by simpa using h0), List.cons_append, List.cons_append, hpost]
  have hno : (0 : UInt8) ∉ cstr u := by
    intro h
    have := List.mem_takeWhile_imp h
    simp at this
  rw [hpost] at hs
  exact readString_spec hs hno

theorem readBytes_spec {s : Parser} {pre u : Bytes} (hs : s.configBuffer = pre ++ u) {count : Nat}
    (h : count ≤ u.length) : readBytes pre.length count s = ⟨.ok (u.take count), s, []⟩ := by
  have hle : pre.length + count ≤ (pre ++ u).length := by
    rw [List.length_append]
    omega
  simp only [readBytes, get_bind_apply, hs, if_pos hle, List.drop_left, pure_apply]

/-! ### The next tag -/

/-- The text before the next tag, the tag's name, and the text behind it. -/
def nextTag (u : Bytes) : Option (Bytes × Bytes × Bytes) :=
  (cut 60 u).bind fun r => (cut 62 r.2).map fun q => (r.1, q.1, q.2)

theorem nextTag_append {before name : Bytes} (hb : ∀ c ∈ before, c ≠ 0 ∧ c ≠ 60)
    (hn : ∀ c ∈ name, c ≠ 0 ∧ c ≠ 62) (rest : Bytes) :
    nextTag (before ++ 60 :: (name ++ 62 :: rest)) = some (before, name, rest) := by
  rw [nextTag, cut_append (by decide) hb, Option.bind_some, cut_append (by decide) hn]
  rfl

theorem eq_of_nextTag {u before name rest : Bytes} (h : nextTag u = some (before, name, rest)) :
    u = before ++ 60 :: (name ++ 62 :: rest) ∧ (∀ c ∈ before, c ≠ 0 ∧ c ≠ 60) ∧
      ∀ c ∈ name, c ≠ 0 ∧ c ≠ 62 := by
  rw [nextTag] at h
  rcases h1 : cut 60 u with _ | ⟨a, r⟩
  · rw [h1] at h
    cases h
  · rw [h1, Option.bind_some] at h
    rcases h2 : cut 62 r with _ | ⟨b, q⟩
    · rw [h2] at h
      cases h
    · rw [h2] at h
      cases h
      obtain ⟨rfl, ha⟩ := eq_of_cut h1
      obtain ⟨rfl, hb⟩ := eq_of_cut h2
      exact ⟨rfl, ha, hb⟩

theorem length_of_nextTag {u before name rest : Bytes} (h : nextTag u = some (before, name, rest)) :
    u.length = before.length + name.length + 2 + rest.length := by
  obtain ⟨rfl, -⟩ := eq_of_nextTag h
  simp only [List.length_append, List.length_cons]
  omega

/-- The text once the `'>'` of its next tag is overwritten. -/
def closed (before name rest : Bytes) : Bytes := before ++ 60 :: (name ++ 0 :: rest)

theorem plistXmlGetNextTag_none {s : Parser} {pre u : Bytes} (hs : s.configBuffer = pre ++ (u ++ [0]))
    (h : nextTag u = none) : plistXmlGetNextTag pre.length s = ⟨.ok none, s, []⟩ := by
  rw [nextTag] at h
  rcases h1 : cut 60 u with _ | ⟨a, r⟩
  · obtain ⟨cnt, hscan, -, hget⟩ := scan_of_cut_none h1 []
    rw [plistXmlGetNextTag, bind_of_ok (scanFor_spec hs hscan), Outcome.after_nil,
      bind_of_ok (readByte_spec hs hget), Outcome.after_nil, if_pos rfl, pure_apply]
  · rw [h1, Option.bind_some, Option.map_eq_none_iff] at h
    have hscan := scan_of_cut h1 [0]
    obtain ⟨rfl, -⟩ := eq_of_cut h1
    have hget : (a ++ 60 :: r ++ [0])[a.length]? = some 60 := by simp
    obtain ⟨cnt, hscan', -, hget'⟩ := scan_of_cut_none h []
    have hs' : s.configBuffer = (pre ++ (a ++ [60])) ++ (r ++ [0]) := by simp [hs]
    have hpre : pre.length + a.length + 1 = (pre ++ (a ++ [60])).length := by simp; omega
    have hplace : pre.length + (a.length + 1 + cnt) = (pre ++ (a ++ [60])).length + cnt := by simp; omega
    rw [plistXmlGetNextTag, bind_of_ok (scanFor_spec hs hscan), Outcome.after_nil,
      bind_of_ok (readByte_spec hs hget), Outcome.after_nil, if_neg (by decide), hpre,
      bind_of_ok (scanFor_spec hs' hscan'), Outcome.after_nil,
      hplace, bind_of_ok (readByte_spec hs' hget'), Outcome.after_nil, if_pos rfl, pure_apply]

theorem plistXmlGetNextTag_some {s : Parser} {pre u before name rest : Bytes}
    (hs : s.configBuffer = pre ++ (u ++ [0])) (h : nextTag u = some (before, name, rest)) :
    plistXmlGetNextTag pre.length s =
      ⟨.ok (some (pre.length + before.length + 1, before.length, before.length + name.length + 2)),
        s.withText (pre ++ (closed before name rest ++ [0])), []⟩ := by
  obtain ⟨rfl, hb, hn⟩ := eq_of_nextTag h
  have hcut := cut_append (by decide) hb (name ++ 62 :: rest)
  have hscan := scan_of_cut hcut [0]
  have hget : (before ++ 60 :: (name ++ 62 :: rest) ++ [0])[before.length]? = some 60 := by simp
  have hs' : s.configBuffer = (pre ++ (before ++ [60])) ++ (name ++ 62 :: rest ++ [0]) := by simp [hs]
  have hscan' := scan_of_cut (cut_append (by decide) hn rest) [0]
  have hget' : (name ++ 62 :: rest ++ [0])[name.length]? = some 62 := by simp
  have hs'' : s.configBuffer = (pre ++ (before ++ 60 :: name)) ++ 62 :: (rest ++ [0]) := by simp [hs]
  have hpre : pre.length + before.length + 1 = (pre ++ (before ++ [60])).length := by simp; omega
  have hplace : pre.length + (before.length + 1 + name.length) =
      (pre ++ (before ++ [60])).length + name.length := by simp; omega
  have hplace' : (pre ++ (before ++ [60])).length + name.length = (pre ++ (before ++ 60 :: name)).length := by
    simp
    omega
  rw [plistXmlGetNextTag, bind_of_ok (scanFor_spec hs hscan), Outcome.after_nil,
    bind_of_ok (readByte_spec hs hget), Outcome.after_nil, if_neg (by decide), hpre,
    bind_of_ok (scanFor_spec hs' hscan'), Outcome.after_nil,
    hplace, bind_of_ok (readByte_spec hs' hget'), Outcome.after_nil, if_neg (by decide), hplace',
    bind_of_ok (writeByte_spec hs'' 0), Outcome.after_nil, pure_apply, ← hpre]
  have hlen : before.length + 1 + name.length + 1 = before.length + name.length + 2 := by omega
  rw [hlen]
  simp [closed]

/-- The name of the tag just found can be read back. -/
theorem readString_name {s : Parser} {pre before name rest : Bytes}
    (hs : s.configBuffer = pre ++ (closed before name rest ++ [0])) (hn : ∀ c ∈ name, c ≠ 0 ∧ c ≠ 62) :
    readString (pre.length + before.length + 1) s = ⟨.ok name, s, []⟩ := by
  have hpre : pre.length + before.length + 1 = (pre ++ (before ++ [60])).length := by simp; omega
  have hs' : s.configBuffer = (pre ++ (before ++ [60])) ++ (name ++ 0 :: (rest ++ [0])) := by
    simp [hs, closed]
  rw [hpre, readString_spec hs' fun h => (hn 0 h).1 rfl]

/-! ### The end tag -/

theorem length_lt_of_nextTag {u before name rest : Bytes} (h : nextTag u = some (before, name, rest)) :
    rest.length < u.length := by
  have := length_of_nextTag h
  omega

/-- The text up to the end tag, with the `'>'` of every tag before it overwritten, and what follows. -/
def matchEnd (tag u : Bytes) : Option (Bytes × Bytes) :=
  match _h : nextTag u with
  | none => none
  | some (before, name, rest) =>
      if name = 47 :: tag then some (before, rest)
      else (matchEnd tag rest).map fun r => (closed before name r.1, r.2)
termination_by u.length
decreasing_by exact length_lt_of_nextTag _h

theorem matchEnd_of_none {tag u : Bytes} (h : nextTag u = none) : matchEnd tag u = none := by
  rw [matchEnd]
  split
  · rfl
  · rename_i heq
    rw [h] at heq
    cases heq

theorem matchEnd_of_some {tag u before name rest : Bytes} (h : nextTag u = some (before, name, rest)) :
    matchEnd tag u = if name = 47 :: tag then some (before, rest)
      else (matchEnd tag rest).map fun r => (closed before name r.1, r.2) := by
  rw [matchEnd]
  split
  · rename_i heq
    rw [h] at heq
    cases heq
  · rename_i heq
    rw [h] at heq
    cases heq
    rfl

/-- An element's text and its end tag, as `PListXMLFixDataMatchingTag` leaves them. -/
def fixed (tag body rest : Bytes) : Bytes := body ++ 0 :: (47 :: tag ++ 0 :: rest)

theorem length_fixed (tag body rest : Bytes) :
    (fixed tag body rest).length = body.length + tag.length + 3 + rest.length := by
  simp only [fixed, List.length_append, List.length_cons]
  omega

theorem length_closed (before name rest : Bytes) :
    (closed before name rest).length = before.length + name.length + 2 + rest.length := by
  simp only [closed, List.length_append, List.length_cons]
  omega

theorem length_of_matchEnd {tag u body rest : Bytes} (h : matchEnd tag u = some (body, rest)) :
    u.length = body.length + tag.length + 3 + rest.length := by
  induction hn : u.length using Nat.strong_induction_on generalizing u body with
  | h n ih =>
      subst hn
      rcases hu : nextTag u with _ | ⟨before, name, r⟩
      · rw [matchEnd_of_none hu] at h
        cases h
      · rw [matchEnd_of_some hu] at h
        have hlen := length_of_nextTag hu
        by_cases hname : name = 47 :: tag
        · rw [if_pos hname] at h
          cases h
          rw [hlen, hname, List.length_cons]
          omega
        · rw [if_neg hname] at h
          rcases hr : matchEnd tag r with _ | ⟨body', rest'⟩
          · rw [hr] at h
            cases h
          · rw [hr] at h
            cases h
            have hsub := ih r.length (by omega) hr rfl
            simp only [hlen, hsub, length_closed]
            omega

/-- Behind the tags passed already, the loop finds what `matchEnd` finds. -/
theorem fixDataFrom_spec (tag passed : Bytes) {s : Parser} {pre u : Bytes} (n : Nat) (hn : u.length < n)
    (hs : s.configBuffer = pre ++ (passed ++ (u ++ [0]))) (hsize : s.configBuffer.length ≤ 2 ^ 32) :
    match matchEnd tag u with
    | none => ∃ v, v.length = u.length ∧
        fixDataFrom tag pre.length n passed.length s =
          ⟨.ok none, s.withText (pre ++ (passed ++ (v ++ [0]))), []⟩
    | some (body, rest) =>
        fixDataFrom tag pre.length n passed.length s =
          ⟨.ok (some (passed.length + (body.length + tag.length + 3))),
            s.withText (pre ++ (passed ++ (fixed tag body rest ++ [0]))), []⟩ := by
  induction n generalizing s passed u with
  | zero => omega
  | succ n ih =>
      have hs' : s.configBuffer = (pre ++ passed) ++ (u ++ [0]) := by rw [hs, List.append_assoc]
      have hplace : pre.length + passed.length = (pre ++ passed).length := by rw [List.length_append]
      rcases hu : nextTag u with _ | ⟨before, name, rest⟩
      · rw [matchEnd_of_none hu]
        refine ⟨u, rfl, ?_⟩
        rw [fixDataFrom, hplace, bind_of_ok (plistXmlGetNextTag_none hs' hu), Outcome.after_nil,
          s.withText_self hs]
        rfl
      · have hlen := length_of_nextTag hu
        obtain ⟨-, -, hn'⟩ := eq_of_nextTag hu
        have htotal : passed.length + u.length + 1 ≤ 2 ^ 32 := by
          rw [hs] at hsize
          simp only [List.length_append, List.length_singleton] at hsize
          omega
        have hadd : addU32 passed.length (before.length + name.length + 2) =
            passed.length + (before.length + name.length + 2) := Nat.mod_eq_of_lt (by omega)
        have hstop : addU32 passed.length before.length = passed.length + before.length :=
          Nat.mod_eq_of_lt (by omega)
        set t := s.withText ((pre ++ passed) ++ (closed before name rest ++ [0])) with ht
        have htext : t.configBuffer = (pre ++ passed) ++ (closed before name rest ++ [0]) := rfl
        have hget := plistXmlGetNextTag_some hs' hu
        rw [← ht] at hget
        rw [matchEnd_of_some hu]
        by_cases hname : name = 47 :: tag
        · have hcell : t.configBuffer =
              (pre ++ (passed ++ before)) ++ 60 :: (name ++ 0 :: (rest ++ [0])) := by
            rw [htext]
            simp [closed]
          have hwrite : pre.length + (passed.length + before.length) = (pre ++ (passed ++ before)).length := by
            simp only [List.length_append]
          rw [if_pos hname]
          simp only
          rw [fixDataFrom, hplace, bind_of_ok hget, Outcome.after_nil]
          simp only
          rw [bind_of_ok (readString_name htext hn'), Outcome.after_nil, if_pos hname, hadd, hstop, hwrite,
            bind_of_ok (writeByte_spec hcell 0), Outcome.after_nil, pure_apply, hname, ht,
            Parser.withText_withText, List.length_cons]
          have hnum : passed.length + (before.length + (tag.length + 1) + 2) =
              passed.length + (before.length + tag.length + 3) := by omega
          rw [hnum]
          simp [fixed]
        · rw [if_neg hname]
          have hnext : t.configBuffer = pre ++ ((passed ++ before ++ 60 :: name ++ [0]) ++ (rest ++ [0])) := by
            rw [htext]
            simp [closed]
          have hsize' : t.configBuffer.length ≤ 2 ^ 32 := by
            rw [hs] at hsize
            rw [htext]
            simp only [List.length_append, length_closed, List.length_singleton] at hsize ⊢
            omega
          have hpassed : passed.length + (before.length + name.length + 2) =
              (passed ++ before ++ 60 :: name ++ [0]).length := by
            simp only [List.length_append, List.length_cons, List.length_nil]
            omega
          have hstep : fixDataFrom tag pre.length (n + 1) passed.length s =
              fixDataFrom tag pre.length n (passed ++ before ++ 60 :: name ++ [0]).length t := by
            rw [fixDataFrom, hplace, bind_of_ok hget, Outcome.after_nil]
            simp only
            rw [bind_of_ok (readString_name htext hn'), Outcome.after_nil, if_neg hname, hadd, hpassed]
          have hrec := ih _ (by omega) hnext hsize'
          rw [hstep]
          rcases hr : matchEnd tag rest with _ | ⟨body, rest'⟩
          · rw [hr] at hrec
            obtain ⟨v, hv, hrun⟩ := hrec
            refine ⟨closed before name v, ?_, ?_⟩
            · rw [length_closed, hlen, hv]
            · rw [hrun, ht, Parser.withText_withText]
              simp [closed]
          · rw [hr] at hrec
            simp only [Option.map_some]
            rw [hrec, ht, Parser.withText_withText, ← hpassed, length_closed]
            have hnum : passed.length + (before.length + name.length + 2) + (body.length + tag.length + 3) =
                passed.length + (before.length + name.length + 2 + body.length + tag.length + 3) := by omega
            rw [hnum]
            simp [closed, fixed]

theorem plistXmlFixDataMatchingTag_none {s : Parser} {pre u : Bytes} {tag : Bytes}
    (hs : s.configBuffer = pre ++ (u ++ [0])) (hsize : s.configBuffer.length ≤ 2 ^ 32)
    (h : matchEnd tag u = none) :
    ∃ v, v.length = u.length ∧ plistXmlFixDataMatchingTag pre.length tag s =
      ⟨.ok none, s.withText (pre ++ (v ++ [0])), []⟩ := by
  have hn : u.length < 2 ^ 32 := by
    rw [hs] at hsize
    simp only [List.length_append, List.length_singleton] at hsize
    omega
  have hrun := fixDataFrom_spec tag [] _ hn hs hsize
  rw [h] at hrun
  exact hrun

theorem plistXmlFixDataMatchingTag_some {s : Parser} {pre u : Bytes} {tag body rest : Bytes}
    (hs : s.configBuffer = pre ++ (u ++ [0])) (hsize : s.configBuffer.length ≤ 2 ^ 32)
    (h : matchEnd tag u = some (body, rest)) :
    plistXmlFixDataMatchingTag pre.length tag s =
      ⟨.ok (some (body.length + tag.length + 3)), s.withText (pre ++ (fixed tag body rest ++ [0])), []⟩ := by
  have hn : u.length < 2 ^ 32 := by
    rw [hs] at hsize
    simp only [List.length_append, List.length_singleton] at hsize
    omega
  have hrun := fixDataFrom_spec tag [] _ hn hs hsize
  rw [h] at hrun
  rw [plistXmlFixDataMatchingTag]
  simpa using hrun

/-- The C string at the start of a fixed text does not reach its end tag. -/
theorem readString_fixed {s : Parser} {pre tag body rest : Bytes}
    (hs : s.configBuffer = pre ++ (fixed tag body rest ++ [0])) :
    readString pre.length s = ⟨.ok (cstr body), s, []⟩ := by
  have hs' : s.configBuffer = pre ++ (body ++ 0 :: (47 :: tag ++ 0 :: rest ++ [0])) := by
    rw [hs, fixed]
    simp
  exact readString_nul hs'

end BareBoot.Plist
