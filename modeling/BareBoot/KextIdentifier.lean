import BareBoot.PrelinkedKexts

/-! `ExtractKextBundleIdentifier` said of the text it reads: the keys at depth one, and the string element behind
each of them. -/

namespace BareBoot.Kext

open Plist

/-! ### Texts in memory -/

/-- Where a pattern first stands in a text. -/
def occurrence (pattern : Bytes) : Bytes → Option Nat
  | [] => if pattern = [] then some 0 else none
  | c :: cs => if pattern.isPrefixOf (c :: cs) then some 0 else (occurrence pattern cs).map (· + 1)

section Text

variable {memory : Memory} {a : Nat} {t pattern : Bytes}

theorem occurrence_length {i : Nat} (h : occurrence pattern t = some i) : i + pattern.length ≤ t.length := by
  induction t generalizing i with
  | nil =>
      rw [occurrence] at h
      split_ifs at h with hnil
      obtain rfl := Option.some_inj.mp h
      rw [hnil]
      exact Nat.le_refl 0
  | cons c cs ih =>
      rw [occurrence] at h
      split_ifs at h with hpre
      · obtain rfl := Option.some_inj.mp h
        rw [Nat.zero_add]
        exact (List.isPrefixOf_iff_prefix.mp hpre).length_le
      · obtain ⟨j, hj, rfl⟩ := Option.map_eq_some_iff.mp h
        have := ih hj
        rw [List.length_cons]
        omega

theorem holds_prefix (h : holds memory a (t ++ [0]) = true) (hpattern : 0 ∉ pattern) :
    holds memory a pattern = pattern.isPrefixOf t := by
  induction pattern generalizing a t with
  | nil => rfl
  | cons c pattern ih =>
      rw [List.mem_cons, not_or] at hpattern
      cases t with
      | nil =>
          have hzero := (holds_cons.mp h).1
          rw [holds, hzero, beq_eq_false_iff_ne.mpr hpattern.1]
          rfl
      | cons d t =>
          obtain ⟨hd, hrest⟩ := holds_cons.mp h
          rw [holds, hd, ih hrest hpattern.2, List.isPrefixOf, Bool.beq_comm]

theorem searchFrom_text (h : holds memory a (t ++ [0]) = true) (hpattern : 0 ∉ pattern) (hne : pattern ≠ []) :
    searchFrom memory pattern (t.length + 1 - pattern.length) a = (occurrence pattern t).map (a + ·) := by
  have hpos : 0 < pattern.length := List.length_pos_iff.mpr hne
  induction t generalizing a with
  | nil =>
      rw [List.length_nil, show 0 + 1 - pattern.length = 0 by omega, occurrence, if_neg hne]
      rfl
  | cons c cs ih =>
      have hpre := holds_prefix h hpattern
      have hrest := ih (holds_cons.mp h).2
      rw [List.length_cons, occurrence, ← hpre]
      by_cases hlong : pattern.length ≤ cs.length + 1
      · rw [show cs.length + 1 + 1 - pattern.length = cs.length + 1 - pattern.length + 1 by omega, searchFrom, hrest]
        split_ifs with hfound
        · rfl
        · rw [Option.map_map]
          congr 1
          funext i
          rw [Function.comp_apply, Nat.add_assoc, Nat.add_comm 1]
      · have hshort : holds memory a pattern = false := by
          rw [hpre, Bool.eq_false_iff]
          intro hfound
          have := (List.isPrefixOf_iff_prefix.mp hfound).length_le
          rw [List.length_cons] at this
          omega
        have hnone : occurrence pattern cs = none := by
          cases hfound : occurrence pattern cs with
          | none => rfl
          | some i =>
              have := occurrence_length hfound
              omega
        rw [show cs.length + 1 + 1 - pattern.length = 0 by omega, hshort, if_neg Bool.false_ne_true, hnone]
        rfl

theorem searchMemory_text (h : holds memory a (t ++ [0]) = true) (hpattern : 0 ∉ pattern) (hne : pattern ≠ []) :
    searchMemory memory a t.length pattern = (occurrence pattern t).map (a + ·) := searchFrom_text h hpattern hne

theorem nextTag_text (h : holds memory a (t ++ [0]) = true) (htext : 0 ∉ t) {rounds : Nat} (hrounds : t.length < rounds) :
    nextTag memory rounds a = some (a + (t.takeWhile fun c => c ≠ 60).length) := by
  induction t generalizing a rounds with
  | nil =>
      obtain ⟨rounds, rfl⟩ := Nat.exists_eq_succ_of_ne_zero hrounds.ne'
      have hzero := (holds_cons.mp h).1
      rw [nextTag, if_neg fun hgo => hgo.2 hzero]
      rfl
  | cons c cs ih =>
      obtain ⟨rounds, rfl⟩ := Nat.exists_eq_succ_of_ne_zero (Nat.ne_of_gt (Nat.zero_lt_of_lt hrounds))
      obtain ⟨hc, hrest⟩ := holds_cons.mp h
      rw [List.mem_cons, not_or] at htext
      rw [nextTag, hc]
      by_cases hopen : c = 60
      · rw [if_neg fun hgo => hgo.1 hopen, List.takeWhile_cons_of_neg (by simpa using hopen)]
        rfl
      · rw [if_pos ⟨hopen, Ne.symm htext.1⟩, ih hrest htext.2 (Nat.lt_of_succ_lt_succ hrounds),
          List.takeWhile_cons_of_pos (by simpa using hopen), List.length_cons, Nat.add_assoc, Nat.add_comm 1]

theorem bytesAt_text {rest : Bytes} (h : holds memory a (t ++ rest) = true) : bytesAt memory a t.length = t := by
  rw [holds_append, Bool.and_eq_true] at h
  apply List.ext_getElem
  · rw [bytesAt, List.length_map, List.length_range]
  · intro i hi ht
    simp only [bytesAt, List.getElem_map, List.getElem_range]
    rw [holds_getD h.1 ht, List.getD_eq_getElem?_getD, List.getElem?_eq_getElem ht, Option.getD_some]

/-- The rest of a text behind its first bytes. -/
theorem holds_drop (h : holds memory a (t ++ [0]) = true) {n : Nat} (hn : n ≤ t.length) :
    holds memory (a + n) (t.drop n ++ [0]) = true := by
  rw [← List.take_append_drop n t, List.append_assoc, holds_append, Bool.and_eq_true, List.length_take,
    Nat.min_eq_left hn] at h
  exact h.2

end Text

/-! ### Keys and their strings -/

/-- The places behind the keys at depth one, in a text that starts at `i` and at that depth. -/
def bundleKeys : Int → Nat → Bytes → List Nat
  | _, _, [] => []
  | depth, i, c :: cs =>
      if dictTag.isPrefixOf (c :: cs) then bundleKeys (depth + 1) (i + 1) cs
      else if dictEndTag.isPrefixOf (c :: cs) then bundleKeys (depth - 1) (i + 1) cs
      else if depth = 1 ∧ bundleIdentifierKey.isPrefixOf (c :: cs) then (i + 29) :: bundleKeys depth (i + 1) cs
      else bundleKeys depth (i + 1) cs

/-- The keys at depth one; the first dict makes the depth one. -/
def identifierKeys (t : Bytes) : List Nat :=
  match occurrence dictTag t with
  | none => []
  | some i => bundleKeys 1 (i + 6) (t.drop (i + 6))

/-- Where the first string element starts, and its text if it is closed. -/
def stringElement (t : Bytes) : Option (Nat × Option Bytes) :=
  (occurrence (ascii "<string>") t).map fun i =>
    (i + 8, (occurrence (ascii "</string>") (t.drop (i + 8))).map fun n => (t.drop (i + 8)).take n)

/-- The string element that follows the first key. -/
def identifierElement (t : Bytes) : Option (Nat × Option Bytes) :=
  (identifierKeys t).head?.bind fun k => stringElement (t.drop k)

/-- The identifier of a kext, empty where it has none. -/
def identifierText (t : Bytes) : Bytes := (identifierElement t).bind Prod.snd |>.getD []

/-- What the scan makes of the keys: the identifier it stores, and its length. -/
def scanKeys (plist : Nat) (t : Bytes) : List Nat → Nat → Option Bytes × Nat
  | [], idLength => (none, idLength)
  | k :: ks, idLength =>
      match stringElement (t.drop k) with
      | none => scanKeys plist t ks idLength
      | some (start, none) => scanKeys plist t ks (u32 (-((plist + k + start : Nat) : Int)))
      | some (_, some text) => if text.length < 256 then (some text, text.length) else scanKeys plist t ks text.length

def storeIdentifier (memory : Memory) (bundleIdentifier : Nat) : Option Bytes → Memory
  | none => memory
  | some text => store (store memory bundleIdentifier text) (bundleIdentifier + text.length) [0]

theorem bundleKeys_skip {depth : Int} {i : Nat} {u v : Bytes} (h : 60 ∉ u) :
    bundleKeys depth i (u ++ v) = bundleKeys depth (i + u.length) v := by
  induction u generalizing i with
  | nil => rfl
  | cons c u ih =>
      rw [List.mem_cons, not_or] at h
      have hno : ∀ pattern : Bytes, pattern.head? = some 60 → pattern.isPrefixOf (c :: (u ++ v)) = false := by
        intro pattern hhead
        cases pattern with
        | nil => cases hhead
        | cons d pattern =>
            obtain rfl := Option.some_inj.mp hhead
            rw [List.isPrefixOf, beq_eq_false_iff_ne.mpr h.1, Bool.false_and]
      rw [List.cons_append, bundleKeys, hno dictTag rfl, hno dictEndTag rfl, hno bundleIdentifierKey rfl,
        if_neg Bool.false_ne_true, if_neg Bool.false_ne_true, if_neg fun hkey => Bool.false_ne_true hkey.2, ih h.2,
        List.length_cons, Nat.add_assoc, Nat.add_comm 1]

/-! ### The scan -/

section Scan

variable {memory : Memory} {plist bundleIdentifier : Nat} {t : Bytes}

/-- The info plist of a kext: a text and its terminator. -/
structure InfoPlist (memory : Memory) (plist : Nat) (t : Bytes) : Prop where
  stands : holds memory plist (t ++ [0]) = true
  text : 0 ∉ t
  narrow : t.length < 2 ^ 32

theorem InfoPlist.bundleString (h : InfoPlist memory plist t) {i : Nat} (hi : i + 29 ≤ t.length) :
    bundleString memory plist t.length (plist + i) = (stringElement (t.drop (i + 29))).map fun element =>
      (plist + (i + 29) + element.1, element.2.map fun text => plist + (i + 29) + element.1 + text.length) := by
  have hnarrow := h.narrow
  have hsize : u32 (t.length - 29 - (((plist + i : Nat) : Int) - plist)) = (t.drop (i + 29)).length := by
    rw [List.length_drop]
    unfold u32
    omega
  have hstands := holds_drop h.stands hi
  rw [Kext.bundleString, hsize, Nat.add_assoc, searchMemory_text hstands (by decide) (by decide), stringElement,
    Option.map_map, Option.map_map]
  cases hopen : occurrence (ascii "<string>") (t.drop (i + 29)) with
  | none => rfl
  | some n =>
      have hin := occurrence_length hopen
      have hlength : (ascii "<string>").length = 8 := by decide
      rw [List.length_drop, hlength] at hin
      have hat : plist + (i + 29) + n + 8 = plist + (i + 29) + (n + 8) := Nat.add_assoc _ _ _
      have hrest := holds_drop hstands (show n + 8 ≤ (t.drop (i + 29)).length by rw [List.length_drop]; omega)
      have hsize' : u32 (t.length - (((plist + (i + 29) + (n + 8) : Nat) : Int) - plist)) =
          ((t.drop (i + 29)).drop (n + 8)).length := by
        rw [List.length_drop, List.length_drop]
        unfold u32
        omega
      rw [Option.map_some, Option.map_some, Function.comp_apply, Function.comp_apply, hat, hsize',
        searchMemory_text hrest (by decide) (by decide), Option.map_map]
      cases hclose : occurrence (ascii "</string>") ((t.drop (i + 29)).drop (n + 8)) with
      | none => rfl
      | some m =>
          have hm := occurrence_length hclose
          have htake : (((t.drop (i + 29)).drop (n + 8)).take m).length = m := by
            rw [List.length_take]
            omega
          simp only [Option.map_some, Function.comp_apply, htake]

/-- A closed string stands between its tags. -/
theorem InfoPlist.element (h : InfoPlist memory plist t) {k start : Nat} {text : Bytes} (hk : k ≤ t.length)
    (helement : stringElement (t.drop k) = some (start, some text)) :
    bytesAt memory (plist + k + start) text.length = text ∧ text.length < 2 ^ 32 := by
  have hnarrow := h.narrow
  obtain ⟨n, hopen, hpair⟩ := Option.map_eq_some_iff.mp helement
  obtain ⟨rfl, hclosed⟩ := Prod.mk.inj hpair
  obtain ⟨m, hclose, rfl⟩ := Option.map_eq_some_iff.mp hclosed
  have hlength : (ascii "<string>").length = 8 := by decide
  have hin := occurrence_length hopen
  rw [hlength] at hin
  have hrest := holds_drop (holds_drop h.stands hk) hin
  rw [← List.take_append_drop m ((t.drop k).drop (n + 8)), List.append_assoc] at hrest
  refine ⟨bytesAt_text hrest, ?_⟩
  have := (List.length_take_le' m ((t.drop k).drop (n + 8)))
  rw [List.length_drop, List.length_drop] at this
  omega

/-- From any place on the loop does what the scan of the keys behind that place does. -/
theorem InfoPlist.identifierLoop (h : InfoPlist memory plist t) {rounds : Nat} {depth : Int} {idLength : Nat} {pre s : Bytes}
    (hsplit : t = pre ++ s) (hrounds : s.length < rounds) :
    identifierLoop bundleIdentifier plist t.length rounds (plist + pre.length) depth idLength memory =
      some (storeIdentifier memory bundleIdentifier (scanKeys plist t (bundleKeys depth pre.length s) idLength).1,
        (scanKeys plist t (bundleKeys depth pre.length s) idLength).2) := by
  induction rounds generalizing depth idLength pre s with
  | zero => omega
  | succ rounds ih =>
      have hs : holds memory (plist + pre.length) (s ++ [0]) = true := by
        have := holds_drop h.stands (show pre.length ≤ t.length by rw [hsplit, List.length_append]; omega)
        rwa [hsplit, List.drop_left] at this
      have hlength : t.length = pre.length + s.length := by rw [hsplit, List.length_append]
      cases s with
      | nil =>
          rw [Kext.identifierLoop, if_pos (holds_cons.mp hs).1]
          rfl
      | cons c cs =>
          have htext : 0 ∉ c :: cs := fun hmem => h.text (by rw [hsplit]; exact List.mem_append_right _ hmem)
          have hc : memory (plist + pre.length) ≠ 0 := by
            rw [(holds_cons.mp hs).1]
            exact fun hzero => htext (List.mem_cons.mpr (Or.inl hzero.symm))
          -- the loop goes on behind `n` characters, none of which but the first opens a tag
          have hgo : ∀ (n : Nat) (depth : Int) (idLength : Nat), n ≤ cs.length → 60 ∉ cs.take n →
              (do
                let tag ← nextTag memory (rounds + 1) (plist + pre.length + (n + 1))
                Kext.identifierLoop bundleIdentifier plist t.length rounds tag depth idLength memory) =
                some (storeIdentifier memory bundleIdentifier
                    (scanKeys plist t (bundleKeys depth (pre.length + 1) cs) idLength).1,
                  (scanKeys plist t (bundleKeys depth (pre.length + 1) cs) idLength).2) := by
            intro n depth idLength hn hplain
            have hdrop : (c :: cs).drop (n + 1) = cs.drop n := rfl
            have hbehind := holds_drop hs (show n + 1 ≤ (c :: cs).length by rw [List.length_cons]; omega)
            rw [hdrop] at hbehind
            have hfree : 0 ∉ cs.drop n := fun hmem => htext (List.mem_cons_of_mem _ (List.mem_of_mem_drop hmem))
            rw [List.length_cons] at hrounds
            rw [nextTag_text hbehind hfree (by rw [List.length_drop]; omega), Option.bind_eq_bind, Option.bind_some]
            have hsplit' : t = (pre ++ [c] ++ cs.take n ++ (cs.drop n).takeWhile fun c => c ≠ 60) ++
                (cs.drop n).dropWhile fun c => c ≠ 60 := by
              rw [List.append_assoc, List.takeWhile_append_dropWhile, List.append_assoc, List.take_append_drop,
                List.append_assoc, hsplit]
              rfl
            have hat : (pre ++ [c] ++ cs.take n ++ (cs.drop n).takeWhile fun c => c ≠ 60).length =
                pre.length + (n + 1) + ((cs.drop n).takeWhile fun c => c ≠ 60).length := by
              simp only [List.length_append, List.length_take, List.length_singleton]
              omega
            have hshort : ((cs.drop n).dropWhile fun c => c ≠ 60).length ≤ cs.length := by
              have := (List.dropWhile_suffix (l := cs.drop n) fun c => c ≠ 60).length_le
              rw [List.length_drop] at this
              omega
            have hskip : bundleKeys depth (pre.length + 1) cs =
                bundleKeys depth (pre ++ [c] ++ cs.take n ++ (cs.drop n).takeWhile fun c => c ≠ 60).length
                  ((cs.drop n).dropWhile fun c => c ≠ 60) := by
              have hcs : cs = (cs.take n ++ (cs.drop n).takeWhile fun c => c ≠ 60) ++ (cs.drop n).dropWhile fun c => c ≠ 60 := by
                rw [List.append_assoc, List.takeWhile_append_dropWhile, List.take_append_drop]
              have hno : 60 ∉ cs.take n ++ (cs.drop n).takeWhile fun c => c ≠ 60 := by
                rw [List.mem_append, not_or]
                refine ⟨hplain, fun hmem => ?_⟩
                simpa using List.mem_takeWhile_imp hmem
              conv_lhs => rw [hcs]
              rw [bundleKeys_skip hno]
              simp only [List.length_append, List.length_singleton, Nat.add_assoc]
            have hplace : plist + pre.length + (n + 1) + ((cs.drop n).takeWhile fun c => c ≠ 60).length =
                plist + (pre ++ [c] ++ cs.take n ++ (cs.drop n).takeWhile fun c => c ≠ 60).length := by
              rw [hat]
              omega
            rw [hskip, hplace]
            exact ih hsplit' (by omega)
          have hinside : ∀ pattern : Bytes, pattern.isPrefixOf (c :: cs) = true → pattern.length ≤ cs.length + 1 ∧
              ∀ n, n + 1 ≤ pattern.length → cs.take n = pattern.tail.take n := by
            intro pattern hpre
            obtain ⟨rest, hrest⟩ := List.isPrefixOf_iff_prefix.mp hpre
            cases pattern with
            | nil => exact ⟨Nat.zero_le _, fun n hn => absurd hn (Nat.not_succ_le_zero n)⟩
            | cons d pattern =>
                have hcs : pattern ++ rest = cs := (List.cons.inj hrest).2
                rw [← hcs, List.length_append, List.length_cons]
                refine ⟨by omega, fun n hn => ?_⟩
                exact List.take_append_of_le_length (Nat.le_of_succ_le_succ hn)
          have hdict : 0 ∉ dictTag := by decide
          have hend : 0 ∉ dictEndTag := by decide
          have hkey : 0 ∉ bundleIdentifierKey := by decide
          rw [Kext.identifierLoop, if_neg hc, holds_prefix hs hdict, holds_prefix hs hend, holds_prefix hs hkey, bundleKeys]
          by_cases hopens : dictTag.isPrefixOf (c :: cs) = true
          · rw [if_pos hopens, if_pos hopens]
            obtain ⟨hfits, htake⟩ := hinside _ hopens
            apply hgo 5
            · rw [show dictTag.length = 6 by decide] at hfits
              omega
            · rw [htake 5 (by decide)]
              decide
          · rw [if_neg hopens, if_neg hopens]
            by_cases hcloses : dictEndTag.isPrefixOf (c :: cs) = true
            · rw [if_pos hcloses, if_pos hcloses]
              obtain ⟨hfits, htake⟩ := hinside _ hcloses
              apply hgo 6
              · rw [show dictEndTag.length = 7 by decide] at hfits
                omega
              · rw [htake 6 (by decide)]
                decide
            · rw [if_neg hcloses, if_neg hcloses]
              have hnext : ∀ idLength, (do
                  let tag ← nextTag memory (rounds + 1) (plist + pre.length + 1)
                  Kext.identifierLoop bundleIdentifier plist t.length rounds tag depth idLength memory) =
                  some (storeIdentifier memory bundleIdentifier
                      (scanKeys plist t (bundleKeys depth (pre.length + 1) cs) idLength).1,
                    (scanKeys plist t (bundleKeys depth (pre.length + 1) cs) idLength).2) :=
                fun idLength => hgo 0 depth idLength (Nat.zero_le _) (by rw [List.take_zero]; exact List.not_mem_nil)
              by_cases hidentifier : depth = 1 ∧ bundleIdentifierKey.isPrefixOf (c :: cs) = true
              · obtain ⟨hfits, -⟩ := hinside _ hidentifier.2
                have hi : pre.length + 29 ≤ t.length := by
                  have hlength' : bundleIdentifierKey.length = 29 := by decide
                  rw [hlength, List.length_cons]
                  omega
                rw [if_pos hidentifier, if_pos hidentifier, h.bundleString hi, scanKeys]
                cases helement : stringElement (t.drop (pre.length + 29)) with
                | none => exact hnext idLength
                | some element =>
                    obtain ⟨start, closed⟩ := element
                    cases closed with
                    | none => exact hnext _
                    | some text =>
                        obtain ⟨hbytes, hnarrow⟩ := h.element hi helement
                        have hlast : u32 (((plist + (pre.length + 29) + start + text.length : Nat) : Int) -
                            (plist + (pre.length + 29) + start : Nat)) = text.length := by
                          unfold u32
                          omega
                        simp only [Option.map_some, hlast]
                        split_ifs with hshort
                        · rw [hbytes]
                          rfl
                        · exact hnext _
              · rw [if_neg hidentifier, if_neg hidentifier]
                exact hnext idLength

/-- The buffer of the identifier does not overlap the text. -/
def Apart (bundleIdentifier plist : Nat) (t : Bytes) : Prop :=
  bundleIdentifier + 256 ≤ plist ∨ plist + t.length < bundleIdentifier

theorem InfoPlist.extract (h : InfoPlist memory plist t) (hapart : Apart bundleIdentifier plist t) :
    extractKextBundleIdentifier bundleIdentifier plist t.length memory =
      some (storeIdentifier (store memory bundleIdentifier [0]) bundleIdentifier (scanKeys plist t (identifierKeys t) 0).1,
        (scanKeys plist t (identifierKeys t) 0).2) := by
  have hstored : InfoPlist (store memory bundleIdentifier [0]) plist t := by
    refine ⟨?_, h.text, h.narrow⟩
    rw [← h.stands]
    apply holds_congr
    intro i hi
    rw [List.length_append, List.length_singleton] at hi
    apply store_outside
    rw [List.length_singleton]
    unfold Apart at hapart
    omega
  rw [extractKextBundleIdentifier, searchMemory_text hstored.stands (by decide) (by decide), identifierKeys]
  cases hdict : occurrence dictTag t with
  | none => rfl
  | some i =>
      have hin := occurrence_length hdict
      rw [show dictTag.length = 6 by decide] at hin
      have hlength : (t.take (i + 6)).length = i + 6 := by
        rw [List.length_take]
        omega
      have hrounds : (t.drop (i + 6)).length < 2 ^ 32 := by
        rw [List.length_drop]
        have := h.narrow
        omega
      have hloop : Kext.identifierLoop bundleIdentifier plist t.length (2 ^ 32) (plist + (t.take (i + 6)).length) 1 0 _ = _ :=
        hstored.identifierLoop (List.take_append_drop (i + 6) t).symm hrounds
      rw [hlength, ← Nat.add_assoc] at hloop
      exact hloop

end Scan

/-! ### The keys of a text -/

section Keys

variable {t pattern : Bytes} {plist : Nat}

theorem occurrence_drop_none (h : occurrence pattern t = none) (n : Nat) : occurrence pattern (t.drop n) = none := by
  induction t generalizing n with
  | nil => rwa [List.drop_nil]
  | cons c cs ih =>
      cases n with
      | zero => exact h
      | succ n =>
          rw [occurrence] at h
          split_ifs at h
          exact ih (Option.map_eq_none_iff.mp h) n

/-- The first occurrence is in front of every other one. -/
theorem occurrence_first {i n m : Nat} (h : occurrence pattern t = some i) (hn : occurrence pattern (t.drop n) = some m)
    (hle : n ≤ t.length) : i ≤ n + m := by
  induction t generalizing i n with
  | nil =>
      rw [occurrence] at h
      split_ifs at h
      obtain rfl := Option.some_inj.mp h
      exact Nat.zero_le _
  | cons c cs ih =>
      cases n with
      | zero =>
          rw [List.drop_zero, h] at hn
          obtain rfl := Option.some_inj.mp hn
          omega
      | succ n =>
          rw [occurrence] at h
          split_ifs at h
          · obtain rfl := Option.some_inj.mp h
            exact Nat.zero_le _
          · obtain ⟨j, hj, rfl⟩ := Option.map_eq_some_iff.mp h
            have := ih hj hn (Nat.le_of_succ_le_succ hle)
            omega

theorem bundleKeys_bounds {depth : Int} {i k : Nat} (h : k ∈ bundleKeys depth i t) : i + 29 ≤ k ∧ k ≤ i + t.length := by
  induction t generalizing depth i with
  | nil => cases h
  | cons c cs ih =>
      have hrest : ∀ depth, k ∈ bundleKeys depth (i + 1) cs → i + 29 ≤ k ∧ k ≤ i + (c :: cs).length := by
        intro depth hk
        have := ih hk
        rw [List.length_cons]
        omega
      rw [bundleKeys] at h
      split_ifs at h with hopens hcloses hkey
      · exact hrest _ h
      · exact hrest _ h
      · rcases List.mem_cons.mp h with rfl | h
        · have hlength := (List.isPrefixOf_iff_prefix.mp hkey.2).length_le
          rw [show bundleIdentifierKey.length = 29 by decide] at hlength
          omega
        · exact hrest _ h
      · exact hrest _ h

theorem bundleKeys_sorted (depth : Int) (i : Nat) (t : Bytes) : (bundleKeys depth i t).Pairwise (· ≤ ·) := by
  induction t generalizing depth i with
  | nil => exact List.Pairwise.nil
  | cons c cs ih =>
      rw [bundleKeys]
      split_ifs
      · exact ih _ _
      · exact ih _ _
      · rw [List.pairwise_cons]
        refine ⟨fun k hk => ?_, ih _ _⟩
        have := (bundleKeys_bounds hk).1
        omega
      · exact ih _ _

theorem identifierKeys_le {k : Nat} (h : k ∈ identifierKeys t) : k ≤ t.length := by
  unfold identifierKeys at h
  split at h
  · cases h
  · next i hdict =>
      have hin := occurrence_length hdict
      rw [show dictTag.length = 6 by decide] at hin
      have := (bundleKeys_bounds h).2
      rw [List.length_drop] at this
      omega

theorem identifierKeys_sorted (t : Bytes) : (identifierKeys t).Pairwise (· ≤ ·) := by
  unfold identifierKeys
  split
  · exact List.Pairwise.nil
  · exact bundleKeys_sorted _ _ _

/-- Behind a key without a string, or with one that is left open, no string is closed. -/
theorem stringElement_later {k k' : Nat} (hle : k ≤ k') (hk : k' ≤ t.length)
    (hopen : ∀ element ∈ stringElement (t.drop k), element.2 = none) :
    ∀ element ∈ stringElement (t.drop k'), element.2 = none := by
  intro element helement
  obtain ⟨n, hn, rfl⟩ := Option.map_eq_some_iff.mp helement
  have hdrop : t.drop k' = (t.drop k).drop (k' - k) := by rw [List.drop_drop, Nat.add_sub_cancel' hle]
  cases hfirst : occurrence (ascii "<string>") (t.drop k) with
  | none =>
      rw [hdrop, occurrence_drop_none hfirst] at hn
      cases hn
  | some i =>
      have hnone := hopen _ (Option.map_eq_some_iff.mpr ⟨i, hfirst, rfl⟩)
      rw [Option.map_eq_none_iff] at hnone
      rw [hdrop] at hn
      have hbefore := occurrence_first hfirst hn (by rw [List.length_drop]; omega)
      have hsame : (t.drop k').drop (n + 8) = ((t.drop k).drop (i + 8)).drop (k' - k + n - i) := by
        rw [hdrop, List.drop_drop, List.drop_drop, List.drop_drop, List.drop_drop]
        congr 1
        omega
      rw [Option.map_eq_none_iff, hsame]
      exact occurrence_drop_none hnone _

/-- Where the strings start that follow a key. -/
def stringStarts (plist : Nat) (t : Bytes) (keys : List Nat) : List Nat :=
  keys.filterMap fun k => (stringElement (t.drop k)).map fun element => plist + k + element.1

/-- As long as no string is closed nothing is stored, and the length is that of a string from the last start to `NULL`. -/
theorem scanKeys_open {keys : List Nat} {idLength : Nat}
    (h : ∀ k ∈ keys, ∀ element ∈ stringElement (t.drop k), element.2 = none) :
    scanKeys plist t keys idLength =
      (none, ((stringStarts plist t keys).getLast?.map fun start : Nat => u32 (-(start : Int))).getD idLength) := by
  induction keys generalizing idLength with
  | nil => rfl
  | cons k keys ih =>
      have hrest : ∀ idLength, scanKeys plist t keys idLength =
          (none, ((stringStarts plist t keys).getLast?.map fun start : Nat => u32 (-(start : Int))).getD idLength) :=
        fun _ => ih fun k hk => h k (List.mem_cons_of_mem _ hk)
      have hhere := h k List.mem_cons_self
      rw [scanKeys, stringStarts, List.filterMap_cons]
      cases helement : stringElement (t.drop k) with
      | none => exact hrest idLength
      | some element =>
          obtain ⟨start, closed⟩ := element
          obtain rfl : closed = none := hhere _ helement
          dsimp only [Option.map_some]
          rw [hrest, List.getLast?_cons]
          unfold stringStarts
          cases (keys.filterMap fun k => (stringElement (t.drop k)).map fun element => plist + k + element.1).getLast? <;> rfl

end Keys

/-! ### The identifier -/

/-- The text at the first key is short enough for the buffer; or it is left open, and the last start of such a text is a
multiple of 4 GiB, from which the way to `NULL` has length zero. -/
def Identifiable (plist : Nat) (t : Bytes) : Prop :=
  match identifierElement t with
  | none => True
  | some (_, some text) => text.length < 256
  | some (_, none) => ∀ start ∈ (stringStarts plist t (identifierKeys t)).getLast?, start % 2 ^ 32 = 0

/-- The identifier and its length agree with each other and with the text, and depend on nothing else. -/
def Identified (memory : Memory) (bundleIdentifier plist : Nat) (t : Bytes) : Prop :=
  ∃ after idLength, extractKextBundleIdentifier bundleIdentifier plist t.length memory = some (after, idLength) ∧
    idLength < 256 ∧ idLength = (textAt after 256 bundleIdentifier).length ∧
    textAt after 256 bundleIdentifier = identifierText t ∧
    ∀ memory' : Memory, (∀ x, plist ≤ x → x ≤ plist + t.length → memory' x = memory x) →
      ∃ after', extractKextBundleIdentifier bundleIdentifier plist t.length memory' = some (after', idLength) ∧
        textAt after' 256 bundleIdentifier = textAt after 256 bundleIdentifier

section Identifier

variable {memory : Memory} {plist bundleIdentifier : Nat} {t : Bytes}

theorem scanKeys_identifier (plist : Nat) (t : Bytes) :
    match identifierElement t with
    | none => scanKeys plist t (identifierKeys t) 0 = (none, 0)
    | some (_, some text) => text.length < 256 → scanKeys plist t (identifierKeys t) 0 = (some text, text.length)
    | some (_, none) => ∃ start ∈ (stringStarts plist t (identifierKeys t)).getLast?,
        scanKeys plist t (identifierKeys t) 0 = (none, u32 (-(start : Int))) := by
  unfold identifierElement
  cases hkeys : identifierKeys t with
  | nil => rfl
  | cons k keys =>
      have hsorted := identifierKeys_sorted t
      have hle : ∀ k' ∈ k :: keys, k ≤ k' ∧ k' ≤ t.length := by
        intro k' hk'
        refine ⟨?_, identifierKeys_le (hkeys ▸ hk')⟩
        rw [hkeys, List.pairwise_cons] at hsorted
        rcases List.mem_cons.mp hk' with rfl | hk'
        · exact Nat.le_refl _
        · exact hsorted.1 k' hk'
      rw [List.head?_cons, Option.bind_some]
      cases helement : stringElement (t.drop k) with
      | none =>
          -- no later key has a string either
          have hnone : ∀ k' ∈ k :: keys, stringElement (t.drop k') = none := by
            intro k' hk'
            obtain ⟨hfrom, -⟩ := hle k' hk'
            rw [stringElement, Option.map_eq_none_iff] at helement ⊢
            have := occurrence_drop_none helement (k' - k)
            rwa [List.drop_drop, Nat.add_sub_cancel' hfrom] at this
          have hstarts : stringStarts plist t (k :: keys) = [] := by
            rw [stringStarts, List.filterMap_eq_nil_iff]
            intro k' hk'
            rw [hnone k' hk']
            rfl
          have hclosed : ∀ k' ∈ k :: keys, ∀ element ∈ stringElement (t.drop k'), element.2 = none := by
            intro k' hk' element he
            rw [hnone k' hk'] at he
            cases he
          dsimp only
          rw [scanKeys_open hclosed, hstarts]
          rfl
      | some element =>
          obtain ⟨start, closed⟩ := element
          cases closed with
          | some text =>
              intro hshort
              simp only [scanKeys, helement, if_pos hshort]
          | none =>
              have hopen : ∀ k' ∈ k :: keys, ∀ element ∈ stringElement (t.drop k'), element.2 = none := by
                intro k' hk'
                apply stringElement_later (hle k' hk').1 (hle k' hk').2
                intro element he
                rw [helement] at he
                obtain rfl := Option.some_inj.mp he
                rfl
              have hne : stringStarts plist t (k :: keys) ≠ [] := by
                rw [stringStarts, List.filterMap_cons, helement]
                exact List.cons_ne_nil _ _
              obtain ⟨last, hlast⟩ : ∃ last, (stringStarts plist t (k :: keys)).getLast? = some last :=
                ⟨_, List.getLast?_eq_getLast_of_ne_nil hne⟩
              refine ⟨last, hlast, ?_⟩
              rw [scanKeys_open hopen, hlast]
              rfl

theorem zero_not_mem_identifier {k start : Nat} {text : Bytes} (h : 0 ∉ t)
    (helement : stringElement (t.drop k) = some (start, some text)) : 0 ∉ text := by
  obtain ⟨n, -, hpair⟩ := Option.map_eq_some_iff.mp helement
  obtain ⟨m, -, rfl⟩ := Option.map_eq_some_iff.mp (Prod.mk.inj hpair).2
  exact fun hmem => h (List.mem_of_mem_drop (List.mem_of_mem_drop (List.mem_of_mem_take hmem)))

theorem textAt_storeIdentifier (memory : Memory) (bundleIdentifier : Nat) {found : Option Bytes}
    (h : ∀ text ∈ found, 0 ∉ text ∧ text.length < 256) :
    textAt (storeIdentifier (store memory bundleIdentifier [0]) bundleIdentifier found) 256 bundleIdentifier = found.getD [] := by
  cases found with
  | none => exact textAt_eq (s := []) holds_store List.not_mem_nil (by decide)
  | some text =>
      obtain ⟨htext, hshort⟩ := h text rfl
      apply textAt_eq _ htext hshort
      rw [storeIdentifier, holds_append, Bool.and_eq_true]
      refine ⟨?_, holds_store⟩
      rw [holds_store_before (Nat.le_refl _)]
      exact holds_store

/-- The identifier is the text of the first string behind the first key at depth one exactly when that text fits. -/
theorem extractKextBundleIdentifier_iff (h : InfoPlist memory plist t) (hapart : Apart bundleIdentifier plist t) :
    Identified memory bundleIdentifier plist t ↔ Identifiable plist t := by
  have hscan := scanKeys_identifier plist t
  unfold Identifiable Identified
  rw [h.extract hapart]
  constructor
  · rintro ⟨after, idLength, hrun, hbound, hlength, htext, -⟩
    obtain ⟨-, hid⟩ := Prod.mk.inj (Option.some_inj.mp hrun)
    rw [htext] at hlength
    unfold identifierText at hlength
    cases helement : identifierElement t with
    | none => trivial
    | some element =>
        obtain ⟨start, closed⟩ := element
        rw [helement] at hscan hlength
        cases closed with
        | some text =>
            rw [hlength] at hbound
            exact hbound
        | none =>
            obtain ⟨last, hlast, hfound⟩ := hscan
            intro start' hstart'
            rw [Option.mem_unique hstart' hlast]
            have hzero : idLength = 0 := hlength
            rw [hfound, hzero] at hid
            have hnull : u32 (-(last : Int)) = 0 := hid
            unfold u32 at hnull
            omega
  · intro hfits
    obtain ⟨hfound, htext, hlength, hshort⟩ : (∀ text ∈ (scanKeys plist t (identifierKeys t) 0).1, 0 ∉ text ∧ text.length < 256) ∧
        (scanKeys plist t (identifierKeys t) 0).1.getD [] = identifierText t ∧
        (scanKeys plist t (identifierKeys t) 0).2 = (identifierText t).length ∧ (identifierText t).length < 256 := by
      unfold identifierText
      cases helement : identifierElement t with
      | none =>
          rw [helement] at hscan
          rw [hscan]
          exact ⟨(fun _ hmem => nomatch hmem), rfl, rfl, by decide⟩
      | some element =>
          obtain ⟨start, closed⟩ := element
          rw [helement] at hscan hfits
          cases closed with
          | some text =>
              obtain ⟨k, -, hk⟩ := Option.bind_eq_some_iff.mp helement
              rw [hscan hfits]
              refine ⟨?_, rfl, rfl, hfits⟩
              intro text' htext'
              obtain rfl := Option.some_inj.mp htext'
              exact ⟨zero_not_mem_identifier h.text hk, hfits⟩
          | none =>
              obtain ⟨last, hlast, hfound⟩ := hscan
              have hmultiple := hfits last hlast
              have hnull : u32 (-(last : Int)) = 0 := by
                unfold u32
                omega
              rw [hfound, hnull]
              exact ⟨(fun _ hmem => nomatch hmem), rfl, rfl, Nat.zero_lt_of_lt (Nat.lt_add_one 255)⟩
    have hstored := fun memory => textAt_storeIdentifier memory bundleIdentifier hfound
    refine ⟨_, _, rfl, ?_, ?_, ?_, ?_⟩
    · rwa [hlength]
    · rw [hstored, htext, hlength]
    · rw [hstored, htext]
    · intro memory' hagree
      have h' : InfoPlist memory' plist t := by
        refine ⟨?_, h.text, h.narrow⟩
        rw [← h.stands]
        apply holds_congr
        intro i hi
        rw [List.length_append, List.length_singleton] at hi
        exact hagree _ (by omega) (by omega)
      exact ⟨_, h'.extract hapart, by rw [hstored, hstored]⟩

end Identifier

def namedInfo : Bytes := ascii "<dict><key>CFBundleIdentifier</key><string>com.apple.kext</string></dict>"

/-- The end tag of the string is missing. -/
def openInfo : Bytes := ascii "<dict><key>CFBundleIdentifier</key><string>com.apple.kext</dict>"

def infoMemory (t : Bytes) : Memory := store (fun _ => 0) 4096 (t ++ [0])

theorem infoMemory_plist {t : Bytes} (htext : 0 ∉ t) (hnarrow : t.length < 2 ^ 32) : InfoPlist (infoMemory t) 4096 t :=
  ⟨holds_store, htext, hnarrow⟩

theorem namedInfo_identified : Identified (infoMemory namedInfo) 256 4096 namedInfo := by
  have hfits : Identifiable 4096 namedInfo := by
    have helement : identifierElement namedInfo = some (8, some (ascii "com.apple.kext")) := by decide +kernel
    unfold Identifiable
    rw [helement]
    exact (by decide : (ascii "com.apple.kext").length < 256)
  exact (extractKextBundleIdentifier_iff (infoMemory_plist (by decide +kernel) (by decide +kernel)) (Or.inl (by decide))).2 hfits

example : identifierText namedInfo = ascii "com.apple.kext" := by decide +kernel

/-- The length is that of a string which ends at `NULL`. -/
theorem openInfo_unidentified : ¬ Identified (infoMemory openInfo) 256 4096 openInfo := by
  have hopen : InfoPlist (infoMemory openInfo) 4096 openInfo := infoMemory_plist (by decide +kernel) (by decide +kernel)
  have hlength : (scanKeys 4096 openInfo (identifierKeys openInfo) 0).2 = 2 ^ 32 - 4139 := by decide +kernel
  rintro ⟨after, idLength, hrun, hbound, -⟩
  rw [hopen.extract (Or.inl (by decide))] at hrun
  obtain ⟨-, rfl⟩ := Prod.mk.inj (Option.some_inj.mp hrun)
  rw [hlength] at hbound
  exact absurd hbound (by decide)

end BareBoot.Kext
