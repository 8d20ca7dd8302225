import BareBoot.KernelPatcher

/-! The Darwin version in the patches that depend on it: version strings are compared by their first characters,
and this says for which versions that is the comparison of numbers. -/

namespace BareBoot.Kernel

open Plist Kext

/-! ### Comparisons -/

theorem asciiStrnCmp_same {c : UInt8} (hc : c ≠ 0) (cs ds : Bytes) (length : Nat) :
    asciiStrnCmp (c :: cs) (c :: ds) (length + 1) = asciiStrnCmp cs ds length := by
  rw [asciiStrnCmp, if_neg]
  rintro (h | h | h)
  · exact hc h
  · exact hc h
  · exact h rfl

theorem asciiStrnCmp_differ {c d : UInt8} (h : c ≠ d) (cs ds : Bytes) (length : Nat) :
    asciiStrnCmp (c :: cs) (d :: ds) (length + 1) = (c.toNat : Int) - d.toNat := by
  rw [asciiStrnCmp, if_pos (Or.inr (Or.inr h))]

theorem asciiStrnCmp_eq_zero {s t : Bytes} (ht : (0 : UInt8) ∉ t) : asciiStrnCmp s t t.length = 0 ↔ t <+: s := by
  induction t generalizing s with
  | nil => simp [asciiStrnCmp]
  | cons d ds ih =>
      obtain ⟨hd, hds⟩ := not_or.1 (mt List.mem_cons.2 ht)
      rcases s with _ | ⟨c, cs⟩
      · have hpos : 0 < d.toNat := Nat.pos_of_ne_zero fun h => hd (UInt8.toNat_inj.1 h).symm
        rw [List.length_cons, asciiStrnCmp, List.prefix_nil]
        constructor
        · intro h
          omega
        · intro h
          exact absurd h (List.cons_ne_nil _ _)
      · rw [List.length_cons, List.cons_prefix_cons]
        by_cases h : d = c
        · subst h
          rw [asciiStrnCmp_same (Ne.symm hd), ih hds]
          exact (and_iff_right rfl).symm
        · have hne : c.toNat ≠ d.toNat := fun heq => h (UInt8.toNat_inj.1 heq).symm
          rw [asciiStrnCmp_differ (Ne.symm h)]
          constructor
          · intro h'
            omega
          · intro h'
            exact absurd h'.1 h

theorem startsWith_iff {s t : Bytes} (ht : (0 : UInt8) ∉ t) : startsWith s t = true ↔ t <+: s := by
  rw [startsWith, beq_iff_eq, asciiStrnCmp_eq_zero ht]

/-! ### Decimal numbers -/

/-- The character of a decimal digit. -/
def digit (d : Nat) : UInt8 := UInt8.ofNat (48 + d)

/-- A number in decimal. -/
def decimal (n : Nat) : Bytes := decimalDigits (n + 1) n

theorem digit_toNat {d : Nat} (hd : d < 10) : (digit d).toNat = 48 + d := by
  rw [digit, UInt8.toNat_ofNat', Nat.mod_eq_of_lt (by omega)]

theorem digit_inj {d e : Nat} (hd : d < 10) (he : e < 10) : digit d = digit e ↔ d = e := by
  rw [← UInt8.toNat_inj, digit_toNat hd, digit_toNat he]
  omega

theorem digit_ne {d : Nat} (hd : d < 10) {c : UInt8} (hc : c.toNat < 48) : digit d ≠ c := by
  intro h
  have := congrArg UInt8.toNat h
  rw [digit_toNat hd] at this
  omega

/-- Room for more digits than there are changes nothing. -/
theorem decimalDigits_room {count count' n : Nat} (h : n < count) (h' : n < count') :
    decimalDigits count n = decimalDigits count' n := by
  induction count generalizing count' n with
  | zero => omega
  | succ count ih =>
      obtain ⟨count', rfl⟩ := Nat.exists_eq_succ_of_ne_zero (by omega : count' ≠ 0)
      rw [Nat.succ_eq_add_one, decimalDigits, decimalDigits]
      split
      · rfl
      · have hrest : decimalDigits count (n / 10) = decimalDigits count' (n / 10) := ih (by omega) (by omega)
        rw [hrest]

theorem decimal_digit {n : Nat} (hn : n < 10) : decimal n = [digit n] := by
  rw [decimal, decimalDigits, if_pos hn, digit]

theorem decimal_append {n : Nat} (hn : 10 ≤ n) : decimal n = decimal (n / 10) ++ [digit (n % 10)] := by
  rw [decimal, decimalDigits, if_neg (by omega), decimal, decimalDigits_room (by omega) (Nat.lt_succ_self _), digit]

theorem decimal_two {a b : Nat} (ha : 0 < a) (ha' : a < 10) (hb : b < 10) : decimal (10 * a + b) = [digit a, digit b] := by
  rw [decimal_append (by omega), show (10 * a + b) / 10 = a by omega, show (10 * a + b) % 10 = b by omega,
    decimal_digit ha']
  rfl

/-- A number of two or more digits begins with two of them. -/
theorem decimal_leading {n : Nat} (hn : 10 ≤ n) :
    ∃ a b more, 0 < a ∧ a < 10 ∧ b < 10 ∧ decimal n = digit a :: digit b :: more ∧
      (n < 100 → more = [] ∧ n = 10 * a + b) ∧ (100 ≤ n → ∃ c, c < 10 ∧ more.head? = some (digit c)) := by
  induction n using Nat.strong_induction_on with
  | _ n ih =>
      by_cases hsmall : n < 100
      · refine ⟨n / 10, n % 10, [], by omega, by omega, by omega, ?_, fun _ => ⟨rfl, by omega⟩, fun h => by omega⟩
        have h := decimal_two (a := n / 10) (b := n % 10) (by omega) (by omega) (by omega)
        rwa [show 10 * (n / 10) + n % 10 = n by omega] at h
      · obtain ⟨a, b, more, ha, ha', hb, htext, htwo, hmore⟩ := ih (n / 10) (by omega) (by omega)
        refine ⟨a, b, more ++ [digit (n % 10)], ha, ha', hb, ?_, fun h => absurd h hsmall, fun _ => ?_⟩
        · rw [decimal_append (by omega), htext]
          rfl
        · by_cases h : n / 10 < 100
          · rw [(htwo h).1]
            exact ⟨n % 10, Nat.mod_lt _ (by decide), rfl⟩
          · obtain ⟨c, hc, hhead⟩ := hmore (by omega)
            refine ⟨c, hc, ?_⟩
            rw [List.head?_append, hhead]
            rfl

/-- The first digit is zero for zero alone. -/
theorem decimal_head (n : Nat) :
    ∃ d more, d < 10 ∧ decimal n = digit d :: more ∧ (d = 0 ↔ n = 0) ∧ (n < 10 → more = [] ∧ d = n) ∧
      (10 ≤ n → ∃ c, c < 10 ∧ more.head? = some (digit c)) := by
  by_cases hn : n < 10
  · exact ⟨n, [], hn, decimal_digit hn, Iff.rfl, fun _ => ⟨rfl, rfl⟩, fun h => absurd hn (by omega)⟩
  · obtain ⟨a, b, more, ha, ha', hb, htext, -, -⟩ := decimal_leading (Nat.le_of_not_lt hn)
    refine ⟨a, digit b :: more, ha', htext, ?_, fun h => absurd h hn, fun _ => ⟨b, hb, rfl⟩⟩
    omega

theorem decimal_digits (n : Nat) : ∀ c ∈ decimal n, IsDecimalChar c := isDecimalChar_decimalDigits _ _

theorem dot_notMem_decimal (n : Nat) : (46 : UInt8) ∉ decimal n := fun h => absurd (decimal_digits n 46 h).1 (by decide)

theorem zero_notMem_decimal (n : Nat) : (0 : UInt8) ∉ decimal n := fun h => absurd (decimal_digits n 0 h).1 (by decide)

theorem decimal_injective {m n : Nat} (h : decimal m = decimal n) : m = n := by
  induction m using Nat.strong_induction_on generalizing n with
  | _ m ih =>
      obtain ⟨d, more, hd, htext, -, hsmall, hlarge⟩ := decimal_head m
      obtain ⟨d', more', hd', htext', -, hsmall', hlarge'⟩ := decimal_head n
      obtain ⟨hhead, htail⟩ := List.cons.inj (htext.symm.trans (h.trans htext'))
      by_cases hm : m < 10 <;> by_cases hn : n < 10
      · rw [← (hsmall hm).2, ← (hsmall' hn).2]
        exact (digit_inj hd hd').1 hhead
      · obtain ⟨c, -, hc⟩ := hlarge' (by omega)
        rw [← htail, (hsmall hm).1] at hc
        exact absurd hc (Option.some_ne_none _).symm
      · obtain ⟨c, -, hc⟩ := hlarge (by omega)
        rw [htail, (hsmall' hn).1] at hc
        exact absurd hc (Option.some_ne_none _).symm
      · rw [decimal_append (by omega : 10 ≤ m), decimal_append (by omega : 10 ≤ n)] at h
        obtain ⟨hinit, hlast⟩ := List.append_inj' h rfl
        have hdiv := ih (m / 10) (by omega) hinit
        have hmod := (digit_inj (Nat.mod_lt m (by decide)) (Nat.mod_lt n (by decide))).1 (List.cons.inj hlast).1
        omega

/-! ### Versions -/

structure Version where
  major : Nat
  minor : Nat
  rest : List Nat

def Version.components (v : Version) : List Nat := v.major :: v.minor :: v.rest

/-- Numbers in decimal with dots between them. -/
def dotted : List Nat → Bytes
  | [] => []
  | [n] => decimal n
  | n :: m :: more => decimal n ++ 46 :: dotted (m :: more)

def Version.text (v : Version) : Bytes := dotted v.components

/-- The first three components in the order of versions; a missing one is zero. -/
def Version.before (v : Version) (major minor patch : Nat) : Prop :=
  v.major < major ∨ v.major = major ∧ (v.minor < minor ∨ v.minor = minor ∧ v.rest.headD 0 < patch)

instance (v : Version) (major minor patch : Nat) : Decidable (v.before major minor patch) := by
  unfold Version.before
  infer_instance

/-- The versions with a patch set, the more specific ones first. -/
def listedSets : List (List Nat × List PatchStep) :=
  let kernelDebug := [kbeY, kbeECDebug, textText, kbeEntitlement, kbeECDebugEntitlement]
  [([10, 8, 0], [kbeSL_1080_X64]), ([14, 4], kernelDebug), ([10], [kbeSL_X64]), ([11], [kbeLion_X64]), ([12], [kbeML]),
    ([13], [kbeML]), ([14], [kbeY]), ([15], kernelDebug), ([16], [kbeY, textText, kbeSDP2Entitlement]),
    ([17], [kbeY, textText, kbeHSEntitlement])]

/-- The patch set of the most specific listed version that `v` is one of. -/
def Version.listedSet (v : Version) : List PatchStep :=
  ((listedSets.find? fun entry => entry.1.isPrefixOf v.components).map Prod.snd).getD []

/-- The pattern for the version by its number. -/
def Version.cpuIdSet (v : Version) (cpuIdSing : Nat) : List PatchStep :=
  if v.before 10 7 1 then [] else if v.before 11 0 0 then [cpuId_1 cpuIdSing] else [cpuId_2 cpuIdSing]

/-! ### Prefixes of a version string -/

theorem prefix_append_dot {t u w : Bytes} (ht : (46 : UInt8) ∉ t) : t <+: u ++ 46 :: w ↔ t <+: u := by
  induction t generalizing u with
  | nil => simp
  | cons c cs ih =>
      obtain ⟨hc, hcs⟩ := not_or.1 (mt List.mem_cons.2 ht)
      rcases u with _ | ⟨d, ds⟩
      · rw [List.nil_append, List.cons_prefix_cons, List.prefix_nil]
        constructor
        · intro h
          exact absurd h.1.symm hc
        · intro h
          exact absurd h (List.cons_ne_nil _ _)
      · rw [List.cons_append, List.cons_prefix_cons, List.cons_prefix_cons, ih hcs]

theorem append_dot_prefix {t u u' w : Bytes} (hu : (46 : UInt8) ∉ u) (hu' : (46 : UInt8) ∉ u') :
    u ++ 46 :: t <+: u' ++ 46 :: w ↔ u = u' ∧ t <+: w := by
  induction u generalizing u' with
  | nil =>
      rcases u' with _ | ⟨d, ds⟩
      · rw [List.nil_append, List.nil_append, List.cons_prefix_cons, and_iff_right rfl, and_iff_right rfl]
      · rw [List.nil_append, List.cons_append, List.cons_prefix_cons]
        constructor
        · intro h
          exact absurd (List.mem_cons.2 (Or.inl h.1)) hu'
        · intro h
          exact absurd h.1.symm (List.cons_ne_nil _ _)
  | cons c cs ih =>
      obtain ⟨hc, hcs⟩ := not_or.1 (mt List.mem_cons.2 hu)
      rcases u' with _ | ⟨d, ds⟩
      · rw [List.nil_append, List.cons_append, List.cons_prefix_cons]
        constructor
        · intro h
          exact absurd h.1.symm hc
        · intro h
          exact absurd h.1 (List.cons_ne_nil _ _)
      · obtain ⟨-, hds⟩ := not_or.1 (mt List.mem_cons.2 hu')
        rw [List.cons_append, List.cons_append, List.cons_prefix_cons, ih hcs hds, List.cons.injEq, and_assoc]

theorem Version.text_eq (v : Version) : v.text = decimal v.major ++ 46 :: dotted (v.minor :: v.rest) := rfl

/-- A number in front of the string is one in front of the major version. -/
theorem Version.startsWith_decimal (v : Version) (n : Nat) :
    startsWith v.text (decimal n) = true ↔ decimal n <+: decimal v.major := by
  rw [startsWith_iff (zero_notMem_decimal n), v.text_eq, prefix_append_dot (dot_notMem_decimal n)]

theorem dotted_head (n : Nat) (more : List Nat) : [digit 0] <+: dotted (n :: more) ↔ n = 0 := by
  obtain ⟨d, digits, hd, htext, hzero, -, -⟩ := decimal_head n
  obtain ⟨tail, htail⟩ : ∃ tail, dotted (n :: more) = digit d :: tail := by
    rcases more with _ | ⟨m, more⟩
    · exact ⟨digits, htext⟩
    · exact ⟨digits ++ 46 :: dotted (m :: more), by rw [dotted, htext, List.cons_append]⟩
  rw [htail, List.cons_prefix_cons, digit_inj (by decide) hd, ← hzero]
  constructor
  · intro h
    exact h.1.symm
  · intro h
    exact ⟨h.symm, List.nil_prefix⟩

theorem Version.startsWith_1080 (v : Version) :
    startsWith v.text (ascii "10.8.0") = true ↔ [10, 8, 0] <+: v.components := by
  have htext : ascii "10.8.0" = decimal 10 ++ 46 :: (decimal 8 ++ 46 :: [digit 0]) := by decide
  rw [startsWith_iff (by decide), htext, v.text_eq, append_dot_prefix (dot_notMem_decimal _) (dot_notMem_decimal _)]
  simp only [Version.components, List.cons_prefix_cons]
  refine and_congr ⟨decimal_injective, congrArg decimal⟩ ?_
  rcases v.rest with _ | ⟨patch, more⟩
  · constructor
    · intro h
      exact absurd (h.subset (List.mem_append_right _ List.mem_cons_self)) (dot_notMem_decimal _)
    · intro h
      exact absurd (List.prefix_nil.1 h.2) (List.cons_ne_nil _ _)
  · rw [dotted, append_dot_prefix (dot_notMem_decimal _) (dot_notMem_decimal _), dotted_head, List.cons_prefix_cons]
    refine and_congr ⟨decimal_injective, congrArg decimal⟩ ?_
    constructor
    · intro h
      exact ⟨h.symm, List.nil_prefix⟩
    · intro h
      exact h.1.symm

/-! ### The patch set -/

/-- The versions whose patch set is the listed one: the set of 14.4 stands behind that of 14, and a longer number
that begins with a listed one is taken for it. -/
def Version.BootersListed (v : Version) : Prop :=
  ¬[14, 4] <+: v.components ∧ ∀ n, 10 ≤ n → n ≤ 17 → decimal n <+: decimal v.major → v.major = n

/-- What two digits in front of the version string choose. -/
def leadingSet (lead : Nat) : List PatchStep :=
  if lead = 10 then [kbeSL_X64]
  else if lead = 11 then [kbeLion_X64]
  else if lead = 12 ∨ lead = 13 then [kbeML]
  else if lead = 14 then [kbeY]
  else if lead = 15 then [kbeY, kbeECDebug, textText, kbeEntitlement, kbeECDebugEntitlement]
  else if lead = 16 then [kbeY, textText, kbeSDP2Entitlement]
  else if lead = 17 then [kbeY, textText, kbeHSEntitlement]
  else []

theorem leadingSet_ne_nil {lead : Nat} : leadingSet lead ≠ [] ↔ 10 ≤ lead ∧ lead ≤ 17 := by
  constructor
  · intro h
    by_contra hlead
    refine h ?_
    simp only [leadingSet]
    repeat rw [if_neg (by omega)]
  · rintro ⟨hlow, hhigh⟩
    interval_cases lead <;> exact List.cons_ne_nil _ _

theorem booterExtensionsSteps_leading {kernVersion : Bytes} {lead : Nat}
    (hlead : ∀ n, 10 ≤ n → n ≤ 17 → (startsWith kernVersion (decimal n) = true ↔ lead = n)) :
    booterExtensionsSteps true kernVersion =
      kldText :: if startsWith kernVersion (ascii "10.8.0") then [kbeSL_1080_X64] else leadingSet lead := by
  have htest (n : Nat) (hn : 10 ≤ n ∧ n ≤ 17) (text : Bytes) (htext : text = decimal n) :
      startsWith kernVersion text = decide (lead = n) := by
    rw [htext, Bool.eq_iff_iff, hlead n hn.1 hn.2, decide_eq_true_iff]
  -- the test for 14.4 stands behind the one for 14
  have hshadowed : lead ≠ 14 → startsWith kernVersion (ascii "14.4") = false := by
    intro h
    rw [Bool.eq_false_iff]
    intro h144
    rw [startsWith_iff (by decide)] at h144
    have h14 : startsWith kernVersion (decimal 14) = true := by
      rw [startsWith_iff (by decide)]
      exact List.IsPrefix.trans (by decide) h144
    exact h ((hlead 14 (by decide) (by decide)).1 h14)
  simp only [booterExtensionsSteps, if_true, htest 10 (by decide) (ascii "10") (by decide),
    htest 11 (by decide) (ascii "11") (by decide), htest 12 (by decide) (ascii "12") (by decide),
    htest 13 (by decide) (ascii "13") (by decide), htest 14 (by decide) (ascii "14") (by decide),
    htest 15 (by decide) (ascii "15") (by decide), htest 16 (by decide) (ascii "16") (by decide),
    htest 17 (by decide) (ascii "17") (by decide), Bool.or_eq_true, decide_eq_true_eq, leadingSet]
  by_cases h14 : lead = 14
  · subst h14
    rfl
  · rw [hshadowed h14]
    simp only [Bool.false_eq_true, false_or]

/-- The two digits in front of a version string: zero where there is one only. -/
theorem Version.exists_leading (v : Version) :
    ∃ lead, (∀ n, 10 ≤ n → n < 100 → (decimal n <+: decimal v.major ↔ lead = n)) ∧
      (v.major < 10 → lead = 0) ∧ (10 ≤ v.major → 10 ≤ lead ∧ lead < 100 ∧ (v.major < 100 → lead = v.major)) := by
  by_cases hmajor : v.major < 10
  · refine ⟨0, fun n hn _ => ?_, fun _ => rfl, fun h => absurd hmajor (by omega)⟩
    obtain ⟨a, b, more, -, -, -, htext, -, -⟩ := decimal_leading hn
    rw [decimal_digit hmajor, htext, List.cons_prefix_cons, List.prefix_nil]
    constructor
    · intro h
      exact absurd h.2 (List.cons_ne_nil _ _)
    · intro h
      omega
  · obtain ⟨a, b, more, ha, ha', hb, htext, htwo, -⟩ := decimal_leading (Nat.le_of_not_lt hmajor)
    refine ⟨10 * a + b, fun n hn hn' => ?_, fun h => absurd h hmajor, fun _ => ⟨by omega, by omega, fun h => ?_⟩⟩
    swap
    · exact (htwo h).2.symm
    obtain ⟨c, d, more', hc, hc', hd, htext', htwo', -⟩ := decimal_leading hn
    obtain ⟨rfl, rfl⟩ := htwo' hn'
    rw [htext, htext', List.cons_prefix_cons, List.cons_prefix_cons, digit_inj hc' ha', digit_inj hd hb]
    constructor
    · rintro ⟨rfl, rfl, -⟩
      rfl
    · intro h
      exact ⟨by omega, by omega, List.nil_prefix⟩

theorem Version.listedSet_eq (v : Version) (h144 : ¬[14, 4] <+: v.components) :
    v.listedSet = if [10, 8, 0] <+: v.components then [kbeSL_1080_X64] else leadingSet v.major := by
  have hpre (t : List Nat) : t.isPrefixOf v.components = decide (t <+: v.components) := by
    rw [Bool.eq_iff_iff, List.isPrefixOf_iff_prefix, decide_eq_true_iff]
  have hone (n : Nat) : [n] <+: v.components ↔ v.major = n := by
    rw [Version.components, List.cons_prefix_cons, and_iff_left List.nil_prefix, eq_comm]
  by_cases h1080 : [10, 8, 0] <+: v.components
  · rw [if_pos h1080, Version.listedSet, listedSets, List.find?_cons_of_pos (by simpa [hpre] using h1080)]
    rfl
  · rw [if_neg h1080]
    simp only [Version.listedSet, listedSets, List.find?_cons, hpre, hone, h1080, h144, decide_false]
    by_cases hmajor : 10 ≤ v.major ∧ v.major ≤ 17
    · obtain ⟨hlow, hhigh⟩ := hmajor
      generalize v.major = major at hlow hhigh
      interval_cases major <;> rfl
    · have hne (n : Nat) (hn : 10 ≤ n ∧ n ≤ 17) : decide (v.major = n) = false := by
        rw [decide_eq_false_iff_not]
        omega
      simp only [hne 10 (by decide), hne 11 (by decide), hne 12 (by decide), hne 13 (by decide), hne 14 (by decide),
        hne 15 (by decide), hne 16 (by decide), hne 17 (by decide), List.find?_nil]
      by_contra hset
      exact hmajor (leadingSet_ne_nil.1 fun h => hset h.symm)

/-- `KernelBooterExtensionsPatch` applies the listed set to exactly these versions. -/
theorem booterExtensionsSteps_iff (v : Version) :
    booterExtensionsSteps true v.text = kldText :: v.listedSet ↔ v.BootersListed := by
  obtain ⟨lead, hlead, hone, htwo⟩ := v.exists_leading
  rw [booterExtensionsSteps_leading fun n hn hn' => (v.startsWith_decimal n).trans (hlead n hn (by omega)),
    List.cons.injEq, and_iff_right rfl]
  simp only [v.startsWith_1080]
  constructor
  · intro h
    have h144 : ¬[14, 4] <+: v.components := by
      obtain ⟨major, minor, rest⟩ := v
      intro hpre
      simp only [Version.components, List.cons_prefix_cons] at hpre
      obtain ⟨rfl, rfl, -⟩ := hpre
      have hlead14 : lead = 14 := (htwo (show 10 ≤ 14 by decide)).2.2 (show 14 < 100 by decide)
      rw [hlead14, if_neg (by simp [Version.components, List.cons_prefix_cons])] at h
      have hset : leadingSet 14 = [kbeY, kbeECDebug, textText, kbeEntitlement, kbeECDebugEntitlement] := h
      exact absurd hset (by decide)
    refine ⟨h144, fun n hn hn' hpre => ?_⟩
    have hn_lead := (hlead n hn (by omega)).1 hpre
    by_contra hne
    have hlarge : 100 ≤ v.major := by
      by_contra hsmall
      by_cases hten : v.major < 10
      · have := hone hten
        omega
      · have := (htwo (by omega)).2.2 (by omega)
        omega
    have h10 : ¬[10, 8, 0] <+: v.components := by
      rw [Version.components, List.cons_prefix_cons]
      omega
    rw [v.listedSet_eq h144, if_neg h10, if_neg h10] at h
    have hempty : leadingSet v.major = [] := by
      by_contra hset
      have := leadingSet_ne_nil.1 hset
      omega
    rw [hempty] at h
    exact leadingSet_ne_nil.2 (by omega) h
  · rintro ⟨h144, hnumber⟩
    rw [v.listedSet_eq h144]
    congr 1
    by_cases hset : leadingSet lead = []
    · by_contra hother
      have hrange := leadingSet_ne_nil.1 fun h => hother (hset.trans h.symm)
      rw [(htwo hrange.1).2.2 (by omega)] at hother
      exact hother rfl
    · have hrange := leadingSet_ne_nil.1 hset
      rw [hnumber lead hrange.1 hrange.2 ((hlead lead hrange.1 (by omega)).2 rfl)]

/-! ### The order of versions -/

theorem asciiStrnCmp_digit_lt {d e : Nat} (h : d < e) (he : e < 10) (cs ds : Bytes) (length : Nat) :
    asciiStrnCmp (digit d :: cs) (digit e :: ds) (length + 1) < 0 := by
  have hne : digit d ≠ digit e := fun heq => absurd ((digit_inj (by omega) he).1 heq) (by omega)
  rw [asciiStrnCmp_differ hne, digit_toNat (by omega), digit_toNat he]
  omega

theorem asciiStrnCmp_digit_gt {d e : Nat} (h : e < d) (hd : d < 10) (cs ds : Bytes) (length : Nat) :
    0 < asciiStrnCmp (digit d :: cs) (digit e :: ds) (length + 1) := by
  have hne : digit d ≠ digit e := fun heq => absurd ((digit_inj hd (by omega)).1 heq) (by omega)
  rw [asciiStrnCmp_differ hne, digit_toNat hd, digit_toNat (by omega)]
  omega

theorem asciiStrnCmp_digit_self {d : Nat} (hd : d < 10) (cs ds : Bytes) (length : Nat) :
    asciiStrnCmp (digit d :: cs) (digit d :: ds) (length + 1) = asciiStrnCmp cs ds length :=
  asciiStrnCmp_same (digit_ne hd (by decide)) cs ds length

/-- A number goes on where the other one ends. -/
theorem asciiStrnCmp_digit_dot {d : Nat} (hd : d < 10) (cs ds : Bytes) (length : Nat) :
    0 < asciiStrnCmp (digit d :: cs) (46 :: ds) (length + 1) := by
  rw [asciiStrnCmp_differ (digit_ne hd (by decide)), digit_toNat hd, show (46 : UInt8).toNat = 46 from rfl]
  omega

theorem asciiStrnCmp_dot_digit {e : Nat} (he : e < 10) (cs ds : Bytes) (length : Nat) :
    asciiStrnCmp (46 :: cs) (digit e :: ds) (length + 1) < 0 := by
  rw [asciiStrnCmp_differ (digit_ne he (by decide)).symm, digit_toNat he, show (46 : UInt8).toNat = 46 from rfl]
  omega

theorem asciiStrnCmp_dot_dot (cs ds : Bytes) (length : Nat) :
    asciiStrnCmp (46 :: cs) (46 :: ds) (length + 1) = asciiStrnCmp cs ds length :=
  asciiStrnCmp_same (by decide) cs ds length

/-- A component against a digit and a dot, with the rest of the version behind it. -/
theorem dotted_shape (n : Nat) (more : List Nat) :
    ∃ d text, d < 10 ∧ dotted (n :: more) = digit d :: text ∧ ((decimal n).headD 0).toNat = 48 + d ∧ (d = 0 ↔ n = 0) ∧
      (n < 10 → d = n ∧ text = more.flatMap fun m => 46 :: decimal m) ∧
      (10 ≤ n → ∃ c tail, c < 10 ∧ text = digit c :: tail) := by
  have hdotted : dotted (n :: more) = decimal n ++ more.flatMap fun m => 46 :: decimal m := by
    induction more generalizing n with
    | nil => rw [dotted, List.flatMap_nil, List.append_nil]
    | cons m more ih => rw [dotted, ih m, List.flatMap_cons, List.cons_append]
  obtain ⟨d, digits, hd, htext, hzero, hsmall, hlarge⟩ := decimal_head n
  refine ⟨d, digits ++ more.flatMap fun m => 46 :: decimal m, hd, ?_, ?_, hzero, fun h => ?_, fun h => ?_⟩
  · rw [hdotted, htext, List.cons_append]
  · rw [htext, List.headD_cons, digit_toNat hd]
  · rw [(hsmall h).1, List.nil_append]
    exact ⟨(hsmall h).2, rfl⟩
  · obtain ⟨c, hc, hhead⟩ := hlarge h
    rcases digits with _ | ⟨c', tail⟩
    · exact absurd hhead (Option.some_ne_none _).symm
    · cases hhead
      exact ⟨c, _, hc, rfl⟩

/-- The last digit that is compared. -/
theorem asciiStrnCmp_last {d e : Nat} (hd : d < 10) (he : e < 10) (cs : Bytes) :
    0 ≤ asciiStrnCmp (digit d :: cs) [digit e] 1 ↔ e ≤ d := by
  rcases Nat.lt_trichotomy d e with h | h | h
  · have hlt : asciiStrnCmp (digit d :: cs) [digit e] 1 < 0 := asciiStrnCmp_digit_lt h he cs [] 0
    omega
  · subst h
    rw [asciiStrnCmp_digit_self hd, asciiStrnCmp]
    omega
  · have hgt : 0 < asciiStrnCmp (digit d :: cs) [digit e] 1 := asciiStrnCmp_digit_gt h hd cs [] 0
    omega

/-- Behind a component of one digit, the digit of a listed version against a further component. -/
theorem asciiStrnCmp_behind (patch : Nat) (more : List Nat) {e : Nat} (he : e < 10) :
    ∃ d, (d = 0 ↔ patch = 0) ∧
      (0 ≤ asciiStrnCmp ((patch :: more).flatMap fun m => 46 :: decimal m) [46, digit e] 2 ↔ e ≤ d) := by
  obtain ⟨d, digits, hd, htext, hzero, -, -⟩ := decimal_head patch
  refine ⟨d, hzero, ?_⟩
  rw [List.flatMap_cons, htext, List.cons_append, asciiStrnCmp_dot_dot, List.cons_append, asciiStrnCmp_last hd he]

/-- The components behind the first against those of `10.7.1`. -/
theorem dotted_after_71 (minor : Nat) (rest : List Nat) :
    0 ≤ asciiStrnCmp (dotted (minor :: rest)) [digit 7, 46, digit 1] 3 ↔
      minor = 7 ∧ 0 < rest.headD 0 ∨ minor ≠ 7 ∧ 55 ≤ ((decimal minor).headD 0).toNat := by
  obtain ⟨d, text, hd, htext, hhead, -, hsmall, hlarge⟩ := dotted_shape minor rest
  rw [htext, hhead]
  rcases Nat.lt_trichotomy d 7 with h | h | h
  · have hlt : asciiStrnCmp (digit d :: text) [digit 7, 46, digit 1] 3 < 0 := asciiStrnCmp_digit_lt h (by decide) _ _ _
    have hminor : minor ≠ 7 := fun heq => absurd (hsmall (by omega)).1 (by omega)
    omega
  · subst h
    rw [asciiStrnCmp_digit_self hd]
    by_cases hminor : minor < 10
    · obtain ⟨rfl, rfl⟩ := hsmall hminor
      rcases rest with _ | ⟨patch, more⟩
      · have hlt : asciiStrnCmp ([].flatMap fun m => 46 :: decimal m) [46, digit 1] 2 < 0 := by decide
        simp only [List.headD_nil]
        omega
      · obtain ⟨d, hzero, hle⟩ := asciiStrnCmp_behind patch more (by decide : 1 < 10)
        rw [hle, List.headD_cons]
        omega
    · obtain ⟨c, tail, hc, rfl⟩ := hlarge (by omega)
      have hgt : 0 < asciiStrnCmp (digit c :: tail) [46, digit 1] 2 := asciiStrnCmp_digit_dot hc _ _ _
      omega
  · have hgt : 0 < asciiStrnCmp (digit d :: text) [digit 7, 46, digit 1] 3 := asciiStrnCmp_digit_gt h hd _ _ _
    have hminor : minor ≠ 7 := fun heq => absurd (hsmall (by omega)).1 (by omega)
    omega

/-- The components behind the first against those of `11.0.0`. -/
theorem dotted_after_00 (minor : Nat) (rest : List Nat) :
    0 ≤ asciiStrnCmp (dotted (minor :: rest)) [digit 0, 46, digit 0] 3 ↔ ¬(minor = 0 ∧ rest = []) := by
  obtain ⟨d, text, hd, htext, -, hzero, hsmall, -⟩ := dotted_shape minor rest
  rw [htext]
  by_cases hminor : minor = 0
  · obtain ⟨rfl, rfl⟩ := hsmall (by omega)
    subst hminor
    rw [asciiStrnCmp_digit_self hd]
    rcases rest with _ | ⟨patch, more⟩
    · exact iff_of_false (by decide) (not_not.2 ⟨rfl, rfl⟩)
    · obtain ⟨d, -, hle⟩ := asciiStrnCmp_behind patch more (by decide : 0 < 10)
      rw [hle]
      exact iff_of_true (Nat.zero_le d) fun h => List.cons_ne_nil _ _ h.2
  · have hgt : 0 < asciiStrnCmp (digit d :: text) [digit 0, 46, digit 0] 3 :=
      asciiStrnCmp_digit_gt (by omega) hd _ _ _
    omega

/-- A version against a listed one of two digits, where `lead` is what it begins with. -/
theorem Version.at_least_leading {v : Version} {lead b : Nat} (hb : b < 10)
    (hlead : ∀ n, 10 ≤ n → n < 100 → (decimal n <+: decimal v.major ↔ lead = n)) (hone : v.major < 10 → lead = 0)
    (htwo : 10 ≤ v.major → 10 ≤ lead ∧ lead < 100 ∧ (v.major < 100 → lead = v.major)) (ds : Bytes) (length : Nat) :
    0 ≤ asciiStrnCmp v.text (digit 1 :: digit b :: 46 :: ds) (length + 3) ↔
      2 ≤ v.major ∧ v.major < 10 ∨ 10 + b < lead ∨ 100 ≤ v.major ∧ lead = 10 + b ∨
        v.major = 10 + b ∧ 0 ≤ asciiStrnCmp (dotted (v.minor :: v.rest)) ds length := by
  rw [v.text_eq]
  generalize dotted (v.minor :: v.rest) = behind
  by_cases hmajor : v.major < 10
  · rw [decimal_digit hmajor, List.singleton_append, hone hmajor]
    rcases Nat.lt_trichotomy v.major 1 with h | h | h
    · exact iff_of_false (not_le.2 (asciiStrnCmp_digit_lt h (by decide) _ _ _)) (by omega)
    · rw [h, asciiStrnCmp_digit_self (by decide)]
      exact iff_of_false (not_le.2 (asciiStrnCmp_dot_digit hb _ _ _)) (by omega)
    · exact iff_of_true (asciiStrnCmp_digit_gt h hmajor _ _ _).le (by omega)
  · obtain ⟨a, b', more, ha, ha', hb', htext, hsmall, hlarge⟩ := decimal_leading (Nat.le_of_not_lt hmajor)
    obtain rfl : lead = 10 * a + b' := by
      refine (hlead _ (by omega) (by omega)).1 ?_
      rw [decimal_two ha ha' hb', htext]
      exact ⟨more, rfl⟩
    have hrange := htwo (Nat.le_of_not_lt hmajor)
    rw [htext, List.cons_append, List.cons_append]
    rcases Nat.lt_or_ge 1 a with h | h
    · exact iff_of_true (asciiStrnCmp_digit_gt h ha' _ _ _).le (by omega)
    · obtain rfl : a = 1 := by omega
      rw [asciiStrnCmp_digit_self (by decide)]
      rcases Nat.lt_trichotomy b' b with h | h | h
      · exact iff_of_false (not_le.2 (asciiStrnCmp_digit_lt h hb _ _ _)) (by omega)
      · subst h
        rw [asciiStrnCmp_digit_self hb]
        by_cases htwice : v.major < 100
        · rw [(hsmall htwice).1, List.nil_append, asciiStrnCmp_dot_dot]
          have hmajor' := hrange.2.2 htwice
          omega
        · obtain ⟨c, hc, hhead⟩ := hlarge (by omega)
          obtain ⟨tail, rfl⟩ : ∃ tail, more = digit c :: tail := by
            rcases more with _ | ⟨c', tail⟩
            · exact absurd hhead (Option.some_ne_none _).symm
            · cases hhead
              exact ⟨tail, rfl⟩
          exact iff_of_true (asciiStrnCmp_digit_dot hc _ _ _).le (by omega)
      · exact iff_of_true (asciiStrnCmp_digit_gt h hb' _ _ _).le (by omega)

/-- A version against `10.7.1`, character by character. -/
theorem Version.at_least_1071 (v : Version) :
    0 ≤ asciiStrnCmp v.text (ascii "10.7.1") 6 ↔
      2 ≤ v.major ∧ v.major < 10 ∨ 11 ≤ v.major ∨ v.major = 10 ∧
        (v.minor = 7 ∧ 0 < v.rest.headD 0 ∨ v.minor ≠ 7 ∧ 55 ≤ ((decimal v.minor).headD 0).toNat) := by
  obtain ⟨lead, hlead, hone, htwo⟩ := v.exists_leading
  rw [show ascii "10.7.1" = digit 1 :: digit 0 :: 46 :: [digit 7, 46, digit 1] by decide,
    Version.at_least_leading (by decide) hlead hone htwo _ 3, dotted_after_71]
  omega

/-- A version against `11.0.0`, character by character. -/
theorem Version.at_least_1100 (v : Version) :
    0 ≤ asciiStrnCmp v.text (ascii "11.0.0") 6 ↔
      2 ≤ v.major ∧ v.major < 10 ∨ 12 ≤ v.major ∧ ¬decimal 10 <+: decimal v.major ∨ v.major = 11 ∧
        ¬(v.minor = 0 ∧ v.rest = []) := by
  obtain ⟨lead, hlead, hone, htwo⟩ := v.exists_leading
  rw [show ascii "11.0.0" = digit 1 :: digit 1 :: 46 :: [digit 0, 46, digit 0] by decide,
    Version.at_least_leading (by decide) hlead hone htwo _ 3, dotted_after_00, hlead 10 le_rfl (by decide)]
  generalize (v.minor = 0 ∧ v.rest = []) = short
  by_cases hshort : short
  · simp only [hshort, not_true_eq_false, and_false, or_false]
    omega
  · simp only [hshort, not_false_eq_true, and_true]
    omega

/-! ### The pattern -/

/-- The versions whose text stands among the texts of 10.7.1 and 11.0.0 as their number does: no single digit above
one, no minor version of 10 with more digits below 70, no 11.0 without a third component, no longer number that
begins with 10. -/
def Version.OrderedAsText (v : Version) : Prop :=
  (v.major < 2 ∨ 10 ≤ v.major) ∧
    (v.major = 10 → v.minor < 10 ∨ 55 ≤ ((decimal v.minor).headD 0).toNat) ∧
    ¬(v.major = 11 ∧ v.minor = 0 ∧ v.rest = []) ∧
    (decimal 10 <+: decimal v.major → v.major = 10)

/-- Two choices among three come to the same. -/
theorem choices_agree {p q r s : Prop} [Decidable p] [Decidable q] [Decidable r] [Decidable s] {α : Type} {a b c : α}
    (hab : a ≠ b) (hac : a ≠ c) (hbc : b ≠ c) :
    (if p then b else if q then c else a) = (if r then a else if s then b else c) ↔
      (r → ¬p ∧ ¬q) ∧ (¬r → s → p) ∧ (¬r → ¬s → ¬p ∧ q) := by
  have hba := hab.symm
  have hca := hac.symm
  have hcb := hbc.symm
  split_ifs <;> simp [*]

/-- `KernelPatchCpuId_64` goes by the number for exactly these versions. -/
theorem cpuIdSteps_iff (v : Version) (cpuIdSing : Nat) :
    cpuIdSteps true cpuIdSing v.text = textText :: v.cpuIdSet cpuIdSing ↔ v.OrderedAsText := by
  obtain ⟨lead, hlead, hone, htwo⟩ := v.exists_leading
  have hminor : v.minor < 10 → ((decimal v.minor).headD 0).toNat = 48 + v.minor := by
    intro h
    rw [decimal_digit h, List.headD_cons, digit_toNat h]
  have hbelow : asciiStrnCmp v.text (ascii "11.0.0") 6 < 0 ↔ ¬0 ≤ asciiStrnCmp v.text (ascii "11.0.0") 6 := not_le.symm
  have hne : [cpuId_1 cpuIdSing] ≠ [cpuId_2 cpuIdSing] := by
    intro h
    exact absurd (PatchStep.searchAndReplace.inj (List.cons.inj h).1).1 (by decide)
  rw [cpuIdSteps, Version.cpuIdSet, if_pos rfl, List.cons.injEq, and_iff_right rfl,
    choices_agree (List.cons_ne_nil _ _).symm (List.cons_ne_nil _ _).symm hne]
  simp only [hbelow, v.at_least_1071, v.at_least_1100, Version.before, Version.OrderedAsText, hlead 10 le_rfl (by decide)]
  by_cases hshort : v.rest = []
  · simp only [hshort, List.headD_nil, and_true]
    omega
  · simp only [hshort, and_false, not_false_eq_true, and_true, true_and]
    omega

/-! ### No version -/

/-- What goes by the version: it is read, or a patch chosen for it. -/
def Action.GoesByVersion : Action → Prop
  | .readNull | .patcherSSE3_5 | .patcherSSE3_6 => True
  | .kernelPatchCpuId_64 steps | .kernelBooterExtensionsPatch steps => steps ≠ []
  | _ => False

/-- Without a version, the only use of it is the test for processors without SSSE3. -/
theorem kernelAndKextsPatcherStart_noVersion {p : Patcher} (hp : p.kernVersion = none) (nullText : Bytes) :
    (∀ action ∈ kernelAndKextsPatcherStart p nullText, ¬action.GoesByVersion) ↔
      ¬(p.kernelData ≠ none ∧ p.patchCPU = true ∧ p.is64BitKernel = true ∧ p.ssse3 = false) := by
  have hkext : ∀ action ∈ kextActions p, ¬action.GoesByVersion := by
    intro action h
    simp only [kextActions, kernelBooterExtensionsPatch, hp] at h
    split_ifs at h <;> simp only [List.mem_cons, List.not_mem_nil, or_false] at h <;> rcases h with rfl | rfl <;>
      simp [Action.GoesByVersion]
  have hdivert : ∀ action ∈ divertActions p.divertLogs, ¬action.GoesByVersion := by
    intro action h
    rw [divertActions] at h
    split_ifs at h <;> simp only [List.mem_cons, List.not_mem_nil, or_false] at h <;> rcases h with rfl | rfl <;>
      simp [Action.GoesByVersion]
  have hsse3 : (∀ action ∈ sse3Actions p nullText, ¬action.GoesByVersion) ↔ p.ssse3 = true := by
    cases hs : p.ssse3 <;> simp [sse3Actions, hs, hp, Action.GoesByVersion]
  have hcpu : (∀ action ∈ (if p.patchCPU then (if p.is64BitKernel then sse3Actions p nullText else cpu32Actions p)
        else []), ¬action.GoesByVersion) ↔ ¬(p.patchCPU = true ∧ p.is64BitKernel = true ∧ p.ssse3 = false) := by
    cases p.patchCPU
    · simp
    · cases p.is64BitKernel
      · simp [cpu32Actions, hp, Action.GoesByVersion]
      · simpa using hsse3
  rw [kernelAndKextsPatcherStart]
  by_cases hdata : p.kernelData = none
  · simp [hdata]
  · simp only [hdata, if_false, List.forall_mem_append, ne_eq, not_false_eq_true, true_and, hcpu, and_iff_left hkext]
    refine ⟨fun h => h.1.1.1.1.1.1, fun h => ⟨⟨⟨⟨⟨⟨h, hdivert⟩, ?_⟩, ?_⟩, ?_⟩, ?_⟩, ?_⟩⟩ <;> intro action haction <;>
      split_ifs at haction <;> simp only [List.mem_cons, List.not_mem_nil, or_false] at haction <;> subst haction <;>
      simp [Action.GoesByVersion, kernelPatchCpuId_64, hp]

/-! ### Dispatch -/

/-- For a version of decimal components, when the set of booter extensions, the pattern of the CPU id and the patcher
without a version go by the number. -/
theorem versionDispatch_iff (v : Version) (cpuIdSing : Nat) (p : Patcher) (nullText : Bytes) :
    (kernelBooterExtensionsPatch true (some v.text) = kldText :: v.listedSet ↔ v.BootersListed) ∧
      (kernelPatchCpuId_64 true cpuIdSing (some v.text) = textText :: v.cpuIdSet cpuIdSing ↔ v.OrderedAsText) ∧
      ((∀ action ∈ kernelAndKextsPatcherStart { p with kernVersion := none } nullText, ¬action.GoesByVersion) ↔
        ¬(p.kernelData ≠ none ∧ p.patchCPU = true ∧ p.is64BitKernel = true ∧ p.ssse3 = false)) :=
  ⟨booterExtensionsSteps_iff v, cpuIdSteps_iff v cpuIdSing, kernelAndKextsPatcherStart_noVersion rfl nullText⟩

/-- Darwin 14.4 gets the set of 14, 9.8 the pattern for 11 and later, and a kernel without a version on a processor
without SSSE3 has its version read. -/
theorem versionDispatch_fails :
    kernelBooterExtensionsPatch true (some (ascii "14.4.0")) ≠ kldText :: (Version.mk 14 4 [0]).listedSet ∧
      (Version.mk 14 4 [0]).text = ascii "14.4.0" ∧
      kernelPatchCpuId_64 true 0 (some (ascii "9.8.0")) ≠ textText :: (Version.mk 9 8 [0]).cpuIdSet 0 ∧
      (Version.mk 9 8 [0]).text = ascii "9.8.0" ∧
      Action.readNull ∈ kernelAndKextsPatcherStart
        { kernelData := some 0x200000, is64BitKernel := true, kernVersion := none, ssse3 := false,
          cpuFamilyPatched := false, prelinkInfoAddr := 0, fakeSMCFound := false, bootArgsFound := false,
          kextsInjected := false, withKexts := false, patchCPU := true, divertLogs := 0, cpuIdSing := 0,
          patchPM := false, patchLAPIC := false, kpKernelPatchesNeeded := false, kpKextPatchesNeeded := false,
          loadExtraKexts := false, checkFakeSMC := false } [] := by
  decide +kernel

end BareBoot.Kernel
