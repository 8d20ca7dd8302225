import BareBoot.NvidiaRom
import Mathlib.Data.Nat.Bitwise

/-! The channels of `patch_nvidia_rom`: every pass keeps an output out of both channels until it is grouped, and puts it
in one of them then. -/

namespace BareBoot.Nvidia

open Kext
open Plist (Bytes ascii)

/-! ### Bits of a byte -/

section Bits

theorem hasBit_eq (c : UInt8) (i : Nat) : hasBit c i = c.toNat.testBit i := by
  rw [hasBit, Nat.one_shiftLeft, Nat.and_two_pow]
  cases h : c.toNat.testBit i with
  | true => simp
  | false => simp

theorem hasBit_zero (i : Nat) : hasBit 0 i = false := by
  rw [hasBit_eq]
  exact Nat.zero_testBit i

/-- A byte has eight bits. -/
theorem hasBit_of_le (c : UInt8) {i : Nat} (h : 8 ≤ i) : hasBit c i = false := by
  rw [hasBit_eq]
  exact Nat.testBit_lt_two_pow (Nat.lt_of_lt_of_le c.toNat_lt (Nat.pow_le_pow_right (by decide) h))

theorem hasBit_addBit (c : UInt8) (k i : Nat) : hasBit (addBit c k) i = (hasBit c i || decide (i < 8 ∧ k = i)) := by
  rw [hasBit_eq, hasBit_eq, addBit, UInt8.toNat_ofNat', Nat.one_shiftLeft, Nat.testBit_mod_two_pow, Nat.testBit_or,
    Nat.testBit_two_pow, Bool.decide_and]
  by_cases hi : i < 8
  · rw [decide_eq_true hi, Bool.true_and, Bool.true_and]
  · have hbit : c.toNat.testBit i = false := by
      rw [← hasBit_eq]
      exact hasBit_of_le c (not_lt.mp hi)
    rw [hbit, decide_eq_false hi]
    rfl

end Bits

/-! ### Grouping one output -/

namespace Groups

variable {s : Groups} {channel : Channel} {i j : Nat}

/-- The output is in one channel, not in both. -/
def ExactlyOne (s : Groups) (j : Nat) : Prop := hasBit s.channel1 j = !hasBit s.channel2 j

/-- What the passes keep: the entries know their places, a grouped one is in one channel, and one that is not is in none. -/
structure Kept (heads : List Nat) (s : Groups) : Prop where
  heads : s.entries.map DcbEntry.heads = heads
  index : ∀ j (entry : DcbEntry), s.entries[j]? = some entry → entry.index = j
  grouped : ∀ j < 8, s.typeAt j = some typeGrouped → s.ExactlyOne j
  free : ∀ j t, s.typeAt j = some t → t ≠ typeGrouped → hasBit s.channel1 j = false ∧ hasBit s.channel2 j = false

theorem group_of_none (h : s.typeAt i = none) : s.group channel i = s := by
  have hnone : s.entries[i]? = none := Option.map_eq_none_iff.mp h
  rw [group, hnone]

theorem group_entries {entry : DcbEntry} (h : s.entries[i]? = some entry) :
    (s.group channel i).entries = s.entries.set i { entry with type := typeGrouped } := by
  rw [group, h]
  cases channel <;> rfl

theorem group_channel1 {entry : DcbEntry} (h : s.entries[i]? = some entry) (j : Nat) :
    hasBit (s.group channel i).channel1 j =
      (hasBit s.channel1 j || decide (channel = .channel1 ∧ j < 8 ∧ entry.index = j)) := by
  rw [group, h]
  cases channel with
  | channel1 =>
      rw [hasBit_addBit]
      simp only [true_and]
  | channel2 => simp only [reduceCtorEq, false_and, decide_false, Bool.or_false]

theorem group_channel2 {entry : DcbEntry} (h : s.entries[i]? = some entry) (j : Nat) :
    hasBit (s.group channel i).channel2 j =
      (hasBit s.channel2 j || decide (channel = .channel2 ∧ j < 8 ∧ entry.index = j)) := by
  rw [group, h]
  cases channel with
  | channel1 => simp only [reduceCtorEq, false_and, decide_false, Bool.or_false]
  | channel2 =>
      rw [hasBit_addBit]
      simp only [true_and]

theorem typeAt_group_self {t : UInt8} (h : s.typeAt i = some t) : (s.group channel i).typeAt i = some typeGrouped := by
  obtain ⟨entry, hentry, -⟩ := Option.map_eq_some_iff.mp h
  have hlt := (List.getElem?_eq_some_iff.mp hentry).1
  rw [typeAt, group_entries hentry, List.getElem?_set_self hlt]
  rfl

theorem typeAt_group_ne (h : j ≠ i) : (s.group channel i).typeAt j = s.typeAt j := by
  cases hentry : s.entries[i]? with
  | none => rw [group, hentry]
  | some entry => rw [typeAt, group_entries hentry, List.getElem?_set_ne (Ne.symm h), typeAt]

theorem set_eq_self {α : Type} {l : List α} {i : Nat} {a : α} (h : l[i]? = some a) : l.set i a = l := by
  obtain ⟨hlt, rfl⟩ := List.getElem?_eq_some_iff.mp h
  exact List.set_getElem_self hlt

/-- An output that is not grouped yet goes to one channel. -/
theorem Kept.group {heads : List Nat} (h : Kept heads s) (hfree : s.typeAt i ≠ some typeGrouped) :
    Kept heads (s.group channel i) := by
  cases hentry : s.entries[i]? with
  | none =>
      rw [Groups.group, hentry]
      exact h
  | some entry =>
      have htype : s.typeAt i = some entry.type := by rw [typeAt, hentry, Option.map_some]
      have hindex := h.index i entry hentry
      have hlt := (List.getElem?_eq_some_iff.mp hentry).1
      have hnone := h.free i entry.type htype fun heq => hfree (heq ▸ htype)
      constructor
      · have hsame : (s.entries.map DcbEntry.heads)[i]? = some entry.heads := by
          rw [List.getElem?_map, hentry, Option.map_some]
        rw [group_entries hentry, List.map_set, ← h.heads]
        exact set_eq_self hsame
      · intro j other hother
        rw [group_entries hentry] at hother
        by_cases hj : j = i
        · subst hj
          rw [List.getElem?_set_self hlt] at hother
          obtain rfl := Option.some_inj.mp hother
          exact hindex
        · rw [List.getElem?_set_ne (Ne.symm hj)] at hother
          exact h.index j other hother
      · intro j hj hgrouped
        rw [ExactlyOne, group_channel1 hentry, group_channel2 hentry, hindex]
        by_cases hji : j = i
        · subst hji
          rw [hnone.1, hnone.2]
          cases channel <;> simp [hj]
        · rw [typeAt_group_ne hji] at hgrouped
          have hone := h.grouped j hj hgrouped
          rw [ExactlyOne] at hone
          have hne : ¬ i = j := fun heq => hji heq.symm
          simp only [hne, and_false, decide_false, Bool.or_false]
          exact hone
      · intro j t ht hne
        have hji : j ≠ i := by
          rintro rfl
          rw [typeAt_group_self htype] at ht
          exact hne (Option.some_inj.mp ht).symm
        rw [typeAt_group_ne hji] at ht
        have hji' : ¬ i = j := fun heq => hji heq.symm
        rw [group_channel1 hentry, group_channel2 hentry, hindex]
        simp only [hji', and_false, decide_false, Bool.or_false]
        exact h.free j t ht hne

/-! ### The passes -/

theorem ne_grouped_of_eq {t : UInt8} (h : s.typeAt i = some t) (ht : t ≠ typeGrouped) : s.typeAt i ≠ some typeGrouped := by
  rw [h]
  exact fun heq => ht (Option.some_inj.mp heq)

theorem Kept.groupLvds {heads : List Nat} (h : Kept heads s) : Kept heads (s.groupLvds i) := by
  rw [Groups.groupLvds]
  split_ifs with htype
  · exact h.group (ne_grouped_of_eq htype (by decide))
  · exact h

theorem Kept.groupRest {heads : List Nat} (h : Kept heads s) : Kept heads (s.groupRest i) := by
  rw [Groups.groupRest]
  split_ifs with htype
  · exact h
  · exact h.group htype

theorem Kept.foldl {heads : List Nat} {pass : Groups → Nat → Groups} (hpass : ∀ s i, Kept heads s → Kept heads (pass s i))
    (outputs : List Nat) (h : Kept heads s) : Kept heads (outputs.foldl pass s) := by
  induction outputs generalizing s with
  | nil => exact h
  | cons i outputs ih => exact ih (hpass s i h)

theorem Kept.groupTmds {heads : List Nat} (left : Nat) (h : Kept heads s) : Kept heads (s.groupTmds channel left i) := by
  induction left generalizing i with
  | zero => exact h
  | succ left ih =>
      rw [Groups.groupTmds]
      by_cases hgrouped : s.typeAt i = some typeGrouped
      · rw [if_pos hgrouped]
        exact ih
      · rw [if_neg hgrouped]
        by_cases htmds : i ≠ 0 ∧ s.typeAt i = some 2
        · rw [if_pos htmds]
          dsimp only
          have hkept : Kept heads (s.group channel i) := h.group hgrouped
          generalize s.group channel i = t at hkept
          have hanalog : Kept heads (if t.typeAt (i - 1) = some 0 then t.group channel (i - 1) else t) := by
            split_ifs with hbefore
            · exact hkept.group (ne_grouped_of_eq hbefore (by decide))
            · exact hkept
          generalize (if t.typeAt (i - 1) = some 0 then t.group channel (i - 1) else t) = u at hanalog
          split_ifs with hbehind
          · exact hanalog.group (ne_grouped_of_eq hbehind (by decide))
          · exact hanalog
        · rw [if_neg htmds]
          exact ih

theorem channel1_group_channel2 (s : Groups) (i : Nat) : (s.group .channel2 i).channel1 = s.channel1 := by
  rw [group]
  cases s.entries[i]? <;> rfl

theorem channel2_group_channel1 (s : Groups) (i : Nat) : (s.group .channel1 i).channel2 = s.channel2 := by
  rw [group]
  cases s.entries[i]? <;> rfl

theorem channel1_groupRest (s : Groups) (i : Nat) : (s.groupRest i).channel1 = s.channel1 := by
  rw [groupRest]
  split_ifs
  · rfl
  · exact channel1_group_channel2 s i

theorem channel2_groupLvds (s : Groups) (i : Nat) : (s.groupLvds i).channel2 = s.channel2 := by
  rw [groupLvds]
  split_ifs
  · exact channel2_group_channel1 s i
  · rfl

theorem foldl_eq_of_step {α : Type} {f : Groups → α} {pass : Groups → Nat → Groups} (hpass : ∀ s i, f (pass s i) = f s)
    (outputs : List Nat) (s : Groups) : f (outputs.foldl pass s) = f s := by
  induction outputs generalizing s with
  | nil => rfl
  | cons i outputs ih => rw [List.foldl_cons, ih, hpass]

/-- A pass that changes the type of the output it is at, over all outputs. -/
theorem foldl_typeAt {pass : Groups → Nat → Groups} {g : UInt8 → UInt8}
    (hself : ∀ s i, (pass s i).typeAt i = (s.typeAt i).map g) (hne : ∀ s i j, j ≠ i → (pass s i).typeAt j = s.typeAt j)
    (n : Nat) (s : Groups) (j : Nat) :
    ((List.range n).foldl pass s).typeAt j = if j < n then (s.typeAt j).map g else s.typeAt j := by
  induction n with
  | zero => rfl
  | succ n ih =>
      rw [List.range_succ, List.foldl_append, List.foldl_cons, List.foldl_nil]
      by_cases hj : j = n
      · subst hj
        rw [if_neg (Nat.lt_irrefl j)] at ih
        rw [if_pos (Nat.lt_succ_self j), hself, ih]
      · have hiff : j < n ↔ j < n + 1 := by omega
        rw [hne _ _ _ hj, ih]
        simp only [hiff]

theorem typeAt_groupRest_self (s : Groups) (i : Nat) : (s.groupRest i).typeAt i = (s.typeAt i).map fun _ => typeGrouped := by
  rw [groupRest]
  split_ifs with hgrouped
  · rw [hgrouped, Option.map_some]
  · cases ht : s.typeAt i with
    | none => rw [group_of_none ht, ht, Option.map_none]
    | some t => rw [typeAt_group_self ht, Option.map_some]

theorem typeAt_groupRest_ne (s : Groups) (i j : Nat) (h : j ≠ i) : (s.groupRest i).typeAt j = s.typeAt j := by
  rw [groupRest]
  split_ifs
  · rfl
  · exact typeAt_group_ne h

theorem typeAt_groupLvds_self (s : Groups) (i : Nat) :
    (s.groupLvds i).typeAt i = (s.typeAt i).map fun t => if t = 3 then typeGrouped else t := by
  rw [groupLvds]
  split_ifs with hlvds
  · rw [typeAt_group_self hlvds, hlvds, Option.map_some, if_pos rfl]
  · cases ht : s.typeAt i with
    | none => rw [Option.map_none]
    | some t => rw [Option.map_some, if_neg fun h => hlvds (by rw [ht, h])]

theorem typeAt_groupLvds_ne (s : Groups) (i j : Nat) (h : j ≠ i) : (s.groupLvds i).typeAt j = s.typeAt j := by
  rw [groupLvds]
  split_ifs
  · exact typeAt_group_ne h
  · rfl

/-- With everything grouped nothing is left over. -/
theorem groupRest_eq (h : ∀ t, s.typeAt i = some t → t = typeGrouped) : s.groupRest i = s := by
  rw [groupRest]
  split_ifs with hgrouped
  · rfl
  · refine group_of_none (Option.eq_none_iff_forall_ne_some.mpr fun t ht => hgrouped ?_)
    rw [ht, h t ht]

theorem groupLvds_eq (h : s.typeAt i ≠ some 3) : s.groupLvds i = s := if_neg h

theorem groupTmds_eq (left : Nat) (h : ∀ j, s.typeAt j ≠ some 2) : s.groupTmds channel left i = s := by
  induction left generalizing i with
  | zero => rfl
  | succ left ih =>
      rw [groupTmds]
      split_ifs with _ htmds
      · exact ih
      · exact absurd htmds.2 (h i)
      · exact ih

theorem foldl_eq_self {pass : Groups → Nat → Groups} (outputs : List Nat) (h : ∀ i, pass s i = s) :
    outputs.foldl pass s = s := by
  induction outputs with
  | nil => rfl
  | cons i outputs ih => rw [List.foldl_cons, h, ih]

end Groups

/-! ### All outputs -/

/-- The outputs as they are listed. -/
structure Listed (entries : List DcbEntry) : Prop where
  index : ∀ j (entry : DcbEntry), entries[j]? = some entry → entry.index = j
  type : ∀ entry ∈ entries, entry.type ≠ typeGrouped

section Outputs

variable {entries : List DcbEntry}

theorem Listed.kept (h : Listed entries) : Groups.Kept (entries.map DcbEntry.heads) ⟨entries, 0, 0⟩ where
  heads := rfl
  index := h.index
  grouped j _ hgrouped := by
    obtain ⟨entry, hentry, htype⟩ := Option.map_eq_some_iff.mp hgrouped
    exact absurd htype (h.type entry (List.mem_of_getElem? hentry))
  free j _ _ _ := ⟨hasBit_zero j, hasBit_zero j⟩

/-- The passes before what is left over is grouped. -/
def groupedPairs (entries : List DcbEntry) : Groups :=
  let s := (List.range entries.length).foldl Groups.groupLvds ⟨entries, 0, 0⟩
  if hasLvds entries then (List.range entries.length).foldl Groups.groupRest s
  else Groups.groupTmds .channel2 entries.length 0 (Groups.groupTmds .channel1 entries.length 0 s)

theorem groupOutputs_eq (entries : List DcbEntry) :
    groupOutputs entries = (List.range entries.length).foldl Groups.groupRest (groupedPairs entries) := rfl

theorem Listed.keptPairs (h : Listed entries) : Groups.Kept (entries.map DcbEntry.heads) (groupedPairs entries) := by
  have hlvds := @Groups.Kept.foldl _ _ Groups.groupLvds (fun _ _ hk => hk.groupLvds) (List.range entries.length) h.kept
  rw [groupedPairs]
  split_ifs
  · exact hlvds.foldl (fun _ _ hk => hk.groupRest) _
  · exact (hlvds.groupTmds _).groupTmds _

theorem Listed.keptOutputs (h : Listed entries) : Groups.Kept (entries.map DcbEntry.heads) (groupOutputs entries) := by
  rw [groupOutputs_eq]
  exact h.keptPairs.foldl (fun _ _ hk => hk.groupRest) _

/-- **One channel for each of the first eight outputs.** -/
theorem Listed.exactlyOne (h : Listed entries) {j : Nat} (hj : j < entries.length) (hsmall : j < 8) :
    (groupOutputs entries).ExactlyOne j := by
  have hlength : (groupedPairs entries).entries.length = entries.length := by
    have hheads := congrArg List.length h.keptPairs.heads
    rw [List.length_map, List.length_map] at hheads
    exact hheads
  have htype : ∃ t, (groupedPairs entries).typeAt j = some t := by
    rw [Groups.typeAt, List.getElem?_eq_getElem (hlength ▸ hj)]
    exact ⟨_, rfl⟩
  obtain ⟨t, ht⟩ := htype
  refine h.keptOutputs.grouped j hsmall ?_
  rw [groupOutputs_eq, Groups.foldl_typeAt Groups.typeAt_groupRest_self Groups.typeAt_groupRest_ne, if_pos hj, ht,
    Option.map_some]

end Outputs

end BareBoot.Nvidia
