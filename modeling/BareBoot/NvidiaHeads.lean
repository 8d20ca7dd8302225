import BareBoot.NvidiaChannels

/-! The heads of `patch_nvidia_rom`: what is written for the outputs that a DCB lists, and when it agrees with their
channels. -/

namespace BareBoot.Nvidia

open Kext
open Plist (Bytes ascii)

/-! ### What is listed -/

section Listing

variable {memory : Memory} {dcb : Dcb} {entries : List DcbEntry}

def connection (memory : Memory) (dcb : Dcb) (i : Nat) : Nat := wordAt memory 4 (dcb.record i)

/-- A record is skipped, or its output is the next one. -/
theorem addOutput_cases (memory : Memory) (dcb : Dcb) (entries : List DcbEntry) (i : Nat) :
    addOutput memory dcb entries i = entries ∨
      connection memory dcb i % 16 ≠ 15 ∧ addOutput memory dcb entries i =
        entries ++ [⟨UInt8.ofNat (connection memory dcb i % 16), entries.length, dcb.record i + 1⟩] := by
  rw [addOutput]
  split_ifs with hend
  · exact Or.inl rfl
  · exact Or.inl rfl
  · exact Or.inl rfl
  · exact Or.inr ⟨hend, rfl⟩

/-- The outputs of the first `n` records. -/
def outputsOf (memory : Memory) (dcb : Dcb) (n : Nat) : List DcbEntry := (List.range n).foldl (addOutput memory dcb) []

theorem outputsOf_succ (n : Nat) : outputsOf memory dcb (n + 1) = addOutput memory dcb (outputsOf memory dcb n) n := by
  rw [outputsOf, List.range_succ, List.foldl_append]
  rfl

theorem outputsOf_listed (n : Nat) : Listed (outputsOf memory dcb n) := by
  induction n with
  | zero => exact ⟨fun _ _ h => (nomatch h), fun _ h => (nomatch h)⟩
  | succ n ih =>
      rw [outputsOf_succ]
      rcases addOutput_cases memory dcb (outputsOf memory dcb n) n with hsame | ⟨hend, hnext⟩
      · rw [hsame]
        exact ih
      · rw [hnext]
        constructor
        · intro j entry hentry
          rcases Nat.lt_trichotomy j (outputsOf memory dcb n).length with hlt | rfl | hgt
          · rw [List.getElem?_append_left hlt] at hentry
            exact ih.index j entry hentry
          · rw [List.getElem?_concat_length] at hentry
            obtain rfl := Option.some_inj.mp hentry
            rfl
          · rw [List.getElem?_eq_none (by rw [List.length_append, List.length_singleton]; omega)] at hentry
            cases hentry
        · intro entry hmem
          rcases List.mem_append.mp hmem with hmem | hmem
          · exact ih.type entry hmem
          · obtain rfl := List.mem_singleton.mp hmem
            have hsmall : connection memory dcb n % 16 < 256 := Nat.lt_trans (Nat.mod_lt _ (by decide)) (by decide)
            intro heq
            have hnat := congrArg UInt8.toNat heq
            rw [UInt8.toNat_ofNat', Nat.mod_eq_of_lt hsmall, show typeGrouped.toNat = 255 from rfl] at hnat
            omega

/-- With records of some length the heads are at different places. -/
theorem outputsOf_heads (hrecord : 0 < dcb.recordlength) (n : Nat) :
    ((outputsOf memory dcb n).map DcbEntry.heads).Pairwise (· < ·) ∧
      ∀ entry ∈ outputsOf memory dcb n, entry.heads < dcb.record n + 1 := by
  induction n with
  | zero => exact ⟨.nil, fun entry h => nomatch h⟩
  | succ n ih =>
      have hstep : dcb.record n < dcb.record (n + 1) := by
        rw [Dcb.record, Dcb.record, Nat.mul_succ]
        omega
      rw [outputsOf_succ]
      rcases addOutput_cases memory dcb (outputsOf memory dcb n) n with hsame | ⟨-, hnext⟩
      · rw [hsame]
        exact ⟨ih.1, fun entry hmem => Nat.lt_trans (ih.2 entry hmem) (Nat.succ_lt_succ hstep)⟩
      · rw [hnext, List.map_append, List.pairwise_append]
        refine ⟨⟨ih.1, List.pairwise_singleton _ _, fun a ha b hb => ?_⟩, fun entry hmem => ?_⟩
        · obtain ⟨entry, hmem, rfl⟩ := List.mem_map.mp ha
          obtain rfl := List.mem_singleton.mp hb
          exact ih.2 entry hmem
        · rcases List.mem_append.mp hmem with hmem | hmem
          · exact Nat.lt_trans (ih.2 entry hmem) (Nat.succ_lt_succ hstep)
          · obtain rfl := List.mem_singleton.mp hmem
            exact Nat.succ_lt_succ hstep

/-- Records without a length are one record. -/
theorem outputsOf_single (hrecord : dcb.recordlength = 0) (n : Nat) : ∀ entry ∈ outputsOf memory dcb n,
    entry.heads = dcb.record 0 + 1 ∧ entry.type = UInt8.ofNat (connection memory dcb 0 % 16) := by
  have hsame : ∀ i, dcb.record i = dcb.record 0 := by
    intro i
    rw [Dcb.record, Dcb.record, hrecord, Nat.zero_mul, Nat.zero_mul]
  induction n with
  | zero => exact fun entry h => nomatch h
  | succ n ih =>
      rw [outputsOf_succ]
      rcases addOutput_cases memory dcb (outputsOf memory dcb n) n with hskip | ⟨-, hnext⟩
      · rw [hskip]
        exact ih
      · rw [hnext]
        intro entry hmem
        rcases List.mem_append.mp hmem with hmem | hmem
        · exact ih entry hmem
        · obtain rfl := List.mem_singleton.mp hmem
          rw [connection, connection, hsame n]
          exact ⟨rfl, rfl⟩

end Listing

/-! ### What is written -/

section Heads

variable {channel1 channel2 : UInt8}

/-- The heads of output `i`. -/
def headsOf (channel1 channel2 : UInt8) (i : Nat) : Option UInt8 :=
  if hasBit channel1 i then some 1 else if hasBit channel2 i then some 2 else none

theorem patchHeads_cons (i : Nat) (entry : DcbEntry) (entries : List DcbEntry) (memory : Memory) :
    patchHeads channel1 channel2 i (entry :: entries) memory = patchHeads channel1 channel2 (i + 1) entries
      (match headsOf channel1 channel2 i with
      | some v => store memory entry.heads [v]
      | none => memory) := by
  rw [patchHeads, headsOf]
  split_ifs <;> rfl

theorem store_byte (memory : Memory) (a : Nat) (v : UInt8) (x : Nat) :
    store memory a [v] x = if x = a then v else memory x := by
  rw [store, List.length_singleton]
  by_cases h : x = a
  · rw [if_pos (by omega), if_pos h, h, Nat.sub_self]
    rfl
  · rw [if_neg (by omega), if_neg h]

/-- A byte that already has the heads of everyone who writes it. -/
theorem patchHeads_keeps {a : Nat} {v : UInt8} (entries : List DcbEntry) (i : Nat) (memory : Memory)
    (h : ∀ k (entry : DcbEntry), entries[k]? = some entry → entry.heads = a → headsOf channel1 channel2 (i + k) = some v)
    (hmemory : memory a = v) : patchHeads channel1 channel2 i entries memory a = v := by
  induction entries generalizing i memory with
  | nil => exact hmemory
  | cons entry entries ih =>
      rw [patchHeads_cons]
      refine ih (i + 1) _ (fun k other hk ha => ?_) ?_
      · rw [Nat.add_right_comm]
        exact h (k + 1) other hk ha
      · by_cases ha : entry.heads = a
        · rw [← Nat.add_zero i, h 0 entry rfl ha]
          dsimp only
          rw [store_byte, if_pos ha.symm]
        · cases headsOf channel1 channel2 i with
          | none => exact hmemory
          | some w =>
              dsimp only
              rw [store_byte, if_neg fun heq => ha heq.symm]
              exact hmemory

/-- The heads of an output, unless a later one with other heads shares the place. -/
theorem patchHeads_at {v : UInt8} (entries : List DcbEntry) (i j : Nat) (memory : Memory) {entry : DcbEntry}
    (hentry : entries[j]? = some entry) (hv : headsOf channel1 channel2 (i + j) = some v)
    (h : ∀ k > j, ∀ other : DcbEntry, entries[k]? = some other → other.heads = entry.heads →
      headsOf channel1 channel2 (i + k) = some v) :
    patchHeads channel1 channel2 i entries memory entry.heads = v := by
  induction entries generalizing i j memory with
  | nil => cases hentry
  | cons first entries ih =>
      rw [patchHeads_cons]
      cases j with
      | zero =>
          obtain rfl := Option.some_inj.mp hentry
          rw [Nat.add_zero] at hv
          rw [hv]
          refine patchHeads_keeps entries (i + 1) _ (fun k other hk ha => ?_) ?_
          · rw [Nat.add_right_comm]
            exact h (k + 1) (Nat.succ_pos k) other hk ha
          · dsimp only
            rw [store_byte, if_pos rfl]
      | succ j =>
          refine ih (i + 1) j _ hentry ?_ fun k hk other hother ha => ?_
          · rw [Nat.add_right_comm]
            exact hv
          · rw [Nat.add_right_comm]
            exact h (k + 1) (Nat.succ_lt_succ hk) other hother ha

end Heads

/-! ### Outputs with one record -/

section OneRecord

open Groups

variable {entries : List DcbEntry} {t : UInt8}

theorem typeAt_start (j : Nat) : (⟨entries, 0, 0⟩ : Groups).typeAt j = (entries[j]?).map DcbEntry.type := rfl

/-- No type but one. -/
theorem typeAt_of_all (hall : ∀ entry ∈ entries, entry.type = t) {j : Nat} {u : UInt8}
    (h : (⟨entries, 0, 0⟩ : Groups).typeAt j = some u) : u = t := by
  obtain ⟨entry, hentry, rfl⟩ := Option.map_eq_some_iff.mp h
  exact hall entry (List.mem_of_getElem? hentry)

theorem hasLvds_eq_false (hall : ∀ entry ∈ entries, entry.type = t) (ht : t ≠ 3) : hasLvds entries = false := by
  rw [hasLvds, List.any_eq_false]
  intro entry hmem
  rw [hall entry hmem, decide_eq_true_iff]
  exact ht

/-- Without LVDS the first pass has nothing to do. -/
theorem foldl_groupLvds_eq (hall : ∀ entry ∈ entries, entry.type = t) (ht : t ≠ 3) :
    (List.range entries.length).foldl groupLvds ⟨entries, 0, 0⟩ = ⟨entries, 0, 0⟩ :=
  foldl_eq_self _ fun _ => groupLvds_eq fun h => ht (typeAt_of_all hall h).symm

/-- LVDS outputs leave the second channel empty. -/
theorem channel2_of_lvds (hall : ∀ entry ∈ entries, entry.type = 3) (hpos : entries ≠ []) :
    (groupOutputs entries).channel2 = 0 := by
  have hlvds : hasLvds entries = true := by
    obtain ⟨entry, hmem⟩ := List.exists_mem_of_ne_nil entries hpos
    rw [hasLvds, List.any_eq_true]
    exact ⟨entry, hmem, decide_eq_true (hall entry hmem)⟩
  have hchannel : ((List.range entries.length).foldl groupLvds ⟨entries, 0, 0⟩).channel2 = 0 :=
    foldl_eq_of_step (f := Groups.channel2) channel2_groupLvds _ _
  have htypes : ∀ j u, ((List.range entries.length).foldl groupLvds ⟨entries, 0, 0⟩).typeAt j = some u → u = typeGrouped := by
    intro j u hu
    rw [foldl_typeAt typeAt_groupLvds_self typeAt_groupLvds_ne] at hu
    split_ifs at hu with hj
    · obtain ⟨v, hv, rfl⟩ := Option.map_eq_some_iff.mp hu
      rw [if_pos (typeAt_of_all hall hv)]
    · rw [typeAt_start, List.getElem?_eq_none (not_lt.mp hj)] at hu
      cases hu
  have hrest : ∀ i, ((List.range entries.length).foldl groupLvds ⟨entries, 0, 0⟩).groupRest i =
      (List.range entries.length).foldl groupLvds ⟨entries, 0, 0⟩ := fun i => groupRest_eq (htypes i)
  rw [groupOutputs_eq, groupedPairs, if_pos hlvds, foldl_eq_self _ hrest, foldl_eq_self _ hrest]
  exact hchannel

/-- Outputs that are neither LVDS nor TMDS leave the first channel empty. -/
theorem channel1_of_others (hall : ∀ entry ∈ entries, entry.type = t) (hlvds : t ≠ 3) (htmds : t ≠ 2) :
    (groupOutputs entries).channel1 = 0 := by
  have hno : ∀ j, (⟨entries, 0, 0⟩ : Groups).typeAt j ≠ some 2 := fun j h => htmds (typeAt_of_all hall h).symm
  rw [groupOutputs_eq, groupedPairs, hasLvds_eq_false hall hlvds, if_neg Bool.false_ne_true, foldl_groupLvds_eq hall hlvds,
    groupTmds_eq _ hno, groupTmds_eq _ hno]
  exact foldl_eq_of_step (f := Groups.channel1) channel1_groupRest _ _

/-- The first channel and the first output are out of reach of the second search for a pair. -/
theorem channel1_groupTmds (left i : Nat) (s : Groups) : (s.groupTmds .channel2 left i).channel1 = s.channel1 := by
  induction left generalizing i s with
  | zero => rfl
  | succ left ih =>
      rw [groupTmds]
      split_ifs
      · exact ih _ s
      · dsimp only
        split_ifs <;> simp only [channel1_group_channel2]
      · exact ih _ s

theorem typeAt_zero_groupTmds {channel : Channel} {s : Groups} (left i : Nat) (h : s.typeAt 0 = some 2) :
    (s.groupTmds channel left i).typeAt 0 = some 2 := by
  induction left generalizing i with
  | zero => exact h
  | succ left ih =>
      rw [groupTmds]
      by_cases hgrouped : s.typeAt i = some typeGrouped
      · rw [if_pos hgrouped]
        exact ih _
      · rw [if_neg hgrouped]
        by_cases htmds : i ≠ 0 ∧ s.typeAt i = some 2
        · rw [if_pos htmds]
          dsimp only
          have hfirst : (s.group channel i).typeAt 0 = some 2 := by rw [typeAt_group_ne (Ne.symm htmds.1), h]
          generalize s.group channel i = u at hfirst
          have hsecond : (if u.typeAt (i - 1) = some 0 then u.group channel (i - 1) else u).typeAt 0 = some 2 := by
            split_ifs with hanalog
            · have hne : (0 : Nat) ≠ i - 1 := by
                intro heq
                rw [← heq, hfirst] at hanalog
                exact absurd hanalog (by decide)
              rw [typeAt_group_ne hne, hfirst]
            · exact hfirst
          generalize (if u.typeAt (i - 1) = some 0 then u.group channel (i - 1) else u) = v at hsecond
          split_ifs
          · rw [typeAt_group_ne (Nat.succ_ne_zero i).symm, hsecond]
          · exact hsecond
        · rw [if_neg htmds]
          exact ih _

/-- Two TMDS outputs in front are in different channels. -/
theorem channel1_of_tmds (h : Listed entries) (hall : ∀ entry ∈ entries, entry.type = 2) (htwo : 2 ≤ entries.length) :
    hasBit (groupOutputs entries).channel1 0 = false ∧ hasBit (groupOutputs entries).channel1 1 = true := by
  have hzero : (⟨entries, 0, 0⟩ : Groups).typeAt 0 = some 2 := by
    rw [typeAt_start, List.getElem?_eq_getElem (by omega), Option.map_some, hall _ (List.getElem_mem _)]
  have hone : (⟨entries, 0, 0⟩ : Groups).typeAt 1 = some 2 := by
    rw [typeAt_start, List.getElem?_eq_getElem (by omega), Option.map_some, hall _ (List.getElem_mem _)]
  have hpair : (⟨entries, 0, 0⟩ : Groups).groupTmds .channel1 entries.length 0 = (⟨entries, 0, 0⟩ : Groups).group .channel1 1 := by
    obtain ⟨m, hm⟩ := Nat.exists_eq_add_of_le' htwo
    have hbefore : ((⟨entries, 0, 0⟩ : Groups).group .channel1 1).typeAt 0 ≠ some 0 := by
      rw [typeAt_group_ne (by decide), hzero]
      decide
    have hbehind : ((⟨entries, 0, 0⟩ : Groups).group .channel1 1).typeAt 2 ≠ some 1 := by
      rw [typeAt_group_ne (by decide)]
      exact fun htv => absurd (typeAt_of_all hall htv) (by decide)
    have hgrouped : (some 2 : Option UInt8) ≠ some typeGrouped := by decide
    rw [hm, groupTmds, hzero, if_neg hgrouped, if_neg fun hz => hz.1 rfl, groupTmds, hone, if_neg hgrouped,
      if_pos ⟨Nat.one_ne_zero, rfl⟩]
    dsimp only
    rw [if_neg hbefore, if_neg hbehind]
  have hkept := h.keptPairs
  have hchannel : (groupOutputs entries).channel1 = (groupedPairs entries).channel1 := by
    rw [groupOutputs_eq]
    exact foldl_eq_of_step (f := Groups.channel1) channel1_groupRest _ _
  have hpairs : groupedPairs entries =
      Groups.groupTmds .channel2 entries.length 0 ((⟨entries, 0, 0⟩ : Groups).group .channel1 1) := by
    rw [groupedPairs, hasLvds_eq_false hall (by decide), if_neg Bool.false_ne_true, foldl_groupLvds_eq hall (by decide), hpair]
  rw [hchannel]
  constructor
  · refine (hkept.free 0 2 ?_ (by decide)).1
    rw [hpairs]
    exact typeAt_zero_groupTmds _ _ (by rw [typeAt_group_ne (by decide), hzero])
  · obtain ⟨entry, hentry, -⟩ := Option.map_eq_some_iff.mp hone
    rw [hpairs, channel1_groupTmds, group_channel1 hentry, h.index 1 entry hentry, decide_eq_true ⟨rfl, by decide, rfl⟩,
      Bool.or_true]

end OneRecord

/-! ### The image -/

/-- Each output is in one channel, and its heads say in which one. -/
structure Assigned (entries : List DcbEntry) (r : Patched) : Prop where
  channel : ∀ j (entry : DcbEntry), entries[j]? = some entry → hasBit r.channel1 j = !hasBit r.channel2 j
  heads : ∀ j (entry : DcbEntry), entries[j]? = some entry → r.memory entry.heads = if hasBit r.channel1 j then 1 else 2

section Image

variable {entries : List DcbEntry} {memory : Memory}

/-- The channels are put in order. -/
theorem patchOutputs_channels (memory : Memory) (entries : List DcbEntry) :
    ((patchOutputs memory entries).channel1 = (groupOutputs entries).channel1 ∧
      (patchOutputs memory entries).channel2 = (groupOutputs entries).channel2) ∨
    (patchOutputs memory entries).channel1 = (groupOutputs entries).channel2 ∧
      (patchOutputs memory entries).channel2 = (groupOutputs entries).channel1 := by
  rw [patchOutputs]
  dsimp only
  split_ifs
  · exact Or.inr ⟨rfl, rfl⟩
  · exact Or.inl ⟨rfl, rfl⟩

theorem Listed.channel (h : Listed entries) {j : Nat} (hj : j < entries.length) (hsmall : j < 8) :
    hasBit (patchOutputs memory entries).channel1 j = !hasBit (patchOutputs memory entries).channel2 j := by
  have hone := h.exactlyOne hj hsmall
  rw [Groups.ExactlyOne] at hone
  rcases patchOutputs_channels memory entries with ⟨h1, h2⟩ | ⟨h1, h2⟩
  · rw [h1, h2, hone]
  · rw [h1, h2, hone, Bool.not_not]

/-- The entries whose heads are written are those listed. -/
theorem Listed.heads_eq (h : Listed entries) {j : Nat} {entry : DcbEntry} (hentry : entries[j]? = some entry) :
    ∃ grouped : DcbEntry, (groupOutputs entries).entries[j]? = some grouped ∧ grouped.heads = entry.heads := by
  have hmap : ((groupOutputs entries).entries.map DcbEntry.heads)[j]? = some entry.heads := by
    rw [h.keptOutputs.heads, List.getElem?_map, hentry, Option.map_some]
  rw [List.getElem?_map] at hmap
  exact Option.map_eq_some_iff.mp hmap

/-- Up to eight outputs are assigned if those that share their heads share their channel. -/
theorem Listed.assigned (h : Listed entries) (hlength : entries.length ≤ 8)
    (hshared : ∀ j k (entry other : DcbEntry), j < k → entries[j]? = some entry → entries[k]? = some other →
      other.heads = entry.heads →
        hasBit (patchOutputs memory entries).channel1 k = hasBit (patchOutputs memory entries).channel1 j) :
    Assigned entries (patchOutputs memory entries) := by
  have hvalue : ∀ k, k < entries.length →
      headsOf (patchOutputs memory entries).channel1 (patchOutputs memory entries).channel2 k =
        some (if hasBit (patchOutputs memory entries).channel1 k then 1 else 2) := by
    intro k hk
    have hone := @Listed.channel entries memory h k hk (by omega)
    rw [headsOf]
    cases hbit : hasBit (patchOutputs memory entries).channel1 k with
    | true => rfl
    | false =>
        rw [hbit] at hone
        have htwo : hasBit (patchOutputs memory entries).channel2 k = true := by
          rw [← Bool.not_not (hasBit (patchOutputs memory entries).channel2 k), ← hone]
          rfl
        rw [htwo]
        rfl
  constructor
  · intro j entry hentry
    have hj := (List.getElem?_eq_some_iff.mp hentry).1
    exact h.channel hj (by omega)
  · intro j entry hentry
    have hj := (List.getElem?_eq_some_iff.mp hentry).1
    obtain ⟨grouped, hgrouped, hheads⟩ := h.heads_eq hentry
    rw [← hheads]
    refine patchHeads_at _ 0 j memory hgrouped (by rw [Nat.zero_add]; exact hvalue j hj) fun k hk other hother hsame => ?_
    have hlt : k < entries.length := by
      have hk' := (List.getElem?_eq_some_iff.mp hother).1
      have hmap := congrArg List.length h.keptOutputs.heads
      rw [List.length_map, List.length_map] at hmap
      omega
    obtain ⟨other', hother', hheads'⟩ := h.heads_eq (List.getElem?_eq_getElem hlt)
    obtain rfl := Option.some_inj.mp (hother.symm.trans hother')
    have hbit := hshared j k entry _ hk hentry (List.getElem?_eq_getElem hlt) (by rw [← hheads', hsame, hheads])
    rw [Nat.zero_add, ← hbit]
    exact hvalue k hlt

/-- The ninth output is in no channel. -/
theorem Assigned.length_le (h : Assigned entries (patchOutputs memory entries)) : entries.length ≤ 8 := by
  by_contra hlength
  have hone := h.channel 8 _ (List.getElem?_eq_getElem (by omega))
  rw [hasBit_of_le _ le_rfl, hasBit_of_le _ le_rfl] at hone
  cases hone

/-- With one empty channel all outputs are in the other. -/
theorem Listed.shared (h : Listed entries) (hlength : entries.length ≤ 8)
    (hempty : (groupOutputs entries).channel1 = 0 ∨ (groupOutputs entries).channel2 = 0) {j k : Nat}
    (hj : j < entries.length) (hk : k < entries.length) :
    hasBit (patchOutputs memory entries).channel1 k = hasBit (patchOutputs memory entries).channel1 j := by
  have hone1 := h.exactlyOne hj (by omega)
  have hone2 := h.exactlyOne hk (by omega)
  rw [Groups.ExactlyOne] at hone1 hone2
  have hboth : hasBit (groupOutputs entries).channel1 k = hasBit (groupOutputs entries).channel1 j ∧
      hasBit (groupOutputs entries).channel2 k = hasBit (groupOutputs entries).channel2 j := by
    rcases hempty with hzero | hzero
    · rw [hzero, hasBit_zero] at hone1 hone2 ⊢
      rw [hasBit_zero]
      exact ⟨rfl, by simpa using hone2.symm.trans hone1⟩
    · rw [hone1, hone2, hzero, hasBit_zero, hasBit_zero]
      exact ⟨rfl, rfl⟩
  rcases patchOutputs_channels memory entries with ⟨h1, -⟩ | ⟨h1, -⟩
  · rw [h1, hboth.1]
  · rw [h1, hboth.2]

/-- Two TMDS outputs with the same heads are in different channels. -/
theorem not_assigned_of_tmds (h : Listed entries) {a : Nat} (hheads : ∀ entry ∈ entries, entry.heads = a)
    (hall : ∀ entry ∈ entries, entry.type = 2) (htwo : 2 ≤ entries.length) :
    ¬ Assigned entries (patchOutputs memory entries) := by
  intro hassigned
  have hget0 := List.getElem?_eq_getElem (show 0 < entries.length by omega)
  have hget1 := List.getElem?_eq_getElem (show 1 < entries.length by omega)
  obtain ⟨hfalse, htrue⟩ := channel1_of_tmds h hall htwo
  have hheads0 := hassigned.heads 0 _ hget0
  have hheads1 := hassigned.heads 1 _ hget1
  rw [hheads _ (List.getElem_mem _)] at hheads0 hheads1
  have hdiffer : hasBit (patchOutputs memory entries).channel1 0 ≠ hasBit (patchOutputs memory entries).channel1 1 := by
    rcases patchOutputs_channels memory entries with ⟨h1, -⟩ | ⟨-, h2⟩
    · rw [h1, hfalse, htrue]
      decide
    · rw [hassigned.channel 0 _ hget0, hassigned.channel 1 _ hget1, h2, hfalse, htrue]
      decide
  have hsame := hheads0.symm.trans hheads1
  cases hbit0 : hasBit (patchOutputs memory entries).channel1 0 <;>
    cases hbit1 : hasBit (patchOutputs memory entries).channel1 1 <;>
    rw [hbit0, hbit1] at hsame hdiffer
  · exact hdiffer rfl
  · exact absurd hsame (by decide)
  · exact absurd hsame (by decide)
  · exact hdiffer rfl

/-- **The channels and heads of a video BIOS.** The routine succeeds for every DCB, and assigns each output to one
channel with its heads exactly if there are not more than eight outputs, and not two TMDS outputs of one record. -/
theorem patchNvidiaRom_iff (memory : Memory) (rom : Option Nat) :
    (findDcb memory rom = none ∧ patchNvidiaRom memory rom = none) ∨
      ∃ dcb r, findDcb memory rom = some dcb ∧ patchNvidiaRom memory rom = some r ∧
        (Assigned (listOutputs memory dcb) r ↔ (listOutputs memory dcb).length ≤ 8 ∧
          ¬ (dcb.recordlength = 0 ∧ connection memory dcb 0 % 16 = 2 ∧ 2 ≤ (listOutputs memory dcb).length)) := by
  rw [patchNvidiaRom]
  cases findDcb memory rom with
  | none => exact Or.inl ⟨rfl, rfl⟩
  | some dcb =>
      refine Or.inr ⟨dcb, _, rfl, rfl, ?_⟩
      have hlisted : Listed (listOutputs memory dcb) := outputsOf_listed _
      have hsingle := fun hrecord => @outputsOf_single memory dcb hrecord
        (min dcb.numentries maxNumDcbEntries)
      constructor
      · intro hassigned
        refine ⟨hassigned.length_le, ?_⟩
        rintro ⟨hrecord, htmds, htwo⟩
        exact not_assigned_of_tmds hlisted (fun entry hmem => (hsingle hrecord entry hmem).1)
          (fun entry hmem => (hsingle hrecord entry hmem).2.trans (by rw [htmds]; rfl)) htwo hassigned
      · rintro ⟨hlength, hno⟩
        refine hlisted.assigned hlength fun j k entry other hjk hentry hother hsame => ?_
        have hj := (List.getElem?_eq_some_iff.mp hentry).1
        have hk := (List.getElem?_eq_some_iff.mp hother).1
        rcases Nat.eq_zero_or_pos dcb.recordlength with hrecord | hrecord
        · have hall := fun entry hmem => (hsingle hrecord entry hmem).2
          have htmds : UInt8.ofNat (connection memory dcb 0 % 16) ≠ 2 := by
            intro heq
            have hnat := congrArg UInt8.toNat heq
            rw [UInt8.toNat_ofNat', Nat.mod_eq_of_lt (by omega), show (2 : UInt8).toNat = 2 from rfl] at hnat
            exact hno ⟨hrecord, hnat, by omega⟩
          refine hlisted.shared hlength ?_ hj hk
          by_cases hlvds : UInt8.ofNat (connection memory dcb 0 % 16) = 3
          · refine Or.inr (channel2_of_lvds (fun entry hmem => (hall entry hmem).trans hlvds) ?_)
            exact List.ne_nil_of_length_pos (by omega)
          · exact Or.inl (channel1_of_others hall hlvds htmds)
        · have hpairwise := List.pairwise_iff_getElem.mp (@outputsOf_heads memory _ hrecord
            (min dcb.numentries maxNumDcbEntries)).1 j k (by rw [List.length_map]; exact hj) (by rw [List.length_map]; exact hk) hjk
          rw [List.getElem_map, List.getElem_map] at hpairwise
          obtain ⟨_, hentryAt⟩ := List.getElem?_eq_some_iff.mp hentry
          obtain ⟨_, hotherAt⟩ := List.getElem?_eq_some_iff.mp hother
          have hlt : entry.heads < other.heads := by
            rw [← hentryAt, ← hotherAt]
            exact hpairwise
          exact absurd hsame hlt.ne'

end Image

/-- A DCB of version 3.0 with nine TMDS outputs. -/
def nineOutputs : Bytes :=
  [0x55, 0xAA] ++ List.replicate 52 0 ++ [0x40, 0] ++ List.replicate 8 0 ++
    [0x30, 10, 9, 4, 0, 0, 0xCB, 0xBD, 0xDC, 0x4E] ++ (List.replicate 9 [2, 0, 0, 0]).flatten

theorem nineOutputs_unassigned : ∃ dcb r, findDcb (fun a => nineOutputs.getD a 0) (some 0) = some dcb ∧
    patchNvidiaRom (fun a => nineOutputs.getD a 0) (some 0) = some r ∧
    ¬ Assigned (listOutputs (fun a => nineOutputs.getD a 0) dcb) r := by
  have hdcb : findDcb (fun a => nineOutputs.getD a 0) (some 0) = some ⟨0x40, 10, 9, 4⟩ := by decide +kernel
  have hlength : (listOutputs (fun a => nineOutputs.getD a 0) ⟨0x40, 10, 9, 4⟩).length = 9 := by decide +kernel
  refine ⟨_, _, hdcb, by rw [patchNvidiaRom, hdcb, Option.map_some], fun hassigned => ?_⟩
  have hle := hassigned.length_le
  omega

end BareBoot.Nvidia
