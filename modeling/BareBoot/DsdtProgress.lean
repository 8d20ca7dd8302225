import BareBoot.Compaction
import BareBoot.DsdtGrowth
import BareBoot.Replacement

/-! How far `FixAny` has come in replacing a byte string: what it has written, and the bytes of the table before
the call that it has still to search. -/

namespace BareBoot.Acpi

open Replacement

/-- A byte string with an `UINT32` length. -/
abbrev DataBytes := {bytes : List UInt8 // bytes.length < 2 ^ 32}

def DataBytes.byte (bytes : DataBytes) : Nat → UInt8 := fun i => bytes.1.getD i 0

def Patch.ofBytes (find replace : DataBytes) : Patch :=
  ⟨some find.byte, find.1.length, some replace.byte, replace.1.length, find.2, replace.2⟩

@[simp] theorem Patch.lenToFind_ofBytes (find replace : DataBytes) :
    (Patch.ofBytes find replace).lenToFind = find.1.length := rfl

@[simp] theorem Patch.lenToReplace_ofBytes (find replace : DataBytes) :
    (Patch.ofBytes find replace).lenToReplace = replace.1.length := rfl

/-- The bytes from the last match on after `k` replacements. Each moves those behind the match and leaves
those behind the new end of the table. -/
def Patch.left (patch : Patch) (byte : Nat → UInt8) (len : Nat) : Nat → Nat → UInt8
  | 0, a => byte a
  | k + 1, a =>
      if a < patch.lenAfter len (k + 1) then left patch byte len k (a + patch.lenToFind - patch.lenToReplace)
      else left patch byte len k a

section Ends

variable (find replace : DataBytes) (len : Nat)

/-- Behind `k` matches the search from `p` finds nothing, or what it finds past the end of the table is replaced
by bytes that stand there. -/
def EndsAt (byte : Nat → UInt8) (k p : Nat) : Prop :=
  let patch := Patch.ofBytes find replace
  len ≤ p ∨
    ∃ adr ∈ findBin (patch.left byte len k) (patch.lenAfter p k) (patch.lenAfter len k) find.byte find.1.length,
      adr < 0 ∨ replace.1.length = find.1.length ∧
        ∀ i < find.1.length, (p : Int) + adr + i < len → replace.byte i = find.byte i

end Ends

/-! ### Matches as prefixes -/

section Prefixes

variable {byte : Nat → UInt8} {a n : Nat}

theorem segment_bytes (bytes : DataBytes) : segment bytes.byte 0 bytes.1.length = bytes.1 := by
  apply List.ext_getElem (length_segment _ _ _)
  intro i hi hi'
  simp [segment, DataBytes.byte, hi']

theorem matchesAt_iff {find : Nat → UInt8} : matchesAt byte a find n = true ↔ segment byte a n = segment find 0 n := by
  rw [segment_eq_iff, matchesAt, List.all_eq_true]
  apply forall_congr'
  intro i
  rw [List.mem_range, beq_iff_eq, Nat.zero_add]

/-- A match inside the text is a prefix of what stands there. -/
theorem prefix_segment_iff {find : DataBytes} :
    find.1 <+: segment byte a n ↔ find.1.length ≤ n ∧ matchesAt byte a find.byte find.1.length = true := by
  rw [matchesAt_iff, segment_bytes, List.prefix_iff_eq_take]
  constructor
  · intro h
    have hlen : find.1.length ≤ n := by
      have := congrArg List.length h
      rw [List.length_take, length_segment] at this
      omega
    rw [take_segment _ _ hlen] at h
    exact ⟨hlen, h.symm⟩
  · rintro ⟨hlen, h⟩
    rw [take_segment _ _ hlen, h]

end Prefixes

/-! ### The matches of the table -/

section Scan

variable {find replace : DataBytes} {byte : Nat → UInt8} {len p q : Nat}

/-- What is meant to become of the bytes from `p` on. -/
abbrev replacedFrom (find replace : DataBytes) (byte : Nat → UInt8) (len p : Nat) : List UInt8 :=
  replaceFrom find.1 replace.1 0 (segment byte p (len - p))

abbrev takenAt (find : DataBytes) (byte : Nat → UInt8) (len p : Nat) : List Nat :=
  takenFrom find.1 0 p (segment byte p (len - p))

theorem prefix_drop_iff {j : Nat} (hpos : 0 < find.1.length) :
    find.1 <+: (segment byte p (len - p)).drop j ↔
      p + j + find.1.length ≤ len ∧ matchesAt byte (p + j) find.byte find.1.length = true := by
  rw [drop_segment, prefix_segment_iff]
  exact and_congr_left fun _ => by omega

theorem prefix_hit (hpos : 0 < find.1.length) (h : nextHit byte find.byte find.1.length len p = some q) :
    (∀ j < q - p, ¬ find.1 <+: (segment byte p (len - p)).drop j) ∧
      find.1 <+: (segment byte p (len - p)).drop (q - p) := by
  obtain ⟨hp, hq, hmatch, hbefore⟩ := nextHit_some h
  constructor
  · intro j hj
    rw [prefix_drop_iff hpos, hbefore j (by omega)]
    exact fun hfound => Bool.false_ne_true hfound.2
  · rw [prefix_drop_iff hpos, Nat.add_sub_cancel' hp]
    exact ⟨hq, hmatch⟩

theorem drop_hit (hp : p ≤ q) (n : Nat) :
    ((segment byte p (len - p)).drop (q - p)).drop n = segment byte (q + n) (len - (q + n)) := by
  rw [drop_segment, drop_segment, Nat.add_sub_cancel' hp, show len - p - (q - p) - n = len - (q + n) by omega]

theorem replacedFrom_hit (hpos : 0 < find.1.length) (h : nextHit byte find.byte find.1.length len p = some q) :
    replacedFrom find replace byte len p =
      segment byte p (q - p) ++ (replace.1 ++ replacedFrom find replace byte len (q + find.1.length)) := by
  obtain ⟨hp, hq, -, -⟩ := nextHit_some h
  obtain ⟨hbefore, hmatch⟩ := prefix_hit hpos h
  rw [replacedFrom, replaceFrom_before hbefore, replaceFrom_match hpos hmatch, take_segment _ _ (by omega), drop_hit hp]

theorem takenAt_hit (hpos : 0 < find.1.length) (h : nextHit byte find.byte find.1.length len p = some q) :
    takenAt find byte len p = q :: takenAt find byte len (q + find.1.length) := by
  obtain ⟨hp, hq, -, -⟩ := nextHit_some h
  obtain ⟨hbefore, hmatch⟩ := prefix_hit hpos h
  rw [takenAt, takenFrom_before hbefore, takenFrom_match hpos hmatch, drop_hit hp, Nat.add_sub_cancel' hp]

theorem not_prefix_none (hpos : 0 < find.1.length) (h : nextHit byte find.byte find.1.length len p = none) :
    ∀ j < (segment byte p (len - p)).length, ¬ find.1 <+: (segment byte p (len - p)).drop j := by
  intro j _ hfound
  rw [prefix_drop_iff hpos] at hfound
  rw [nextHit_none h (Nat.le_add_right p j) hfound.1] at hfound
  exact Bool.false_ne_true hfound.2

theorem replacedFrom_none (hpos : 0 < find.1.length) (h : nextHit byte find.byte find.1.length len p = none) :
    replacedFrom find replace byte len p = segment byte p (len - p) :=
  replaceFrom_none (not_prefix_none hpos h)

theorem takenAt_none (hpos : 0 < find.1.length) (h : nextHit byte find.byte find.1.length len p = none) :
    takenAt find byte len p = [] :=
  takenFrom_none (not_prefix_none hpos h)

theorem not_prefix_pass (hpos : 0 < find.1.length)
    (h : ¬ (p + find.1.length ≤ len ∧ matchesAt byte p find.byte find.1.length = true)) :
    ∀ j < 1, ¬ find.1 <+: (segment byte p (len - p)).drop j := by
  intro j hj
  rwa [Nat.lt_one_iff.mp hj, prefix_drop_iff hpos, Nat.add_zero]

/-- A byte where no match starts. -/
theorem replacedFrom_pass (hpos : 0 < find.1.length)
    (h : ¬ (p + find.1.length ≤ len ∧ matchesAt byte p find.byte find.1.length = true)) :
    replacedFrom find replace byte len p =
      segment byte p (min 1 (len - p)) ++ replacedFrom find replace byte len (p + 1) := by
  rw [replacedFrom, replaceFrom_before (not_prefix_pass hpos h), drop_segment, show len - p - 1 = len - (p + 1) by omega]
  congr 1
  rcases Nat.eq_zero_or_pos (len - p) with hzero | hlen
  · rw [hzero]
    rfl
  · rw [take_segment _ _ hlen, Nat.min_eq_left hlen]

theorem takenAt_pass (hpos : 0 < find.1.length)
    (h : ¬ (p + find.1.length ≤ len ∧ matchesAt byte p find.byte find.1.length = true)) :
    takenAt find byte len p = takenAt find byte len (p + 1) := by
  rw [takenAt, takenFrom_before (not_prefix_pass hpos h), drop_segment, show len - p - 1 = len - (p + 1) by omega]

/-- A match at the first byte is the one taken. -/
theorem takenAt_here (hpos : 0 < find.1.length) (hin : p + find.1.length ≤ len)
    (hmatch : matchesAt byte p find.byte find.1.length = true) :
    takenAt find byte len p = p :: takenAt find byte len (p + find.1.length) := by
  have hpre : find.1 <+: segment byte p (len - p) := prefix_segment_iff.mpr ⟨by omega, hmatch⟩
  rw [takenAt, takenFrom_match hpos hpre, drop_segment, show len - p - find.1.length = len - (p + find.1.length) by omega]

end Scan

/-! ### What the loop has done -/

section Progress

variable {patch : Patch} {b : Block} {bytes : Nat → UInt8} {len k p q : Nat} {front : List UInt8} {dsdt : Block}

/-- The loop has written `front` and has the bytes from `p` of the table `b` on before it. -/
structure Progress (patch : Patch) (b : Block) (len k p : Nat) (front : List UInt8) (dsdt : Block) : Prop
    extends Reached patch b len k p dsdt where
  written : segment dsdt.byte 0 front.length = front
  reach : front.length = patch.lenAfter (min p len) k
  rest : ∀ a, patch.lenAfter p k ≤ a → dsdt.byte a = patch.left b.byte len k a

theorem byte_put_inside {a i : Nat} (hbytes : patch.replace = some bytes) (hi : i < patch.lenToReplace) :
    (patch.put a dsdt).byte (a + i) = bytes i := by
  simp only [Patch.put, hbytes]
  rw [if_pos (by omega)]
  exact Block.byte_write_inside hi

/-- The block after one more replacement. -/
def Patch.replacedAt (patch : Patch) (len k q : Nat) (dsdt : Block) : Block :=
  patch.put (patch.lenAfter q k) (moveData (patch.lenAfter q k) dsdt (patch.lenAfter len k) patch.sizeOffset).1

/-- What one more replacement adds to the bytes written: those before the match, the replacement and the one
passed over. -/
def Patch.writes (patch : Patch) (byte bytes : Nat → UInt8) (len p q : Nat) : List UInt8 :=
  segment byte p (q - p) ++ (segment bytes 0 patch.lenToReplace ++
    segment byte (q + patch.lenToFind) (min 1 (len - (q + patch.lenToFind))))

theorem Progress.next (h : Progress patch b len k p front dsdt) (hbytes : patch.replace = some bytes) (hp : p ≤ q)
    (hq : q + patch.lenToFind ≤ len) (hnow : patch.lenAfter len k < 2 ^ 31)
    (hnext : patch.lenAfter len (k + 1) < 2 ^ 31) :
    Progress patch b len (k + 1) (q + patch.lenToFind + 1) (front ++ patch.writes b.byte bytes len p q)
      (patch.replacedAt len k q dsdt) := by
  have hreached := (h.toReached.replace hp hq hnow hnext).2
  have hused := h.used
  have hreach := h.reach
  rw [Nat.min_eq_left (by omega)] at hreach
  have hat : ∀ j, patch.lenAfter (p + j) k = patch.lenAfter p k + j := fun j => lenAfter_add (by omega) j
  have hatq : patch.lenAfter q k = patch.lenAfter p k + (q - p) := by rw [← hat, Nat.add_sub_cancel' hp]
  have hpast : ∀ j, patch.lenAfter (q + patch.lenToFind + j) (k + 1) = patch.lenAfter q k + patch.lenToReplace + j := by
    intro j
    unfold Patch.lenAfter
    rw [Nat.succ_mul, Nat.succ_mul]
    omega
  have hend : patch.lenAfter len (k + 1) = patch.lenAfter len k + patch.lenToReplace - patch.lenToFind :=
    lenAfter_succ (by omega)
  have hqlen : patch.lenAfter q k + patch.lenToFind ≤ patch.lenAfter len k := by
    unfold Patch.lenAfter
    omega
  have hoffset : patch.sizeOffset = (patch.lenToReplace : Int) - patch.lenToFind :=
    sizeOffset_eq (by omega) (by omega)
  have hlength : (patch.writes b.byte bytes len p q).length =
      (q - p) + (patch.lenToReplace + min 1 (len - (q + patch.lenToFind))) := by
    unfold Patch.writes
    rw [List.length_append, List.length_append, length_segment, length_segment, length_segment]
  refine ⟨hreached, ?_, ?_, ?_⟩
  · rw [List.length_append, hlength, segment_add, segment_add, segment_add, Nat.zero_add, hreach]
    have hfront : segment (patch.replacedAt len k q dsdt).byte 0 (patch.lenAfter p k) = front := by
      rw [← h.written, hreach]
      exact segment_eq_iff.mpr fun i hi => byte_replace_front (by omega)
    have hbefore : segment (patch.replacedAt len k q dsdt).byte (patch.lenAfter p k) (q - p) =
        segment b.byte p (q - p) := by
      apply segment_eq_iff.mpr
      intro i hi
      rw [← hat, ← h.text (p + i) (by omega) (by omega), hat]
      exact byte_replace_front (by omega)
    have hput : segment (patch.replacedAt len k q dsdt).byte (patch.lenAfter p k + (q - p)) patch.lenToReplace =
        segment bytes 0 patch.lenToReplace := by
      apply segment_eq_iff.mpr
      intro i hi
      rw [← hatq, Nat.zero_add]
      exact byte_put_inside hbytes hi
    have hpassed : segment (patch.replacedAt len k q dsdt).byte (patch.lenAfter p k + (q - p) + patch.lenToReplace)
        (min 1 (len - (q + patch.lenToFind))) =
          segment b.byte (q + patch.lenToFind) (min 1 (len - (q + patch.lenToFind))) := by
      apply segment_eq_iff.mpr
      intro i hi
      have hafter : patch.lenAfter (q + patch.lenToFind + i) k = patch.lenAfter q k + (patch.lenToFind + i) := by
        rw [Nat.add_assoc]
        exact lenAfter_add (by omega) _
      have hinside : patch.lenAfter (q + patch.lenToFind + i) k < patch.lenAfter len k :=
        (lenAfter_lt_iff (by omega) (by omega)).mpr (by omega)
      have hmoved := @byte_replace patch dsdt (patch.lenAfter q k) (patch.lenAfter len k) hoffset (by omega) (by omega)
        (patch.lenAfter (q + patch.lenToFind + i) k) (by omega) hinside
      rw [h.text _ (by omega) (by omega), hafter, show patch.lenAfter q k + (patch.lenToFind + i) +
        patch.lenToReplace - patch.lenToFind = patch.lenAfter q k + patch.lenToReplace + i by omega, hatq] at hmoved
      rw [← hmoved, Patch.replacedAt, hatq]
    rw [hfront, hbefore, hput, hpassed]
    rfl
  · rw [List.length_append, hlength, hreach]
    rcases Nat.lt_or_ge (q + patch.lenToFind) len with hmore | hlast
    · rw [Nat.min_eq_left (show q + patch.lenToFind + 1 ≤ len from hmore), hpast]
      omega
    · rw [show min (q + patch.lenToFind + 1) len = q + patch.lenToFind + 0 by omega, hpast]
      omega
  · intro a ha
    rw [hpast] at ha
    rw [Patch.left]
    split_ifs with hin
    · rw [← h.rest _ (by omega)]
      have hmoved := @byte_replace patch dsdt (patch.lenAfter q k) (patch.lenAfter len k) hoffset (by omega) (by omega)
        (a + patch.lenToFind - patch.lenToReplace) (by omega) (by omega)
      rwa [show a + patch.lenToFind - patch.lenToReplace + patch.lenToReplace - patch.lenToFind = a by omega] at hmoved
    · rw [← h.rest _ (by omega)]
      exact byte_replace_behind hoffset (by omega) (by omega) (by omega) (by omega)

end Progress

section Run

variable {find replace : DataBytes} {b : Block} {len k p : Nat} {front : List UInt8} {dsdt : Block}

/-- Where no occurrence stands directly behind the one before, the loop comes to the end of the greedy scan. -/
theorem Progress.run (rounds : Nat) (h : Progress (.ofBytes find replace) b len k p front dsdt)
    (hpos : 0 < find.1.length) (hlen : len < 2 ^ 31) (hrounds : len + 2 ≤ rounds + p)
    (hapart : (takenAt find b.byte len p).IsChain fun q q' => q + find.1.length < q')
    (hbound : ∀ m ≤ k + (takenAt find b.byte len p).length, (Patch.ofBytes find replace).lenAfter len m < 2 ^ 31) :
    ∃ q left front' dsdt', hits b.byte find.byte find.1.length len rounds p = ((takenAt find b.byte len p).length, q) ∧
      (len ≤ q ∨ nextHit b.byte find.byte find.1.length len q = none) ∧ len + 2 ≤ left + q ∧
      fixLoop (.ofBytes find replace) find.byte rounds ((Patch.ofBytes find replace).lenAfter p k)
          ((Patch.ofBytes find replace).lenAfter len k) dsdt =
        fixLoop (.ofBytes find replace) find.byte left
          ((Patch.ofBytes find replace).lenAfter q (k + (takenAt find b.byte len p).length))
          ((Patch.ofBytes find replace).lenAfter len (k + (takenAt find b.byte len p).length)) dsdt' ∧
      Progress (.ofBytes find replace) b len (k + (takenAt find b.byte len p).length) q front' dsdt' ∧
      front ++ replacedFrom find replace b.byte len p = front' ++ segment b.byte q (len - q) := by
  induction rounds generalizing k p front dsdt with
  | zero =>
      have hlast := h.last
      omega
  | succ rounds ih =>
      by_cases hp : p < len
      · cases hnext : nextHit b.byte find.byte find.1.length len p with
        | none =>
            rw [takenAt_none hpos hnext, replacedFrom_none hpos hnext]
            refine ⟨p, rounds + 1, front, dsdt, ?_, Or.inr hnext, hrounds, rfl, h, rfl⟩
            rw [hits, if_pos hp, hnext]
            rfl
        | some hit =>
            obtain ⟨hhit, hin, -, -⟩ := nextHit_some hnext
            have htaken := takenAt_hit hpos hnext
            rw [htaken, List.isChain_cons] at hapart
            have hpass : ¬ (hit + find.1.length + find.1.length ≤ len ∧
                matchesAt b.byte (hit + find.1.length) find.byte find.1.length = true) := by
              rintro ⟨hroom, hmatch⟩
              have := hapart.1 (hit + find.1.length)
              rw [takenAt_here hpos hroom hmatch] at this
              exact Nat.lt_irrefl _ (this rfl)
            rw [takenAt_pass hpos hpass] at htaken hapart
            have hsum : k + (takenAt find b.byte len p).length =
                k + 1 + (takenAt find b.byte len (hit + find.1.length + 1)).length := by
              rw [htaken, List.length_cons]
              omega
            rw [hsum] at hbound ⊢
            have hprogress : Progress (.ofBytes find replace) b len (k + 1) (hit + find.1.length + 1)
                (front ++ (Patch.ofBytes find replace).writes b.byte replace.byte len p hit)
                ((Patch.ofBytes find replace).replacedAt len k hit dsdt) :=
              h.next rfl hhit hin (hbound k (by omega)) (hbound (k + 1) (by omega))
            obtain ⟨q, left, front', dsdt', hhits, hend, hleft, hrun, hstate, htext⟩ :=
              ih hprogress (by omega) hapart.2 hbound
            refine ⟨q, left, front', dsdt', ?_, hend, hleft, ?_, hstate, ?_⟩
            · rw [hits, if_pos hp, hnext]
              simp only [hhits, htaken, List.length_cons]
            · rw [← hrun]
              exact h.toReached.round hp hlen hnext (hbound k (by omega)) (hbound (k + 1) (by omega)) rounds
            · have hreplace : segment replace.byte 0 (Patch.ofBytes find replace).lenToReplace = replace.1 :=
                segment_bytes replace
              rw [← htext, replacedFrom_hit hpos hnext, replacedFrom_pass hpos hpass, Patch.writes, hreplace,
                List.append_assoc, List.append_assoc, List.append_assoc]
              rfl
      · have hempty : len - p = 0 := by omega
        have hnone : takenAt find b.byte len p = [] := by
          rw [takenAt, hempty]
          rfl
        rw [hnone]
        refine ⟨p, rounds + 1, front, dsdt, ?_, Or.inl (by omega), hrounds, rfl, h, ?_⟩
        · rw [hits, if_neg hp]
          rfl
        · rw [replacedFrom, hempty]
          rfl

/-- The bytes of the table as the loop has it. -/
theorem Progress.whole {patch : Patch} (h : Progress patch b len k p front dsdt) :
    segment dsdt.byte 0 (patch.lenAfter len k) = front ++ segment b.byte p (len - p) := by
  have hused := h.used
  have hlast := h.last
  have hreach := h.reach
  have hlen : patch.lenAfter len k = front.length + (len - p) := by
    rw [hreach, ← lenAfter_add (by omega)]
    exact congrArg (patch.lenAfter · k) (by omega)
  rw [hlen, segment_add, h.written, Nat.zero_add]
  congr 1
  apply segment_eq_iff.mpr
  intro i hi
  rw [hreach, Nat.min_eq_left (by omega), ← lenAfter_add (by omega)]
  exact h.text (p + i) (by omega) (by omega)

theorem findBin_congr {byte byte' : Nat → UInt8} {base n : Nat} {bin : Nat → UInt8}
    (h : ∀ a, base ≤ a → byte' a = byte a) : findBin byte' base len bin n = findBin byte base len bin n := by
  have hmatches : (fun i => matchesAt byte' (base + i) bin n) = fun i => matchesAt byte (base + i) bin n := by
    funext i
    exact matchesAt_congr fun j _ => h (base + i + j) (by omega)
  unfold findBin
  rw [hmatches]

theorem findBin_pos {byte : Nat → UInt8} {base n : Nat} {bin : Nat → UInt8} {adr : Int} (hn : n ≤ len)
    (hlen : len < 2 ^ 31) (h : findBin byte base len bin n = some adr) (hadr : ¬ adr < 0) :
    ∃ j : Nat, adr = j ∧ j < len - n ∧ matchesAt byte (base + j) bin n = true := by
  rw [findBin, if_pos hn] at h
  cases hfind : (List.range (len - n)).find? fun i => matchesAt byte (base + i) bin n with
  | none =>
      rw [hfind, Option.some.injEq] at h
      omega
  | some j =>
      rw [hfind, Option.some.injEq] at h
      rw [List.find?_range_eq_some, List.mem_range] at hfind
      obtain ⟨hmatch, hj, -⟩ := hfind
      rw [i32_natCast (by omega)] at h
      exact ⟨j, h.symm, hj, hmatch⟩

theorem matchesAt_byte {byte find : Nat → UInt8} {a n i : Nat} (h : matchesAt byte a find n = true) (hi : i < n) :
    byte (a + i) = find i := by
  rw [matchesAt_iff, segment_eq_iff] at h
  have := h i hi
  rwa [Nat.zero_add] at this

theorem Progress.search (h : Progress (.ofBytes find replace) b len k p front dsdt) :
    findBin dsdt.byte ((Patch.ofBytes find replace).lenAfter p k) ((Patch.ofBytes find replace).lenAfter len k)
        find.byte find.1.length =
      findBin ((Patch.ofBytes find replace).left b.byte len k) ((Patch.ofBytes find replace).lenAfter p k)
        ((Patch.ofBytes find replace).lenAfter len k) find.byte find.1.length :=
  findBin_congr h.rest

section Finish

variable (h : Progress (.ofBytes find replace) b len k p front dsdt) {left : Nat} (hleft : len + 2 ≤ left + p)
  (hnow : (Patch.ofBytes find replace).lenAfter len k < 2 ^ 31)
  (hend : len ≤ p ∨ nextHit b.byte find.byte find.1.length len p = none)

include h hleft hnow hend

/-- The call ends with the table as it is then. -/
theorem Progress.finish (hN : find.1.length ≤ len) (hends : EndsAt find replace len b.byte k p) :
    ∃ after, fixLoop (.ofBytes find replace) find.byte left ((Patch.ofBytes find replace).lenAfter p k)
        ((Patch.ofBytes find replace).lenAfter len k) dsdt =
        some (after, (Patch.ofBytes find replace).lenAfter len k) ∧
      segment after.byte 0 ((Patch.ofBytes find replace).lenAfter len k) = front ++ segment b.byte p (len - p) := by
  have hused := h.used
  have hlast := h.last
  obtain ⟨rounds, rfl⟩ : ∃ rounds, left = rounds + 1 := ⟨left - 1, by omega⟩
  rcases Nat.lt_or_ge p len with hp | hp
  · have hcur : (Patch.ofBytes find replace).lenAfter p k < (Patch.ofBytes find replace).lenAfter len k := by
      unfold Patch.lenAfter
      omega
    have hnone := hend.resolve_left (Nat.not_le.mpr hp)
    obtain ⟨adr, hadr, hgood⟩ := hends.resolve_left (Nat.not_le.mpr hp)
    have hsearch := h.search.trans hadr
    by_cases hneg : adr < 0
    · refine ⟨dsdt, ?_, h.whole⟩
      rw [fixLoop, if_pos hcur, show (Patch.ofBytes find replace).lenToFind = find.1.length from rfl, hsearch]
      exact if_pos hneg
    · obtain ⟨hsame, hbytes⟩ := hgood.resolve_left hneg
      have hlength : (Patch.ofBytes find replace).lenToReplace = (Patch.ofBytes find replace).lenToFind := hsame
      have hfind := Patch.lenToFind_ofBytes find replace
      have hwhole := h.whole
      rw [lenAfter_same hlength] at hnow hwhole ⊢
      rw [lenAfter_same hlength, lenAfter_same hlength] at hsearch
      obtain ⟨j, rfl, hj, hmatch⟩ := findBin_pos hN hnow hsearch hneg
      have hpast := h.past_end hnone (j := j) (by rwa [lenAfter_same hlength])
      rw [lenAfter_same hlength, lenAfter_same hlength] at hpast
      obtain ⟨rounds, rfl⟩ : ∃ r, rounds = r + 1 := ⟨rounds - 1, by omega⟩
      rw [lenAfter_same hlength, fixLoop_last hp hsearch hN hpast hnow (by omega) (by omega), hlength, Nat.add_sub_cancel]
      refine ⟨_, rfl, ?_⟩
      rw [← hwhole]
      apply segment_eq_iff.mpr
      intro y hy
      rw [Nat.zero_add]
      rcases Nat.lt_or_ge y (p + j) with hfront | hback
      · exact byte_replace_front hfront
      · obtain ⟨t, rfl⟩ : ∃ t, y = p + j + t := ⟨y - (p + j), by omega⟩
        have ht : t < find.1.length := by omega
        rw [matchesAt_byte hmatch ht, ← hbytes t ht (by omega)]
        exact byte_put_inside rfl (by omega)
  · refine ⟨dsdt, ?_, h.whole⟩
    rw [fixLoop, if_neg]
    unfold Patch.lenAfter
    omega

/-- Where lengths do not wrap, the call gives the table as it is then only if it ends so. -/
theorem Progress.endsAt (hN : find.1.length ≤ (Patch.ofBytes find replace).lenAfter len k)
    (hsmall : (Patch.ofBytes find replace).lenAfter len k < 2 ^ 30) (hreplace : replace.1.length < 2 ^ 30) {after : Block}
    (hrun : fixLoop (.ofBytes find replace) find.byte left ((Patch.ofBytes find replace).lenAfter p k)
        ((Patch.ofBytes find replace).lenAfter len k) dsdt =
        some (after, (Patch.ofBytes find replace).lenAfter len k))
    (htext : segment after.byte 0 ((Patch.ofBytes find replace).lenAfter len k) = front ++ segment b.byte p (len - p)) :
    EndsAt find replace len b.byte k p := by
  have hused := h.used
  have hfind := Patch.lenToFind_ofBytes find replace
  have hto := Patch.lenToReplace_ofBytes find replace
  rcases Nat.lt_or_ge p len with hp | hp
  · have hcur : (Patch.ofBytes find replace).lenAfter p k < (Patch.ofBytes find replace).lenAfter len k := by
      unfold Patch.lenAfter
      omega
    have hnone := hend.resolve_left (Nat.not_le.mpr hp)
    obtain ⟨rounds, rfl⟩ : ∃ rounds, left = rounds + 2 := ⟨left - 2, by omega⟩
    right
    cases hsearch : findBin ((Patch.ofBytes find replace).left b.byte len k) ((Patch.ofBytes find replace).lenAfter p k)
        ((Patch.ofBytes find replace).lenAfter len k) find.byte find.1.length with
    | none =>
        rw [fixLoop, if_pos hcur, hfind, h.search, hsearch] at hrun
        cases hrun
    | some adr =>
        refine ⟨adr, rfl, ?_⟩
        by_cases hneg : adr < 0
        · exact Or.inl hneg
        · have hseen := h.search.trans hsearch
          obtain ⟨j, rfl, hj, hmatch⟩ := findBin_pos hN hnow hseen hneg
          have hpast := h.past_end hnone hmatch
          rw [fixLoop_last hcur hseen hN hpast hnow (by omega) (by omega), Option.some.injEq, Prod.mk.injEq] at hrun
          obtain ⟨rfl, hlen⟩ := hrun
          have hsame : replace.1.length = find.1.length := by omega
          refine Or.inr ⟨hsame, ?_⟩
          intro t ht hin
          have hlength : (Patch.ofBytes find replace).lenToReplace = (Patch.ofBytes find replace).lenToFind := hsame
          rw [← h.whole, segment_eq_iff] at htext
          rw [lenAfter_same hlength, lenAfter_same hlength] at *
          have := htext (p + j + t) (by omega)
          rw [Nat.zero_add, matchesAt_byte hmatch ht] at this
          rw [← this]
          exact (byte_put_inside rfl (by omega)).symm
  · exact Or.inl hp

end Finish

end Run

end BareBoot.Acpi
