import BareBoot.DsdtPatch

/-! How far `FixAny` lets the DSDT grow. The matches it replaces are those of the old table, found from
left to right, each search starting one byte behind the last match, and one more where the search goes
past the end of the table and finds the bytes there. -/

namespace BareBoot.Acpi

section Hits

variable (byte : Nat → UInt8) (find : Nat → UInt8) (n len : Nat)

/-- The first place from `p` on where the bytes stand inside the table. -/
def nextHit (p : Nat) : Option Nat :=
  ((List.range (len + 1 - (p + n))).find? fun j => matchesAt byte (p + j) find n).map fun j => p + j

/-- How many matches there are from `p` on, and where the search is after the last. -/
def hits : Nat → Nat → Nat × Nat
  | 0, p => (0, p)
  | rounds + 1, p =>
      if p < len then
        match nextHit byte find n len p with
        | none => (0, p)
        | some q => ((hits rounds (q + n + 1)).1 + 1, (hits rounds (q + n + 1)).2)
      else (0, p)

/-- The bytes the last search looks at, when the rest of the table has moved back by `shift`. -/
def seen (shift a : Nat) : UInt8 := if a < len + shift then byte (a - shift) else byte a

/-- The last search finds the bytes, partly or wholly behind the table. -/
def straddles (shift p : Nat) : Bool :=
  decide (p < len) && (List.range (len + shift - n)).any fun j => matchesAt (seen byte len shift) (p + shift + j) find n

end Hits

/-- The length after `count` replacements. -/
def Patch.lenAfter (patch : Patch) (len count : Nat) : Nat :=
  len + count * patch.lenToReplace - count * patch.lenToFind

/-- The number of replacements of a patch that makes the table longer. -/
def Patch.replacements (patch : Patch) (find : Nat → UInt8) (dsdt : Block) (len : Nat) : Nat :=
  let found := hits dsdt.byte find patch.lenToFind len (2 ^ 32) 20
  let shift := found.1 * (patch.lenToReplace - patch.lenToFind)
  found.1 + if straddles dsdt.byte find patch.lenToFind len shift found.2 then 1 else 0

/-- The table as it is before the call leaves room for all replacements: where the patch makes it longer,
it still fits with all of them; otherwise the last search is for no more bytes than are left of it. -/
def FitsFind (patch : Patch) (find : Nat → UInt8) (dsdt : Block) (len : Nat) : Prop :=
  let found := hits dsdt.byte find patch.lenToFind len (2 ^ 32) 20
  patch.lenToFind ≤ len ∧
    (patch.lenToFind < patch.lenToReplace → patch.lenAfter len (patch.replacements find dsdt len) ≤ dsdt.size) ∧
    (patch.lenToReplace ≤ patch.lenToFind → found.2 < len → patch.lenToFind ≤ patch.lenAfter len found.1)

def Fits (patch : Patch) (dsdt : Block) (len : Nat) : Prop :=
  dsdt.size < 2 ^ 31 ∧
    match patch.find with
    | none => True
    | some find => u32 (patch.lenToFind + 20) ≤ len → FitsFind patch find dsdt len

instance (patch : Patch) (find : Nat → UInt8) (dsdt : Block) (len : Nat) : Decidable (FitsFind patch find dsdt len) :=
  inferInstanceAs (Decidable (_ ∧ (_ → _) ∧ (_ → _ → _)))

instance (patch : Patch) (dsdt : Block) (len : Nat) : Decidable (Fits patch dsdt len) :=
  have : Decidable (match patch.find with
      | none => True
      | some find => u32 (patch.lenToFind + 20) ≤ len → FitsFind patch find dsdt len) :=
    match patch.find with
    | none => isTrue trivial
    | some _ => inferInstanceAs (Decidable (_ → _))
  inferInstanceAs (Decidable (_ ∧ _))

section Search

variable {byte byte' : Nat → UInt8} {find : Nat → UInt8} {n len : Nat}

theorem matchesAt_congr {a a' : Nat} (h : ∀ j < n, byte' (a' + j) = byte (a + j)) :
    matchesAt byte' a' find n = matchesAt byte a find n := by
  unfold matchesAt
  rw [Bool.eq_iff_iff, List.all_eq_true, List.all_eq_true]
  apply forall₂_congr
  intro j hj
  rw [h j (List.mem_range.mp hj)]

theorem nextHit_some {p q : Nat} (h : nextHit byte find n len p = some q) :
    p ≤ q ∧ q + n ≤ len ∧ matchesAt byte q find n = true ∧
      ∀ j, p + j < q → matchesAt byte (p + j) find n = false := by
  rw [nextHit, Option.map_eq_some_iff] at h
  obtain ⟨j, hj, rfl⟩ := h
  rw [List.find?_range_eq_some] at hj
  obtain ⟨hmatch, hmem, hbefore⟩ := hj
  rw [List.mem_range] at hmem
  refine ⟨Nat.le_add_right p j, by omega, hmatch, ?_⟩
  intro i hi
  simpa using hbefore i (by omega)

theorem nextHit_none {p : Nat} (h : nextHit byte find n len p = none) {q : Nat} (hp : p ≤ q) (hq : q + n ≤ len) :
    matchesAt byte q find n = false := by
  rw [nextHit, Option.map_eq_none_iff, List.find?_range_eq_none] at h
  have := h (q - p) (by omega)
  rw [Nat.add_sub_cancel' hp] at this
  simpa using this

theorem findBin_some {base i : Nat} (hn : n ≤ len) (hi : i < len - n) (hsmall : i < 2 ^ 31)
    (hmatch : matchesAt byte (base + i) find n = true)
    (hbefore : ∀ j < i, matchesAt byte (base + j) find n = false) :
    findBin byte base len find n = some (i : Int) := by
  have hfind : (List.range (len - n)).find? (fun i => matchesAt byte (base + i) find n) = some i := by
    rw [List.find?_range_eq_some]
    exact ⟨hmatch, List.mem_range.mpr hi, fun j hj => by simp [hbefore j hj]⟩
  rw [findBin, if_pos hn, hfind]
  simp only [i32_natCast hsmall]

end Search

section Replace

variable {patch : Patch} {b : Block} {a len : Nat}

theorem sizeOffset_eq (hR : patch.lenToReplace < patch.lenToFind + 2 ^ 31)
    (hN : patch.lenToFind < patch.lenToReplace + 2 ^ 31) :
    patch.sizeOffset = (patch.lenToReplace : Int) - patch.lenToFind := by
  unfold Patch.sizeOffset i32
  rw [Int.bmod_def]
  split_ifs <;> omega

theorem byte_put {y : Nat} (h : y < a ∨ a + patch.lenToReplace ≤ y) : (patch.put a b).byte y = b.byte y := by
  unfold Patch.put
  split
  · rfl
  · split_ifs
    · exact Block.byte_write_outside h
    · rfl

/-- The bytes behind a match move by the difference of the lengths. -/
theorem byte_replace (hoffset : patch.sizeOffset = (patch.lenToReplace : Int) - patch.lenToFind)
    (hlen : len + patch.lenToReplace < 2 ^ 32 + patch.lenToFind) (hfound : patch.lenToFind ≤ len) {y : Nat}
    (hy : a + patch.lenToFind ≤ y) (hend : y < len) :
    (patch.put a (moveData a b len patch.sizeOffset).1).byte (y + patch.lenToReplace - patch.lenToFind) = b.byte y := by
  rw [byte_put (Or.inr (by omega)), moveData, hoffset]
  have hnew : u32 ((len : Int) + (patch.lenToReplace - patch.lenToFind)) =
      len + patch.lenToReplace - patch.lenToFind := by
    unfold u32
    omega
  rw [hnew]
  split_ifs with hshrink
  · rw [byte_moveToFront, if_pos (by omega)]
    exact congrArg b.byte (by omega)
  · rw [byte_moveToBack, if_pos (by omega)]
    exact congrArg b.byte (by omega)

/-- The bytes behind the new end stay as they were. -/
theorem byte_replace_behind (hoffset : patch.sizeOffset = (patch.lenToReplace : Int) - patch.lenToFind)
    (hlen : len + patch.lenToReplace < 2 ^ 32 + patch.lenToFind) (hfound : patch.lenToFind ≤ len) {y : Nat}
    (hy : a + patch.lenToReplace ≤ y) (hend : len + patch.lenToReplace - patch.lenToFind ≤ y) :
    (patch.put a (moveData a b len patch.sizeOffset).1).byte y = b.byte y := by
  rw [byte_put (Or.inr hy), moveData, hoffset]
  have hnew : u32 ((len : Int) + (patch.lenToReplace - patch.lenToFind)) =
      len + patch.lenToReplace - patch.lenToFind := by
    unfold u32
    omega
  rw [hnew]
  split_ifs with hshrink
  · rw [byte_moveToFront, if_neg (by omega)]
  · rw [byte_moveToBack, if_neg (by omega)]

/-- Neither moving nor replacing touches what stands in front. -/
theorem byte_replace_front {offset : Int} {y : Nat} (h : y < a) :
    (patch.put a (moveData a b len offset).1).byte y = b.byte y := by
  rw [byte_put (Or.inl h), moveData]
  split_ifs with hshrink
  · rw [byte_moveToFront, if_neg (by omega)]
  · rw [byte_moveToBack, if_neg (by omega)]

end Replace

section LenAfter

variable {patch : Patch} {x len k m : Nat}

@[simp] theorem lenAfter_zero : patch.lenAfter len 0 = len := by
  unfold Patch.lenAfter
  omega

theorem lenAfter_succ (h : k * patch.lenToFind ≤ x) :
    patch.lenAfter x (k + 1) = patch.lenAfter x k + patch.lenToReplace - patch.lenToFind := by
  unfold Patch.lenAfter
  rw [Nat.succ_mul, Nat.succ_mul]
  omega

theorem lenAfter_add (h : k * patch.lenToFind ≤ x) (y : Nat) : patch.lenAfter (x + y) k = patch.lenAfter x k + y := by
  unfold Patch.lenAfter
  omega

theorem lenAfter_lt_iff {y : Nat} (h : k * patch.lenToFind ≤ x) (h' : k * patch.lenToFind ≤ y) :
    patch.lenAfter x k < patch.lenAfter y k ↔ x < y := by
  unfold Patch.lenAfter
  omega

theorem lenAfter_of_grow (h : patch.lenToFind ≤ patch.lenToReplace) :
    patch.lenAfter len k = len + k * (patch.lenToReplace - patch.lenToFind) := by
  unfold Patch.lenAfter
  rw [Nat.mul_sub, Nat.add_sub_assoc (Nat.mul_le_mul_left k h)]

theorem lenAfter_mono (h : patch.lenToFind ≤ patch.lenToReplace) (hkm : k ≤ m) :
    patch.lenAfter len k ≤ patch.lenAfter len m := by
  rw [lenAfter_of_grow h, lenAfter_of_grow h]
  exact Nat.add_le_add_left (Nat.mul_le_mul_right _ hkm) len

theorem lenAfter_same (h : patch.lenToReplace = patch.lenToFind) : patch.lenAfter len k = len := by
  unfold Patch.lenAfter
  rw [h, Nat.add_sub_cancel]

theorem lenAfter_le (h : patch.lenToReplace ≤ patch.lenToFind) : patch.lenAfter len k ≤ len := by
  have := Nat.mul_le_mul_left k h
  unfold Patch.lenAfter
  omega

end LenAfter

/-! ### One call -/

section Loop

variable {patch : Patch} {b : Block} {len : Nat} {find : Nat → UInt8}

/-- What the loop has left of the table `b` after `k` replacements, the search being at `p` of `b`. -/
structure Reached (patch : Patch) (b : Block) (len k p : Nat) (dsdt : Block) : Prop where
  used : 20 + k * patch.lenToFind ≤ p
  last : p ≤ len + 1
  text : ∀ x, p ≤ x → x < len → dsdt.byte (patch.lenAfter x k) = b.byte x
  behind : patch.lenToFind ≤ patch.lenToReplace → ∀ a, patch.lenAfter len k ≤ a → dsdt.byte a = b.byte a

/-- A match inside the table, seen where the table is now. -/
theorem Reached.matchesAt_eq {k p q : Nat} {dsdt : Block} (h : Reached patch b len k p dsdt) (hp : p ≤ q)
    (hq : q + patch.lenToFind ≤ len) :
    matchesAt dsdt.byte (patch.lenAfter q k) find patch.lenToFind = matchesAt b.byte q find patch.lenToFind := by
  have hused := h.used
  apply matchesAt_congr
  intro j hj
  rw [← lenAfter_add (by omega) j]
  exact h.text (q + j) (by omega) (by omega)

theorem Reached.findBin_hit {k p q : Nat} {dsdt : Block} (h : Reached patch b len k p dsdt) (hlen : len < 2 ^ 31)
    (hhit : nextHit b.byte find patch.lenToFind len p = some q) :
    findBin dsdt.byte (patch.lenAfter p k) (patch.lenAfter len k) find patch.lenToFind = some ((q - p : Nat) : Int) := by
  obtain ⟨hp, hq, hmatch, hbefore⟩ := nextHit_some hhit
  have hused := h.used
  have hat : ∀ j, patch.lenAfter (p + j) k = patch.lenAfter p k + j := fun j => lenAfter_add (by omega) j
  have hlast : patch.lenAfter p k + (q - p) + patch.lenToFind ≤ patch.lenAfter len k := by
    unfold Patch.lenAfter
    omega
  have hfirst : 20 ≤ patch.lenAfter p k := by
    unfold Patch.lenAfter
    omega
  apply findBin_some (by omega) (by omega) (by omega)
  · rw [← hat, Nat.add_sub_cancel' hp, h.matchesAt_eq hp hq]
    exact hmatch
  · intro j hj
    rw [← hat, h.matchesAt_eq (by omega) (by omega)]
    exact hbefore j (by omega)

/-- One replacement of a match inside the table. -/
theorem Reached.replace {k p q : Nat} {dsdt : Block} (h : Reached patch b len k p dsdt) (hp : p ≤ q)
    (hq : q + patch.lenToFind ≤ len) (hnow : patch.lenAfter len k < 2 ^ 31) (hnext : patch.lenAfter len (k + 1) < 2 ^ 31) :
    (moveData (patch.lenAfter q k) dsdt (patch.lenAfter len k) patch.sizeOffset).2 = patch.lenAfter len (k + 1) ∧
      Reached patch b len (k + 1) (q + patch.lenToFind + 1)
        (patch.put (patch.lenAfter q k)
          (moveData (patch.lenAfter q k) dsdt (patch.lenAfter len k) patch.sizeOffset).1) := by
  have hused := h.used
  have hsucc : ∀ {x}, p ≤ x → patch.lenAfter x (k + 1) = patch.lenAfter x k + patch.lenToReplace - patch.lenToFind :=
    fun hx => lenAfter_succ (by omega)
  have hqlen : patch.lenAfter q k + patch.lenToFind ≤ patch.lenAfter len k := by
    unfold Patch.lenAfter
    omega
  have hnew := hsucc (show p ≤ len by omega)
  have hoffset : patch.sizeOffset = (patch.lenToReplace : Int) - patch.lenToFind :=
    sizeOffset_eq (by omega) (by omega)
  refine ⟨?_, ?_, by omega, ?_, ?_⟩
  · rw [moveData, hoffset, hnew]
    unfold u32
    omega
  · rw [Nat.succ_mul]
    omega
  · intro x hx hend
    rw [hsucc (by omega), byte_replace hoffset (by omega) (by omega) ?_ ?_]
    · exact h.text x (by omega) hend
    · unfold Patch.lenAfter
      omega
    · exact (lenAfter_lt_iff (by omega) (by omega)).mpr hend
  · intro hgrow a ha
    rw [byte_replace_behind hoffset (by omega) (by omega) (by omega) (by omega)]
    exact h.behind hgrow a (by omega)

/-- The round of the loop that replaces a match inside the table. -/
theorem Reached.round {k p q : Nat} {dsdt : Block} (h : Reached patch b len k p dsdt) (hin : p < len)
    (hlen : len < 2 ^ 31) (hhit : nextHit b.byte find patch.lenToFind len p = some q)
    (hnow : patch.lenAfter len k < 2 ^ 31) (hnext : patch.lenAfter len (k + 1) < 2 ^ 31) (rounds : Nat) :
    fixLoop patch find (rounds + 1) (patch.lenAfter p k) (patch.lenAfter len k) dsdt =
      fixLoop patch find rounds (patch.lenAfter (q + patch.lenToFind + 1) (k + 1)) (patch.lenAfter len (k + 1))
        (patch.put (patch.lenAfter q k)
          (moveData (patch.lenAfter q k) dsdt (patch.lenAfter len k) patch.sizeOffset).1) := by
  obtain ⟨hp, hq, -, -⟩ := nextHit_some hhit
  have hused := h.used
  obtain ⟨hmoved, -⟩ := h.replace hp hq hnow hnext
  have hcur : patch.lenAfter p k < patch.lenAfter len k := (lenAfter_lt_iff (by omega) (by omega)).mpr hin
  have hat : patch.lenAfter p k + (q - p) = patch.lenAfter q k := by
    rw [← lenAfter_add (by omega), Nat.add_sub_cancel' hp]
  have hlast : patch.lenAfter q k + patch.lenToFind ≤ patch.lenAfter len k := by
    unfold Patch.lenAfter
    omega
  have hlen' : patch.lenAfter len (k + 1) = patch.lenAfter len k + patch.lenToReplace - patch.lenToFind :=
    lenAfter_succ (by omega)
  have hgo : patch.lenAfter q k + patch.lenToReplace + 1 = patch.lenAfter (q + patch.lenToFind + 1) (k + 1) := by
    unfold Patch.lenAfter
    rw [Nat.succ_mul, Nat.succ_mul]
    omega
  have hfrom : u32 ((patch.lenAfter p k : Int) + ((q - p : Nat) : Int)) = patch.lenAfter q k := by
    unfold u32
    omega
  have hto : u32 ((patch.lenAfter q k : Int) + patch.lenToReplace + 1) =
      patch.lenAfter (q + patch.lenToFind + 1) (k + 1) := by
    rw [← hgo]
    unfold u32
    omega
  rw [fixLoop, if_pos hcur, h.findBin_hit hlen hhit]
  simp only [hfrom, hto, hmoved]
  exact if_neg (by omega)

/-- The bytes from the current position on are those `seen` gives. -/
theorem Reached.seen_eq {k p : Nat} {dsdt : Block} (h : Reached patch b len k p dsdt)
    (hgrow : patch.lenToFind ≤ patch.lenToReplace) {a : Nat} (ha : patch.lenAfter p k ≤ a) :
    dsdt.byte a = seen b.byte len (k * (patch.lenToReplace - patch.lenToFind)) a := by
  have hshift : ∀ x, patch.lenAfter x k = x + k * (patch.lenToReplace - patch.lenToFind) :=
    fun x => lenAfter_of_grow hgrow
  rw [hshift] at ha
  unfold seen
  split_ifs with hin
  · have := h.text (a - k * (patch.lenToReplace - patch.lenToFind)) (by omega) (by omega)
    rwa [hshift, Nat.sub_add_cancel (by omega)] at this
  · apply h.behind hgrow
    rw [hshift]
    omega

/-- What a search behind the last match inside the table finds reaches past the end. -/
theorem Reached.past_end {k p j : Nat} {dsdt : Block} (h : Reached patch b len k p dsdt)
    (hnone : nextHit b.byte find patch.lenToFind len p = none)
    (hmatch : matchesAt dsdt.byte (patch.lenAfter p k + j) find patch.lenToFind = true) :
    patch.lenAfter len k < patch.lenAfter p k + j + patch.lenToFind := by
  have hused := h.used
  by_contra hinside
  rw [← lenAfter_add (by omega)] at hmatch hinside
  have hq : p + j + patch.lenToFind ≤ len := by
    unfold Patch.lenAfter at hinside
    omega
  rw [h.matchesAt_eq (Nat.le_add_right p j) hq, nextHit_none hnone (Nat.le_add_right p j) hq] at hmatch
  exact Bool.false_ne_true hmatch

/-- A match that reaches past the end of the table is the last. -/
theorem fixLoop_last {i len j : Nat} {dsdt : Block} (hi : i < len)
    (hfind : findBin dsdt.byte i len find patch.lenToFind = some (j : Int)) (hfound : patch.lenToFind ≤ len)
    (hpast : len < i + j + patch.lenToFind) (hlen : len < 2 ^ 31) (hreplace : patch.lenToReplace < 2 ^ 31)
    (hto : i + j + patch.lenToReplace + 1 < 2 ^ 32) (rounds : Nat) :
    fixLoop patch find (rounds + 2) i len dsdt =
      some (patch.put (i + j) (moveData (i + j) dsdt len patch.sizeOffset).1,
        len + patch.lenToReplace - patch.lenToFind) := by
  have hoffset : patch.sizeOffset = (patch.lenToReplace : Int) - patch.lenToFind :=
    sizeOffset_eq (by omega) (by omega)
  have hmoved : (moveData (i + j) dsdt len ((patch.lenToReplace : Int) - patch.lenToFind)).2 =
      len + patch.lenToReplace - patch.lenToFind := by
    rw [moveData]
    unfold u32
    omega
  rw [fixLoop, if_pos hi, hfind]
  simp only [hoffset]
  rw [if_neg (by omega), show u32 ((i : Int) + j) = i + j by unfold u32; omega, hmoved, fixLoop, if_neg]
  unfold u32
  omega

/-- The search after the last match inside the table: it ends the call, at once or with one more match. -/
theorem Reached.last_search {rounds k p : Nat} {dsdt : Block} (h : Reached patch b len k p dsdt) (hp : p < len)
    (hnow : patch.lenAfter len k < 2 ^ 31) (hfound : patch.lenToFind ≤ patch.lenAfter len k)
    (hnone : nextHit b.byte find patch.lenToFind len p = none)
    (hgrow : patch.lenToFind < patch.lenToReplace →
      straddles b.byte find patch.lenToFind len (k * (patch.lenToReplace - patch.lenToFind)) p = true →
        patch.lenAfter len (k + 1) < 2 ^ 31) :
    ∃ dsdt' s, fixLoop patch find (rounds + 2) (patch.lenAfter p k) (patch.lenAfter len k) dsdt =
        some (dsdt', patch.lenAfter len (k + s)) ∧ s ≤ 1 ∧
      (patch.lenToFind < patch.lenToReplace → s =
        if straddles b.byte find patch.lenToFind len (k * (patch.lenToReplace - patch.lenToFind)) p then 1 else 0) := by
  have hused := h.used
  have hcur : patch.lenAfter p k < patch.lenAfter len k := (lenAfter_lt_iff (by omega) (by omega)).mpr hp
  have hstraddles : patch.lenToFind < patch.lenToReplace →
      straddles b.byte find patch.lenToFind len (k * (patch.lenToReplace - patch.lenToFind)) p =
        (List.range (patch.lenAfter len k - patch.lenToFind)).any fun j =>
          matchesAt dsdt.byte (patch.lenAfter p k + j) find patch.lenToFind := by
    intro hlt
    rw [straddles, decide_eq_true hp, Bool.true_and, lenAfter_of_grow hlt.le, lenAfter_of_grow hlt.le]
    congr 1
    funext j
    apply matchesAt_congr
    intro i _
    rw [h.seen_eq hlt.le]
    rw [lenAfter_of_grow hlt.le]
    omega
  cases hfind : (List.range (patch.lenAfter len k - patch.lenToFind)).find? fun j =>
      matchesAt dsdt.byte (patch.lenAfter p k + j) find patch.lenToFind with
  | none =>
      rw [fixLoop, if_pos hcur, findBin, if_pos hfound, hfind]
      refine ⟨dsdt, 0, rfl, Nat.zero_le 1, ?_⟩
      intro hlt
      rw [hstraddles hlt, if_neg]
      rw [List.find?_eq_none] at hfind
      rw [List.any_eq_true]
      rintro ⟨j, hj, hmatch⟩
      exact hfind j hj hmatch
  | some j =>
      rw [List.find?_range_eq_some] at hfind
      obtain ⟨hmatch, hmem, hbefore⟩ := hfind
      have hj := List.mem_range.mp hmem
      have hsearch : findBin dsdt.byte (patch.lenAfter p k) (patch.lenAfter len k) find patch.lenToFind =
          some (j : Int) :=
        findBin_some hfound hj (by omega) hmatch fun i hi => by simpa using hbefore i hi
      have hbehind := h.past_end hnone hmatch
      have hone : patch.lenToFind < patch.lenToReplace →
          straddles b.byte find patch.lenToFind len (k * (patch.lenToReplace - patch.lenToFind)) p = true := by
        intro hlt
        rw [hstraddles hlt, List.any_eq_true]
        exact ⟨j, hmem, hmatch⟩
      have hsucc : patch.lenAfter len (k + 1) = patch.lenAfter len k + patch.lenToReplace - patch.lenToFind :=
        lenAfter_succ (by omega)
      have hnext : patch.lenAfter len (k + 1) < 2 ^ 31 := by
        by_cases hlt : patch.lenToFind < patch.lenToReplace
        · exact hgrow hlt (hone hlt)
        · omega
      rw [fixLoop_last hcur hsearch hfound hbehind hnow (by omega) (by omega), ← hsucc]
      exact ⟨_, 1, rfl, Nat.le_refl 1, fun hlt => by rw [if_pos (hone hlt)]⟩

/-- What `hits` says about the rest of the table holds of the loop. -/
theorem fixLoop_spec (find : Nat → UInt8) (rounds : Nat) {k p : Nat} {dsdt : Block} (h : Reached patch b len k p dsdt)
    (hrounds : len + 2 ≤ rounds + p) (hlen : len < 2 ^ 31) (hn : patch.lenToFind ≤ len) {count q : Nat}
    (hhits : hits b.byte find patch.lenToFind len rounds p = (count, q))
    (hshrink : patch.lenToReplace ≤ patch.lenToFind → q < len → patch.lenToFind ≤ patch.lenAfter len (k + count))
    (hgrow : patch.lenToFind < patch.lenToReplace → patch.lenAfter len (k + count +
      if straddles b.byte find patch.lenToFind len ((k + count) * (patch.lenToReplace - patch.lenToFind)) q
        then 1 else 0) < 2 ^ 31) :
    ∃ dsdt' s, fixLoop patch find rounds (patch.lenAfter p k) (patch.lenAfter len k) dsdt =
        some (dsdt', patch.lenAfter len (k + count + s)) ∧ s ≤ 1 ∧
      (patch.lenToFind < patch.lenToReplace → s =
        if straddles b.byte find patch.lenToFind len ((k + count) * (patch.lenToReplace - patch.lenToFind)) q
          then 1 else 0) := by
  have hbound : ∀ m ≤ k + count, patch.lenAfter len m < 2 ^ 31 := by
    intro m hm
    by_cases hlt : patch.lenToFind < patch.lenToReplace
    · exact (lenAfter_mono hlt.le (by omega)).trans_lt (hgrow hlt)
    · exact (lenAfter_le (by omega)).trans_lt hlen
  induction rounds generalizing k p dsdt count with
  | zero =>
      have hlast := h.last
      omega
  | succ rounds ih =>
      have hused := h.used
      rw [hits] at hhits
      by_cases hp : p < len
      · rw [if_pos hp] at hhits
        cases hnext : nextHit b.byte find patch.lenToFind len p with
        | none =>
            rw [hnext, Prod.mk.injEq] at hhits
            obtain ⟨rfl, rfl⟩ := hhits
            simp only [Nat.add_zero] at hshrink hgrow hbound ⊢
            obtain ⟨rounds, rfl⟩ : ∃ r, rounds = r + 1 := ⟨rounds - 1, by omega⟩
            have hfound : patch.lenToFind ≤ patch.lenAfter len k := by
              by_cases hle : patch.lenToReplace ≤ patch.lenToFind
              · exact hshrink hle hp
              · rw [lenAfter_of_grow (by omega)]
                omega
            apply h.last_search hp (hbound k (Nat.le_refl k)) hfound hnext
            intro hlt hstraddles
            have := hgrow hlt
            rwa [if_pos hstraddles] at this
        | some hit =>
            rw [hnext, Prod.mk.injEq] at hhits
            obtain ⟨rfl, rfl⟩ := hhits
            have hadd : ∀ m, k + (m + 1) = k + 1 + m := fun m => by omega
            rw [hadd] at hshrink hgrow hbound ⊢
            obtain ⟨hhit, hin, -, -⟩ := nextHit_some hnext
            have hreached := (h.replace hhit hin (hbound k (by omega)) (hbound (k + 1) (by omega))).2
            rw [h.round hp hlen hnext (hbound k (by omega)) (hbound (k + 1) (by omega))]
            exact ih hreached (by omega) rfl hshrink hgrow hbound
      · rw [if_neg hp, Prod.mk.injEq] at hhits
        obtain ⟨rfl, rfl⟩ := hhits
        have hcur : ¬ patch.lenAfter p k < patch.lenAfter len k := by
          unfold Patch.lenAfter
          omega
        refine ⟨dsdt, 0, ?_, Nat.zero_le 1, ?_⟩
        · rw [fixLoop, if_neg hcur]
          rfl
        · intro _
          rw [straddles, decide_eq_false hp]
          rfl

end Loop

section Call

variable {patch : Patch} {dsdt : Block} {len : Nat} {find : Nat → UInt8}

theorem reached_start (patch : Patch) (dsdt : Block) (h : 20 ≤ len) : Reached patch dsdt len 0 20 dsdt where
  used := by omega
  last := by omega
  text := fun x _ _ => by rw [lenAfter_zero]
  behind := fun _ _ _ => rfl

theorem fixAny_find (hfind : patch.find = some find) (h : u32 (patch.lenToFind + 20) ≤ len) :
    fixAny dsdt len patch = fixLoop patch find (2 ^ 32) (patch.lenAfter 20 0) (patch.lenAfter len 0) dsdt := by
  simp only [fixAny, hfind, lenAfter_zero]
  exact if_neg (Nat.not_lt.mpr h)

/-- A patch that makes the table longer makes it longer by all its replacements. -/
theorem fixAny_grown (hfind : patch.find = some find) (hgrow : patch.lenToFind < patch.lenToReplace)
    (hsearch : patch.lenToFind + 20 ≤ len) (hlen : len < 2 ^ 31)
    (hsmall : patch.lenAfter len (patch.replacements find dsdt len) < 2 ^ 31) :
    ∃ dsdt', fixAny dsdt len patch = some (dsdt', patch.lenAfter len (patch.replacements find dsdt len)) := by
  have hcheck : u32 (patch.lenToFind + 20) ≤ len := by
    unfold u32
    omega
  obtain ⟨dsdt', s, hrun, -, hs⟩ := fixLoop_spec find (2 ^ 32) (k := 0) (p := 20)
    (reached_start patch dsdt (by omega)) (by omega) hlen (by omega) rfl (fun h => by omega)
    (fun _ => by rw [Nat.zero_add]; exact hsmall)
  rw [fixAny_find hfind hcheck, hrun, hs hgrow, Nat.zero_add]
  exact ⟨dsdt', rfl⟩

/-- A call that fits returns, and its result is within the buffer. -/
theorem fixAny_within (h : Fits patch dsdt len) (hlen : len ≤ dsdt.size) :
    ∃ after ∈ fixAny dsdt len patch, after.2 ≤ dsdt.size := by
  obtain ⟨hsize, hfits⟩ := h
  cases hfind : patch.find with
  | none => exact ⟨(dsdt, len), by rw [fixAny, hfind]; rfl, hlen⟩
  | some find =>
      rw [hfind] at hfits
      by_cases hcheck : u32 (patch.lenToFind + 20) ≤ len
      · obtain ⟨hn, hgrow, hshrink⟩ := hfits hcheck
        have hsearch : patch.lenToFind + 20 ≤ len := by
          unfold u32 at hcheck
          omega
        by_cases hlt : patch.lenToFind < patch.lenToReplace
        · obtain ⟨dsdt', hrun⟩ := fixAny_grown hfind hlt hsearch (by omega) ((hgrow hlt).trans_lt hsize)
          exact ⟨_, hrun, hgrow hlt⟩
        · obtain ⟨dsdt', s, hrun, -, -⟩ := fixLoop_spec find (2 ^ 32) (k := 0) (p := 20)
            (reached_start patch dsdt (by omega)) (by omega) (by omega) hn rfl
            (fun h => by rw [Nat.zero_add]; exact hshrink h) (fun h => absurd h hlt)
          rw [← fixAny_find hfind hcheck] at hrun
          exact ⟨_, hrun, (lenAfter_le (by omega)).trans hlen⟩
      · refine ⟨(dsdt, len), ?_, hlen⟩
        simp only [fixAny, hfind]
        exact if_pos (Nat.not_le.mp hcheck)

end Call

/-! ### All patches -/

/-- Each patch fits the table it is applied to. -/
def FitAll : List Patch → Block → Nat → Prop
  | [], _, _ => True
  | patch :: patches, dsdt, len =>
      Fits patch dsdt len ∧ ∀ after ∈ fixAny dsdt len patch, FitAll patches after.1 after.2

/-- Each call returns, with a length within the buffer. -/
def WithinBuffer : List Patch → Block → Nat → Prop
  | [], _, _ => True
  | patch :: patches, dsdt, len =>
      ∃ after ∈ fixAny dsdt len patch, after.2 ≤ dsdt.size ∧ WithinBuffer patches after.1 after.2

theorem withinBuffer_of_fitAll {patches : List Patch} {dsdt : Block} {len : Nat} (hlen : len ≤ dsdt.size)
    (h : FitAll patches dsdt len) : WithinBuffer patches dsdt len := by
  induction patches generalizing dsdt len with
  | nil => trivial
  | cons patch patches ih =>
      obtain ⟨hfits, hrest⟩ := h
      obtain ⟨after, hafter, hwithin⟩ := fixAny_within hfits hlen
      refine ⟨after, hafter, hwithin, ih ?_ (hrest after hafter)⟩
      rwa [size_fixAny hafter]

theorem le_sizeToPages (n : Nat) : n ≤ 4096 * sizeToPages n := by
  unfold sizeToPages
  split_ifs <;> omega

theorem dsdt_withinBuffer {bios content : Nat → UInt8} {bufferLen : Nat} {patches : List Patch}
    (h : FitAll patches (dsdtBuffer bios bufferLen content) bufferLen) :
    WithinBuffer patches (dsdtBuffer bios bufferLen content) bufferLen := by
  apply withinBuffer_of_fitAll _ h
  have := le_sizeToPages (bufferLen + bufferLen / 8)
  exact (Nat.le_add_right _ _).trans this

/-- A table of 80 bytes, zeros and then `a`. -/
def smallDsdt : Nat → UInt8 := fun a => if a < 36 then 0 else 97

def letter : Nat → UInt8 := fun _ => 97

/-- `a` for two of them. -/
def doubling : Patch := ⟨some letter, 1, some letter, 2, by decide, by decide⟩

/-- `a` for a thousand of them. -/
def thousandfold : Patch := ⟨some letter, 1, some letter, 1000, by decide, by decide⟩

theorem smallDsdt_withinBuffer : WithinBuffer [doubling] (dsdtBuffer smallDsdt 80 fun _ => 0) 80 :=
  dsdt_withinBuffer ⟨by decide, fun _ _ => trivial⟩

/-- Twenty-two matches, each a thousand bytes long afterwards, in a buffer of one page. -/
theorem smallDsdt_outgrown :
    ¬ WithinBuffer [thousandfold] (dsdtBuffer smallDsdt 80 fun _ => 0) 80 := by
  have hcount : thousandfold.replacements letter (dsdtBuffer smallDsdt 80 fun _ => 0) 80 = 22 := by decide
  have hlen : thousandfold.lenAfter 80 22 = 22058 := by decide
  have hgrown : ∃ dsdt', fixAny (dsdtBuffer smallDsdt 80 fun _ => 0) 80 thousandfold = some (dsdt',
      thousandfold.lenAfter 80 (thousandfold.replacements letter (dsdtBuffer smallDsdt 80 fun _ => 0) 80)) :=
    fixAny_grown rfl (by decide) (by decide) (by decide) (by rw [hcount, hlen]; decide)
  obtain ⟨dsdt', hrun⟩ := hgrown
  rintro ⟨after, hafter, hwithin, -⟩
  rw [hrun, Option.mem_some_iff] at hafter
  subst hafter
  have hsize : (dsdtBuffer smallDsdt 80 fun _ => 0).size = 4096 := by decide
  rw [hcount, hlen, hsize] at hwithin
  exact absurd hwithin (by decide : ¬ 22058 ≤ 4096)

end BareBoot.Acpi
