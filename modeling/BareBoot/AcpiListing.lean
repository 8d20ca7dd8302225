import BareBoot.AcpiTables

/-! What the root tables list. A registry of tables stands for both roots: dropping filters it and
inserting appends to it, and the roots follow as long as no drop meets a zero entry in front of a table
that stays. -/

namespace BareBoot.Acpi

/-! ### One call of a drop function -/

/-- The table at an address has the signature, and the table id where one is asked for. -/
def named (sig tableId : Nat) (memory : Heap) (address : Nat) : Bool :=
  match memory address with
  | none => false
  | some table => decide (signature table = sig ∧ (tableId = 0 ∨ tableId = oemTableId table))

/-- The loop leaves the entry where it is: it is zero, or its table is another one. -/
def stays (sig tableId : Nat) (memory : Heap) (address : Nat) : Bool :=
  decide (address = 0) || !named sig tableId memory address

def listed (address : Nat) : Bool := decide (address ≠ 0)

section Drop

variable {w : Nat} {b c : Block} {memory : Heap} {root sig tableId : Nat}

theorem named_set (h : memory root = some b) (hframe : Frame b c) :
    named sig tableId (memory.set root c) = named sig tableId memory := by
  funext address
  by_cases haddress : address = root
  · subst haddress
    simp only [named, Heap.set_same, h, signature_of_agrees hframe.naming, oemTableId_of_agrees hframe.naming]
  · simp only [named, Heap.set_other haddress]

theorem stays_set (sig tableId : Nat) (h : memory root = some b) (hframe : Frame b c) :
    stays sig tableId (memory.set root c) = stays sig tableId memory := by
  funext address
  rw [stays, stays, named_set h hframe]

theorem isSome_set {address : Nat} (h : ∃ table, memory address = some table) :
    ∃ table, (memory.set root c) address = some table := by
  by_cases haddress : address = root
  · exact ⟨c, by rw [haddress, Heap.set_same]⟩
  · rwa [Heap.set_other haddress]

theorem shorten_frame (hsize : 36 ≤ b.size) : Frame b (shorten w b) := frame_setLength hsize

theorem length_shorten {n : Nat} (h : length b = 36 + w * (n + 1)) : length (shorten w b) = 36 + w * n := by
  have hlt := length_lt b
  rw [shorten, length_setLength (Nat.mod_lt _ (by decide)), h]
  rw [h] at hlt
  rw [Nat.mul_succ] at hlt ⊢
  omega

theorem dropEntries_zero {todo p : Nat} (hroot : memory root = some b) (h : entry w b p = 0) :
    dropEntries w root sig tableId (todo + 1) (36 + w * p) memory =
      dropEntries w root sig tableId todo (36 + w * (p + 1)) (memory.set root (shorten w b)) := by
  rw [dropEntries, hroot, Nat.mul_succ, ← Nat.add_assoc]
  exact if_pos h

theorem dropEntries_table {todo p : Nat} {table : Block} (hroot : memory root = some b)
    (htable : memory (entry w b p) = some table) (h : entry w b p ≠ 0) :
    dropEntries w root sig tableId (todo + 1) (36 + w * p) memory =
      Option.map (followed (entry w b p))
        (if stays sig tableId memory (entry w b p) then
          dropEntries w root sig tableId todo (36 + w * (p + 1)) memory
        else
          dropEntries w root sig tableId todo (36 + w * p)
            (memory.set root (shorten w (moveDown w (todo + 1) (36 + w * p) b)))) := by
  have hstays : stays sig tableId memory (entry w b p) =
      !decide (signature table = sig ∧ (tableId = 0 ∨ tableId = oemTableId table)) := by
    rw [stays, named, htable, decide_eq_false h, Bool.false_or]
  rw [dropEntries, hroot]
  change (if entry w b p = 0 then _ else (memory (entry w b p)).bind _) = _
  rw [if_neg h, htable, hstays, Nat.mul_succ, ← Nat.add_assoc]
  change Option.map _ _ = _
  congr 1
  by_cases hsig : signature table = sig
  · by_cases hid : tableId = 0 ∨ tableId = oemTableId table
    · rw [if_neg (not_not.mpr hsig), if_neg (by omega), if_neg (by simp [hsig, hid])]
    · rw [if_neg (not_not.mpr hsig), if_pos (by omega), if_pos (by simp [hid])]
  · rw [if_pos hsig, if_pos (by simp [hsig])]

/-- What the loop has done to the root when `todo` entries were left at position `p`, and `q` entries in
front of it had been counted. -/
structure Dropped (w : Nat) (sig tableId : Nat) (memory : Heap) (todo p q : Nat) (b c : Block) : Prop where
  frame : Frame b c
  entries : entry w c = sweep (stays sig tableId memory) todo p (entry w b)
  length : length c = 36 + w *
    (q + (((segment (entry w b) p todo).filter (stays sig tableId memory)).filter listed).length)

theorem dropEntries_spec {todo p q : Nat} (hroot : memory root = some b) (hsize : 36 + w * (p + todo) ≤ b.size)
    (hlen : length b = 36 + w * (q + todo))
    (hlive : ∀ address ∈ segment (entry w b) p todo, address ≠ 0 → ∃ table, memory address = some table) :
    ∃ c, Dropped w sig tableId memory todo p q b c ∧
      dropEntries w root sig tableId todo (36 + w * p) memory =
        some (memory.set root c, (segment (entry w b) p todo).filter listed) := by
  induction todo generalizing p q b memory with
  | zero =>
      refine ⟨b, ⟨Frame.refl b, rfl, hlen⟩, ?_⟩
      rw [dropEntries, Heap.set_eq_self hroot]
      rfl
  | succ todo ih =>
      have hpos : 36 ≤ b.size := by omega
      have hrest : 36 + w * (p + 1 + todo) ≤ b.size := by
        rwa [show p + 1 + todo = p + (todo + 1) by omega]
      rw [segment_succ] at hlive ⊢
      rw [List.forall_mem_cons] at hlive
      by_cases hzero : entry w b p = 0
      · -- a zero entry stays where it is, but the length gives it up
        have hframe : Frame b (shorten w b) := shorten_frame hpos
        have hentry : entry w (shorten w b) = entry w b := entry_setLength _
        have hstay : stays sig tableId memory (entry w b p) = true := by simp [stays, hzero]
        have hskip : ¬ listed (entry w b p) = true := by simp [listed, hzero]
        obtain ⟨c, hdropped, hrun⟩ := ih (b := shorten w b) (p := p + 1) (q := q) Heap.set_same
          (by rw [hframe.size]; exact hrest) (length_shorten hlen) (by
            rw [hentry]
            intro address hmem hne
            exact isSome_set (hlive.2 address hmem hne))
        refine ⟨c, ⟨hframe.trans hdropped.frame, ?_, ?_⟩, ?_⟩
        · rw [hdropped.entries, stays_set sig tableId hroot hframe, hentry, sweep, if_pos hstay]
        · rw [hdropped.length, stays_set sig tableId hroot hframe, hentry, segment_succ, List.filter_cons_of_pos hstay,
            List.filter_cons_of_neg hskip]
        · rw [dropEntries_zero hroot hzero, hrun, Heap.set_set, hentry, List.filter_cons_of_neg hskip]
      · obtain ⟨table, htable⟩ := hlive.1 hzero
        have hlisted : listed (entry w b p) = true := by simp [listed, hzero]
        rw [dropEntries_table hroot htable hzero, List.filter_cons_of_pos hlisted]
        by_cases hstay : stays sig tableId memory (entry w b p) = true
        · obtain ⟨c, hdropped, hrun⟩ := ih (p := p + 1) (q := q + 1) hroot hrest
            (by rw [hlen, show q + 1 + todo = q + (todo + 1) by omega]) hlive.2
          refine ⟨c, ⟨hdropped.frame, ?_, ?_⟩, ?_⟩
          · rw [hdropped.entries, sweep, if_pos hstay]
          · rw [hdropped.length, segment_succ, List.filter_cons_of_pos hstay, List.filter_cons_of_pos hlisted,
              List.length_cons, Nat.add_right_comm, Nat.add_assoc q]
          · rw [if_pos hstay, hrun]
            rfl
        · obtain ⟨hmoved, hlength⟩ := moveDown_frame hsize
          have hframe := hmoved.trans (shorten_frame (w := w) (by rw [hmoved.size]; exact hpos))
          have hentry : entry w (shorten w (moveDown w (todo + 1) (36 + w * p) b)) =
              closeGap (entry w b) p (todo + 1) := (entry_setLength _).trans (entry_moveDown _ _)
          have hkeeps := stays_set sig tableId hroot hframe
          have hsegment : segment (closeGap (entry w b) p (todo + 1)) p todo = segment (entry w b) (p + 1) todo :=
            segment_closeGap _ _ _
          obtain ⟨c, hdropped, hrun⟩ := ih (b := shorten w (moveDown w (todo + 1) (36 + w * p) b)) (p := p) (q := q)
            Heap.set_same (by rw [hframe.size, ← Nat.add_assoc] at *; rw [Nat.mul_succ] at hsize; omega)
            (length_shorten (by rw [hlength, hlen]; rfl)) (by
              rw [hentry, hsegment]
              intro address hmem hne
              exact isSome_set (hlive.2 address hmem hne))
          refine ⟨c, ⟨hframe.trans hdropped.frame, ?_, ?_⟩, ?_⟩
          · rw [hdropped.entries, hkeeps, hentry, sweep, if_neg hstay]
          · rw [hdropped.length, hkeeps, hentry, hsegment, segment_succ, List.filter_cons_of_neg hstay]
          · rw [if_neg hstay, hrun, Heap.set_set, hentry, hsegment]
            rfl

theorem entryCount_of_length {n : Nat} (hw : 0 < w) (h : length b = 36 + w * n) : entryCount w b = n := by
  have hlt := length_lt b
  rw [h] at hlt
  have hmod : (36 + w * n + 2 ^ 64 - 36) % 2 ^ 64 = w * n := by omega
  have hn : n < 2 ^ 32 := (Nat.le_mul_of_pos_left n hw).trans_lt (by omega)
  rw [entryCount, h, hmod, Nat.mul_div_cancel_left n hw, Nat.mod_eq_of_lt hn]

theorem dropTable_spec (sig tableId : Nat) {n : Nat} (hw : 0 < w) (hroot : memory root = some b) (hsize : 36 + w * n ≤ b.size)
    (hlen : length b = 36 + w * n)
    (hlive : ∀ address ∈ segment (entry w b) 0 n, address ≠ 0 → ∃ table, memory address = some table) :
    ∃ c, Dropped w sig tableId memory n 0 0 b c ∧
      dropTable w root sig tableId memory = some (memory.set root c, (segment (entry w b) 0 n).filter listed) := by
  rw [dropTable, hroot, Option.bind_eq_bind, Option.bind_some, entryCount_of_length hw hlen]
  exact dropEntries_spec (p := 0) (q := 0) hroot (by rwa [Nat.zero_add]) (by rwa [Nat.zero_add]) hlive

/-! ### What a root lists -/

/-- The entries of a root. -/
def entries (w : Nat) (b : Block) : List Nat := segment (entry w b) 0 ((length b - 36) / w)

/-- The root holds the addresses given, zero entries aside, and its length counts its entries. -/
structure Lists (w : Nat) (b : Block) (addresses : List Nat) : Prop where
  counted : length b = 36 + w * (entries w b).length
  within : length b ≤ b.size
  holds : (entries w b).filter listed = addresses

theorem entries_of_length {n : Nat} (hw : 0 < w) (h : length b = 36 + w * n) :
    entries w b = segment (entry w b) 0 n := by
  rw [entries, h, Nat.add_sub_cancel_left, Nat.mul_div_cancel_left n hw]

/-- Of the entries that stay, no zero one stands in front of a table. -/
def Settled (w sig tableId : Nat) (memory : Heap) (b : Block) : Prop :=
  ((entries w b).filter (stays sig tableId memory)).Pairwise fun a a' => listed a = false → listed a' = false

theorem filter_stays_listed (l : List Nat) :
    (l.filter (stays sig tableId memory)).filter listed =
      (l.filter listed).filter fun address => !named sig tableId memory address := by
  rw [List.filter_filter, List.filter_filter]
  congr 1
  funext address
  by_cases h : address = 0 <;> simp [stays, listed, h]

/-- The entries that are kept and counted: of those that stay, as many as are not zero. -/
def keptEntries (stay : Nat → Bool) (l : List Nat) : List Nat := (l.filter stay).take ((l.filter stay).filter listed).length

theorem length_keptEntries (stay : Nat → Bool) (l : List Nat) :
    (keptEntries stay l).length = ((l.filter stay).filter listed).length := by
  rw [keptEntries, List.length_take, Nat.min_eq_left (List.length_filter_le _ _)]

theorem entries_dropped (hw : 0 < w) (hlen : length b = 36 + w * (entries w b).length)
    (hdropped : Dropped w sig tableId memory (entries w b).length 0 0 b c) :
    entries w c = keptEntries (stays sig tableId memory) (entries w b) ∧
      length c = 36 + w * (entries w c).length := by
  have hold : segment (entry w b) 0 (entries w b).length = entries w b := (entries_of_length hw hlen).symm
  have hnew := hdropped.length
  rw [hold, Nat.zero_add] at hnew
  have hswept := segment_sweep (stays sig tableId memory) (entries w b).length 0 (entry w b)
  rw [hold, ← hdropped.entries] at hswept
  constructor
  · rw [entries_of_length hw hnew, keptEntries, ← take_segment _ _ (List.length_filter_le _ _), hswept]
  · rw [entries_of_length hw hnew, length_segment]
    exact hnew

/-- After a drop the root lists the tables that stay exactly when the zero entries came last. -/
theorem lists_dropped_iff (hw : 0 < w) {addresses : List Nat} (hlists : Lists w b addresses)
    (hdropped : Dropped w sig tableId memory (entries w b).length 0 0 b c) :
    Lists w c (addresses.filter fun address => !named sig tableId memory address) ↔
      Settled w sig tableId memory b := by
  obtain ⟨hnew, hlen⟩ := entries_dropped hw hlists.counted hdropped
  have hshort : length c ≤ length b := by
    rw [hlen, hlists.counted, hnew, length_keptEntries]
    exact Nat.add_le_add_left (Nat.mul_le_mul_left w
      ((List.length_filter_le _ _).trans (List.length_filter_le _ _))) 36
  rw [← hlists.holds, ← filter_stays_listed, Settled, ← filter_take_eq_iff]
  change _ ↔ (keptEntries (stays sig tableId memory) (entries w b)).filter listed = _
  rw [← hnew]
  constructor
  · intro h
    exact h.holds
  · intro h
    exact ⟨hlen, hshort.trans (hlists.within.trans hdropped.frame.size.ge), h⟩

theorem appendEntry_spec (hw : 0 < w) (hnull : root ≠ 0) (hroot : memory root = some b) {addresses : List Nat}
    (hlists : Lists w b addresses) (hroom : length b + w ≤ b.size) (hsize : b.size < 2 ^ 32) {value : Nat}
    (hvalue : value < 256 ^ w) (hlisted : value ≠ 0) :
    ∃ c, Frame b c ∧ Lists w c (addresses ++ [value]) ∧
      appendEntry w root value memory = some (memory.set root c) := by
  have hlen := hlists.counted
  have hold : segment (entry w b) 0 (entries w b).length = entries w b := (entries_of_length hw hlen).symm
  generalize hn : (entries w b).length = n at hlen hold
  have hframe : Frame b (b.store w (length b) value) := frame_store (by omega) hroom
  have hkept : length (b.store w (length b) value) = length b := Block.word_store_outside (Or.inl (by omega))
  have hsucc : length b + w = 36 + w * (n + 1) := by rw [hlen, Nat.mul_succ, Nat.add_assoc]
  have hframe' : Frame b (setLength (b.store w (length b) value) ((length b + w) % 2 ^ 32)) :=
    hframe.trans (frame_setLength (by rw [hframe.size]; omega))
  refine ⟨_, hframe', ?_, ?_⟩
  · rw [Nat.mod_eq_of_lt (by omega)]
    have hnew : length (setLength (b.store w (length b) value) (length b + w)) = 36 + w * (n + 1) := by
      rw [length_setLength (by omega), hsucc]
    have hentry : entry w (setLength (b.store w (length b) value) (length b + w)) =
        Function.update (entry w b) n value := by
      rw [entry_setLength, hlen, entry_store, Nat.mod_eq_of_lt hvalue]
    have hfront : segment (Function.update (entry w b) n value) 0 n = segment (entry w b) 0 n := by
      apply segment_congr
      intro i hi
      exact Function.update_of_ne (by omega) _ _
    have hentries : entries w (setLength (b.store w (length b) value) (length b + w)) =
        entries w b ++ [value] := by
      rw [entries_of_length hw hnew, hentry, segment_succ_last, hfront, hold, Nat.zero_add, Function.update_self]
    constructor
    · rw [hnew, hentries, List.length_append, hn]
      rfl
    · rw [hnew, ← hsucc]
      exact hroom
    · rw [hentries, List.filter_append, hlists.holds]
      simp [listed, hlisted]
  · rw [appendEntry, if_neg hnull, hroot, Option.bind_eq_bind, Option.bind_some]
    simp only [hkept]

end Drop

end BareBoot.Acpi
