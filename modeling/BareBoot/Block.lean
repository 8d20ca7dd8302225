import Mathlib.Logic.Function.Basic
import Mathlib.Data.UInt
import Mathlib.Tactic.Ring

/-! Objects in byte-addressed memory. An object is a block of bytes with a size; words are little-endian.
Bytes behind the size belong to whatever lies there: a read of them is answered, and a write that
reaches them is remembered as an overrun of the block. -/

namespace BareBoot

/-- The little-endian word of `width` bytes at `off`. -/
def wordAt (byte : Nat → UInt8) : Nat → Nat → Nat
  | 0, _ => 0
  | width + 1, off => (byte off).toNat + 256 * wordAt byte width (off + 1)

/-- The bytes of a number, least significant first. -/
def wordByte (value i : Nat) : UInt8 := UInt8.ofNat (value / 256 ^ i)

/-- The same bytes at two places make the same word. -/
theorem wordAt_moved {f g : Nat → UInt8} {width off off' : Nat} (h : ∀ i < width, f (off + i) = g (off' + i)) :
    wordAt f width off = wordAt g width off' := by
  induction width generalizing off off' with
  | zero => rfl
  | succ width ih =>
      have hfirst := h 0 (Nat.succ_pos width)
      rw [Nat.add_zero, Nat.add_zero] at hfirst
      have hrest : wordAt f width (off + 1) = wordAt g width (off' + 1) := by
        apply ih
        intro i hi
        have := h (i + 1) (Nat.succ_lt_succ hi)
        rwa [show off + (i + 1) = off + 1 + i by omega, show off' + (i + 1) = off' + 1 + i by omega] at this
      rw [wordAt, wordAt, hrest, hfirst]

theorem wordAt_congr {f g : Nat → UInt8} {width off : Nat} (h : ∀ i < width, f (off + i) = g (off + i)) :
    wordAt f width off = wordAt g width off :=
  wordAt_moved h

theorem wordAt_lt (f : Nat → UInt8) (width off : Nat) : wordAt f width off < 256 ^ width := by
  induction width generalizing off with
  | zero => exact Nat.one_pos
  | succ width ih =>
      have hbyte := (f off).toNat_lt
      have hrest := ih (off + 1)
      rw [wordAt, Nat.pow_succ]
      omega

theorem wordAt_add (f : Nat → UInt8) (width more off : Nat) :
    wordAt f (width + more) off = wordAt f width off + 256 ^ width * wordAt f more (off + width) := by
  induction width generalizing off with
  | zero => rw [Nat.zero_add, wordAt, Nat.pow_zero, Nat.one_mul, Nat.zero_add, Nat.add_zero]
  | succ width ih =>
      rw [show width + 1 + more = width + more + 1 by omega, wordAt, wordAt, ih (off + 1), Nat.pow_succ',
        show off + 1 + width = off + (width + 1) by omega]
      ring

theorem wordAt_wordByte {f : Nat → UInt8} {width off value : Nat}
    (h : ∀ i < width, f (off + i) = wordByte value i) : wordAt f width off = value % 256 ^ width := by
  induction width generalizing off value with
  | zero => rw [wordAt, Nat.pow_zero, Nat.mod_one]
  | succ width ih =>
      have hfirst : (f off).toNat = value % 256 := by
        have := h 0 (Nat.succ_pos width)
        rw [Nat.add_zero] at this
        rw [this, wordByte, Nat.pow_zero, Nat.div_one]
        rfl
      have hrest : wordAt f width (off + 1) = value / 256 % 256 ^ width := by
        apply ih
        intro i hi
        have := h (i + 1) (Nat.succ_lt_succ hi)
        rw [show off + 1 + i = off + (i + 1) by omega, this, wordByte, wordByte, Nat.pow_succ',
          ← Nat.div_div_eq_div_mul]
      rw [wordAt, hfirst, hrest, Nat.pow_succ', Nat.mod_mul]

/-! ### Blocks -/

structure Block where
  size : Nat
  byte : Nat → UInt8
  /-- Whether a write has gone past the end. -/
  overrun : Bool

namespace Block

variable {b : Block} {off width value : Nat} {src : Nat → UInt8}

/-- Memory just handed out: the content is whatever the pages held. -/
def fresh (size : Nat) (content : Nat → UInt8) : Block := ⟨size, content, false⟩

def write (b : Block) (off count : Nat) (src : Nat → UInt8) : Block where
  size := b.size
  byte := fun a => if off ≤ a ∧ a < off + count then src (a - off) else b.byte a
  overrun := b.overrun || decide (0 < count ∧ b.size < off + count)

def word (b : Block) (width off : Nat) : Nat := wordAt b.byte width off

def store (b : Block) (width off value : Nat) : Block := b.write off width (wordByte value)

@[simp] theorem size_write {count : Nat} : (b.write off count src).size = b.size := rfl

@[simp] theorem size_store : (b.store width off value).size = b.size := rfl

theorem byte_write_outside {count a : Nat} (h : a < off ∨ off + count ≤ a) :
    (b.write off count src).byte a = b.byte a := by
  unfold write
  exact if_neg (by omega)

theorem byte_write_inside {count i : Nat} (h : i < count) :
    (b.write off count src).byte (off + i) = src i := by
  unfold write
  dsimp only
  rw [if_pos (by omega), Nat.add_sub_cancel_left]

theorem overrun_write {count : Nat} (h : off + count ≤ b.size) :
    (b.write off count src).overrun = b.overrun := by
  unfold write
  rw [decide_eq_false (by omega), Bool.or_false]

theorem overrun_write_iff {count : Nat} :
    (b.write off count src).overrun = false ↔ b.overrun = false ∧ (0 < count → off + count ≤ b.size) := by
  unfold write
  dsimp only
  rw [Bool.or_eq_false_iff, decide_eq_false_iff_not]
  exact and_congr_right fun _ => by omega

theorem overrun_store_iff (h : 0 < width) :
    (b.store width off value).overrun = false ↔ b.overrun = false ∧ off + width ≤ b.size :=
  overrun_write_iff.trans (and_congr_right fun _ => ⟨fun hin => hin h, fun hin _ => hin⟩)

theorem overrun_store (h : off + width ≤ b.size) : (b.store width off value).overrun = b.overrun :=
  overrun_write h

theorem word_lt (b : Block) (width off : Nat) : b.word width off < 256 ^ width := wordAt_lt _ _ _

theorem word_write_outside {count len at' : Nat} (h : at' + len ≤ off ∨ off + count ≤ at') :
    (b.write off count src).word len at' = b.word len at' := by
  apply wordAt_congr
  intro i hi
  exact byte_write_outside (by omega)

theorem word_store_outside {len at' : Nat} (h : at' + len ≤ off ∨ off + width ≤ at') :
    (b.store width off value).word len at' = b.word len at' :=
  word_write_outside h

theorem word_store_self : (b.store width off value).word width off = value % 256 ^ width := by
  apply wordAt_wordByte
  intro i hi
  exact byte_write_inside hi

theorem word_store_of_lt (h : value < 256 ^ width) : (b.store width off value).word width off = value := by
  rw [word_store_self, Nat.mod_eq_of_lt h]

/-- The two blocks hold the same bytes at the positions given. -/
def Agrees (positions : Nat → Prop) (b c : Block) : Prop := ∀ a, positions a → c.byte a = b.byte a

theorem Agrees.refl (positions : Nat → Prop) (b : Block) : b.Agrees positions b := fun _ _ => rfl

theorem Agrees.trans {positions : Nat → Prop} {b c d : Block} (h : b.Agrees positions c)
    (h' : c.Agrees positions d) : b.Agrees positions d :=
  fun a ha => (h' a ha).trans (h a ha)

theorem Agrees.word {positions : Nat → Prop} {b c : Block} (h : b.Agrees positions c)
    (hin : ∀ i < width, positions (off + i)) : c.word width off = b.word width off :=
  wordAt_congr fun i hi => h _ (hin i hi)

theorem agrees_write {positions : Nat → Prop} {count : Nat}
    (h : ∀ a, positions a → a < off ∨ off + count ≤ a) : b.Agrees positions (b.write off count src) :=
  fun a ha => byte_write_outside (h a ha)

theorem agrees_store {positions : Nat → Prop} (h : ∀ a, positions a → a < off ∨ off + width ≤ a) :
    b.Agrees positions (b.store width off value) :=
  agrees_write h

/-! ### Checksums -/

/-- The sum of the first `count` bytes. -/
def sum8 (b : Block) : Nat → UInt8
  | 0 => 0
  | count + 1 => b.sum8 count + b.byte count

/-- The byte at `field` is set so that the first `count` bytes sum to zero. -/
def checksum (b : Block) (field count : Nat) : Block :=
  let cleared := b.store 1 field 0
  cleared.store 1 field (256 - (cleared.sum8 count).toNat)

theorem sum8_congr {c : Block} {count : Nat} (h : ∀ a < count, c.byte a = b.byte a) : c.sum8 count = b.sum8 count := by
  induction count with
  | zero => rfl
  | succ count ih =>
      rw [sum8, sum8, ih fun a ha => h a (Nat.lt_succ_of_lt ha), h count (Nat.lt_succ_self count)]

theorem byte_store_one {field : Nat} : (b.store 1 field value).byte field = UInt8.ofNat value := by
  have hfirst : (b.store 1 field value).byte (field + 0) = wordByte value 0 := byte_write_inside Nat.one_pos
  rwa [Nat.add_zero, wordByte, Nat.pow_zero, Nat.div_one] at hfirst

theorem sum8_store_one {field count : Nat} (h : field < count) :
    (b.store 1 field value).sum8 count = b.sum8 count - b.byte field + UInt8.ofNat value := by
  induction count with
  | zero => omega
  | succ count ih =>
      rw [sum8, sum8]
      by_cases hlast : field = count
      · subst hlast
        have hrest : (b.store 1 field value).sum8 field = b.sum8 field :=
          sum8_congr fun a ha => byte_write_outside (Or.inl ha)
        rw [byte_store_one, hrest]
        grind
      · have hbyte : (b.store 1 field value).byte count = b.byte count := byte_write_outside (by omega)
        rw [ih (by omega), hbyte]
        grind

/-- With the byte at `field` cleared, `total` bytes sum to what `count` bytes do; to zero when they do not reach
that byte. -/
def SumsAlike (b : Block) (field count total : Nat) : Prop :=
  (b.store 1 field 0).sum8 total = if field < total then (b.store 1 field 0).sum8 count else 0

instance {field count total : Nat} : Decidable (b.SumsAlike field count total) :=
  inferInstanceAs (Decidable (_ = _))

/-- A checksum over `count` bytes is one over `total` bytes exactly when the bytes in between sum to zero. -/
theorem sum8_checksum_iff {field count total : Nat} :
    (b.checksum field count).sum8 total = 0 ↔ b.SumsAlike field count total := by
  unfold checksum SumsAlike
  have hsum : UInt8.ofNat (256 - ((b.store 1 field 0).sum8 count).toNat) = 0 - (b.store 1 field 0).sum8 count := by
    rw [← UInt8.toNat_inj, UInt8.toNat_sub]
    simp
  have hzero : UInt8.ofNat 0 = 0 := rfl
  by_cases h : field < total
  · rw [if_pos h, sum8_store_one h, byte_store_one, hsum, hzero]
    constructor
    · intro heq
      grind
    · intro heq
      grind
  · rw [if_neg h]
    have hrest : ((b.store 1 field 0).store 1 field (256 - ((b.store 1 field 0).sum8 count).toNat)).sum8 total =
        (b.store 1 field 0).sum8 total := sum8_congr fun a ha => byte_write_outside (by omega)
    rw [hrest]

theorem sumsAlike_self {field count : Nat} (h : field < count) : b.SumsAlike field count count := by
  rw [SumsAlike, if_pos h]

theorem sum8_checksum {field count : Nat} (h : field < count) : (b.checksum field count).sum8 count = 0 :=
  sum8_checksum_iff.mpr (sumsAlike_self h)

theorem overrun_checksum_iff {field count : Nat} :
    (b.checksum field count).overrun = false ↔ b.overrun = false ∧ field < b.size := by
  unfold checksum
  rw [overrun_store_iff Nat.one_pos, overrun_store_iff Nat.one_pos, size_store, and_assoc, and_self]
  exact Iff.rfl

theorem overrun_checksum {field count : Nat} (h : field < b.size) : (b.checksum field count).overrun = b.overrun :=
  (overrun_store h).trans (overrun_store h)

theorem byte_checksum {field count a : Nat} (h : a ≠ field) : (b.checksum field count).byte a = b.byte a := by
  unfold checksum
  rw [store, byte_write_outside (by omega), store, byte_write_outside (by omega)]

theorem word_checksum {field count : Nat} (h : off + width ≤ field ∨ field < off) :
    (b.checksum field count).word width off = b.word width off := by
  apply wordAt_congr
  intro i hi
  exact byte_checksum (by omega)

end Block

/-! ### Heaps -/

/-- The live objects by their base address. -/
abbrev Heap := Nat → Option Block

namespace Heap

variable {memory : Heap} {a c : Nat} {b : Block}

def set (memory : Heap) (a : Nat) (b : Block) : Heap := Function.update memory a (some b)

@[simp] theorem set_same : memory.set a b a = some b := Function.update_self _ _ _

theorem set_other (h : c ≠ a) : memory.set a b c = memory c := Function.update_of_ne h _ _

@[simp] theorem set_set {b' : Block} : (memory.set a b).set a b' = memory.set a b' := Function.update_idem _ _ _

/-- Keep an object unless a write has left it: what such a write does is not defined. -/
def put (memory : Heap) (a : Nat) (b : Block) : Option Heap := if b.overrun then none else some (memory.set a b)

theorem put_eq_some {memory' : Heap} : memory.put a b = some memory' ↔ b.overrun = false ∧ memory' = memory.set a b := by
  unfold put
  by_cases h : b.overrun = true
  · simp [h]
  · simp [h, eq_comm]

theorem put_eq_none : memory.put a b = none ↔ b.overrun = true := by
  unfold put
  by_cases h : b.overrun = true
  · simp [h]
  · simp [h]

theorem set_eq_self (h : memory a = some b) : memory.set a b = memory := by
  rw [set, ← h, Function.update_eq_self]

end Heap

end BareBoot
