import BareBoot.PlistWriter

/-! What the writer leaves in its buffer: the text of the tree when it fits, and otherwise a part of it
that ends where the room does. Every function of the writer appends one text, and the texts of functions
called one after the other are joined. -/

namespace BareBoot.Plist

open Exec

/-! ### Room in the buffer -/

/-- The position lies within the buffer, and the buffer within its memory. -/
structure PlBuf.Valid (b : PlBuf) : Prop where
  pos_le : b.pos ≤ b.len
  len_le : b.len ≤ b.dat.length
  len_lt : b.len < 2 ^ 32

def PlBuf.room (b : PlBuf) : Nat := b.len - b.pos

section Room
variable {b : PlBuf} {datum : Bytes}

theorem overwrite_nil (dat : Bytes) (pos : Nat) : overwrite dat pos [] = dat := by
  simp [overwrite]

theorem length_overwrite {dat : Bytes} {pos : Nat} (h : pos + datum.length ≤ dat.length) :
    (overwrite dat pos datum).length = dat.length := by
  simp only [overwrite, List.length_append, List.length_take, List.length_drop]
  omega

theorem overwrite_overwrite {dat a c : Bytes} {pos : Nat} (h : pos + (a.length + c.length) ≤ dat.length) :
    overwrite (overwrite dat pos a) (pos + a.length) c = overwrite dat pos (a ++ c) := by
  have htake : (dat.take pos).length = pos := by
    rw [List.length_take]
    omega
  have hfront : (dat.take pos ++ a).length = pos + a.length := by rw [List.length_append, htake]
  have hbefore : (overwrite dat pos a).take (pos + a.length) = dat.take pos ++ a := by
    rw [overwrite, List.take_append_of_le_length (by omega), List.take_of_length_le (by omega)]
  have hbehind : (overwrite dat pos a).drop (pos + a.length + c.length) = dat.drop (pos + (a ++ c).length) := by
    rw [overwrite, List.drop_append, List.drop_eq_nil_of_le (by omega), List.nil_append, hfront, List.drop_drop,
      List.length_append]
    congr 1
    omega
  rw [overwrite, hbefore, hbehind, overwrite]
  simp only [List.append_assoc]

theorem PlBuf.Valid.pos_put (h : b.Valid) (hroom : datum.length ≤ b.room) :
    (b.put datum).pos = b.pos + datum.length := by
  have h1 := h.pos_le
  have h2 := h.len_lt
  rw [PlBuf.room] at hroom
  exact Nat.mod_eq_of_lt (by omega)

theorem PlBuf.Valid.put (h : b.Valid) (hroom : datum.length ≤ b.room) : (b.put datum).Valid := by
  have hpos := h.pos_put hroom
  have h1 := h.pos_le
  have h2 := h.len_le
  rw [PlBuf.room] at hroom
  refine ⟨?_, ?_, h.len_lt⟩
  · rw [hpos]
    show b.pos + datum.length ≤ b.len
    omega
  · show b.len ≤ (overwrite b.dat b.pos datum).length
    rwa [length_overwrite (by omega)]

theorem PlBuf.Valid.room_put (h : b.Valid) (hroom : datum.length ≤ b.room) :
    (b.put datum).room = b.room - datum.length := by
  rw [PlBuf.room, h.pos_put hroom]
  show b.len - (b.pos + datum.length) = b.len - b.pos - datum.length
  omega

theorem PlBuf.Valid.put_nil (h : b.Valid) : b.put [] = b := by
  have hpos : addU32 b.pos ([] : Bytes).length = b.pos := by
    have h1 := h.pos_le
    have h2 := h.len_lt
    exact Nat.mod_eq_of_lt (by simp; omega)
  rw [PlBuf.put, overwrite_nil, hpos]

theorem PlBuf.Valid.put_put {a c : Bytes} (h : b.Valid) (hroom : a.length + c.length ≤ b.room) :
    (b.put a).put c = b.put (a ++ c) := by
  have hfirst : a.length ≤ b.room := by omega
  have hboth : (a ++ c).length ≤ b.room := by rwa [List.length_append]
  have hpos := h.pos_put hfirst
  have hsecond : c.length ≤ (b.put a).room := by
    rw [h.room_put hfirst]
    omega
  have hpos' := (h.put hfirst).pos_put hsecond
  have hpos'' := h.pos_put hboth
  have h2 := h.len_le
  have h1 := h.pos_le
  rw [PlBuf.room] at hroom
  have hdat : overwrite (overwrite b.dat b.pos a) (addU32 b.pos a.length) c = overwrite b.dat b.pos (a ++ c) := by
    have hplace : addU32 b.pos a.length = b.pos + a.length := hpos
    rw [hplace]
    exact overwrite_overwrite (by omega)
  have hend : addU32 (addU32 b.pos a.length) c.length = addU32 b.pos (a ++ c).length := by
    have hleft : addU32 (addU32 b.pos a.length) c.length = (b.put a).pos + c.length := hpos'
    have hright : addU32 b.pos (a ++ c).length = b.pos + (a ++ c).length := hpos''
    rw [hleft, hright, hpos, List.length_append]
    omega
  show PlBuf.mk (overwrite (overwrite b.dat b.pos a) (addU32 b.pos a.length) c) b.len
    (addU32 (addU32 b.pos a.length) c.length) = PlBuf.mk _ _ _
  rw [hdat, hend]

theorem PlBuf.Valid.hasNum (h : b.Valid) {num : Nat} : plBufHasNum b num = decide (num ≤ b.room) := by
  have h1 := h.pos_le
  have h2 := h.len_lt
  have hroom : (b.len + (2 ^ 32 - b.pos)) % 2 ^ 32 = b.room := by
    rw [PlBuf.room]
    omega
  rw [plBufHasNum, hroom]

end Room

/-! ### Functions that append a text -/

/-- There is room for the text, and the codes of the data on the way are allocated. -/
def CanAppend (env : Env) (b : Writer) (text : Bytes) (codes : Nat) : Prop :=
  text.length ≤ b.room ∧ ∀ i < codes, env.alloc (b.allocs + i) = true

/-- The run appends the text if it can, allocating so many codes, and refuses otherwise. -/
def Appends (env : Env) (x : WriterM Unit) (text : Bytes) (codes : Nat) : Prop :=
  ∀ b : Writer, b.toPlBuf.Valid →
    (CanAppend env b text codes → (x b).result = .ok () ∧ (x b).state.toPlBuf = b.toPlBuf.put text ∧
      (x b).state.allocs = b.allocs + codes) ∧
      (¬ CanAppend env b text codes → (x b).result = .error .refused ∧
        ∃ part, part <+: text ∧ part.length ≤ b.room ∧ (x b).state.toPlBuf = b.toPlBuf.put part)

variable {env : Env}

theorem canAppend_append {b b' : Writer} {s t : Bytes} {m n : Nat} (h : CanAppend env b s m)
    (hroom : b'.room = b.room - s.length) (hallocs : b'.allocs = b.allocs + m) :
    CanAppend env b (s ++ t) (m + n) ↔ CanAppend env b' t n := by
  obtain ⟨hfits, hcodes⟩ := h
  unfold CanAppend
  rw [List.length_append, hroom, hallocs]
  constructor
  · rintro ⟨hlen, hall⟩
    refine ⟨by omega, ?_⟩
    intro i hi
    rw [Nat.add_assoc]
    exact hall (m + i) (by omega)
  · rintro ⟨hlen, hall⟩
    refine ⟨by omega, ?_⟩
    intro i hi
    by_cases hfirst : i < m
    · exact hcodes i hfirst
    · have hsecond := hall (i - m) (by omega)
      rwa [Nat.add_assoc, Nat.add_sub_cancel' (by omega)] at hsecond

theorem CanAppend.left {b : Writer} {s t : Bytes} {m n : Nat} (h : CanAppend env b (s ++ t) (m + n)) : CanAppend env b s m := by
  obtain ⟨hlen, hall⟩ := h
  rw [List.length_append] at hlen
  exact ⟨by omega, fun i hi => hall i (by omega)⟩

theorem appends_pure : Appends env (pure ()) [] 0 := by
  intro b hb
  constructor
  · exact fun _ => ⟨rfl, hb.put_nil.symm, rfl⟩
  · exact fun h => absurd ⟨Nat.zero_le _, fun i hi => absurd hi (Nat.not_lt_zero i)⟩ h

theorem Appends.bind {x y : WriterM Unit} {s t : Bytes} {m n : Nat} (hx : Appends env x s m) (hy : Appends env y t n) :
    Appends env (do x; y) (s ++ t) (m + n) := by
  intro b hb
  obtain ⟨hfits, hfull⟩ := hx b hb
  by_cases hcan : CanAppend env b s m
  · obtain ⟨hresult, hstate, hallocs⟩ := hfits hcan
    have hroom := hcan.1
    rcases hrun : x b with ⟨_ | _, b', l⟩ <;> rw [hrun] at hresult hstate hallocs
    · cases hresult
    · have hvalid : b'.toPlBuf.Valid := by
        rw [show b'.toPlBuf = _ from hstate]
        exact hb.put hroom
      have hleft : b'.room = b.room - s.length := by
        rw [show b'.toPlBuf = _ from hstate]
        exact hb.room_put hroom
      obtain ⟨hfits', hfull'⟩ := hy b' hvalid
      have hboth : (do x; y : WriterM Unit) b = (y b').after l := bind_of_ok hrun _
      rw [hboth, canAppend_append hcan hleft hallocs]
      constructor
      · intro hcan'
        obtain ⟨hresult', hstate', hallocs'⟩ := hfits' hcan'
        have hlen := hcan'.1
        refine ⟨hresult', hstate'.trans ?_, hallocs'.trans ?_⟩
        · rw [show b'.toPlBuf = _ from hstate]
          exact hb.put_put (by omega)
        · rw [show b'.allocs = _ from hallocs, Nat.add_assoc]
      · intro hcan'
        obtain ⟨hresult', part, hpart, hle, hstate'⟩ := hfull' hcan'
        refine ⟨hresult', s ++ part, List.prefix_append_right_inj s |>.2 hpart, ?_, hstate'.trans ?_⟩
        · rw [List.length_append]
          omega
        · rw [show b'.toPlBuf = _ from hstate]
          exact hb.put_put (by omega)
  · obtain ⟨hresult, part, hpart, hle, hstate⟩ := hfull hcan
    rcases hrun : x b with ⟨e | _, b', l⟩ <;> rw [hrun] at hresult hstate
    · cases hresult
      have hboth : (do x; y : WriterM Unit) b = ⟨.error .refused, b', l⟩ := bind_of_error hrun _
      rw [hboth]
      exact ⟨fun h => absurd h.left hcan, fun _ => ⟨rfl, part, hpart.trans (List.prefix_append s t), hle, hstate⟩⟩
    · cases hresult

theorem asInt_of_lt {n : Nat} (h : n < 2 ^ 31) : asInt n = n := by
  have hmod : n % 2 ^ 32 = n := Nat.mod_eq_of_lt (by omega)
  rw [asInt, hmod, if_pos h]

theorem asUnsigned_of_lt {n : Nat} (h : n < 2 ^ 31) : asUnsigned n = n := by
  rw [asUnsigned]
  omega

/-- Appending, with the result as the code has it. -/
theorem plAppendBytes_run {datum : Bytes} (h : datum.length < 2 ^ 31) {b : Writer} (hb : b.toPlBuf.Valid) :
    plAppendBytes datum (asInt datum.length) b =
      if datum.length ≤ b.room then ⟨.ok true, { b with toPlBuf := b.toPlBuf.put datum }, []⟩
      else ⟨.ok false, b, []⟩ := by
  rw [plAppendBytes, asInt_of_lt h]
  by_cases hzero : datum.length = 0
  · have hnil : datum = [] := List.length_eq_zero_iff.1 hzero
    subst hnil
    have hroom : ([] : Bytes).length ≤ b.room := Nat.zero_le _
    rw [if_pos (by simp), if_pos hroom, hb.put_nil]
    rfl
  · rw [if_neg (by omega), get_bind_apply, hb.hasNum, asUnsigned_of_lt h]
    by_cases hroom : datum.length ≤ b.room
    · rw [if_pos hroom, if_pos (by simpa using hroom), List.take_of_length_le (Nat.le_refl _)]
      rfl
    · rw [if_neg hroom, if_neg (by simpa using hroom)]
      rfl

/-- A text without codes can be appended where there is room. -/
theorem canAppend_zero {b : Writer} {text : Bytes} : CanAppend env b text 0 ↔ text.length ≤ b.room :=
  and_iff_left fun i hi => absurd hi (Nat.not_lt_zero i)

theorem appends_append {datum : Bytes} (h : datum.length < 2 ^ 31) : Appends env (append datum) datum 0 := by
  intro b hb
  have hrun := plAppendBytes_run h hb
  rw [canAppend_zero]
  by_cases hroom : datum.length ≤ b.room
  · rw [if_pos hroom] at hrun
    have happend : append datum b = ⟨.ok (), { b with toPlBuf := b.toPlBuf.put datum }, []⟩ := by
      rw [append, bind_of_ok hrun, if_pos rfl]
      rfl
    rw [happend]
    exact ⟨fun _ => ⟨rfl, rfl, rfl⟩, fun h => absurd hroom h⟩
  · rw [if_neg hroom] at hrun
    have happend : append datum b = ⟨.error .refused, b, []⟩ := by
      rw [append, bind_of_ok hrun, if_neg Bool.false_ne_true]
      rfl
    rw [happend]
    exact ⟨fun h => absurd h hroom, fun _ => ⟨rfl, [], List.nil_prefix, Nat.zero_le _, hb.put_nil.symm⟩⟩

/-- The bytes of a datum that are appended: none of a datum too long for an `int`. -/
def shown (datum : Bytes) : Bytes := if datum.length < 2 ^ 31 then datum else []

theorem shown_of_lt {datum : Bytes} (h : datum.length < 2 ^ 31) : shown datum = datum := if_pos h

theorem plAppendBytes_wide {datum : Bytes} (h : 2 ^ 31 ≤ datum.length) (h' : datum.length < 2 ^ 32) (b : Writer) :
    plAppendBytes datum (asInt datum.length) b = ⟨.ok true, b, []⟩ := by
  have hneg : asInt datum.length < 1 := by
    rw [asInt, Nat.mod_eq_of_lt h', if_neg (by omega)]
    omega
  rw [plAppendBytes, if_pos hneg]
  rfl

theorem appends_shown {datum : Bytes} (h : datum.length < 2 ^ 32) : Appends env (append datum) (shown datum) 0 := by
  by_cases hshort : datum.length < 2 ^ 31
  · rw [shown_of_lt hshort]
    exact appends_append hshort
  · have hnone : append datum = pure () := by
      funext b
      rw [append, bind_of_ok (plAppendBytes_wide (Nat.le_of_not_lt hshort) h b), if_pos rfl]
      rfl
    rw [hnone, shown, if_neg hshort]
    exact appends_pure

/-! ### Tags and nodes -/

theorem appends_appendIf (c : Bool) {datum : Bytes} (h : datum.length < 2 ^ 31) :
    Appends env (appendIf c datum) (if c then datum else []) 0 := by
  cases c
  · exact appends_pure
  · exact appends_append h

theorem appends_indent (indent : Nat) : Appends env (plIndentXml indent) (indentText indent) 0 := by
  induction indent with
  | zero => exact appends_pure
  | succ indent ih => exact (appends_append (by decide)).bind ih

theorem appends_tag (indent : Nat) {name : Bytes} (hname : name.length < 2 ^ 31) (nl tlr : Bool) :
    Appends env (plNodeTagToXml indent name nl tlr) (tagText indent name nl tlr) 0 :=
  (appends_indent indent).bind ((appends_append (by decide)).bind ((appends_appendIf tlr (by decide)).bind
    ((appends_append hname).bind ((appends_append (by decide)).bind (appends_appendIf nl (by decide))))))

theorem appends_emptyTag (indent : Nat) {name : Bytes} (hname : name.length < 2 ^ 31) :
    Appends env (plEmptyNodeTagToXml indent name true) (emptyTagText indent name) 0 :=
  (appends_indent indent).bind ((appends_append (by decide)).bind ((appends_append hname).bind
    ((appends_append (by decide)).bind (appends_appendIf true (by decide)))))

/-- What is written between two texts without codes. -/
theorem Appends.between {x y z : WriterM Unit} {s t u : Bytes} {n : Nat} (hy : Appends env y t n)
    (hx : Appends env x s 0) (hz : Appends env z u 0) : Appends env (do x; y; z) (s ++ (t ++ u)) n := by
  have h := hx.bind (hy.bind hz)
  rwa [Nat.add_zero, Nat.zero_add] at h

/-- An element whose text is written by `x` between its tags. -/
theorem appends_element {name body : Bytes} {x : WriterM Unit} {n : Nat} (hname : name.length < 2 ^ 31)
    (hx : Appends env x body n) (indent : Nat) :
    Appends env (do plNodeTagToXml indent name false false; x; plNodeTagToXml 0 name true true)
      (textElement name body indent) n :=
  hx.between (appends_tag indent hname false false) (appends_tag 0 hname true true)

/-- Writers, the texts they append and the codes they allocate, one for one. -/
inductive AppendsAll (env : Env) : List (Nat → WriterM Unit) → List (Nat → Bytes) → List Nat → Prop
  | nil : AppendsAll env [] [] []
  | cons {item : Nat → WriterM Unit} {text : Nat → Bytes} {n : Nat} {items : List (Nat → WriterM Unit)}
      {texts : List (Nat → Bytes)} {codes : List Nat} (hitem : ∀ indent, Appends env (item indent) (text indent) n)
      (hitems : AppendsAll env items texts codes) :
      AppendsAll env (item :: items) (text :: texts) (n :: codes)

theorem AppendsAll.length_eq {items : List (Nat → WriterM Unit)} {texts : List (Nat → Bytes)} {codes : List Nat}
    (h : AppendsAll env items texts codes) : items.length = texts.length ∧ codes.length = texts.length := by
  induction h with
  | nil => exact ⟨rfl, rfl⟩
  | cons _ _ ih => exact ⟨congrArg Nat.succ ih.1, congrArg Nat.succ ih.2⟩

theorem appends_items {items : List (Nat → WriterM Unit)} {texts : List (Nat → Bytes)} {codes : List Nat}
    (h : AppendsAll env items texts codes) (indent : Nat) :
    Appends env (plItemsToXml indent items) (texts.map fun text => text indent).flatten codes.sum := by
  induction h with
  | nil => exact appends_pure
  | cons hitem _ ih => exact (hitem indent).bind ih

theorem appends_bag {items : List (Nat → WriterM Unit)} {texts : List (Nat → Bytes)} {codes : List Nat} {name : Bytes}
    (h : AppendsAll env items texts codes) (hname : name.length < 2 ^ 31) (indent : Nat) :
    Appends env (plBagToXml name items indent) (bagText name texts indent) codes.sum := by
  obtain ⟨hitems, hcodes⟩ := h.length_eq
  unfold plBagToXml bagText
  rw [hitems]
  by_cases hempty : texts.length = 0
  · have hnil : codes = [] := List.length_eq_zero_iff.1 (hcodes.trans hempty)
    rw [if_pos hempty, if_pos hempty, hnil]
    exact appends_emptyTag indent hname
  · rw [if_neg hempty, if_neg hempty]
    exact (appends_items h (indent + 1)).between (appends_tag indent hname true false)
      (appends_tag indent hname true true)

theorem length_base64EncodeBlock (step : EncodeStep) (result : Nat) (idat : Bytes) :
    idat.length ≤ (base64EncodeBlock step result idat).1.length := by
  induction idat generalizing step result with
  | nil => simp
  | cons c idat ih =>
      cases step <;> simp only [base64EncodeBlock, List.length_cons]
      · exact Nat.succ_le_succ (ih _ _)
      · exact Nat.succ_le_succ (ih _ _)
      · exact Nat.le_succ_of_le (Nat.succ_le_succ (ih _ _))

/-- Three bytes make four characters; what a step still owes is counted in thirds. -/
theorem length_base64EncodeBlock_le (step : EncodeStep) (result : Nat) (idat : Bytes) :
    3 * (base64EncodeBlock step result idat).1.length +
        3 * (base64EncodeBlockend (base64EncodeBlock step result idat).2).length ≤
      4 * idat.length + (match step with | .A => 8 | .B => 9 | .C => 10) := by
  induction idat generalizing step result with
  | nil => cases step <;> simp [base64EncodeBlock, base64EncodeBlockend]
  | cons c idat ih =>
      cases step <;> simp only [base64EncodeBlock, List.length_cons]
      · have := ih .B (c.toNat % 4 * 16)
        simp only at this
        omega
      · have := ih .C (c.toNat % 16 * 4)
        simp only at this
        omega
      · have := ih .A (c.toNat % 64)
        simp only at this
        omega

/-- The code of a datum whose length is an `int` has a length of 32 bits. -/
theorem length_base64Encode_lt {idat : Bytes} (h : idat.length < 2 ^ 31) :
    (base64Encode idat).length < 2 ^ 32 := by
  have hlen := length_base64EncodeBlock_le .A 0 idat
  rw [base64Encode, List.length_append]
  simp only at hlen
  omega

theorem length_le_base64Encode (idat : Bytes) : idat.length ≤ (base64Encode idat).length := by
  rw [base64Encode, List.length_append]
  exact Nat.le_add_right_of_le (length_base64EncodeBlock .A 0 idat)

theorem plb64encode_run {idat : Bytes} (h : idat.length < 2 ^ 31) (b : Writer) :
    plb64encode env idat b =
      if env.alloc b.allocs = true then
        ⟨.ok (base64Encode idat), { b with allocs := b.allocs + 1 }, [.allocated .datum]⟩
      else ⟨.error .refused, { b with allocs := b.allocs + 1 }, []⟩ := by
  have hsize : ((idat.length + 2) % 2 ^ 32 / 3 + 1) * 4 % 2 ^ 32 ≠ 0 := by omega
  rw [plb64encode, if_neg hsize]
  by_cases halloc : env.alloc b.allocs = true
  · have hcode : allocateCode env b = ⟨.ok true, { b with allocs := b.allocs + 1 }, [.allocated .datum]⟩ := by
      rw [allocateCode, get_bind_apply, modify_bind_apply, if_pos halloc]
      rfl
    rw [bind_of_ok hcode, if_pos rfl, if_pos h, if_pos halloc]
    rfl
  · have hcode : allocateCode env b = ⟨.ok false, { b with allocs := b.allocs + 1 }, []⟩ := by
      rw [allocateCode, get_bind_apply, modify_bind_apply, if_neg halloc]
      rfl
    rw [bind_of_ok hcode, if_neg Bool.false_ne_true, if_neg halloc]
    rfl

/-- The codes a datum needs. -/
def dataCodes (datval : Bytes) : Nat := if datval.length > 0 then 1 else 0

theorem canAppend_one {b : Writer} {text : Bytes} :
    CanAppend env b text 1 ↔ text.length ≤ b.room ∧ env.alloc b.allocs = true := by
  unfold CanAppend
  constructor
  · rintro ⟨hlen, hall⟩
    exact ⟨hlen, hall 0 Nat.one_pos⟩
  · rintro ⟨hlen, halloc⟩
    refine ⟨hlen, ?_⟩
    intro i hi
    rwa [Nat.lt_one_iff.1 hi]

/-- The code of a datum, as far as it is appended. -/
theorem appends_code {datval : Bytes} (h : datval.length < 2 ^ 31) :
    Appends env (appendCode env datval) (if datval.length > 0 then shown (base64Encode datval) else [])
      (dataCodes datval) := by
  unfold appendCode dataCodes
  by_cases hpos : datval.length > 0
  · rw [if_pos hpos, if_pos hpos, if_pos hpos]
    intro b hb
    have hencode := @plb64encode_run env datval h b
    rw [canAppend_one]
    by_cases halloc : env.alloc b.allocs = true
    · rw [if_pos halloc] at hencode
      rw [bind_of_ok hencode]
      by_cases hshort : (base64Encode datval).length < 2 ^ 31
      · have hrun := plAppendBytes_run (b := { b with allocs := b.allocs + 1 }) hshort hb
        rw [shown_of_lt hshort]
        by_cases hroom : (base64Encode datval).length ≤ b.room
        · rw [if_pos hroom] at hrun
          rw [bind_of_ok hrun, emit_bind_apply, if_pos rfl]
          exact ⟨fun _ => ⟨rfl, rfl, rfl⟩, fun h => absurd ⟨hroom, halloc⟩ h⟩
        · rw [if_neg hroom] at hrun
          rw [bind_of_ok hrun, emit_bind_apply, if_neg Bool.false_ne_true]
          exact ⟨fun h => absurd h.1 hroom, fun _ => ⟨rfl, [], List.nil_prefix, Nat.zero_le _, hb.put_nil.symm⟩⟩
      · have hrun := plAppendBytes_wide (Nat.le_of_not_lt hshort) (length_base64Encode_lt h)
          { b with allocs := b.allocs + 1 }
        rw [shown, if_neg hshort, bind_of_ok hrun, emit_bind_apply, if_pos rfl]
        exact ⟨fun _ => ⟨rfl, hb.put_nil.symm, rfl⟩, fun h => absurd ⟨Nat.zero_le _, halloc⟩ h⟩
    · rw [if_neg halloc] at hencode
      rw [bind_of_error hencode]
      exact ⟨fun h => absurd h.2 halloc, fun _ => ⟨rfl, [], List.nil_prefix, Nat.zero_le _, hb.put_nil.symm⟩⟩
  · rw [if_neg hpos, if_neg hpos, if_neg hpos]
    exact appends_pure

/-- The label whose text is written for a label: texts too long for an `int` are left out. -/
def Label.written : Label → Label
  | .key datval => .key (shown datval)
  | .string datval => .string (shown datval)
  | .data datval => .data (if (base64Encode datval).length < 2 ^ 31 then datval else [])
  | label => label

/-- The `unsigned int` a node counts its bytes with. -/
def Label.size : Label → Nat
  | .key datval | .string datval | .data datval | .date datval => datval.length
  | _ => 0

/-- A datum `_plb64encode` can take the length of. -/
def Label.Encodes (label : Label) : Prop := ∀ datval, label = .data datval → datval.length < 2 ^ 31

theorem length_plint2str_lt (v : Int64) : (plint2str v).length < 2 ^ 31 := by
  have := length_plint2str_le v
  omega

theorem appends_str {name datval : Bytes} (hname : name.length < 2 ^ 31) (h : datval.length < 2 ^ 32)
    (indent : Nat) : Appends env (plStrToXml name datval indent) (textElement name (shown datval) indent) 0 := by
  refine appends_element hname ?_ indent
  by_cases hpos : datval.length > 0
  · rw [decide_eq_true hpos]
    exact appends_shown h
  · have hnil : datval = [] := List.length_eq_zero_iff.1 (by omega)
    rw [hnil]
    exact appends_pure

/-- The codes allocated for a node, given those for the nodes it holds. -/
def nodeCodes (label : Label) (items : List Nat) : Nat :=
  match label with
  | .dict | .array => items.sum
  | .key _ => items.headD 0
  | .data datval => dataCodes datval
  | _ => 0

def itemCodes : Forest Label → List Nat
  | .nil => []
  | .cons label kids next => nodeCodes label (itemCodes kids) :: itemCodes next

theorem appends_node {label : Label} (hsize : label.size < 2 ^ 32) (hencodes : label.Encodes)
    {items : List (Nat → WriterM Unit)} {texts : List (Nat → Bytes)} {codes : List Nat}
    (hitems : AppendsAll env items texts codes) (indent : Nat) :
    Appends env (plNode2Xml env label items indent) (nodeText label.written texts indent) (nodeCodes label codes) := by
  cases label with
  | dict => exact appends_bag hitems (by decide) indent
  | array => exact appends_bag hitems (by decide) indent
  | key datval =>
      have hkey := @appends_str env (ascii "key") datval (by decide) hsize indent
      cases hitems with
      | nil => exact hkey.bind appends_pure
      | cons hitem _ =>
          have h := hkey.bind (hitem (indent + 1))
          rwa [Nat.zero_add] at h
  | string datval => exact appends_str (by decide) hsize indent
  | data datval =>
      have hcode := @appends_code env datval (hencodes datval rfl)
      have htext : (if datval.length > 0 then shown (base64Encode datval) else []) =
          (if (if (base64Encode datval).length < 2 ^ 31 then datval else []).length > 0 then
            base64Encode (if (base64Encode datval).length < 2 ^ 31 then datval else []) else []) := by
        by_cases hshort : (base64Encode datval).length < 2 ^ 31
        · rw [if_pos hshort, shown_of_lt hshort]
        · rw [if_neg hshort, shown, if_neg hshort]
          simp
      rw [htext] at hcode
      exact appends_element (by decide) hcode indent
  | bool intval => cases intval <;> exact appends_emptyTag indent (by decide)
  | integer intval =>
      exact appends_element (by decide) (appends_append (length_plint2str_lt intval)) indent
  | date _ => exact appends_element (by decide) appends_pure indent

theorem appends_forest {f : Forest Label} (h : ∀ label ∈ f.labels, label.size < 2 ^ 32 ∧ label.Encodes) :
    AppendsAll env (itemWriters env f) (itemTexts (f.map Label.written)) (itemCodes f) := by
  induction f with
  | nil => exact .nil
  | cons label kids next ihk ihn =>
      simp only [Forest.labels, List.mem_cons, List.mem_append] at h
      have hkids := ihk fun l hl => h l (Or.inr (Or.inl hl))
      have hnext := ihn fun l hl => h l (Or.inr (Or.inr hl))
      obtain ⟨hsize, hencodes⟩ := h label (Or.inl rfl)
      exact .cons (fun indent => appends_node hsize hencodes hkids indent) hnext

/-- The labels of a tree, its root's first. -/
def Node.labels (pl : Node) : List Label := pl.label :: pl.kids.labels

/-- The tree whose text is written for a tree. -/
def Node.written (pl : Node) : Node := ⟨pl.label.written, pl.kids.map Label.written⟩

/-- The codes allocated when a tree is written. -/
def Node.codes (pl : Node) : Nat := nodeCodes pl.label (itemCodes pl.kids)

theorem plNodeToXml_appends {pl : Node} (h : ∀ label ∈ Node.labels pl, label.size < 2 ^ 32 ∧ label.Encodes) :
    Appends env (plNodeToXml env pl) (render (Node.written pl)) (Node.codes pl) := by
  have hkids : AppendsAll env (itemWriters env pl.kids) (itemTexts (pl.kids.map Label.written)) (itemCodes pl.kids) :=
    appends_forest fun l hl => h l (List.mem_cons_of_mem _ hl)
  obtain ⟨hsize, hencodes⟩ := h pl.label List.mem_cons_self
  have hhdr1 : Appends env (append plXmlHdr1) plXmlHdr1 0 := appends_append (by decide)
  have hhdr2 : Appends env (append plXmlHdr2) plXmlHdr2 0 := appends_append (by decide)
  have hhdr3 : Appends env (append plXmlHdr3) plXmlHdr3 0 := appends_append (by decide)
  have htlr1 : Appends env (append plXmlTlr1) plXmlTlr1 0 := appends_append (by decide)
  have hnode := appends_node hsize hencodes hkids 1
  have hall := hhdr1.bind (hhdr2.bind (hhdr3.bind (hnode.bind htlr1)))
  rwa [Nat.zero_add, Nat.zero_add, Nat.zero_add, Nat.add_zero] at hall

/-- The run appends the text if there is room for it, and refuses otherwise. -/
def Writes (x : WriterM Unit) (text : Bytes) : Prop :=
  ∀ b : Writer, b.toPlBuf.Valid →
    (text.length ≤ b.room → (x b).result = .ok () ∧ (x b).state.toPlBuf = b.toPlBuf.put text) ∧
      (b.room < text.length → (x b).result = .error .refused ∧
        ∃ part, part <+: text ∧ part.length ≤ b.room ∧ (x b).state.toPlBuf = b.toPlBuf.put part)

/-- Where no allocation fails the room decides. -/
theorem Appends.writes (henv : ∀ n, env.alloc n = true) {x : WriterM Unit} {text : Bytes} {codes : Nat}
    (h : Appends env x text codes) : Writes x text := by
  intro b hb
  obtain ⟨hfits, hfull⟩ := h b hb
  constructor
  · intro hroom
    obtain ⟨hresult, hstate, -⟩ := hfits ⟨hroom, fun i _ => henv _⟩
    exact ⟨hresult, hstate⟩
  · intro hroom
    exact hfull fun hcan => Nat.not_le_of_lt hroom hcan.1

theorem plNodeToXml_writes {env : Env} (henv : ∀ n, env.alloc n = true) {pl : Node}
    (h : ∀ label ∈ Node.labels pl, label.size < 2 ^ 32 ∧ label.Encodes) :
    Writes (plNodeToXml env pl) (render (Node.written pl)) :=
  (plNodeToXml_appends h).writes henv

/-! ### A datum too long to encode -/

/-- No run of it succeeds. -/
def Fails {α : Type} (x : WriterM α) : Prop := ∀ b a, (x b).result ≠ .ok a

theorem Fails.bind_left {α β : Type} {x : WriterM α} (h : Fails x) (f : α → WriterM β) : Fails (x >>= f) := by
  intro b c hc
  rw [bind_apply] at hc
  rcases hx : x b with ⟨e | a, b', l⟩ <;> rw [hx] at hc
  · cases hc
  · exact h b a (by rw [hx])

theorem Fails.bind_right {α β : Type} {x : WriterM α} {f : α → WriterM β} (h : ∀ a, Fails (f a)) :
    Fails (x >>= f) := by
  intro b c hc
  rw [bind_apply] at hc
  rcases hx : x b with ⟨e | a, b', l⟩ <;> rw [hx] at hc
  · cases hc
  · exact h a b' c hc

theorem fails_items {items : List (Nat → WriterM Unit)} (indent : Nat)
    (h : ∃ item ∈ items, ∀ indent, Fails (item indent)) : Fails (plItemsToXml indent items) := by
  induction items with
  | nil => simp at h
  | cons item items ih =>
      obtain ⟨item', hmem, hfails⟩ := h
      rcases List.mem_cons.1 hmem with rfl | hmem
      · exact (hfails indent).bind_left _
      · exact Fails.bind_right fun _ => ih ⟨item', hmem, hfails⟩

theorem fails_bag {items : List (Nat → WriterM Unit)} (name : Bytes) (indent : Nat)
    (h : ∃ item ∈ items, ∀ indent, Fails (item indent)) : Fails (plBagToXml name items indent) := by
  have hne : items.length ≠ 0 := by
    obtain ⟨item, hmem, -⟩ := h
    exact Nat.ne_of_gt (List.length_pos_of_mem hmem)
  unfold plBagToXml
  rw [if_neg hne]
  exact Fails.bind_right fun _ => (fails_items _ h).bind_left _

theorem fails_code (env : Env) {datval : Bytes} (h : 2 ^ 31 ≤ datval.length) :
    Fails (appendCode env datval) := by
  unfold appendCode
  rw [if_pos (by omega)]
  refine Fails.bind_left ?_ _
  intro b a hok
  have hwide : ¬datval.length < 2 ^ 31 := by omega
  unfold plb64encode at hok
  rw [bind_apply] at hok
  split at hok
  · rename_i c _ _ _
    cases c
    · cases hok
    · rw [if_pos rfl, if_neg hwide] at hok
      cases hok
  · cases hok

end BareBoot.Plist
