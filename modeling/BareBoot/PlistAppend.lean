import BareBoot.PlistOutput

/-! `plNodeToXml` on a bounded buffer: it returns 1 exactly when the text of the tree fits and the codes of
the data in it are allocated, and what it writes is a prefix of the text in every case. The bytes before the
position it starts from and those at or behind the end of the buffer stay as they are. -/

namespace BareBoot.Plist

open Exec

/-- The lengths of the text of a label, and of its code, are an `int`. -/
def Label.Narrow (label : Label) : Prop :=
  label.size < 2 ^ 31 ∧ ∀ datval, label = .data datval → (base64Encode datval).length < 2 ^ 31

theorem Label.Narrow.encodes {label : Label} (h : label.Narrow) : label.Encodes := by
  intro datval hlabel
  have hcode := h.2 datval hlabel
  have hlen := length_le_base64Encode datval
  omega

theorem Label.Narrow.written {label : Label} (h : label.Narrow) : label.written = label := by
  obtain ⟨hsize, hcode⟩ := h
  cases label with
  | key datval => exact congrArg Label.key (shown_of_lt hsize)
  | string datval => exact congrArg Label.string (shown_of_lt hsize)
  | data datval => exact congrArg Label.data (if_pos (hcode datval rfl))
  | dict => rfl
  | array => rfl
  | bool _ => rfl
  | integer _ => rfl
  | date _ => rfl

theorem map_written {f : Forest Label} (h : ∀ label ∈ f.labels, label.Narrow) : f.map Label.written = f := by
  induction f with
  | nil => rfl
  | cons label kids next ihk ihn =>
      simp only [Forest.labels, List.mem_cons, List.mem_append] at h
      have hlabel := (h label (Or.inl rfl)).written
      have hkids := ihk fun l hl => h l (Or.inr (Or.inl hl))
      have hnext := ihn fun l hl => h l (Or.inr (Or.inr hl))
      rw [Forest.map, hlabel, hkids, hnext]

theorem Node.written_of_narrow {pl : Node} (h : ∀ label ∈ Node.labels pl, label.Narrow) : Node.written pl = pl := by
  have hroot := (h pl.label List.mem_cons_self).written
  have hkids := map_written fun l hl => h l (List.mem_cons_of_mem _ hl)
  rw [Node.written, hroot, hkids]

/-! ### What a written text leaves -/

section Put
variable {b : PlBuf} {part : Bytes}

theorem take_put (h : b.Valid) : (b.put part).dat.take b.pos = b.dat.take b.pos := by
  have hpos := h.pos_le
  have hlen := h.len_le
  have htake : (b.dat.take b.pos).length = b.pos := List.length_take_of_le (by omega)
  show (overwrite b.dat b.pos part).take b.pos = _
  rw [overwrite, List.append_assoc, List.take_append_of_le_length (Nat.le_of_eq htake.symm)]
  exact List.take_of_length_le (Nat.le_of_eq htake)

theorem drop_put (h : b.Valid) {n : Nat} (hn : b.pos + part.length ≤ n) : (b.put part).dat.drop n = b.dat.drop n := by
  have hpos := h.pos_le
  have hlen := h.len_le
  have hfront : (b.dat.take b.pos ++ part).length = b.pos + part.length := by
    rw [List.length_append, List.length_take_of_le (by omega)]
  show (overwrite b.dat b.pos part).drop n = _
  rw [overwrite, List.drop_append, List.drop_eq_nil_of_le (by omega), List.nil_append, hfront, List.drop_drop]
  congr 1
  omega

theorem part_put (h : b.Valid) : ((b.put part).dat.drop b.pos).take part.length = part := by
  have hpos := h.pos_le
  have hlen := h.len_le
  have htake : (b.dat.take b.pos).length = b.pos := List.length_take_of_le (by omega)
  show ((overwrite b.dat b.pos part).drop b.pos).take part.length = part
  rw [overwrite, List.append_assoc, List.drop_append, List.drop_eq_nil_of_le (Nat.le_of_eq htake), htake,
    Nat.sub_self, List.drop_zero, List.nil_append, List.take_append_of_le_length (Nat.le_refl _), List.take_length]

end Put

/-- The bytes from the position on are the part, the position is behind it, and every other byte stays. -/
structure PlBuf.Gains (b b' : PlBuf) (part : Bytes) : Prop where
  pos : b'.pos = b.pos + part.length
  pos_le : b'.pos ≤ b.len
  len : b'.len = b.len
  part : (b'.dat.drop b.pos).take part.length = part
  before : b'.dat.take b.pos = b.dat.take b.pos
  behind : b'.dat.drop b'.pos = b.dat.drop b'.pos

theorem PlBuf.Valid.gains {b : PlBuf} (h : b.Valid) {part : Bytes} (hroom : part.length ≤ b.room) :
    b.Gains (b.put part) part := by
  have hpos := h.pos_put hroom
  have hle := h.pos_le
  rw [PlBuf.room] at hroom
  refine ⟨hpos, ?_, rfl, part_put h, take_put h, drop_put h (Nat.le_of_eq hpos.symm)⟩
  rw [hpos]
  omega

/-- The bytes at the end of the buffer and behind it are among those that stay. -/
theorem PlBuf.Gains.behind_len {b b' : PlBuf} {part : Bytes} (h : b.Gains b' part) :
    b'.dat.drop b.len = b.dat.drop b.len := by
  have hle := h.pos_le
  have hsplit : b.len = b'.pos + (b.len - b'.pos) := by omega
  calc b'.dat.drop b.len = (b'.dat.drop b'.pos).drop (b.len - b'.pos) := by rw [List.drop_drop, ← hsplit]
    _ = (b.dat.drop b'.pos).drop (b.len - b'.pos) := by rw [h.behind]
    _ = b.dat.drop b.len := by rw [List.drop_drop, ← hsplit]

/-- What a call does with a buffer it is handed. -/
structure BoundedAppend (env : Env) (pl : Node) (b : Writer) (run : Outcome WriteStop Event Writer Unit) : Prop where
  returns_iff : run.result = .ok () ↔
    (render pl).length ≤ b.len - b.pos ∧ ∀ i < Node.codes pl, env.alloc (b.allocs + i) = true
  refused : run.result ≠ .ok () → run.result = .error .refused
  gains : ∃ part, part <+: render pl ∧ (run.result = .ok () → part = render pl) ∧ b.Gains run.state.toPlBuf part
  before : run.state.dat.take b.pos = b.dat.take b.pos
  behind : run.state.dat.drop b.len = b.dat.drop b.len

/-- Writing a tree appends its text as far as the buffer and the allocations allow. -/
theorem plNodeToXml_bounded (env : Env) (pl : Node) (b : Writer) (hb : b.toPlBuf.Valid)
    (hsizes : ∀ label ∈ Node.labels pl, label.Narrow) : BoundedAppend env pl b (plNodeToXml env pl b) := by
  have happend : Appends env (plNodeToXml env pl) (render pl) (Node.codes pl) := by
    have h : Appends env (plNodeToXml env pl) (render (Node.written pl)) (Node.codes pl) :=
      plNodeToXml_appends fun label hlabel => ⟨(hsizes label hlabel).1.trans (by decide), (hsizes label hlabel).encodes⟩
    rwa [Node.written_of_narrow hsizes] at h
  obtain ⟨hfits, hfull⟩ := happend b hb
  by_cases hcan : CanAppend env b (render pl) (Node.codes pl)
  · obtain ⟨hresult, hstate, -⟩ := hfits hcan
    have hgains : b.Gains (plNodeToXml env pl b).state.toPlBuf (render pl) := by
      rw [hstate]
      exact hb.gains hcan.1
    exact ⟨iff_of_true hresult hcan, fun h => absurd hresult h, ⟨_, List.prefix_refl _, fun _ => rfl, hgains⟩,
      hgains.before, hgains.behind_len⟩
  · obtain ⟨hresult, part, hpart, hroom, hstate⟩ := hfull hcan
    have hne : (plNodeToXml env pl b).result ≠ .ok () := by
      rw [hresult]
      exact fun h => nomatch h
    have hgains : b.Gains (plNodeToXml env pl b).state.toPlBuf part := by
      rw [hstate]
      exact hb.gains hroom
    exact ⟨iff_of_false hne hcan, fun _ => hresult, ⟨part, hpart, fun h => absurd h hne, hgains⟩, hgains.before,
      hgains.behind_len⟩

/-- A datum, and a buffer with more room than its text needs. -/
def smallDatum : Node := ⟨.data [1, 2, 3], .nil⟩

def wideBuffer : Writer := ⟨⟨List.replicate 512 0, 500, 4⟩, 0⟩

/-- The allocations all succeed, or all fail. -/
def allocating (alloc : Bool) : Env := ⟨fun _ => alloc, fun _ => true, fun _ _ => none, none⟩

theorem wideBuffer_valid : wideBuffer.toPlBuf.Valid := ⟨by decide, by decide +kernel, by decide⟩

theorem smallDatum_narrow : ∀ label ∈ Node.labels smallDatum, label.Narrow := by
  intro label hlabel
  rw [show Node.labels smallDatum = [.data [1, 2, 3]] from rfl, List.mem_singleton] at hlabel
  subst hlabel
  refine ⟨by decide, ?_⟩
  intro datval hdatval
  cases hdatval
  decide

theorem smallDatum_written :
    wideBuffer.toPlBuf.Valid ∧ (∀ label ∈ Node.labels smallDatum, label.Narrow) ∧
      BoundedAppend (allocating true) smallDatum wideBuffer (plNodeToXml (allocating true) smallDatum wideBuffer) :=
  ⟨wideBuffer_valid, smallDatum_narrow, plNodeToXml_bounded _ _ _ wideBuffer_valid smallDatum_narrow⟩

/-- Room alone does not make it return 1: the code of a datum has to be allocated. -/
theorem smallDatum_refused :
    ¬∀ (env : Env) (pl : Node) (b : Writer), b.toPlBuf.Valid → (∀ label ∈ Node.labels pl, label.Narrow) →
      ((plNodeToXml env pl b).result = .ok () ↔ (render pl).length ≤ b.len - b.pos) := by
  intro hclaim
  have hroom : (render smallDatum).length ≤ wideBuffer.len - wideBuffer.pos := by decide +kernel
  have hok := (hclaim (allocating false) _ _ wideBuffer_valid smallDatum_narrow).2 hroom
  have happends : Appends (allocating false) (plNodeToXml (allocating false) smallDatum)
      (render (Node.written smallDatum)) (Node.codes smallDatum) := plNodeToXml_appends fun label hlabel =>
    ⟨(smallDatum_narrow label hlabel).1.trans (by decide), (smallDatum_narrow label hlabel).encodes⟩
  have hnone : ¬CanAppend (allocating false) wideBuffer (render (Node.written smallDatum)) (Node.codes smallDatum) :=
    fun hcan => Bool.false_ne_true (hcan.2 0 (by decide))
  have hrefused := ((happends wideBuffer wideBuffer_valid).2 hnone).1
  rw [hok] at hrefused
  cases hrefused

end BareBoot.Plist
