import BareBoot.PlistDocument

/-! Dates in a document. A date element has no bytes of its own, so no node can be made for it, and with it the tree of
the whole document is lost. -/

namespace BareBoot.Plist

variable {env : Env}

/-! ### Strings for dates -/

/-- A string in place of a date. -/
def Piece.dateless : Piece → Piece
  | .text name body => .text (if markupOf name = .date then ascii "string" else name) body
  | .mark name => .mark name

def Spelling.dateless : Spelling → Spelling
  | .leaf element => .leaf { element with piece := element.piece.dateless }
  | o => o

def Document.dateless (d : Document) : Document := { d with root := d.root.map Spelling.dateless }

/-- The elements that are no dates, among those of a document, are the same in both forests. -/
def SameButDates : Forest Label → Forest Label → Forest Label → Prop
  | .nil, .nil, .nil => True
  | .cons label kids next, .cons a akids anext, .cons b bkids bnext =>
      (label.isDate ∨ (a = label ∧ b = label ∧ SameButDates kids akids bkids)) ∧ SameButDates next anext bnext
  | _, _, _ => False

theorem sameButDates_self (f : Forest Label) : SameButDates f f f := by
  induction f with
  | nil => trivial
  | cons label kids next ihk ihn => exact ⟨Or.inr ⟨rfl, rfl, ihk⟩, ihn⟩

theorem markupOf_string : markupOf (ascii "string") = .string := by simp [ascii, markupOf]

/-- An element is kept, or it is a date and becomes a string. -/
theorem Spelling.Good.dateless {o : Spelling} (h : o.Good) :
    (o.dateless = o ∧ o.opening.label.isDate = false) ∨
      (∃ element, o = .leaf element) ∧ o.opening.label.isDate ∧ o.dateless.Good ∧
        ∃ datval, o.dateless.opening.label = .string datval := by
  cases o with
  | leaf element =>
      obtain ⟨before, piece, behind⟩ := element
      obtain ⟨⟨hbefore, hpiece, hbehind⟩, hleaf⟩ := h
      cases piece with
      | mark name =>
          refine Or.inl ⟨rfl, ?_⟩
          rcases hleaf with ⟨type, htype⟩ | ⟨type, htype⟩
          · simp only [Spelling.opening, Piece.token, htype]
            cases type <;> rfl
          · simp only [Spelling.opening, Piece.token, htype]
            rfl
      | text name body =>
          by_cases hdate : markupOf name = .date
          · refine Or.inr ⟨⟨_, rfl⟩, ?_, ?_, body, ?_⟩
            · simp only [Spelling.opening, Piece.token, hdate]
              rfl
            · simp only [Spelling.dateless, Piece.dateless, if_pos hdate]
              refine ⟨⟨hbefore, ⟨by simp [ascii], ?_, hpiece.2.2.1, fun hdata => ?_⟩, hbehind⟩, Or.inl markupOf_string⟩
              · rw [markupOf_string]
                simp [endName, ascii]
              · rw [markupOf_string] at hdata
                cases hdata
            · simp only [Spelling.dateless, Piece.dateless, if_pos hdate, Spelling.opening, Piece.token, markupOf_string]
              rfl
          · refine Or.inl ⟨?_, ?_⟩
            · simp only [Spelling.dateless, Piece.dateless, if_neg hdate]
            · rcases hleaf with htype | htype | htype | htype
              · simp only [Spelling.opening, Piece.token, htype]
                rfl
              · simp only [Spelling.opening, Piece.token, htype]
                rfl
              · simp only [Spelling.opening, Piece.token, htype]
                rfl
              · exact absurd htype hdate
  | list type start stop => exact Or.inl ⟨rfl, by cases type <;> rfl⟩
  | key element => exact Or.inl ⟨rfl, rfl⟩

theorem contents_eq_nil {f : Forest Spelling} : contents f = .nil ↔ f = .nil := by
  rw [contents, values, Forest.map_eq_nil, Forest.map_eq_nil]

theorem spelled_dateless {f : Forest Spelling} (h : Spelled f) : Spelled (f.map Spelling.dateless) := by
  induction f with
  | nil => trivial
  | cons o kids next ihk ihn =>
      obtain ⟨hgood, hleaf, hkids, hnext⟩ := h
      rcases hgood.dateless with ⟨hsame, -⟩ | ⟨⟨element, rfl⟩, -, hgood', -⟩
      · rw [Forest.map, hsame]
        refine ⟨hgood, fun element ho => ?_, ihk hkids, ihn hnext⟩
        rw [hleaf element ho]
        rfl
      · refine ⟨hgood', fun _ _ => ?_, ihk hkids, ihn hnext⟩
        rw [hleaf element rfl]
        rfl

theorem proper_dateless {f : Forest Spelling} {inDict : Bool} (h : Spelled f) (hproper : Proper inDict (contents f)) :
    Proper inDict (contents (f.map Spelling.dateless)) := by
  induction f generalizing inDict with
  | nil => trivial
  | cons o kids next ihk ihn =>
      obtain ⟨hgood, hleaf, hkids, hnext⟩ := h
      obtain ⟨hkey, hlabel, hpropernext⟩ := hproper
      have hnil : contents kids = .nil → contents (kids.map Spelling.dateless) = .nil := by
        rw [contents_eq_nil, contents_eq_nil, Forest.map_eq_nil]
        exact id
      rcases hgood.dateless with ⟨hsame, -⟩ | ⟨⟨element, rfl⟩, hdate, -, datval, hstring⟩
      · show Proper inDict (.cons o.dateless.opening.label _ _)
        rw [hsame]
        refine ⟨hkey, ?_, ihn hnext hpropernext⟩
        generalize o.opening.label = label at hlabel ⊢
        cases label with
        | dict => exact ihk hkids hlabel
        | array => exact ihk hkids hlabel
        | key datval =>
            obtain ⟨⟨value, held, hvalue⟩, hproperkids⟩ := hlabel
            refine ⟨?_, ihk hkids hproperkids⟩
            cases kids with
            | nil => cases hvalue
            | cons o' kids' next' =>
                have hsingle : contents next' = .nil := (Forest.cons.inj hvalue).2.2
                refine ⟨o'.dateless.opening.label, contents (kids'.map Spelling.dateless), ?_⟩
                rw [contents_eq_nil] at hsingle
                rw [hsingle]
                rfl
        | bool | data | date | integer | string => exact hnil hlabel
      · show Proper inDict (.cons (Spelling.leaf element).dateless.opening.label _ _)
        rw [hstring]
        refine ⟨?_, ?_, ihn hnext hpropernext⟩
        · rw [← hkey]
          show false = (Spelling.leaf element).opening.label.isKey
          generalize (Spelling.leaf element).opening.label = label at hdate
          cases label <;> first | rfl | cases hdate
        · rw [hleaf element rfl]
          rfl

/-- No date is left. -/
theorem labels_dateless {f : Forest Spelling} (h : Spelled f) :
    ∀ label ∈ (contents (f.map Spelling.dateless)).labels, label.isDate = false := by
  induction f with
  | nil => exact fun label hlabel => absurd hlabel List.not_mem_nil
  | cons o kids next ihk ihn =>
      obtain ⟨hgood, -, hkids, hnext⟩ := h
      show ∀ label ∈ o.dateless.opening.label :: ((contents (kids.map Spelling.dateless)).labels ++
        (contents (next.map Spelling.dateless)).labels), label.isDate = false
      rw [List.forall_mem_cons, List.forall_mem_append]
      refine ⟨?_, ihk hkids, ihn hnext⟩
      rcases hgood.dateless with ⟨hsame, hdate⟩ | ⟨-, -, -, datval, hstring⟩
      · rw [hsame]
        exact hdate
      · rw [hstring]
        rfl

/-- Without dates everything is kept. -/
theorem map_dateless {f : Forest Spelling} (h : Spelled f) (hdate : ∀ label ∈ (contents f).labels, label.isDate = false) :
    f.map Spelling.dateless = f := by
  induction f with
  | nil => rfl
  | cons o kids next ihk ihn =>
      obtain ⟨hgood, -, hkids, hnext⟩ := h
      have hlabels : ∀ label ∈ o.opening.label :: ((contents kids).labels ++ (contents next).labels),
          label.isDate = false := hdate
      rw [List.forall_mem_cons, List.forall_mem_append] at hlabels
      obtain ⟨hown, hdatekids, hdatenext⟩ := hlabels
      rcases hgood.dateless with ⟨hsame, -⟩ | ⟨-, hisdate, -⟩
      · rw [Forest.map, hsame, ihk hkids hdatekids, ihn hnext hdatenext]
      · rw [hown] at hisdate
        cases hisdate

/-! ### Documents with dates -/

namespace Document

variable {d : Document} {kids : Forest Label}

theorem WellFormed.dateless (h : d.WellFormed) : d.dateless.WellFormed := by
  refine ⟨h.header, spelled_dateless h.spelled, ?_, h.trailer⟩
  obtain ⟨kids, hkids, hproper⟩ := h.root
  have hspelled := h.spelled
  rw [Document.dateless]
  generalize d.root = root at hkids hspelled ⊢
  cases root with
  | nil => cases hkids
  | cons o elements next =>
      obtain ⟨hlabel, hcontents, hnext⟩ := Forest.cons.inj hkids
      rw [← hcontents] at hproper
      have hnone : next = .nil := contents_eq_nil.1 hnext
      obtain ⟨hgood, -, helements, -⟩ := hspelled
      refine ⟨contents (elements.map Spelling.dateless), ?_, proper_dateless helements hproper⟩
      rcases hgood.dateless with ⟨hsame, -⟩ | ⟨-, hdate, -⟩
      · show Forest.cons o.dateless.opening.label _ _ = _
        rw [hsame, hnone]
        exact congrArg (Forest.cons · _ _) hlabel
      · have hdict : o.opening.label = .dict := hlabel
        rw [hdict] at hdate
        cases hdate

end Document

/-- `<dict><key>a</key><array><date>x</date></array><key>b</key><true/></dict>`. -/
def datedDocument : Document where
  header := []
  root := .cons bareDict (.cons (bareKey [97]) (.cons bareArray (.cons (.leaf (bare (.text (ascii "date") [120]))) .nil .nil)
    .nil) (.cons (bareKey [98]) (.cons bareTrue .nil .nil) .nil)) .nil
  trailer := []

theorem datedDocument_wellFormed : datedDocument.WellFormed := by
  have hdate : (Spelling.leaf (bare (.text (ascii "date") [120]))).Good := by
    have hmarkup : markupOf (ascii "date") = .date := by simp [ascii, markupOf]
    refine ⟨bare_good ⟨by simp [ascii], by simp [ascii, markupOf, endName], by simp [Unmarked], fun hdata => ?_⟩,
      Or.inr (Or.inr (Or.inr hmarkup))⟩
    rw [hmarkup] at hdata
    cases hdata
  have harray : Spelled (.cons bareArray (.cons (.leaf (bare (.text (ascii "date") [120]))) .nil .nil) .nil) :=
    .list bareArray_good (.leaf hdate trivial) trivial
  have htrue : Spelled (.cons (bareKey [98]) (.cons bareTrue .nil .nil) .nil) :=
    .key (bareKey_good (by simp [Unmarked])) (.leaf bareTrue_good trivial) trivial
  refine ⟨?_, .list bareDict_good (.key (bareKey_good (by simp [Unmarked])) harray htrue) trivial,
    ⟨.cons (.key [97]) (.cons .array (.cons (.date []) .nil .nil) .nil)
      (.cons (.key [98]) (.cons (.bool true) .nil .nil) .nil), ?_, ?_⟩, ?_⟩
  · exact fun s hs => absurd hs List.not_mem_nil
  · simp [contents, values, Forest.map, datedDocument, bareDict, bareKey, bareArray, bareTrue, bare, Spelling.opening,
      Opening.label, Piece.body, Piece.token, Token.label?, markToken, textToken, markupOf, ascii, listLabel]
  · simp [Proper, Label.isKey]
  · exact fun s hs => absurd hs List.not_mem_nil

end BareBoot.Plist
