import BareBoot.PlistQuery

/-! The variables of `nvram.plist`, `PutNvramPlistToRtVars` of `nvram.c`. The pointer to the copy of a value
outlives the round that made the copy. -/

namespace BareBoot.Nvram

open Plist

/-- Where `Data` points. -/
inductive Pointer
  | null
  | live (content : Bytes)
  | freed
  deriving DecidableEq, Repr

/-- The bytes a callee finds there. -/
def Pointer.read (size : Nat) : Pointer → Option Bytes
  | .null => if size = 0 then some [] else none
  | .live content => if size ≤ content.length then some (content.take size) else none
  | .freed => none

def Pointer.release : Pointer → Pointer
  | .null => .null
  | .live _ => .freed
  | .freed => .freed

inductive Event
  | setVariable (name : List UInt16) (size : Nat) (data : Pointer)
  | freePool (data : Pointer)
  deriving DecidableEq, Repr

def Event.data : Event → Pointer
  | .setVariable _ _ data => data
  | .freePool data => data

/-- A call of `SetVariable` as the callee sees it. -/
structure Variable where
  name : List UInt16
  size : Nat
  value : Option Bytes
  deriving DecidableEq, Repr

def Event.variable : Event → Option Variable
  | .setVariable name size data => some ⟨name, size, data.read size⟩
  | .freePool _ => none

def skippedKeys : List Bytes :=
  [ascii "OsxAptioFixDrv-RelocBase", ascii "OsxAptioFixDrv-ErrorExitingBootServices", ascii "EmuVariableUefiPresent",
    ascii "boot-args", ascii "prev-lang:kbd"]

def allocateCopyPool (success : Bool) (size : Nat) (bytes : Option Bytes) : Pointer :=
  if success then .live ((bytes.getD []).take size) else .null

section Loop

/-! `AsciiStrToUnicodeStrS` makes a `CHAR16` of each character; `pool i` says whether the allocation of
round `i` succeeds. -/

variable (widen : UInt8 → UInt16) (pool : Nat → Bool)

/-- One round, with `Data` as the rounds before left it. -/
def putNvramProp (i : Nat) (prop : Option Node) (data : Pointer) : List Event × Pointer :=
  let len := plNodeGetSize prop
  match plNodeGetBytes prop with
  | none => ([], data)
  | some akey =>
      if 256 / 2 - 2 < len then ([], data)
      else if cstr akey ∈ skippedKeys then ([], data)
      else
        let keyBuf := (cstr akey).map widen
        let val := plNodeGetItem prop 0
        if plNodeGetKind val = .data ∨ plNodeGetKind val = .string then
          let len := plNodeGetSize val
          let data := allocateCopyPool (pool i) len (plNodeGetBytes val)
          ([.setVariable keyBuf len data, .freePool data], data.release)
        else ([.setVariable keyBuf len data, .freePool data], data.release)

def putNvramProps (dict : Option Node) : List Nat → Pointer → List Event
  | [], _ => []
  | i :: rest, data =>
      let round := putNvramProp widen pool i (plNodeGetItem dict i) data
      round.1 ++ putNvramProps dict rest round.2

def putNvramPlistToRtVars (gNvramDict : Option Node) : List Event :=
  putNvramProps widen pool gNvramDict (List.range (plNodeGetSize gNvramDict)) .null

/-! ### What should be set -/

/-- The key is not excluded, and its name fits. -/
def Reached (prop : Option Node) : Prop :=
  ∃ akey, plNodeGetBytes prop = some akey ∧ akey.length ≤ 126 ∧ cstr akey ∉ skippedKeys

/-- The bytes of a data or string value. -/
def plainValue (prop : Option Node) : Option Bytes :=
  match plNodeGetItem prop 0 with
  | some ⟨.data datval, _⟩ | some ⟨.string datval, _⟩ => some datval
  | _ => none

/-- The variable for a key. -/
def wanted (prop : Option Node) : Option Variable :=
  match plNodeGetBytes prop, plainValue prop with
  | some akey, some value =>
      if akey.length ≤ 126 ∧ cstr akey ∉ skippedKeys then some ⟨(cstr akey).map widen, value.length, some value⟩ else none
  | _, _ => none

/-- Every call is a wanted one, in their order, and no freed pool is used or freed. -/
structure Faithful (events : List Event) (expected : List Variable) : Prop where
  calls : events.filterMap Event.variable = expected
  pools : ∀ event ∈ events, event.data ≠ .freed

variable {dict prop : Option Node} {data : Pointer} {value : Bytes} {i : Nat}

theorem plainValue_eq : plainValue prop =
    if plNodeGetKind (plNodeGetItem prop 0) = .data ∨ plNodeGetKind (plNodeGetItem prop 0) = .string then
      plNodeGetBytes (plNodeGetItem prop 0)
    else none := by
  unfold plainValue
  cases plNodeGetItem prop 0 with
  | none => rfl
  | some val =>
      obtain ⟨label, kids⟩ := val
      cases label <;> rfl

/-- A key that is skipped. -/
theorem putNvramProp_skipped (h : ¬ Reached prop) :
    putNvramProp widen pool i prop data = ([], data) ∧ wanted widen prop = none := by
  unfold putNvramProp wanted
  cases hbytes : plNodeGetBytes prop with
  | none => exact ⟨rfl, rfl⟩
  | some akey =>
      have hskipped : ¬ (akey.length ≤ 126 ∧ cstr akey ∉ skippedKeys) := fun hkey => h ⟨akey, hbytes, hkey⟩
      constructor
      · dsimp only
        rw [plNodeGetSize_of_bytes hbytes]
        by_cases hlen : 256 / 2 - 2 < akey.length
        · rw [if_pos hlen]
        · rw [if_neg hlen, if_pos]
          by_contra hin
          exact hskipped ⟨by omega, hin⟩
      · cases plainValue prop with
        | none => rfl
        | some value => exact if_neg hskipped

/-- A key with a data or string value. -/
theorem putNvramProp_plain (h : Reached prop) (hvalue : plainValue prop = some value) :
    ∃ name, putNvramProp widen pool i prop data =
        ([.setVariable name value.length (allocateCopyPool (pool i) value.length (some value)),
          .freePool (allocateCopyPool (pool i) value.length (some value))],
          (allocateCopyPool (pool i) value.length (some value)).release) ∧
      wanted widen prop = some ⟨name, value.length, some value⟩ := by
  obtain ⟨akey, hbytes, hlen, hkey⟩ := h
  refine ⟨(cstr akey).map widen, ?_, ?_⟩
  · rw [plainValue_eq] at hvalue
    split_ifs at hvalue with hkind
    unfold putNvramProp
    rw [hbytes]
    dsimp only
    rw [plNodeGetSize_of_bytes hbytes, if_neg (by omega), if_neg hkey, if_pos hkind, hvalue,
      plNodeGetSize_of_bytes hvalue]
  · unfold wanted
    rw [hbytes, hvalue]
    exact if_pos ⟨hlen, hkey⟩

/-- A key with any other value: its own length, and the pointer of the round before. -/
theorem putNvramProp_other (h : Reached prop) (hvalue : plainValue prop = none) :
    ∃ name, putNvramProp widen pool i prop data =
        ([.setVariable name (plNodeGetSize prop) data, .freePool data], data.release) ∧ wanted widen prop = none := by
  obtain ⟨akey, hbytes, hlen, hkey⟩ := h
  refine ⟨(cstr akey).map widen, ?_, ?_⟩
  · rw [plainValue_eq] at hvalue
    have hkind : ¬ (plNodeGetKind (plNodeGetItem prop 0) = .data ∨ plNodeGetKind (plNodeGetItem prop 0) = .string) := by
      intro hkind
      rw [if_pos hkind] at hvalue
      obtain ⟨bytes, hsome⟩ := plNodeGetBytes_of_kind hkind
      rw [hsome] at hvalue
      cases hvalue
    unfold putNvramProp
    rw [hbytes]
    dsimp only
    rw [if_neg, if_neg hkey, if_neg hkind]
    rw [plNodeGetSize_of_bytes hbytes]
    omega
  · unfold wanted
    rw [hbytes, hvalue]

/-- The copy of a value is read back where there is one. -/
theorem read_allocateCopyPool {success : Bool} :
    (allocateCopyPool success value.length (some value)).read value.length = some value ↔ value = [] ∨ success = true := by
  cases success with
  | true =>
      have hread : (allocateCopyPool true value.length (some value)).read value.length = some value := by
        simp [allocateCopyPool, Pointer.read]
      simp only [hread, or_true]
  | false =>
      cases value with
      | nil => simp [allocateCopyPool, Pointer.read]
      | cons c value => simp [allocateCopyPool, Pointer.read]

theorem allocateCopyPool_ne_freed {success : Bool} {size : Nat} {bytes : Option Bytes} :
    allocateCopyPool success size bytes ≠ .freed := by
  unfold allocateCopyPool
  split_ifs <;> nofun

/-- There are at least as many calls as wanted variables. -/
theorem wanted_length_le (dict : Option Node) (is : List Nat) (data : Pointer) :
    (is.filterMap fun i => wanted widen (plNodeGetItem dict i)).length ≤
      ((putNvramProps widen pool dict is data).filterMap Event.variable).length := by
  induction is generalizing data with
  | nil => exact Nat.le_refl 0
  | cons i is ih =>
      rw [putNvramProps]
      by_cases hreached : Reached (plNodeGetItem dict i)
      · cases hvalue : plainValue (plNodeGetItem dict i) with
        | none =>
            obtain ⟨name, hround, hwanted⟩ := putNvramProp_other widen pool hreached hvalue
            rw [hround, List.filterMap_cons, hwanted]
            dsimp only
            have hrest := ih data.release
            simp only [List.cons_append, List.nil_append, List.filterMap_cons, Event.variable, List.length_cons]
            omega
        | some value =>
            obtain ⟨name, hround, hwanted⟩ := putNvramProp_plain widen pool hreached hvalue
            rw [hround, List.filterMap_cons, hwanted]
            dsimp only
            simp only [List.cons_append, List.nil_append, List.filterMap_cons, Event.variable, List.length_cons]
            exact Nat.succ_le_succ (ih _)
      · obtain ⟨hround, hwanted⟩ := putNvramProp_skipped widen pool hreached
        rw [hround, List.filterMap_cons, hwanted]
        exact ih data

/-- The value of a key can be copied. -/
def Copied (pool : Nat → Bool) (i : Nat) (prop : Option Node) : Prop :=
  ∃ value, plainValue prop = some value ∧ (value = [] ∨ pool i = true)

theorem faithful_cons {name : List UInt16} {size : Nat} {p : Pointer} {events : List Event} {first : Variable}
    {rest : List Variable} (hp : p ≠ .freed) :
    Faithful (.setVariable name size p :: .freePool p :: events) (first :: rest) ↔
      first = ⟨name, size, p.read size⟩ ∧ Faithful events rest := by
  constructor
  · intro h
    have hcalls := h.calls
    simp only [List.filterMap_cons, Event.variable] at hcalls
    obtain ⟨hfirst, hrest⟩ := List.cons.inj hcalls
    refine ⟨hfirst.symm, hrest, ?_⟩
    intro event hmem
    exact h.pools event (List.mem_cons_of_mem _ (List.mem_cons_of_mem _ hmem))
  · rintro ⟨rfl, h⟩
    constructor
    · simp only [List.filterMap_cons, Event.variable, h.calls]
    · intro event hmem
      rcases List.mem_cons.mp hmem with rfl | hmem
      · exact hp
      rcases List.mem_cons.mp hmem with rfl | hmem
      · exact hp
      exact h.pools event hmem

theorem putNvramProps_iff (dict : Option Node) (is : List Nat) (data : Pointer) :
    Faithful (putNvramProps widen pool dict is data) (is.filterMap fun i => wanted widen (plNodeGetItem dict i)) ↔
      ∀ i ∈ is, Reached (plNodeGetItem dict i) → Copied pool i (plNodeGetItem dict i) := by
  induction is generalizing data with
  | nil => exact ⟨nofun, fun _ => ⟨rfl, nofun⟩⟩
  | cons i is ih =>
      rw [putNvramProps, List.forall_mem_cons]
      by_cases hreached : Reached (plNodeGetItem dict i)
      · cases hvalue : plainValue (plNodeGetItem dict i) with
        | none =>
            -- one call too many
            obtain ⟨name, hround, hwanted⟩ := putNvramProp_other widen pool hreached hvalue
            rw [hround, List.filterMap_cons, hwanted]
            dsimp only
            constructor
            · intro h
              have hcalls := congrArg List.length h.calls
              have hrest := wanted_length_le widen pool dict is data.release
              simp only [List.cons_append, List.nil_append, List.filterMap_cons, Event.variable, List.length_cons] at hcalls
              omega
            · rintro ⟨hcopied, -⟩
              obtain ⟨value, hplain, -⟩ := hcopied hreached
              rw [hvalue] at hplain
              cases hplain
        | some value =>
            obtain ⟨name, hround, hwanted⟩ := putNvramProp_plain widen pool hreached hvalue
            rw [hround, List.filterMap_cons, hwanted]
            dsimp only
            rw [List.cons_append, List.cons_append, List.nil_append, faithful_cons allocateCopyPool_ne_freed, ih]
            apply and_congr_left
            intro _
            have hread : (⟨name, value.length, some value⟩ : Variable) = ⟨name, value.length,
                (allocateCopyPool (pool i) value.length (some value)).read value.length⟩ ↔ value = [] ∨ pool i = true := by
              rw [Variable.mk.injEq, and_iff_right rfl, and_iff_right rfl, eq_comm, read_allocateCopyPool]
            rw [hread]
            constructor
            · exact fun hcopied _ => ⟨value, hvalue, hcopied⟩
            · intro hcopied
              obtain ⟨other, hother, hpool⟩ := hcopied hreached
              rw [hvalue] at hother
              obtain rfl := Option.some_inj.mp hother
              exact hpool
      · obtain ⟨hround, hwanted⟩ := putNvramProp_skipped widen pool hreached
        rw [hround, List.filterMap_cons, hwanted]
        dsimp only
        rw [List.nil_append, ih]
        exact (and_iff_right fun h => absurd h hreached).symm

/-- The calls are right exactly when every key that is not skipped has a data or string value that is copied. -/
theorem putNvramPlistToRtVars_iff (kids : Forest Label) :
    Faithful (putNvramPlistToRtVars widen pool (some ⟨.dict, kids⟩))
        (kids.trees.filterMap fun prop => wanted widen (some prop)) ↔
      ∀ i prop, kids.trees[i]? = some prop → Reached (some prop) → Copied pool i (some prop) := by
  have hitems : (List.range kids.trees.length).filterMap (fun i => wanted widen (plNodeGetItem (some ⟨.dict, kids⟩) i)) =
      kids.trees.filterMap fun prop => wanted widen (some prop) := by
    have hall : (List.range kids.trees.length).map (fun i => kids.trees[i]?) = kids.trees.map some :=
      List.ext_getElem (by simp) (by simp)
    calc (List.range kids.trees.length).filterMap (fun i => wanted widen kids.trees[i]?)
        = ((List.range kids.trees.length).map fun i => kids.trees[i]?).filterMap (wanted widen) := by
          rw [List.filterMap_map]
          rfl
      _ = _ := by
          rw [hall, List.filterMap_map]
          rfl
  have h := putNvramProps_iff widen pool (some ⟨.dict, kids⟩) (List.range kids.trees.length) .null
  rw [hitems] at h
  refine h.trans ⟨?_, ?_⟩
  · intro hall i prop hprop hreached
    have hin : i < kids.trees.length := (List.getElem?_eq_some_iff.mp hprop).1
    have hitem := hall i (List.mem_range.mpr hin)
    rw [show plNodeGetItem (some ⟨.dict, kids⟩) i = some prop from hprop] at hitem
    exact hitem hreached
  · intro hall i hmem hreached
    have hin : i < kids.trees.length := List.mem_range.mp hmem
    have hitem : plNodeGetItem (some ⟨.dict, kids⟩) i = some kids.trees[i] := List.getElem?_eq_getElem hin
    rw [hitem] at hreached ⊢
    exact hall i _ hitem hreached

/-- A string, a number and again a string. -/
def mixedVars : Forest Label :=
  .cons (.key (ascii "a")) (.single (Node.leaf (.string (ascii "x")))) <|
    .cons (.key (ascii "b")) (.single (Node.leaf (.integer 7))) <|
      .cons (.key (ascii "c")) (.single (Node.leaf (.string (ascii "y")))) .nil

/-- The number is set from the freed copy of the string, which is then freed again. -/
theorem mixedVars_unfaithful : ¬ Faithful (putNvramPlistToRtVars (fun c => c.toUInt16) (fun _ => true) (some ⟨.dict, mixedVars⟩))
    (mixedVars.trees.filterMap fun prop => wanted (fun c => c.toUInt16) (some prop)) := by
  intro h
  have hfreed : Event.setVariable [98] 1 .freed ∈
      putNvramPlistToRtVars (fun c => c.toUInt16) (fun _ => true) (some ⟨.dict, mixedVars⟩) := by
    decide +kernel
  exact h.pools _ hfreed rfl

end Loop

end BareBoot.Nvram
