import BareBoot.MixedRadix
import BareBoot.PlistQuery

/-! The search for the newest `nvram.plist`, `GetEfiTimeInMs` and `LoadLatestNvramPlist` of `nvram.c`. A volume is
its index in the handle buffer, and so is the root that `OpenVolume` opens on it. -/

namespace BareBoot.NewestNvram

open Plist

/-! ### Times -/

/-- The fields that are read. -/
structure EfiTime where
  year : UInt16
  month : UInt8
  day : UInt8
  hour : UInt8
  minute : UInt8
  second : UInt8
  nanosecond : UInt32
  deriving DecidableEq, Repr

structure EfiTime.Valid (t : EfiTime) : Prop where
  year : 1900 ≤ t.year.toNat
  month : 1 ≤ t.month.toNat ∧ t.month.toNat ≤ 12
  day : 1 ≤ t.day.toNat ∧ t.day.toNat ≤ 31
  hour : t.hour.toNat < 24
  minute : t.minute.toNat < 60
  second : t.second.toNat < 60
  nanosecond : t.nanosecond.toNat < 1000000000

/-- `T->Year - 1900` is an `int`, then all is in `UINT64`. -/
def getEfiTimeInMs (t : EfiTime) : UInt64 :=
  let timeMs := t.year.toUInt64 - 1900
  let timeMs := timeMs * 12 + t.month.toUInt64
  let timeMs := timeMs * 31 + t.day.toUInt64
  let timeMs := timeMs * 24 + t.hour.toUInt64
  let timeMs := timeMs * 60 + t.minute.toUInt64
  let timeMs := timeMs * 60 + t.second.toUInt64
  timeMs * 1000 + t.nanosecond.toUInt64 / 1000000

/-- The time behind the year, to the millisecond. -/
def EfiTime.rest (t : EfiTime) : List Nat :=
  [t.month.toNat, t.day.toNat, t.hour.toNat, t.minute.toNat, t.second.toNat, t.nanosecond.toNat / 1000000]

/-- The calendar order is the lexicographic one. -/
def EfiTime.calendar (t : EfiTime) : List Nat := t.year.toNat :: t.rest

/-- Months and days count from 1. -/
def places : List MixedRadix.Place := [⟨12, 1⟩, ⟨31, 1⟩, ⟨24, 0⟩, ⟨60, 0⟩, ⟨60, 0⟩, ⟨1000, 0⟩]

theorem EfiTime.Valid.digits {t : EfiTime} (h : t.Valid) : List.Forall₂ MixedRadix.Place.Digit places t.rest := by
  have hms : t.nanosecond.toNat / 1000000 < 1000 := Nat.div_lt_of_lt_mul h.nanosecond
  exact .cons ⟨h.month.1, Nat.lt_succ_of_le h.month.2⟩ (.cons ⟨h.day.1, Nat.lt_succ_of_le h.day.2⟩
    (.cons ⟨Nat.zero_le _, by simpa using h.hour⟩ (.cons ⟨Nat.zero_le _, by simpa using h.minute⟩
      (.cons ⟨Nat.zero_le _, by simpa using h.second⟩ (.cons ⟨Nat.zero_le _, by simpa using hms⟩ .nil)))))

/-- Nothing wraps in a valid time. -/
theorem getEfiTimeInMs_toNat {t : EfiTime} (h : t.Valid) :
    (getEfiTimeInMs t).toNat = MixedRadix.value places (t.year.toNat - 1900) t.rest := by
  have hyear := t.year.toNat_lt
  have hyears : (t.year.toUInt64 - 1900).toNat = t.year.toNat - 1900 := by
    rw [UInt64.toNat_sub_of_le _ _ (by rw [UInt64.le_iff_toNat_le]; exact h.year)]
    rfl
  have hms : (t.nanosecond.toUInt64 / 1000000).toNat = t.nanosecond.toNat / 1000000 := by
    rw [UInt64.toNat_div]
    rfl
  obtain ⟨hyear1, hmonth, hday, hhour, hminute, hsecond, hnano⟩ := h
  simp only [getEfiTimeInMs, MixedRadix.value, places, EfiTime.rest, UInt64.toNat_add, UInt64.toNat_mul, hyears, hms,
    UInt8.toNat_toUInt64, UInt64.reduceToNat]
  omega

/-- **The milliseconds are ordered as the calendar is.** -/
theorem getEfiTimeInMs_lt_iff {t u : EfiTime} (ht : t.Valid) (hu : u.Valid) :
    getEfiTimeInMs t < getEfiTimeInMs u ↔ t.calendar < u.calendar := by
  rw [UInt64.lt_iff_toNat_lt, getEfiTimeInMs_toNat ht, getEfiTimeInMs_toNat hu, EfiTime.calendar, EfiTime.calendar,
    List.cons_lt_cons_iff]
  have hyear := ht.year
  have hyear' := hu.year
  rcases lt_trichotomy t.year.toNat u.year.toNat with hlt | heq | hgt
  · exact iff_of_true (MixedRadix.value_lt_of_lt ht.digits hu.digits (by omega)) (Or.inl hlt)
  · rw [heq, MixedRadix.value_lt_iff ht.digits hu.digits]
    exact ⟨fun h => Or.inr ⟨rfl, h⟩, fun h => h.elim (fun hlt => absurd hlt (lt_irrefl _)) And.right⟩
  · refine iff_of_false (lt_asymm (MixedRadix.value_lt_of_lt hu.digits ht.digits (by omega))) ?_
    rintro (hlt | ⟨heq, -⟩)
    · exact lt_asymm hlt hgt
    · exact hgt.ne' heq

theorem getEfiTimeInMs_pos {t : EfiTime} (h : t.Valid) : 0 < getEfiTimeInMs t := by
  have hmonth := h.month.1
  have hday := h.day.1
  rw [UInt64.lt_iff_toNat_lt, getEfiTimeInMs_toNat h]
  simp only [MixedRadix.value, places, EfiTime.rest, UInt64.toNat_zero]
  omega

/-! ### Volumes -/

/-- How far a volume lets itself be read: the protocol of the handle, its root, the file and the file's info. -/
structure Volume where
  handleProtocol : Bool
  openVolume : Bool
  openFile : Bool
  fileInfo : Option EfiTime
  deriving Repr

/-- What is done with the root of a volume; `LoadPListFile` opens the file on it again. -/
inductive Event
  | openVolume (i : Nat)
  | openFile (i : Nat)
  | loadPListFile (i : Nat)
  | close (i : Nat)
  deriving DecidableEq, Repr

def Event.handle : Event → Nat
  | openVolume i => i
  | openFile i => i
  | loadPListFile i => i
  | close i => i

structure Search where
  lastModifTimeMs : UInt64
  fHandle : Option Nat
  events : List Event
  deriving Repr

/-- One round of the search. -/
def searchVolume (i : Nat) (volume : Volume) (s : Search) : Search :=
  if ¬ volume.handleProtocol then s
  else if ¬ volume.openVolume then s
  else if volume.openFile then
    match volume.fileInfo with
    | none => { s with events := s.events ++ [.openVolume i, .openFile i, .close i] }
    | some modificationTime =>
        let modifTimeMs := getEfiTimeInMs modificationTime
        if s.lastModifTimeMs < modifTimeMs then ⟨modifTimeMs, some i, s.events ++ [.openVolume i, .openFile i]⟩
        else { s with events := s.events ++ [.openVolume i, .openFile i, .close i] }
  else { s with events := s.events ++ [.openVolume i, .openFile i, .close i] }

def searchVolumes : Nat → List Volume → Search → Search
  | _, [], s => s
  | i, volume :: volumes, s => searchVolumes (i + 1) volumes (searchVolume i volume s)

inductive Status
  | success
  | notFound
  deriving DecidableEq, Repr

structure Loaded where
  status : Status
  gNvramDict : Option Node
  events : List Event

/-- `loadPListFile i` is what `LoadPListFile` reads on the root of volume `i`. -/
def loadLatestNvramPlist (loadPListFile : Nat → Option Node) (gNvramDict : Option Node) (volumes : List Volume) : Loaded :=
  match gNvramDict with
  | some dict => ⟨.success, some dict, []⟩
  | none =>
      let s := searchVolumes 0 volumes ⟨0, none, []⟩
      match s.fHandle with
      | some i => ⟨.success, loadPListFile i, s.events ++ [.loadPListFile i, .close i]⟩
      | none => ⟨.notFound, none, s.events⟩

/-- The time of a volume's `nvram.plist`. -/
def Volume.time (volume : Volume) : Option EfiTime :=
  if volume.handleProtocol ∧ volume.openVolume ∧ volume.openFile then volume.fileInfo else none

def timeAt (volumes : List Volume) (i : Nat) : Option EfiTime := volumes[i]?.bind Volume.time

/-- The first volume with the greatest time in the calendar. -/
def Newest (volumes : List Volume) (i : Nat) : Prop :=
  ∃ t, timeAt volumes i = some t ∧ (∀ j u, timeAt volumes j = some u → ¬ t.calendar < u.calendar) ∧
    ∀ j < i, ∀ u, timeAt volumes j = some u → u.calendar < t.calendar

/-- No handle after it was closed. -/
def ClosedLast (events : List Event) : Prop := events.Pairwise fun e f => ∀ i, e = .close i → f.handle ≠ i

/-! ### The search -/

/-- The variables of the loop in front of volume `i`. -/
structure Searched (volumes : List Volume) (i : Nat) (s : Search) : Prop where
  below : ∀ e ∈ s.events, e.handle < i
  closedLast : ClosedLast s.events
  searching : ∀ k, .loadPListFile k ∉ s.events
  missing : s.fHandle = none → s.lastModifTimeMs = 0 ∧ ∀ j < i, timeAt volumes j = none
  best : ∀ k, s.fHandle = some k → .close k ∉ s.events ∧ k < i ∧
    ∃ t, timeAt volumes k = some t ∧ s.lastModifTimeMs = getEfiTimeInMs t ∧
      (∀ j < i, ∀ u, timeAt volumes j = some u → ¬ getEfiTimeInMs t < getEfiTimeInMs u) ∧
      ∀ j < k, ∀ u, timeAt volumes j = some u → getEfiTimeInMs u < getEfiTimeInMs t

/-- A round with a volume that is older, or has no file. -/
theorem searchVolume_skip {i : Nat} {volume : Volume} {s : Search}
    (h : ∀ t, volume.time = some t → ¬ s.lastModifTimeMs < getEfiTimeInMs t) :
    searchVolume i volume s = s ∨
      searchVolume i volume s = { s with events := s.events ++ [.openVolume i, .openFile i, .close i] } := by
  obtain ⟨handleProtocol, openVolume, openFile, fileInfo⟩ := volume
  cases handleProtocol with
  | false => exact Or.inl rfl
  | true =>
      cases openVolume with
      | false => exact Or.inl rfl
      | true =>
          cases openFile with
          | false => exact Or.inr rfl
          | true =>
              cases fileInfo with
              | none => exact Or.inr rfl
              | some t => exact Or.inr (if_neg (h t rfl))

/-- A round with a newer file. -/
theorem searchVolume_newer {i : Nat} {volume : Volume} {s : Search} {t : EfiTime} (ht : volume.time = some t)
    (h : s.lastModifTimeMs < getEfiTimeInMs t) :
    searchVolume i volume s = ⟨getEfiTimeInMs t, some i, s.events ++ [.openVolume i, .openFile i]⟩ := by
  obtain ⟨handleProtocol, openVolume, openFile, fileInfo⟩ := volume
  rw [Volume.time] at ht
  split_ifs at ht with hopen
  obtain ⟨rfl, rfl, rfl⟩ := hopen
  obtain rfl : fileInfo = some t := ht
  exact if_pos h

theorem closedLast_append {events more : List Event} {i : Nat} (h : ClosedLast events) (hbelow : ∀ e ∈ events, e.handle < i)
    (hmore : ∀ e ∈ more, e.handle = i) (hlast : ClosedLast more) : ClosedLast (events ++ more) := by
  refine List.pairwise_append.mpr ⟨h, hlast, fun e he f hf k hclose => ?_⟩
  have hlt := hbelow e he
  rw [hclose] at hlt
  rw [hmore f hf]
  exact Nat.ne_of_gt hlt

theorem below_append {events more : List Event} {i : Nat} (hbelow : ∀ e ∈ events, e.handle < i)
    (hmore : ∀ e ∈ more, e.handle = i) : ∀ e ∈ events ++ more, e.handle < i + 1 := by
  intro e he
  rcases List.mem_append.mp he with he | he
  · exact Nat.lt_succ_of_lt (hbelow e he)
  · exact (hmore e he).trans_lt (Nat.lt_succ_self i)

section Round

variable {volumes : List Volume} {i : Nat} {volume : Volume} {s : Search}

theorem handles_skip (i : Nat) : ∀ e ∈ [Event.openVolume i, .openFile i, .close i], e.handle = i := by
  simp only [List.mem_cons, List.not_mem_nil, or_false, forall_eq_or_imp, forall_eq]
  exact ⟨rfl, rfl, rfl⟩

theorem closedLast_open (i : Nat) : ClosedLast [.openVolume i, .openFile i] :=
  .cons (fun _ _ _ h => nomatch h) (.cons (fun _ h => nomatch h) .nil)

theorem closedLast_skip (i : Nat) : ClosedLast [.openVolume i, .openFile i, .close i] :=
  .cons (fun _ _ _ h => nomatch h) (.cons (fun _ _ _ h => nomatch h) (.cons (fun _ h => nomatch h) .nil))

/-- An older volume leaves the best one where it was. -/
theorem Searched.skip (h : Searched volumes i s) (hvolume : volumes[i]? = some volume)
    (hold : ∀ t, volume.time = some t → ¬ s.lastModifTimeMs < getEfiTimeInMs t)
    (hpos : ∀ t, volume.time = some t → 0 < getEfiTimeInMs t) {events : List Event}
    (hevents : events = s.events ∨ events = s.events ++ [.openVolume i, .openFile i, .close i]) :
    Searched volumes (i + 1) { s with events := events } := by
  have htime : timeAt volumes i = volume.time := by rw [timeAt, hvolume, Option.bind_some]
  constructor
  · rcases hevents with rfl | rfl
    · exact fun e he => Nat.lt_succ_of_lt (h.below e he)
    · exact below_append h.below (handles_skip i)
  · rcases hevents with rfl | rfl
    · exact h.closedLast
    · exact closedLast_append h.closedLast h.below (handles_skip i) (closedLast_skip i)
  · intro k
    rcases hevents with rfl | rfl
    · exact h.searching k
    · simp only [List.mem_append, List.mem_cons, List.not_mem_nil, reduceCtorEq, or_false]
      exact h.searching k
  · intro hnone
    obtain ⟨hzero, hbefore⟩ := h.missing hnone
    refine ⟨hzero, fun j hj => ?_⟩
    rcases Nat.lt_succ_iff_lt_or_eq.mp hj with hj | rfl
    · exact hbefore j hj
    · rw [htime, Option.eq_none_iff_forall_ne_some]
      intro t ht
      have hle := hold t ht
      rw [hzero] at hle
      exact hle (hpos t ht)
  · intro k hk
    obtain ⟨hopen, hlt, t, ht, hlast, hgreatest, hfirst⟩ := h.best k hk
    refine ⟨?_, Nat.lt_succ_of_lt hlt, t, ht, hlast, fun j hj u hu => ?_, hfirst⟩
    · rcases hevents with rfl | rfl
      · exact hopen
      · simp only [List.mem_append, List.mem_cons, List.not_mem_nil, or_false, reduceCtorEq, false_or, not_or]
        exact ⟨hopen, fun heq => hlt.ne (Event.close.inj heq)⟩
    · rcases Nat.lt_succ_iff_lt_or_eq.mp hj with hj | rfl
      · exact hgreatest j hj u hu
      · rw [← hlast]
        exact hold u (htime.symm.trans hu)

/-- A newer one takes its place. -/
theorem Searched.newer (h : Searched volumes i s) (hvolume : volumes[i]? = some volume) {t : EfiTime}
    (ht : volume.time = some t) (hnew : s.lastModifTimeMs < getEfiTimeInMs t) :
    Searched volumes (i + 1) ⟨getEfiTimeInMs t, some i, s.events ++ [.openVolume i, .openFile i]⟩ := by
  have htime : timeAt volumes i = some t := by rw [timeAt, hvolume, Option.bind_some, ht]
  have hhandles : ∀ e ∈ [Event.openVolume i, .openFile i], e.handle = i := by
    simp only [List.mem_cons, List.not_mem_nil, or_false, forall_eq_or_imp, forall_eq]
    exact ⟨rfl, rfl⟩
  -- all that came before is no newer than what was the best so far
  have hbefore : ∀ j < i, ∀ u, timeAt volumes j = some u → getEfiTimeInMs u < getEfiTimeInMs t := by
    intro j hj u hu
    cases hbest : s.fHandle with
    | none =>
        rw [(h.missing hbest).2 j hj] at hu
        cases hu
    | some k =>
        obtain ⟨-, -, best, -, hms, hgreatest, -⟩ := h.best k hbest
        rw [hms] at hnew
        exact UInt64.lt_of_le_of_lt (UInt64.not_lt.mp (hgreatest j hj u hu)) hnew
  constructor
  · exact below_append h.below hhandles
  · exact closedLast_append h.closedLast h.below hhandles (closedLast_open i)
  · intro k
    simp only [List.mem_append, List.mem_cons, List.not_mem_nil, reduceCtorEq, or_false]
    exact h.searching k
  · intro hnone
    cases hnone
  · intro k hk
    obtain rfl := Option.some_inj.mp hk
    refine ⟨fun hmem => ?_, Nat.lt_succ_self i, t, htime, rfl, fun j hj u hu => ?_, hbefore⟩
    · simp only [List.mem_append, List.mem_cons, List.not_mem_nil, or_false, reduceCtorEq] at hmem
      exact absurd (h.below _ hmem) (Nat.lt_irrefl i)
    · rcases Nat.lt_succ_iff_lt_or_eq.mp hj with hj | rfl
      · exact UInt64.lt_asymm (hbefore j hj u hu)
      · rw [htime] at hu
        obtain rfl := Option.some_inj.mp hu
        exact UInt64.lt_irrefl _

/-- One round of the search. -/
theorem Searched.round (h : Searched volumes i s) (hvolume : volumes[i]? = some volume)
    (hpos : ∀ t, volume.time = some t → 0 < getEfiTimeInMs t) : Searched volumes (i + 1) (searchVolume i volume s) := by
  by_cases hnew : ∃ t, volume.time = some t ∧ s.lastModifTimeMs < getEfiTimeInMs t
  · obtain ⟨t, ht, hlt⟩ := hnew
    rw [searchVolume_newer ht hlt]
    exact h.newer hvolume ht hlt
  · have hold : ∀ t, volume.time = some t → ¬ s.lastModifTimeMs < getEfiTimeInMs t := fun t ht hlt => hnew ⟨t, ht, hlt⟩
    rcases searchVolume_skip hold with hsame | hclosed
    · rw [hsame]
      exact h.skip hvolume hold hpos (Or.inl rfl)
    · rw [hclosed]
      exact h.skip hvolume hold hpos (Or.inr rfl)

end Round

theorem Searched.loop {volumes rest : List Volume} {i : Nat} {s : Search} (h : Searched volumes i s)
    (hi : i ≤ volumes.length) (hrest : volumes.drop i = rest)
    (hpos : ∀ volume ∈ volumes, ∀ t, volume.time = some t → 0 < getEfiTimeInMs t) :
    Searched volumes volumes.length (searchVolumes i rest s) := by
  induction rest generalizing i s with
  | nil =>
      obtain rfl : i = volumes.length := Nat.le_antisymm hi (List.drop_eq_nil_iff.mp hrest)
      exact h
  | cons volume rest ih =>
      have hvolume : volumes[i]? = some volume := by rw [← List.head?_drop, hrest, List.head?_cons]
      have htail : volumes.drop (i + 1) = rest := by rw [← List.tail_drop, hrest, List.tail_cons]
      rw [searchVolumes]
      exact ih (h.round hvolume (hpos volume (List.mem_of_getElem? hvolume))) (List.getElem?_eq_some_iff.mp hvolume).1 htail

/-- There is one newest volume at most. -/
theorem Newest.unique {volumes : List Volume} {i j : Nat} (hi : Newest volumes i) (hj : Newest volumes j) : i = j := by
  obtain ⟨t, ht, hgreatest, hfirst⟩ := hi
  obtain ⟨u, hu, hgreatest', hfirst'⟩ := hj
  rcases lt_trichotomy i j with hlt | heq | hgt
  · exact absurd (hfirst' i hlt t ht) (hgreatest j u hu)
  · exact heq
  · exact absurd (hfirst j hgt u hu) (hgreatest' i t ht)

theorem timeAt_eq_none_iff (volumes : List Volume) :
    (∀ i < volumes.length, timeAt volumes i = none) ↔ ∀ volume ∈ volumes, volume.time = none := by
  constructor
  · intro h volume hmem
    obtain ⟨i, hi, rfl⟩ := List.mem_iff_getElem.mp hmem
    have htime := h i hi
    rw [timeAt, List.getElem?_eq_getElem hi, Option.bind_some] at htime
    exact htime
  · intro h i hi
    rw [timeAt, List.getElem?_eq_getElem hi, Option.bind_some]
    exact h _ (List.getElem_mem hi)

section Loaded

variable {volumes : List Volume}

theorem timeAt_valid (hvalid : ∀ volume ∈ volumes, ∀ t, volume.time = some t → t.Valid) {i : Nat} {t : EfiTime}
    (h : timeAt volumes i = some t) : t.Valid := by
  obtain ⟨volume, hvolume, ht⟩ := Option.bind_eq_some_iff.mp h
  exact hvalid volume (List.mem_of_getElem? hvolume) t ht

/-- What the search ends with. -/
theorem searchVolumes_searched (hvalid : ∀ volume ∈ volumes, ∀ t, volume.time = some t → t.Valid) :
    Searched volumes volumes.length (searchVolumes 0 volumes ⟨0, none, []⟩) := by
  have hstart : Searched volumes 0 ⟨0, none, []⟩ := by
    constructor
    · exact fun _ h => absurd h List.not_mem_nil
    · exact List.Pairwise.nil
    · exact fun _ => List.not_mem_nil
    · exact fun _ => ⟨rfl, fun _ h => absurd h (Nat.not_lt_zero _)⟩
    · exact fun _ h => nomatch h
  exact hstart.loop (Nat.zero_le _) List.drop_zero fun volume hmem t ht => getEfiTimeInMs_pos (hvalid volume hmem t ht)

/-- The best volume of the search is the newest in the calendar. -/
theorem Searched.newest {s : Search} {k : Nat} (h : Searched volumes volumes.length s)
    (hvalid : ∀ volume ∈ volumes, ∀ t, volume.time = some t → t.Valid) (hk : s.fHandle = some k) : Newest volumes k := by
  obtain ⟨-, -, t, ht, -, hgreatest, hfirst⟩ := h.best k hk
  have htvalid := timeAt_valid hvalid ht
  refine ⟨t, ht, fun j u hu hlt => ?_, fun j hj u hu => ?_⟩
  · have hj : j < volumes.length := by
      by_contra hge
      rw [timeAt, List.getElem?_eq_none (not_lt.mp hge)] at hu
      cases hu
    exact hgreatest j hj u hu ((getEfiTimeInMs_lt_iff htvalid (timeAt_valid hvalid hu)).mpr hlt)
  · exact (getEfiTimeInMs_lt_iff (timeAt_valid hvalid hu) htvalid).mp (hfirst j hj u hu)

/-- **The newest `nvram.plist` is loaded.** -/
theorem loadLatestNvramPlist_newest (loadPListFile : Nat → Option Node)
    (hvalid : ∀ volume ∈ volumes, ∀ t, volume.time = some t → t.Valid) :
    let r := loadLatestNvramPlist loadPListFile none volumes
    (∀ i, .loadPListFile i ∈ r.events ↔ Newest volumes i) ∧
    (∀ i, Newest volumes i → r.gNvramDict = loadPListFile i) ∧
    (r.status = .notFound ↔ ∀ volume ∈ volumes, volume.time = none) ∧
    ClosedLast r.events ∧
    ∀ t u : EfiTime, t.Valid → u.Valid → (getEfiTimeInMs t < getEfiTimeInMs u ↔ t.calendar < u.calendar) := by
  have hsearched := searchVolumes_searched hvalid
  rw [loadLatestNvramPlist]
  generalize searchVolumes 0 volumes ⟨0, none, []⟩ = s at hsearched
  cases hbest : s.fHandle with
  | none =>
      have hnone := (hsearched.missing hbest).2
      have hno : ∀ i, ¬ Newest volumes i := by
        rintro i ⟨t, ht, -⟩
        rcases Nat.lt_or_ge i volumes.length with hi | hi
        · rw [hnone i hi] at ht
          cases ht
        · rw [timeAt, List.getElem?_eq_none hi] at ht
          cases ht
      refine ⟨fun i => iff_of_false (hsearched.searching i) (hno i), fun i h => absurd h (hno i), ?_, hsearched.closedLast,
        fun t u ht hu => getEfiTimeInMs_lt_iff ht hu⟩
      exact iff_of_true rfl ((timeAt_eq_none_iff volumes).mp hnone)
  | some k =>
      have hnewest := hsearched.newest hvalid hbest
      obtain ⟨hopen, hk, t, ht, -⟩ := hsearched.best k hbest
      refine ⟨fun i => ?_, fun i h => ?_, ?_, ?_, fun t u ht hu => getEfiTimeInMs_lt_iff ht hu⟩
      · constructor
        · intro hmem
          simp only [List.mem_append, List.mem_cons, List.not_mem_nil, reduceCtorEq, or_false] at hmem
          have hik := Event.loadPListFile.inj (hmem.resolve_left (hsearched.searching i))
          exact hik ▸ hnewest
        · intro h
          rw [h.unique hnewest]
          exact List.mem_append_right _ List.mem_cons_self
      · exact congrArg loadPListFile (hnewest.unique h)
      · refine iff_of_false (fun h => nomatch h) fun h => ?_
        rw [(timeAt_eq_none_iff volumes).mpr h k hk] at ht
        cases ht
      · refine List.pairwise_append.mpr ⟨hsearched.closedLast, ?_, fun e he f hf i hclose => ?_⟩
        · exact .cons (fun _ _ _ h => nomatch h) (.cons (fun _ h => nomatch h) .nil)
        · have hfk : f.handle = k := by
            simp only [List.mem_cons, List.not_mem_nil, or_false] at hf
            rcases hf with rfl | rfl <;> rfl
          rintro rfl
          rw [hclose, hfk] at he
          exact hopen he

end Loaded

/-- Three volumes: an older file, no file, a newer file. -/
def threeVolumes : List Volume :=
  [⟨true, true, true, some ⟨2012, 12, 31, 23, 59, 59, 999000000⟩⟩, ⟨true, true, false, none⟩,
    ⟨true, true, true, some ⟨2013, 1, 1, 0, 0, 0, 0⟩⟩]

theorem threeVolumes_valid : ∀ volume ∈ threeVolumes, ∀ t, volume.time = some t → t.Valid := by
  intro volume hmem t ht
  simp only [threeVolumes, List.mem_cons, List.not_mem_nil, or_false] at hmem
  rcases hmem with rfl | rfl | rfl
  · obtain rfl := Option.some_inj.mp ht
    exact ⟨by decide, by decide, by decide, by decide, by decide, by decide, by decide⟩
  · cases ht
  · obtain rfl := Option.some_inj.mp ht
    exact ⟨by decide, by decide, by decide, by decide, by decide, by decide, by decide⟩

theorem threeVolumes_newest :
    let r := loadLatestNvramPlist (fun _ => some (Node.leaf .dict)) none threeVolumes
    (∀ i, .loadPListFile i ∈ r.events ↔ Newest threeVolumes i) ∧
    (∀ i, Newest threeVolumes i → r.gNvramDict = some (Node.leaf .dict)) ∧
    (r.status = .notFound ↔ ∀ volume ∈ threeVolumes, volume.time = none) ∧
    ClosedLast r.events ∧
    ∀ t u : EfiTime, t.Valid → u.Valid → (getEfiTimeInMs t < getEfiTimeInMs u ↔ t.calendar < u.calendar) :=
  loadLatestNvramPlist_newest (fun _ => some (Node.leaf .dict)) threeVolumes_valid

end BareBoot.NewestNvram
