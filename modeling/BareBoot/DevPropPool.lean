import BareBoot.DevPropRoundTrip

/-! Registering device properties when memory runs out: the two calls with the outcome of each of their
allocations, what a failed call leaves behind, and the number of devices after a run of calls. -/

namespace BareBoot.DevProp.Pool

open Kext
open Plist (Bytes cstr ascii)

/-! ### The calls -/

def maxNumDevices : Nat := 64

/-- `entries` is `NULL` until a device is added. The list may be longer than the `maxNumDevices` places that are
allocated: what is stored behind them is kept as if the memory were there. -/
structure StringBuf where
  length : Nat
  numEntries : Nat
  entries : Option (List DevPropDevice)

def devpropCreateString : StringBuf := ⟨12, 0, none⟩

/-- The device of a path, ACPI first and then PCI, up to where it is linked to the string. -/
def pathDevice (pciRootUID : UInt16) : List PathNode → Option DevPropDevice
  | first :: rest =>
      if isAcpi first then
        let uid := if pciRootUID = 0xFFFF then first.uid else pciRootUID.toUInt32
        let pciDevPath := ((rest.takeWhile isPci).take maxPciDevPaths).map copyPci
        if pciDevPath = [] then none else some ⟨fixedLength pciDevPath.length, 0, uid, pciDevPath, none⟩
      else none
  | [] => none

/-- `entries[numentries++] = device`. -/
def StringBuf.push (s : StringBuf) (entries : List DevPropDevice) (device : DevPropDevice) : StringBuf :=
  { s with
    numEntries := (s.numEntries + 1) % 2 ^ 16
    entries := some (entries.take s.numEntries ++ device :: entries.drop (s.numEntries + 1)) }

/-- The returned device is its place in `entries`, `NULL` is `none`. The outcome is `none` if the device is written
through `NULL`: the code does not ask whether it was allocated. The string is there, and no path stands for a `NULL`
`PciDt` too. -/
def devpropAddDevicePci (pciRootUID : UInt16) (deviceAllocated entriesAllocated : Bool) (path : Option (List PathNode))
    (s : StringBuf) : Option (Option Nat × StringBuf) :=
  match path with
  | none => some (none, s)
  | some nodes =>
      if deviceAllocated then
        match pathDevice pciRootUID nodes with
        | none => some (none, s)
        | some device =>
            let grown := { s with length := (s.length + device.length) % 2 ^ 32 }
            match grown.entries with
            | some entries => some (some s.numEntries, grown.push entries device)
            | none => if entriesAllocated then some (some s.numEntries, grown.push [] device) else some (none, grown)
      else none

def devpropAddValue (dataAllocated newdataAllocated : Bool) (device : Nat) (nm vl : Option Bytes) (s : StringBuf) :
    Bool × StringBuf :=
  match (s.entries.getD [])[device]?, nm, vl with
  | some entry, some nm, some vl =>
      if vl.length = 0 then (false, s)
      else
        let length := ((cstr nm).length * 2 + vl.length + 2 * 4 + 2) % 2 ^ 32
        if dataAllocated then
          let offset := u32 ((entry.length : Int) - fixedLength entry.pciDevPath.length)
          if newdataAllocated then
            let newdata := oldData offset entry.data ++ valueBytes length (cstr nm) vl
            let entry := { entry with
              length := (entry.length + length) % 2 ^ 32
              numEntries := (entry.numEntries + 1) % 2 ^ 16
              data := some newdata }
            (true, { s with
              length := (s.length + length) % 2 ^ 32
              entries := s.entries.map fun entries => entries.set device entry })
          else (false, s)
        else (false, s)
  | _, _, _ => (false, s)

/-! ### The strings without failures -/

/-- The string as it is when every allocation succeeds. -/
def StringBuf.view (s : StringBuf) : DevPropString := ⟨s.length, s.numEntries, s.entries.getD []⟩

theorem view_push {s : StringBuf} (hentries : (s.entries.getD []).length = s.numEntries) (device : DevPropDevice) :
    (s.push (s.entries.getD []) device).view =
      ⟨s.length, (s.numEntries + 1) % 2 ^ 16, s.entries.getD [] ++ [device]⟩ := by
  have htake : (s.entries.getD []).take s.numEntries = s.entries.getD [] := List.take_of_length_le hentries.le
  have hdrop : (s.entries.getD []).drop (s.numEntries + 1) = [] := List.drop_eq_nil_of_le (by omega)
  rw [StringBuf.push, StringBuf.view, htake, hdrop]
  rfl

/-- The device that the call adds to a string. -/
theorem devpropAddDevicePci_eq (pciRootUID : UInt16) (nodes : List PathNode) (s : DevPropString) :
    DevProp.devpropAddDevicePci pciRootUID (some nodes) s =
      match pathDevice pciRootUID nodes with
      | none => s
      | some device => ⟨(s.length + device.length) % 2 ^ 32, (s.numEntries + 1) % 2 ^ 16, s.entries ++ [device]⟩ := by
  cases nodes with
  | nil => rfl
  | cons first rest =>
      rw [DevProp.devpropAddDevicePci, pathDevice]
      by_cases hacpi : isAcpi first = true
      · rw [if_pos hacpi, if_pos hacpi]
        by_cases hpaths : ((rest.takeWhile isPci).take maxPciDevPaths).map copyPci = []
        · rw [if_pos hpaths, if_pos hpaths]
        · rw [if_neg hpaths, if_neg hpaths]
      · rw [if_neg hacpi, if_neg hacpi]

/-- With memory for all, the call is the one on strings of devices. -/
theorem addDevicePci_view (pciRootUID : UInt16) (path : Option (List PathNode)) {s : StringBuf}
    (hentries : (s.entries.getD []).length = s.numEntries) :
    (devpropAddDevicePci pciRootUID true true path s).map (fun r => r.2.view) =
      some (DevProp.devpropAddDevicePci pciRootUID path s.view) := by
  cases path with
  | none => rfl
  | some nodes =>
      rw [devpropAddDevicePci, devpropAddDevicePci_eq, if_pos rfl]
      cases pathDevice pciRootUID nodes with
      | none => rfl
      | some device =>
          have hpush : (StringBuf.push ⟨(s.length + device.length) % 2 ^ 32, s.numEntries, s.entries⟩
              (s.entries.getD []) device).view =
              ⟨(s.length + device.length) % 2 ^ 32, (s.numEntries + 1) % 2 ^ 16, s.entries.getD [] ++ [device]⟩ :=
            view_push (s := ⟨(s.length + device.length) % 2 ^ 32, s.numEntries, s.entries⟩) hentries device
          cases hs : s.entries with
          | none =>
              rw [hs] at hpush
              exact congrArg some (hpush.trans (by rw [StringBuf.view, hs]))
          | some entries =>
              rw [hs] at hpush
              exact congrArg some (hpush.trans (by rw [StringBuf.view, hs]))

theorem addValue_view (device : Nat) (nm vl : Option Bytes) (s : StringBuf) :
    (devpropAddValue true true device nm vl s).2.view = DevProp.devpropAddValue device nm vl s.view := by
  unfold devpropAddValue DevProp.devpropAddValue
  cases hentry : (s.entries.getD [])[device]? with
  | none => rw [show s.view.entries[device]? = none from hentry]
  | some entry =>
      rw [show s.view.entries[device]? = some entry from hentry]
      cases nm with
      | none => rfl
      | some nm =>
          cases vl with
          | none => rfl
          | some vl =>
              dsimp only
              by_cases hempty : vl.length = 0
              · rw [if_pos hempty, if_pos hempty]
              · rw [if_neg hempty, if_neg hempty]
                obtain ⟨length, numEntries, entries⟩ := s
                cases entries with
                | none => cases hentry
                | some entries => rfl

/-! ### Failed calls -/

/-- The bytes that the text of a device stands for. -/
def encodeEntry (entry : DevPropDevice) : Bytes :=
  wordBytes 4 entry.length ++ wordBytes 2 entry.numEntries ++ [0, 0] ++
    ([2, 1, 12, 0, 0xd0, 0x41, 0x03, 0x0a] ++ wordBytes 4 entry.uid.toNat) ++
    (entry.pciDevPath.map fun path =>
      [path.type, path.subType] ++ wordBytes 2 path.length.toNat ++ [path.function, path.device]).flatten ++
    [0x7f, 0xff, 4, 0] ++
    (entry.data.getD []).take (i32 (u32 ((entry.length : Int) - fixedLength entry.pciDevPath.length))).toNat

def encode (s : DevPropString) : Bytes :=
  wordBytes 4 s.length ++ [1, 0, 0, 0] ++ wordBytes 2 s.numEntries ++ [0, 0] ++
    ((s.entries.take s.numEntries).map encodeEntry).flatten

theorem encode_length {s t : DevPropString} (h : encode s = encode t) : s.length % 2 ^ 32 = t.length % 2 ^ 32 := by
  have hwords := List.append_inj (by simpa only [encode, List.append_assoc] using h)
    ((wordBytes_length 4 s.length).trans (wordBytes_length 4 t.length).symm)
  calc s.length % 2 ^ 32
      = bytesWord (wordBytes 4 s.length) := (bytesWord_wordBytes 4 s.length).symm
    _ = bytesWord (wordBytes 4 t.length) := congrArg bytesWord hwords.1
    _ = t.length % 2 ^ 32 := bytesWord_wordBytes 4 t.length

/-- For the devices registered the bytes are those of the parsed string. -/
theorem encode_stringOf {devices : List Device} (hcount : devices.length < 2 ^ 16)
    (hsize : ∀ device ∈ devices, device.size < 2 ^ 31) : encode (stringOf devices) = encodeString devices := by
  have hentries : ∀ device ∈ devices, encodeEntry device.entry = encodeDevice device := by
    intro device hmem
    have hpaths : (device.entry.pciDevPath.map fun path : PciDevPath =>
        [path.type, path.subType] ++ wordBytes 2 path.length.toNat ++ [path.function, path.device]) =
        device.paths.map encodePci := List.map_map
    have hvalues : wordBytes 2 (device.values.length % 2 ^ 16) = wordBytes 2 device.values.length := wordBytes_mod 2 _
    rw [encodeEntry, printedData_eq device (hsize device hmem), hpaths, encodeDevice, encodePaths, ← hvalues]
    rfl
  have hmod : devices.length % 2 ^ 16 = devices.length := Nat.mod_eq_of_lt hcount
  have htake : (devices.map Device.entry).take devices.length = devices.map Device.entry :=
    List.take_of_length_le (List.length_map _).le
  have hmap : (devices.map Device.entry).map encodeEntry = devices.map encodeDevice := by
    rw [List.map_map]
    exact List.map_congr_left hentries
  rw [encode, stringOf, encodeString, encodeDevices]
  dsimp only
  rw [hmod, htake, hmap]

theorem pathDevice_length {pciRootUID : UInt16} {nodes : List PathNode} {device : DevPropDevice}
    (h : pathDevice pciRootUID nodes = some device) : 0 < device.length ∧ device.length ≤ 48 := by
  cases nodes with
  | nil => cases h
  | cons first rest =>
      rw [pathDevice] at h
      split_ifs at h with hacpi
      all_goals
        dsimp only at h
        split_ifs at h
        obtain rfl := Option.some_inj.mp h
        have hpaths := List.length_take_le maxPciDevPaths (rest.takeWhile isPci)
        simp only [fixedLength, List.length_map]
        simp only [maxPciDevPaths] at hpaths ⊢
        omega

section Failed

variable (pciRootUID : UInt16) {deviceAllocated entriesAllocated : Bool} {path : Option (List PathNode)} {s : StringBuf}

/-- The device of the path is ready to be linked, and the first array of `entries` cannot be allocated. -/
def EntriesMissed (pciRootUID : UInt16) (deviceAllocated entriesAllocated : Bool) (path : Option (List PathNode))
    (s : StringBuf) : Prop :=
  deviceAllocated = true ∧ ((path.bind (pathDevice pciRootUID)).isSome = true) ∧ s.entries = none ∧ entriesAllocated = false

/-- Apart from that a failed call leaves the string alone. -/
theorem addDevicePci_unchanged {t : StringBuf} (hmissed : ¬ EntriesMissed pciRootUID deviceAllocated entriesAllocated path s)
    (h : devpropAddDevicePci pciRootUID deviceAllocated entriesAllocated path s = some (none, t)) : t = s := by
  cases path with
  | none =>
      obtain ⟨-, rfl⟩ := Prod.mk.inj (Option.some_inj.mp h)
      rfl
  | some nodes =>
      cases deviceAllocated with
      | false => cases h
      | true =>
          rw [devpropAddDevicePci, if_pos rfl] at h
          cases hdevice : pathDevice pciRootUID nodes with
          | none =>
              rw [hdevice] at h
              obtain ⟨-, rfl⟩ := Prod.mk.inj (Option.some_inj.mp h)
              rfl
          | some device =>
              rw [hdevice] at h
              cases hs : s.entries with
              | some entries =>
                  dsimp only at h
                  rw [hs] at h
                  cases h
              | none =>
                  dsimp only at h
                  rw [hs] at h
                  cases entriesAllocated with
                  | true => cases h
                  | false =>
                      have hsome : ((some nodes).bind (pathDevice pciRootUID)).isSome = true := by
                        rw [Option.bind_some, hdevice, Option.isSome_some]
                      exact absurd ⟨rfl, hsome, hs, rfl⟩ hmissed

/-- There the string has grown by the device that is freed. -/
theorem addDevicePci_missed (hmissed : EntriesMissed pciRootUID deviceAllocated entriesAllocated path s) :
    ∃ t, devpropAddDevicePci pciRootUID deviceAllocated entriesAllocated path s = some (none, t) ∧
      encode t.view ≠ encode s.view := by
  obtain ⟨rfl, hsome, hs, rfl⟩ := hmissed
  obtain ⟨device, hdevice⟩ := Option.isSome_iff_exists.mp hsome
  obtain ⟨nodes, rfl, hnodes⟩ := Option.bind_eq_some_iff.mp hdevice
  have hlength := pathDevice_length hnodes
  refine ⟨⟨(s.length + device.length) % 2 ^ 32, s.numEntries, s.entries⟩, ?_, fun hsame => ?_⟩
  · rw [devpropAddDevicePci, if_pos rfl, hnodes]
    dsimp only
    rw [hs]
    rfl
  · have hmod : (s.length + device.length) % 2 ^ 32 % 2 ^ 32 = s.length % 2 ^ 32 := encode_length hsame
    omega

theorem addDevicePci_allOrNothing_iff :
    (∀ t, devpropAddDevicePci pciRootUID deviceAllocated entriesAllocated path s = some (none, t) →
      encode t.view = encode s.view) ↔ ¬ EntriesMissed pciRootUID deviceAllocated entriesAllocated path s := by
  constructor
  · intro h hmissed
    obtain ⟨t, hcall, hne⟩ := addDevicePci_missed pciRootUID hmissed
    exact hne (h t hcall)
  · intro hmissed t hcall
    rw [addDevicePci_unchanged pciRootUID hmissed hcall]

end Failed

/-- Both allocations of a value come before anything is changed. -/
theorem addValue_unchanged {dataAllocated newdataAllocated : Bool} {device : Nat} {nm vl : Option Bytes} {s : StringBuf}
    (h : (devpropAddValue dataAllocated newdataAllocated device nm vl s).1 = false) :
    (devpropAddValue dataAllocated newdataAllocated device nm vl s).2 = s := by
  unfold devpropAddValue at h ⊢
  cases hentry : (s.entries.getD [])[device]? with
  | none => rfl
  | some entry =>
      cases nm with
      | none => rfl
      | some nm =>
          cases vl with
          | none => rfl
          | some vl =>
              rw [hentry] at h
              dsimp only at h ⊢
              split_ifs at h ⊢ <;> rfl

theorem addValue_kept (dataAllocated newdataAllocated : Bool) (device : Nat) (nm vl : Option Bytes) (s : StringBuf) :
    (devpropAddValue dataAllocated newdataAllocated device nm vl s).2.numEntries = s.numEntries ∧
    (devpropAddValue dataAllocated newdataAllocated device nm vl s).2.entries.isSome = s.entries.isSome := by
  unfold devpropAddValue
  cases hentry : (s.entries.getD [])[device]? with
  | none => exact ⟨rfl, rfl⟩
  | some entry =>
      cases nm with
      | none => exact ⟨rfl, rfl⟩
      | some nm =>
          cases vl with
          | none => exact ⟨rfl, rfl⟩
          | some vl =>
              dsimp only
              split_ifs
              · exact ⟨rfl, rfl⟩
              · exact ⟨rfl, Option.isSome_map⟩
              · exact ⟨rfl, rfl⟩
              · exact ⟨rfl, rfl⟩

/-! ### Runs -/

inductive Call
  | addDevicePci (deviceAllocated entriesAllocated : Bool) (path : Option (List PathNode))
  | addValue (dataAllocated newdataAllocated : Bool) (device : Nat) (nm vl : Option Bytes)

section Runs

variable (pciRootUID : UInt16)

def Call.run (s : StringBuf) : Call → Option StringBuf
  | .addDevicePci deviceAllocated entriesAllocated path =>
      (devpropAddDevicePci pciRootUID deviceAllocated entriesAllocated path s).map Prod.snd
  | .addValue dataAllocated newdataAllocated device nm vl =>
      some (devpropAddValue dataAllocated newdataAllocated device nm vl s).2

/-- The strings between the calls. -/
def reached (s : StringBuf) : List Call → List StringBuf
  | [] => [s]
  | call :: calls =>
      match call.run pciRootUID s with
      | some t => s :: reached t calls
      | none => [s]

/-- The calls with a path of a device, up to a device that is not allocated, from the one on that finds room for
`entries`. -/
def additions : Bool → List Call → Nat
  | _, [] => 0
  | started, .addDevicePci deviceAllocated entriesAllocated (some nodes) :: calls =>
      if deviceAllocated then
        if (pathDevice pciRootUID nodes).isSome then
          if started || entriesAllocated then 1 + additions true calls else additions started calls
        else additions started calls
      else 0
  | started, _ :: calls => additions started calls

/-- What a call does to the count. -/
theorem run_cases (s : StringBuf) (call : Call) (calls : List Call) :
    (call.run pciRootUID s = none ∧ additions pciRootUID s.entries.isSome (call :: calls) = 0) ∨
    (∃ t, call.run pciRootUID s = some t ∧ t.numEntries = s.numEntries ∧
      additions pciRootUID s.entries.isSome (call :: calls) = additions pciRootUID t.entries.isSome calls) ∨
    ∃ t, call.run pciRootUID s = some t ∧ t.numEntries = (s.numEntries + 1) % 2 ^ 16 ∧
      additions pciRootUID s.entries.isSome (call :: calls) = 1 + additions pciRootUID t.entries.isSome calls := by
  cases call with
  | addValue dataAllocated newdataAllocated device nm vl =>
      have hvalue := addValue_kept dataAllocated newdataAllocated device nm vl s
      exact Or.inr (Or.inl ⟨_, rfl, hvalue.1, by rw [hvalue.2]; rfl⟩)
  | addDevicePci deviceAllocated entriesAllocated path =>
      cases path with
      | none => exact Or.inr (Or.inl ⟨s, rfl, rfl, rfl⟩)
      | some nodes =>
          rw [Call.run, additions, devpropAddDevicePci]
          cases deviceAllocated with
          | false => exact Or.inl ⟨rfl, rfl⟩
          | true =>
              rw [if_pos rfl, if_pos rfl]
              cases pathDevice pciRootUID nodes with
              | none => exact Or.inr (Or.inl ⟨s, rfl, rfl, rfl⟩)
              | some device =>
                  obtain ⟨length, numEntries, entries⟩ := s
                  cases entries with
                  | some entries => exact Or.inr (Or.inr ⟨_, rfl, rfl, rfl⟩)
                  | none =>
                      cases entriesAllocated with
                      | true => exact Or.inr (Or.inr ⟨_, rfl, rfl, rfl⟩)
                      | false => exact Or.inr (Or.inl ⟨_, rfl, rfl, rfl⟩)

theorem mem_reached_self (s : StringBuf) (calls : List Call) : s ∈ reached pciRootUID s calls := by
  cases calls with
  | nil => exact List.mem_cons_self
  | cons call calls =>
      rw [reached]
      cases call.run pciRootUID s with
      | none => exact List.mem_cons_self
      | some t => exact List.mem_cons_self

/-- The places last exactly as long as the additions fit. -/
theorem reached_le_iff {s : StringBuf} (hs : s.numEntries ≤ maxNumDevices) (calls : List Call) :
    (∀ t ∈ reached pciRootUID s calls, t.numEntries ≤ maxNumDevices) ↔
      s.numEntries + additions pciRootUID s.entries.isSome calls ≤ maxNumDevices := by
  induction calls generalizing s with
  | nil =>
      rw [reached, List.forall_mem_singleton]
      rfl
  | cons call calls ih =>
      rw [reached]
      rcases run_cases pciRootUID s call calls with ⟨hrun, hcount⟩ | ⟨t, hrun, hnum, hcount⟩ | ⟨t, hrun, hnum, hcount⟩
      · rw [hrun, hcount, List.forall_mem_singleton, Nat.add_zero]
      · rw [hrun, hcount, List.forall_mem_cons, ih (hnum.trans_le hs), hnum]
        exact ⟨And.right, fun h => ⟨hs, h⟩⟩
      · have hsmall : t.numEntries = s.numEntries + 1 := hnum.trans (Nat.mod_eq_of_lt (by rw [maxNumDevices] at hs; omega))
        rw [hrun, hcount, List.forall_mem_cons]
        by_cases hroom : t.numEntries ≤ maxNumDevices
        · rw [ih hroom, hsmall]
          constructor
          · rintro ⟨-, hrest⟩
            omega
          · intro hrest
            exact ⟨hs, by omega⟩
        · constructor
          · rintro ⟨-, hrest⟩
            exact absurd (hrest t (mem_reached_self pciRootUID t calls)) hroom
          · intro hrest
            omega

end Runs

/-- **All or nothing.** A failed addition leaves the encoded string alone unless the device was ready and the array
could not be allocated, a failed value always does, and the array holds the devices of a run as long as there are
not more than `maxNumDevices` additions. -/
theorem devprop_allOrNothing_iff (pciRootUID : UInt16) :
    (∀ (deviceAllocated entriesAllocated : Bool) (path : Option (List PathNode)) (s : StringBuf),
      (∀ t, devpropAddDevicePci pciRootUID deviceAllocated entriesAllocated path s = some (none, t) →
        encode t.view = encode s.view) ↔ ¬ EntriesMissed pciRootUID deviceAllocated entriesAllocated path s) ∧
    (∀ (dataAllocated newdataAllocated : Bool) (device : Nat) (nm vl : Option Bytes) (s : StringBuf),
      (devpropAddValue dataAllocated newdataAllocated device nm vl s).1 = false →
        (devpropAddValue dataAllocated newdataAllocated device nm vl s).2 = s) ∧
    ∀ calls : List Call, (∀ s ∈ reached pciRootUID devpropCreateString calls, s.numEntries ≤ maxNumDevices) ↔
      additions pciRootUID false calls ≤ maxNumDevices := by
  refine ⟨fun _ _ _ _ => addDevicePci_allOrNothing_iff pciRootUID, fun _ _ _ _ _ _ => addValue_unchanged, fun calls => ?_⟩
  have hrun := reached_le_iff pciRootUID (s := devpropCreateString) (Nat.zero_le maxNumDevices) calls
  calc (∀ s ∈ reached pciRootUID devpropCreateString calls, s.numEntries ≤ maxNumDevices)
      ↔ 0 + additions pciRootUID false calls ≤ maxNumDevices := hrun
    _ ↔ additions pciRootUID false calls ≤ maxNumDevices := by rw [Nat.zero_add]

/-- The first device of a string without room for its array. -/
theorem bridgePath_missed :
    (∃ t, devpropAddDevicePci 0xFFFF true false (some bridgePath) devpropCreateString = some (none, t) ∧
      encode t.view ≠ encode devpropCreateString.view) ∧
    ∃ s ∈ reached 0xFFFF devpropCreateString (List.replicate 65 (.addDevicePci true true (some bridgePath))),
      ¬ s.numEntries ≤ maxNumDevices := by
  refine ⟨addDevicePci_missed 0xFFFF ⟨rfl, by decide, rfl, rfl⟩, ?_⟩
  have hrun := reached_le_iff 0xFFFF (s := devpropCreateString) (Nat.zero_le maxNumDevices)
    (List.replicate 65 (.addDevicePci true true (some bridgePath)))
  by_contra hnone
  exact absurd (hrun.mp fun s hs => by_contra fun hgt => hnone ⟨s, hs, hgt⟩) (by decide)

end BareBoot.DevProp.Pool
