import BareBoot.DevPropText

/-! The round trip of the device properties: what the calls register, the lengths they leave, the text of the
string and the bytes it is read back as. -/

namespace BareBoot.DevProp

open Kext
open Plist (Bytes cstr ascii)

/-! ### What the calls register -/

def pciNode (node : PathNode) : PciNode := ⟨node.length, node.function, node.device⟩

/-- The device of a handle, if its path starts at the ACPI root and leads through PCI. -/
def registered (pciRootUID : UInt16) (path : Option (List PathNode)) : Option Device :=
  match path with
  | some (first :: rest) =>
      let paths := ((rest.takeWhile isPci).take maxPciDevPaths).map pciNode
      if isAcpi first ∧ paths ≠ [] then
        some ⟨if pciRootUID = 0xFFFF then first.uid else pciRootUID.toUInt32, paths, []⟩
      else none
  | _ => none

def Device.add (value : Bytes × Bytes) (device : Device) : Device := { device with values := device.values ++ [value] }

/-- A call on the devices registered so far. -/
def Call.register (pciRootUID : UInt16) (devices : List Device) : Call → List Device
  | .addDevicePci path =>
      match registered pciRootUID path with
      | some device => devices ++ [device]
      | none => devices
  | .addValue device (some nm) (some vl) => if vl = [] then devices else devices.modify device (Device.add (cstr nm, vl))
  | .addValue _ _ _ => devices

def registerCalls (pciRootUID : UInt16) (calls : List Call) : List Device := calls.foldl (Call.register pciRootUID) []

/-! ### The calls and the structures -/

section Calls

variable {pciRootUID : UInt16} {devices : List Device}

theorem stringSize_append (devices : List Device) (device : Device) :
    stringSize (devices ++ [device]) = stringSize devices + device.size := by
  rw [stringSize, List.map_append, List.sum_append, List.map_singleton, List.sum_singleton, stringSize, Nat.add_assoc]

theorem copyPci_eq {node : PathNode} (h : isPci node = true) : copyPci node = (pciNode node).path := by
  obtain ⟨htype, hsub⟩ := of_decide_eq_true h
  rw [copyPci, htype, hsub]
  rfl

theorem copyPaths_eq (rest : List PathNode) : ((rest.takeWhile isPci).take maxPciDevPaths).map copyPci =
    (((rest.takeWhile isPci).take maxPciDevPaths).map pciNode).map PciNode.path := by
  rw [List.map_map]
  apply List.map_congr_left
  intro node hmem
  exact copyPci_eq (List.mem_takeWhile_imp (List.mem_of_mem_take hmem))

theorem addDevicePci_eq (path : Option (List PathNode))
    (hsize : stringSize (Call.register pciRootUID devices (.addDevicePci path)) < 2 ^ 32) :
    devpropAddDevicePci pciRootUID path (stringOf devices) =
      stringOf (Call.register pciRootUID devices (.addDevicePci path)) := by
  cases path with
  | none => rfl
  | some nodes =>
      cases nodes with
      | nil => rfl
      | cons first rest =>
          unfold devpropAddDevicePci
          rw [Call.register, registered] at hsize ⊢
          dsimp only at hsize ⊢
          rw [copyPaths_eq]
          generalize ((rest.takeWhile isPci).take maxPciDevPaths).map pciNode = paths at hsize ⊢
          by_cases hacpi : isAcpi first = true
          · by_cases hpaths : paths = []
            · have hnone : ¬ (isAcpi first = true ∧ paths ≠ []) := fun h => h.2 hpaths
              have hcopied : paths.map PciNode.path = [] := List.map_eq_nil_iff.mpr hpaths
              rw [if_pos hacpi, if_pos hcopied, if_neg hnone]
            · have hboth : isAcpi first = true ∧ paths ≠ [] := ⟨hacpi, hpaths⟩
              rw [if_pos hboth] at hsize ⊢
              dsimp only at hsize ⊢
              rw [stringSize_append] at hsize
              have hlength : (stringSize devices + fixedLength paths.length) % 2 ^ 32 =
                  stringSize (devices ++ [⟨if pciRootUID = 0xFFFF then first.uid else pciRootUID.toUInt32, paths, []⟩]) := by
                rw [stringSize_append]
                exact Nat.mod_eq_of_lt hsize
              rw [if_pos hacpi, if_neg fun h => hpaths (List.map_eq_nil_iff.mp h), List.length_map]
              unfold stringOf
              dsimp only
              rw [hlength, List.map_append, List.length_append, List.length_singleton, Nat.mod_add_mod]
              rfl
          · have hnone : ¬ (isAcpi first = true ∧ paths ≠ []) := fun h => hacpi h.1
            rw [if_neg hacpi, if_neg hnone]

theorem modify_of_getElem {i : Nat} {device : Device} (h : devices[i]? = some device) (f : Device → Device) :
    devices.modify i f = devices.set i (f device) := by
  induction devices generalizing i with
  | nil => cases h
  | cons d devices ih =>
      cases i with
      | zero =>
          obtain rfl := Option.some_inj.mp h
          rfl
      | succ i => exact congrArg (d :: ·) (ih h)

theorem stringSize_set {i : Nat} {device : Device} (h : devices[i]? = some device) (other : Device)
    (hsize : device.size ≤ other.size) :
    stringSize (devices.set i other) = stringSize devices + (other.size - device.size) := by
  induction devices generalizing i with
  | nil => cases h
  | cons d devices ih =>
      cases i with
      | zero =>
          obtain rfl := Option.some_inj.mp h
          simp only [stringSize, List.set_cons_zero, List.map_cons, List.sum_cons]
          omega
      | succ i =>
          have hrest := ih h
          simp only [stringSize, List.set_cons_succ, List.map_cons, List.sum_cons] at hrest ⊢
          omega

theorem size_add (device : Device) (value : Bytes × Bytes) : (device.add value).size = device.size + valueSize value := by
  simp only [Device.size, Device.add, valuesSize, List.map_append, List.sum_append, List.map_singleton, List.sum_singleton]
  omega

theorem encodeValues_append (values : List (Bytes × Bytes)) (value : Bytes × Bytes) :
    encodeValues (values ++ [value]) = encodeValues values ++ encodeValue value := by
  rw [encodeValues, List.map_append, List.flatten_append, List.map_singleton, List.flatten_singleton]
  rfl

/-- The data of a device is copied as it is. -/
theorem oldData_eq (device : Device) : oldData (valuesSize device.values) device.entry.data = encodeValues device.values := by
  unfold Device.entry
  dsimp only
  by_cases hnone : device.values = []
  · rw [if_pos hnone, hnone]
    rfl
  · obtain ⟨value, values, hvalues⟩ := List.exists_cons_of_ne_nil hnone
    have hlong : 1 < valuesSize device.values := by
      rw [hvalues, valuesSize, List.map_cons, List.sum_cons, valueSize]
      omega
    rw [if_neg hnone, oldData, if_pos hlong, ← encodeValues_length, List.take_length]

/-- One value more for a device that is registered. -/
theorem addValue_device {i : Nat} {device : Device} (h : devices[i]? = some device) {nm vl : Bytes} (hvl : vl ≠ [])
    (hsize : stringSize (devices.set i (device.add (cstr nm, vl))) < 2 ^ 32) :
    devpropAddValue i (some nm) (some vl) (stringOf devices) = stringOf (devices.set i (device.add (cstr nm, vl))) := by
  have hentry : (stringOf devices).entries[i]? = some device.entry := by
    unfold stringOf
    rw [List.getElem?_map, h]
    rfl
  have hgrown := stringSize_set h (device.add (cstr nm, vl)) (by rw [size_add]; omega)
  rw [size_add, Nat.add_sub_cancel_left] at hgrown
  have hpositive : vl.length ≠ 0 := fun h0 => hvl (List.length_eq_zero_iff.mp h0)
  have hvalue : (cstr nm).length * 2 + vl.length + 2 * 4 + 2 = valueSize (cstr nm, vl) := by
    rw [valueSize]
    dsimp only
    omega
  have hmember : device.size ≤ stringSize devices := by
    rw [stringSize]
    have := List.le_sum_of_mem (List.mem_map_of_mem (f := Device.size) (List.mem_of_getElem? h))
    omega
  have hoffset : u32 ((device.entry.length : Int) - fixedLength device.entry.pciDevPath.length) = valuesSize device.values := by
    have hlength : device.entry.length = fixedLength device.entry.pciDevPath.length + valuesSize device.values := by
      unfold Device.entry
      dsimp only
      rw [List.length_map, Device.size]
    have hlt : device.entry.length < 2 ^ 32 := Nat.lt_of_le_of_lt hmember (by omega)
    rw [u32_sub (by omega) (by omega)]
    omega
  have hlengths : (device.entry.length + valueSize (cstr nm, vl)) % 2 ^ 32 = (device.add (cstr nm, vl)).size ∧
      ((stringOf devices).length + valueSize (cstr nm, vl)) % 2 ^ 32 = stringSize (devices.set i (device.add (cstr nm, vl))) := by
    have hstring : (stringOf devices).length = stringSize devices := rfl
    rw [hgrown, size_add, hstring]
    constructor
    · exact Nat.mod_eq_of_lt (Nat.lt_of_le_of_lt (Nat.add_le_add_right hmember _) (by omega))
    · exact Nat.mod_eq_of_lt (by omega)
  unfold devpropAddValue
  rw [hentry]
  dsimp only
  have hfits : valueSize (cstr nm, vl) < 2 ^ 32 := by omega
  rw [if_neg hpositive, hvalue, Nat.mod_eq_of_lt hfits, hoffset, oldData_eq, hlengths.1, hlengths.2]
  unfold stringOf
  rw [List.map_set, List.length_set]
  congr 2
  unfold Device.entry Device.add
  dsimp only
  rw [if_neg (List.append_ne_nil_of_right_ne_nil _ (List.cons_ne_nil _ _)), encodeValues_append, List.length_append, List.length_singleton,
    Nat.mod_add_mod]
  rfl

theorem addValue_eq (device : Nat) (nm vl : Option Bytes)
    (hsize : stringSize (Call.register pciRootUID devices (.addValue device nm vl)) < 2 ^ 32) :
    devpropAddValue device nm vl (stringOf devices) =
      stringOf (Call.register pciRootUID devices (.addValue device nm vl)) := by
  have hentries : (stringOf devices).entries[device]? = devices[device]?.map Device.entry := by
    unfold stringOf
    rw [List.getElem?_map]
  cases nm with
  | none =>
      unfold devpropAddValue
      cases (stringOf devices).entries[device]? <;> rfl
  | some nm =>
      cases vl with
      | none =>
          unfold devpropAddValue
          cases (stringOf devices).entries[device]? <;> rfl
      | some vl =>
          rw [Call.register] at hsize ⊢
          by_cases hvl : vl = []
          · rw [if_pos hvl]
            unfold devpropAddValue
            cases (stringOf devices).entries[device]? with
            | none => rfl
            | some entry =>
                dsimp only
                rw [if_pos (by rw [hvl]; rfl)]
          · rw [if_neg hvl] at hsize ⊢
            cases hdevice : devices[device]? with
            | none =>
                rw [List.modify_eq_self (List.getElem?_eq_none_iff.mp hdevice)]
                unfold devpropAddValue
                rw [hentries, hdevice]
                rfl
            | some registered =>
                rw [modify_of_getElem hdevice] at hsize ⊢
                exact addValue_device hdevice hvl hsize

theorem stringSize_register (call : Call) : stringSize devices ≤ stringSize (Call.register pciRootUID devices call) := by
  cases call with
  | addDevicePci path =>
      rw [Call.register]
      cases registered pciRootUID path with
      | none => exact Nat.le_refl _
      | some device =>
          dsimp only
          rw [stringSize_append]
          exact Nat.le_add_right _ _
  | addValue device nm vl =>
      cases nm with
      | none => exact Nat.le_refl _
      | some nm =>
          cases vl with
          | none => exact Nat.le_refl _
          | some vl =>
              rw [Call.register]
              split_ifs
              · exact Nat.le_refl _
              · cases hdevice : devices[device]? with
                | none => rw [List.modify_eq_self (List.getElem?_eq_none_iff.mp hdevice)]
                | some found =>
                    rw [modify_of_getElem hdevice, stringSize_set hdevice _ (by rw [size_add]; omega)]
                    exact Nat.le_add_right _ _

theorem runCalls_eq (pciRootUID : UInt16) (calls : List Call) (hsize : stringSize (registerCalls pciRootUID calls) < 2 ^ 32) :
    runCalls pciRootUID calls = stringOf (registerCalls pciRootUID calls) := by
  induction calls using List.reverseRecOn with
  | nil => rfl
  | append_singleton calls call ih =>
      have hrun : runCalls pciRootUID (calls ++ [call]) = Call.run pciRootUID (runCalls pciRootUID calls) call :=
        List.foldl_concat _ _ _ _
      have hregister : registerCalls pciRootUID (calls ++ [call]) =
          Call.register pciRootUID (registerCalls pciRootUID calls) call := List.foldl_concat _ _ _ _
      rw [hregister] at hsize ⊢
      rw [hrun, ih (Nat.lt_of_le_of_lt (stringSize_register call) hsize)]
      cases call with
      | addDevicePci path => exact addDevicePci_eq path hsize
      | addValue device nm vl => exact addValue_eq device nm vl hsize

/-! ### The round trip -/

/-- The name of a value is at most 32764 characters long, so that its length fits two bytes. -/
def Call.NameFits : Call → Prop
  | .addDevicePci _ => True
  | .addValue _ nm _ => ∀ name ∈ nm, (cstr name).length ≤ 32764

def Named (devices : List Device) : Prop :=
  ∀ device ∈ devices, ∀ value ∈ device.values, value.1.length ≤ 32764 ∧ 0 ∉ value.1

theorem named_register {call : Call} (h : Named devices) (hcall : call.NameFits) :
    Named (Call.register pciRootUID devices call) := by
  cases call with
  | addDevicePci path =>
      rw [Call.register]
      cases hdevice : registered pciRootUID path with
      | none => exact h
      | some device =>
          intro other hmem
          rcases List.mem_append.mp hmem with hmem | hmem
          · exact h other hmem
          · obtain rfl := List.mem_singleton.mp hmem
            have hvalues : other.values = [] := by
              unfold registered at hdevice
              split at hdevice
              next =>
                obtain ⟨-, hnew⟩ := Option.ite_none_right_eq_some.mp hdevice
                rw [← Option.some_inj.mp hnew]
              next => cases hdevice
            rw [hvalues]
            exact List.forall_mem_nil _
  | addValue device nm vl =>
      cases nm with
      | none => exact h
      | some nm =>
          cases vl with
          | none => exact h
          | some vl =>
              rw [Call.register]
              split_ifs
              · exact h
              · cases hdevice : devices[device]? with
                | none =>
                    rw [List.modify_eq_self (List.getElem?_eq_none_iff.mp hdevice)]
                    exact h
                | some found =>
                    rw [modify_of_getElem hdevice]
                    intro other hmem
                    rcases List.mem_or_eq_of_mem_set hmem with hmem | rfl
                    · exact h other hmem
                    · intro value hvalue
                      rcases List.mem_append.mp hvalue with hvalue | hvalue
                      · exact h found (List.mem_of_getElem? hdevice) value hvalue
                      · obtain rfl := List.mem_singleton.mp hvalue
                        exact ⟨hcall nm rfl, zero_not_mem_cstr nm⟩

theorem named_registerCalls (pciRootUID : UInt16) {calls : List Call} (h : ∀ call ∈ calls, call.NameFits) :
    Named (registerCalls pciRootUID calls) := by
  induction calls using List.reverseRecOn with
  | nil => exact List.forall_mem_nil _
  | append_singleton calls call ih =>
      rw [List.forall_mem_append] at h
      have hregister : registerCalls pciRootUID (calls ++ [call]) =
          Call.register pciRootUID (registerCalls pciRootUID calls) call := List.foldl_concat _ _ _ _
      rw [hregister]
      exact named_register (ih h.1) (h.2 call List.mem_cons_self)

/-- The C string that is generated. -/
def generatedText (upper : Bool) (memory : Memory) (buffer : Nat) (s : DevPropString) : Bytes :=
  textAt (devpropGenerateString upper memory buffer s).memory (2 ^ 32) buffer

/-- The lengths are kept, and the text is that of the devices. -/
structure RoundTrips (upper : Bool) (memory : Memory) (buffer : Nat) (pciRootUID : UInt16) (calls : List Call) : Prop where
  length : (runCalls pciRootUID calls).length = 12 + ((runCalls pciRootUID calls).entries.map DevPropDevice.length).sum
  lengths : (runCalls pciRootUID calls).entries.map DevPropDevice.length =
    (registerCalls pciRootUID calls).map fun device => 24 + 6 * device.paths.length + (device.values.map valueSize).sum
  digits : (generatedText upper memory buffer (runCalls pciRootUID calls)).length = 2 * (runCalls pciRootUID calls).length ∧
    ∀ c ∈ generatedText upper memory buffer (runCalls pciRootUID calls), isHexDigit c = true
  devices : parseString (deviceProps (generatedText upper memory buffer (runCalls pciRootUID calls))) =
    some (registerCalls pciRootUID calls)

theorem generatedText_eq (upper : Bool) (memory : Memory) (buffer : Nat) (hpos : devices ≠ [])
    (hcount : devices.length ≤ 64) (hsize : stringSize devices < 2 ^ 30) :
    generatedText upper memory buffer (stringOf devices) = hexText upper (encodeString devices) := by
  have hwrote := devpropGenerateString_wrote upper memory buffer hpos (by omega) (by omega)
  apply textAt_eq
  · rw [holds_append, hwrote.held, Bool.true_and, ← hwrote.behind, holds, holds, Bool.and_true, beq_iff_eq]
    apply hwrote.ended
    intro hnil
    have hlength := congrArg List.length hnil
    rw [hexText_length, encodeString_length, stringSize, List.length_nil] at hlength
    omega
  · exact zero_not_mem_hexText upper _
  · rw [hexText_length, encodeString_length]
    omega

theorem deviceProps_hexText (upper : Bool) (hsize : stringSize devices < 2 ^ 30) :
    deviceProps (hexText upper (encodeString devices)) = encodeString devices := by
  have hlength := encodeString_length devices
  have hlong : 12 ≤ stringSize devices := Nat.le_add_right _ _
  unfold deviceProps
  rw [hexText_length, if_pos (by omega), Nat.mul_div_cancel_left _ (by decide)]
  exact hex2bin_hexText upper (by omega)

theorem devprop_roundTrip (upper : Bool) (memory : Memory) (buffer : Nat) (pciRootUID : UInt16) (calls : List Call)
    (hpos : 1 ≤ (registerCalls pciRootUID calls).length) (hcount : (registerCalls pciRootUID calls).length ≤ 64)
    (hnames : ∀ call ∈ calls, call.NameFits) (hsize : stringSize (registerCalls pciRootUID calls) < 2 ^ 30) :
    RoundTrips upper memory buffer pciRootUID calls := by
  have hrun : runCalls pciRootUID calls = stringOf (registerCalls pciRootUID calls) := runCalls_eq pciRootUID calls (by omega)
  have hnamed := named_registerCalls pciRootUID hnames
  have hlengths : (stringOf (registerCalls pciRootUID calls)).entries.map DevPropDevice.length =
      (registerCalls pciRootUID calls).map Device.size := by
    unfold stringOf
    rw [List.map_map]
    rfl
  have htext := generatedText_eq upper memory buffer (List.length_pos_iff.mp hpos) hcount hsize
  have hreadable : ∀ device ∈ registerCalls pciRootUID calls, device.Readable := by
    intro device hdevice value hvalue
    obtain ⟨hname, hnul⟩ := hnamed device hdevice value hvalue
    have hvalues := List.le_sum_of_mem (List.mem_map_of_mem (f := valueSize) hvalue)
    have hdevices := List.le_sum_of_mem (List.mem_map_of_mem (f := Device.size) hdevice)
    rw [Device.size, valuesSize] at hdevices
    rw [stringSize] at hsize
    rw [valueSize] at hvalues
    exact ⟨hname, hnul, by omega⟩
  constructor
  · rw [hrun, hlengths]
    rfl
  · rw [hrun, hlengths]
    rfl
  · rw [hrun, htext, hexText_length, encodeString_length]
    exact ⟨rfl, isHexDigit_hexText upper _⟩
  · rw [hrun, htext, deviceProps_hexText upper hsize]
    exact parseString_encode hreadable (by omega)

/-- A device below the root bridge, reached through one PCI node. -/
def bridgePath : List PathNode := [⟨2, 1, 12, 0, 0, 0⟩, ⟨1, 1, 6, 0, 28, 0⟩]

def networkCalls : List Call :=
  [.addDevicePci (some bridgePath), .addValue 0 (some (ascii "built-in")) (some [1]),
    .addDevicePci (some (bridgePath ++ [⟨1, 1, 6, 2, 0, 0⟩])), .addValue 1 (some (ascii "layout-id")) (some [12, 0, 0, 0]),
    .addValue 0 (some (ascii "device_type")) (some (ascii "ethernet"))]

theorem networkCalls_roundTrip : RoundTrips true (fun _ => 0) 4096 0xFFFF networkCalls := by
  have hnames : ∀ call ∈ networkCalls, call.NameFits := by
    simp only [networkCalls, List.forall_mem_cons, Call.NameFits, Option.mem_def, Option.some.injEq, forall_eq']
    exact ⟨trivial, by decide, trivial, by decide, by decide, List.forall_mem_nil _⟩
  exact devprop_roundTrip true (fun _ => 0) 4096 0xFFFF networkCalls (by decide +kernel) (by decide +kernel) hnames
    (by decide +kernel)

/-- A name of 32765 characters. -/
def longName : Bytes := List.replicate 32765 97

def longNameCalls : List Call := [.addDevicePci (some bridgePath), .addValue 0 (some longName) (some [1])]

/-- Its length is written as 0. -/
theorem longNameCalls_lost : ¬ RoundTrips true (fun _ => 0) 4096 0xFFFF longNameCalls := by
  intro h
  have hname : cstr longName = longName := by
    apply List.takeWhile_eq_self_iff.mpr
    intro c hc
    rw [List.eq_of_mem_replicate hc]
    rfl
  have hregister : registerCalls 0xFFFF longNameCalls = [⟨0, [⟨6, 0, 28⟩], [(longName, [1])]⟩] := by
    rw [← hname]
    rfl
  have hsize : stringSize [⟨0, [⟨6, 0, 28⟩], [(longName, [1])]⟩] = 65583 := by
    have hlength : longName.length = 32765 := List.length_replicate
    simp only [stringSize, Device.size, valuesSize, valueSize, List.map_cons, List.map_nil, List.sum_cons, List.sum_nil, hlength,
      List.length_cons, List.length_nil, fixedLength]
    rfl
  have hrun := runCalls_eq 0xFFFF longNameCalls (by rw [hregister, hsize]; decide)
  have hdevices := h.devices
  rw [hrun, hregister, generatedText_eq true _ _ (List.cons_ne_nil _ _) (by decide) (by rw [hsize]; decide),
    deviceProps_hexText true (by rw [hsize]; decide)] at hdevices
  have hlength : longName.length = 32765 := List.length_replicate
  have hlost : parseString (encodeString [⟨0, [⟨6, 0, 28⟩], [(longName, [1])]⟩]) = none :=
    parseString_long rfl (by rw [hlength]; decide) (by rw [hlength]; decide) (by rw [hsize]; decide)
  rw [hlost] at hdevices
  cases hdevices

end Calls

end BareBoot.DevProp
