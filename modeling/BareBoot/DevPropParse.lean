import BareBoot.DevProp

/-! What the bytes of a device property string say: the devices with their PCI paths and values. Devices and
values are told apart by their lengths, the nodes of a device path by their types. -/

namespace BareBoot.DevProp

open Plist (Bytes cstr ascii)

structure PciNode where
  length : UInt16
  function : UInt8
  device : UInt8
  deriving DecidableEq, Repr

/-- A value is a name and its data. -/
structure Device where
  uid : UInt32
  paths : List PciNode
  values : List (Bytes × Bytes)
  deriving DecidableEq, Repr

/-! ### Bytes of devices -/

def valueSize (value : Bytes × Bytes) : Nat := 2 * value.1.length + value.2.length + 10

def valuesSize (values : List (Bytes × Bytes)) : Nat := (values.map valueSize).sum

def Device.size (device : Device) : Nat := fixedLength device.paths.length + valuesSize device.values

def stringSize (devices : List Device) : Nat := 12 + (devices.map Device.size).sum

def encodeValue (value : Bytes × Bytes) : Bytes := valueBytes (valueSize value) value.1 value.2

def encodeValues (values : List (Bytes × Bytes)) : Bytes := (values.map encodeValue).flatten

def encodePci (node : PciNode) : Bytes := [1, 1] ++ wordBytes 2 node.length.toNat ++ [node.function, node.device]

def encodePaths (paths : List PciNode) : Bytes := (paths.map encodePci).flatten

def encodeDevice (device : Device) : Bytes :=
  wordBytes 4 device.size ++ wordBytes 2 device.values.length ++ [0, 0] ++
    ([2, 1, 12, 0, 0xd0, 0x41, 0x03, 0x0a] ++ wordBytes 4 device.uid.toNat) ++ encodePaths device.paths ++
    [0x7f, 0xff, 4, 0] ++ encodeValues device.values

def encodeDevices (devices : List Device) : Bytes := (devices.map encodeDevice).flatten

def encodeString (devices : List Device) : Bytes :=
  wordBytes 4 (stringSize devices) ++ [1, 0, 0, 0] ++ wordBytes 2 devices.length ++ [0, 0] ++ encodeDevices devices

/-! ### Reading -/

def takeBytes (count : Nat) (bytes : Bytes) : Option (Bytes × Bytes) :=
  if count ≤ bytes.length then some (bytes.take count, bytes.drop count) else none

def takeWord (width : Nat) (bytes : Bytes) : Option (Nat × Bytes) :=
  (takeBytes width bytes).map fun r => (bytesWord r.1, r.2)

/-- The characters of a terminated UTF-16 text. -/
def narrow : Bytes → Option Bytes
  | c :: high :: rest =>
      if high ≠ 0 then none
      else if c = 0 then (if rest = [] then some [] else none)
      else (narrow rest).map (c :: ·)
  | _ => none

/-- A field with its length in front; the length counts itself. -/
def takeField (bytes : Bytes) : Option (Bytes × Bytes) := do
  let length ← takeWord 4 bytes
  if length.1 < 4 then none else takeBytes (length.1 - 4) length.2

def parseValue (bytes : Bytes) : Option ((Bytes × Bytes) × Bytes) := do
  let name ← takeField bytes
  let text ← narrow name.1
  let data ← takeField name.2
  some ((text, data.1), data.2)

def parseValues : Nat → Bytes → Option (List (Bytes × Bytes))
  | _, [] => some []
  | 0, _ :: _ => none
  | count + 1, c :: cs => do
      let value ← parseValue (c :: cs)
      (parseValues count value.2).map (value.1 :: ·)

/-- The PCI nodes in front of the end node. -/
def parsePaths : Bytes → Option (List PciNode × Bytes)
  | type :: subType :: l :: h :: rest =>
      if type = 0x7f ∧ subType = 0xff then some ([], rest)
      else
        match rest with
        | function :: device :: rest =>
            if type = 1 ∧ subType = 1 then
              (parsePaths rest).map fun r => (⟨UInt16.ofNat (bytesWord [l, h]), function, device⟩ :: r.1, r.2)
            else none
        | _ => none
  | _ => none

/-- The device behind its length, its count and two bytes without a meaning. -/
def parseBody (body : Bytes) : Option Device :=
  match body with
  | 2 :: 1 :: 12 :: 0 :: 0xd0 :: 0x41 :: 0x03 :: 0x0a :: u0 :: u1 :: u2 :: u3 :: nodes => do
      let paths ← parsePaths nodes
      let values ← parseValues paths.2.length paths.2
      some ⟨UInt32.ofNat (bytesWord [u0, u1, u2, u3]), paths.1, values⟩
  | _ => none

def parseDevices : Nat → Bytes → Option (List Device)
  | _, [] => some []
  | 0, _ :: _ => none
  | count + 1, c :: cs => do
      let length ← takeWord 4 (c :: cs)
      let whole ← takeBytes length.1 (c :: cs)
      let device ← parseBody (whole.1.drop 8)
      (parseDevices count whole.2).map (device :: ·)

def parseString (bytes : Bytes) : Option (List Device) := do
  let length ← takeWord 4 bytes
  if length.1 = bytes.length then parseDevices bytes.length (bytes.drop 12) else none

/-! ### What is written is read -/

section RoundTrip

variable {rest : Bytes}

theorem takeBytes_append {s : Bytes} {count : Nat} (h : s.length = count) : takeBytes count (s ++ rest) = some (s, rest) := by
  subst h
  rw [takeBytes, if_pos (by rw [List.length_append]; omega), List.take_left, List.drop_left]

theorem takeWord_append {width value : Nat} (h : value < 256 ^ width) :
    takeWord width (wordBytes width value ++ rest) = some (value, rest) := by
  rw [takeWord, takeBytes_append (wordBytes_length width value), Option.map_some, bytesWord_wordBytes_of_lt h]

theorem takeField_append {s : Bytes} (h : s.length + 4 < 2 ^ 32) :
    takeField (wordBytes 4 (s.length + 4) ++ (s ++ rest)) = some (s, rest) := by
  rw [takeField, takeWord_append h, Option.bind_eq_bind, Option.bind_some]
  dsimp only
  rw [if_neg (by omega)]
  exact takeBytes_append (Nat.add_sub_cancel _ _).symm

theorem narrow_widened {name : Bytes} (h : 0 ∉ name) : narrow ((name.map fun c => [c, 0]).flatten ++ [0, 0]) = some name := by
  induction name with
  | nil => rfl
  | cons c name ih =>
      have hc : c ≠ 0 := fun h0 => h (List.mem_cons.mpr (Or.inl h0.symm))
      rw [List.map_cons, List.flatten_cons, List.append_assoc, List.cons_append, List.singleton_append, narrow,
        if_neg (not_not_intro rfl), if_neg hc, ih fun hmem => h (List.mem_cons_of_mem _ hmem)]
      rfl

/-- The names whose length fits its two bytes, and lengths of data that fit their four. -/
structure Short (value : Bytes × Bytes) : Prop where
  name : value.1.length ≤ 32764
  text : 0 ∉ value.1
  data : value.2.length + 4 < 2 ^ 32

theorem widened_length (name : Bytes) : ((name.map fun c => [c, (0 : UInt8)]).flatten).length = 2 * name.length := by
  induction name with
  | nil => rfl
  | cons c name ih =>
      simp only [List.map_cons, List.flatten_cons, List.length_append, List.length_cons, List.length_nil, ih]
      omega

theorem encodeValue_eq (value : Bytes × Bytes) : encodeValue value =
    [UInt8.ofNat (value.1.length * 2 + 6), UInt8.ofNat ((value.1.length * 2 + 6) / 256), 0, 0] ++
      ((value.1.map fun c => [c, 0]).flatten ++ [0, 0]) ++ wordBytes 4 (value.2.length + 4) ++ value.2 := by
  unfold encodeValue valueBytes
  apply List.take_of_length_le
  simp only [List.length_append, widened_length, wordBytes_length, valueSize, List.length_cons, List.length_nil]
  omega

theorem encodeValue_length (value : Bytes × Bytes) : (encodeValue value).length = valueSize value := by
  rw [encodeValue_eq]
  simp only [List.length_append, widened_length, wordBytes_length, valueSize, List.length_cons, List.length_nil]
  omega

/-- The length of a short name fits the two bytes that are written of it. -/
theorem header_eq {l : Nat} (h : l ≤ 32764) :
    ([UInt8.ofNat (l * 2 + 6), UInt8.ofNat ((l * 2 + 6) / 256), 0, 0] : Bytes) = wordBytes 4 (2 * l + 2 + 4) := by
  have hnext : (l * 2 + 6) / 256 / 256 = 0 := by omega
  rw [show 2 * l + 2 + 4 = l * 2 + 6 by omega, wordBytes, wordBytes, wordBytes, wordBytes, wordBytes, hnext]
  rfl

theorem parseValue_append {value : Bytes × Bytes} (h : Short value) :
    parseValue (encodeValue value ++ rest) = some (value, rest) := by
  have hname := h.name
  have hlen : ((value.1.map fun c => [c, (0 : UInt8)]).flatten ++ [0, 0]).length = 2 * value.1.length + 2 := by
    rw [List.length_append, widened_length]
    rfl
  rw [encodeValue_eq, header_eq h.name, ← hlen]
  rw [List.append_assoc, List.append_assoc, List.append_assoc, parseValue, takeField_append (by rw [hlen]; omega),
    Option.bind_eq_bind, Option.bind_some, narrow_widened h.text, Option.bind_eq_bind, Option.bind_some,
    takeField_append h.data, Option.bind_some]

theorem encodeValues_cons (value : Bytes × Bytes) (values : List (Bytes × Bytes)) :
    encodeValues (value :: values) = encodeValue value ++ encodeValues values := by
  rw [encodeValues, List.map_cons, List.flatten_cons]
  rfl

theorem encodeValues_length (values : List (Bytes × Bytes)) : (encodeValues values).length = valuesSize values := by
  induction values with
  | nil => rfl
  | cons value values ih =>
      rw [encodeValues_cons, List.length_append, encodeValue_length, ih, valuesSize, valuesSize, List.map_cons, List.sum_cons]

theorem parseValues_encode {values : List (Bytes × Bytes)} (h : ∀ value ∈ values, Short value) (count : Nat)
    (hcount : values.length ≤ count) : parseValues count (encodeValues values) = some values := by
  induction values generalizing count with
  | nil => cases count <;> rfl
  | cons value values ih =>
      obtain ⟨count, rfl⟩ := Nat.exists_eq_succ_of_ne_zero (Nat.ne_of_gt (Nat.zero_lt_of_lt hcount))
      rw [encodeValues_cons]
      have hne : encodeValue value ++ encodeValues values ≠ [] := by
        rw [encodeValue_eq]
        nofun
      obtain ⟨c, cs, hcons⟩ := List.exists_cons_of_ne_nil hne
      have hparse : parseValue (c :: cs) = _ := hcons ▸ parseValue_append (h value List.mem_cons_self)
      rw [hcons, parseValues, hparse, Option.bind_eq_bind, Option.bind_some,
        ih (fun other hmem => h other (List.mem_cons_of_mem _ hmem)) count (Nat.le_of_succ_le_succ hcount)]
      rfl

theorem parsePaths_append (paths : List PciNode) :
    parsePaths (encodePaths paths ++ ([0x7f, 0xff, 4, 0] ++ rest)) = some (paths, rest) := by
  induction paths with
  | nil =>
      have hend : encodePaths [] ++ ([0x7f, 0xff, 4, 0] ++ rest) = 0x7f :: 0xff :: 4 :: 0 :: rest := rfl
      rw [hend, parsePaths.eq_def]
      exact if_pos ⟨rfl, rfl⟩
  | cons node paths ih =>
      have hlength : UInt16.ofNat (bytesWord (wordBytes 2 node.length.toNat)) = node.length := by
        rw [bytesWord_wordBytes_of_lt node.length.toNat_lt, UInt16.ofNat_toNat]
      have hcons : encodePaths (node :: paths) ++ ([0x7f, 0xff, 4, 0] ++ rest) =
          1 :: 1 :: UInt8.ofNat node.length.toNat :: UInt8.ofNat (node.length.toNat / 256) :: node.function :: node.device ::
            (encodePaths paths ++ ([0x7f, 0xff, 4, 0] ++ rest)) := by
        rw [encodePaths, List.map_cons, List.flatten_cons, List.append_assoc]
        rfl
      rw [hcons, parsePaths, if_neg (by decide), if_pos ⟨rfl, rfl⟩, ih]
      exact congrArg (fun length => some ((⟨length, node.function, node.device⟩ : PciNode) :: paths, rest)) hlength

/-- The values of a device can be told apart. -/
def Device.Readable (device : Device) : Prop := ∀ value ∈ device.values, Short value

theorem encodePaths_length (paths : List PciNode) : (encodePaths paths).length = 6 * paths.length := by
  induction paths with
  | nil => rfl
  | cons node paths ih =>
      have hone : (encodePci node).length = 6 := rfl
      rw [encodePaths, List.map_cons, List.flatten_cons, List.length_append, hone, List.length_cons]
      change 6 + (encodePaths paths).length = _
      omega

theorem encodeDevice_length (device : Device) : (encodeDevice device).length = device.size := by
  simp only [encodeDevice, List.length_append, wordBytes_length, encodePaths_length, encodeValues_length, List.length_cons,
    List.length_nil, Device.size, fixedLength]
  omega

theorem values_length_le (values : List (Bytes × Bytes)) : values.length ≤ (encodeValues values).length := by
  induction values with
  | nil => exact Nat.le_refl 0
  | cons value values ih =>
      rw [encodeValues_cons, List.length_append, List.length_cons, encodeValue_length, valueSize]
      omega

/-- What a device is read as, up to its values. -/
theorem parseBody_eq (device : Device) : parseBody ((encodeDevice device).drop 8) =
    (parseValues (encodeValues device.values).length (encodeValues device.values)).map fun values =>
      { device with values := values } := by
  have huid : UInt32.ofNat (bytesWord (wordBytes 4 device.uid.toNat)) = device.uid := by
    rw [bytesWord_wordBytes_of_lt device.uid.toNat_lt, UInt32.ofNat_toNat]
  have hbody : (encodeDevice device).drop 8 = 2 :: 1 :: 12 :: 0 :: 0xd0 :: 0x41 :: 0x03 :: 0x0a ::
      UInt8.ofNat device.uid.toNat :: UInt8.ofNat (device.uid.toNat / 256) :: UInt8.ofNat (device.uid.toNat / 256 / 256) ::
        UInt8.ofNat (device.uid.toNat / 256 / 256 / 256) ::
          (encodePaths device.paths ++ ([0x7f, 0xff, 4, 0] ++ encodeValues device.values)) := by
    unfold encodeDevice
    simp only [List.append_assoc]
    rfl
  rw [hbody, parseBody, parsePaths_append, Option.bind_eq_bind, Option.bind_some]
  cases parseValues (encodeValues device.values).length (encodeValues device.values) with
  | none => rfl
  | some values => exact congrArg (fun uid => some (⟨uid, device.paths, values⟩ : Device)) huid

theorem encodeDevices_cons (device : Device) (devices : List Device) :
    encodeDevices (device :: devices) = encodeDevice device ++ encodeDevices devices := by
  rw [encodeDevices, List.map_cons, List.flatten_cons]
  rfl

theorem encodeDevice_head (device : Device) : ∃ tail, encodeDevice device = wordBytes 4 device.size ++ tail := by
  unfold encodeDevice
  simp only [List.append_assoc]
  exact ⟨_, rfl⟩

theorem parseDevices_cons {device : Device} {devices : List Device} (hsize : device.size < 2 ^ 32) (count : Nat) :
    parseDevices (count + 1) (encodeDevices (device :: devices)) =
      (parseBody ((encodeDevice device).drop 8)).bind fun first =>
        (parseDevices count (encodeDevices devices)).map (first :: ·) := by
  obtain ⟨tail, htail⟩ := encodeDevice_head device
  have hlength : takeWord 4 (encodeDevice device ++ encodeDevices devices) =
      some (device.size, tail ++ encodeDevices devices) := by
    rw [htail, List.append_assoc]
    exact takeWord_append hsize
  have hne : encodeDevice device ++ encodeDevices devices ≠ [] := by
    rw [htail]
    nofun
  obtain ⟨c, cs, hcs⟩ := List.exists_cons_of_ne_nil hne
  rw [encodeDevices_cons, hcs, parseDevices, ← hcs, hlength, Option.bind_eq_bind, Option.bind_some,
    takeBytes_append (encodeDevice_length device), Option.bind_eq_bind, Option.bind_some]
  rfl

theorem parseDevices_encode {devices : List Device} (h : ∀ device ∈ devices, device.Readable)
    (hsize : stringSize devices < 2 ^ 32) (count : Nat) (hcount : devices.length ≤ count) :
    parseDevices count (encodeDevices devices) = some devices := by
  induction devices generalizing count with
  | nil => cases count <;> rfl
  | cons device devices ih =>
      obtain ⟨count, rfl⟩ := Nat.exists_eq_succ_of_ne_zero (Nat.ne_of_gt (Nat.zero_lt_of_lt hcount))
      rw [stringSize, List.map_cons, List.sum_cons] at hsize
      have hfirst : parseBody ((encodeDevice device).drop 8) = some device := by
        rw [parseBody_eq, parseValues_encode (h device List.mem_cons_self) _ (values_length_le _)]
        rfl
      have hrest := ih (fun other hmem => h other (List.mem_cons_of_mem _ hmem)) (by rw [stringSize]; omega) count
        (Nat.le_of_succ_le_succ hcount)
      rw [parseDevices_cons (by omega), hfirst, Option.bind_some, hrest]
      rfl

theorem encodeDevices_length (devices : List Device) : (encodeDevices devices).length = (devices.map Device.size).sum := by
  rw [encodeDevices, List.length_flatten, List.map_map]
  congr 2
  funext device
  exact encodeDevice_length device

theorem encodeString_length (devices : List Device) : (encodeString devices).length = stringSize devices := by
  simp only [encodeString, List.length_append, wordBytes_length, encodeDevices_length, List.length_cons, List.length_nil,
    stringSize]

theorem parseString_eq {devices : List Device} (hsize : stringSize devices < 2 ^ 32) :
    parseString (encodeString devices) = parseDevices (stringSize devices) (encodeDevices devices) := by
  have hdrop : (encodeString devices).drop 12 = encodeDevices devices := rfl
  have hhead : takeWord 4 (encodeString devices) = some (stringSize devices, (encodeString devices).drop 4) := by
    have hsplit : encodeString devices = wordBytes 4 (stringSize devices) ++ (encodeString devices).drop 4 := rfl
    rw [hsplit]
    exact takeWord_append hsize
  rw [parseString, hhead, Option.bind_eq_bind, Option.bind_some]
  dsimp only
  rw [encodeString_length, if_pos rfl, hdrop]

theorem devices_length_le (devices : List Device) : devices.length ≤ stringSize devices := by
  have hall : (devices.map Device.size).length ≤ (devices.map Device.size).sum := by
    apply List.length_le_sum_of_one_le
    intro size hmem
    obtain ⟨device, -, rfl⟩ := List.mem_map.mp hmem
    rw [Device.size, fixedLength]
    omega
  rw [List.length_map] at hall
  exact hall.trans (Nat.le_add_left _ _)

theorem parseString_encode {devices : List Device} (h : ∀ device ∈ devices, device.Readable)
    (hsize : stringSize devices < 2 ^ 32) : parseString (encodeString devices) = some devices := by
  rw [parseString_eq hsize]
  exact parseDevices_encode h hsize _ (devices_length_le devices)

/-! ### Longer names -/

theorem takeWord_header {l : Nat} : takeWord 4
    ([UInt8.ofNat (l * 2 + 6), UInt8.ofNat ((l * 2 + 6) / 256), 0, 0] ++ rest) = some ((l * 2 + 6) % 65536, rest) := by
  have hword : bytesWord [UInt8.ofNat (l * 2 + 6), UInt8.ofNat ((l * 2 + 6) / 256), 0, 0] = (l * 2 + 6) % 65536 := by
    rw [bytesWord, bytesWord, bytesWord, bytesWord, bytesWord, UInt8.toNat_ofNat', UInt8.toNat_ofNat']
    change _ % 2 ^ 8 + 256 * (_ % 2 ^ 8 + 256 * (0 + 256 * (0 + 256 * 0))) = _
    omega
  have htake : takeBytes 4 ([UInt8.ofNat (l * 2 + 6), UInt8.ofNat ((l * 2 + 6) / 256), 0, 0] ++ rest) = some (_, rest) :=
    takeBytes_append rfl
  rw [takeWord, htake, Option.map_some, hword]

/-- A longer name has lost its length. -/
theorem parseValue_long {value : Bytes × Bytes} (hlow : 32764 < value.1.length) (hhigh : value.1.length < 32768) :
    parseValue (encodeValue value ++ rest) = none := by
  rw [encodeValue_eq, List.append_assoc, List.append_assoc, List.append_assoc, parseValue, takeField, takeWord_header,
    Option.bind_eq_bind, Option.bind_eq_bind, Option.bind_some]
  dsimp only
  by_cases hfour : (value.1.length * 2 + 6) % 65536 < 4
  · rw [if_pos hfour]
    rfl
  · have hzero : (value.1.length * 2 + 6) % 65536 - 4 = 0 := by omega
    rw [if_neg hfour, hzero]
    rfl

theorem parseString_long {device : Device} {value : Bytes × Bytes} (hvalues : device.values = [value])
    (hlow : 32764 < value.1.length) (hhigh : value.1.length < 32768) (hsize : stringSize [device] < 2 ^ 32) :
    parseString (encodeString [device]) = none := by
  have hsum : stringSize [device] = 11 + device.size + 1 := by
    rw [stringSize, List.map_singleton, List.sum_singleton]
    omega
  have hone : encodeValues device.values = encodeValue value ++ [] := by rw [hvalues, encodeValues_cons]; rfl
  have hnone : parseValues (encodeValues device.values).length (encodeValues device.values) = none := by
    have hlength : (encodeValues device.values).length = valueSize value - 1 + 1 := by
      rw [hone, List.append_nil, encodeValue_length, valueSize]
      omega
    have hne : encodeValue value ++ [] ≠ [] := by
      rw [encodeValue_eq]
      nofun
    obtain ⟨c, cs, hcs⟩ := List.exists_cons_of_ne_nil hne
    rw [hlength, hone, hcs, parseValues, ← hcs, parseValue_long hlow hhigh]
    rfl
  rw [parseString_eq hsize, hsum, parseDevices_cons (by omega), parseBody_eq, hnone]
  rfl

end RoundTrip

end BareBoot.DevProp
