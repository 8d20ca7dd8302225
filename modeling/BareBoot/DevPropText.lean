import BareBoot.DevPropParse

/-! The text `devprop_generate_string` writes: two digits for each byte of the devices. -/

namespace BareBoot.DevProp

open Kext
open Plist (Bytes cstr ascii)

def PciNode.path (node : PciNode) : PciDevPath := ⟨1, 1, node.length, node.function, node.device⟩

/-- The structure that stands for a device. -/
def Device.entry (device : Device) : DevPropDevice where
  length := device.size
  numEntries := device.values.length % 2 ^ 16
  uid := device.uid
  pciDevPath := device.paths.map PciNode.path
  data := if device.values = [] then none else some (encodeValues device.values)

def stringOf (devices : List Device) : DevPropString := ⟨stringSize devices, devices.length % 2 ^ 16, devices.map Device.entry⟩

/-- The printer has written the text and its terminator. -/
structure Wrote (base : Nat) (text : Bytes) (p : Printer) : Prop where
  held : holds p.memory base text = true
  behind : p.buffer = base + text.length
  ended : text ≠ [] → p.memory p.buffer = 0

section Print

variable (upper : Bool) {len base : Nat} {text : Bytes} {p : Printer}

theorem Wrote.print (h : Wrote base text p) {bytes more : Bytes} (step : Nat) (hmore : more = hexText upper bytes)
    (hstep : step = 2 * bytes.length) (hlen : step < len) : Wrote base (text ++ hexText upper bytes) (asciiSPrint len more step p) := by
  have hlength : (hexText upper bytes).length = step := by rw [hexText_length, hstep]
  have htake : (hexText upper bytes).take (len - 1) = hexText upper bytes := List.take_of_length_le (by omega)
  have hstored : holds (store p.memory p.buffer (hexText upper bytes ++ [0])) p.buffer (hexText upper bytes ++ [0]) = true :=
    holds_store
  rw [holds_append, Bool.and_eq_true] at hstored
  subst hmore
  unfold asciiSPrint
  rw [htake]
  constructor
  · rw [holds_append, ← h.behind, Bool.and_eq_true, holds_store_before (Nat.le_of_eq h.behind.symm)]
    exact ⟨h.held, hstored.1⟩
  · dsimp only
    rw [List.length_append, hlength, h.behind, Nat.add_assoc]
  · intro _
    have hend := hstored.2
    rw [hlength] at hend
    exact (holds_cons.mp hend).1

/-- The digits of a byte. -/
theorem printHex_byte (c : UInt8) : printHex upper 2 c.toNat = hexText upper [c] := by
  have h := printHex_eq upper 1 c.toNat
  rw [wordBytes, wordBytes, UInt8.ofNat_toNat] at h
  exact h

theorem printPci_wrote (hlen : 24 < len) (node : PciNode) (h : Wrote base text p) :
    Wrote base (text ++ hexText upper (encodePci node)) (printPci upper len p node.path) := by
  have hstep : 12 = 2 * (encodePci node).length := rfl
  have hshort : 12 < len := by omega
  apply h.print upper 12 _ hstep hshort
  unfold PciNode.path
  dsimp only
  rw [printHex_byte, printHex_byte, printHex_byte, printHex_swapBytes upper 2, ← hexText_append, ← hexText_append,
    ← hexText_append, ← hexText_append]
  rfl

theorem printPaths_wrote (hlen : 24 < len) (paths : List PciNode) (h : Wrote base text p) :
    Wrote base (text ++ hexText upper (encodePaths paths)) ((paths.map PciNode.path).foldl (printPci upper len) p) := by
  induction paths generalizing text p with
  | nil =>
      rw [show hexText upper (encodePaths []) = [] from rfl, List.append_nil]
      exact h
  | cons node paths ih =>
      have hrest := ih (printPci_wrote upper hlen node h)
      rw [List.append_assoc, ← hexText_append] at hrest
      exact hrest

theorem printBytes_wrote (hlen : 24 < len) (bytes : Bytes) (h : Wrote base text p) :
    Wrote base (text ++ hexText upper bytes) (bytes.foldl (printByte upper len) p) := by
  induction bytes generalizing text p with
  | nil =>
      rw [show hexText upper [] = [] from rfl, List.append_nil]
      exact h
  | cons c bytes ih =>
      have hshort : 2 < len := by omega
      have hfirst : Wrote base (text ++ hexText upper [c]) (printByte upper len p c) :=
        h.print upper 2 (printHex_byte upper c) rfl hshort
      have hrest := ih hfirst
      rw [List.append_assoc, ← hexText_append] at hrest
      exact hrest

/-- The head of a device: its length and the number of its values. -/
theorem printHead_eq (device : Device) :
    printHex upper 8 (swapBytes 4 device.size) ++ printHex upper 4 (swapBytes 2 (device.values.length % 2 ^ 16)) ++
      printHex upper 4 0 =
      hexText upper (wordBytes 4 device.size ++ wordBytes 2 device.values.length ++ [0, 0]) := by
  have hcount : wordBytes 2 (device.values.length % 2 ^ 16) = wordBytes 2 device.values.length := wordBytes_mod 2 _
  have hzero : printHex upper 4 0 = hexText upper [0, 0] := printHex_eq upper 2 0
  rw [printHex_swapBytes upper 4, printHex_swapBytes upper 2, hcount, hzero, ← hexText_append, ← hexText_append]

theorem printRoot_eq (uid : UInt32) :
    printHex upper 2 2 ++ printHex upper 2 1 ++ printHex upper 4 (swapBytes 2 12) ++ printHex upper 8 0xd041030a ++
      printHex upper 8 (swapBytes 4 uid.toNat) =
      hexText upper ([2, 1, 12, 0, 0xd0, 0x41, 0x03, 0x0a] ++ wordBytes 4 uid.toNat) := by
  have htype : printHex upper 2 2 = hexText upper [2] := printHex_eq upper 1 2
  have hsub : printHex upper 2 1 = hexText upper [1] := printHex_eq upper 1 1
  have hlength : printHex upper 4 (swapBytes 2 12) = hexText upper [12, 0] := printHex_swapBytes upper 2 12
  have hhid : printHex upper 8 0xd041030a = hexText upper [0xd0, 0x41, 0x03, 0x0a] := printHex_eq upper 4 0xd041030a
  rw [htype, hsub, hlength, hhid, printHex_swapBytes upper 4, ← hexText_append, ← hexText_append, ← hexText_append,
    ← hexText_append]
  rfl

theorem printEnd_eq : printHex upper 2 0x7f ++ printHex upper 2 0xff ++ printHex upper 4 (swapBytes 2 4) =
    hexText upper [0x7f, 0xff, 4, 0] := by
  have htype : printHex upper 2 0x7f = hexText upper [0x7f] := printHex_eq upper 1 0x7f
  have hsub : printHex upper 2 0xff = hexText upper [0xff] := printHex_eq upper 1 0xff
  have hlength : printHex upper 4 (swapBytes 2 4) = hexText upper [4, 0] := printHex_swapBytes upper 2 4
  rw [htype, hsub, hlength, ← hexText_append, ← hexText_append]
  rfl

/-- The values are printed as far as the length of the device says. -/
theorem printedData_eq (device : Device) (hsize : device.size < 2 ^ 31) :
    (device.entry.data.getD []).take
      (i32 (u32 ((device.entry.length : Int) - fixedLength device.entry.pciDevPath.length))).toNat =
      encodeValues device.values := by
  have hlength : device.entry.length = fixedLength device.entry.pciDevPath.length + valuesSize device.values := by
    unfold Device.entry
    dsimp only
    rw [List.length_map, Device.size]
  have hsmall : device.entry.length < 2 ^ 31 := hsize
  have hdata : device.entry.data.getD [] = encodeValues device.values := by
    unfold Device.entry
    dsimp only
    split_ifs with hnone
    · rw [hnone]
      rfl
    · rfl
  rw [u32_sub (by omega) (by omega), i32_natCast (by omega), Int.toNat_natCast, hdata]
  apply List.take_of_length_le
  rw [encodeValues_length]
  omega

/-- The bytes of a device, in the order they are printed. -/
theorem printDevice_wrote (hlen : 24 < len) (device : Device) (hsize : device.size < 2 ^ 31) (h : Wrote base text p) :
    Wrote base (text ++ hexText upper (encodeDevice device)) (printDevice upper len p device.entry) := by
  have h16 : 16 < len := by omega
  have h8 : 8 < len := by omega
  have hhead := h.print upper 16 (printHead_eq upper device) rfl h16
  have hroot := hhead.print upper 24 (printRoot_eq upper device.uid) rfl hlen
  have hpaths := printPaths_wrote upper hlen device.paths hroot
  have hend := hpaths.print upper 8 (printEnd_eq upper) rfl h8
  have hvalues := printBytes_wrote upper hlen (encodeValues device.values) hend
  simp only [List.append_assoc, ← hexText_append] at hvalues
  unfold printDevice
  dsimp only
  rw [printedData_eq device hsize]
  unfold encodeDevice
  simp only [List.append_assoc]
  exact hvalues

theorem printDevices_wrote (hlen : 24 < len) (devices : List Device) (hsize : ∀ device ∈ devices, device.size < 2 ^ 31)
    (h : Wrote base text p) :
    Wrote base (text ++ hexText upper (encodeDevices devices)) ((devices.map Device.entry).foldl (printDevice upper len) p) := by
  induction devices generalizing text p with
  | nil =>
      rw [show hexText upper (encodeDevices []) = [] from rfl, List.append_nil]
      exact h
  | cons device devices ih =>
      have hrest := ih (fun other hmem => hsize other (List.mem_cons_of_mem _ hmem))
        (printDevice_wrote upper hlen device (hsize device List.mem_cons_self) h)
      rw [List.append_assoc, ← hexText_append, ← encodeDevices_cons] at hrest
      rw [List.map_cons, List.foldl_cons]
      exact hrest

/-- The text of the devices, with its terminator, starts at the buffer. -/
theorem devpropGenerateString_wrote (memory : Memory) (buffer : Nat) {devices : List Device} (hpos : devices ≠ [])
    (hcount : devices.length < 2 ^ 16) (hsize : stringSize devices < 2 ^ 31) :
    Wrote buffer (hexText upper (encodeString devices)) (devpropGenerateString upper memory buffer (stringOf devices)) := by
  have hlen : stringSize devices * 2 % 2 ^ 32 = stringSize devices * 2 := Nat.mod_eq_of_lt (by omega)
  have hmod : devices.length % 2 ^ 16 = devices.length := Nat.mod_eq_of_lt hcount
  have hlong : 24 < stringSize devices * 2 := by
    obtain ⟨device, rest, rfl⟩ := List.exists_cons_of_ne_nil hpos
    rw [stringSize, List.map_cons, List.sum_cons, Device.size, fixedLength]
    omega
  have hall : ∀ device ∈ devices, device.size < 2 ^ 31 := by
    intro device hmem
    have hle := List.le_sum_of_mem (List.mem_map_of_mem (f := Device.size) hmem)
    rw [stringSize] at hsize
    omega
  have hstart : Wrote buffer [] ⟨memory, buffer⟩ := ⟨rfl, rfl, fun h => absurd rfl h⟩
  have hhead : printHex upper 8 (swapBytes 4 (stringSize devices)) ++ printHex upper 8 0x01000000 ++
      printHex upper 4 (swapBytes 2 devices.length) ++ printHex upper 4 0 =
      hexText upper (wordBytes 4 (stringSize devices) ++ [1, 0, 0, 0] ++ wordBytes 2 devices.length ++ [0, 0]) := by
    have hone : printHex upper 8 0x01000000 = hexText upper [1, 0, 0, 0] := printHex_eq upper 4 0x01000000
    have hzero : printHex upper 4 0 = hexText upper [0, 0] := printHex_eq upper 2 0
    rw [printHex_swapBytes upper 4, hone, printHex_swapBytes upper 2, hzero, ← hexText_append, ← hexText_append,
      ← hexText_append]
  have hfirst := hstart.print upper 24 hhead rfl hlong
  have hrest := printDevices_wrote upper hlong devices hall hfirst
  rw [List.nil_append, ← hexText_append] at hrest
  unfold devpropGenerateString stringOf
  dsimp only
  rw [hlen, hmod, ← List.map_take, List.take_length]
  exact hrest

end Print

end BareBoot.DevProp
