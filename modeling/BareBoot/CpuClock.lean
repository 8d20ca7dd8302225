import Mathlib.Algebra.Order.Ring.Nat

/-! The clocks of the processor: their detection, `GetCpuProps` of `cpu.c`, and what `GetUserSettings` makes of
configured ones. `DivU64x32` by zero has no result. -/

namespace BareBoot.Cpu

/-! ### Detection -/

def divU64x32 (dividend : UInt64) (divisor : UInt32) : Option UInt64 :=
  if divisor = 0 then none else some (dividend / divisor.toUInt64)

def bitFieldRead64 (operand : UInt64) (startBit endBit : Nat) : UInt64 :=
  UInt64.ofNat (operand.toNat / 2 ^ startBit % 2 ^ (endBit + 1 - startBit))

def bitFieldRead32 (operand : UInt32) (startBit endBit : Nat) : UInt32 :=
  UInt32.ofNat (operand.toNat / 2 ^ startBit % 2 ^ (endBit + 1 - startBit))

/-- The fields that the clocks depend on. -/
structure CpuStructure where
  vendor : UInt32
  family : UInt32
  extfamily : UInt32
  model : UInt32
  extmodel : UInt32
  subDivider : UInt32
  maxRatio : UInt32
  fsbFrequency : UInt64
  cpuFrequency : UInt64
  tscFrequency : UInt64
  processorInterconnectSpeed : UInt64
  turboMsr : UInt64
  deriving DecidableEq, Repr

def cpuVendorIntel : UInt32 := 0x756E6547
def cpuVendorAmd : UInt32 := 0x68747541

def msrEbcFrequencyId : UInt32 := 0x2C
def msrPlatformInfo : UInt32 := 0xCE
def msrIa32PerfStatus : UInt32 := 0x198
def k8FidvidStatus : UInt32 := 0xC0010042
def k10CofvidStatus : UInt32 := 0xC0010071

def cpuModelNehalem : UInt32 := 0x1A
def cpuModelNehalemEx : UInt32 := 0x2E

/-- Haswell, Haswell MB and ULT, Ivy Bridge and Ivy Bridge E5, Jaketown and Sandy Bridge. -/
def sandyBridgeModels : List UInt32 := [0x3C, 0x3F, 0x45, 0x3A, 0x3E, 0x2D, 0x2A]

/-- Clarkdale, Dales, Fields, Nehalem and Nehalem EX, Westmere and Westmere EX, Crystalwell, Broadwell HQ, Skylake U
and S. -/
def nehalemModels : List UInt32 := [0x25, 0x1F, 0x1E, 0x1A, 0x2E, 0x2C, 0x2F, 0x46, 0x47, 0x4E, 0x5E]

/-- Atom, Dothan, Merom, Penryn and Yonah. -/
def coreModels : List UInt32 := [0x1C, 0x0D, 0x0F, 0x17, 0x0E]

section Detection

/-! `msr` are the registers, a measurement is a poll count and the time stamps that passed, and `qpimult` is what is
found on the PCI bus of a Nehalem. -/

variable (msr : UInt32 → UInt64) (measurements : List (UInt32 × UInt64)) (qpimult : UInt32)

def shorter (tscDelta : UInt64) (m : UInt32 × UInt64) : UInt64 :=
  if m.1 ≤ 1 then tscDelta else if m.2 ≤ 30 then tscDelta else if m.2 < tscDelta then m.2 else tscDelta

/-- The shortest of the measurements that count. -/
def tscDelta : UInt64 := measurements.foldl shorter 0xFFFFFFFFFFFFFFFF

def measureTSCFrequency : Option UInt64 :=
  if 0x100000000 < tscDelta measurements then some 0 else divU64x32 (tscDelta measurements * 1000) 30

def aCpuRatio (extfamily : UInt32) : Option UInt32 :=
  if extfamily = 0 then some (((((msr k8FidvidStatus >>> 16) &&& 0x3f) >>> 2) + 4).toUInt32)
  else
    (divU64x32 ((msr k10CofvidStatus &&& 0x3f) + 0x10) ((1 : UInt32) <<< ((msr k10CofvidStatus >>> 6) &&& 0x7).toUInt32)).map
      UInt64.toUInt32

def aCpuProps (s : CpuStructure) : Option CpuStructure :=
  (aCpuRatio msr s.extfamily).bind fun maxRatio =>
    let maxRatio := if maxRatio = 0 then 1 else maxRatio
    (divU64x32 (s.tscFrequency <<< 1) maxRatio).map fun fsbFrequency =>
      { s with maxRatio := maxRatio * 5, fsbFrequency := fsbFrequency }

/-- A ratio of zero leaves the bus clock as it was. -/
def CpuStructure.setFsbFrequency (s : CpuStructure) (dividend : UInt64) : Option CpuStructure :=
  if s.maxRatio ≠ 0 then (divU64x32 dividend s.maxRatio).map fun fsbFrequency => { s with fsbFrequency := fsbFrequency }
  else some s

/-- The flex ratio is not kept. -/
def iCpuFamily06 (s : CpuStructure) : Option CpuStructure :=
  if s.model ∈ sandyBridgeModels then
    CpuStructure.setFsbFrequency { s with maxRatio := (msr msrPlatformInfo).toUInt8.toUInt32 } s.cpuFrequency
  else if s.model ∈ nehalemModels then
    let msr := msr msrPlatformInfo
    CpuStructure.setFsbFrequency
      { s with maxRatio := (bitFieldRead64 msr 8 15).toUInt8.toUInt32, turboMsr := msr + 1 } s.cpuFrequency
  else if s.model ∈ coreModels then
    let msr := msr msrIa32PerfStatus
    let subDivider := (bitFieldRead64 msr 46 46).toUInt32
    CpuStructure.setFsbFrequency
      { s with
        maxRatio := (bitFieldRead64 msr 8 12).toUInt8.toUInt32 * 10 + subDivider * 5
        turboMsr := (bitFieldRead64 msr 40 44).toUInt32.toUInt64
        subDivider := subDivider }
      (s.cpuFrequency * 10)
  else some { s with fsbFrequency := 100000000 }

/-- The bus clock of a scalable bus speed. -/
def busClock (model : UInt32) (sbspeed : UInt8) : UInt64 :=
  if sbspeed = 0 then if model = 3 ∨ model = 4 then 266670000 else 100000000
  else if sbspeed = 1 then 133330000
  else if sbspeed = 2 then 200000000
  else if sbspeed = 3 then 166670000
  else if sbspeed = 4 then if model = 6 then 333330000 else 100000000
  else 100000000

def iCpuFamily0F (s : CpuStructure) : Option CpuStructure :=
  if s.model < 2 then some { s with fsbFrequency := 100000000 }
  else
    let msr := msr msrEbcFrequencyId
    let sbspeed := (bitFieldRead64 msr 16 18).toUInt8
    CpuStructure.setFsbFrequency
      { s with maxRatio := (bitFieldRead64 msr 24 31).toUInt8.toUInt32, fsbFrequency := busClock s.model sbspeed }
      s.cpuFrequency

def iCpuNehalemProps (s : CpuStructure) : Option CpuStructure :=
  (divU64x32 s.fsbFrequency 1000000).map fun fsb =>
    let qpibusspeed := (qpimult * 2 * fsb.toUInt32).toUInt16
    let qpibusspeed := if qpibusspeed % 100 ≠ 0 then UInt16.ofNat ((qpibusspeed.toNat + 50) / 100 * 100) else qpibusspeed
    { s with processorInterconnectSpeed := qpibusspeed.toUInt64 }

/-- The extended family and model. -/
def CpuStructure.extended (s : CpuStructure) : CpuStructure :=
  { s with
    family := if s.family = 0x0f then s.family + s.extfamily else s.family
    model := s.model + (s.extmodel <<< 4) }

def iCpuProps (s : CpuStructure) : Option CpuStructure :=
  let s := s.extended
  (if s.family = 0x06 then iCpuFamily06 msr s else if s.family = 0x0f then iCpuFamily0F msr s else some s).bind fun s =>
    if s.model = cpuModelNehalem ∨ s.model = cpuModelNehalemEx then iCpuNehalemProps qpimult s else some s

/-- What `CPUID` tells of the processor; the structure is all zeros before. -/
def identified (vendor signature : UInt32) (tscFrequency : UInt64) : CpuStructure where
  vendor := vendor
  family := bitFieldRead32 signature 8 11
  extfamily := bitFieldRead32 signature 20 27
  model := bitFieldRead32 signature 4 7
  extmodel := bitFieldRead32 signature 16 19
  subDivider := 0
  maxRatio := 10
  fsbFrequency := 0
  cpuFrequency := tscFrequency
  tscFrequency := tscFrequency
  processorInterconnectSpeed := 0
  turboMsr := 0

def getCpuProps (vendor signature : UInt32) : Option CpuStructure :=
  (measureTSCFrequency measurements).bind fun tscFrequency =>
    let s := identified vendor signature tscFrequency
    if vendor = cpuVendorAmd then aCpuProps msr s
    else if vendor = cpuVendorIntel then iCpuProps msr qpimult s
    else some s

end Detection

/-! ### Settings -/

/-- The clocks of `GetUserSettings`; a setting that is not there is zero. -/
def getUserClocks (cpuFrequency fsbFrequency : UInt64) (s : CpuStructure) : Option CpuStructure :=
  let s :=
    if fsbFrequency ≠ 0 then
      { s with
        fsbFrequency := fsbFrequency
        cpuFrequency := if cpuFrequency = 0 then fsbFrequency * s.maxRatio.toUInt64 else s.cpuFrequency }
    else s
  if cpuFrequency ≠ 0 then
    let s := { s with cpuFrequency := cpuFrequency }
    if fsbFrequency = 0 then (divU64x32 s.cpuFrequency s.maxRatio).map fun fsb => { s with fsbFrequency := fsb }
    else some s
  else some s

end BareBoot.Cpu
