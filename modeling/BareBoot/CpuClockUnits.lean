import BareBoot.CpuClock

/-! The units of the ratio: which processors leave a ratio of zero, and for which of them the frequency computed from
a configured bus clock is the detected one. -/

namespace BareBoot.Cpu

/-! ### Kinds of clocks -/

/-- The unit in which the ratio is kept, and the ratio of the registers. -/
inductive Clock
  | half
  | whole (ratio : Nat)
  | tenths (ratio : Nat)
  | netburst (ratio : Nat)
  | unlisted
  | unknown
  deriving DecidableEq, Repr

section Kinds

variable (msr : UInt32 → UInt64)

def clock06 (model : UInt32) : Clock :=
  if model ∈ sandyBridgeModels then .whole ((msr msrPlatformInfo).toNat % 2 ^ 8)
  else if model ∈ nehalemModels then .whole ((msr msrPlatformInfo).toNat / 2 ^ 8 % 2 ^ 8)
  else if model ∈ coreModels then
    .tenths ((msr msrIa32PerfStatus).toNat / 2 ^ 8 % 2 ^ 5 * 10 + (msr msrIa32PerfStatus).toNat / 2 ^ 46 % 2 * 5)
  else .unlisted

def clock0F (model : UInt32) : Clock :=
  if model < 2 then .unlisted else .netburst ((msr msrEbcFrequencyId).toNat / 2 ^ 24 % 2 ^ 8)

def clockIntel (family model : UInt32) : Clock :=
  if family = 0x06 then clock06 msr model else if family = 0x0f then clock0F msr model else .unknown

/-- The kind of a processor, from its identification and its registers. -/
def clock (vendor signature : UInt32) : Clock :=
  let s := (identified vendor signature 0).extended
  if vendor = cpuVendorAmd then .half
  else if vendor = cpuVendorIntel then clockIntel msr s.family s.model
  else .unknown

end Kinds

/-- The ratio that the kind keeps and the bus clock that goes with it. -/
def Clock.Detected (tsc : Nat) (s : CpuStructure) : Clock → Prop
  | half => ∃ r, 0 < r ∧ r ≤ 79 ∧ s.maxRatio.toNat = 5 * r ∧ s.fsbFrequency.toNat = 2 * tsc / r
  | whole r => s.maxRatio.toNat = r ∧ s.fsbFrequency.toNat = tsc / r
  | tenths r => r ≤ 315 ∧ s.maxRatio.toNat = r ∧ s.fsbFrequency.toNat = 10 * tsc / r
  | netburst r => s.maxRatio.toNat = r ∧ if r = 0 then s.fsbFrequency ≠ 0 else s.fsbFrequency.toNat = tsc / r
  | unlisted => s.maxRatio = 10 ∧ s.fsbFrequency = 100000000
  | unknown => s.maxRatio = 10 ∧ s.fsbFrequency = 0

/-- The registers hold no ratio. -/
def Clock.NoRatio : Clock → Prop
  | half => False
  | whole r => r = 0
  | tenths r => r = 0
  | netburst r => r = 0
  | unlisted => False
  | unknown => False

/-- The ratio counts the bus clock once, or there is no clock to compare. -/
def Clock.OneUnit (tsc : Nat) : Clock → Prop
  | half => tsc = 0
  | whole _ => True
  | tenths r => r = 0 ∨ tsc = 0
  | netburst r => r ≠ 0 ∨ tsc = 0
  | unlisted => 10 ^ 9 ≤ tsc + 10 ∧ tsc ≤ 10 ^ 9 + 10
  | unknown => True

/-- The frequencies are equal up to the rounding of one division by the ratio. -/
structure Close (ratio recomputed detected : Nat) : Prop where
  above : recomputed ≤ detected + ratio
  below : detected ≤ recomputed + ratio

/-- With the detected bus clock configured, the frequency stays. -/
def Consistent (s : CpuStructure) : Prop :=
  s.fsbFrequency ≠ 0 → ∀ t, getUserClocks 0 s.fsbFrequency s = some t →
    Close s.maxRatio.toNat t.cpuFrequency.toNat s.cpuFrequency.toNat

/-! ### Detection -/

theorem divU64x32_of_ne {divisor : UInt32} (h : divisor ≠ 0) (dividend : UInt64) :
    divU64x32 dividend divisor = some (dividend / divisor.toUInt64) := if_neg h

theorem shortest_gt {delta : UInt64} (h : 30 < delta.toNat) (measurements : List (UInt32 × UInt64)) :
    30 < (measurements.foldl shorter delta).toNat := by
  induction measurements generalizing delta with
  | nil => exact h
  | cons m measurements ih =>
      rw [List.foldl_cons]
      apply ih
      rw [shorter]
      split_ifs with _ hlong
      · exact h
      · exact h
      · exact UInt64.lt_iff_toNat_lt.mp (UInt64.not_le.mp hlong)
      · exact h

/-- A measured frequency is zero or has some thousand hertz. -/
theorem measureTSCFrequency_eq (measurements : List (UInt32 × UInt64)) :
    ∃ tsc, measureTSCFrequency measurements = some tsc ∧ (tsc = 0 ∨ 1033 ≤ tsc.toNat ∧ tsc.toNat ≤ 143165576533) := by
  have hshortest : 30 < (tscDelta measurements).toNat := shortest_gt (by decide) measurements
  rw [measureTSCFrequency]
  split_ifs with hlong
  · exact ⟨0, rfl, Or.inl rfl⟩
  · refine ⟨_, divU64x32_of_ne (by decide) _, Or.inr ?_⟩
    have hle : (tscDelta measurements).toNat ≤ 0x100000000 := by
      have h := UInt64.not_lt.mp hlong
      rw [UInt64.le_iff_toNat_le] at h
      exact h
    have hdiv : (UInt64.toNat (tscDelta measurements * 1000 / (30 : UInt32).toUInt64)) =
        (tscDelta measurements).toNat * 1000 % 2 ^ 64 / 30 := by
      rw [UInt64.toNat_div, UInt64.toNat_mul]
      rfl
    rw [hdiv, Nat.mod_eq_of_lt (by omega)]
    omega

/-- A guarded division. -/
theorem setFsbFrequency_eq (s : CpuStructure) (dividend : UInt64) :
    ∃ fsb, s.setFsbFrequency dividend = some { s with fsbFrequency := fsb } ∧
      fsb.toNat = if s.maxRatio.toNat = 0 then s.fsbFrequency.toNat else dividend.toNat / s.maxRatio.toNat := by
  rw [CpuStructure.setFsbFrequency]
  by_cases hratio : s.maxRatio = 0
  · rw [if_neg (not_not.mpr hratio)]
    have hzero : s.maxRatio.toNat = 0 := by
      rw [hratio]
      rfl
    refine ⟨s.fsbFrequency, rfl, ?_⟩
    rw [if_pos hzero]
  · have hne : s.maxRatio.toNat ≠ 0 := fun h => hratio (UInt32.toNat_inj.mp (h.trans rfl))
    rw [if_pos hratio, divU64x32_of_ne hratio]
    refine ⟨_, rfl, ?_⟩
    rw [if_neg hne, UInt64.toNat_div, UInt32.toNat_toUInt64]

theorem bitFieldRead64_toNat (operand : UInt64) (startBit endBit : Nat) :
    (bitFieldRead64 operand startBit endBit).toNat = operand.toNat / 2 ^ startBit % 2 ^ (endBit + 1 - startBit) := by
  have hlt : operand.toNat / 2 ^ startBit % 2 ^ (endBit + 1 - startBit) < 2 ^ 64 :=
    Nat.lt_of_le_of_lt (Nat.le_trans (Nat.mod_le _ _) (Nat.div_le_self _ _)) operand.toNat_lt
  rw [bitFieldRead64, UInt64.toNat_ofNat', Nat.mod_eq_of_lt hlt]

section Families

variable {s : CpuStructure} {ratio : Nat}

/-- A bus clock that is still unknown, from a ratio in whole units. -/
theorem whole_detected (hratio : s.maxRatio.toNat = ratio) (hfsb : s.fsbFrequency = 0) :
    ∃ t, s.setFsbFrequency s.cpuFrequency = some t ∧ t.cpuFrequency = s.cpuFrequency ∧
      (Clock.whole ratio).Detected s.cpuFrequency.toNat t := by
  obtain ⟨fsb, hset, hvalue⟩ := setFsbFrequency_eq s s.cpuFrequency
  refine ⟨_, hset, rfl, hratio, ?_⟩
  rw [hratio, hfsb] at hvalue
  split_ifs at hvalue with hzero
  · rw [hvalue, hzero, Nat.div_zero]
    rfl
  · exact hvalue

theorem tenths_detected (hratio : s.maxRatio.toNat = ratio) (hle : ratio ≤ 315) (hfsb : s.fsbFrequency = 0)
    (hcpu : s.cpuFrequency.toNat ≤ 143165576533) :
    ∃ t, s.setFsbFrequency (s.cpuFrequency * 10) = some t ∧ t.cpuFrequency = s.cpuFrequency ∧
      (Clock.tenths ratio).Detected s.cpuFrequency.toNat t := by
  obtain ⟨fsb, hset, hvalue⟩ := setFsbFrequency_eq s (s.cpuFrequency * 10)
  have hmul : (s.cpuFrequency * 10).toNat = 10 * s.cpuFrequency.toNat := by
    rw [UInt64.toNat_mul, Nat.mul_comm]
    exact Nat.mod_eq_of_lt (by rw [show (10 : UInt64).toNat = 10 from rfl]; omega)
  refine ⟨_, hset, rfl, hle, hratio, ?_⟩
  rw [hratio, hfsb, hmul] at hvalue
  split_ifs at hvalue with hzero
  · rw [hvalue, hzero, Nat.div_zero]
    rfl
  · exact hvalue

theorem netburst_detected (hratio : s.maxRatio.toNat = ratio) (hfsb : s.fsbFrequency ≠ 0) :
    ∃ t, s.setFsbFrequency s.cpuFrequency = some t ∧ t.cpuFrequency = s.cpuFrequency ∧
      (Clock.netburst ratio).Detected s.cpuFrequency.toNat t := by
  obtain ⟨fsb, hset, hvalue⟩ := setFsbFrequency_eq s s.cpuFrequency
  refine ⟨_, hset, rfl, hratio, ?_⟩
  rw [hratio] at hvalue
  split_ifs at hvalue ⊢ with hzero
  · rw [UInt64.toNat_inj.mp hvalue]
    exact hfsb
  · exact hvalue

variable (msr : UInt32 → UInt64)

theorem iCpuFamily06_detected (hfsb : s.fsbFrequency = 0) (hratio : s.maxRatio = 10)
    (hcpu : s.cpuFrequency.toNat ≤ 143165576533) :
    ∃ t, iCpuFamily06 msr s = some t ∧ t.cpuFrequency = s.cpuFrequency ∧
      (clock06 msr s.model).Detected s.cpuFrequency.toNat t := by
  rw [iCpuFamily06, clock06]
  split_ifs with hsandy hnehalem hcore
  · exact whole_detected (s := { s with maxRatio := (msr msrPlatformInfo).toUInt8.toUInt32 }) rfl hfsb
  · refine whole_detected (s := { s with
      maxRatio := (bitFieldRead64 (msr msrPlatformInfo) 8 15).toUInt8.toUInt32, turboMsr := msr msrPlatformInfo + 1 }) ?_ hfsb
    rw [UInt8.toNat_toUInt32, UInt64.toNat_toUInt8, bitFieldRead64_toNat]
    exact Nat.mod_mod _ _
  · refine tenths_detected (s := { s with
      maxRatio := (bitFieldRead64 (msr msrIa32PerfStatus) 8 12).toUInt8.toUInt32 * 10 +
        (bitFieldRead64 (msr msrIa32PerfStatus) 46 46).toUInt32 * 5
      turboMsr := (bitFieldRead64 (msr msrIa32PerfStatus) 40 44).toUInt32.toUInt64
      subDivider := (bitFieldRead64 (msr msrIa32PerfStatus) 46 46).toUInt32 }) ?_ ?_ hfsb hcpu
    · dsimp only
      rw [UInt32.toNat_add, UInt32.toNat_mul, UInt32.toNat_mul, UInt8.toNat_toUInt32, UInt64.toNat_toUInt8,
        UInt64.toNat_toUInt32, bitFieldRead64_toNat, bitFieldRead64_toNat]
      have hbus : (msr msrIa32PerfStatus).toNat / 2 ^ 8 % 2 ^ 5 < 2 ^ 5 := Nat.mod_lt _ (by decide)
      have hsub : (msr msrIa32PerfStatus).toNat / 2 ^ 46 % 2 ^ 1 < 2 ^ 1 := Nat.mod_lt _ (by decide)
      rw [Nat.mod_eq_of_lt (Nat.lt_trans hbus (by decide) : _ < 2 ^ 8),
        Nat.mod_eq_of_lt (Nat.lt_trans hsub (by decide) : _ < 2 ^ 32)]
      simp only [UInt32.reduceToNat]
      rw [Nat.mod_eq_of_lt (by omega : _ * 10 < 2 ^ 32), Nat.mod_eq_of_lt (by omega : _ * 5 < 2 ^ 32)]
      exact Nat.mod_eq_of_lt (by omega)
    · omega
  · exact ⟨_, rfl, rfl, hratio, rfl⟩

theorem busClock_ne_zero (model : UInt32) (sbspeed : UInt8) : busClock model sbspeed ≠ 0 := by
  rw [busClock]
  split_ifs <;> decide

theorem iCpuFamily0F_detected (hratio : s.maxRatio = 10) :
    ∃ t, iCpuFamily0F msr s = some t ∧ t.cpuFrequency = s.cpuFrequency ∧
      (clock0F msr s.model).Detected s.cpuFrequency.toNat t := by
  rw [iCpuFamily0F, clock0F]
  split_ifs with hmodel
  · exact ⟨_, rfl, rfl, hratio, rfl⟩
  · refine netburst_detected (s := { s with
      maxRatio := (bitFieldRead64 (msr msrEbcFrequencyId) 24 31).toUInt8.toUInt32
      fsbFrequency := busClock s.model (bitFieldRead64 (msr msrEbcFrequencyId) 16 18).toUInt8 }) ?_ (busClock_ne_zero _ _)
    rw [UInt8.toNat_toUInt32, UInt64.toNat_toUInt8, bitFieldRead64_toNat]
    exact Nat.mod_mod _ _

/-- The divisor of the ratio is a power of two. -/
theorem divisor_ne_zero {k : UInt64} (h : k.toNat ≤ 7) : (1 : UInt32) <<< k.toUInt32 ≠ 0 := by
  intro hzero
  have hnat : ((1 : UInt32) <<< k.toUInt32).toNat = 0 := congrArg UInt32.toNat hzero
  rw [UInt32.toNat_shiftLeft, UInt64.toNat_toUInt32, Nat.shiftLeft_eq, UInt32.toNat_one, Nat.one_mul,
    Nat.mod_eq_of_lt (by omega : k.toNat < 2 ^ 32), Nat.mod_eq_of_lt (by omega : k.toNat < 32)] at hnat
  have hpow : 2 ^ k.toNat ≤ 2 ^ 7 := Nat.pow_le_pow_right (by decide) h
  rw [Nat.mod_eq_of_lt (Nat.lt_of_le_of_lt hpow (by decide))] at hnat
  exact absurd hnat (Nat.ne_of_gt (Nat.two_pow_pos _))

theorem and_le (x : UInt64) {mask : UInt64} : (x &&& mask).toNat ≤ mask.toNat := by
  rw [UInt64.toNat_and]
  exact Nat.and_le_right

theorem aCpuRatio_eq (extfamily : UInt32) : ∃ ratio, aCpuRatio msr extfamily = some ratio ∧ ratio.toNat ≤ 79 := by
  rw [aCpuRatio]
  split_ifs with hext
  · have hfid : ((msr k8FidvidStatus >>> 16) &&& 0x3f).toNat ≤ 63 := and_le _
    refine ⟨_, rfl, ?_⟩
    rw [UInt64.toNat_toUInt32, UInt64.toNat_add, UInt64.toNat_shiftRight, Nat.shiftRight_eq_div_pow]
    have hsum : (msr k8FidvidStatus >>> 16 &&& 0x3f).toNat / 4 + 4 < 2 ^ 32 := by omega
    change ((msr k8FidvidStatus >>> 16 &&& 0x3f).toNat / 4 + 4) % 2 ^ 64 % 2 ^ 32 ≤ 79
    rw [Nat.mod_eq_of_lt (Nat.lt_trans hsum (by decide)), Nat.mod_eq_of_lt hsum]
    omega
  · have hfid : (msr k10CofvidStatus &&& 0x3f).toNat ≤ 63 := and_le _
    rw [divU64x32_of_ne (divisor_ne_zero (and_le _))]
    refine ⟨_, rfl, ?_⟩
    have hdiv := Nat.div_le_self ((msr k10CofvidStatus &&& 0x3f) + 0x10).toNat
      ((1 : UInt32) <<< ((msr k10CofvidStatus >>> 6) &&& 0x7).toUInt32).toUInt64.toNat
    have hmod := Nat.mod_le (((msr k10CofvidStatus &&& 0x3f) + 0x10).toNat /
      ((1 : UInt32) <<< ((msr k10CofvidStatus >>> 6) &&& 0x7).toUInt32).toUInt64.toNat) (2 ^ 32)
    have hsum : ((msr k10CofvidStatus &&& 0x3f) + 0x10).toNat = (msr k10CofvidStatus &&& 0x3f).toNat + 16 := by
      rw [UInt64.toNat_add]
      exact Nat.mod_eq_of_lt (by rw [show (0x10 : UInt64).toNat = 16 from rfl]; omega)
    rw [UInt64.toNat_toUInt32, UInt64.toNat_div]
    omega

theorem aCpuProps_detected (hcpu : s.tscFrequency.toNat ≤ 143165576533) :
    ∃ t, aCpuProps msr s = some t ∧ t.cpuFrequency = s.cpuFrequency ∧ Clock.half.Detected s.tscFrequency.toNat t := by
  obtain ⟨ratio, hratio, hle⟩ := aCpuRatio_eq msr s.extfamily
  have hne : (if ratio = 0 then 1 else ratio) ≠ 0 := by
    split_ifs with hzero
    · decide
    · exact hzero
  have hle' : (if ratio = 0 then 1 else ratio).toNat ≤ 79 := by
    split_ifs with hzero
    · decide
    · exact hle
  have hdouble : (s.tscFrequency <<< 1).toNat = 2 * s.tscFrequency.toNat := by
    rw [UInt64.toNat_shiftLeft, Nat.shiftLeft_eq, Nat.mul_comm]
    simp only [UInt64.toNat_one, Nat.reduceMod, Nat.pow_one]
    exact Nat.mod_eq_of_lt (by omega)
  rw [aCpuProps, hratio, Option.bind_some]
  dsimp only
  generalize (if ratio = 0 then 1 else ratio) = r at hne hle'
  rw [divU64x32_of_ne hne]
  refine ⟨_, rfl, rfl, r.toNat, ?_, hle', ?_, ?_⟩
  · exact Nat.pos_of_ne_zero fun h => hne (UInt32.toNat_inj.mp (h.trans rfl))
  · dsimp only
    rw [UInt32.toNat_mul, Nat.mul_comm]
    exact Nat.mod_eq_of_lt (by rw [show (5 : UInt32).toNat = 5 from rfl]; omega)
  · dsimp only
    rw [UInt64.toNat_div, UInt32.toNat_toUInt64, hdouble]

/-- The interconnect speed is computed last and leaves the clocks alone. -/
theorem nehalemProps_eq (qpimult : UInt32) (s : CpuStructure) :
    ∃ speed, iCpuNehalemProps qpimult s = some { s with processorInterconnectSpeed := speed } := by
  rw [iCpuNehalemProps, divU64x32_of_ne (by decide)]
  exact ⟨_, rfl⟩

theorem Clock.Detected.interconnect {kind : Clock} {tsc : Nat} (h : kind.Detected tsc s) (speed : UInt64) :
    kind.Detected tsc { s with processorInterconnectSpeed := speed } := by
  cases kind <;> exact h

theorem iCpuProps_detected (qpimult : UInt32) (hfsb : s.fsbFrequency = 0) (hratio : s.maxRatio = 10)
    (hcpu : s.cpuFrequency.toNat ≤ 143165576533) :
    ∃ t, iCpuProps msr qpimult s = some t ∧ t.cpuFrequency = s.cpuFrequency ∧
      (clockIntel msr s.extended.family s.extended.model).Detected s.cpuFrequency.toNat t := by
  have hfamily : ∃ t, (if s.extended.family = 0x06 then iCpuFamily06 msr s.extended
      else if s.extended.family = 0x0f then iCpuFamily0F msr s.extended else some s.extended) = some t ∧
      t.cpuFrequency = s.cpuFrequency ∧
      (clockIntel msr s.extended.family s.extended.model).Detected s.cpuFrequency.toNat t := by
    rw [clockIntel]
    by_cases h06 : s.extended.family = 0x06
    · rw [if_pos h06, if_pos h06]
      exact iCpuFamily06_detected msr (s := s.extended) hfsb hratio hcpu
    · rw [if_neg h06, if_neg h06]
      by_cases h0F : s.extended.family = 0x0f
      · rw [if_pos h0F, if_pos h0F]
        exact iCpuFamily0F_detected msr (s := s.extended) hratio
      · rw [if_neg h0F, if_neg h0F]
        exact ⟨_, rfl, rfl, hratio, hfsb⟩
  obtain ⟨t, ht, hkept, hdetected⟩ := hfamily
  rw [iCpuProps, ht, Option.bind_some]
  split_ifs with hnehalem
  · obtain ⟨speed, hspeed⟩ := nehalemProps_eq qpimult t
    exact ⟨_, hspeed, hkept, hdetected.interconnect speed⟩
  · exact ⟨t, rfl, hkept, hdetected⟩

end Families

section Detection

variable (msr : UInt32 → UInt64) (measurements : List (UInt32 × UInt64)) (qpimult vendor signature : UInt32)

/-- **The detection ends for every processor**, with the ratio and the clock of its kind. -/
theorem getCpuProps_detected : ∃ tsc s, measureTSCFrequency measurements = some tsc ∧
    (tsc = 0 ∨ 1033 ≤ tsc.toNat ∧ tsc.toNat ≤ 143165576533) ∧
    getCpuProps msr measurements qpimult vendor signature = some s ∧ s.cpuFrequency = tsc ∧
    (clock msr vendor signature).Detected tsc.toNat s := by
  obtain ⟨tsc, hmeasured, hrange⟩ := measureTSCFrequency_eq measurements
  have hle : tsc.toNat ≤ 143165576533 := by
    rcases hrange with rfl | h
    · exact Nat.zero_le _
    · exact h.2
  rw [getCpuProps, hmeasured, Option.bind_some, clock]
  split_ifs with hamd hintel
  · obtain ⟨t, ht, hcpu, hdetected⟩ := aCpuProps_detected msr (s := identified vendor signature tsc) hle
    exact ⟨tsc, t, rfl, hrange, ht, hcpu, hdetected⟩
  · obtain ⟨t, ht, hcpu, hdetected⟩ := iCpuProps_detected msr (s := identified vendor signature tsc) qpimult rfl rfl hle
    exact ⟨tsc, t, rfl, hrange, ht, hcpu, hdetected⟩
  · exact ⟨tsc, _, rfl, hrange, rfl, rfl, rfl, rfl⟩

end Detection

/-! ### Settings -/

section Settings

variable {s : CpuStructure} {kind : Clock} {tsc : Nat}

theorem Clock.Detected.ratio_eq_zero_iff (h : kind.Detected tsc s) : s.maxRatio = 0 ↔ kind.NoRatio := by
  have hzero : s.maxRatio = 0 ↔ s.maxRatio.toNat = 0 := UInt32.toNat_inj.symm
  rw [hzero]
  cases kind with
  | half =>
      obtain ⟨r, hpos, -, hratio, -⟩ := h
      rw [hratio]
      exact iff_of_false (by omega) id
  | whole r => rw [h.1, Clock.NoRatio]
  | tenths r => rw [h.2.1, Clock.NoRatio]
  | netburst r => rw [h.1, Clock.NoRatio]
  | unlisted =>
      rw [h.1]
      exact iff_of_false (by decide) id
  | unknown =>
      rw [h.1]
      exact iff_of_false (by decide) id

/-- The only division is that of a configured frequency by the ratio. -/
theorem getUserClocks_eq_none_iff (cpuFrequency fsbFrequency : UInt64) :
    getUserClocks cpuFrequency fsbFrequency s = none ↔ cpuFrequency ≠ 0 ∧ fsbFrequency = 0 ∧ s.maxRatio = 0 := by
  rw [getUserClocks]
  by_cases hcpu : cpuFrequency = 0
  · rw [if_neg (not_not.mpr hcpu)]
    exact iff_of_false (fun h => nomatch h) fun h => h.1 hcpu
  · rw [if_pos hcpu]
    by_cases hfsb : fsbFrequency = 0
    · rw [if_pos hfsb, if_neg (not_not.mpr hfsb), Option.map_eq_none_iff, divU64x32]
      dsimp only
      split_ifs with hratio
      · exact iff_of_true rfl ⟨hcpu, hfsb, hratio⟩
      · exact iff_of_false (fun h => nomatch h) fun h => hratio h.2.2
    · rw [if_neg hfsb]
      exact iff_of_false (fun h => nomatch h) fun h => hfsb h.2.1

/-- The frequency of a configured bus clock. -/
theorem getUserClocks_bus {fsbFrequency : UInt64} (hfsb : fsbFrequency ≠ 0) :
    ∃ t, getUserClocks 0 fsbFrequency s = some t ∧ t.cpuFrequency = fsbFrequency * s.maxRatio.toUInt64 := by
  rw [getUserClocks, if_pos hfsb]
  exact ⟨_, rfl, rfl⟩

theorem consistent_iff : Consistent s ↔ (s.fsbFrequency ≠ 0 →
    Close s.maxRatio.toNat (s.fsbFrequency.toNat * s.maxRatio.toNat % 2 ^ 64) s.cpuFrequency.toNat) := by
  refine forall_congr' fun hfsb => ?_
  obtain ⟨t, ht, hcpu⟩ := getUserClocks_bus (s := s) hfsb
  have hvalue : t.cpuFrequency.toNat = s.fsbFrequency.toNat * s.maxRatio.toNat % 2 ^ 64 := by
    rw [hcpu, UInt64.toNat_mul, UInt32.toNat_toUInt64]
  rw [ht, ← hvalue]
  constructor
  · intro h
    exact h t rfl
  · intro h t' heq
    obtain rfl := Option.some_inj.mp heq
    exact h

/-- What a truncated quotient lacks. -/
theorem div_mul_bounds (n : Nat) {r : Nat} (hr : 0 < r) : n / r * r ≤ n ∧ n < n / r * r + r :=
  ⟨Nat.div_mul_le_self n r, Nat.lt_div_mul_add hr⟩

/-- A bus clock counted once. -/
theorem close_whole {bus r : Nat} (hr : 0 < r) (htsc : tsc < 2 ^ 64) (hbus : bus = tsc / r) :
    Close r (bus * r % 2 ^ 64) tsc := by
  obtain ⟨hle, hlt⟩ := div_mul_bounds tsc hr
  rw [← hbus] at hle hlt
  rw [Nat.mod_eq_of_lt (Nat.lt_of_le_of_lt hle htsc)]
  exact ⟨by omega, by omega⟩

/-- A bus clock counted ten times: `per` units of the ratio make a tenfold of the frequency. -/
theorem not_close_tenfold {bus n ratio : Nat} (hbus : n * 10 < bus * ratio + ratio) (hle : bus * ratio ≤ n * 10)
    (hratio : ratio ≤ 395) (hlow : 1033 ≤ n) (hhigh : n ≤ 143165576533) : ¬ Close ratio (bus * ratio % 2 ^ 64) n := by
  rintro ⟨habove, -⟩
  rw [Nat.mod_eq_of_lt (by omega)] at habove
  omega

theorem Clock.Detected.consistent_iff (h : kind.Detected tsc s) (hcpu : s.cpuFrequency.toNat = tsc)
    (hrange : tsc = 0 ∨ 1033 ≤ tsc ∧ tsc ≤ 143165576533) : Consistent s ↔ kind.OneUnit tsc := by
  have hfsb : s.fsbFrequency ≠ 0 ↔ s.fsbFrequency.toNat ≠ 0 := not_congr UInt64.toNat_inj.symm
  rw [Cpu.consistent_iff, hcpu, hfsb]
  cases kind with
  | half =>
      obtain ⟨r, hpos, hle, hratio, hbus⟩ := h
      obtain ⟨hbelow, habove⟩ := div_mul_bounds (2 * tsc) hpos
      rw [← hbus] at hbelow habove
      have hunits : s.fsbFrequency.toNat * (5 * r) = 5 * (s.fsbFrequency.toNat * r) := Nat.mul_left_comm _ _ _
      rcases hrange with rfl | ⟨hlow, hhigh⟩
      · refine iff_of_true (fun hne => absurd ?_ hne) rfl
        rw [hbus, Nat.mul_zero, Nat.zero_div]
      · refine iff_of_false (fun hclose => ?_) (by rw [Clock.OneUnit]; omega)
        rw [hratio] at hclose
        refine not_close_tenfold (by omega) (by omega) (by omega) hlow hhigh (hclose fun hzero => ?_)
        rw [hzero, Nat.zero_mul] at habove
        omega
  | whole r =>
      obtain ⟨hratio, hbus⟩ := h
      refine iff_of_true (fun hne => ?_) trivial
      have hpos : 0 < r := Nat.pos_of_ne_zero fun hzero => hne (by rw [hbus, hzero, Nat.div_zero])
      rw [hratio]
      exact close_whole hpos (by omega) hbus
  | tenths r =>
      obtain ⟨hle, hratio, hbus⟩ := h
      rw [hratio]
      rcases Nat.eq_zero_or_pos r with rfl | hpos
      · refine iff_of_true (fun hne => absurd ?_ hne) (Or.inl rfl)
        rw [hbus, Nat.div_zero]
      · obtain ⟨hbelow, habove⟩ := div_mul_bounds (10 * tsc) hpos
        rw [← hbus] at hbelow habove
        rcases hrange with rfl | ⟨hlow, hhigh⟩
        · refine iff_of_true (fun hne => absurd ?_ hne) (Or.inr rfl)
          rw [hbus, Nat.mul_zero, Nat.zero_div]
        · refine iff_of_false (fun hclose => ?_) (by rw [Clock.OneUnit]; omega)
          refine not_close_tenfold (by omega) (by omega) (by omega) hlow hhigh (hclose fun hzero => ?_)
          rw [hzero, Nat.zero_mul] at habove
          omega
  | netburst r =>
      obtain ⟨hratio, hbus⟩ := h
      rw [hratio]
      by_cases hzero : r = 0
      · rw [if_pos hzero] at hbus
        subst hzero
        rw [Nat.mul_zero, Nat.zero_mod]
        constructor
        · intro hclose
          have hbelow := (hclose (hfsb.mp hbus)).below
          exact Or.inr (by omega)
        · intro hunit _
          obtain rfl := hunit.resolve_left fun hne => hne rfl
          exact ⟨Nat.le_refl _, Nat.le_refl _⟩
      · rw [if_neg hzero] at hbus
        exact iff_of_true (fun _ => close_whole (Nat.pos_of_ne_zero hzero) (by omega) hbus) (Or.inl hzero)
  | unlisted =>
      obtain ⟨hratio, hbus⟩ := h
      rw [hratio, hbus]
      constructor
      · intro hclose
        obtain ⟨habove, hbelow⟩ := hclose (by decide)
        exact ⟨habove, hbelow⟩
      · intro hunit _
        exact ⟨hunit.1, hunit.2⟩
  | unknown =>
      obtain ⟨-, hbus⟩ := h
      rw [hbus]
      exact iff_of_true (fun hne => absurd rfl hne) trivial

/-- **The clocks.** The detection never divides by zero; the settings do exactly if a frequency but no bus clock is
configured and the registers hold no ratio; and the recomputed frequency is the detected one exactly if the ratio is
in units of the bus clock. -/
theorem cpuClock_iff (msr : UInt32 → UInt64) (measurements : List (UInt32 × UInt64)) (qpimult vendor signature : UInt32) :
    ∃ tsc s, measureTSCFrequency measurements = some tsc ∧ getCpuProps msr measurements qpimult vendor signature = some s ∧
      (∀ cpuFrequency fsbFrequency, (∃ t, getUserClocks cpuFrequency fsbFrequency s = some t) ↔
        ¬ (cpuFrequency ≠ 0 ∧ fsbFrequency = 0 ∧ (clock msr vendor signature).NoRatio)) ∧
      (Consistent s ↔ (clock msr vendor signature).OneUnit tsc.toNat) := by
  obtain ⟨tsc, s, hmeasured, hrange, hprops, hcpu, hdetected⟩ := getCpuProps_detected msr measurements qpimult vendor signature
  refine ⟨tsc, s, hmeasured, hprops, fun cpuFrequency fsbFrequency => ?_, ?_⟩
  · rw [← hdetected.ratio_eq_zero_iff, ← getUserClocks_eq_none_iff]
    exact Option.ne_none_iff_exists'.symm
  · refine hdetected.consistent_iff (congrArg UInt64.toNat hcpu) ?_
    exact hrange.imp_left fun hzero => congrArg UInt64.toNat hzero

end Settings

/-- A Penryn of 2.4 GHz with a ratio of 9, and a Sandy Bridge whose registers end in a zero byte. -/
theorem penryn_tenfold :
    (∃ s, getCpuProps (fun _ => 0x0900) [(5, 72000000)] 2 cpuVendorIntel 0x10676 = some s ∧ ¬ Consistent s) ∧
    ∃ s, getCpuProps (fun _ => 0x2200) [(5, 72000000)] 2 cpuVendorIntel 0x206A7 = some s ∧
      getUserClocks 2400000000 0 s = none := by
  constructor
  · obtain ⟨tsc, s, hmeasured, hrange, hprops, hcpu, hdetected⟩ :=
      getCpuProps_detected (fun _ => 0x0900) [(5, 72000000)] 2 cpuVendorIntel 0x10676
    have htsc : measureTSCFrequency [(5, 72000000)] = some 2400000000 := by decide +kernel
    have hclock : clock (fun _ => 0x0900) cpuVendorIntel 0x10676 = .tenths 90 := by decide +kernel
    obtain rfl := Option.some_inj.mp (htsc.symm.trans hmeasured)
    rw [hclock] at hdetected
    refine ⟨s, hprops, fun hconsistent => ?_⟩
    have hunit := (hdetected.consistent_iff (congrArg UInt64.toNat hcpu) (Or.inr (by decide))).mp hconsistent
    exact hunit.elim (fun h => absurd h (by decide)) fun h => absurd h (by decide)
  · obtain ⟨tsc, s, -, -, hprops, -, hdetected⟩ :=
      getCpuProps_detected (fun _ => 0x2200) [(5, 72000000)] 2 cpuVendorIntel 0x206A7
    have hclock : clock (fun _ => 0x2200) cpuVendorIntel 0x206A7 = .whole 0 := by decide +kernel
    rw [hclock] at hdetected
    exact ⟨s, hprops, (getUserClocks_eq_none_iff _ _).mpr ⟨by decide, rfl, hdetected.ratio_eq_zero_iff.mpr rfl⟩⟩

end BareBoot.Cpu
