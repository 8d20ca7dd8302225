import BareBoot.Block

/-! The sleep image's place on the disk, `Hibernate.c`. While the file system reads the start of the image,
the reads of its disk go through `OurBlockIoRead`; one global is the result, the value for "not found"
and the mark of a read in progress. -/

namespace BareBoot.Hibernate

/-! ### The headers -/

/-- A packed structure: its fields and their widths in bytes. -/
abbrev Layout := List (String × Nat)

def Layout.size (layout : Layout) : Nat := (layout.map Prod.snd).sum

def Layout.offset (layout : Layout) (field : String) : Nat :=
  Layout.size (layout.takeWhile fun entry => entry.1 ≠ field)

def imageHeaderMin : Layout :=
  [("imageSize", 8), ("image1Size", 8), ("restore1CodePhysPage", 4), ("reserved1", 4), ("restore1CodeVirt", 8),
    ("restore1PageCount", 4), ("restore1CodeOffset", 4), ("restore1StackOffset", 4), ("pageCount", 4), ("bitmapSize", 4),
    ("restore1Sum", 4), ("image1Sum", 4), ("image2Sum", 4), ("actualRestore1Sum", 4), ("actualImage1Sum", 4),
    ("actualImage2Sum", 4), ("actualUncompressedPages", 4), ("conflictCount", 4), ("nextFree", 4), ("signature", 4),
    ("processorFlags", 4), ("runtimePages", 4), ("runtimePageCount", 4), ("runtimeVirtualPages", 8),
    ("performanceDataStart", 4), ("performanceDataSize", 4), ("encryptStart", 8), ("machineSignature", 8),
    ("previewSize", 4), ("previewPageListSize", 4), ("diag", 16), ("handoffPages", 4), ("handoffPageCount", 4),
    ("systemTableOffset", 4), ("debugFlags", 4), ("options", 4), ("sleepTime", 4), ("compression", 4)]

def imageHeaderMinSnow : Layout :=
  [("imageSize", 8), ("image1Size", 8), ("restore1CodePhysPage", 4), ("restore1PageCount", 4), ("restore1CodeOffset", 4),
    ("restore1StackOffset", 4), ("pageCount", 4), ("bitmapSize", 4), ("restore1Sum", 4), ("image1Sum", 4),
    ("image2Sum", 4), ("actualRestore1Sum", 4), ("actualImage1Sum", 4), ("actualImage2Sum", 4),
    ("actualUncompressedPages", 4), ("conflictCount", 4), ("nextFree", 4), ("signature", 4), ("processorFlags", 4)]

def hibernateHeaderSignature : Nat := 0x73696d65

/-! ### Reads -/

def efiSuccess : UInt64 := 0
def efiInvalidParameter : UInt64 := 0x8000000000000002

/-- What a read gives back. -/
structure Answer where
  status : UInt64
  buffer : Nat → UInt8

/-- A call of `ReadBlocks` and the answer of the disk's own `ReadBlocks`; `This->Media` may be `NULL`. -/
structure BlockRead where
  media : Option UInt32
  lba : UInt64
  bufferSize : UInt64
  original : Answer

/-- `gSleepImageOffset` and `gSleepTime`. -/
structure Hook where
  sleepImageOffset : UInt64
  sleepTime : Nat

def inProgress : UInt64 := 0 - 1

def multU64x32 (multiplicand : UInt64) (multiplier : UInt32) : UInt64 := multiplicand * multiplier.toUInt64

def signatureIn (layout : Layout) (buffer : Nat → UInt8) : Nat := wordAt buffer 4 (layout.offset "signature")

def ourBlockIoRead (hook : Hook) (read : BlockRead) : Hook × Answer :=
  if hook.sleepImageOffset = 0 ∧ read.original.status = efiSuccess ∧ imageHeaderMin.size ≤ read.bufferSize.toNat then
    let hook := { hook with sleepImageOffset := inProgress }
    let blockSize := read.media.getD 512
    let buffer := read.original.buffer
    if signatureIn imageHeaderMin buffer = hibernateHeaderSignature ∨
        signatureIn imageHeaderMinSnow buffer = hibernateHeaderSignature then
      let hook := { hook with sleepImageOffset := multU64x32 read.lba blockSize }
      let hook :=
        if signatureIn imageHeaderMin buffer = hibernateHeaderSignature then
          { hook with sleepTime := wordAt buffer 4 (imageHeaderMin.offset "sleepTime") }
        else { hook with sleepTime := 0 }
      (hook, { read.original with status := efiInvalidParameter })
    else ({ hook with sleepImageOffset := 0 }, read.original)
  else (hook, read.original)

/-- The reads one after the other. -/
def readBlocks : Hook → List BlockRead → Hook × List Answer
  | hook, [] => (hook, [])
  | hook, read :: reads =>
      let first := ourBlockIoRead hook read
      let rest := readBlocks first.1 reads
      (rest.1, first.2 :: rest.2)

/-- `GetSleepImagePosition`, from the open file on: the reads of the driver and its own status. -/
def getSleepImagePosition (hook : Hook) (reads : List BlockRead) (fileStatus : UInt64) : Hook × UInt64 :=
  if hook.sleepImageOffset ≠ 0 then (hook, hook.sleepImageOffset)
  else
    let hook := (readBlocks { hook with sleepImageOffset := 0 } reads).1
    let status := if fileStatus = efiInvalidParameter then efiSuccess else fileStatus
    if status ≥ 0x8000000000000000 then (hook, 0) else (hook, hook.sleepImageOffset)

/-! ### One read -/

/-- A successful read of a header's size with the signature in one of the layouts. -/
def BlockRead.Carries (read : BlockRead) : Prop :=
  read.original.status = efiSuccess ∧ imageHeaderMin.size ≤ read.bufferSize.toNat ∧
    (signatureIn imageHeaderMin read.original.buffer = hibernateHeaderSignature ∨
      signatureIn imageHeaderMinSnow read.original.buffer = hibernateHeaderSignature)

instance (read : BlockRead) : Decidable read.Carries := inferInstanceAs (Decidable (_ ∧ _))

def BlockRead.position (read : BlockRead) : Nat := read.lba.toNat * (read.media.getD 512).toNat

/-- No image starts at the first block, and the position has a place below the mark. -/
structure BlockRead.Regular (read : BlockRead) : Prop where
  first : read.lba = 0 → ¬ read.Carries
  blockSize : 0 < read.media.getD 512
  bound : read.position < 2 ^ 64 - 1

section Reads

variable {hook : Hook} {read : BlockRead} {reads : List BlockRead}

theorem ourBlockIoRead_untouched (h : hook.sleepImageOffset ≠ 0) : ourBlockIoRead hook read = (hook, read.original) := by
  unfold ourBlockIoRead
  rw [if_neg]
  exact fun hcond => h hcond.1

/-- A read that carries no signature leaves the hook waiting. -/
theorem ourBlockIoRead_waiting (h : hook.sleepImageOffset = 0) (hcarries : ¬ read.Carries) :
    ourBlockIoRead hook read = (hook, read.original) := by
  unfold ourBlockIoRead
  by_cases hcond : hook.sleepImageOffset = 0 ∧ read.original.status = efiSuccess ∧
      imageHeaderMin.size ≤ read.bufferSize.toNat
  · have hunsigned : ¬ (signatureIn imageHeaderMin read.original.buffer = hibernateHeaderSignature ∨
        signatureIn imageHeaderMinSnow read.original.buffer = hibernateHeaderSignature) :=
      fun hsigned => hcarries ⟨hcond.2.1, hcond.2.2, hsigned⟩
    rw [if_pos hcond]
    dsimp only
    rw [if_neg hunsigned, ← h]
  · rw [if_neg hcond]

theorem ourBlockIoRead_carries (h : hook.sleepImageOffset = 0) (hcarries : read.Carries) :
    (ourBlockIoRead hook read).1.sleepImageOffset = multU64x32 read.lba (read.media.getD 512) ∧
      (ourBlockIoRead hook read).2 = { read.original with status := efiInvalidParameter } := by
  obtain ⟨hstatus, hsize, hsigned⟩ := hcarries
  unfold ourBlockIoRead
  rw [if_pos ⟨h, hstatus, hsize⟩]
  dsimp only
  rw [if_pos hsigned]
  split_ifs <;> exact ⟨rfl, rfl⟩

theorem multU64x32_toNat (h : read.position < 2 ^ 64 - 1) :
    (multU64x32 read.lba (read.media.getD 512)).toNat = read.position := by
  unfold multU64x32
  rw [UInt64.toNat_mul, UInt32.toNat_toUInt64]
  exact Nat.mod_eq_of_lt (by unfold BlockRead.position at h; omega)

/-- The position of an image is neither "not found" nor the mark. -/
theorem BlockRead.Regular.position_spec (h : read.Regular) (hcarries : read.Carries) :
    multU64x32 read.lba (read.media.getD 512) ≠ 0 ∧ multU64x32 read.lba (read.media.getD 512) ≠ inProgress := by
  have hposition := multU64x32_toNat h.bound
  have hlba : 0 < read.lba.toNat := by
    rw [Nat.pos_iff_ne_zero]
    intro hzero
    exact h.first (UInt64.toNat_inj.mp hzero) hcarries
  have hpos : 0 < read.position := Nat.mul_pos hlba (UInt32.lt_iff_toNat_lt.mp h.blockSize)
  have hbound := h.bound
  constructor
  · intro hzero
    rw [hzero] at hposition
    exact absurd hposition hpos.ne
  · intro hmark
    rw [hmark] at hposition
    exact absurd hposition hbound.ne'

/-! ### A run of reads -/

theorem readBlocks_untouched (h : hook.sleepImageOffset ≠ 0) :
    readBlocks hook reads = (hook, reads.map BlockRead.original) := by
  induction reads with
  | nil => rfl
  | cons read reads ih => rw [readBlocks, ourBlockIoRead_untouched h, ih, List.map_cons]

theorem readBlocks_waiting (h : hook.sleepImageOffset = 0) {before : List BlockRead} (hbefore : ∀ read ∈ before, ¬ read.Carries) :
    readBlocks hook (before ++ reads) =
      ((readBlocks hook reads).1, before.map BlockRead.original ++ (readBlocks hook reads).2) := by
  induction before with
  | nil => rfl
  | cons read before ih =>
      have hrest := ih fun other hmem => hbefore other (List.mem_cons_of_mem _ hmem)
      rw [List.cons_append, readBlocks, ourBlockIoRead_waiting h (hbefore read List.mem_cons_self), hrest, List.map_cons,
        List.cons_append]

/-- The first read that carries the signature. -/
theorem carries_split (reads : List BlockRead) : (∀ read ∈ reads, ¬ read.Carries) ∨
    ∃ before read after, reads = before ++ read :: after ∧ (∀ other ∈ before, ¬ other.Carries) ∧ read.Carries := by
  cases hfind : reads.find? fun read => decide read.Carries with
  | none =>
      left
      intro read hmem hcarries
      exact List.find?_eq_none.mp hfind read hmem (decide_eq_true hcarries)
  | some read =>
      right
      obtain ⟨hcarries, before, after, hreads, hbefore⟩ := List.find?_eq_some_iff_append.mp hfind
      refine ⟨before, read, after, hreads, ?_, of_decide_eq_true hcarries⟩
      intro other hmem
      have := hbefore other hmem
      rwa [Bool.not_eq_true', decide_eq_false_iff_not] at this

theorem readBlocks_none (h : hook.sleepImageOffset = 0) (hnone : ∀ read ∈ reads, ¬ read.Carries) :
    readBlocks hook reads = (hook, reads.map BlockRead.original) := by
  have hwaiting : readBlocks hook (reads ++ []) = _ := readBlocks_waiting h hnone
  rwa [List.append_nil, readBlocks, List.append_nil] at hwaiting

theorem readBlocks_first (after : List BlockRead) (h : hook.sleepImageOffset = 0) {before : List BlockRead}
    (hbefore : ∀ other ∈ before, ¬ other.Carries) (hcarries : read.Carries) (hregular : read.Regular) :
    (readBlocks hook (before ++ read :: after)).1.sleepImageOffset = multU64x32 read.lba (read.media.getD 512) ∧
      (readBlocks hook (before ++ read :: after)).2 = before.map BlockRead.original ++
        { read.original with status := efiInvalidParameter } :: after.map BlockRead.original := by
  obtain ⟨hoffset, hanswer⟩ := ourBlockIoRead_carries h hcarries
  have hfound : (ourBlockIoRead hook read).1.sleepImageOffset ≠ 0 := by
    rw [hoffset]
    exact (hregular.position_spec hcarries).1
  rw [readBlocks_waiting h hbefore, readBlocks, readBlocks_untouched hfound, hanswer]
  exact ⟨hoffset, rfl⟩

/-- All answers are the disk's own, except the one to the first read that carries the signature. -/
theorem readBlocks_transparent (sleepTime : Nat) (reads : List BlockRead) (hregular : ∀ read ∈ reads, read.Regular) :
    ((∀ read ∈ reads, ¬ read.Carries) ∧
        readBlocks ⟨0, sleepTime⟩ reads = (⟨0, sleepTime⟩, reads.map BlockRead.original)) ∨
      ∃ before read after, reads = before ++ read :: after ∧ (∀ other ∈ before, ¬ other.Carries) ∧ read.Carries ∧
        (readBlocks ⟨0, sleepTime⟩ reads).2 = before.map BlockRead.original ++
          { read.original with status := efiInvalidParameter } :: after.map BlockRead.original ∧
        (readBlocks ⟨0, sleepTime⟩ reads).1.sleepImageOffset.toNat = read.position ∧
        (readBlocks ⟨0, sleepTime⟩ reads).1.sleepImageOffset ≠ inProgress := by
  rcases carries_split reads with hnone | ⟨before, read, after, rfl, hbefore, hcarries⟩
  · left
    exact ⟨hnone, readBlocks_none rfl hnone⟩
  · right
    have hread : read.Regular := hregular read (List.mem_append_right _ List.mem_cons_self)
    have hstart : (Hook.mk 0 sleepTime).sleepImageOffset = 0 := rfl
    obtain ⟨hoffset, hanswers⟩ := readBlocks_first after hstart hbefore hcarries hread
    refine ⟨before, read, after, rfl, hbefore, hcarries, hanswers, ?_, ?_⟩
    · rw [hoffset]
      exact multU64x32_toNat hread.bound
    · rw [hoffset]
      exact (hread.position_spec hcarries).2

/-- A buffer with the signature where the layout has it. -/
def signedBuffer (layout : Layout) (i : Nat) : UInt8 :=
  if layout.offset "signature" ≤ i ∧ i < layout.offset "signature" + 4 then
    wordByte hibernateHeaderSignature (i - layout.offset "signature")
  else 0

/-- The disk's first block, then the start of an image, then a short read and the image again. -/
def imageReads : List BlockRead :=
  [⟨some 512, 0, 512, ⟨efiSuccess, fun _ => 0⟩⟩, ⟨some 4096, 7, 4096, ⟨efiSuccess, signedBuffer imageHeaderMinSnow⟩⟩,
    ⟨none, 9, 16, ⟨efiSuccess, fun _ => 0⟩⟩, ⟨none, 9, 512, ⟨efiSuccess, signedBuffer imageHeaderMin⟩⟩]

theorem imageReads_transparent : ∃ before read after, imageReads = before ++ read :: after ∧
    (∀ other ∈ before, ¬ other.Carries) ∧ read.Carries ∧
    (readBlocks ⟨0, 0⟩ imageReads).2 = before.map BlockRead.original ++
      { read.original with status := efiInvalidParameter } :: after.map BlockRead.original ∧
    (readBlocks ⟨0, 0⟩ imageReads).1.sleepImageOffset.toNat = read.position ∧
    (readBlocks ⟨0, 0⟩ imageReads).1.sleepImageOffset ≠ inProgress := by
  have hregular : ∀ read ∈ imageReads, (read.lba = 0 → ¬ read.Carries) ∧ 0 < read.media.getD 512 ∧
      read.position < 2 ^ 64 - 1 := by
    decide +kernel
  have hcarried : ¬ ∀ read ∈ imageReads, ¬ read.Carries := by decide +kernel
  rcases readBlocks_transparent 0 imageReads fun read hmem =>
    ⟨(hregular read hmem).1, (hregular read hmem).2.1, (hregular read hmem).2.2⟩ with hnone | hfirst
  · exact absurd hnone.1 hcarried
  · exact hfirst

/-- The position is 0, or that of a read with the signature. -/
theorem getSleepImagePosition_spec (h : hook.sleepImageOffset = 0) (hregular : ∀ read ∈ reads, read.Regular)
    (fileStatus : UInt64) :
    (getSleepImagePosition hook reads fileStatus).2 = 0 ∨
      ∃ read ∈ reads, read.Carries ∧ (getSleepImagePosition hook reads fileStatus).2.toNat = read.position := by
  have hreset : ({ hook with sleepImageOffset := 0 } : Hook) = hook := by rw [← h]
  unfold getSleepImagePosition
  rw [if_neg (not_not_intro h), hreset]
  dsimp only
  generalize (if fileStatus = efiInvalidParameter then efiSuccess else fileStatus) = status
  split_ifs with herror
  · exact Or.inl rfl
  · rcases carries_split reads with hnone | ⟨before, read, after, rfl, hbefore, hcarries⟩
    · left
      rw [readBlocks_none h hnone, h]
    · right
      have hmem : read ∈ before ++ read :: after := List.mem_append_right _ List.mem_cons_self
      refine ⟨read, hmem, hcarries, ?_⟩
      rw [(readBlocks_first after h hbefore hcarries (hregular read hmem)).1]
      exact multU64x32_toNat (hregular read hmem).bound

end Reads

end BareBoot.Hibernate
