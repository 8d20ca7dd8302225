import BareBoot.Compaction
import BareBoot.KextSearch

/-! The log in memory, `MemLogLib.c`. Every image that is linked with the library has its own pointer `mMemLog`; the
first one to log publishes its `MEM_LOG`, and the others take that. Allocations succeed, each gives a block of its own,
and what the time stamp counter, the pool and the protocol database answer is the environment's. -/

namespace BareBoot.Log

open Plist Kext

def memLogInitialSize : Nat := 256 * 1024
def memLogMaxSize : Nat := 2 * 1024 * 1024
def memLogMaxLineSize : Nat := 1024

/-- `MEM_LOG`, with the bytes of the buffer by their addresses. -/
structure MemLog where
  memory : Memory
  buffer : Nat
  cursor : Nat
  bufferSize : Nat
  callback : Option Nat
  tscStart : UInt64
  tscLast : UInt64
  tscFreqSec : UInt64

/-- What is printed: a format of the library with its arguments, or one of a caller with its own. -/
inductive Format (M : Type) where
  | firmwareRevision
  | firmwareBuildDate
  | inited (tscFreqSec : UInt64)
  | times (startSec startMs lastSec lastMs : UInt64)
  | timed (timing : Bytes)
  | message (m : M)

/-- The bounded print: `size` bytes at most are written at `start`, the terminator among them, and the result is the
number of characters before it. -/
structure BoundedPrint (M : Type) where
  print : Memory → Nat → Nat → Format M → Memory × Nat
  framed : ∀ memory start size format a, a < start ∨ start + size ≤ a → (print memory start size format).1 a = memory a
  bounded : ∀ memory start size format, 0 < size → (print memory start size format).2 < size
  terminated : ∀ memory start size format, 0 < size →
    (print memory start size format).1 (start + (print memory start size format).2) = 0

/-- What the calls out of the library answer, one after the other. -/
structure Environment (M : Type) where
  printer : BoundedPrint M
  tsc : Nat → UInt64
  address : Nat → Nat
  fresh : Nat → Memory
  installs : Nat → Bool

/-- The logs in the pool, the published one, the pointer of each image, the number of answers taken, and what was passed
to the callbacks. -/
structure System where
  logs : List MemLog
  published : Option Nat
  mMemLog : Nat → Option Nat
  readings : Nat
  allocations : Nat
  installations : Nat
  reported : List (Nat × Int × Nat)

/-- Before the first call. -/
def System.start : System := ⟨[], none, fun _ => none, 0, 0, 0, []⟩

variable {M : Type} (env : Environment M)

/-- `ReallocatePool`: a block with what the old one holds, as far as it goes. -/
def reallocatePool (allocation oldSize newSize : Nat) (memory : Memory) (oldBuffer : Nat) : Memory :=
  fun a => if env.address allocation ≤ a ∧ a < env.address allocation + min oldSize newSize
    then memory (oldBuffer + (a - env.address allocation)) else env.fresh allocation a

/-- `AllocateZeroPool`. -/
def allocateZeroPool (allocation size : Nat) : Memory :=
  fun a => if env.address allocation ≤ a ∧ a < env.address allocation + size then 0 else env.fresh allocation a

/-- `GetTiming`: the text, and the log with the time of this call. -/
def getTiming (readings : Nat) (log : MemLog) : MemLog × Bytes × Nat :=
  if log.tscFreqSec ≠ 0 then
    let currentTsc := env.tsc readings
    let dTStartMs := (currentTsc - log.tscStart) * 1000 / log.tscFreqSec
    let dTLastMs := (currentTsc - log.tscLast) * 1000 / log.tscFreqSec
    let timingTxt := env.printer.print (fun _ => 0) 0 32
      (.times (dTStartMs / 1000) (dTStartMs % 1000) (dTLastMs / 1000) (dTLastMs % 1000))
    ({ log with tscLast := currentTsc }, segment timingTxt.1 0 timingTxt.2, readings + 1)
  else (log, [], readings)

/-- Print at the cursor, into the rest of the buffer, and move the cursor. -/
def MemLog.printAt (log : MemLog) (format : Format M) : MemLog :=
  let printed := env.printer.print log.memory log.cursor (log.bufferSize - (log.cursor - log.buffer)) format
  { log with memory := printed.1, cursor := log.cursor + printed.2 }

/-- A line of maximal length does not fit. -/
def MemLog.Short (log : MemLog) : Prop := log.bufferSize < log.cursor - log.buffer + memLogMaxLineSize

instance (log : MemLog) : Decidable log.Short :=
  inferInstanceAs (Decidable (log.bufferSize < log.cursor - log.buffer + memLogMaxLineSize))

/-- The buffer made bigger, the cursor at its old offset. -/
def MemLog.grow (allocation : Nat) (log : MemLog) : MemLog :=
  { log with
    memory := reallocatePool env allocation log.bufferSize (log.bufferSize + memLogInitialSize) log.memory log.buffer
    buffer := env.address allocation
    bufferSize := log.bufferSize + memLogInitialSize
    cursor := env.address allocation + (log.cursor - log.buffer) }

/-- The timing, at the beginning of a line only, and the message. -/
def MemLog.addLog (readings : Nat) (timing : Bool) (format : Format M) (log : MemLog) : MemLog × Nat :=
  if timing = true ∧ (log.memory log.buffer = 0 ∨ log.memory (log.cursor - 1) = 10) then
    let timed := getTiming env readings log
    (((timed.1.printAt env (.timed timed.2.1)).printAt env format), timed.2.2)
  else (log.printAt env format, readings)

/-- `MemLogVA` from the check of the buffer on, with the log the pointer leads to. -/
def memLogTo (k : Nat) (timing : Bool) (debugMode : Int) (format : Format M) (s : System) : System :=
  match s.logs[k]? with
  | none => s
  | some log =>
      if log.Short ∧ memLogMaxSize < log.bufferSize + memLogInitialSize then s
      else
        let room := if log.Short then (log.grow env s.allocations, s.allocations + 1) else (log, s.allocations)
        let added := room.1.addLog env s.readings timing format
        { s with
          logs := s.logs.set k added.1
          readings := added.2
          allocations := room.2
          reported := match added.1.callback with
            | none => s.reported
            | some callback => s.reported ++ [(callback, debugMode, room.1.cursor)] }

/-- A `MEM_LOG` as `MemLogInit` sets it up; the counter is read before and after 100 ms. -/
def newMemLog (allocation readings : Nat) : MemLog where
  memory := allocateZeroPool env allocation memLogInitialSize
  buffer := env.address allocation
  cursor := env.address allocation
  bufferSize := memLogInitialSize
  callback := none
  tscStart := env.tsc readings
  tscLast := env.tsc readings
  tscFreqSec := (env.tsc (readings + 1) - env.tsc readings) * 10

/-- The new `MEM_LOG` in the pool, under the image's pointer, and published if the installation succeeds. -/
def install (image : Nat) (s : System) : System :=
  { s with
    logs := s.logs ++ [newMemLog env s.allocations s.readings]
    published := if env.installs s.installations then some s.logs.length else none
    mMemLog := fun i => if i = image then some s.logs.length else s.mMemLog i
    readings := s.readings + 2
    allocations := s.allocations + 1
    installations := s.installations + 1 }

/-- `MemLogInit`, with whether it returns success. The pointer is set when it logs, so that these calls do not come back
here. -/
def memLogInit (image : Nat) (s : System) : System × Bool :=
  match s.mMemLog image, s.published with
  | some _, _ => (s, true)
  | none, some k => ({ s with mMemLog := fun i => if i = image then some k else s.mMemLog i }, true)
  | none, none =>
      let s' := memLogTo env s.logs.length false 1 .firmwareRevision (install env image s)
      let s' := memLogTo env s.logs.length false 1 .firmwareBuildDate s'
      (memLogTo env s.logs.length true 1 (.inited (newMemLog env s.allocations s.readings).tscFreqSec) s',
        env.installs s.installations)

/-- `MemLogVA` and `MemLog`. -/
def memLog (image : Nat) (timing : Bool) (debugMode : Int) (format : Option M) (s : System) : System :=
  match format with
  | none => s
  | some m =>
      let inited := memLogInit env image s
      if inited.2 = true then
        match inited.1.mMemLog image with
        | none => inited.1
        | some k => memLogTo env k timing debugMode (.message m) inited.1
      else inited.1

/-- `GetMemLogBuffer`. -/
def getMemLogBuffer (image : Nat) (s : System) : System × Option Nat :=
  let inited := memLogInit env image s
  if inited.2 = true then (inited.1, ((inited.1.mMemLog image).bind (inited.1.logs[·]?)).map MemLog.buffer)
  else (inited.1, none)

/-- `GetMemLogLen`. -/
def getMemLogLen (image : Nat) (s : System) : System × Nat :=
  let inited := memLogInit env image s
  if inited.2 = true then
    (inited.1, (((inited.1.mMemLog image).bind (inited.1.logs[·]?)).map fun log => log.cursor - log.buffer).getD 0)
  else (inited.1, 0)

/-- `SetMemLogCallback`. -/
def setMemLogCallback (image : Nat) (callback : Option Nat) (s : System) : System :=
  let inited := memLogInit env image s
  if inited.2 = true then
    match inited.1.mMemLog image with
    | none => inited.1
    | some k => { inited.1 with logs := inited.1.logs.modify k fun log => { log with callback := callback } }
  else inited.1

/-- `GetMemLogTscTicksPerSecond`. -/
def getMemLogTscTicksPerSecond (image : Nat) (s : System) : System × UInt64 :=
  let inited := memLogInit env image s
  if inited.2 = true then
    (inited.1, (((inited.1.mMemLog image).bind (inited.1.logs[·]?)).map MemLog.tscFreqSec).getD 0)
  else (inited.1, 0)

/-- A call into the library. -/
inductive Call (M : Type) where
  | memLog (image : Nat) (timing : Bool) (debugMode : Int) (format : Option M)
  | getMemLogBuffer (image : Nat)
  | getMemLogLen (image : Nat)
  | setMemLogCallback (image : Nat) (callback : Option Nat)
  | getMemLogTscTicksPerSecond (image : Nat)

def call (s : System) : Call M → System
  | .memLog image timing debugMode format => memLog env image timing debugMode format s
  | .getMemLogBuffer image => (getMemLogBuffer env image s).1
  | .getMemLogLen image => (getMemLogLen env image s).1
  | .setMemLogCallback image callback => setMemLogCallback env image callback s
  | .getMemLogTscTicksPerSecond image => (getMemLogTscTicksPerSecond env image s).1

def run (calls : List (Call M)) : System := calls.foldl (call env) System.start

end BareBoot.Log
