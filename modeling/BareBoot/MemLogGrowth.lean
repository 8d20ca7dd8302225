import BareBoot.MemLog

/-! The log only grows: whatever is logged, with whatever reallocations between, the cursor stays before the end of the
buffer with the terminator at it, and what was logged before is the beginning of the log. -/

namespace BareBoot.Log

open Plist Kext

/-- What has been logged. -/
def MemLog.text (log : MemLog) : Bytes := segment log.memory log.buffer (log.cursor - log.buffer)

/-- The cursor is in the buffer, at the terminator. -/
structure MemLog.Sound (log : MemLog) : Prop where
  start_le : log.buffer ≤ log.cursor
  inside : log.cursor - log.buffer < log.bufferSize
  size_le : log.bufferSize ≤ memLogMaxSize
  terminated : log.memory log.cursor = 0

/-- The later log is sound, and begins with the text of the earlier one. -/
structure MemLog.Extends (log log' : MemLog) : Prop where
  sound : log'.Sound
  begins : log.text <+: log'.text

variable {M : Type} (env : Environment M) {log log' log'' : MemLog} {s s' s'' : System}

theorem MemLog.Extends.trans (h : log.Extends log') (h' : log'.Extends log'') : log.Extends log'' :=
  ⟨h'.sound, h.begins.trans h'.begins⟩

/-! ### One log -/

/-- Printing goes behind the text, and does not fill the buffer. -/
theorem MemLog.Sound.printAt (h : log.Sound) (format : Format M) : log.Extends (log.printAt env format) := by
  have hstart := h.start_le
  have hinside := h.inside
  have hroom : 0 < log.bufferSize - (log.cursor - log.buffer) := by omega
  have hbounded := env.printer.bounded log.memory log.cursor _ format hroom
  have hterminated := env.printer.terminated log.memory log.cursor _ format hroom
  set printed := env.printer.print log.memory log.cursor (log.bufferSize - (log.cursor - log.buffer)) format with hprinted
  have hprint : log.printAt env format = { log with memory := printed.1, cursor := log.cursor + printed.2 } := rfl
  have hkept : segment printed.1 log.buffer (log.cursor - log.buffer) = log.text := by
    apply segment_congr
    intro i hi
    exact env.printer.framed log.memory log.cursor _ format _ (Or.inl (by omega))
  rw [hprint]
  refine ⟨⟨?_, ?_, h.size_le, hterminated⟩, ?_⟩
  · exact hstart.trans (Nat.le_add_right _ _)
  · change log.cursor + printed.2 - log.buffer < log.bufferSize
    omega
  · change log.text <+: segment printed.1 log.buffer (log.cursor + printed.2 - log.buffer)
    rw [show log.cursor + printed.2 - log.buffer = log.cursor - log.buffer + printed.2 by omega, segment_add, hkept]
    exact List.prefix_append _ _

/-- The bigger buffer holds the same text, with its terminator. -/
theorem MemLog.Sound.grow (h : log.Sound) (allocation : Nat) (hroom : log.bufferSize + memLogInitialSize ≤ memLogMaxSize) :
    log.Extends (log.grow env allocation) := by
  have hstart := h.start_le
  have hinside := h.inside
  have hcopied : ∀ i < log.bufferSize, (log.grow env allocation).memory (env.address allocation + i) =
      log.memory (log.buffer + i) := by
    intro i hi
    have hmin : i < min log.bufferSize (log.bufferSize + memLogInitialSize) := by omega
    simp only [MemLog.grow, reallocatePool]
    rw [if_pos ⟨Nat.le_add_right _ _, Nat.add_lt_add_left hmin _⟩, Nat.add_sub_cancel_left]
  have htext : (log.grow env allocation).text = log.text := by
    have hlength : (log.grow env allocation).cursor - (log.grow env allocation).buffer = log.cursor - log.buffer :=
      Nat.add_sub_cancel_left _ _
    rw [MemLog.text, MemLog.text, hlength]
    exact segment_eq_iff.mpr fun i hi => hcopied i (hi.trans hinside)
  refine ⟨⟨Nat.le_add_right _ _, ?_, hroom, ?_⟩, by rw [htext]⟩
  · calc (log.grow env allocation).cursor - (log.grow env allocation).buffer
        = log.cursor - log.buffer := Nat.add_sub_cancel_left _ _
      _ < log.bufferSize := hinside
      _ ≤ log.bufferSize + memLogInitialSize := Nat.le_add_right _ _
  · calc (log.grow env allocation).memory (env.address allocation + (log.cursor - log.buffer))
        = log.memory (log.buffer + (log.cursor - log.buffer)) := hcopied _ hinside
      _ = 0 := by rw [Nat.add_sub_cancel' hstart, h.terminated]

/-- The timing only sets the time of the last call. -/
theorem getTiming_fst (readings : Nat) (log : MemLog) :
    ∃ tscLast, (getTiming env readings log).1 = { log with tscLast := tscLast } := by
  unfold getTiming
  split
  · exact ⟨_, rfl⟩
  · exact ⟨log.tscLast, rfl⟩

theorem MemLog.Sound.addLog (h : log.Sound) (readings : Nat) (timing : Bool) (format : Format M) :
    log.Extends (log.addLog env readings timing format).1 := by
  unfold MemLog.addLog
  split
  · obtain ⟨tscLast, htimed⟩ := getTiming_fst env readings log
    have hlast : log.Extends { log with tscLast := tscLast } := ⟨⟨h.start_le, h.inside, h.size_le, h.terminated⟩, List.prefix_rfl⟩
    have hstamped := hlast.trans (hlast.sound.printAt env (.timed (getTiming env readings log).2.1))
    simp only [htimed]
    exact hstamped.trans (hstamped.sound.printAt env format)
  · exact h.printAt env format

/-- A new log is empty. -/
theorem newMemLog_sound (allocation readings : Nat) : (newMemLog env allocation readings).Sound := by
  refine ⟨le_rfl, ?_, show memLogInitialSize ≤ memLogMaxSize by decide, ?_⟩
  · change env.address allocation - env.address allocation < memLogInitialSize
    rw [Nat.sub_self]
    decide
  · exact if_pos ⟨le_rfl, Nat.lt_add_of_pos_right (by decide)⟩

/-! ### All logs -/

/-- Every log is sound, and every pointer leads to a log. -/
structure System.Sound (s : System) : Prop where
  logs : ∀ log ∈ s.logs, log.Sound
  published : ∀ k, s.published = some k → k < s.logs.length
  pointed : ∀ image k, s.mMemLog image = some k → k < s.logs.length

/-- No log is lost, and each begins with what it was. -/
def System.Grows (s s' : System) : Prop :=
  ∀ (k : Nat) (log : MemLog), s.logs[k]? = some log → ∃ log', s'.logs[k]? = some log' ∧ log.text <+: log'.text

theorem System.Grows.refl (s : System) : s.Grows s := fun _ log hlog => ⟨log, hlog, List.prefix_rfl⟩

theorem System.Grows.trans (h : s.Grows s') (h' : s'.Grows s'') : s.Grows s'' := by
  intro k log hlog
  obtain ⟨log', hlog', hbegins⟩ := h k log hlog
  obtain ⟨log'', hlog'', hbegins'⟩ := h' k log' hlog'
  exact ⟨log'', hlog'', hbegins.trans hbegins'⟩

/-- Replacing a log by one that extends it. -/
theorem System.Sound.set (h : s.Sound) {k : Nat} (hlog : s.logs[k]? = some log) (hextends : log.Extends log')
    (hlogs : s'.logs = s.logs.set k log') (hpublished : s'.published = s.published) (hpointed : s'.mMemLog = s.mMemLog) :
    s'.Sound ∧ s.Grows s' := by
  refine ⟨⟨?_, ?_, ?_⟩, ?_⟩
  · intro other hother
    rw [hlogs] at hother
    rcases List.mem_or_eq_of_mem_set hother with hother | rfl
    · exact h.logs other hother
    · exact hextends.sound
  · rw [hpublished, hlogs, List.length_set]
    exact h.published
  · rw [hpointed, hlogs, List.length_set]
    exact h.pointed
  · intro j other hother
    rw [hlogs]
    by_cases hj : k = j
    · subst hj
      obtain rfl : log = other := Option.some_inj.mp (hlog.symm.trans hother)
      exact ⟨log', List.getElem?_set_self (List.getElem?_eq_some_iff.mp hlog).1, hextends.begins⟩
    · exact ⟨other, by rw [List.getElem?_set_ne hj, hother], List.prefix_rfl⟩

theorem System.Sound.memLogTo (h : s.Sound) (k : Nat) (timing : Bool) (debugMode : Int) (format : Format M) :
    (memLogTo env k timing debugMode format s).Sound ∧ s.Grows (memLogTo env k timing debugMode format s) := by
  unfold Log.memLogTo
  cases hlog : s.logs[k]? with
  | none => exact ⟨h, .refl s⟩
  | some log =>
      have hsound := h.logs log (List.mem_of_getElem? hlog)
      dsimp only
      split
      · exact ⟨h, .refl s⟩
      · rename_i hroom
        by_cases hshort : log.Short
        · have hgrown := hsound.grow env s.allocations (by
            by_contra hlarge
            exact hroom ⟨hshort, by omega⟩)
          simp only [if_pos hshort]
          exact h.set hlog (hgrown.trans (hgrown.sound.addLog env s.readings timing format)) rfl rfl rfl
        · simp only [if_neg hshort]
          exact h.set hlog (hsound.addLog env s.readings timing format) rfl rfl rfl

/-- A pointer or a publication of a log that is there. -/
theorem System.Sound.point (h : s.Sound) (image : Nat) {k : Nat} (hk : k < s.logs.length) :
    System.Sound { s with mMemLog := fun i => if i = image then some k else s.mMemLog i } := by
  refine ⟨h.logs, h.published, ?_⟩
  intro i j hj
  dsimp only at hj
  split at hj
  · cases hj
    exact hk
  · exact h.pointed i j hj

theorem System.Sound.install (h : s.Sound) (image : Nat) : (install env image s).Sound ∧ s.Grows (install env image s) := by
  have hlength : (Log.install env image s).logs.length = s.logs.length + 1 := List.length_append
  refine ⟨⟨?_, ?_, ?_⟩, ?_⟩
  · intro log hlog
    rcases List.mem_append.mp hlog with hlog | hlog
    · exact h.logs log hlog
    · rw [List.mem_singleton.mp hlog]
      exact newMemLog_sound env _ _
  · intro k hk
    rw [hlength]
    simp only [Log.install] at hk
    split at hk
    · cases hk
      exact Nat.lt_succ_self _
    · cases hk
  · intro i k hk
    rw [hlength]
    simp only [Log.install] at hk
    split at hk
    · cases hk
      exact Nat.lt_succ_self _
    · exact Nat.lt_succ_of_lt (h.pointed i k hk)
  · intro k log hlog
    have hlt := (List.getElem?_eq_some_iff.mp hlog).1
    exact ⟨log, by rw [Log.install, List.getElem?_append_left hlt, hlog], List.prefix_rfl⟩

theorem System.Sound.memLogInit (h : s.Sound) (image : Nat) :
    (memLogInit env image s).1.Sound ∧ s.Grows (memLogInit env image s).1 := by
  unfold Log.memLogInit
  split
  · exact ⟨h, .refl s⟩
  · rename_i k _ hpublished
    exact ⟨h.point image (h.published k hpublished), .refl s⟩
  · obtain ⟨hinstalled, hgrows⟩ := h.install env image
    obtain ⟨hrevision, hgrows'⟩ := hinstalled.memLogTo env s.logs.length false 1 .firmwareRevision
    obtain ⟨hbuildDate, hgrows''⟩ := hrevision.memLogTo env s.logs.length false 1 .firmwareBuildDate
    obtain ⟨hinited, hgrows'''⟩ := hbuildDate.memLogTo env s.logs.length true 1
      (.inited (newMemLog env s.allocations s.readings).tscFreqSec)
    exact ⟨hinited, hgrows.trans (hgrows'.trans (hgrows''.trans hgrows'''))⟩

theorem System.Sound.memLog (h : s.Sound) (image : Nat) (timing : Bool) (debugMode : Int) (format : Option M) :
    (memLog env image timing debugMode format s).Sound ∧ s.Grows (memLog env image timing debugMode format s) := by
  cases format with
  | none => exact ⟨h, .refl s⟩
  | some m =>
      obtain ⟨hinited, hgrows⟩ := h.memLogInit env image
      simp only [Log.memLog]
      split
      · split
        · exact ⟨hinited, hgrows⟩
        · rename_i k _
          obtain ⟨hlogged, hgrows'⟩ := hinited.memLogTo env k timing debugMode (.message m)
          exact ⟨hlogged, hgrows.trans hgrows'⟩
      · exact ⟨hinited, hgrows⟩

theorem System.Sound.setMemLogCallback (h : s.Sound) (image : Nat) (callback : Option Nat) :
    (setMemLogCallback env image callback s).Sound ∧ s.Grows (setMemLogCallback env image callback s) := by
  obtain ⟨hinited, hgrows⟩ := h.memLogInit env image
  simp only [Log.setMemLogCallback]
  split
  · split
    · exact ⟨hinited, hgrows⟩
    · rename_i k hk
      obtain ⟨log, hlog⟩ : ∃ log, (Log.memLogInit env image s).1.logs[k]? = some log :=
        ⟨_, List.getElem?_eq_getElem (hinited.pointed image k hk)⟩
      have hsound := hinited.logs log (List.mem_of_getElem? hlog)
      have hset : log.Extends { log with callback := callback } :=
        ⟨⟨hsound.start_le, hsound.inside, hsound.size_le, hsound.terminated⟩, List.prefix_rfl⟩
      have hmodify : ((Log.memLogInit env image s).1.logs.modify k fun log => { log with callback := callback }) =
          (Log.memLogInit env image s).1.logs.set k { log with callback := callback } := by
        rw [List.modify_eq_set_getElem?, hlog]
        rfl
      exact And.imp_right hgrows.trans (hinited.set hlog hset hmodify rfl rfl)
  · exact ⟨hinited, hgrows⟩

theorem getMemLogBuffer_fst (image : Nat) (s : System) :
    (getMemLogBuffer env image s).1 = (memLogInit env image s).1 := by
  simp only [getMemLogBuffer]
  split <;> rfl

theorem getMemLogLen_fst (image : Nat) (s : System) : (getMemLogLen env image s).1 = (memLogInit env image s).1 := by
  simp only [getMemLogLen]
  split <;> rfl

theorem getMemLogTscTicksPerSecond_fst (image : Nat) (s : System) :
    (getMemLogTscTicksPerSecond env image s).1 = (memLogInit env image s).1 := by
  simp only [getMemLogTscTicksPerSecond]
  split <;> rfl

/-- One call keeps the logs sound and only adds to them. -/
theorem System.Sound.call (h : s.Sound) (c : Call M) : (call env s c).Sound ∧ s.Grows (call env s c) := by
  cases c with
  | memLog image timing debugMode format => exact h.memLog env image timing debugMode format
  | setMemLogCallback image callback => exact h.setMemLogCallback env image callback
  | getMemLogBuffer image =>
      rw [Log.call, getMemLogBuffer_fst]
      exact h.memLogInit env image
  | getMemLogLen image =>
      rw [Log.call, getMemLogLen_fst]
      exact h.memLogInit env image
  | getMemLogTscTicksPerSecond image =>
      rw [Log.call, getMemLogTscTicksPerSecond_fst]
      exact h.memLogInit env image

theorem start_sound : System.start.Sound :=
  ⟨fun _ h => absurd h List.not_mem_nil, fun _ h => absurd h.symm (Option.some_ne_none _),
    fun _ _ h => absurd h.symm (Option.some_ne_none _)⟩

/-- In a run, from any of its states on. -/
theorem System.Sound.foldl (h : s.Sound) (calls : List (Call M)) :
    (calls.foldl (Log.call env) s).Sound ∧ s.Grows (calls.foldl (Log.call env) s) := by
  induction calls generalizing s with
  | nil => exact ⟨h, .refl s⟩
  | cons c calls ih =>
      obtain ⟨hcalled, hgrows⟩ := h.call env c
      obtain ⟨hrun, hgrows'⟩ := ih hcalled
      exact ⟨hrun, hgrows.trans hgrows'⟩

/-- Nothing changes where a line of maximal length does not fit and the buffer has its maximal size. -/
theorem memLog_full {image k : Nat} (hpointer : s.mMemLog image = some k) (hlog : s.logs[k]? = some log)
    (hshort : log.Short) (hsize : log.bufferSize = memLogMaxSize) (timing : Bool) (debugMode : Int) (format : Option M) :
    memLog env image timing debugMode format s = s := by
  cases format with
  | none => rfl
  | some m =>
      have hinit : memLogInit env image s = (s, true) := by
        rw [memLogInit, hpointer]
      have hfull : log.Short ∧ memLogMaxSize < log.bufferSize + memLogInitialSize :=
        ⟨hshort, by rw [hsize]; exact Nat.lt_add_of_pos_right (by decide)⟩
      simp only [memLog, hinit, if_true, hpointer, memLogTo, hlog]
      exact if_pos hfull

/-- In every run of calls from any images: each log is sound, begins after a call with what it was before, and is left
alone by a call when it is full. -/
theorem memLog_appends (calls : List (Call M)) :
    (∀ image k, (run env calls).mMemLog image = some k → ∃ log, (run env calls).logs[k]? = some log) ∧
      (∀ log ∈ (run env calls).logs, 0 ≤ (log.cursor : Int) - log.buffer ∧ (log.cursor : Int) - log.buffer < log.bufferSize ∧
        log.bufferSize ≤ memLogMaxSize ∧ log.memory log.cursor = 0) ∧
      (∀ c (k : Nat) (log : MemLog), (run env calls).logs[k]? = some log → ∃ log' : MemLog, (run env (calls ++ [c])).logs[k]? = some log' ∧
        log.text <+: log'.text) ∧
      ∀ image timing debugMode format k log, (run env calls).mMemLog image = some k → (run env calls).logs[k]? = some log →
        log.bufferSize - (log.cursor - log.buffer) < memLogMaxLineSize → log.bufferSize = memLogMaxSize →
        run env (calls ++ [.memLog image timing debugMode format]) = run env calls := by
  have hrun : (run env calls).Sound := (start_sound.foldl env calls).1
  have hstep : ∀ c, run env (calls ++ [c]) = call env (run env calls) c := by
    intro c
    rw [run, List.foldl_concat]
    rfl
  refine ⟨?_, ?_, ?_, ?_⟩
  · intro image k hk
    exact ⟨_, List.getElem?_eq_getElem (hrun.pointed image k hk)⟩
  · intro log hlog
    have hsound := hrun.logs log hlog
    have hstart := hsound.start_le
    have hinside := hsound.inside
    exact ⟨by omega, by omega, hsound.size_le, hsound.terminated⟩
  · intro c
    rw [hstep c]
    exact (hrun.call env c).2
  · intro image timing debugMode format k log hpointer hlog hremains hsize
    have hinside := (hrun.logs log (List.mem_of_getElem? hlog)).inside
    have hshort : log.Short := by
      unfold MemLog.Short
      omega
    rw [hstep]
    exact memLog_full env hpointer hlog hshort hsize timing debugMode format

/-- Printing a text of a length: as many of its characters as there is room for, and the terminator. -/
def printText (length : Format M → Nat) (char : Format M → Nat → UInt8) : BoundedPrint M where
  print memory start size format :=
    if size = 0 then (memory, 0)
    else
      let count := min (length format) (size - 1)
      (fun a => if a < start then memory a else if a < start + count then char format (a - start)
        else if a = start + count then 0 else memory a, count)
  framed memory start size format a h := by
    split
    · rfl
    · dsimp only
      split_ifs <;> first | rfl | omega
  bounded memory start size format h := by
    rw [if_neg (Nat.ne_of_gt h)]
    dsimp only
    omega
  terminated memory start size format h := by
    rw [if_neg (Nat.ne_of_gt h)]
    dsimp only
    rw [if_neg (by omega), if_neg (by omega), if_pos rfl]

/-- Messages that are longer than any buffer, and nothing else. -/
def longMessages : Environment Unit where
  printer := printText (fun format => match format with | .message _ => 3 * 1024 * 1024 | _ => 0) fun _ _ => 120
  tsc reading := UInt64.ofNat reading
  address allocation := (allocation + 1) * 2 ^ 22
  fresh _ _ := 0
  installs _ := true

/-- Eight of them fill the buffer, and the ninth is dropped. -/
theorem longMessages_dropped :
    (run longMessages (List.replicate 8 (.memLog 0 false 1 (some ())))).logs.map (fun log => log.cursor - log.buffer) = [2097151] ∧
      run longMessages (List.replicate 8 (.memLog 0 false 1 (some ())) ++ [.memLog 0 false 1 (some ())]) =
        run longMessages (List.replicate 8 (.memLog 0 false 1 (some ()))) := by
  set calls : List (Call Unit) := List.replicate 8 (.memLog 0 false 1 (some ())) with hcalls
  have hpointer : (run longMessages calls).mMemLog 0 = some 0 := by decide +kernel
  have hsizes : (run longMessages calls).logs.map (fun log => (log.bufferSize, log.cursor - log.buffer)) =
      [(2097152, 2097151)] := by decide +kernel
  obtain ⟨log, hlogs, hlog⟩ := List.map_eq_singleton_iff.mp hsizes
  rw [Prod.mk.injEq] at hlog
  refine ⟨by rw [hlogs, List.map_singleton, hlog.2], ?_⟩
  apply (memLog_appends longMessages calls).2.2.2 0 false 1 (some ()) 0 log hpointer
  · rw [hlogs]
    rfl
  · rw [hlog.1, hlog.2]
    decide
  · exact hlog.1

end BareBoot.Log
