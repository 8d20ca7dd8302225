import BareBoot.Fold
import BareBoot.PrelinkedKexts
import BareBoot.UserSettings

/-! The patches of `config.plist`, from the loader in `GetUserSettings` to `AnyKernelPatch` and `PatchKext`. The
patchers stop here where the code reads a slot that was never filled or follows a null pointer, and where a
search does not end. -/

namespace BareBoot.Config

open Plist Exec Kext Fold

/-! ### The patchers -/

/-- Why a patcher does not come to its end. -/
inductive PatchFault
  | unfilled
  | nullName
  | nullPattern
  | endless
  deriving DecidableEq, Repr

def kernelMaxSize : Nat := 40000000

/-- Reading an element of an array. -/
def slotAt {α : Type} (slots : Fin 100 → Option α) (i : Nat) : Except PatchFault α :=
  if h : i < 100 then
    match slots ⟨i, h⟩ with
    | some slot => .ok slot
    | none => .error .unfilled
  else .error .unfilled

/-- A search that ends, or none. -/
def ended {α : Type} : Option α → Except PatchFault α
  | some a => .ok a
  | none => .error .endless

/-- `SearchAndReplace` with the patterns of a slot. The pattern is read where it fits, its replacement where it
is found. -/
def applyPatch (source size dataLen : Nat) (data patch : Option Bytes) (memory : Memory) : Except PatchFault Memory :=
  match data with
  | none => if size < dataLen then .ok memory else if dataLen = 0 then .error .endless else .error .nullPattern
  | some find =>
      let search := find.take dataLen
      if dataLen ≠ 0 ∧ patch = none ∧ searchMemory memory source size search ≠ none then .error .nullPattern
      else
        ended ((searchAndReplace memory source size search ((patch.getD []).take dataLen) (-1)).map Prod.fst)

def kernelSlotPatch (kernel : Nat) (memory : Memory) (slot : KernelSlot) : Except PatchFault Memory :=
  if slot.data = none then .ok memory
  else applyPatch kernel kernelMaxSize slot.dataLen slot.data slot.patch memory

def anyKernelPatch (s : SettingsData) (kernel : Nat) (memory : Memory) : Except PatchFault Memory :=
  (List.range s.nrKernel).foldlM
    (fun memory i => do
      let slot ← slotAt s.kernel i
      kernelSlotPatch kernel memory slot) memory

def anyKextPatch (driver driverSize infoPlist infoPlistSize : Nat) (slot : KextSlot) (memory : Memory) :
    Except PatchFault Memory :=
  if slot.infoPlistPatch then
    if infoPlist = 0 ∨ infoPlistSize = 0 then .ok memory
    else applyPatch infoPlist infoPlistSize slot.dataLen slot.data slot.patch memory
  else if driver = 0 ∨ driverSize = 0 then .ok memory
  else applyPatch driver driverSize slot.dataLen slot.data slot.patch memory

/-- What the loop of `PatchKext` does with one slot. -/
def kextSlotPatch (bundleIdentifier idLength driver driverSize infoPlist infoPlistSize : Nat) (memory : Memory)
    (slot : KextSlot) : Except PatchFault Memory :=
  if slot.dataLen < 1 then .ok memory
  else
    match slot.name with
    | none => .error .nullName
    | some name =>
        match searchMemory memory bundleIdentifier idLength (cstr name) with
        | none => .ok memory
        | some _ => anyKextPatch driver driverSize infoPlist infoPlistSize slot memory

def patchKext (s : SettingsData) (bundleIdentifier driver driverSize infoPlist infoPlistSize : Nat) (memory : Memory) :
    Except PatchFault Memory := do
  let extracted ← ended (extractKextBundleIdentifier bundleIdentifier infoPlist infoPlistSize memory)
  (List.range s.nrKexts).foldlM
    (fun memory i => do
      let slot ← slotAt s.kext i
      kextSlotPatch bundleIdentifier extracted.2 driver driverSize infoPlist infoPlistSize memory slot) extracted.1

/-! ### What the entries say -/

/-- The entries of an array of the plist. -/
def entries (gConfigPlist : Option Node) (key : Bytes) : List Node :=
  match plDictFindKind gConfigPlist key .array with
  | none => []
  | some array => array.kids.trees

/-- The bytes of a data node, or of the hex text of a string. -/
def dataSetting (dict : Option Node) (propName : Bytes) : Option Bytes :=
  let prop := plDictFindKind dict propName .any
  match plNodeGetKind prop with
  | .data => some ((plNodeGetBytes prop).getD [])
  | .string => some (hex2bin (cstr ((plNodeGetBytes prop).getD [])) (i32 (plNodeGetSize prop / 2 : Nat)))
  | _ => none

def stringText (dict : Option Node) (key : Bytes) : Option Bytes :=
  (plDictFindKind dict key .string).map fun dentry => (plNodeGetBytes dentry).getD []

/-- The bytes of a pattern, if the entry has one: the text as a C string, or the data. -/
def pattern (infoPlistPatch : Bool) (dict : Option Node) (key : Bytes) : Option Bytes :=
  if infoPlistPatch then (stringText dict key).map cstr else dataSetting dict key

/-- The lengths of the two patterns agree and are not 0. -/
def Accepted (find replace : Option Bytes) : Prop :=
  (find.getD []).length = (replace.getD []).length ∧ 1 ≤ (find.getD []).length

instance (find replace : Option Bytes) : Decidable (Accepted find replace) := by unfold Accepted; infer_instance

def kernelFind (entry : Node) : Option Bytes := pattern false (some entry) (ascii "Find")
def kernelReplace (entry : Node) : Option Bytes := pattern false (some entry) (ascii "Replace")

def isInfoPlist (entry : Node) : Bool := getBoolProperty (some entry) (ascii "InfoPlistPatch") false
def kextName (entry : Node) : Option Bytes := stringText (some entry) (ascii "Name")
def kextFind (entry : Node) : Option Bytes := pattern (isInfoPlist entry) (some entry) (ascii "Find")
def kextReplace (entry : Node) : Option Bytes := pattern (isInfoPlist entry) (some entry) (ascii "Replace")

/-- The patterns of the accepted entries, in their order. -/
def acceptedKernel (list : List Node) : List (Bytes × Bytes) :=
  list.filterMap fun entry =>
    if Accepted (kernelFind entry) (kernelReplace entry) then
      some ((kernelFind entry).getD [], (kernelReplace entry).getD [])
    else none

/-- An entry as a patch of a kext. -/
def kextPatchOf (entry : Node) : Kext.KextPatch where
  name := (kextName entry).map cstr
  infoPlistPatch := isInfoPlist entry
  dataLen := ((kextFind entry).getD []).length
  data j := ((kextFind entry).getD []).getD j 0
  patch j := ((kextReplace entry).getD []).getD j 0

/-- The patches of the accepted entries, in their order. -/
def acceptedKexts (list : List Node) : List Kext.KextPatch :=
  list.filterMap fun entry =>
    if Accepted (kextFind entry) (kextReplace entry) then some (kextPatchOf entry) else none

/-! ### The loader -/

/-- The pool a pattern lies in. -/
def patternPool (infoPlistPatch : Bool) (dict : Option Node) (key : Bytes) : Option Bytes :=
  if infoPlistPatch then stringText dict key else dataSetting dict key

def kernelSlotOf (entry : Node) : KernelSlot :=
  ⟨acceptedLen ((kernelFind entry).getD []).length ((kernelReplace entry).getD []).length, kernelFind entry,
    kernelReplace entry⟩

def kextSlotOf (entry : Node) : KextSlot :=
  ⟨kextName entry, isInfoPlist entry, acceptedLen ((kextFind entry).getD []).length ((kextReplace entry).getD []).length,
    patternPool (isInfoPlist entry) (some entry) (ascii "Find"),
    patternPool (isInfoPlist entry) (some entry) (ascii "Replace")⟩

section Loader

variable {env : Env} {dict : Option Node} {key : Bytes}

/-- A run that returns a value and changes the count of the allocations at most. -/
def Gives {α : Type} (x : SettingsM α) (a : α) : Prop := ∀ s, ∃ allocs, x s = ⟨.ok a, { s with allocs }, []⟩

theorem Gives.bind {α β : Type} {x : SettingsM α} {f : α → SettingsM β} {a : α} {b : β} (hx : Gives x a)
    (hf : Gives (f a) b) : Gives (x >>= f) b := by
  intro s
  obtain ⟨allocs, hrun⟩ := hx s
  obtain ⟨allocs', hrun'⟩ := hf { s with allocs }
  refine ⟨allocs', ?_⟩
  rw [bind_of_ok hrun, hrun']
  rfl

theorem gives_pure {α : Type} (a : α) : Gives (pure a) a := fun s => ⟨s.allocs, rfl⟩

theorem gives_allocatePool (hpool : ∀ n, env.pool n = true) : Gives (allocatePool env.pool) true := by
  intro s
  refine ⟨s.allocs + 1, ?_⟩
  rw [← hpool s.allocs]
  rfl

theorem gives_allocateCopyPool (hpool : ∀ n, env.pool n = true) (bytes : Bytes) :
    Gives (allocateCopyPool env.pool bytes) (some bytes) :=
  (gives_allocatePool hpool).bind (gives_pure _)

theorem gives_stringProperty (hpool : ∀ n, env.pool n = true) :
    Gives (getStringProperty env.pool dict key) (stringText dict key) := by
  unfold getStringProperty stringText
  cases plDictFindKind dict key .string with
  | none => exact gives_pure _
  | some dentry => exact gives_allocateCopyPool hpool _

theorem gives_dataSetting (hpool : ∀ n, env.pool n = true) :
    Gives (getDataSetting env.pool dict key) (dataSetting dict key, ((dataSetting dict key).getD []).length) := by
  unfold getDataSetting dataSetting
  dsimp only
  cases hkind : plNodeGetKind (plDictFindKind dict key .any) with
  | data =>
      obtain ⟨bytes, hbytes⟩ := plNodeGetBytes_of_kind (Or.inl hkind)
      rw [hbytes, plNodeGetSize_of_bytes hbytes]
      exact (gives_allocateCopyPool hpool bytes).bind (gives_pure _)
  | string =>
      refine (gives_allocatePool hpool).bind ?_
      rw [if_pos rfl]
      dsimp only
      rw [Option.getD_some]
      exact gives_pure _
  | _ => exact gives_pure _

/-- What `GetDataSetting` or the text gives for a pattern. -/
theorem gives_kextSetting (hpool : ∀ n, env.pool n = true) (infoPlistPatch : Bool) :
    Gives (kextSetting env infoPlistPatch dict key)
      (patternPool infoPlistPatch dict key, ((pattern infoPlistPatch dict key).getD []).length) := by
  cases infoPlistPatch
  · exact gives_dataSetting hpool
  · have htext : ((pattern true dict key).getD []).length = (cstr ((stringText dict key).getD [])).length := by
      unfold pattern
      rw [if_pos rfl]
      cases stringText dict key with
      | none => rfl
      | some bytes => rfl
    rw [htext]
    exact (gives_stringProperty hpool).bind (gives_pure _)

theorem kernelPatch_run (hpool : ∀ n, env.pool n = true) (entry : Node) {i : Nat} (hi : i < 100) (s : SettingsData) :
    ∃ t, kernelPatch env (some entry) i s = ⟨.ok (), t, []⟩ ∧
      t.kernel = Function.update s.kernel ⟨i, hi⟩ (some (kernelSlotOf entry)) ∧
      (t.nrKernel, t.nrKexts, t.kext) = (s.nrKernel, s.nrKexts, s.kext) := by
  obtain ⟨k, hfind⟩ := @gives_dataSetting env (some entry) (ascii "Find") hpool s
  obtain ⟨k', hreplace⟩ := @gives_dataSetting env (some entry) (ascii "Replace") hpool { s with allocs := k }
  unfold kernelPatch
  rw [dif_pos hi, bind_of_ok hfind, bind_of_ok hreplace]
  exact ⟨_, rfl, rfl, rfl⟩

theorem kextPatch_run (hpool : ∀ n, env.pool n = true) (entry : Node) {i : Nat} (hi : i < 100) (s : SettingsData) :
    ∃ t, kextPatch env (some entry) i s = ⟨.ok (), t, []⟩ ∧
      t.kext = Function.update s.kext ⟨i, hi⟩ (some (kextSlotOf entry)) ∧
      (t.nrKernel, t.nrKexts, t.kernel) = (s.nrKernel, s.nrKexts, s.kernel) := by
  obtain ⟨k, hname⟩ := @gives_stringProperty env (some entry) (ascii "Name") hpool s
  obtain ⟨k', hfind⟩ := @gives_kextSetting env (some entry) (ascii "Find") hpool (isInfoPlist entry)
    { s with allocs := k }
  obtain ⟨k'', hreplace⟩ := @gives_kextSetting env (some entry) (ascii "Replace") hpool (isInfoPlist entry)
    { s with allocs := k' }
  unfold isInfoPlist at hfind hreplace
  unfold kextPatch
  rw [dif_pos hi, bind_of_ok hname]
  dsimp only
  rw [bind_of_ok hfind, bind_of_ok hreplace]
  exact ⟨_, rfl, rfl, rfl⟩

/-- A loop that fills one slot in each round, and leaves the rest of the settings as it is. -/
theorem forM_fills {α ρ : Type} {slots : SettingsData → Fin 100 → Option α} {rest : SettingsData → ρ}
    {f : Nat → SettingsM Unit} {g : Nat → Option α} {l : List Nat}
    (hstep : ∀ i ∈ l, ∃ hi : i < 100, ∀ s, ∃ t, f i s = ⟨.ok (), t, []⟩ ∧
      slots t = Function.update (slots s) ⟨i, hi⟩ (g i) ∧ rest t = rest s) (s : SettingsData) :
    ∃ t, l.forM f s = ⟨.ok (), t, []⟩ ∧ (∀ i : Fin 100, slots t i = if i.val ∈ l then g i else slots s i) ∧
      rest t = rest s := by
  induction l generalizing s with
  | nil => exact ⟨s, rfl, fun i => (if_neg List.not_mem_nil).symm, rfl⟩
  | cons j l ih =>
      obtain ⟨hj, hfirst⟩ := hstep j List.mem_cons_self
      obtain ⟨t, hrun, hslots, hrest⟩ := hfirst s
      obtain ⟨u, hrun', hslots', hrest'⟩ := ih (fun i hi => hstep i (List.mem_cons_of_mem j hi)) t
      refine ⟨u, ?_, ?_, hrest'.trans hrest⟩
      · show (f j >>= fun _ => l.forM f) s = _
        rw [bind_of_ok hrun, hrun']
        rfl
      · intro i
        rw [hslots' i]
        by_cases hmem : i.val ∈ l
        · rw [if_pos hmem, if_pos (List.mem_cons_of_mem j hmem)]
        · rw [if_neg hmem, hslots]
          by_cases hij : i = ⟨j, hj⟩
          · subst hij
            rw [Function.update_self, if_pos List.mem_cons_self]
          · have hne : i.val ≠ j := fun h => hij (Fin.ext h)
            rw [Function.update_of_ne hij, if_neg]
            rw [List.mem_cons, not_or]
            exact ⟨hne, hmem⟩

/-- The array an entry list comes from. -/
theorem entries_of_some {array : Node} (h : plDictFindKind dict key .array = some array) :
    plNodeGetSize (some array) = (entries dict key).length ∧ ∀ i, plNodeGetItem (some array) i = (entries dict key)[i]? := by
  have hkind := plDictFindKind_kind h (by decide)
  unfold entries
  rw [h]
  obtain ⟨label, kids⟩ := array
  cases label with
  | array => exact ⟨rfl, fun _ => rfl⟩
  | _ => cases hkind

theorem entries_of_none (h : plDictFindKind dict key .array = none) : entries dict key = [] := by
  unfold entries
  rw [h]

/-- The slots for some entries: all of them, or none where there are too many. -/
def slotsOf {α : Type} (f : Node → α) (list : List Node) (i : Nat) : Option α :=
  if list.length ≤ 100 then list[i]?.map f else none

/-- Filling an array from the entries of another, or leaving it. -/
theorem fills_entries {α ρ : Type} {slots : SettingsData → Fin 100 → Option α} {rest : SettingsData → ρ}
    {f : Nat → SettingsM Unit} {g : Node → α} {list : List Node}
    (hstep : ∀ i entry, list[i]? = some entry → ∀ hi : i < 100, ∀ s, ∃ t, f i s = ⟨.ok (), t, []⟩ ∧
      slots t = Function.update (slots s) ⟨i, hi⟩ (some (g entry)) ∧ rest t = rest s) (s : SettingsData)
    (hempty : slots s = fun _ => none) :
    ∃ t, (if list.length ≤ 100 then (List.range list.length).forM f else pure ()) s = ⟨.ok (), t, []⟩ ∧
      (∀ i : Fin 100, slots t i = slotsOf g list i) ∧ rest t = rest s := by
  unfold slotsOf
  by_cases hcount : list.length ≤ 100
  · rw [if_pos hcount]
    have hround : ∀ i ∈ List.range list.length, ∃ hi : i < 100, ∀ s, ∃ t, f i s = ⟨.ok (), t, []⟩ ∧
        slots t = Function.update (slots s) ⟨i, hi⟩ (list[i]?.map g) ∧ rest t = rest s := by
      intro i hi
      rw [List.mem_range] at hi
      refine ⟨by omega, ?_⟩
      rw [List.getElem?_eq_getElem hi]
      exact hstep i _ (List.getElem?_eq_getElem hi) (by omega)
    obtain ⟨t, hrun, hslots, hrest⟩ := forM_fills hround s
    refine ⟨t, hrun, ?_, hrest⟩
    intro i
    rw [hslots i, hempty, if_pos hcount]
    by_cases hi : i.val ∈ List.range list.length
    · rw [if_pos hi]
    · rw [List.mem_range, not_lt] at hi
      rw [if_neg (by rw [List.mem_range]; omega), List.getElem?_eq_none hi]
      rfl
  · rw [if_neg hcount]
    refine ⟨s, rfl, ?_, rfl⟩
    intro i
    rw [if_neg hcount, hempty]

/-- The settings before the patches are read: nothing is counted, and no slot is filled. -/
structure Unloaded (s : SettingsData) : Prop where
  nrKernel : s.nrKernel = 0
  kernel : s.kernel = fun _ => none
  nrKexts : s.nrKexts = 0
  kext : s.kext = fun _ => none

/-- The settings with the patches of a plist. -/
structure Loaded (gConfigPlist : Option Node) (t : SettingsData) : Prop where
  nrKernel : t.nrKernel = (entries gConfigPlist (ascii "KernelPatches")).length
  kernel : ∀ i : Fin 100, t.kernel i = slotsOf kernelSlotOf (entries gConfigPlist (ascii "KernelPatches")) i
  nrKexts : t.nrKexts = (entries gConfigPlist (ascii "KextPatches")).length
  kext : ∀ i : Fin 100, t.kext i = slotsOf kextSlotOf (entries gConfigPlist (ascii "KextPatches")) i

theorem kernelPatches_run (hpool : ∀ n, env.pool n = true) (gConfigPlist : Option Node) {s : SettingsData}
    (hs : Unloaded s) :
    ∃ t, kernelPatches env gConfigPlist s = ⟨.ok (), t, []⟩ ∧
      t.nrKernel = (entries gConfigPlist (ascii "KernelPatches")).length ∧
      (∀ i : Fin 100, t.kernel i = slotsOf kernelSlotOf (entries gConfigPlist (ascii "KernelPatches")) i) ∧
      t.nrKexts = 0 ∧ t.kext = fun _ => none := by
  unfold kernelPatches
  rw [modify_bind_apply]
  cases hfind : plDictFindKind gConfigPlist (ascii "KernelPatches") .array with
  | none =>
      rw [entries_of_none hfind]
      exact ⟨_, rfl, hs.nrKernel, fun i => congrFun hs.kernel i, hs.nrKexts, hs.kext⟩
  | some array =>
      obtain ⟨hsize, hitem⟩ := entries_of_some hfind
      dsimp only
      rw [modify_bind_apply, hsize]
      obtain ⟨t, hrun, hslots, hrest⟩ := @fills_entries _ _ SettingsData.kernel (fun s => (s.nrKernel, s.nrKexts, s.kext))
        (fun i => kernelPatch env (plNodeGetItem (some array) i) i) kernelSlotOf (entries gConfigPlist (ascii "KernelPatches"))
        (fun i entry hentry hi s => by
          rw [hitem, hentry]
          exact kernelPatch_run hpool entry hi s)
        { s with kpKernelPatchesNeeded := false, nrKernel := (entries gConfigPlist (ascii "KernelPatches")).length } hs.kernel
      obtain ⟨hnr, hkexts, hkext⟩ : t.nrKernel = _ ∧ t.nrKexts = s.nrKexts ∧ t.kext = s.kext := by
        simpa only [Prod.mk.injEq] using hrest
      exact ⟨t, hrun, hnr, hslots, hkexts.trans hs.nrKexts, hkext.trans hs.kext⟩

theorem kernelAndKextPatches_run (hpool : ∀ n, env.pool n = true) (gConfigPlist : Option Node) {s : SettingsData}
    (hs : Unloaded s) :
    ∃ t, kernelAndKextPatches env gConfigPlist s = ⟨.ok (), t, []⟩ ∧ Loaded gConfigPlist t := by
  obtain ⟨t, hrun, hnr, hkernel, hkexts, hkext⟩ := kernelPatches_run hpool gConfigPlist hs
  unfold kernelAndKextPatches
  rw [bind_of_ok hrun]
  unfold kextPatches
  rw [modify_bind_apply]
  cases hfind : plDictFindKind gConfigPlist (ascii "KextPatches") .array with
  | none =>
      refine ⟨_, rfl, hnr, hkernel, ?_, ?_⟩
      · rw [entries_of_none hfind]
        exact hkexts
      · rw [entries_of_none hfind]
        exact fun i => congrFun hkext i
  | some array =>
      obtain ⟨hsize, hitem⟩ := entries_of_some hfind
      dsimp only
      rw [modify_bind_apply, hsize]
      obtain ⟨u, hrun', hslots, hrest⟩ := @fills_entries _ _ SettingsData.kext (fun s => (s.nrKernel, s.nrKexts, s.kernel))
        (fun i => kextPatch env (plNodeGetItem (some array) i) i) kextSlotOf (entries gConfigPlist (ascii "KextPatches"))
        (fun i entry hentry hi s => by
          rw [hitem, hentry]
          exact kextPatch_run hpool entry hi s)
        { t with kpKextPatchesNeeded := false, nrKexts := (entries gConfigPlist (ascii "KextPatches")).length } hkext
      obtain ⟨hnr', hnrKexts, hkernel'⟩ : u.nrKernel = t.nrKernel ∧ u.nrKexts = _ ∧ u.kernel = t.kernel := by
        simpa only [Prod.mk.injEq] using hrest
      refine ⟨u, ?_, hnr'.trans hnr, ?_, hnrKexts, hslots⟩
      · rw [hrun']
        rfl
      · rw [hkernel']
        exact hkernel

end Loader

/-! ### The patchers on loaded settings -/

section Folds

variable {α β ε : Type}

theorem ended_bind (x : Option α) (f : α → Option β) : ended (x >>= f) = ended x >>= fun a => ended (f a) := by
  cases x with
  | none => rfl
  | some a => rfl

/-- Folding over the slots is folding over the entries they were filled from. -/
theorem foldlM_slots {slots : Fin 100 → Option α} {f : Node → α} {list : List Node}
    {step : β → α → Except PatchFault β} (hslots : ∀ i : Fin 100, slots i = slotsOf f list i) (b : β) :
    (List.range list.length).foldlM (fun b i => do
      let slot ← slotAt slots i
      step b slot) b =
      if list.length ≤ 100 then list.foldlM (fun b entry => step b (f entry)) b else .error .unfilled := by
  by_cases hcount : list.length ≤ 100
  · rw [if_pos hcount]
    apply foldlM_range
    intro i hi b
    have hslot : slotAt slots i = .ok (f list[i]) := by
      unfold slotAt
      rw [dif_pos (show i < 100 by omega), hslots]
      unfold slotsOf
      rw [if_pos hcount, List.getElem?_eq_getElem hi]
      rfl
    rw [hslot]
    rfl
  · have hslot : slotAt slots 0 = .error .unfilled := by
      unfold slotAt
      rw [dif_pos (by decide), hslots]
      unfold slotsOf
      rw [if_neg hcount]
    obtain ⟨n, hn⟩ : ∃ n, list.length = n + 1 := ⟨list.length - 1, by omega⟩
    rw [if_neg hcount, hn, List.range_succ_eq_map, List.foldlM_cons, hslot]
    rfl

end Folds

section Patches

variable {memory : Memory}

/-- An empty pattern is found again and again at the same place. -/
theorem searchAndReplace_empty (source size : Nat) : searchAndReplace memory source size [] [] (-1) = none := by
  have hloop : ∀ rounds maxReplaces num (memory : Memory),
      replaceFrom [] [] true (source + (size + 1)) rounds source maxReplaces num memory = none := by
    intro rounds
    induction rounds with
    | zero => exact fun _ _ _ => rfl
    | succ rounds ih =>
        intro maxReplaces num memory
        have hfound : holds memory source [] = true := rfl
        rw [replaceFrom, if_pos ⟨by omega, Or.inl rfl⟩, if_pos hfound]
        exact ih _ _ _
  exact hloop _ _ _ _

theorem applyPatch_empty (source size : Nat) (data patch : Option Bytes) :
    applyPatch source size 0 data patch memory = .error .endless := by
  unfold applyPatch
  cases data with
  | none => rw [if_neg (Nat.not_lt_zero size), if_pos rfl]
  | some find =>
      dsimp only
      rw [if_neg fun h => h.1 rfl, List.take_zero, List.take_zero, searchAndReplace_empty]
      rfl

theorem applyPatch_patterns (source size dataLen : Nat) (find replace : Bytes) :
    applyPatch source size dataLen (some find) (some replace) memory =
      ended ((searchAndReplace memory source size (find.take dataLen) (replace.take dataLen) (-1)).map Prod.fst) := by
  unfold applyPatch
  dsimp only
  rw [if_neg fun h => nomatch h.2.1]
  rfl

theorem acceptedLen_of_accepted {find replace : Option Bytes} (h : Accepted find replace) :
    acceptedLen (find.getD []).length (replace.getD []).length = (find.getD []).length := by
  obtain ⟨hsame, hpos⟩ := h
  rw [acceptedLen, if_neg]
  omega

theorem acceptedLen_of_not {find replace : Option Bytes} (h : ¬Accepted find replace) :
    acceptedLen (find.getD []).length (replace.getD []).length = 0 := by
  rw [acceptedLen, if_pos]
  by_contra hne
  rw [not_or, not_not] at hne
  exact h ⟨hne.1, by omega⟩

/-- An accepted entry has both patterns. -/
theorem Accepted.some {find replace : Option Bytes} (h : Accepted find replace) :
    find = some (find.getD []) ∧ replace = some (replace.getD []) := by
  obtain ⟨hsame, hpos⟩ := h
  cases find with
  | none => exact absurd hpos (by decide)
  | some find =>
      cases replace with
      | none =>
          rw [Option.getD_none, List.length_nil] at hsame
          omega
      | some replace => exact ⟨rfl, rfl⟩

/-! ### The kernel -/

def replacePattern (kernel : Nat) (memory : Memory) (pattern : Bytes × Bytes) : Option Memory :=
  (searchAndReplace memory kernel kernelMaxSize pattern.1 pattern.2 (-1)).map Prod.fst

variable {entry : Node} {list : List Node}

theorem kernelSlotPatch_accepted (h : Accepted (kernelFind entry) (kernelReplace entry)) (kernel : Nat) (memory : Memory) :
    kernelSlotPatch kernel memory (kernelSlotOf entry) =
      ended (replacePattern kernel memory ((kernelFind entry).getD [], (kernelReplace entry).getD [])) := by
  obtain ⟨hfind, hreplace⟩ := h.some
  have hlen := acceptedLen_of_accepted h
  have hsame := h.1
  unfold kernelSlotPatch kernelSlotOf
  rw [hlen]
  dsimp only
  generalize (kernelFind entry).getD [] = find at hfind hsame ⊢
  generalize (kernelReplace entry).getD [] = replace at hreplace hsame ⊢
  rw [hfind, hreplace, if_neg (fun h => nomatch h), applyPatch_patterns, List.take_length, hsame, List.take_length]
  rfl

theorem kernelSlotPatch_absent (h : kernelFind entry = none) (kernel : Nat) (memory : Memory) :
    kernelSlotPatch kernel memory (kernelSlotOf entry) = .ok memory := if_pos h

/-- A pattern that is there and was not accepted is searched for without end. -/
theorem kernelSlotPatch_rejected (h : ¬Accepted (kernelFind entry) (kernelReplace entry)) (hfind : kernelFind entry ≠ none)
    (kernel : Nat) (memory : Memory) : kernelSlotPatch kernel memory (kernelSlotOf entry) = .error .endless := by
  have hdata : ¬(kernelSlotOf entry).data = none := hfind
  have hlen : (kernelSlotOf entry).dataLen = 0 := acceptedLen_of_not h
  unfold kernelSlotPatch
  rw [if_neg hdata, hlen]
  exact applyPatch_empty _ _ _ _

/-- Every entry that has a pattern is accepted, and all of them have a slot. -/
structure KernelFit (list : List Node) : Prop where
  count : list.length ≤ 100
  accepted : ∀ entry ∈ list, kernelFind entry ≠ none → Accepted (kernelFind entry) (kernelReplace entry)

theorem acceptedKernel_cons : acceptedKernel (entry :: list) =
    if Accepted (kernelFind entry) (kernelReplace entry) then
      ((kernelFind entry).getD [], (kernelReplace entry).getD []) :: acceptedKernel list
    else acceptedKernel list := by
  unfold acceptedKernel
  rw [List.filterMap_cons]
  split_ifs <;> rfl

theorem kernel_fold (h : ∀ entry ∈ list, kernelFind entry ≠ none → Accepted (kernelFind entry) (kernelReplace entry))
    (kernel : Nat) (memory : Memory) :
    list.foldlM (fun memory entry => kernelSlotPatch kernel memory (kernelSlotOf entry)) memory =
      ended ((acceptedKernel list).foldlM (replacePattern kernel) memory) := by
  induction list generalizing memory with
  | nil => rfl
  | cons entry list ih =>
      have hrest := ih fun e he => h e (List.mem_cons_of_mem entry he)
      rw [List.foldlM_cons, acceptedKernel_cons]
      by_cases haccepted : Accepted (kernelFind entry) (kernelReplace entry)
      · rw [if_pos haccepted, List.foldlM_cons, ended_bind, kernelSlotPatch_accepted haccepted]
        exact bind_congr hrest
      · have habsent : kernelFind entry = none := by
          by_contra hfind
          exact haccepted (h entry List.mem_cons_self hfind)
        rw [if_neg haccepted, kernelSlotPatch_absent habsent]
        exact hrest memory

theorem mem_acceptedKernel {pattern : Bytes × Bytes} (h : pattern ∈ acceptedKernel list) :
    pattern.1.length = pattern.2.length ∧ 1 ≤ pattern.1.length := by
  obtain ⟨entry, -, hentry⟩ := List.mem_filterMap.1 h
  split_ifs at hentry with haccepted
  cases hentry
  exact haccepted

/-- Patterns of the same length that are not empty are replaced in the end. -/
theorem replacePatterns_some {patterns : List (Bytes × Bytes)}
    (h : ∀ pattern ∈ patterns, pattern.1.length = pattern.2.length ∧ 1 ≤ pattern.1.length) (kernel : Nat) (memory : Memory) :
    ∃ after, patterns.foldlM (replacePattern kernel) memory = some after := by
  induction patterns generalizing memory with
  | nil => exact ⟨memory, rfl⟩
  | cons pattern patterns ih =>
      obtain ⟨hsame, hpos⟩ := h pattern List.mem_cons_self
      obtain ⟨run, hrun, -⟩ := searchAndReplace_frame hpos hsame.symm kernel kernelMaxSize (-1) memory
      obtain ⟨after, hafter⟩ := ih (fun p hp => h p (List.mem_cons_of_mem pattern hp)) run.1
      refine ⟨after, ?_⟩
      rw [List.foldlM_cons, replacePattern, hrun]
      exact hafter

/-- On every kernel, `AnyKernelPatch` ends and has replaced the patterns of the accepted entries and nothing else. -/
def KernelGood (gConfigPlist : Option Node) (t : SettingsData) : Prop :=
  ∀ kernel memory, ∃ after, anyKernelPatch t kernel memory = .ok after ∧
    (acceptedKernel (entries gConfigPlist (ascii "KernelPatches"))).foldlM (replacePattern kernel) memory = some after

theorem anyKernelPatch_eq {gConfigPlist : Option Node} {t : SettingsData} (ht : Loaded gConfigPlist t) (kernel : Nat)
    (memory : Memory) :
    anyKernelPatch t kernel memory =
      if (entries gConfigPlist (ascii "KernelPatches")).length ≤ 100 then
        (entries gConfigPlist (ascii "KernelPatches")).foldlM
          (fun memory entry => kernelSlotPatch kernel memory (kernelSlotOf entry)) memory
      else .error .unfilled := by
  unfold anyKernelPatch
  rw [ht.nrKernel]
  exact @foldlM_slots _ _ _ _ _ (kernelSlotPatch kernel) ht.kernel memory

theorem kernelGood_iff {gConfigPlist : Option Node} {t : SettingsData} (ht : Loaded gConfigPlist t) :
    KernelGood gConfigPlist t ↔ KernelFit (entries gConfigPlist (ascii "KernelPatches")) := by
  constructor
  · intro hgood
    obtain ⟨after, hrun, -⟩ := hgood 0 fun _ => 0
    rw [anyKernelPatch_eq ht] at hrun
    by_cases hcount : (entries gConfigPlist (ascii "KernelPatches")).length ≤ 100
    · rw [if_pos hcount] at hrun
      refine ⟨hcount, ?_⟩
      intro entry hentry hfind
      by_contra hrejected
      obtain ⟨e, he⟩ := foldlM_error (g := fun memory entry => kernelSlotPatch 0 memory (kernelSlotOf entry)) hentry
        (fun memory => ⟨_, kernelSlotPatch_rejected hrejected hfind 0 memory⟩) fun _ => 0
      rw [he] at hrun
      cases hrun
    · rw [if_neg hcount] at hrun
      cases hrun
  · rintro ⟨hcount, haccepted⟩ kernel memory
    obtain ⟨after, hafter⟩ := replacePatterns_some (fun _ h => mem_acceptedKernel h) kernel memory
    refine ⟨after, ?_, hafter⟩
    rw [anyKernelPatch_eq ht, if_pos hcount, kernel_fold haccepted, hafter]
    rfl

/-! ### The kexts -/

/-- The pool starts with the pattern. -/
theorem patternPool_of_pattern {infoPlistPatch : Bool} {dict : Option Node} {key bytes : Bytes}
    (h : pattern infoPlistPatch dict key = some bytes) :
    ∃ pool, patternPool infoPlistPatch dict key = some pool ∧ pool.take bytes.length = bytes := by
  unfold pattern at h
  unfold patternPool
  cases infoPlistPatch
  · exact ⟨bytes, h, List.take_length⟩
  · rw [if_pos rfl] at h
    obtain ⟨text, htext, hbytes⟩ := Option.map_eq_some_iff.1 h
    refine ⟨text, htext, ?_⟩
    rw [← hbytes]
    exact (List.prefix_iff_eq_take.1 (List.takeWhile_prefix _)).symm

theorem map_getD_range (bytes : Bytes) : ((List.range bytes.length).map fun j => bytes.getD j 0) = bytes := by
  apply List.ext_getElem
  · rw [List.length_map, List.length_range]
  · intro j _ hj
    rw [List.getElem_map, List.getElem_range, List.getD_eq_getElem?_getD, List.getElem?_eq_getElem hj, Option.getD_some]

theorem kextPatchOf_patterns (h : Accepted (kextFind entry) (kextReplace entry)) :
    (kextPatchOf entry).find = (kextFind entry).getD [] ∧ (kextPatchOf entry).replace = (kextReplace entry).getD [] := by
  constructor
  · exact map_getD_range _
  · have hlen : (kextPatchOf entry).replace =
        (List.range ((kextReplace entry).getD []).length).map fun j => ((kextReplace entry).getD []).getD j 0 := by
      unfold Kext.KextPatch.replace kextPatchOf
      dsimp only
      rw [h.1]
    rw [hlen, map_getD_range]

/-- With both patterns of the entry, a patch is the replacement of one by the other. -/
theorem applyPatch_slot (h : Accepted (kextFind entry) (kextReplace entry)) (source size : Nat) (memory : Memory) :
    applyPatch source size (kextSlotOf entry).dataLen (kextSlotOf entry).data (kextSlotOf entry).patch memory =
      ended ((searchAndReplace memory source size (kextPatchOf entry).find (kextPatchOf entry).replace (-1)).map Prod.fst) := by
  obtain ⟨hfind, hreplace⟩ := h.some
  obtain ⟨pool, hpool, htake⟩ := patternPool_of_pattern hfind
  obtain ⟨pool', hpool', htake'⟩ := patternPool_of_pattern hreplace
  obtain ⟨hpatch, hpatch'⟩ := kextPatchOf_patterns h
  have hlen : (kextSlotOf entry).dataLen = ((kextFind entry).getD []).length := acceptedLen_of_accepted h
  have hdata : (kextSlotOf entry).data = some pool := hpool
  have hdata' : (kextSlotOf entry).patch = some pool' := hpool'
  rw [hdata, hdata', applyPatch_patterns, hlen, htake, h.1, htake', hpatch, hpatch']

variable (bundleIdentifier idLength driver driverSize infoPlist infoPlistSize : Nat)

theorem anyKextPatch_slot (h : Accepted (kextFind entry) (kextReplace entry)) (memory : Memory) :
    anyKextPatch driver driverSize infoPlist infoPlistSize (kextSlotOf entry) memory =
      ended (Kext.anyKextPatch driver driverSize infoPlist infoPlistSize (kextPatchOf entry) memory) := by
  have hflag : (kextSlotOf entry).infoPlistPatch = (kextPatchOf entry).infoPlistPatch := rfl
  unfold anyKextPatch Kext.anyKextPatch
  rw [hflag]
  split_ifs with hplist hnone hnone
  · rfl
  · exact applyPatch_slot h infoPlist infoPlistSize memory
  · rfl
  · exact applyPatch_slot h driver driverSize memory

theorem kextSlotPatch_rejected (h : ¬Accepted (kextFind entry) (kextReplace entry)) (memory : Memory) :
    kextSlotPatch bundleIdentifier idLength driver driverSize infoPlist infoPlistSize memory (kextSlotOf entry) =
      .ok memory := by
  have hlen : (kextSlotOf entry).dataLen = 0 := acceptedLen_of_not h
  unfold kextSlotPatch
  rw [hlen, if_pos Nat.one_pos]

theorem accepted_dataLen (h : Accepted (kextFind entry) (kextReplace entry)) :
    (kextSlotOf entry).dataLen = (kextPatchOf entry).dataLen ∧ ¬(kextPatchOf entry).dataLen < 1 := by
  have hpos := h.2
  exact ⟨acceptedLen_of_accepted h, Nat.not_lt.2 hpos⟩

theorem kextSlotPatch_nameless (h : Accepted (kextFind entry) (kextReplace entry)) (hname : kextName entry = none)
    (memory : Memory) :
    kextSlotPatch bundleIdentifier idLength driver driverSize infoPlist infoPlistSize memory (kextSlotOf entry) =
      .error .nullName := by
  obtain ⟨hlen, hpos⟩ := accepted_dataLen h
  have hslot : (kextSlotOf entry).name = none := hname
  unfold kextSlotPatch
  rw [hlen, if_neg hpos, hslot]

theorem kextSlotPatch_named (h : Accepted (kextFind entry) (kextReplace entry)) (hname : kextName entry ≠ none)
    (memory : Memory) :
    kextSlotPatch bundleIdentifier idLength driver driverSize infoPlist infoPlistSize memory (kextSlotOf entry) =
      ended (patchSlot bundleIdentifier idLength driver driverSize infoPlist infoPlistSize memory (kextPatchOf entry)) := by
  obtain ⟨hlen, hpos⟩ := accepted_dataLen h
  obtain ⟨name, hsome⟩ := Option.ne_none_iff_exists'.1 hname
  have hslot : (kextSlotOf entry).name = some name := hsome
  have hpatch : (kextPatchOf entry).name = some (cstr name) := congrArg (Option.map cstr) hsome
  unfold kextSlotPatch patchSlot
  rw [hlen, if_neg hpos, if_neg hpos, hslot, hpatch, Option.getD_some]
  cases hfound : searchMemory memory bundleIdentifier idLength (cstr name) with
  | none =>
      dsimp only
      rw [hfound]
      rfl
  | some place =>
      dsimp only
      rw [hfound]
      exact anyKextPatch_slot driver driverSize infoPlist infoPlistSize h memory

/-- Every accepted entry has a name, and all of them have a slot. -/
structure KextFit (list : List Node) : Prop where
  count : list.length ≤ 100
  named : ∀ entry ∈ list, Accepted (kextFind entry) (kextReplace entry) → kextName entry ≠ none

theorem acceptedKexts_cons : acceptedKexts (entry :: list) =
    if Accepted (kextFind entry) (kextReplace entry) then kextPatchOf entry :: acceptedKexts list
    else acceptedKexts list := by
  unfold acceptedKexts
  rw [List.filterMap_cons]
  split_ifs <;> rfl

theorem kext_fold (h : ∀ entry ∈ list, Accepted (kextFind entry) (kextReplace entry) → kextName entry ≠ none)
    (memory : Memory) :
    list.foldlM (fun memory entry =>
      kextSlotPatch bundleIdentifier idLength driver driverSize infoPlist infoPlistSize memory (kextSlotOf entry)) memory =
      ended ((acceptedKexts list).foldlM
        (patchSlot bundleIdentifier idLength driver driverSize infoPlist infoPlistSize) memory) := by
  induction list generalizing memory with
  | nil => rfl
  | cons entry list ih =>
      have hrest := ih fun e he => h e (List.mem_cons_of_mem entry he)
      rw [List.foldlM_cons, acceptedKexts_cons]
      by_cases haccepted : Accepted (kextFind entry) (kextReplace entry)
      · have hname := h entry List.mem_cons_self haccepted
        rw [if_pos haccepted, List.foldlM_cons, ended_bind, kextSlotPatch_named _ _ _ _ _ _ haccepted hname]
        exact bind_congr hrest
      · rw [if_neg haccepted, kextSlotPatch_rejected _ _ _ _ _ _ haccepted]
        exact hrest memory

/-- On every kext whose `Info.plist` is terminated, `PatchKext` ends and has done what it does for the patches of the
accepted entries. -/
def KextGood (gConfigPlist : Option Node) (t : SettingsData) : Prop :=
  ∀ bundleIdentifier driver driverSize infoPlist infoPlistSize memory, infoPlistSize < 2 ^ 32 →
    memory (infoPlist + infoPlistSize) = 0 →
    ∃ after, patchKext t bundleIdentifier driver driverSize infoPlist infoPlistSize memory = .ok after ∧
      ∀ kernelSlide kernelRelocBase,
        Kext.patchKext ⟨bundleIdentifier, acceptedKexts (entries gConfigPlist (ascii "KextPatches")), kernelSlide, kernelRelocBase⟩
          driver driverSize infoPlist infoPlistSize memory = some after

/-- The loop of `PatchKext`, over the entries the slots were filled from. -/
def patchEntries (list : List Node) (extracted : Memory × Nat) : Except PatchFault Memory :=
  if list.length ≤ 100 then
    list.foldlM (fun memory entry =>
      kextSlotPatch bundleIdentifier extracted.2 driver driverSize infoPlist infoPlistSize memory (kextSlotOf entry))
      extracted.1
  else .error .unfilled

theorem patchKext_eq {gConfigPlist : Option Node} {t : SettingsData} (ht : Loaded gConfigPlist t) {memory : Memory}
    {extracted : Memory × Nat}
    (hextract : extractKextBundleIdentifier bundleIdentifier infoPlist infoPlistSize memory = some extracted) :
    patchKext t bundleIdentifier driver driverSize infoPlist infoPlistSize memory =
      patchEntries bundleIdentifier driver driverSize infoPlist infoPlistSize
        (entries gConfigPlist (ascii "KextPatches")) extracted := by
  unfold patchKext
  rw [ht.nrKexts, hextract]
  exact @foldlM_slots _ _ _ _ _ (kextSlotPatch bundleIdentifier extracted.2 driver driverSize infoPlist infoPlistSize) ht.kext _

theorem kextGood_iff {gConfigPlist : Option Node} {t : SettingsData} (ht : Loaded gConfigPlist t) :
    KextGood gConfigPlist t ↔ KextFit (entries gConfigPlist (ascii "KextPatches")) := by
  constructor
  · intro hgood
    obtain ⟨after, hrun, -⟩ := hgood 0 0 0 0 0 (fun _ => 0) (by decide) rfl
    obtain ⟨extracted, length, hextract, -⟩ := @extractKextBundleIdentifier_frame (fun _ => 0) 0 0 0 0
      rfl (by decide) (by decide)
    rw [patchKext_eq 0 0 0 0 0 ht hextract] at hrun
    unfold patchEntries at hrun
    by_cases hcount : (entries gConfigPlist (ascii "KextPatches")).length ≤ 100
    · rw [if_pos hcount] at hrun
      refine ⟨hcount, ?_⟩
      intro entry hentry haccepted hname
      obtain ⟨e, he⟩ := foldlM_error
        (g := fun memory entry => kextSlotPatch 0 length 0 0 0 0 memory (kextSlotOf entry)) hentry
        (fun memory => ⟨_, kextSlotPatch_nameless 0 length 0 0 0 0 haccepted hname memory⟩) extracted
      dsimp only at hrun
      rw [he] at hrun
      cases hrun
    · rw [if_neg hcount] at hrun
      cases hrun
  · rintro ⟨hcount, hnamed⟩ bundleIdentifier driver driverSize infoPlist infoPlistSize memory hsize hend
    obtain ⟨extracted, length, hextract, -⟩ := extractKextBundleIdentifier_frame bundleIdentifier hend (Nat.le_refl _)
      (by omega)
    obtain ⟨after, hafter, -⟩ := patchSlots_frame bundleIdentifier length driver driverSize infoPlist infoPlistSize
      (acceptedKexts (entries gConfigPlist (ascii "KextPatches"))) extracted
    refine ⟨after, ?_, ?_⟩
    · rw [patchKext_eq _ _ _ _ _ ht hextract]
      unfold patchEntries
      rw [if_pos hcount]
      dsimp only
      rw [kext_fold bundleIdentifier length driver driverSize infoPlist infoPlistSize hnamed extracted, hafter]
      rfl
    · intro kernelSlide kernelRelocBase
      rw [Kext.patchKext, hextract]
      exact hafter

end Patches

/-! ### Loader and patchers -/

/-- With the patches a plist gives, both patchers come to their end on every image, reading filled slots and patterns
that are there, and they have applied the accepted entries and no others. -/
def PatchesGood (env : Env) (gConfigPlist : Option Node) (s : SettingsData) : Prop :=
  ∃ t, kernelAndKextPatches env gConfigPlist s = ⟨.ok (), t, []⟩ ∧ KernelGood gConfigPlist t ∧ KextGood gConfigPlist t

/-- A dict with one value for each key. -/
def dictOf (values : List (Bytes × Label)) (next : Forest Label) : Forest Label :=
  .cons .dict (values.foldr (fun value rest => .cons (.key value.1) (.cons value.2 .nil .nil) rest) .nil) next

def kernelEntry : List (Bytes × Label) := [(ascii "Find", .data [0x74, 0x1b]), (ascii "Replace", .string (ascii "EB1B"))]

def kextEntry : List (Bytes × Label) :=
  [(ascii "Name", .string (ascii "com.apple.iokit.IOAHCIFamily")), (ascii "Find", .data [1]), (ascii "Replace", .data [2])]

def patchesPlist (kernel kext : Forest Label) : Node :=
  ⟨.dict, .cons (.key (ascii "KernelPatches")) (.cons .array kernel .nil)
    (.cons (.key (ascii "KextPatches")) (.cons .array kext .nil) .nil)⟩

theorem zeroSettings_unloaded : Unloaded zeroSettings := ⟨rfl, rfl, rfl, rfl⟩

/-- An entry without a replacement, behind one that is accepted. -/
def missingReplacement : Node :=
  patchesPlist (dictOf kernelEntry (dictOf [(ascii "Find", .data [5])] .nil)) .nil

end BareBoot.Config
