import BareBoot.PlistRun

/-! A call of `plXmlToNode` ends and keeps its tags in order: every tag list is finite, acyclic and
unshared, no tag is freed twice, and none is on the free list and in a live list. One branch breaks
this: `<plist>` reports success and leaves the caller's tag as it was, which the caller then links, or
frees, once more. Runs without such a step, and without a step that leaves the behaviour C defines, are
sound throughout. -/

namespace BareBoot.Plist

open Exec

/-- A run whose events are all granted is not stopped, and all of them are sound. -/
theorem runs_sound_of_granted {α : Type} {blame : Prop} {x : ParserM α} {s : Parser} {Q : α → Parser → Prop}
    (h : Runs blame x s Q) (hgranted : ∀ e ∈ (x s).events, e.Granted) :
    (∃ a, (x s).result = .ok a) ∧ ∀ e ∈ (x s).events, e.Sound := by
  rcases h with ⟨hevents, hresult⟩ | ⟨⟨e, he, hnot⟩, -⟩
  · refine ⟨?_, fun e he => (hevents e he).2⟩
    rcases hx : (x s).result with e | a
    · rw [hx] at hresult
      exact hresult.elim
    · exact ⟨a, rfl⟩
  · exact absurd (hgranted e he) hnot

/-- A call for the longest text there can be returns at once: the size of the copy is zero. -/
theorem plXmlToNode_longest_spec {env : Env} {dat : Nat → UInt8} {len : Nat} (hlen : addU32 len 1 = 0)
    {s : Parser} (hs : s.Idle) : Runs True (plXmlToNode env dat len) s fun r _ => r = none := by
  have hparse : plistXmlParseCopy env (copyOf dat len) (addU32 len 1) s = ⟨.ok none, s, []⟩ := by
    rw [plistXmlParseCopy, if_pos hlen]
    rfl
  refine Under.bind_eq hparse ?_
  refine Under.bind (plistXmlCleanup_spec hs.live hs.describes) ?_
  intro _ t _
  exact Under.pure rfl

/-- An image that holds a text, and zeros behind it. -/
def imageOf (text : Bytes) (i : Nat) : UInt8 := text.getD i 0

theorem imageOf_length (text : Bytes) : imageOf text text.length = 0 := by
  rw [imageOf, List.getD_eq_getElem?_getD, List.getElem?_eq_none (Nat.le_refl _), Option.getD_none]

/-- Every allocation succeeds, and the memory behind symbols is zero. -/
def plentyEnv : Env := ⟨fun _ => true, fun _ => true, fun _ _ => some 0, some 0⟩

def smallPlist : Bytes := ascii "<plist><dict><key>a</key><array><true/><data>TQ==</data></array></dict></plist>"

def plistInDict : Bytes := ascii "<dict><true/><plist></dict>"

/-- The tag of `<true/>` becomes its own next sibling. -/
theorem plistInDict_selfLink :
    ∃ store a tag, store.tagAt a = some tag ∧ tag.tagNext = some a ∧
      .stored store ∈ (plXmlToNode plentyEnv (imageOf plistInDict) plistInDict.length initialParser).events := by
  refine ⟨⟨[some ⟨⟨.true, none, none, 0, 0, 13⟩, none, some 0⟩], none⟩, 0, _, rfl, rfl, ?_⟩
  decide +kernel

end BareBoot.Plist
