import BareBoot.PlistElement

/-! The recursive parser simulates the pushdown machine. A call that is not to blame for an event leaves
the lists under construction as they were and adds the list of the element it read; what it read is what
the machine delivers to the waiting call. The induction is on the fuel, which the length of the text
bounds. -/

namespace BareBoot.Plist

open Exec

section Simulation
variable (env : Env) (n : Nat)

/-- The machine runs to the end of the tokens with some call still waiting. -/
def Machine.Waiting (m : Machine) : Prop := ∃ stack, m = .running stack

/-- What a call that waits for an element, with this out-parameter, may expect of the machine. -/
def Expects (u : Bytes) (tag : Option Nat) (m : Stack → Machine → Prop) : Prop :=
  env.Ample → ∀ stack : Stack, stack.held = tag.isSome →
    m stack ((Machine.running stack).run (tokens env n u))

/-- The result of `PListXMLParseNextTag` at `u`, the rest of the text behind `pre`. -/
def NextDone (pre u : Bytes) (tag : Option Nat) (live : List (Cells TagBody)) :
    Option (Option Nat × Nat) → Parser → Prop
  | none, t => (∃ v, Reads n t pre v) ∧ (∃ free, Describes t.toTagStore [] live free) ∧
      Expects env n u tag fun _ m => m.Waiting
  | some (none, length), t => ∃ v, Reads n t pre v ∧ 0 < length ∧ length ≤ v.length ∧
      (∃ free, Describes t.toTagStore [] live free) ∧
      Expects env n u tag fun stack m => m = (deliver none stack).run (tokens env n (v.drop length))
  | some (some a, length), t => ∃ v, Reads n t pre v ∧ 0 < length ∧ length ≤ v.length ∧
      ∃ b sub free, Describes t.toTagStore [] (.cons (a, b) sub .nil :: live) free ∧
        (env.Ample → ∃ label kids, Shows (.cons (a, b) sub .nil) (.cons label kids .nil) ∧
          Expects env n u tag fun stack m =>
            m = (deliver (some (label, kids)) stack).run (tokens env n (v.drop length)))

/-- `next` meets its specification on every text shorter than a bound. -/
def NextSpec (bound : Nat) (next : Nat → Option Nat → ParserM (Option (Option Nat × Nat))) : Prop :=
  ∀ s pre u tag live free, u.length < bound → Reads n s pre u → Describes s.toTagStore [] live free →
    Runs (Expects env n u tag fun _ m => m = .stuck) (next pre.length tag) s
      (NextDone env n pre u tag live)

variable {env n}

/-- The length of what a list or a key takes is added up without overflow. -/
theorem addU32_eq {a b : Nat} (hn : n < 2 ^ 32) (h : a + b ≤ n) : addU32 a b = a + b :=
  Nat.mod_eq_of_lt (by omega)

/-! ### Lists -/

/-- The result of the loop over a list, of which `kids` was read before. -/
def TagsDone (env : Env) (n : Nat) (pre u : Bytes) (kids : Forest Label) (live : List (Cells TagBody)) :
    Option (Option Nat × Nat) → Parser → Prop
  | none, t => (∃ v, Reads n t pre v) ∧ (∃ free, Describes t.toTagStore [] live free) ∧
      (env.Ample → ∀ label stack, ((Machine.running (.list label kids stack)).run (tokens env n u)).Waiting)
  | some (tagList, pos), t => ∃ v, Reads n t pre v ∧ pos ≤ v.length ∧
      ∃ f free, tagList = Cells.head f ∧ Describes t.toTagStore [] (f :: live) free ∧
        (env.Ample → ∃ kids', Shows f kids' ∧ ∀ label stack,
          (Machine.running (.list label kids stack)).run (tokens env n u) =
            (deliver (some (label, kids')) stack).run (tokens env n (v.drop pos)))

theorem Cells.last_isSome (f : Cells TagBody) : (Cells.last f).isSome = true ↔ f ≠ .nil := by
  induction f with
  | nil => simp [Cells.last]
  | cons c sub next _ ih =>
      cases next with
      | nil => simp [Cells.last]
      | cons c' s' n' => simpa [Cells.last] using ih

theorem parseTags_spec {next : Nat → Option Nat → ParserM (Option (Option Nat × Nat))} {bound : Nat}
    (hnext : NextSpec env n bound next) (hn : n < 2 ^ 32) (count : Nat) {s : Parser} {pre passed u : Bytes}
    {f : Cells TagBody} {kids : Forest Label} {live : List (Cells TagBody)} {free : Cells TagBody}
    (hcount : u.length < count) (hbound : u.length < bound) (hr : Reads n s pre (passed ++ u))
    (hd : Describes s.toTagStore [] (f :: live) free) (hshows : env.Ample → Shows f kids) :
    Runs (env.Ample → ∀ label stack,
        (Machine.running (.list label kids stack)).run (tokens env n u) = .stuck)
      (parseTags next pre.length count passed.length (Cells.head f) (Cells.last f)) s
      (TagsDone env n pre u kids live) := by
  induction count generalizing s passed u f kids free with
  | zero => omega
  | succ count ih =>
      have hheld : env.Ample → ∀ label stack,
          (Stack.list label kids stack).held = (Cells.last f).isSome := by
        intro hample label stack
        have h1 := Cells.last_isSome f
        have h2 := (hshows hample).eq_nil_iff
        by_cases hf : f = .nil
        · simp [Stack.held, hf, h2.1 hf, Cells.last]
        · have hk : kids ≠ .nil := fun h => hf (h2.2 h)
          simp [Stack.held, h1.2 hf, hk]
      have hplace : pre.length + passed.length = (pre ++ passed).length := by rw [List.length_append]
      have hcall := hnext s (pre ++ passed) u (Cells.last f) (f :: live) free hbound hr.shift hd
      rw [parseTags, hplace]
      refine Under.bind (hcall.mono ?_ fun _ _ h => h) ?_
      · exact fun hb hample label stack => hb hample _ (hheld hample label stack)
      · rintro (_ | ⟨_ | a, length⟩) t hdone
        · -- The text ends within the list: what was read is freed.
          obtain ⟨⟨v, hv⟩, ⟨free', hd'⟩, hwait⟩ := hdone
          refine Under.bind (plistXmlFreeTag_spec hv.live hd') ?_
          rintro _ t' ⟨hkept, free'', hd''⟩
          refine Under.pure ⟨⟨_, (hv.kept hkept).unshift⟩, ⟨free'', hd''⟩, ?_⟩
          exact fun hample label stack => hwait hample _ (hheld hample label stack)
        · -- Markup that is no element ends the list.
          obtain ⟨v, hv, hpos, hle, ⟨free', hd'⟩, hrun⟩ := hdone
          have hsize := hv.size
          rw [List.length_append] at hsize
          have hadd := addU32_eq (a := passed.length) (b := length) hn (by omega)
          refine Under.pure ⟨passed ++ v, hv.unshift, ?_, f, free', rfl, hd', ?_⟩
          · rw [hadd, List.length_append]
            omega
          · intro hample
            refine ⟨kids, hshows hample, ?_⟩
            intro label stack
            rw [hadd, List.drop_length_add_append]
            exact hrun hample _ (hheld hample label stack)
        · -- One more element: it is linked behind the last one.
          obtain ⟨v, hv, hpos, hle, b, sub, free', hd', hrun⟩ := hdone
          have hsize := hv.size
          rw [List.length_append] at hsize
          have hadd := addU32_eq (a := passed.length) (b := length) hn (by omega)
          have hlen : passed.length + length = (passed ++ v.take length).length := by
            rw [List.length_append, List.length_take]
            omega
          have hsplit : passed ++ v = (passed ++ v.take length) ++ v.drop length := by
            rw [List.append_assoc, List.take_append_drop]
          have hulen : v.length = u.length := by
            have := hr.size
            rw [List.length_append] at this
            omega
          have hdrop : (v.drop length).length < u.length := by
            rw [List.length_drop]
            omega
          have hcell := hd'.partition.linked (.cons (a, b) sub .nil) (by simp)
          have htag := TagStore.tagAt_of_cellAt hcell.1
          -- Both ways of linking leave the list `f` with the new element behind it.
          have hrest : ∀ t', Kept t t' → (∃ free, Describes t'.toTagStore [] ((f ++ .cons (a, b) sub .nil) :: live) free) →
              Runs (env.Ample → ∀ label stack,
                  (Machine.running (.list label kids stack)).run (tokens env n u) = .stuck)
                (parseTags next pre.length count (passed.length + length)
                  (Cells.head (f ++ .cons (a, b) sub .nil)) (some a)) t' (TagsDone env n pre u kids live) := by
            rintro t' hkept ⟨free'', hd''⟩
            have hr' : Reads n t' pre ((passed ++ v.take length) ++ v.drop length) := by
              rw [← hsplit]
              exact (hv.kept hkept).unshift
            by_cases hample : env.Ample
            · obtain ⟨label', kids', hshow, hexp⟩ := hrun hample
              have hkids : env.Ample → Shows (f ++ .cons (a, b) sub .nil) (kids ++ .cons label' kids' .nil) :=
                fun _ => (hshows hample).append hshow
              have hstep : ∀ label stack, (Machine.running (.list label kids stack)).run (tokens env n u) =
                  (Machine.running (.list label (kids ++ .cons label' kids' .nil) stack)).run
                    (tokens env n (v.drop length)) :=
                fun label stack => hexp hample _ (hheld hample label stack)
              have hnew := ih (by omega) (by omega) hr' hd'' hkids
              rw [Cells.last_append_cons, ← hlen] at hnew
              refine hnew.mono ?_ ?_
              · intro hb hample' label stack
                rw [hstep]
                exact hb hample' label stack
              · rintro (_ | ⟨tagList, pos⟩) t'' hdone
                · obtain ⟨h1, h2, h3⟩ := hdone
                  refine ⟨h1, h2, fun hample' label stack => ?_⟩
                  rw [hstep]
                  exact h3 hample' label stack
                · obtain ⟨w, hw, hposw, g, free₃, hhead, hd₃, h3⟩ := hdone
                  refine ⟨w, hw, hposw, g, free₃, hhead, hd₃, fun hample' => ?_⟩
                  obtain ⟨kids'', hshow'', h4⟩ := h3 hample'
                  refine ⟨kids'', hshow'', fun label stack => ?_⟩
                  rw [hstep]
                  exact h4 label stack
            · have hnone : env.Ample → Shows (f ++ .cons (a, b) sub .nil) .nil := fun h => absurd h hample
              have hnew := ih (by omega) (by omega) hr' hd'' hnone
              rw [Cells.last_append_cons, ← hlen] at hnew
              refine hnew.mono (fun _ h => absurd h hample) ?_
              rintro (_ | ⟨tagList, pos⟩) t'' hdone
              · exact ⟨hdone.1, hdone.2.1, fun h => absurd h hample⟩
              · obtain ⟨w, hw, hposw, g, free₃, hhead, hd₃, -⟩ := hdone
                exact ⟨w, hw, hposw, g, free₃, hhead, hd₃, fun h => absurd h hample⟩
          refine Under.bind (linkTag_same_spec hd' htag rfl) ?_
          rintro _ t' ⟨hkept, hd''⟩
          rw [hadd]
          rcases hlast : Cells.last f with _ | l
          · have hf : f = .nil := by
              by_contra hne
              have := (Cells.last_isSome f).2 hne
              rw [hlast] at this
              cases this
            subst hf
            refine hrest t' hkept ⟨free', ?_⟩
            exact Describes.cons_nil.1 (hd''.perm (List.Perm.swap _ _ _))
          · have hswap : Describes t'.toTagStore [] (f :: .cons (a, b) sub .nil :: live) free' :=
              hd''.perm (List.Perm.swap _ _ _)
            have hhead : Cells.head f = Cells.head (f ++ .cons (a, b) sub .nil) := by
              cases f with
              | nil => cases hlast
              | cons c s' n' => rfl
            rw [hhead]
            refine Under.bind (linkTag_spec hswap hlast) ?_
            rintro _ t'' ⟨hkept', hd₃⟩
            exact hrest t'' (hkept.trans hkept') ⟨free', hd₃⟩

/-! ### Elements behind their start tag -/

/-- The result of an element whose text starts behind `pre`; `outcome` is what the machine makes of the
element and all that follows, for the call that waits for it. -/
def ElementDone (env : Env) (n : Nat) (pre : Bytes) (outcome : Stack → Machine) (live : List (Cells TagBody)) :
    Option (Nat × Nat) → Parser → Prop
  | none, t => (∃ v, Reads n t pre v) ∧ (∃ free, Describes t.toTagStore [] live free) ∧
      (env.Ample → ∀ stack, (outcome stack).Waiting)
  | some (a, length), t => ∃ v, Reads n t pre v ∧ length ≤ v.length ∧
      ∃ b sub free, Describes t.toTagStore [] (.cons (a, b) sub .nil :: live) free ∧
        (env.Ample → ∃ label kids, Shows (.cons (a, b) sub .nil) (.cons label kids .nil) ∧
          ∀ stack, outcome stack = (deliver (some (label, kids)) stack).run (tokens env n (v.drop length)))

variable {outcome : Stack → Machine} {s : Parser} {pre u : Bytes} {live : List (Cells TagBody)}
  {free : Cells TagBody}

/-- A tag is taken for a container and filled in over the list read for it. -/
theorem fillList_spec {blame : Prop} {f : Cells TagBody} {fill : Tag → Tag} {pos : Nat} (hr : Reads n s pre u)
    (hpos : pos ≤ u.length) (hd : Describes s.toTagStore [] (f :: live) free)
    (hsub : ∀ tag, (fill tag).tag = Cells.head f) (hnext : ∀ tag, (fill tag).tagNext = none)
    (hsane : ∀ tag, (fill tag).toTagBody.Sane)
    (hshows : env.Ample → ∃ label kids, (∀ tag, (fill tag).Shows label) ∧ Shows f kids ∧
      ∀ stack, outcome stack = (deliver (some (label, kids)) stack).run (tokens env n (u.drop pos))) :
    Runs blame (do
      match ← plistXmlNewTag env with
      | none =>
          plistXmlFreeTag (Cells.head f)
          pure none
      | some tmpTag =>
          fillTag tmpTag fill
          pure (some (tmpTag, pos))) s (ElementDone env n pre outcome live) := by
  refine Under.bind (plistXmlNewTag_spec hd) ?_
  rintro (_ | a) t ⟨hkept, hnew⟩
  · obtain ⟨hample, hstore⟩ := hnew
    rw [← hstore] at hd
    refine Under.bind (plistXmlFreeTag_spec (hr.kept hkept).live hd) ?_
    rintro _ t' ⟨hkept', free', hd'⟩
    exact Under.pure ⟨⟨_, (hr.kept hkept).kept hkept'⟩, ⟨free', hd'⟩, fun h => absurd h hample⟩
  · obtain ⟨tag, free', hat, -, -, -, -, hdesc⟩ := hnew
    refine Under.bind (fillTag_spec hdesc hat (hsub tag) (hnext tag) (hsane tag)) ?_
    rintro _ t' ⟨hkept', hdesc'⟩
    refine Under.pure ⟨u, (hr.kept hkept).kept hkept', hpos, _, f, free', hdesc', fun hample => ?_⟩
    obtain ⟨label, kids, hlabel, hkids, hout⟩ := hshows hample
    exact ⟨label, kids, ⟨hlabel tag, hkids, trivial⟩, hout⟩

theorem plistXmlParseTagList_spec {next : Nat → Option Nat → ParserM (Option (Option Nat × Nat))}
    {bound fuel : Nat} {type : TagType} {label : Label} (hnext : NextSpec env n bound next) (hn : n < 2 ^ 32)
    (hfuel : u.length < fuel) (hbound : u.length < bound)
    (hlabel : ∀ b : TagBody, b.type = type → b.Shows label)
    (hout : ∀ stack, outcome stack = (Machine.running (.list label .nil stack)).run (tokens env n u))
    (hr : Reads n s pre u) (hd : Describes s.toTagStore [] live free) :
    Runs (env.Ample → ∀ stack, outcome stack = .stuck) (plistXmlParseTagList env next fuel pre.length type false)
      s (ElementDone env n pre outcome live) := by
  have hd' : Describes s.toTagStore [] (.nil :: live) free := Describes.cons_nil.2 hd
  have hr' : Reads n s pre ([] ++ u) := hr
  have hshows : env.Ample → Shows .nil .nil := fun _ => trivial
  have hloop := parseTags_spec hnext hn fuel hfuel hbound hr' hd' hshows
  refine Under.bind (hloop.mono ?_ fun _ _ h => h) ?_
  · intro hb hample stack
    rw [hout]
    exact hb hample label stack
  · rintro (_ | ⟨tagList, pos⟩) t hdone
    · obtain ⟨h1, h2, h3⟩ := hdone
      refine Under.pure ⟨h1, h2, fun hample stack => ?_⟩
      rw [hout]
      exact h3 hample label stack
    · obtain ⟨v, hv, hpos, f, free', rfl, hdesc, h3⟩ := hdone
      refine fillList_spec hv hpos hdesc (fun _ => rfl) (fun _ => rfl) (fun _ => (hlabel _ rfl).sane (by simp))
        fun hample => ?_
      obtain ⟨kids, hkids, h4⟩ := h3 hample
      refine ⟨label, kids, fun tag => hlabel _ rfl, hkids, fun stack => ?_⟩
      rw [hout]
      exact h4 label stack

/-- A container without an end tag of its own has no elements. -/
theorem plistXmlParseTagList_empty_spec {next : Nat → Option Nat → ParserM (Option (Option Nat × Nat))}
    {fuel : Nat} {type : TagType} {label : Label} {blame : Prop}
    (hlabel : ∀ b : TagBody, b.type = type → b.Shows label)
    (hout : ∀ stack, outcome stack = (deliver (some (label, .nil)) stack).run (tokens env n u))
    (hr : Reads n s pre u) (hd : Describes s.toTagStore [] live free) :
    Runs blame (plistXmlParseTagList env next fuel pre.length type true) s
      (ElementDone env n pre outcome live) := by
  have hd' : Describes s.toTagStore [] (.nil :: live) free := Describes.cons_nil.2 hd
  let fill : Tag → Tag := fun tag => { tag with
    type := type, string := none, dataLen := 0, offset := offsetOf pre.length, tag := none, tagNext := none }
  have hsub : ∀ tag, (fill tag).tag = Cells.head (.nil : Cells TagBody) := fun _ => rfl
  have hfill : Runs blame _ s (ElementDone env n pre outcome live) :=
    fillList_spec hr (Nat.zero_le _) hd' hsub (fun _ => rfl) (fun _ => (hlabel _ rfl).sane (by simp [fill]))
      fun _ => ⟨label, .nil, fun _ => hlabel _ rfl, trivial, hout⟩
  exact Under.bind_eq (pure_apply _ s) hfill

/-- A key takes the element that follows as its value; markup that is none leaves it without. -/
theorem plistXmlParseTagKey_spec {next : Nat → Option Nat → ParserM (Option (Option Nat × Nat))}
    {bound : Nat} (hnext : NextSpec env n bound next) (hn : n < 2 ^ 32) (hbound : u.length < bound)
    (hnone : matchEnd (ascii "key") u = none → ∀ stack, outcome stack = .running stack)
    (hsome : ∀ body rest, matchEnd (ascii "key") u = some (body, rest) → ∀ stack,
      outcome stack = (Machine.running (.key (cstr body) stack)).run (tokens env n rest))
    (hr : Reads n s pre u) (hd : Describes s.toTagStore [] live free) :
    Runs (env.Ample → ∀ stack, outcome stack = .stuck) (plistXmlParseTagKey env next pre.length) s
      (ElementDone env n pre outcome live) := by
  have hsize : s.configBuffer.length ≤ 2 ^ 32 := by
    rw [hr.length]
    omega
  rcases hm : matchEnd (ascii "key") u with _ | ⟨body, rest⟩
  · obtain ⟨v, hv, hfix⟩ := plistXmlFixDataMatchingTag_none hr.text hsize hm
    exact Under.bind_eq hfix (Under.pure ⟨⟨v, hr.withText hv⟩, ⟨free, hd⟩, fun _ stack => ⟨stack, hnone hm stack⟩⟩)
  · have hfix := plistXmlFixDataMatchingTag_some hr.text hsize hm
    have hlen := length_of_matchEnd hm
    set head : Bytes := body ++ 0 :: (47 :: ascii "key" ++ [0]) with hhead
    have hheadlen : head.length = body.length + (ascii "key").length + 3 := by
      rw [hhead]
      simp only [List.length_append, List.length_cons, List.length_nil]
      omega
    have hfixed : ∀ w, fixed (ascii "key") body w = head ++ w := by
      intro w
      rw [hhead]
      simp [fixed]
    have hr' : Reads n (s.withText (pre ++ (fixed (ascii "key") body rest ++ [0]))) pre (head ++ rest) := by
      rw [← hfixed]
      exact hr.withText (by rw [length_fixed, hlen])
    have hplace : pre.length + (body.length + (ascii "key").length + 3) = (pre ++ head).length := by
      rw [List.length_append, hheadlen]
    have hout := hsome body rest hm
    refine Under.bind_eq hfix ?_
    simp only
    rw [hplace]
    have hcall := hnext _ (pre ++ head) rest none live free (by omega) hr'.shift hd
    refine Under.bind (hcall.mono ?_ fun _ _ h => h) ?_
    · intro hb hample stack
      rw [hout]
      exact hb hample _ rfl
    · rintro (_ | ⟨subTag, length2⟩) t hdone
      · obtain ⟨⟨v, hv⟩, h2, h3⟩ := hdone
        refine Under.pure ⟨⟨_, hv.unshift⟩, h2, fun hample stack => ?_⟩
        rw [hout]
        exact h3 hample _ rfl
      · -- The value, or no value, as a list of at most one tag.
        have hvalue : ∃ v f free', subTag = Cells.head f ∧ Reads n t pre (head ++ v) ∧ length2 ≤ v.length ∧
            Describes t.toTagStore [] (f :: live) free' ∧
              (env.Ample → ∃ kids, Shows f kids ∧ ∀ stack, outcome stack =
                (deliver (some (.key (cstr body), kids)) stack).run (tokens env n (v.drop length2))) := by
          rcases subTag with _ | a
          · obtain ⟨v, hv, -, hle, ⟨free', hd'⟩, h3⟩ := hdone
            refine ⟨v, .nil, free', rfl, hv.unshift, hle, ?_, fun hample => ⟨.nil, trivial, fun stack => ?_⟩⟩
            · exact Describes.cons_nil.2 hd'
            · rw [hout]
              exact h3 hample _ rfl
          · obtain ⟨v, hv, -, hle, b, sub, free', hd', h3⟩ := hdone
            refine ⟨v, .cons (a, b) sub .nil, free', rfl, hv.unshift, hle, hd', fun hample => ?_⟩
            obtain ⟨label, kids, hshow, h4⟩ := h3 hample
            refine ⟨.cons label kids .nil, hshow, fun stack => ?_⟩
            rw [hout]
            exact h4 hample _ rfl
        obtain ⟨v, f, free', rfl, hv, hle, hd', hshows⟩ := hvalue
        have hsize' := hv.size
        rw [List.length_append] at hsize'
        have hadd := addU32_eq (a := body.length + (ascii "key").length + 3) (b := length2) hn (by omega)
        refine Under.bind (plistXmlNewTag_spec hd') ?_
        rintro (_ | a) t₁ ⟨hkept₁, hnew⟩
        · obtain ⟨hample, hstore⟩ := hnew
          rw [← hstore] at hd'
          refine Under.bind (plistXmlFreeTag_spec (hv.kept hkept₁).live hd') ?_
          rintro _ t₂ ⟨hkept₂, free₂, hd₂⟩
          exact Under.pure ⟨⟨_, (hv.kept hkept₁).kept hkept₂⟩, ⟨free₂, hd₂⟩, fun h => absurd h hample⟩
        · obtain ⟨tag, free₁, hat, htype, htag, -, hzero, hdesc⟩ := hnew
          have hv₁ := hv.kept hkept₁
          have htext : t₁.configBuffer = pre ++ (fixed (ascii "key") body v ++ [0]) := by
            rw [hfixed]
            exact hv₁.text
          refine Under.bind (plistXmlNewSymbol_spec (readString_fixed htext) hv₁.live) ?_
          rintro (_ | string) t₂ ⟨hkept₂, hstore₂, hsym⟩
          · rw [← hstore₂] at hat hdesc
            refine Under.bind (reportUncleared_spec hat fun hample => absurd hample hsym) ?_
            rintro _ t₂ ⟨rfl, hclear⟩
            have hboth : Describes t₂.toTagStore [] (f :: .cons (a, tag.toTagBody) .nil .nil :: live) free₁ := by
              exact (hdesc.single hat htype hzero htag hclear).perm (List.Perm.swap _ _ _)
            refine Under.bind (plistXmlFreeTag_spec (hv₁.kept hkept₂).live hboth) ?_
            rintro _ t₃ ⟨hkept₃, free₃, hd₃⟩
            refine Under.bind (plistXmlFreeTag_spec ((hv₁.kept hkept₂).kept hkept₃).live hd₃) ?_
            rintro _ t₄ ⟨hkept₄, free₄, hd₄⟩
            exact Under.pure ⟨⟨_, ((hv₁.kept hkept₂).kept hkept₃).kept hkept₄⟩, ⟨free₄, hd₄⟩,
              fun h => absurd h hsym⟩
          · subst hsym
            rw [← hstore₂] at hat hdesc
            have hbody := length_cstr_le body
            have hlen₁ : (cstr body).length % 2 ^ 32 = (cstr body).length := Nat.mod_eq_of_lt (by omega)
            have hshow : TagBody.Shows ⟨.key, some (cstr body), tag.data, (cstr body).length % 2 ^ 32,
                tag.intval, offsetOf pre.length⟩ (.key (cstr body)) := ⟨rfl, rfl, hlen₁⟩
            have hsmall : (cstr body).length % 2 ^ 32 + 1 < 2 ^ 32 := by omega
            refine Under.bind (fillTag_spec hdesc hat rfl rfl (hshow.sane hsmall)) ?_
            rintro _ t₃ ⟨hkept₃, hd₃⟩
            refine Under.pure ⟨head ++ v, (hv₁.kept hkept₂).kept hkept₃, ?_, _, f, free₁, hd₃, fun hample => ?_⟩
            · rw [hadd, List.length_append]
              omega
            · obtain ⟨kids, hkids, h4⟩ := hshows hample
              refine ⟨.key (cstr body), kids, ⟨hshow, hkids, trivial⟩, fun stack => ?_⟩
              rw [h4, hadd, ← hheadlen, List.drop_length_add_append]

theorem drop_fixed (tag body rest : Bytes) :
    (fixed tag body rest).drop (body.length + tag.length + 3) = rest := by
  have hsplit : fixed tag body rest = (body ++ 0 :: (47 :: tag ++ [0])) ++ rest := by simp [fixed]
  have hlen : body.length + tag.length + 3 = (body ++ 0 :: (47 :: tag ++ [0])).length := by
    simp only [List.length_append, List.length_cons, List.length_nil]
    omega
  rw [hsplit, hlen, List.drop_left]

theorem LeafDone.elementDone {tag : Bytes} {shows : Bytes → TagBody → Prop} {r : Option (Nat × Nat)}
    {t : Parser} (h : LeafDone env n tag shows pre u live r t)
    (hnone : matchEnd tag u = none → ∀ stack, outcome stack = .running stack)
    (hsome : ∀ body rest b, matchEnd tag u = some (body, rest) → shows body b → ∃ label, b.Shows label ∧
      ∀ stack, outcome stack = (deliver (some (label, .nil)) stack).run (tokens env n rest)) :
    ElementDone env n pre outcome live r t := by
  rcases r with _ | ⟨a, length⟩
  · obtain ⟨h1, h2, h3⟩ := h
    exact ⟨h2, h3, fun hample stack => ⟨stack, hnone (h1 hample) stack⟩⟩
  · obtain ⟨body, rest, b, free', hm, hv, rfl, hd, h4⟩ := h
    refine ⟨_, hv, ?_, b, .nil, free', hd, fun hample => ?_⟩
    · rw [length_fixed]
      omega
    · obtain ⟨label, hb, hout⟩ := hsome body rest b hm (h4 hample)
      refine ⟨label, .nil, ⟨hb, trivial, trivial⟩, fun stack => ?_⟩
      rw [hout, drop_fixed]

/-! ### The next tag -/

/-- What a start tag becomes once its `'>'` is overwritten. -/
def startOf (before name : Bytes) : Bytes := before ++ 60 :: (name ++ [0])

theorem closed_eq (before name rest : Bytes) : closed before name rest = startOf before name ++ rest := by
  simp [closed, startOf]

theorem length_startOf (before name : Bytes) : (startOf before name).length = before.length + name.length + 2 := by
  simp only [startOf, List.length_append, List.length_cons, List.length_nil]
  omega

variable {tag : Option Nat} {before name rest : Bytes}

theorem tokens_eq_cons {tok : Token} {rest' : Bytes} (hu : nextTag u = some (before, name, rest))
    (h : elementToken env n before name rest (markupOf name) = some (tok, rest')) :
    tokens env n u = tok :: tokens env n rest' := by
  refine tokens_of_some ?_
  rw [nextToken, hu, Option.bind_some, h]

theorem tokens_eq_nil (hu : nextTag u = some (before, name, rest))
    (h : elementToken env n before name rest (markupOf name) = none) : tokens env n u = [] := by
  refine tokens_of_none ?_
  rw [nextToken, hu, Option.bind_some, h]

/-- An element behind its start tag, seen from before the start tag. -/
theorem ElementDone.nextDone (hn : n < 2 ^ 32) {r : Option (Nat × Nat)} {t : Parser}
    (h : ElementDone env n (pre ++ startOf before name)
      (fun stack => (Machine.running stack).run (tokens env n u)) live r t) :
    NextDone env n pre u tag live
      ((r.map fun q => (some q.1, q.2)).map fun q => (q.1, addU32 (startOf before name).length q.2)) t := by
  rcases r with _ | ⟨a, length⟩
  · obtain ⟨⟨v, hv⟩, h2, h3⟩ := h
    exact ⟨⟨_, hv.unshift⟩, h2, fun hample stack _ => h3 hample stack⟩
  · obtain ⟨v, hv, hle, b, sub, free', hd, h4⟩ := h
    have hsize := hv.size
    rw [List.length_append] at hsize
    have hadd := addU32_eq (a := (startOf before name).length) (b := length) hn (by omega)
    have hpos : 0 < (startOf before name).length := by
      rw [length_startOf]
      omega
    refine ⟨startOf before name ++ v, hv.unshift, ?_, ?_, b, sub, free', hd, fun hample => ?_⟩
    · simp only [hadd]
      omega
    · simp only [hadd, List.length_append]
      omega
    · obtain ⟨label, kids, hshow, hout⟩ := h4 hample
      refine ⟨label, kids, hshow, fun _ stack _ => ?_⟩
      simp only [hadd, List.drop_length_add_append]
      exact hout stack

/-- Markup that is no element, seen from before its start tag. -/
theorem nextDone_skip (hn : n < 2 ^ 32) (hr : Reads n s (pre ++ startOf before name) rest)
    (hd : Describes s.toTagStore [] live free)
    (hrun : ∀ stack : Stack, stack.held = tag.isSome →
      (Machine.running stack).run (tokens env n u) = (deliver none stack).run (tokens env n rest)) :
    NextDone env n pre u tag live (some (none, addU32 (startOf before name).length 0)) s := by
  have hsize := hr.size
  rw [List.length_append] at hsize
  have hadd := addU32_eq (a := (startOf before name).length) (b := 0) hn (by omega)
  have hpos := length_startOf before name
  refine ⟨startOf before name ++ rest, hr.unshift, ?_, ?_, ⟨free, hd⟩, fun hample stack hheld => ?_⟩
  · omega
  · rw [hadd, List.length_append]
    omega
  · rw [hadd, Nat.add_zero, List.drop_left]
    exact hrun stack hheld

theorem eq_or_eq_of_ite {α : Type} {c : Prop} [Decidable c] {a b x : α} (h : (if c then a else b) = x) :
    a = x ∨ b = x := by
  by_cases hc : c
  · rw [if_pos hc] at h
    exact Or.inl h
  · rw [if_neg hc] at h
    exact Or.inr h

theorem type_of_list {name : Bytes} {type : TagType} {empty : Bool} (h : markupOf name = .list type empty) :
    type = .dict ∨ type = .array := by
  unfold markupOf at h
  iterate 16
    rcases eq_or_eq_of_ite h with hnow | h
    · cases hnow <;> first | exact Or.inl rfl | exact Or.inr rfl
  cases h

theorem type_of_boolean {name : Bytes} {type : TagType} (h : markupOf name = .boolean type) :
    type = .true ∨ type = .false := by
  unfold markupOf at h
  iterate 16
    rcases eq_or_eq_of_ite h with hnow | h
    · cases hnow <;> first | exact Or.inl rfl | exact Or.inr rfl
  cases h

/-- An integer, seen from before its start tag. -/
theorem IntegerDone.nextDone (hn : n < 2 ^ 32) (hu : nextTag u = some (before, name, rest))
    {r : Option (Nat × Nat)} {t : Parser}
    (h : IntegerDone env n (startOf before name).length (pre ++ startOf before name) rest live r t)
    (hout : ∀ tok rest', elementToken env n before name rest .integer = some (tok, rest') →
      ∀ stack, (Machine.running stack).run (tokens env n u) =
        ((Machine.running stack).step tok).run (tokens env n rest'))
    (hkind : markupOf name = .integer) :
    NextDone env n pre u tag live
      ((r.map fun q => (some q.1, q.2)).map fun q => (q.1, addU32 (startOf before name).length q.2)) t := by
  have hlen := length_startOf before name
  rcases r with _ | ⟨a, length⟩
  · obtain ⟨hm, ⟨v, hv⟩, hd⟩ := h
    refine ⟨⟨_, hv.unshift⟩, hd, fun hample stack _ => ⟨stack, ?_⟩⟩
    rw [tokens_eq_nil hu (by rw [hkind, elementToken, hm hample]; rfl), Machine.run_nil]
  · obtain ⟨body, rest', b, free', hm, hv, hd, hcase⟩ := h
    have hfix := length_of_matchEnd hm
    by_cases h60 : body.head? = some 60
    · rw [if_pos h60] at hcase
      obtain ⟨rfl, hshow, hpos, hle⟩ := hcase
      have htext : (startOf before name ++ fixed (ascii "integer") body rest').length =
          (startOf before name).length + rest.length := by
        rw [List.length_append, length_fixed, hfix]
      refine ⟨_, hv.unshift, hpos, ?_, b, .nil, free', hd, fun _ => ?_⟩
      · rw [htext]
        exact hle
      · refine ⟨.integer 0, .nil, ⟨hshow, trivial, trivial⟩, fun _ stack _ => ?_⟩
        refine hout (.element (.integer 0)) _ ?_ stack
        rw [elementToken, hm, Option.map_some, integerToken, if_pos h60, ← hlen, if_pos, closed_eq]
        rw [closed_eq, htext]
        exact ⟨hpos, hle⟩
    · rw [if_neg h60] at hcase
      obtain ⟨rfl, hshow⟩ := hcase
      have helem : ElementDone env n (pre ++ startOf before name)
          (fun stack => (Machine.running stack).run (tokens env n u)) live (some (a, body.length + 10)) t := by
        refine ⟨_, hv, ?_, b, .nil, free', hd, fun _ => ?_⟩
        · rw [length_fixed]
          exact Nat.le_add_right _ _
        · refine ⟨_, .nil, ⟨hshow, trivial, trivial⟩, fun stack => ?_⟩
          have hdrop : (fixed (ascii "integer") body rest').drop (body.length + 10) = rest' :=
            drop_fixed (ascii "integer") body rest'
          rw [hdrop]
          refine hout (.element _) rest' ?_ stack
          rw [elementToken, hm, Option.map_some, integerToken, if_neg h60]
      exact helem.nextDone hn

theorem parseElement_spec {next : Nat → Option Nat → ParserM (Option (Option Nat × Nat))} {fuel : Nat}
    (hnext : NextSpec env n fuel next) (hn : n < 2 ^ 32)
    (hu : nextTag u = some (before, name, rest)) (hfuel : rest.length < fuel)
    (hr : Reads n s (pre ++ startOf before name) rest) (hd : Describes s.toTagStore [] live free) :
    Runs (Expects env n u tag fun _ m => m = .stuck)
      (parseElement env next fuel (pre ++ startOf before name).length (startOf before name).length tag
        (markupOf name)) s
      fun r t => NextDone env n pre u tag live
        (r.map fun q => (q.1, addU32 (startOf before name).length q.2)) t := by
  have hblame : (env.Ample → ∀ stack, (Machine.running stack).run (tokens env n u) = .stuck) →
      Expects env n u tag fun _ m => m = .stuck := fun h hample stack _ => h hample stack
  -- Elements that end with their own end tag and have no children.
  have hleaf : ∀ (endTag : Bytes) (tok : Bytes → Token) (shows : Bytes → TagBody → Prop) (r : Option (Nat × Nat))
      (t : Parser), elementToken env n before name rest (markupOf name) =
        (matchEnd endTag rest).map (fun p => (tok p.1, p.2)) →
      (∀ body b, shows body b → ∃ label, tok body = .element label ∧ b.Shows label) →
      LeafDone env n endTag shows (pre ++ startOf before name) rest live r t →
      NextDone env n pre u tag live
        ((r.map fun q => (some q.1, q.2)).map fun q => (q.1, addU32 (startOf before name).length q.2)) t := by
    intro endTag tok shows r t htok hshows hdone
    refine (hdone.elementDone ?_ ?_).nextDone hn
    · intro hm stack
      rw [tokens_eq_nil hu (by rw [htok, hm]; rfl), Machine.run_nil]
    · intro body rest' b hm hb
      obtain ⟨label, hlabel, hb'⟩ := hshows body b hb
      refine ⟨label, hb', fun stack => ?_⟩
      rw [tokens_eq_cons hu (by rw [htok, hm]; rfl), Machine.run_cons, hlabel]
      rfl
  have hout : ∀ tok rest', elementToken env n before name rest (markupOf name) = some (tok, rest') →
      ∀ stack, (Machine.running stack).run (tokens env n u) =
        ((Machine.running stack).step tok).run (tokens env n rest') := by
    intro tok rest' htok stack
    rw [tokens_eq_cons hu htok, Machine.run_cons]
  rcases hk : markupOf name with _ | ⟨type, empty⟩ | _ | _ | _ | _ | _ | type | _ <;> rw [hk] at hleaf hout
  · -- `<plist>` keeps what the out-parameter holds.
    cases tag with
    | some a =>
        refine Under.bind (Q := fun _ _ => False) (Under.emit (fun hg => hg.elim) fun _ _ stack hheld => ?_)
          fun _ _ h => h.elim
        have hyes : stack.held = true := hheld
        rw [hout _ _ rfl, Machine.step, if_pos hyes, Machine.run_stuck]
    | none =>
        refine Under.bind_eq (pure_apply _ s) (Under.pure ?_)
        refine nextDone_skip hn hr hd fun stack hheld => ?_
        have hno : ¬stack.held = true := by simpa using hheld
        rw [hout _ _ rfl, Machine.step, if_neg hno]
  · have hshows : ∀ b : TagBody, b.type = type → b.Shows (listLabel type) := by
      intro b hb
      rcases type_of_list hk with rfl | rfl <;> exact hb
    refine Under.map ?_
    cases empty
    · refine ((plistXmlParseTagList_spec hnext hn hfuel hfuel hshows ?_ hr hd).mono hblame ?_)
      · exact fun stack => hout _ _ rfl stack
      · exact fun r t hdone => hdone.nextDone hn
    · refine Under.mono (Q := ElementDone env n (pre ++ startOf before name)
        (fun stack => (Machine.running stack).run (tokens env n u)) live)
        (plistXmlParseTagList_empty_spec hshows ?_ hr hd) id ?_
      · exact fun stack => hout _ _ rfl stack
      · exact fun r t hdone => hdone.nextDone hn
  · refine Under.map ((plistXmlParseTagKey_spec hnext hn hfuel ?_ ?_ hr hd).mono hblame ?_)
    · intro hm stack
      rw [tokens_eq_nil hu (by rw [hk, elementToken, hm]; rfl), Machine.run_nil]
    · intro body rest' hm stack
      rw [hout _ _ (by rw [elementToken, hm]; rfl)]
      rfl
    · exact fun r t hdone => hdone.nextDone hn
  · refine Under.map ((plistXmlParseTagString_spec hn ?_ hr hd).mono id ?_)
    · exact fun h hample => absurd hample h
    · exact fun r t hdone => hleaf _ (fun body => .element (.string (cstr body))) _ r t rfl
        (fun body b hb => ⟨_, rfl, hb⟩) hdone
  · have hlen := length_startOf before name
    refine Under.map ((plistXmlParseTagInteger_spec hn ?_ hr hd).mono id ?_)
    · intro body rest' hm h60 hno hample stack _
      have hfix := length_of_matchEnd hm
      rw [hout .bad [] ?_ stack]
      · exact Machine.run_stuck _
      · rw [elementToken, hm, Option.map_some, integerToken, if_pos h60, ← hlen, if_neg]
        simp only [length_closed, length_fixed]
        rintro ⟨h1, h2⟩
        exact hno ⟨h1, by omega⟩
    · exact fun r t hdone => hdone.nextDone hn hu hout hk
  · have hplace : n - rest.length = (pre ++ startOf before name).length := by
      have := hr.size
      omega
    refine Under.map ((plistXmlParseTagData_spec hn ?_ hr hd).mono id ?_)
    · intro body rest' hm hbad hample stack _
      rw [hout .bad rest' ?_ stack]
      · exact Machine.run_stuck _
      · rw [elementToken, hm, Option.map_some, hplace, hbad]
    · refine fun r t hdone => hleaf _ (fun body => dataToken env (n - rest.length) body) _ r t rfl ?_ hdone
      rintro body b ⟨d, htok, hb⟩
      exact ⟨_, by rw [hplace, htok], hb⟩
  · refine Under.map ((plistXmlParseTagDate_spec hn hr hd).mono id ?_)
    exact fun r t hdone => hleaf _ (fun _ => .element (.date [])) _ r t rfl
      (fun body b hb => ⟨_, rfl, hb⟩) hdone
  · refine Under.map ((plistXmlParseTagBoolean_spec (type_of_boolean hk) hr hd).mono id ?_)
    rintro (_ | ⟨a, length⟩) t ⟨hr', hdone⟩
    · exact ⟨⟨_, hr'.unshift⟩, hdone.2, fun hample => absurd hample hdone.1⟩
    · obtain ⟨rfl, b, free', hb, hd'⟩ := hdone
      have hshow : b.Shows (.bool (type = .true)) := by
        rcases type_of_boolean hk with rfl | rfl <;> exact hb
      have helem : ElementDone env n (pre ++ startOf before name)
          (fun stack => (Machine.running stack).run (tokens env n u)) live (some (a, 0)) t :=
        ⟨rest, hr', Nat.zero_le _, b, .nil, free', hd', fun _ =>
          ⟨_, .nil, ⟨hshow, trivial, trivial⟩, fun stack => hout _ _ rfl stack⟩⟩
      exact helem.nextDone hn
  · refine Under.pure (nextDone_skip hn hr hd fun stack _ => ?_)
    rw [hout _ _ rfl]
    rfl

/-- A call that succeeds moves on within the text and leaves a sound store. -/
theorem NextDone.returned {r : Option Nat × Nat} {t : Parser}
    (h : NextDone env n pre u tag live (some r) t) :
    (Event.returned (t.configBuffer.length - 1 - pre.length) r.2 r.1 t.toTagStore).Sound := by
  obtain ⟨_ | a, length⟩ := r
  · obtain ⟨v, hv, hpos, hle, ⟨free', hd⟩, -⟩ := h
    refine ⟨hpos, ?_, hd.sound, TagStore.apart_none⟩
    rw [hv.length, ← hv.size]
    omega
  · obtain ⟨v, hv, hpos, hle, b, sub, free', hd, -⟩ := h
    refine ⟨hpos, ?_, hd.sound, hd.apart (f := .cons (a, b) sub .nil) (by simp)⟩
    rw [hv.length, ← hv.size]
    omega

theorem plistXmlParseNextTag_spec (hn : n < 2 ^ 32) (fuel : Nat) :
    NextSpec env n fuel (plistXmlParseNextTag env fuel) := by
  induction fuel with
  | zero =>
      intro s pre u tag live free hlt
      omega
  | succ fuel ih =>
      intro s pre u tag live free hlt hr hd
      rw [plistXmlParseNextTag]
      rcases hu : nextTag u with _ | ⟨before, name, rest⟩
      · refine Under.bind_eq (plistXmlGetNextTag_none hr.text hu) (Under.pure ⟨⟨u, hr⟩, ⟨free, hd⟩, ?_⟩)
        intro _ stack _
        refine ⟨stack, ?_⟩
        rw [tokens_of_none (by rw [nextToken, hu]; rfl), Machine.run_nil]
      · obtain ⟨-, -, hname⟩ := eq_of_nextTag hu
        have hlen := length_of_nextTag hu
        have hr' : Reads n (s.withText (pre ++ (closed before name rest ++ [0]))) pre (closed before name rest) :=
          hr.withText (by rw [length_closed, hlen])
        rw [closed_eq] at hr'
        have hplace : pre.length + (before.length + name.length + 2) = (pre ++ startOf before name).length := by
          rw [List.length_append, length_startOf]
        refine Under.bind_eq (plistXmlGetNextTag_some hr.text hu) ?_
        simp only
        refine Under.bind_eq (readString_name rfl hname) ?_
        rw [hplace, ← length_startOf]
        rw [closed_eq]
        refine Under.bind (parseElement_spec ih hn hu (by omega) hr'.shift hd) ?_
        rintro (_ | ⟨tag', length⟩) t hdone
        · exact Under.pure hdone
        · refine Under.get_bind (Under.emit_bind (fun _ => ⟨?_, Under.pure hdone⟩) fun hg => absurd trivial hg)
          exact NextDone.returned (r := (tag', addU32 (startOf before name).length length)) hdone

end Simulation
end BareBoot.Plist
