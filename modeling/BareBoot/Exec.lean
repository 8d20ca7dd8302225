import Mathlib.Tactic

/-! Runs that thread a state, emit events and may stop early. State and events survive a stop, so what
a stopped run has done up to there can still be inspected. The second half is the logic the proofs
about such runs use: a run that returns exactly under a condition (`Returns`), a run whose events are all
granted (`Under`), what the events of a run that returns add up to (`Weighs`), and two runs that agree as
long as one of them is not stopped for a given reason (`Follows`). Each is closed under sequencing. -/

namespace BareBoot

/-- How a run ends: its result or the reason it was stopped, the state reached, the events emitted. -/
structure Outcome (ε ω σ α : Type) where
  result : Except ε α
  state : σ
  events : List ω

/-- The outcome, with earlier events in front. -/
def Outcome.after {ε ω σ α : Type} (o : Outcome ε ω σ α) (earlier : List ω) : Outcome ε ω σ α :=
  ⟨o.result, o.state, earlier ++ o.events⟩

@[simp] theorem Outcome.after_nil {ε ω σ α : Type} (o : Outcome ε ω σ α) : o.after [] = o := rfl

@[simp] theorem Outcome.after_events {ε ω σ α : Type} (o : Outcome ε ω σ α) (l : List ω) :
    (o.after l).events = l ++ o.events := rfl

/-- A run from a state. -/
def Exec (ε ω σ α : Type) := σ → Outcome ε ω σ α

namespace Exec
variable {ε ω σ τ α β : Type}

def bind (x : Exec ε ω σ α) (f : α → Exec ε ω σ β) : Exec ε ω σ β := fun s =>
  match x s with
  | ⟨.ok a, t, l⟩ => (f a t).after l
  | ⟨.error e, t, l⟩ => ⟨.error e, t, l⟩

instance : Monad (Exec ε ω σ) where
  pure a := fun s => ⟨.ok a, s, []⟩
  bind := bind

/-- The current state. -/
def get : Exec ε ω σ σ := fun s => ⟨.ok s, s, []⟩

/-- Change the state. -/
def modify (f : σ → σ) : Exec ε ω σ Unit := fun s => ⟨.ok (), f s, []⟩

/-- Emit an event. -/
def emit (e : ω) : Exec ε ω σ Unit := fun s => ⟨.ok (), s, [e]⟩

/-- Stop. -/
def stop (e : ε) : Exec ε ω σ α := fun s => ⟨.error e, s, []⟩

@[simp] theorem pure_apply (a : α) (s : σ) : (pure a : Exec ε ω σ α) s = ⟨.ok a, s, []⟩ := rfl

@[simp] theorem get_apply (s : σ) : (get : Exec ε ω σ σ) s = ⟨.ok s, s, []⟩ := rfl

@[simp] theorem modify_apply (f : σ → σ) (s : σ) :
    (modify f : Exec ε ω σ Unit) s = ⟨.ok (), f s, []⟩ := rfl

@[simp] theorem emit_apply (e : ω) (s : σ) : (emit e : Exec ε ω σ Unit) s = ⟨.ok (), s, [e]⟩ := rfl

@[simp] theorem stop_apply (e : ε) (s : σ) : (stop e : Exec ε ω σ α) s = ⟨.error e, s, []⟩ := rfl

theorem bind_apply (x : Exec ε ω σ α) (f : α → Exec ε ω σ β) (s : σ) :
    (x >>= f) s = match x s with
      | ⟨.ok a, t, l⟩ => (f a t).after l
      | ⟨.error e, t, l⟩ => ⟨.error e, t, l⟩ := rfl

theorem bind_of_ok {x : Exec ε ω σ α} {s t : σ} {a : α} {l : List ω} (h : x s = ⟨.ok a, t, l⟩)
    (f : α → Exec ε ω σ β) : (x >>= f) s = (f a t).after l := by
  rw [bind_apply, h]

theorem bind_of_error {x : Exec ε ω σ α} {s t : σ} {e : ε} {l : List ω} (h : x s = ⟨.error e, t, l⟩)
    (f : α → Exec ε ω σ β) : (x >>= f) s = ⟨.error e, t, l⟩ := by
  rw [bind_apply, h]

@[simp] theorem pure_bind_apply (a : α) (f : α → Exec ε ω σ β) (s : σ) :
    ((pure a : Exec ε ω σ α) >>= f) s = f a s := rfl

@[simp] theorem get_bind_apply (f : σ → Exec ε ω σ β) (s : σ) : (get >>= f) s = f s s := rfl

@[simp] theorem modify_bind_apply (g : σ → σ) (f : Unit → Exec ε ω σ β) (s : σ) :
    (modify g >>= f) s = f () (g s) := rfl

@[simp] theorem emit_bind_apply (e : ω) (f : Unit → Exec ε ω σ β) (s : σ) :
    (emit e >>= f) s = (f () s).after [e] := rfl

/-! ### Runs that return exactly under a condition -/

/-- From every state, the run returns exactly if the condition holds. -/
def Returns (x : Exec ε ω σ α) (c : Prop) : Prop := ∀ s, (∃ a, (x s).result = .ok a) ↔ c

section Returns
variable {x : Exec ε ω σ α} {f : α → Exec ε ω σ β} {c d : Prop}

theorem Returns.iff (hx : Returns x c) (h : c ↔ d) : Returns x d := fun s => (hx s).trans h

theorem Returns.pure (a : α) : Returns (pure a : Exec ε ω σ α) True := fun _ => iff_true_intro ⟨a, rfl⟩

theorem Returns.modify (f : σ → σ) : Returns (modify f : Exec ε ω σ Unit) True := fun _ => iff_true_intro ⟨(), rfl⟩

theorem Returns.stop (e : ε) : Returns (stop e : Exec ε ω σ α) False :=
  fun _ => iff_false_intro fun ⟨_, h⟩ => nomatch h

theorem Returns.get_bind {f : σ → Exec ε ω σ α} (hf : ∀ s, Returns (f s) c) : Returns (get >>= f) c := fun s => hf s s

theorem Returns.bind (hx : Returns x c) (hf : ∀ a, Returns (f a) d) : Returns (x >>= f) (c ∧ d) := by
  intro s
  have hcond := hx s
  rw [bind_apply]
  rcases hrun : x s with ⟨e | a, t, l⟩ <;> rw [hrun] at hcond
  · have hnot : ¬c := fun hc => by
      obtain ⟨a, ha⟩ := hcond.2 hc
      cases ha
    exact iff_of_false (fun ⟨_, h⟩ => nomatch h) fun h => hnot h.1
  · have hc : c := hcond.1 ⟨a, rfl⟩
    exact (hf a t).trans (and_iff_right hc).symm

/-- A first run that always returns. -/
theorem Returns.then (hx : Returns x True) (hf : ∀ a, Returns (f a) d) : Returns (x >>= f) d :=
  (hx.bind hf).iff (and_iff_right trivial)

theorem Returns.forM {l : List β} {f : β → Exec ε ω σ PUnit} {c : β → Prop} (h : ∀ b ∈ l, Returns (f b) (c b)) :
    Returns (l.forM f) (∀ b ∈ l, c b) := by
  induction l with
  | nil => exact (Returns.pure _).iff (iff_of_true trivial (List.forall_mem_nil c))
  | cons b l ih =>
      have hrest := ih fun b' hb' => h b' (List.mem_cons_of_mem b hb')
      exact ((h b List.mem_cons_self).bind fun _ => hrest).iff List.forall_mem_cons.symm

end Returns

/-! ### Runs whose events are granted -/

/-- Either every event of the run is `granted` and `sound`, the run is stopped only for an `allowed`
reason, and otherwise its result and state meet `Q`; or some event was not granted, and `blame` tells
what that is due to. -/
def Under (granted sound : ω → Prop) (allowed : ε → Prop) (blame : Prop) (x : Exec ε ω σ α) (s : σ)
    (Q : α → σ → Prop) : Prop :=
  ((∀ e ∈ (x s).events, granted e ∧ sound e) ∧
      match (x s).result with
      | .ok a => Q a (x s).state
      | .error e => allowed e) ∨
    (∃ e ∈ (x s).events, ¬granted e) ∧ blame

section Under
variable {granted sound : ω → Prop} {allowed : ε → Prop} {blame : Prop} {Q : α → σ → Prop}
  {P : β → σ → Prop}

theorem Under.pure {a : α} {s : σ} (h : Q a s) :
    Under granted sound allowed blame (pure a : Exec ε ω σ α) s Q :=
  Or.inl ⟨by simp, h⟩

theorem Under.stop {e : ε} {s : σ} (h : allowed e) :
    Under granted sound allowed blame (stop e : Exec ε ω σ α) s Q :=
  Or.inl ⟨by simp, h⟩

theorem Under.modify {f : σ → σ} {s : σ} {Q : Unit → σ → Prop} (h : Q () (f s)) :
    Under granted sound allowed blame (modify f : Exec ε ω σ Unit) s Q :=
  Or.inl ⟨by simp, h⟩

theorem Under.of_eq {x : Exec ε ω σ α} {s t : σ} {a : α} (hx : x s = ⟨.ok a, t, []⟩) (h : Q a t) :
    Under granted sound allowed blame x s Q := by
  refine Or.inl ?_
  rw [hx]
  exact ⟨by simp, h⟩

theorem Under.mono {x : Exec ε ω σ α} {s : σ} {blame' : Prop} {Q' : α → σ → Prop}
    (hx : Under granted sound allowed blame x s Q) (hblame : blame → blame')
    (h : ∀ a t, Q a t → Q' a t) : Under granted sound allowed blame' x s Q' := by
  rcases hx with ⟨hs, hr⟩ | ⟨hs, hb⟩
  · refine Or.inl ⟨hs, ?_⟩
    rcases hxs : (x s).result with e | a
    · rw [hxs] at hr
      exact hr
    · rw [hxs] at hr
      exact h a _ hr
  · exact Or.inr ⟨hs, hblame hb⟩

theorem Under.bind {x : Exec ε ω σ α} {f : α → Exec ε ω σ β} {s : σ}
    (hx : Under granted sound allowed blame x s Q)
    (hf : ∀ a t, Q a t → Under granted sound allowed blame (f a) t P) :
    Under granted sound allowed blame (x >>= f) s P := by
  unfold Under at hx ⊢
  rw [bind_apply]
  rcases hxs : x s with ⟨e | a, t, l⟩ <;> rw [hxs] at hx
  · exact hx
  · rcases hx with ⟨hs, hq⟩ | ⟨⟨e, he, hne⟩, hb⟩
    · rcases hf a t hq with ⟨hs', hr⟩ | ⟨⟨e, he, hne⟩, hb⟩
      · refine Or.inl ⟨?_, hr⟩
        intro e he
        rcases List.mem_append.1 he with he | he
        · exact hs e he
        · exact hs' e he
      · exact Or.inr ⟨⟨e, List.mem_append.2 (Or.inr he), hne⟩, hb⟩
    · exact Or.inr ⟨⟨e, List.mem_append.2 (Or.inl he), hne⟩, hb⟩

theorem Under.bind_eq {x : Exec ε ω σ α} {f : α → Exec ε ω σ β} {s t : σ} {a : α}
    (hx : x s = ⟨.ok a, t, []⟩) (hf : Under granted sound allowed blame (f a) t P) :
    Under granted sound allowed blame (x >>= f) s P := by
  unfold Under
  rw [bind_of_ok hx, Outcome.after_nil]
  exact hf

theorem Under.map {x : Exec ε ω σ α} {f : α → β} {s : σ}
    (hx : Under granted sound allowed blame x s fun a t => P (f a) t) :
    Under granted sound allowed blame (f <$> x) s P :=
  Under.bind hx fun _ _ h => Under.pure h

theorem Under.get_bind {f : σ → Exec ε ω σ β} {s : σ}
    (hf : Under granted sound allowed blame (f s) s P) :
    Under granted sound allowed blame (Exec.get >>= f) s P :=
  Under.bind_eq (get_apply s) hf

theorem Under.modify_bind {g : σ → σ} {f : Unit → Exec ε ω σ β} {s : σ}
    (hf : Under granted sound allowed blame (f ()) (g s) P) :
    Under granted sound allowed blame (Exec.modify g >>= f) s P :=
  Under.bind_eq (modify_apply g s) hf

/-- Emitting an event: either it is granted, or it is to blame. -/
theorem Under.emit_bind {e : ω} {f : Unit → Exec ε ω σ β} {s : σ}
    (hf : granted e → sound e ∧ Under granted sound allowed blame (f ()) s P)
    (hblame : ¬granted e → blame) : Under granted sound allowed blame (emit e >>= f) s P := by
  unfold Under
  rw [emit_bind_apply]
  by_cases hg : granted e
  · obtain ⟨hse, hu⟩ := hf hg
    rcases hu with ⟨hs, hr⟩ | ⟨⟨e', he, hne⟩, hb⟩
    · refine Or.inl ⟨?_, hr⟩
      intro e' he'
      rcases List.mem_cons.1 he' with rfl | he'
      · exact ⟨hg, hse⟩
      · exact hs e' he'
    · exact Or.inr ⟨⟨e', List.mem_cons_of_mem _ he, hne⟩, hb⟩
  · exact Or.inr ⟨⟨e, List.mem_cons_self, hg⟩, hblame hg⟩

theorem Under.emit {e : ω} {s : σ} {Q : Unit → σ → Prop} (hf : granted e → sound e ∧ Q () s)
    (hblame : ¬granted e → blame) :
    Under granted sound allowed blame (emit e : Exec ε ω σ Unit) s Q :=
  Under.emit_bind (f := fun _ => Pure.pure ()) (fun hg => ⟨(hf hg).1, Under.pure (hf hg).2⟩) hblame

end Under

/-! ### What the events add up to -/

/-- If the run returns and its events are all `granted`, then they are all `sound`, and its result, its
state and the sum of the weights of its events meet `Q`. -/
def Weighs {M : Type} [AddMonoid M] (granted sound : ω → Prop) (weight : ω → M) (x : Exec ε ω σ α) (s : σ)
    (Q : α → σ → M → Prop) : Prop :=
  ∀ a, (x s).result = .ok a → (∀ e ∈ (x s).events, granted e) →
    (∀ e ∈ (x s).events, sound e) ∧ Q a (x s).state ((x s).events.map weight).sum

section Weighs
variable {M : Type} [AddMonoid M] {granted sound : ω → Prop} {weight : ω → M} {Q : α → σ → M → Prop}
  {P : β → σ → M → Prop}

theorem Weighs.pure {a : α} {s : σ} (h : Q a s 0) :
    Weighs granted sound weight (pure a : Exec ε ω σ α) s Q := by
  rintro _ ⟨⟩ -
  exact ⟨List.forall_mem_nil _, h⟩

theorem Weighs.stop {e : ε} {s : σ} : Weighs granted sound weight (stop e : Exec ε ω σ α) s Q :=
  fun _ h => nomatch h

theorem Weighs.modify {f : σ → σ} {s : σ} {Q : Unit → σ → M → Prop} (h : Q () (f s) 0) :
    Weighs granted sound weight (modify f : Exec ε ω σ Unit) s Q := by
  rintro _ ⟨⟩ -
  exact ⟨List.forall_mem_nil _, h⟩

theorem Weighs.mono {x : Exec ε ω σ α} {s : σ} {Q' : α → σ → M → Prop}
    (hx : Weighs granted sound weight x s Q) (h : ∀ a t m, Q a t m → Q' a t m) :
    Weighs granted sound weight x s Q' := by
  intro a ha hgranted
  obtain ⟨hsound, hq⟩ := hx a ha hgranted
  exact ⟨hsound, h _ _ _ hq⟩

theorem Weighs.bind {x : Exec ε ω σ α} {f : α → Exec ε ω σ β} {s : σ}
    (hx : Weighs granted sound weight x s Q)
    (hf : ∀ a t m, Q a t m → Weighs granted sound weight (f a) t fun b u m' => P b u (m + m')) :
    Weighs granted sound weight (x >>= f) s P := by
  unfold Weighs at hx
  intro b hb hgranted
  rw [bind_apply] at hb hgranted ⊢
  rcases hxs : x s with ⟨e | a, t, l⟩ <;> rw [hxs] at hx hb hgranted
  · cases hb
  · obtain ⟨hsound, hq⟩ := hx a rfl fun e he => hgranted e (List.mem_append.2 (Or.inl he))
    obtain ⟨hsound', hp⟩ := hf a t _ hq b hb fun e he => hgranted e (List.mem_append.2 (Or.inr he))
    refine ⟨?_, ?_⟩
    · intro e he
      rcases List.mem_append.1 he with he | he
      · exact hsound e he
      · exact hsound' e he
    · rw [Outcome.after_events, List.map_append, List.sum_append]
      exact hp

theorem Weighs.bind_eq {x : Exec ε ω σ α} {f : α → Exec ε ω σ β} {s t : σ} {a : α}
    (hx : x s = ⟨.ok a, t, []⟩) (hf : Weighs granted sound weight (f a) t P) :
    Weighs granted sound weight (x >>= f) s P := by
  unfold Weighs
  rw [bind_of_ok hx, Outcome.after_nil]
  exact hf

theorem Weighs.map {x : Exec ε ω σ α} {f : α → β} {s : σ}
    (hx : Weighs granted sound weight x s fun a t m => P (f a) t m) :
    Weighs granted sound weight (f <$> x) s P :=
  Weighs.bind hx fun _ _ m h => Weighs.pure (by rwa [add_zero])

theorem Weighs.get_bind {f : σ → Exec ε ω σ β} {s : σ} (hf : Weighs granted sound weight (f s) s P) :
    Weighs granted sound weight (Exec.get >>= f) s P :=
  Weighs.bind_eq (get_apply s) hf

theorem Weighs.modify_bind {g : σ → σ} {f : Unit → Exec ε ω σ β} {s : σ}
    (hf : Weighs granted sound weight (f ()) (g s) P) :
    Weighs granted sound weight (Exec.modify g >>= f) s P :=
  Weighs.bind_eq (modify_apply g s) hf

theorem Weighs.emit {e : ω} {s : σ} {Q : Unit → σ → M → Prop} (hf : granted e → sound e ∧ Q () s (weight e)) :
    Weighs granted sound weight (emit e : Exec ε ω σ Unit) s Q := by
  rintro _ ⟨⟩ hgranted
  obtain ⟨hsound, hq⟩ := hf (hgranted e List.mem_cons_self)
  refine ⟨?_, ?_⟩
  · intro e' he'
    rw [List.mem_singleton.1 he']
    exact hsound
  · rw [emit_apply, List.map_singleton, List.sum_singleton]
    exact hq

theorem Weighs.emit_bind {e : ω} {f : Unit → Exec ε ω σ β} {s : σ}
    (hf : granted e → sound e ∧ Weighs granted sound weight (f ()) s fun b t m => P b t (weight e + m)) :
    Weighs granted sound weight (Exec.emit e >>= f) s P :=
  Weighs.bind (Weighs.emit hf) fun _ _ _ h => h

/-- What is known of every run of `x` from a state holds of the ones that return. -/
theorem Weighs.and_under {x : Exec ε ω σ α} {s : σ} {granted' sound' : ω → Prop} {R : α → σ → Prop}
    (hx : Weighs granted sound weight x s Q) (hr : Under granted' sound' (fun _ => False) False x s R) :
    Weighs granted sound weight x s fun a t m => R a t ∧ Q a t m := by
  intro a ha hgranted
  obtain ⟨hsound, hq⟩ := hx a ha hgranted
  rcases hr with ⟨-, hr⟩ | ⟨-, hfalse⟩
  · rw [ha] at hr
    exact ⟨hsound, hr, hq⟩
  · exact hfalse.elim

end Weighs

/-! ### Two runs side by side -/

/-- Unless `x` is stopped for a reason in `bad`, `y` started in a related state gives the same result
and a related state, and the result meets `Q`. -/
def Follows (R : σ → τ → Prop) (bad : ε → Prop) (x : Exec ε ω σ α) (y : Exec ε ω τ α) (s : σ) (s' : τ)
    (Q : α → σ → Prop) : Prop :=
  (∀ e, (x s).result = .error e → ¬bad e) →
    (y s').result = (x s).result ∧ R (x s).state (y s').state ∧ ∀ a, (x s).result = .ok a → Q a (x s).state

section Follows
variable {R : σ → τ → Prop} {bad : ε → Prop} {s : σ} {s' : τ} {Q : α → σ → Prop} {P : β → σ → Prop}

theorem Follows.pure {a : α} (h : R s s') (hq : Q a s) :
    Follows R bad (pure a : Exec ε ω σ α) (pure a : Exec ε ω τ α) s s' Q := by
  intro _
  refine ⟨rfl, h, ?_⟩
  rintro _ ⟨⟩
  exact hq

/-- A run that is stopped for a bad reason is followed by any. -/
theorem Follows.of_bad {x : Exec ε ω σ α} {y : Exec ε ω τ α} {e : ε} (hx : (x s).result = .error e)
    (he : bad e) : Follows R bad x y s s' Q :=
  fun hgood => absurd he (hgood e hx)

theorem Follows.of_eq {x : Exec ε ω σ α} {y : Exec ε ω τ α} {a : α} (hx : (x s).result = .ok a)
    (hy : (y s').result = .ok a) (h : R (x s).state (y s').state) (hq : Q a (x s).state) :
    Follows R bad x y s s' Q := by
  intro _
  refine ⟨hy.trans hx.symm, h, ?_⟩
  intro a' ha'
  rw [hx] at ha'
  cases ha'
  exact hq

theorem Follows.stop {e : ε} (h : R s s') :
    Follows R bad (Exec.stop e : Exec ε ω σ α) (Exec.stop e : Exec ε ω τ α) s s' Q :=
  fun _ => ⟨rfl, h, fun _ ha => by cases ha⟩

theorem Follows.mono {x : Exec ε ω σ α} {y : Exec ε ω τ α} {R' : σ → τ → Prop} {Q' : α → σ → Prop}
    (hx : Follows R bad x y s s' Q) (hR : ∀ t t', R t t' → R' t t') (hQ : ∀ a t, Q a t → Q' a t) :
    Follows R' bad x y s s' Q' := by
  intro hgood
  obtain ⟨hresult, hstate, hq⟩ := hx hgood
  exact ⟨hresult, hR _ _ hstate, fun a ha => hQ a _ (hq a ha)⟩

theorem Follows.bind {x : Exec ε ω σ α} {y : Exec ε ω τ α} {f : α → Exec ε ω σ β} {g : α → Exec ε ω τ β}
    (hx : Follows R bad x y s s' Q)
    (hf : ∀ a t t', R t t' → Q a t → Follows R bad (f a) (g a) t t' P) :
    Follows R bad (x >>= f) (y >>= g) s s' P := by
  intro hgood
  unfold Follows at hx
  rw [bind_apply] at hgood ⊢
  rw [bind_apply]
  rcases hxs : x s with ⟨e | a, t, l⟩ <;> rcases hys : y s' with ⟨e' | a', t', l'⟩ <;>
    rw [hxs] at hgood <;> rw [hxs, hys] at hx
  · obtain ⟨he, ht, -⟩ := hx fun e₁ h₁ => hgood e₁ (by cases h₁; rfl)
    exact ⟨by cases he; rfl, ht, fun _ ha => by cases ha⟩
  · obtain ⟨he, -⟩ := hx fun e₁ h₁ => hgood e₁ (by cases h₁; rfl)
    cases he
  · obtain ⟨he, -⟩ := hx fun _ h => by cases h
    cases he
  · obtain ⟨ha, ht, hq⟩ := hx fun _ h => by cases h
    cases ha
    exact hf a t t' ht (hq a rfl) hgood

theorem Follows.map {x : Exec ε ω σ α} {y : Exec ε ω τ α} {f : α → β}
    (hx : Follows R bad x y s s' fun a t => P (f a) t) : Follows R bad (f <$> x) (f <$> y) s s' P :=
  Follows.bind hx fun _ _ _ ht hq => Follows.pure ht hq

end Follows

end Exec
end BareBoot
