import Mathlib.Data.List.Basic
import Mathlib.Data.List.Pairwise
import Mathlib.Data.List.Perm.Basic

/-! Tables of regions of an address space, each of one kind. While the regions of a table are apart it says one kind, or
none, for each address. Putting a region into a table, in place of a part of one that is there or beside all of them,
overrides what the table says. -/

namespace BareBoot.Regions

/-! ### Regions -/

structure Region (κ : Type) where
  start : Nat
  size : Nat
  kind : κ
  deriving DecidableEq, Repr

variable {κ : Type}

namespace Region

def stop (r : Region κ) : Nat := r.start + r.size

def Covers (r : Region κ) (a : Nat) : Prop := r.start ≤ a ∧ a < r.stop

instance (r : Region κ) (a : Nat) : Decidable (r.Covers a) := inferInstanceAs (Decidable (_ ∧ _))

def Apart (r s : Region κ) : Prop := r.stop ≤ s.start ∨ s.stop ≤ r.start

instance (r s : Region κ) : Decidable (r.Apart s) := inferInstanceAs (Decidable (_ ∨ _))

def Within (r s : Region κ) : Prop := s.start ≤ r.start ∧ r.stop ≤ s.stop

instance (r s : Region κ) : Decidable (r.Within s) := inferInstanceAs (Decidable (_ ∧ _))

variable {r s t : Region κ} {a : Nat}

theorem Apart.symm (h : r.Apart s) : s.Apart r := Or.symm h

theorem Apart.within (h : s.Apart t) (hr : r.Within s) : r.Apart t := by
  obtain ⟨hstart, hstop⟩ := hr
  rcases h with h | h
  · exact Or.inl (Nat.le_trans hstop h)
  · exact Or.inr (Nat.le_trans h hstart)

theorem Within.trans (h : r.Within s) (h' : s.Within t) : r.Within t := ⟨Nat.le_trans h'.1 h.1, Nat.le_trans h.2 h'.2⟩

theorem Within.covers (h : r.Within s) (ha : r.Covers a) : s.Covers a := ⟨Nat.le_trans h.1 ha.1, Nat.lt_of_lt_of_le ha.2 h.2⟩

theorem Apart.not_covers (h : r.Apart s) (ha : r.Covers a) : ¬s.Covers a := by
  intro ha'
  obtain ⟨hstart, hstop⟩ := ha
  obtain ⟨hstart', hstop'⟩ := ha'
  rcases h with h | h <;> omega

/-- Regions without a common address are apart. -/
theorem apart_of_covers (hr : 0 < r.size) (hs : 0 < s.size) (h : ∀ a, r.Covers a → ¬s.Covers a) : r.Apart s := by
  by_contra hnot
  rw [Apart, not_or] at hnot
  have hmax := h (max r.start s.start)
  rw [Covers, Covers, stop, stop] at hmax
  rw [stop, stop] at hnot
  omega

/-- A region that is not empty is not apart from one that it is part of. -/
theorem Within.not_apart (h : r.Within s) (hr : 0 < r.size) : ¬r.Apart s := by
  intro hapart
  obtain ⟨hstart, hstop⟩ := h
  rw [Apart] at hapart
  rw [stop, stop] at hstop hapart
  omega

/-! What is left of a region around a part of it. -/

def front (d r : Region κ) : Region κ := ⟨d.start, r.start - d.start, d.kind⟩

def back (d r : Region κ) : Region κ := ⟨r.stop, d.stop - r.stop, d.kind⟩

/-- The pieces that are not empty. -/
def remainder (d r : Region κ) : List (Region κ) := [d.front r, d.back r].filter (0 < ·.size)

end Region

open Region

/-! ### Tables -/

def Separate (l : List (Region κ)) : Prop := l.Pairwise Apart

/-- The kind of the first region that covers an address. -/
def kindAt (l : List (Region κ)) (a : Nat) : Option κ := (l.find? (·.Covers a)).map (·.kind)

def override (m : Nat → Option κ) (r : Region κ) : Nat → Option κ := fun a => if r.Covers a then some r.kind else m a

section Tables

variable {l l' : List (Region κ)} {r : Region κ} {a : Nat} {k : κ}

@[simp] theorem kindAt_nil : kindAt ([] : List (Region κ)) = fun _ => none := rfl

theorem kindAt_cons : kindAt (r :: l) = override (kindAt l) r := by
  funext a
  rw [override, kindAt, List.find?_cons]
  by_cases h : r.Covers a
  · simp [h]
  · simp [h, kindAt]

theorem kindAt_eq_some_iff (h : Separate l) : kindAt l a = some k ↔ ∃ r ∈ l, r.Covers a ∧ r.kind = k := by
  induction l with
  | nil => simp
  | cons r l ih =>
      obtain ⟨hr, hl⟩ := List.pairwise_cons.1 h
      rw [kindAt_cons, override, List.exists_mem_cons_iff]
      by_cases ha : r.Covers a
      · rw [if_pos ha, Option.some.injEq]
        constructor
        · intro hk
          exact Or.inl ⟨ha, hk⟩
        · rintro (⟨-, hk⟩ | ⟨s, hs, ha', -⟩)
          · exact hk
          · exact absurd ha' ((hr s hs).not_covers ha)
      · rw [if_neg ha, ih hl]
        simp [ha]

theorem kindAt_eq_none_iff : kindAt l a = none ↔ ∀ r ∈ l, ¬r.Covers a := by
  simp [kindAt]

theorem Separate.perm (h : Separate l) (hperm : l.Perm l') : Separate l' :=
  hperm.pairwise h fun hapart => hapart.symm

theorem kindAt_of_perm (h : Separate l) (hperm : l.Perm l') : kindAt l = kindAt l' := by
  funext a
  apply Option.ext
  intro k
  rw [kindAt_eq_some_iff h, kindAt_eq_some_iff (h.perm hperm)]
  simp only [hperm.mem_iff]

end Tables

/-! ### Placing a region -/

/-- The table `l` with `r` put into it. -/
inductive Placed (l : List (Region κ)) (r : Region κ) (l' : List (Region κ)) : Prop where
  | carved (d : Region κ) (rest : List (Region κ)) (hl : l.Perm (d :: rest)) (hr : r.Within d)
      (hl' : l'.Perm (r :: (d.remainder r ++ rest)))
  | added (hl : ∀ s ∈ l, r.Apart s) (hl' : l'.Perm (r :: l))

section Placed

variable {l l' rest : List (Region κ)} {d r s : Region κ} {a : Nat}

theorem Region.mem_remainder : s ∈ d.remainder r ↔ (s = d.front r ∨ s = d.back r) ∧ 0 < s.size := by
  simp [Region.remainder]

theorem Region.within_of_mem_remainder (hr : r.Within d) (hs : s ∈ d.remainder r) : s.Within d ∧ s.Apart r := by
  obtain ⟨hstart, hstop⟩ := hr
  obtain ⟨rfl | rfl, hsize⟩ := mem_remainder.1 hs
  · rw [Within, Apart, front]
    dsimp only [front, stop] at hsize hstop ⊢
    omega
  · rw [Within, Apart, back]
    dsimp only [back, stop] at hsize hstop ⊢
    omega

theorem Region.remainder_separate (hr : r.Within d) : Separate (d.remainder r) := by
  apply List.Pairwise.filter
  rw [List.pairwise_pair]
  obtain ⟨hstart, hstop⟩ := hr
  left
  dsimp only [front, back, stop]
  omega

/-- An address of the region is in the part, or in what is left. -/
theorem Region.covers_iff (hr : r.Within d) : d.Covers a ↔ r.Covers a ∨ ∃ s ∈ d.remainder r, s.Covers a := by
  obtain ⟨hstart, hstop⟩ := hr
  constructor
  · intro ha
    by_cases hfront : a < r.start
    · refine Or.inr ⟨d.front r, mem_remainder.2 ⟨Or.inl rfl, ?_⟩, ?_⟩
      · dsimp only [Covers, front, stop] at ha ⊢
        omega
      · dsimp only [Covers, front, stop] at ha ⊢
        omega
    · by_cases hback : r.stop ≤ a
      · refine Or.inr ⟨d.back r, mem_remainder.2 ⟨Or.inr rfl, ?_⟩, ?_⟩
        · dsimp only [Covers, back, stop] at ha hback ⊢
          omega
        · dsimp only [Covers, back, stop] at ha hback ⊢
          omega
      · exact Or.inl ⟨Nat.le_of_not_lt hfront, Nat.lt_of_not_le hback⟩
  · rintro (ha | ⟨s, hs, ha⟩)
    · exact Within.covers ⟨hstart, hstop⟩ ha
    · exact (within_of_mem_remainder ⟨hstart, hstop⟩ hs).1.covers ha

theorem separate_carved (hsep : Separate (d :: rest)) (hr : r.Within d) : Separate (r :: (d.remainder r ++ rest)) := by
  obtain ⟨hd, hrest⟩ := List.pairwise_cons.1 hsep
  refine List.pairwise_cons.2 ⟨?_, List.pairwise_append.2 ⟨Region.remainder_separate hr, hrest, ?_⟩⟩
  · rw [List.forall_mem_append]
    exact ⟨fun s hs => (Region.within_of_mem_remainder hr hs).2.symm, fun s hs => (hd s hs).within hr⟩
  · intro s hs t ht
    exact (hd t ht).within (Region.within_of_mem_remainder hr hs).1

theorem kindAt_carved (hsep : Separate (d :: rest)) (hr : r.Within d) :
    kindAt (r :: (d.remainder r ++ rest)) = override (kindAt (d :: rest)) r := by
  have hsep' := separate_carved hsep hr
  funext a
  rw [kindAt_cons, override, override]
  by_cases ha : r.Covers a
  · rw [if_pos ha, if_pos ha]
  rw [if_neg ha, if_neg ha]
  apply Option.ext
  intro k
  rw [kindAt_eq_some_iff (List.pairwise_cons.1 hsep').2, kindAt_eq_some_iff hsep, List.exists_mem_cons_iff,
    Region.covers_iff hr]
  have hkind : ∀ s ∈ d.remainder r, s.kind = d.kind := by
    intro s hs
    obtain ⟨rfl | rfl, -⟩ := Region.mem_remainder.1 hs <;> rfl
  constructor
  · rintro ⟨s, hs, hcovers, hk⟩
    rcases List.mem_append.1 hs with hs | hs
    · exact Or.inl ⟨Or.inr ⟨s, hs, hcovers⟩, (hkind s hs).symm.trans hk⟩
    · exact Or.inr ⟨s, hs, hcovers, hk⟩
  · rintro (⟨hcovers | ⟨s, hs, hcovers⟩, hk⟩ | ⟨s, hs, hcovers, hk⟩)
    · exact absurd hcovers ha
    · exact ⟨s, List.mem_append_left _ hs, hcovers, (hkind s hs).trans hk⟩
    · exact ⟨s, List.mem_append_right _ hs, hcovers, hk⟩

theorem Placed.separate (h : Placed l r l') (hsep : Separate l) : Separate l' := by
  cases h with
  | carved d rest hl hr hl' => exact (separate_carved (hsep.perm hl) hr).perm hl'.symm
  | added hl hl' => exact Separate.perm (List.pairwise_cons.2 ⟨hl, hsep⟩) hl'.symm

/-- What the table says is overridden. -/
theorem Placed.kindAt_eq (h : Placed l r l') (hsep : Separate l) : kindAt l' = override (kindAt l) r := by
  have hsep' := h.separate hsep
  cases h with
  | carved d rest hl hr hl' => rw [kindAt_of_perm hsep' hl', kindAt_carved (hsep.perm hl) hr, kindAt_of_perm hsep hl]
  | added hl hl' => rw [kindAt_of_perm hsep' hl', kindAt_cons]

/-- A range in one region stays in one of that kind, if it is apart from what is placed. -/
theorem Placed.holds (h : Placed l r l') (hs : 0 < s.size) (hapart : s.Apart r) {free : κ → Prop}
    (hholds : ∃ d ∈ l, s.Within d ∧ free d.kind) : ∃ d ∈ l', s.Within d ∧ free d.kind := by
  obtain ⟨e, he, hwithin, hfree⟩ := hholds
  cases h with
  | carved d rest hl hr hl' =>
      rcases List.mem_cons.1 (hl.mem_iff.1 he) with rfl | he
      · obtain ⟨hstart, hstop⟩ := hwithin
        obtain ⟨hstart', hstop'⟩ := hr
        rcases hapart with hfront | hback
        · refine ⟨e.front r, hl'.mem_iff.2 (List.mem_cons_of_mem _ (List.mem_append_left _
            (Region.mem_remainder.2 ⟨Or.inl rfl, ?_⟩))), ?_, hfree⟩
          · dsimp only [front, stop] at hfront ⊢
            omega
          · dsimp only [Within, front, stop] at hfront ⊢
            omega
        · refine ⟨e.back r, hl'.mem_iff.2 (List.mem_cons_of_mem _ (List.mem_append_left _
            (Region.mem_remainder.2 ⟨Or.inr rfl, ?_⟩))), ?_, hfree⟩
          · dsimp only [back, stop] at hback hstop ⊢
            omega
          · dsimp only [Within, back, stop] at hback hstop hstop' ⊢
            omega
      · exact ⟨e, hl'.mem_iff.2 (List.mem_cons_of_mem _ (List.mem_append_right _ he)), hwithin, hfree⟩
  | added hl hl' => exact ⟨e, hl'.mem_iff.2 (List.mem_cons_of_mem _ he), hwithin, hfree⟩

/-- Nothing is put where the table and what is placed have nothing. -/
theorem Placed.apart (h : Placed l r l') (hr : s.Apart r) (hl : ∀ t ∈ l, s.Apart t) : ∀ t ∈ l', s.Apart t := by
  intro t ht
  cases h with
  | carved d rest hperm hwithin hl' =>
      have hd : s.Apart d := hl d (hperm.mem_iff.2 List.mem_cons_self)
      rcases List.mem_cons.1 (hl'.mem_iff.1 ht) with rfl | ht
      · exact hr
      · rcases List.mem_append.1 ht with ht | ht
        · exact (hd.symm.within (Region.within_of_mem_remainder hwithin ht).1).symm
        · exact hl t (hperm.mem_iff.2 (List.mem_cons_of_mem _ ht))
  | added _ hl' =>
      rcases List.mem_cons.1 (hl'.mem_iff.1 ht) with rfl | ht
      · exact hr
      · exact hl t ht

end Placed

/-! ### Runs of placements -/

/-- The regions of a list are put into the table one after the other. -/
inductive PlacedAll : List (Region κ) → List (Region κ) → List (Region κ) → Prop where
  | nil (l : List (Region κ)) : PlacedAll l [] l
  | cons {l m l' : List (Region κ)} {r : Region κ} {rs : List (Region κ)} (h : Placed l r m) (hrest : PlacedAll m rs l') :
      PlacedAll l (r :: rs) l'

theorem PlacedAll.separate {l rs l' : List (Region κ)} (h : PlacedAll l rs l') (hsep : Separate l) : Separate l' := by
  induction h with
  | nil => exact hsep
  | cons h _ ih => exact ih (h.separate hsep)

theorem PlacedAll.kindAt_eq {l rs l' : List (Region κ)} (h : PlacedAll l rs l') (hsep : Separate l) :
    kindAt l' = rs.foldl override (kindAt l) := by
  induction h with
  | nil => rfl
  | cons h _ ih => rw [ih (h.separate hsep), h.kindAt_eq hsep, List.foldl_cons]

theorem foldl_override_apply (rs : List (Region κ)) (m : Nat → Option κ) (a : Nat) :
    rs.foldl override m a = rs.foldl (fun kind r => if r.Covers a then some r.kind else kind) (m a) := by
  induction rs generalizing m with
  | nil => rfl
  | cons r rs ih => rw [List.foldl_cons, List.foldl_cons, ih, override]

/-! Regions placed in any order that puts parts behind what they are parts of. -/

section Nested

variable (free : κ → Prop)

/-- A region fits into a table beside all that is there, or into one region of a free kind. -/
def Fits (l : List (Region κ)) (r : Region κ) : Prop := (∀ s ∈ l, r.Apart s) ∨ ∃ d ∈ l, r.Within d ∧ free d.kind

/-- Each region is apart from the ones before it, or is a part of one that is free. -/
def Nested (rs : List (Region κ)) : Prop :=
  rs.Pairwise fun earlier later => later.Apart earlier ∨ later.Within earlier ∧ free earlier.kind

instance [DecidablePred free] (rs : List (Region κ)) : Decidable (Nested free rs) :=
  inferInstanceAs (Decidable (List.Pairwise _ _))

/-- Among regions, the last one placed first, the region is a part of a free one and apart from the later ones. -/
def Found : List (Region κ) → Region κ → Prop
  | [], _ => False
  | p :: old, r => r.Within p ∧ free p.kind ∨ r.Apart p ∧ Found old r

variable {free}

theorem apart_or_found {old : List (Region κ)} {r : Region κ}
    (h : ∀ p ∈ old, r.Apart p ∨ r.Within p ∧ free p.kind) : (∀ p ∈ old, r.Apart p) ∨ Found free old r := by
  induction old with
  | nil => exact Or.inl fun p hp => absurd hp List.not_mem_nil
  | cons p old ih =>
      obtain ⟨hp, hold⟩ := List.forall_mem_cons.1 h
      rcases hp with hapart | hwithin
      · rcases ih hold with hall | hfound
        · exact Or.inl (List.forall_mem_cons.2 ⟨hapart, hall⟩)
        · exact Or.inr (Or.inr ⟨hapart, hfound⟩)
      · exact Or.inr (Or.inl hwithin)

/-- What a table knows of the regions that were placed in it. -/
structure Records (free : κ → Prop) (old l : List (Region κ)) : Prop where
  separate : Separate l
  apart : ∀ r : Region κ, (∀ p ∈ old, r.Apart p) → ∀ s ∈ l, r.Apart s
  found : ∀ r : Region κ, 0 < r.size → Found free old r → ∃ d ∈ l, r.Within d ∧ free d.kind

theorem Records.empty : Records free [] [] :=
  ⟨List.Pairwise.nil, fun _ _ _ hs => absurd hs List.not_mem_nil, fun _ _ h => h.elim⟩

variable {old l l' : List (Region κ)} {r : Region κ}

theorem Records.fits (h : Records free old l) (hr : 0 < r.size)
    (hold : ∀ p ∈ old, r.Apart p ∨ r.Within p ∧ free p.kind) : Fits free l r :=
  (apart_or_found hold).imp (h.apart r) (h.found r hr)

theorem Records.placed (h : Records free old l) (hplaced : Placed l r l') : Records free (r :: old) l' := by
  refine ⟨hplaced.separate h.separate, fun s hs => ?_, fun s hsize hs => ?_⟩
  · obtain ⟨hr, hold⟩ := List.forall_mem_cons.1 hs
    exact hplaced.apart hr (h.apart s hold)
  · rcases hs with ⟨hwithin, hfree⟩ | ⟨hapart, hfound⟩
    · refine ⟨r, ?_, hwithin, hfree⟩
      cases hplaced with
      | carved d rest hl hr hl' => exact hl'.mem_iff.2 List.mem_cons_self
      | added hl hl' => exact hl'.mem_iff.2 List.mem_cons_self
    · exact hplaced.holds hsize hapart (h.found s hsize hfound)

/-- A step that places what fits places all regions that are nested. -/
theorem foldl_placed {σ α : Type} (table : σ → List (Region κ)) (region : α → Region κ) (Inv : σ → Prop)
    {step : σ → α → σ} {xs : List α}
    (hstep : ∀ s, ∀ x ∈ xs, Inv s → Separate (table s) → Fits free (table s) (region x) →
      Placed (table s) (region x) (table (step s x)) ∧ Inv (step s x))
    (hsize : ∀ x ∈ xs, 0 < (region x).size) (hnested : Nested free (xs.map region)) {s : σ} (hs : Inv s)
    (hrecords : Records free old (table s))
    (hold : ∀ x ∈ xs, ∀ p ∈ old, (region x).Apart p ∨ (region x).Within p ∧ free p.kind) :
    PlacedAll (table s) (xs.map region) (table (xs.foldl step s)) ∧ Inv (xs.foldl step s) := by
  induction xs generalizing s old with
  | nil => exact ⟨.nil _, hs⟩
  | cons x xs ih =>
      obtain ⟨hhead, hrest⟩ := List.pairwise_cons.1 hnested
      rw [List.forall_mem_cons] at hsize hold
      have hfits := hrecords.fits hsize.1 hold.1
      obtain ⟨hput, hinv⟩ := hstep s x List.mem_cons_self hs hrecords.separate hfits
      have hlater : ∀ y ∈ xs, ∀ p ∈ region x :: old, (region y).Apart p ∨ (region y).Within p ∧ free p.kind := by
        intro y hy
        exact List.forall_mem_cons.2 ⟨hhead _ (List.mem_map_of_mem hy), hold.2 y hy⟩
      obtain ⟨hall, hlast⟩ := ih (fun s y hy => hstep s y (List.mem_cons_of_mem _ hy)) hsize.2 hrest hinv
        (hrecords.placed hput) hlater
      exact ⟨.cons hput hall, hlast⟩

end Nested

/-! Regions taken from what is free. -/

/-- Free addresses become a region that is not free. -/
structure Takes (free : κ → Prop) (l : List (Region κ)) (r : Region κ) (l' : List (Region κ)) : Prop where
  placed : Placed l r l'
  size : 0 < r.size
  before : ∀ a, r.Covers a → ∃ k, kindAt l a = some k ∧ free k
  after : ¬free r.kind

inductive TakesAll (free : κ → Prop) : List (Region κ) → List (Region κ) → List (Region κ) → Prop where
  | nil (l : List (Region κ)) : TakesAll free l [] l
  | cons {l m l' : List (Region κ)} {r : Region κ} {rs : List (Region κ)} (h : Takes free l r m)
      (hrest : TakesAll free m rs l') : TakesAll free l (r :: rs) l'

section Takes

variable {free : κ → Prop} {l rs l' : List (Region κ)}

theorem TakesAll.placed (h : TakesAll free l rs l') : PlacedAll l rs l' := by
  induction h with
  | nil => exact .nil _
  | cons h _ ih => exact .cons h.placed ih

/-- What is taken was free, and no address is taken twice. -/
theorem TakesAll.apart (h : TakesAll free l rs l') (hsep : Separate l) :
    rs.Pairwise Apart ∧ ∀ r ∈ rs, 0 < r.size ∧ ∀ a, r.Covers a → ∃ k, kindAt l a = some k ∧ free k := by
  induction h with
  | nil => exact ⟨.nil, fun r hr => absurd hr List.not_mem_nil⟩
  | @cons _ _ _ r rs h _ ih =>
      obtain ⟨hpairwise, hfree⟩ := ih (h.placed.separate hsep)
      rw [h.placed.kindAt_eq hsep] at hfree
      have hlater : ∀ s ∈ rs, ∀ a, s.Covers a → ¬r.Covers a := by
        intro s hs a ha hr
        obtain ⟨k, hk, hkfree⟩ := (hfree s hs).2 a ha
        rw [override, if_pos hr, Option.some.injEq] at hk
        exact h.after (hk ▸ hkfree)
      refine ⟨List.pairwise_cons.2 ⟨fun s hs => ?_, hpairwise⟩, List.forall_mem_cons.2 ⟨⟨h.size, h.before⟩, fun s hs => ?_⟩⟩
      · exact apart_of_covers h.size (hfree s hs).1 fun a ha hs' => hlater s hs a hs' ha
      · refine ⟨(hfree s hs).1, fun a ha => ?_⟩
        obtain ⟨k, hk, hkfree⟩ := (hfree s hs).2 a ha
        rw [override, if_neg (hlater s hs a ha)] at hk
        exact ⟨k, hk, hkfree⟩

end Takes

end BareBoot.Regions
