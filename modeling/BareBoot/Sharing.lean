import Mathlib.Algebra.BigOperators.Group.Finset.Basic
import Mathlib.Algebra.Order.BigOperators.Group.Finset
import Mathlib.Data.Finset.Max
import Mathlib.Logic.Relation

/-! Objects that hold slots, each of which refers to an object, and objects that several slots refer to. What
exists is a finite set of objects. Without cycles each object has a rank that drops along every slot, so
that a walk over the slots ends, and some object nothing refers to as long as any exists. -/

namespace BareBoot.Sharing

open Relation

variable {α : Type*} {slots slots' : α → List α} {S T : Finset α} {a b c x : α}

/-- A slot of `b` refers to `c`. -/
def Refers (slots : α → List α) (S : Finset α) (b c : α) : Prop := b ∈ S ∧ c ∈ slots b

def Closed (slots : α → List α) (S : Finset α) : Prop := ∀ b c, Refers slots S b c → c ∈ S

def Acyclic (slots : α → List α) (S : Finset α) : Prop := ∀ x, ¬TransGen (Refers slots S) x x

/-! ### Counting -/

section Counting

variable [DecidableEq α]

/-- How many slots of the objects refer to `x`. -/
def references (slots : α → List α) (S : Finset α) (x : α) : Nat := ∑ b ∈ S, (slots b).count x

theorem references_eq_zero : references slots S x = 0 ↔ ∀ b, ¬Refers slots S b x := by
  unfold references Refers
  rw [Finset.sum_eq_zero_iff]
  constructor
  · intro h b hb
    exact List.count_eq_zero.mp (h b hb.1) hb.2
  · intro h b hb
    exact List.count_eq_zero.mpr fun hx => h b ⟨hb, hx⟩

theorem references_congr (h : ∀ b ∈ S, slots b = slots' b) : references slots S x = references slots' S x :=
  Finset.sum_congr rfl fun b hb => by rw [h b hb]

/-- The slots of one object and those of the others. -/
theorem references_erase (ha : a ∈ S) : references slots S x = (slots a).count x + references slots (S.erase a) x :=
  (Finset.add_sum_erase S (fun b => (slots b).count x) ha).symm

theorem references_insert (ha : a ∉ S) :
    references slots (insert a S) x = (slots a).count x + references slots S x :=
  Finset.sum_insert ha

end Counting

/-! ### Walks -/

theorem Refers.mono (h : Refers slots S b c) (hle : S ⊆ T) (hslots : slots b = slots' b) : Refers slots' T b c :=
  ⟨hle h.1, hslots ▸ h.2⟩

theorem refers_congr (h : ∀ b ∈ S, slots b = slots' b) : Refers slots S = Refers slots' S := by
  funext b c
  apply propext
  constructor
  · exact fun href => href.mono subset_rfl (h b href.1)
  · exact fun href => href.mono subset_rfl (h b href.1).symm

theorem Closed.congr (h : Closed slots S) (heq : ∀ b ∈ S, slots b = slots' b) : Closed slots' S := by
  unfold Closed
  rw [← refers_congr heq]
  exact h

theorem Acyclic.congr (h : Acyclic slots S) (heq : ∀ b ∈ S, slots b = slots' b) : Acyclic slots' S := by
  unfold Acyclic
  rw [← refers_congr heq]
  exact h

theorem Acyclic.mono (h : Acyclic slots T) (hle : S ⊆ T) : Acyclic slots S := fun x hx =>
  have hrefers : Refers slots S ≤ Refers slots T := fun _ _ href => href.mono hle rfl
  h x (TransGen.mono hrefers x x hx)

theorem Closed.reached (h : Closed slots S) (hx : TransGen (Refers slots S) x c) : c ∈ S := by
  induction hx with
  | single href => exact h _ _ href
  | tail _ href _ => exact h _ _ href

/-- A walk with one more slot is a walk without it, or goes to that slot and on from it. -/
theorem walk_cases {r : α → α → Prop} (hr : ∀ b c, r b c → Refers slots S b c ∨ b = a ∧ c = x) (h : TransGen r b c) :
    TransGen (Refers slots S) b c ∨ ReflTransGen (Refers slots S) b a ∧ ReflTransGen (Refers slots S) x c := by
  induction h with
  | single hstep =>
      rcases hr _ _ hstep with href | ⟨rfl, rfl⟩
      · exact Or.inl (TransGen.single href)
      · exact Or.inr ⟨ReflTransGen.refl, ReflTransGen.refl⟩
  | tail hwalk hstep ih =>
      rcases hr _ _ hstep with href | ⟨rfl, rfl⟩
      · rcases ih with hbefore | ⟨hto, hon⟩
        · exact Or.inl (hbefore.tail href)
        · exact Or.inr ⟨hto, hon.tail href⟩
      · rcases ih with hbefore | ⟨hto, _⟩
        · exact Or.inr ⟨hbefore.to_reflTransGen, ReflTransGen.refl⟩
        · exact Or.inr ⟨hto, ReflTransGen.refl⟩

/-- A slot that does not lead back to its object closes no cycle. -/
theorem Acyclic.slot (h : Acyclic slots S) (hr : ∀ b c, Refers slots' S b c → Refers slots S b c ∨ b = a ∧ c = x)
    (hback : ¬ReflTransGen (Refers slots S) x a) : Acyclic slots' S := by
  intro y hy
  rcases walk_cases hr hy with hold | ⟨hto, hon⟩
  · exact h y hold
  · exact hback (hon.trans hto)

/-- Nothing refers to a new object. -/
theorem Acyclic.fresh [DecidableEq α] (h : Acyclic slots S) (hclosed : Closed slots S) (ha : a ∉ S)
    (heq : ∀ b ∈ S, slots b = slots' b)     (hslots : ∀ c ∈ slots' a, c ∈ S) : Acyclic slots' (insert a S) := by
  have hinto : ∀ b c, Refers slots' (insert a S) b c → c ∈ S := by
    intro b c href
    rcases Finset.mem_insert.mp href.1 with rfl | hb
    · exact hslots c href.2
    · exact hclosed b c ⟨hb, heq b hb ▸ href.2⟩
  have hold : ∀ b c, TransGen (Refers slots' (insert a S)) b c → b ∈ S → TransGen (Refers slots S) b c := by
    intro b c hwalk hb
    induction hwalk with
    | single href => exact TransGen.single ⟨hb, heq b hb ▸ href.2⟩
    | tail hbefore href ih => exact ih.tail ⟨hclosed.reached ih, heq _ (hclosed.reached ih) ▸ href.2⟩
  intro x hx
  have hmem : x ∈ S := by
    cases hx with
    | single href => exact hinto _ _ href
    | tail _ href => exact hinto _ _ href
  exact h x (hold x x hx hmem)

/-! ### Ranks -/

open scoped Classical in
/-- How many objects a walk from `x` reaches. -/
noncomputable def rank (slots : α → List α) (S : Finset α) (x : α) : Nat :=
  (S.filter fun c => TransGen (Refers slots S) x c).card

open scoped Classical in
theorem rank_le : rank slots S x ≤ S.card := Finset.card_filter_le _ _

theorem Acyclic.rank_lt (h : Acyclic slots S) (hclosed : Closed slots S) (href : Refers slots S b c) :
    rank slots S c < rank slots S b := by
  classical
  apply Finset.card_lt_card
  rw [Finset.ssubset_iff_of_subset]
  · refine ⟨c, Finset.mem_filter.mpr ⟨hclosed b c href, TransGen.single href⟩, ?_⟩
    intro hmem
    exact h c (Finset.mem_filter.mp hmem).2
  · intro d hd
    rw [Finset.mem_filter] at hd ⊢
    exact ⟨hd.1, TransGen.head href hd.2⟩

/-- What exists without cycles has an object that nothing refers to. -/
theorem Acyclic.exists_unheld [DecidableEq α] (h : Acyclic slots S) (hclosed : Closed slots S) (hne : S.Nonempty) :
    ∃ x ∈ S, references slots S x = 0 := by
  obtain ⟨x, hx, hmax⟩ := S.exists_max_image (rank slots S) hne
  refine ⟨x, hx, references_eq_zero.mpr fun b href => ?_⟩
  have hlt := h.rank_lt hclosed href
  have hle := hmax b href.1
  omega

end BareBoot.Sharing
