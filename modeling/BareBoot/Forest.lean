import Mathlib.Tactic

/-! Ordered forests in first-child/next-sibling form: the shape of a linked structure whose cells
carry one pointer to their first child and one to their next sibling. -/

namespace BareBoot

inductive Forest (α : Type) where
  | nil
  | cons (a : α) (sub next : Forest α)
  deriving DecidableEq, Repr

/-- One labelled node over its forest of children. -/
structure Tree (α : Type) where
  label : α
  kids : Forest α
  deriving DecidableEq, Repr

namespace Forest
variable {α β γ : Type}

/-- The two forests side by side. -/
def append : Forest α → Forest α → Forest α
  | nil, g => g
  | cons a sub next, g => cons a sub (append next g)

instance : Append (Forest α) := ⟨append⟩

@[simp] theorem nil_append (g : Forest α) : nil ++ g = g := rfl

@[simp] theorem cons_append (a : α) (sub next g : Forest α) :
    cons a sub next ++ g = cons a sub (next ++ g) := rfl

@[simp] theorem append_nil (f : Forest α) : f ++ nil = f := by
  induction f with
  | nil => rfl
  | cons a sub next _ ih => rw [cons_append, ih]

theorem append_assoc (f g h : Forest α) : f ++ g ++ h = f ++ (g ++ h) := by
  induction f with
  | nil => rfl
  | cons a sub next _ ih => simp only [cons_append, ih]

@[simp] theorem append_eq_nil {f g : Forest α} : f ++ g = nil ↔ f = nil ∧ g = nil := by
  cases f <;> simp

/-- The forest of one tree. -/
def single (t : Tree α) : Forest α := cons t.label t.kids nil

@[simp] theorem single_ne_nil (t : Tree α) : single t ≠ nil := by
  simp [single]

/-- The trees of the forest, in order. -/
def trees : Forest α → List (Tree α)
  | nil => []
  | cons a sub next => ⟨a, sub⟩ :: trees next

/-- All labels, each before those of its children and of its later siblings. -/
def labels : Forest α → List α
  | nil => []
  | cons a sub next => a :: (labels sub ++ labels next)

@[simp] theorem labels_append (f g : Forest α) : (f ++ g).labels = f.labels ++ g.labels := by
  induction f with
  | nil => rfl
  | cons a sub next _ ih => simp [labels, ih]

def map (h : α → β) : Forest α → Forest β
  | nil => nil
  | cons a sub next => cons (h a) (map h sub) (map h next)

@[simp] theorem map_append (h : α → β) (f g : Forest α) : (f ++ g).map h = f.map h ++ g.map h := by
  induction f with
  | nil => rfl
  | cons a sub next _ ih => simp [map, ih]

@[simp] theorem map_eq_nil {h : α → β} {f : Forest α} : f.map h = nil ↔ f = nil := by
  cases f <;> simp [map]

end Forest
end BareBoot
