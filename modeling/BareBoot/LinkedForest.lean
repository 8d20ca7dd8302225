import BareBoot.Forest

/-! Forests laid out in memory: a cell has an address, a body, a link to its first child and a link to
its next sibling. A `Partition` says that the cells there are belong to a number of lists, each laid out
on its own, and to some cells taken out of every list. From it follows what linked structures are asked
for: no cell is linked twice, none reaches itself, and lists with different heads share nothing. -/

namespace BareBoot

structure Cell (β : Type) where
  body : β
  sub : Option Nat
  next : Option Nat
  deriving DecidableEq

/-- A forest of cells: every node with the address it lies at. -/
abbrev Cells (β : Type) := Forest (Nat × β)

namespace Cells
variable {β : Type}

def head : Cells β → Option Nat
  | .nil => none
  | .cons cell _ _ => some cell.1

def addresses (f : Cells β) : List Nat := f.labels.map Prod.fst

/-- The address of the last cell of the top list. -/
def last : Cells β → Option Nat
  | .nil => none
  | .cons cell _ .nil => some cell.1
  | .cons _ _ (.cons cell sub next) => last (.cons cell sub next)

@[simp] theorem addresses_nil : addresses (.nil : Cells β) = [] := rfl

@[simp] theorem addresses_cons (c : Nat × β) (sub next : Cells β) :
    addresses (.cons c sub next) = c.1 :: (addresses sub ++ addresses next) := by
  simp [addresses, Forest.labels]

@[simp] theorem addresses_append (f g : Cells β) : addresses (f ++ g) = addresses f ++ addresses g := by
  simp [addresses]

theorem mem_of_head {f : Cells β} {a : Nat} (h : head f = some a) : a ∈ addresses f := by
  cases f with
  | nil => cases h
  | cons cell sub next =>
      cases h
      simp

theorem mem_of_last {f : Cells β} {a : Nat} (h : last f = some a) : a ∈ addresses f := by
  induction f with
  | nil => cases h
  | cons cell sub next _ ih =>
      cases next with
      | nil =>
          cases h
          simp
      | cons cell' sub' next' =>
          have := ih h
          simp only [addresses_cons, List.mem_cons, List.mem_append] at this ⊢
          tauto

theorem last_append_cons (f : Cells β) (cell : Nat × β) (sub : Cells β) :
    last (f ++ .cons cell sub .nil) = some cell.1 := by
  induction f with
  | nil => rfl
  | cons c s next _ ih =>
      cases next with
      | nil => rfl
      | cons c' s' next' => exact ih

end Cells

/-! ### Layout -/

section Layout
variable {β : Type} {cell cell' : Nat → Option (Cell β)}

/-- The forest is laid out in memory. -/
def Linked (cell : Nat → Option (Cell β)) : Cells β → Prop
  | .nil => True
  | .cons c sub next =>
      cell c.1 = some ⟨c.2, Cells.head sub, Cells.head next⟩ ∧ Linked cell sub ∧ Linked cell next

theorem Linked.congr {f : Cells β} (h : Linked cell f)
    (hsame : ∀ a ∈ Cells.addresses f, cell' a = cell a) : Linked cell' f := by
  induction f with
  | nil => trivial
  | cons c sub next ihs ihn =>
      obtain ⟨a, b⟩ := c
      simp only [Cells.addresses_cons, List.mem_cons, List.mem_append] at hsame
      obtain ⟨hc, hs, hn⟩ := h
      refine ⟨?_, ihs hs fun x hx => hsame x (by tauto), ihn hn fun x hx => hsame x (by tauto)⟩
      rw [hsame a (Or.inl rfl), hc]

theorem Linked.isSome {f : Cells β} (h : Linked cell f) {a : Nat} (ha : a ∈ Cells.addresses f) :
    (cell a).isSome := by
  induction f with
  | nil => simp at ha
  | cons c sub next ihs ihn =>
      obtain ⟨x, b⟩ := c
      obtain ⟨hc, hs, hn⟩ := h
      simp only [Cells.addresses_cons, List.mem_cons, List.mem_append] at ha
      rcases ha with rfl | ha | ha
      · rw [hc]
        rfl
      · exact ihs hs ha
      · exact ihn hn ha

/-- The last cell links nothing. -/
theorem Linked.last_next {f : Cells β} (h : Linked cell f) {a : Nat} (ha : Cells.last f = some a) :
    ∃ b sub, cell a = some ⟨b, sub, none⟩ := by
  induction f with
  | nil => cases ha
  | cons c sub next _ ih =>
      obtain ⟨hc, -, hn⟩ := h
      cases next with
      | nil =>
          cases ha
          exact ⟨c.2, Cells.head sub, hc⟩
      | cons c' s' n' => exact ih hn ha

/-- Linking the last cell of one forest to the head of another puts the two side by side. -/
theorem Linked.append {f g : Cells β} {a : Nat} {b : β} {sub : Option Nat} (hf : Linked cell f)
    (hg : Linked cell g) (hnodup : (Cells.addresses f ++ Cells.addresses g).Nodup)
    (hlast : Cells.last f = some a) (ha : cell a = some ⟨b, sub, none⟩)
    (hset : cell' a = some ⟨b, sub, Cells.head g⟩) (hsame : ∀ x, x ≠ a → cell' x = cell x) :
    Linked cell' (f ++ g) := by
  have hg' : Linked cell' g := by
    refine hg.congr fun x hx => hsame x ?_
    rintro rfl
    exact (List.disjoint_of_nodup_append hnodup) (Cells.mem_of_last hlast) hx
  induction f with
  | nil => cases hlast
  | cons c s next _ ih =>
      obtain ⟨x, y⟩ := c
      obtain ⟨hc, hs, hn⟩ := hf
      simp only [Cells.addresses_cons, List.cons_append, List.append_assoc, List.nodup_cons,
        List.mem_append, not_or] at hnodup
      obtain ⟨⟨hxs, hxn, hxg⟩, hrest⟩ := hnodup
      have hdisj := List.disjoint_of_nodup_append hrest
      cases next with
      | nil =>
          cases hlast
          refine ⟨?_, ?_, hg'⟩
          · rw [hc] at ha
            cases ha
            exact hset
          · refine hs.congr fun z hz => hsame z ?_
            rintro rfl
            exact hxs hz
      | cons c' s' n' =>
          have hmem : a ∈ Cells.addresses (.cons c' s' n') := Cells.mem_of_last hlast
          have hax : x ≠ a := by
            rintro rfl
            exact hxn hmem
          refine ⟨?_, ?_, ih hn hrest.of_append_right hlast⟩
          · rw [hsame x hax, hc]
            rfl
          · refine hs.congr fun z hz => hsame z ?_
            rintro rfl
            exact hdisj hz (List.mem_append_left _ hmem)

end Layout

/-! ### Partitions of the memory -/

section Partition
variable {β : Type} {cell cell' : Nat → Option (Cell β)}

/-- The addresses that some lists, and some cells in none, take up. -/
def owned (pending : List Nat) (lists : List (Cells β)) : List Nat :=
  pending ++ lists.flatMap Cells.addresses

structure Partition (cell : Nat → Option (Cell β)) (pending : List Nat) (lists : List (Cells β)) :
    Prop where
  linked : ∀ f ∈ lists, Linked cell f
  nodup : (owned pending lists).Nodup
  cover : ∀ a, (cell a).isSome ↔ a ∈ owned pending lists

variable {pending : List Nat} {lists : List (Cells β)}

/-- Lists and pending cells can be exchanged for others that take up the same addresses. -/
theorem Partition.exchange {pending' : List Nat} {lists' : List (Cells β)}
    (h : Partition cell pending lists) (hperm : (owned pending lists).Perm (owned pending' lists'))
    (hlinked : ∀ f ∈ lists', Linked cell' f) (hsome : ∀ a, (cell' a).isSome ↔ (cell a).isSome) :
    Partition cell' pending' lists' where
  linked := hlinked
  nodup := hperm.nodup_iff.1 h.nodup
  cover a := by rw [hsome, h.cover, hperm.mem_iff]

theorem Partition.perm {lists' : List (Cells β)} (h : Partition cell pending lists)
    (hperm : lists.Perm lists') : Partition cell pending lists' :=
  h.exchange ((hperm.flatMap_right _).append_left pending)
    (fun f hf => h.linked f (hperm.mem_iff.2 hf)) fun _ => Iff.rfl

/-- A list of the partition is not touched by a change at a pending cell. -/
theorem Partition.linked_of_pending (h : Partition cell pending lists) {a : Nat} (ha : a ∈ pending)
    (hsame : ∀ x, x ≠ a → cell' x = cell x) {f : Cells β} (hf : f ∈ lists) : Linked cell' f := by
  refine (h.linked f hf).congr fun x hx => hsame x ?_
  rintro rfl
  exact (List.disjoint_of_nodup_append h.nodup) ha (List.mem_flatMap.2 ⟨f, hf, hx⟩)

/-- Changing a pending cell. -/
theorem Partition.set_pending (h : Partition cell pending lists) {a : Nat} (ha : a ∈ pending)
    (hsome : (cell' a).isSome) (hsame : ∀ x, x ≠ a → cell' x = cell x) : Partition cell' pending lists := by
  refine h.exchange (List.Perm.refl _) (fun f hf => h.linked_of_pending ha hsame hf) ?_
  intro x
  by_cases hxa : x = a
  · rw [hxa, h.cover]
    exact ⟨fun _ => List.mem_append_left _ ha, fun _ => hsome⟩
  · rw [hsame x hxa]

/-- A pending cell that links a list becomes the one tree over it. -/
theorem Partition.settle {a : Nat} {b : β} {sub : Cells β} (h : Partition cell (a :: pending) (sub :: lists))
    (ha : cell a = some ⟨b, Cells.head sub, none⟩) :
    Partition cell pending (.cons (a, b) sub .nil :: lists) := by
  refine h.exchange ?_ ?_ fun _ => Iff.rfl
  · simp only [owned, List.flatMap_cons, Cells.addresses_cons, Cells.addresses_nil, List.append_nil,
      List.cons_append]
    exact (List.perm_middle).symm
  · intro f hf
    rcases List.mem_cons.1 hf with rfl | hf
    · exact ⟨ha, h.linked sub (by simp), trivial⟩
    · exact h.linked f (List.mem_cons_of_mem _ hf)

/-- A pending cell that links a list as its next becomes the head of that list. -/
theorem Partition.push {a : Nat} {b : β} {next : Cells β} (h : Partition cell (a :: pending) (next :: lists))
    (ha : cell a = some ⟨b, none, Cells.head next⟩) :
    Partition cell pending (.cons (a, b) .nil next :: lists) := by
  refine h.exchange ?_ ?_ fun _ => Iff.rfl
  · simp only [owned, List.flatMap_cons, Cells.addresses_cons, Cells.addresses_nil, List.nil_append,
      List.cons_append]
    exact (List.perm_middle).symm
  · intro f hf
    rcases List.mem_cons.1 hf with rfl | hf
    · exact ⟨ha, trivial, h.linked next (by simp)⟩
    · exact h.linked f (List.mem_cons_of_mem _ hf)

/-- The head of a list is taken out; what it linked are lists of their own. -/
theorem Partition.split {a : Nat} {b : β} {sub next : Cells β}
    (h : Partition cell pending (.cons (a, b) sub next :: lists)) :
    Partition cell (a :: pending) (sub :: next :: lists) := by
  obtain ⟨-, hsub, hnext⟩ := h.linked _ List.mem_cons_self
  refine h.exchange ?_ ?_ fun _ => Iff.rfl
  · simp only [owned, List.flatMap_cons, Cells.addresses_cons, List.cons_append, List.append_assoc]
    exact List.perm_middle
  · intro f hf
    rcases List.mem_cons.1 hf with rfl | hf
    · exact hsub
    · rcases List.mem_cons.1 hf with rfl | hf
      · exact hnext
      · exact h.linked f (List.mem_cons_of_mem _ hf)

theorem Partition.cell_head {a : Nat} {b : β} {sub next : Cells β}
    (h : Partition cell pending (.cons (a, b) sub next :: lists)) :
    cell a = some ⟨b, Cells.head sub, Cells.head next⟩ :=
  (h.linked _ List.mem_cons_self).1

@[simp] theorem Partition.cons_nil :
    Partition cell pending (.nil :: lists) ↔ Partition cell pending lists := by
  constructor
  · intro h
    exact ⟨fun f hf => h.linked f (List.mem_cons_of_mem _ hf), h.nodup, h.cover⟩
  · intro h
    refine ⟨fun f hf => ?_, h.nodup, h.cover⟩
    rcases List.mem_cons.1 hf with rfl | hf
    · trivial
    · exact h.linked f hf

/-- A cell at a new address is pending. -/
theorem Partition.fresh (h : Partition cell pending lists) {a : Nat} (ha : cell a = none)
    (hset : (cell' a).isSome) (hsame : ∀ x, x ≠ a → cell' x = cell x) :
    Partition cell' (a :: pending) lists := by
  have hnot : a ∉ owned pending lists := by
    rw [← h.cover, ha]
    exact Bool.false_ne_true
  refine ⟨?_, List.nodup_cons.2 ⟨hnot, h.nodup⟩, ?_⟩
  · intro f hf
    refine (h.linked f hf).congr fun x hx => hsame x ?_
    rintro rfl
    exact hnot (List.mem_append_right _ (List.mem_flatMap.2 ⟨f, hf, hx⟩))
  · intro x
    simp only [owned, List.cons_append, List.mem_cons]
    by_cases hxa : x = a
    · rw [hxa]
      exact ⟨fun _ => Or.inl rfl, fun _ => hset⟩
    · rw [hsame x hxa, h.cover]
      exact ⟨Or.inr, fun hx => hx.resolve_left hxa⟩

/-- Two lists are put side by side by linking the last cell of the first to the second. -/
theorem Partition.append {f g : Cells β} {a : Nat} {b : β} {sub : Option Nat}
    (h : Partition cell pending (f :: g :: lists)) (hlast : Cells.last f = some a)
    (ha : cell a = some ⟨b, sub, none⟩) (hset : cell' a = some ⟨b, sub, Cells.head g⟩)
    (hsame : ∀ x, x ≠ a → cell' x = cell x) : Partition cell' pending ((f ++ g) :: lists) := by
  have hnodup := h.nodup.of_append_right
  rw [List.flatMap_cons, List.flatMap_cons, ← List.append_assoc] at hnodup
  refine h.exchange ?_ ?_ ?_
  · simp only [owned, List.flatMap_cons, Cells.addresses_append, List.append_assoc]
    exact List.Perm.refl _
  · intro k hk
    rcases List.mem_cons.1 hk with rfl | hk
    · exact (h.linked f (by simp)).append (h.linked g (by simp)) hnodup.of_append_left hlast ha hset hsame
    · refine (h.linked k (by simp [hk])).congr fun x hx => hsame x ?_
      rintro rfl
      exact (List.disjoint_of_nodup_append hnodup) (List.mem_append_left _ (Cells.mem_of_last hlast))
        (List.mem_flatMap.2 ⟨k, hk, hx⟩)
  · intro x
    by_cases hxa : x = a
    · rw [hxa, ha, hset]
      exact Iff.rfl
    · rw [hsame x hxa]

end Partition

/-! ### Soundness -/

section Sound
variable {β : Type} {cell : Nat → Option (Cell β)}

/-- The link stored at a place: a cell and which of its two links. -/
def linkAt (cell : Nat → Option (Cell β)) (place : Nat × Bool) : Option Nat :=
  (cell place.1).bind fun c => if place.2 then c.next else c.sub

/-- One cell links the other. -/
def Links (cell : Nat → Option (Cell β)) (a b : Nat) : Prop := ∃ side, linkAt cell (a, side) = some b

/-- No cell is linked from two places, and none is linked from itself over any number of links. -/
structure LinksSound (cell : Nat → Option (Cell β)) : Prop where
  once : ∀ p q a, linkAt cell p = some a → linkAt cell q = some a → p = q
  acyclic : ∀ a, ¬Relation.TransGen (Links cell) a a

/-- A link within a laid out forest stays within it and does not lead to its head. -/
theorem Linked.link_mem {f : Cells β} (h : Linked cell f) (hnodup : (Cells.addresses f).Nodup)
    {p : Nat × Bool} (hp : p.1 ∈ Cells.addresses f) {a : Nat} (ha : linkAt cell p = some a) :
    a ∈ Cells.addresses f ∧ Cells.head f ≠ some a := by
  induction f with
  | nil => simp at hp
  | cons c sub next ihs ihn =>
      obtain ⟨hc, hs, hn⟩ := h
      simp only [Cells.addresses_cons, List.nodup_cons, List.mem_append, not_or] at hnodup hp ⊢
      obtain ⟨⟨hcs, hcn⟩, hrest⟩ := hnodup
      have key : a ∈ Cells.addresses sub ∨ a ∈ Cells.addresses next := by
        rcases List.mem_cons.1 hp with hpc | hp
        · rw [linkAt, hpc, hc, Option.bind_some] at ha
          split at ha
          · exact Or.inr (Cells.mem_of_head ha)
          · exact Or.inl (Cells.mem_of_head ha)
        · rcases List.mem_append.1 hp with hp | hp
          · exact Or.inl (ihs hs hrest.of_append_left hp).1
          · exact Or.inr (ihn hn hrest.of_append_right hp).1
      refine ⟨by simp only [List.mem_cons, List.mem_append]; exact Or.inr key, ?_⟩
      intro hhead
      cases hhead
      rcases key with h | h
      · exact hcs h
      · exact hcn h

/-- Within a laid out forest no cell is linked twice. -/
theorem Linked.once {f : Cells β} (h : Linked cell f) (hnodup : (Cells.addresses f).Nodup)
    {p q : Nat × Bool} (hp : p.1 ∈ Cells.addresses f) (hq : q.1 ∈ Cells.addresses f) {a : Nat}
    (hpa : linkAt cell p = some a) (hqa : linkAt cell q = some a) : p = q := by
  induction f with
  | nil => simp at hp
  | cons c sub next ihs ihn =>
      obtain ⟨hc, hs, hn⟩ := h
      simp only [Cells.addresses_cons, List.nodup_cons, List.mem_append, not_or] at hnodup
      obtain ⟨⟨hcs, hcn⟩, hrest⟩ := hnodup
      have hdisj := List.disjoint_of_nodup_append hrest
      -- Where a link to `a` can stand: in the head, within its children, within its siblings.
      have place : ∀ r : Nat × Bool, r.1 ∈ Cells.addresses (.cons c sub next) → linkAt cell r = some a →
          (r = (c.1, false) ∧ Cells.head sub = some a) ∨ (r = (c.1, true) ∧ Cells.head next = some a) ∨
            (r.1 ∈ Cells.addresses sub ∧ a ∈ Cells.addresses sub ∧ Cells.head sub ≠ some a) ∨
              (r.1 ∈ Cells.addresses next ∧ a ∈ Cells.addresses next ∧ Cells.head next ≠ some a) := by
        rintro ⟨x, side⟩ hr hra
        simp only [Cells.addresses_cons, List.mem_cons, List.mem_append] at hr
        rcases hr with rfl | hr | hr
        · rw [linkAt, hc, Option.bind_some] at hra
          cases side
          · exact Or.inl ⟨rfl, hra⟩
          · exact Or.inr (Or.inl ⟨rfl, hra⟩)
        · exact Or.inr (Or.inr (Or.inl ⟨hr, hs.link_mem hrest.of_append_left hr hra⟩))
        · exact Or.inr (Or.inr (Or.inr ⟨hr, hn.link_mem hrest.of_append_right hr hra⟩))
      have hsub : Cells.head sub = some a → a ∈ Cells.addresses sub := Cells.mem_of_head
      have hnext : Cells.head next = some a → a ∈ Cells.addresses next := Cells.mem_of_head
      rcases place p hp hpa with ⟨rfl, h1⟩ | ⟨rfl, h1⟩ | ⟨h1, h2, h3⟩ | ⟨h1, h2, h3⟩ <;>
        rcases place q hq hqa with ⟨rfl, k1⟩ | ⟨rfl, k1⟩ | ⟨k1, k2, k3⟩ | ⟨k1, k2, k3⟩
      · rfl
      · exact absurd (hnext k1) (hdisj (hsub h1))
      · exact absurd h1 k3
      · exact absurd k2 (hdisj (hsub h1))
      · exact absurd (hnext h1) (hdisj (hsub k1))
      · rfl
      · exact absurd (hnext h1) (hdisj k2)
      · exact absurd h1 k3
      · exact absurd k1 h3
      · exact absurd (hnext k1) (hdisj h2)
      · exact ihs hs hrest.of_append_left h1 k1
      · exact absurd k2 (hdisj h2)
      · exact absurd h2 (hdisj (hsub k1))
      · exact absurd k1 h3
      · exact absurd h2 (hdisj k2)
      · exact ihn hn hrest.of_append_right h1 k1

/-- From a cell of a laid out forest only finitely many links can be followed. -/
theorem Linked.acc {f : Cells β} (h : Linked cell f) {a : Nat} (ha : a ∈ Cells.addresses f) :
    Acc (fun x y => Links cell y x) a := by
  induction f generalizing a with
  | nil => simp at ha
  | cons c sub next ihs ihn =>
      obtain ⟨hc, hs, hn⟩ := h
      simp only [Cells.addresses_cons, List.mem_cons, List.mem_append] at ha
      rcases ha with rfl | ha | ha
      · refine Acc.intro _ ?_
        rintro b ⟨side, hb⟩
        replace hb : linkAt cell (c.1, side) = some b := hb
        rw [linkAt, hc, Option.bind_some] at hb
        split at hb
        · exact ihn hn (Cells.mem_of_head hb)
        · exact ihs hs (Cells.mem_of_head hb)
      · exact ihs hs ha
      · exact ihn hn ha

/-- What a laid out forest reaches are its own cells. -/
theorem Linked.reach_mem {f : Cells β} (h : Linked cell f) (hnodup : (Cells.addresses f).Nodup) {a b : Nat}
    (ha : a ∈ Cells.addresses f) (hab : Relation.ReflTransGen (Links cell) a b) :
    b ∈ Cells.addresses f := by
  induction hab with
  | refl => exact ha
  | tail _ hstep ih =>
      obtain ⟨side, hb⟩ := hstep
      exact (h.link_mem hnodup ih hb).1

variable {lists : List (Cells β)}

theorem Partition.mem_list (h : Partition cell [] lists) {a : Nat} (ha : (cell a).isSome) :
    ∃ f ∈ lists, a ∈ Cells.addresses f := by
  have := (h.cover a).1 ha
  rwa [owned, List.nil_append, List.mem_flatMap] at this

theorem Partition.nodup_list {pending : List Nat} (h : Partition cell pending lists) {f : Cells β}
    (hf : f ∈ lists) : (Cells.addresses f).Nodup :=
  (List.nodup_flatMap.1 h.nodup.of_append_right).1 f hf

/-- The list a cell belongs to. -/
theorem Partition.list_unique {pending : List Nat} (h : Partition cell pending lists) {f g : Cells β}
    (hf : f ∈ lists) (hg : g ∈ lists) {a : Nat} (haf : a ∈ Cells.addresses f) (hag : a ∈ Cells.addresses g) :
    f = g := by
  by_contra hne
  have hpair := (List.nodup_flatMap.1 h.nodup.of_append_right).2
  have hsymm : Std.Symm (fun f g : Cells β => List.Disjoint (Cells.addresses f) (Cells.addresses g)) :=
    ⟨fun _ _ hd => hd.symm⟩
  exact (hpair.forall hf hg hne) haf hag

theorem not_rel_self_of_acc {α : Type} {r : α → α → Prop} {a : α} (h : Acc r a) : ¬r a a := by
  induction h with
  | intro x _ ih => exact fun hx => ih x hx hx

theorem linkAt_isSome {p : Nat × Bool} {a : Nat} (h : linkAt cell p = some a) : (cell p.1).isSome := by
  rw [linkAt] at h
  rcases hc : cell p.1 with _ | c
  · rw [hc] at h
    cases h
  · rfl

theorem Partition.linksSound (h : Partition cell [] lists) : LinksSound cell where
  once := by
    intro p q a hp hq
    obtain ⟨f, hf, hpf⟩ := h.mem_list (linkAt_isSome hp)
    obtain ⟨g, hg, hqg⟩ := h.mem_list (linkAt_isSome hq)
    have haf := ((h.linked f hf).link_mem (h.nodup_list hf) hpf hp).1
    have hag := ((h.linked g hg).link_mem (h.nodup_list hg) hqg hq).1
    have hfg := h.list_unique hf hg haf hag
    subst hfg
    exact (h.linked f hf).once (h.nodup_list hf) hpf hqg hp hq
  acyclic := by
    intro a hcycle
    have hacc : Acc (fun x y => Links cell y x) a := by
      obtain ⟨b, ⟨side, hb⟩, -⟩ := (Relation.TransGen.head'_iff).1 hcycle
      obtain ⟨f, hf, haf⟩ := h.mem_list (linkAt_isSome hb)
      exact (h.linked f hf).acc haf
    have hswap : Relation.TransGen (fun x y => Links cell y x) a a := Relation.transGen_swap.2 hcycle
    exact not_rel_self_of_acc hacc.transGen hswap

/-- The head of a list is linked from nowhere. -/
theorem Partition.head_unlinked (h : Partition cell [] lists) {f : Cells β} (hf : f ∈ lists) {a : Nat}
    (ha : Cells.head f = some a) (p : Nat × Bool) : linkAt cell p ≠ some a := by
  intro hp
  obtain ⟨g, hg, hpg⟩ := h.mem_list (linkAt_isSome hp)
  obtain ⟨hag, hne⟩ := (h.linked g hg).link_mem (h.nodup_list hg) hpg hp
  have hfg := h.list_unique hf hg (Cells.mem_of_head ha) hag
  subst hfg
  exact hne ha

end Sound
end BareBoot
