import BareBoot.NodeHeap

/-! Deleting a node where the counts are right: what nothing refers to any more is freed, and the counts stay right. -/

namespace BareBoot.Nodes

open Sharing

variable {heap heap' heap'' : NodeHeap} {a b c d x : Nat} {pn pn' bn dn : PlNode} {cell : Option PlNode}

/-! ### The heap -/

namespace NodeHeap

theorem lt_length (h : heap.node a = some pn) : a < heap.length := by
  by_contra hge
  rw [node, List.getElem?_eq_none (not_lt.mp hge)] at h
  cases h

theorem node_set_self (h : a < heap.length) : NodeHeap.node (heap.set a cell) a = cell := by
  rw [node, List.getElem?_set_self h, Option.join_some]

theorem node_set_ne (h : x ≠ a) : NodeHeap.node (heap.set a cell) x = heap.node x := by
  rw [node, List.getElem?_set_ne h.symm, node]

theorem node_put_self (h : heap.node a = some pn) : (heap.put a pn').node a = some pn' := node_set_self (lt_length h)

theorem node_put_ne (h : x ≠ a) : (heap.put a pn).node x = heap.node x := node_set_ne h

theorem length_put : (heap.put a pn).length = heap.length := List.length_set

theorem update_eq (h : heap.node a = some pn) (f : PlNode → PlNode) : heap.update a f = some (heap.put a (f pn)) := by
  rw [update, h, Option.map_some]

theorem node_append_self : NodeHeap.node (heap ++ [cell]) heap.length = cell := by
  rw [node, List.getElem?_concat_length, Option.join_some]

theorem node_append_ne (h : x ≠ heap.length) : NodeHeap.node (heap ++ [cell]) x = heap.node x := by
  unfold node
  rcases Nat.lt_or_gt_of_ne h with hlt | hgt
  · rw [List.getElem?_append_left hlt]
  · rw [List.getElem?_eq_none (by rw [List.length_append, List.length_singleton]; omega), List.getElem?_eq_none hgt.le]

theorem mem_live : a ∈ heap.live ↔ ∃ pn, heap.node a = some pn := by
  rw [live, Finset.mem_filter, Finset.mem_range, Option.isSome_iff_exists]
  constructor
  · exact fun h => h.2
  · rintro ⟨pn, h⟩
    exact ⟨lt_length h, pn, h⟩

theorem slots_eq (h : heap.node a = some pn) : heap.slots a = pn.slots := by
  rw [slots, h, Option.map_some, Option.getD_some]

theorem slots_congr (h : heap'.node a = heap.node a) : heap'.slots a = heap.slots a := by
  rw [slots, slots, h]

theorem card_live_le : heap.live.card ≤ heap.length := by
  have h := Finset.card_filter_le (Finset.range heap.length) fun a => (heap.node a).isSome
  rwa [Finset.card_range] at h

end NodeHeap

open NodeHeap

/-! ### Deleting

While a node is deleted some references are pending: the slots of nodes that are being freed, which count no longer
among the slots of the nodes that stay. -/

/-- The nodes of `S` hold what `slots` says and count the slots of each other and the pending references. -/
structure Owns (slots : Nat → List Nat) (heap : NodeHeap) (S : Finset Nat) (pending : List Nat) : Prop where
  node : ∀ x ∈ S, ∃ pn, heap.node x = some pn ∧ pn.slots = slots x ∧
    pn.refcnt = (Sharing.references slots S x + pending.count x : Nat) ∧ pn.refcnt < 2 ^ 31
  closed : Closed slots S
  pending : ∀ c ∈ pending, c ∈ S

/-- The nodes of `S` that are not in `S'` have been freed, and nothing but counts has changed besides. -/
structure Deleted (slots : Nat → List Nat) (heap : NodeHeap) (S : Finset Nat) (pending : List Nat) (heap' : NodeHeap)
    (S' : Finset Nat) : Prop where
  subset : S' ⊆ S
  owns : Owns slots heap' S' pending
  length : heap'.length = heap.length
  outside : ∀ x ∉ S, heap'.node x = heap.node x
  freed : ∀ x ∈ S, x ∉ S' → heap'.node x = none
  kept : ∀ x pn', heap'.node x = some pn' → ∃ pn, heap.node x = some pn ∧ pn' = { pn with refcnt := pn'.refcnt }

section Delete

variable {slots : Nat → List Nat} {S S' S'' : Finset Nat} {pending pending' : List Nat} {r : Nat → Nat} {depth : Nat}

theorem Deleted.refl (h : Owns slots heap S pending) : Deleted slots heap S pending heap S :=
  ⟨subset_rfl, h, rfl, fun _ _ => rfl, fun _ hx hnot => absurd hx hnot, fun _ pn' h => ⟨pn', h, rfl⟩⟩

theorem Deleted.trans (h : Deleted slots heap S pending heap' S') (h' : Deleted slots heap' S' pending' heap'' S'') :
    Deleted slots heap S pending' heap'' S'' where
  subset := h'.subset.trans h.subset
  owns := h'.owns
  length := h'.length.trans h.length
  outside x hx := (h'.outside x fun hmem => hx (h.subset hmem)).trans (h.outside x hx)
  freed x hx hnot := by
    by_cases hmem : x ∈ S'
    · exact h'.freed x hmem hnot
    · rw [h'.outside x hmem]
      exact h.freed x hx hmem
  kept x pn'' hx := by
    obtain ⟨pn', hpn', heq'⟩ := h'.kept x pn'' hx
    obtain ⟨pn, hpn, heq⟩ := h.kept x pn' hpn'
    refine ⟨pn, hpn, ?_⟩
    rw [heq', heq]

/-- What `deleteNode` does with calls nested so deep. -/
def DeletesTo (slots : Nat → List Nat) (r : Nat → Nat) (depth : Nat) : Prop :=
  ∀ heap S pending a, (∀ b c, Refers slots S b c → r c < r b) → r a < depth → Owns slots heap S (a :: pending) →
    ∃ heap' S', deleteNode depth heap a = some heap' ∧ Deleted slots heap S pending heap' S'

theorem DeletesTo.fold (ih : DeletesTo slots r depth) {l : List Nat} (hranks : ∀ b c, Refers slots S b c → r c < r b)
    (hl : ∀ c ∈ l, r c < depth) (h : Owns slots heap S (l ++ pending)) :
    ∃ heap' S', l.foldlM (deleteNode depth) heap = some heap' ∧ Deleted slots heap S pending heap' S' := by
  induction l generalizing heap S with
  | nil => exact ⟨heap, S, rfl, Deleted.refl h⟩
  | cons c l ihl =>
      rw [List.forall_mem_cons] at hl
      obtain ⟨heap₁, S₁, hfirst, hdeleted⟩ := ih heap S (l ++ pending) c hranks hl.1 h
      obtain ⟨heap', S', hrest, hdeleted'⟩ :=
        ihl (fun b c href => hranks b c (href.mono hdeleted.subset rfl)) hl.2 hdeleted.owns
      refine ⟨heap', S', ?_, hdeleted.trans hdeleted'⟩
      rw [List.foldlM_cons, hfirst, Option.bind_eq_bind, Option.bind_some, hrest]

/-- A node nothing else refers to is freed, and gives its references back before. -/
theorem DeletesTo.last (ih : DeletesTo slots r depth) (hranks : ∀ b c, Refers slots S b c → r c < r b) (ha : a ∉ S)
    (hnode : heap.node a = some pn) (hslots : pn.slots = slots a) (hlow : 0 ≤ pn.refcnt) (hhigh : pn.refcnt ≤ 1)
    (hdeep : ∀ c ∈ slots a, r c < depth) (h : Owns slots heap S (slots a ++ pending)) :
    ∃ heap' S', deleteNode (depth + 1) heap a = some heap' ∧ Deleted slots heap (insert a S) pending heap' S' := by
  have hcount : i32 (pn.refcnt - 1) = pn.refcnt - 1 := i32_of_mem (by omega) (by omega)
  have howns : Owns slots (heap.put a { pn with refcnt := pn.refcnt - 1 }) S (slots a ++ pending) := by
    refine ⟨fun x hx => ?_, h.closed, h.pending⟩
    rw [node_put_ne (ne_of_mem_of_not_mem hx ha)]
    exact h.node x hx
  obtain ⟨heap₁, S₁, hrun, hdeleted⟩ := ih.fold hranks hdeep howns
  have hself : heap₁.node a = some { pn with refcnt := pn.refcnt - 1 } := by
    rw [hdeleted.outside a ha, node_put_self hnode]
  have hne : ∀ x ∈ S₁, x ≠ a := fun x hx => ne_of_mem_of_not_mem (hdeleted.subset hx) ha
  refine ⟨heap₁.set a none, S₁, ?_, ?_, ?_, ?_, ?_, ?_, ?_⟩
  · rw [deleteNode, hnode, Option.bind_eq_bind, Option.bind_some]
    dsimp only
    rw [hcount, if_neg (by omega), hslots, hrun, Option.bind_eq_bind, Option.bind_some, NodeHeap.free, hself,
      Option.map_some]
  · exact hdeleted.subset.trans (Finset.subset_insert a S)
  · refine ⟨fun x hx => ?_, hdeleted.owns.closed, hdeleted.owns.pending⟩
    rw [node_set_ne (hne x hx)]
    exact hdeleted.owns.node x hx
  · rw [List.length_set, hdeleted.length, length_put]
  · intro x hx
    rw [Finset.mem_insert, not_or] at hx
    rw [node_set_ne hx.1, hdeleted.outside x hx.2, node_put_ne hx.1]
  · intro x hx hnot
    by_cases hxa : x = a
    · rw [hxa, node_set_self (lt_length hself)]
    · rw [node_set_ne hxa]
      exact hdeleted.freed x ((Finset.mem_insert.mp hx).resolve_left hxa) hnot
  · intro x pn' hx
    have hxa : x ≠ a := by
      rintro rfl
      rw [node_set_self (lt_length hself)] at hx
      cases hx
    rw [node_set_ne hxa] at hx
    obtain ⟨pn₁, hpn₁, heq⟩ := hdeleted.kept x pn' hx
    rw [node_put_ne hxa] at hpn₁
    exact ⟨pn₁, hpn₁, heq⟩

/-- Without the object nothing refers to, its slots are pending. -/
theorem Owns.release (h : Owns slots heap S pending') (pending : List Nat) (ha : a ∈ S)
    (hnone : Sharing.references slots S a = 0) (hpending : ∀ x ≠ a, pending'.count x = pending.count x) (hnot : a ∉ pending) :
    Owns slots heap (S.erase a) (slots a ++ pending) where
  node x hx := by
    obtain ⟨hne, hmem⟩ := Finset.mem_erase.mp hx
    obtain ⟨pn, hpn, hslots, hcount, hsmall⟩ := h.node x hmem
    refine ⟨pn, hpn, hslots, ?_, hsmall⟩
    rw [hcount, references_erase ha, List.count_append, hpending x hne]
    omega
  closed b c href := by
    obtain ⟨hb, hmem⟩ := Finset.mem_erase.mp href.1
    refine Finset.mem_erase.mpr ⟨?_, h.closed b c ⟨hmem, href.2⟩⟩
    rintro rfl
    exact references_eq_zero.mp hnone b ⟨hmem, href.2⟩
  pending c hc := by
    rcases List.mem_append.mp hc with hslot | hc
    · refine Finset.mem_erase.mpr ⟨?_, h.closed a c ⟨ha, hslot⟩⟩
      rintro rfl
      exact references_eq_zero.mp hnone c ⟨ha, hslot⟩
    · have hne : c ≠ a := ne_of_mem_of_not_mem hc hnot
      have hpos : 0 < pending'.count c := by
        rw [hpending c hne]
        exact List.count_pos_iff.mpr hc
      exact Finset.mem_erase.mpr ⟨hne, h.pending c (List.count_pos_iff.mp hpos)⟩

theorem deletesTo (slots : Nat → List Nat) (r : Nat → Nat) (depth : Nat) : DeletesTo slots r depth := by
  induction depth with
  | zero => exact fun _ _ _ _ _ hdeep => absurd hdeep (Nat.not_lt_zero _)
  | succ depth ih =>
      intro heap S pending a hranks hdeep h
      have ha : a ∈ S := h.pending a List.mem_cons_self
      obtain ⟨pn, hnode, hslots, hcount, hsmall⟩ := h.node a ha
      rw [List.count_cons_self] at hcount
      by_cases hmore : 0 < Sharing.references slots S a + pending.count a
      · -- other references are left
        have hrefcnt : i32 (pn.refcnt - 1) = pn.refcnt - 1 := i32_of_mem (by omega) (by omega)
        refine ⟨heap.put a { pn with refcnt := pn.refcnt - 1 }, S, ?_, subset_rfl, ?_, length_put, ?_, ?_, ?_⟩
        · rw [deleteNode, hnode, Option.bind_eq_bind, Option.bind_some]
          dsimp only
          rw [hrefcnt, if_pos (by omega)]
        · refine ⟨fun x hx => ?_, h.closed, fun c hc => h.pending c (List.mem_cons_of_mem _ hc)⟩
          by_cases hxa : x = a
          · subst hxa
            refine ⟨_, node_put_self hnode, hslots, ?_, ?_⟩
            · show pn.refcnt - 1 = _
              omega
            · show pn.refcnt - 1 < _
              omega
          · rw [node_put_ne hxa]
            obtain ⟨pn', hpn', hslots', hcount', hsmall'⟩ := h.node x hx
            rw [List.count_cons_of_ne (Ne.symm hxa)] at hcount'
            exact ⟨pn', hpn', hslots', hcount', hsmall'⟩
        · intro x hx
          exact node_put_ne (ne_of_mem_of_not_mem ha hx).symm
        · exact fun x hx hnot => absurd hx hnot
        · intro x pn' hx
          by_cases hxa : x = a
          · subst hxa
            rw [node_put_self hnode, Option.some.injEq] at hx
            exact ⟨pn, hnode, by rw [← hx]⟩
          · rw [node_put_ne hxa] at hx
            exact ⟨pn', hx, rfl⟩
      · -- the last reference goes
        have hnone : Sharing.references slots S a = 0 := by omega
        have hnot : a ∉ pending := List.count_eq_zero.mp (by omega)
        have howns := h.release pending ha hnone (fun x hx => List.count_cons_of_ne hx.symm) hnot
        have hranks' : ∀ b c, Refers slots (S.erase a) b c → r c < r b := fun b c href =>
          hranks b c (href.mono (Finset.erase_subset a S) rfl)
        have hbelow : ∀ c ∈ slots a, r c < depth := fun c hc => by
          have := hranks a c ⟨ha, hc⟩
          omega
        have hlast := ih.last hranks' (Finset.notMem_erase a S) hnode hslots (by omega) (by omega) hbelow howns
        rwa [Finset.insert_erase ha] at hlast

end Delete

/-! ### Heaps whose counts are right -/

structure Counted (heap : NodeHeap) : Prop where
  counted : ∀ a pn, heap.node a = some pn → pn.refcnt = (heap.references a : Nat)
  small : ∀ a pn, heap.node a = some pn → pn.refcnt < 2 ^ 31
  room : ∀ a pn, heap.node a = some pn → pn.amap.length ≤ pn.acap
  closed : Closed heap.slots heap.live
  acyclic : Acyclic heap.slots heap.live

theorem counted_nil : Counted [] := by
  have hnone : ∀ a, NodeHeap.node [] a = none := fun _ => rfl
  have hlive : NodeHeap.live [] = ∅ := rfl
  refine ⟨?_, ?_, ?_, ?_, ?_⟩
  · intro a pn h
    rw [hnone] at h
    cases h
  · intro a pn h
    rw [hnone] at h
    cases h
  · intro a pn h
    rw [hnone] at h
    cases h
  · intro b c href
    rw [hlive] at href
    exact absurd href.1 (Finset.notMem_empty b)
  · intro x hx
    rw [hlive] at hx
    cases hx with
    | single href => exact Finset.notMem_empty x href.1
    | tail _ href => exact Finset.notMem_empty _ href.1

/-- Which addresses have been used says nothing. -/
theorem Counted.congr (h : Counted heap) (hnode : ∀ x, heap'.node x = heap.node x) : Counted heap' := by
  have hslots : heap'.slots = heap.slots := by
    funext x
    exact slots_congr (hnode x)
  have hlive : heap'.live = heap.live := by
    ext x
    rw [mem_live, mem_live, hnode]
  refine ⟨?_, ?_, ?_, ?_, ?_⟩
  · intro a pn ha
    rw [NodeHeap.references, hslots, hlive]
    exact h.counted a pn (hnode a ▸ ha)
  · exact fun a pn ha => h.small a pn (hnode a ▸ ha)
  · exact fun a pn ha => h.room a pn (hnode a ▸ ha)
  · rw [hslots, hlive]
    exact h.closed
  · rw [hslots, hlive]
    exact h.acyclic

theorem Counted.owns (h : Counted heap) : Owns heap.slots heap heap.live [] := by
  refine ⟨fun x hx => ?_, h.closed, fun c hc => absurd hc List.not_mem_nil⟩
  obtain ⟨pn, hpn⟩ := mem_live.mp hx
  exact ⟨pn, hpn, (slots_eq hpn).symm, h.counted x pn hpn, h.small x pn hpn⟩

theorem Deleted.counted {S : Finset Nat} (h : Deleted heap.slots heap heap.live [] heap' S) (hcounted : Counted heap) :
    Counted heap' := by
  have hlive : heap'.live = S := by
    ext x
    rw [mem_live]
    constructor
    · rintro ⟨pn, hpn⟩
      by_contra hnot
      by_cases hx : x ∈ heap.live
      · rw [h.freed x hx hnot] at hpn
        cases hpn
      · rw [h.outside x hx] at hpn
        exact hx (mem_live.mpr ⟨pn, hpn⟩)
    · intro hx
      obtain ⟨pn, hpn, _⟩ := h.owns.node x hx
      exact ⟨pn, hpn⟩
  have hslots : ∀ x ∈ S, heap.slots x = heap'.slots x := by
    intro x hx
    obtain ⟨pn, hpn, heq, _⟩ := h.owns.node x hx
    rw [slots_eq hpn, heq]
  have hmem : ∀ a pn, heap'.node a = some pn → a ∈ S := fun a pn ha => hlive ▸ mem_live.mpr ⟨pn, ha⟩
  refine ⟨?_, ?_, ?_, ?_, ?_⟩
  · intro a pn ha
    obtain ⟨pn', hpn', _, hcount, _⟩ := h.owns.node a (hmem a pn ha)
    rw [ha, Option.some.injEq] at hpn'
    rw [hpn', hcount, List.count_nil, Nat.add_zero, NodeHeap.references, hlive, references_congr hslots]
  · intro a pn ha
    obtain ⟨pn', hpn', _, _, hsmall⟩ := h.owns.node a (hmem a pn ha)
    rw [ha, Option.some.injEq] at hpn'
    rw [hpn']
    exact hsmall
  · intro a pn ha
    obtain ⟨pn₀, hpn₀, heq⟩ := h.kept a pn ha
    rw [heq]
    exact hcounted.room a pn₀ hpn₀
  · rw [hlive]
    exact h.owns.closed.congr hslots
  · rw [hlive]
    exact (hcounted.acyclic.mono h.subset).congr hslots

/-- A deleted node goes with all that only it refers to. -/
theorem Counted.nodeDelete (h : Counted heap) (hnode : heap.node a = some pn) (hnone : heap.references a = 0) :
    ∃ heap', plNodeDelete heap (some a) = some heap' ∧ Counted heap' := by
  have ha : a ∈ heap.live := mem_live.mpr ⟨pn, hnode⟩
  have hcount := h.counted a pn hnode
  have hranks : ∀ b c, Refers heap.slots heap.live b c → rank heap.slots heap.live c < rank heap.slots heap.live b :=
    fun b c href => h.acyclic.rank_lt h.closed href
  have hranks' : ∀ b c, Refers heap.slots (heap.live.erase a) b c →
      rank heap.slots heap.live c < rank heap.slots heap.live b :=
    fun b c href => hranks b c (href.mono (Finset.erase_subset a _) rfl)
  have hbelow : ∀ c ∈ heap.slots a, rank heap.slots heap.live c < heap.length := fun c hc =>
    (hranks a c ⟨ha, hc⟩).trans_le (rank_le.trans card_live_le)
  have howns := h.owns.release [] ha hnone (fun _ _ => rfl) List.not_mem_nil
  obtain ⟨heap', S', hrun, hdeleted⟩ := (deletesTo heap.slots (rank heap.slots heap.live) heap.length).last hranks'
    (Finset.notMem_erase a _) hnode (slots_eq hnode).symm (by omega) (by omega) hbelow howns
  rw [Finset.insert_erase ha] at hdeleted
  exact ⟨heap', hrun, hdeleted.counted h⟩

end BareBoot.Nodes
