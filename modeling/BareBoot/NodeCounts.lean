import BareBoot.NodeDeletion

/-! The reference counts over all histories of a client. Apart from the sizes that wrap, each node counts the slots that
refer to it, and what no bag holds and no client has left is freed. -/

namespace BareBoot.Nodes

open Sharing NodeHeap

variable {heap heap' : NodeHeap} {b c d x : Nat} {pn bn dn : PlNode}

/-! ### New nodes -/

/-- What the functions that make a node come to. -/
inductive Made (heap : NodeHeap) : NodeHeap × Option Nat → Prop
  | refused : Made heap (heap, none)
  | undone : Made heap (heap ++ [none], none)
  | made (pn : PlNode) (hcount : pn.refcnt = 0) (hslots : pn.slots = []) :
      Made heap (heap ++ [some pn], some heap.length)

theorem Counted.fresh (h : Counted heap) (hcount : pn.refcnt = 0) (hslots : pn.slots = []) :
    Counted (heap ++ [some pn]) ∧ NodeHeap.references (heap ++ [some pn]) heap.length = 0 := by
  have hself : NodeHeap.node (heap ++ [some pn]) heap.length = some pn := node_append_self
  have hnot : heap.length ∉ heap.live := fun hmem => by
    obtain ⟨_, hpn⟩ := mem_live.mp hmem
    exact lt_irrefl _ (lt_length hpn)
  have hne : ∀ x ∈ heap.live, x ≠ heap.length := fun x hx => ne_of_mem_of_not_mem hx hnot
  have hlive : NodeHeap.live (heap ++ [some pn]) = insert heap.length heap.live := by
    ext x
    rw [Finset.mem_insert, mem_live, mem_live]
    by_cases hx : x = heap.length
    · subst hx
      exact iff_of_true ⟨pn, hself⟩ (Or.inl rfl)
    · rw [node_append_ne hx, or_iff_right hx]
  have hold : ∀ x ∈ heap.live, heap.slots x = NodeHeap.slots (heap ++ [some pn]) x := fun x hx =>
    (slots_congr (node_append_ne (hne x hx))).symm
  have hnew : NodeHeap.slots (heap ++ [some pn]) heap.length = [] := (slots_eq hself).trans hslots
  have hreferences : ∀ x, NodeHeap.references (heap ++ [some pn]) x = heap.references x := by
    intro x
    rw [NodeHeap.references, hlive, references_insert hnot, hnew, List.count_nil, Nat.zero_add, ← references_congr hold]
    rfl
  have hzero : heap.references heap.length = 0 := references_eq_zero.mpr fun b href => hnot (h.closed b _ href)
  refine ⟨⟨?_, ?_, ?_, ?_, ?_⟩, (hreferences _).trans hzero⟩
  · intro a pn' ha
    rw [hreferences]
    by_cases hx : a = heap.length
    · rw [hx, hself, Option.some.injEq] at ha
      rw [hx, hzero, ← ha, hcount]
      rfl
    · rw [node_append_ne hx] at ha
      exact h.counted a pn' ha
  · intro a pn' ha
    by_cases hx : a = heap.length
    · rw [hx, hself, Option.some.injEq] at ha
      rw [← ha, hcount]
      decide
    · rw [node_append_ne hx] at ha
      exact h.small a pn' ha
  · intro a pn' ha
    by_cases hx : a = heap.length
    · rw [hx, hself, Option.some.injEq] at ha
      rw [← ha, (List.append_eq_nil_iff.mp hslots).2]
      exact Nat.zero_le _
    · rw [node_append_ne hx] at ha
      exact h.room a pn' ha
  · intro b c href
    rw [hlive] at href ⊢
    apply Finset.mem_insert_of_mem
    rcases Finset.mem_insert.mp href.1 with rfl | hb
    · have hc := href.2
      rw [hnew] at hc
      exact absurd hc List.not_mem_nil
    · exact h.closed b c ⟨hb, (hold b hb).symm ▸ href.2⟩
  · rw [hlive]
    apply h.acyclic.fresh h.closed hnot hold
    intro c hc
    rw [hnew] at hc
    exact absurd hc List.not_mem_nil

theorem Made.counted {made : NodeHeap × Option Nat} (h : Made heap made) (hcounted : Counted heap) :
    Counted made.1 := by
  cases h with
  | refused => exact hcounted
  | undone =>
      apply hcounted.congr
      intro x
      by_cases hx : x = heap.length
      · rw [hx, node_append_self, NodeHeap.node, List.getElem?_eq_none le_rfl, Option.join_none]
      · exact node_append_ne hx
  | made pn hcount hslots => exact (hcounted.fresh hcount hslots).1

theorem plNodeNew_made (grant : Grant) (nk : Plist.Kind) (heap : NodeHeap) : Made heap (plNodeNew grant nk heap) := by
  unfold plNodeNew
  split_ifs
  · exact Made.made _ rfl rfl
  · exact Made.refused

theorem update_append_self (f : PlNode → PlNode) :
    NodeHeap.update (heap ++ [some pn]) heap.length f = some (heap ++ [some (f pn)]) := by
  rw [update_eq node_append_self, NodeHeap.put, List.set_append_right _ _ le_rfl, Nat.sub_self, List.set_cons_zero]

/-- A node just made is freed without more. -/
theorem plNodeDelete_append (hcount : pn.refcnt = 0) (hslots : pn.slots = []) :
    plNodeDelete (heap ++ [some pn]) (some heap.length) = some (heap ++ [none]) := by
  have hself : NodeHeap.node (heap ++ [some pn]) heap.length = some pn := node_append_self
  have hlower : i32 (pn.refcnt - 1) = -1 := by
    rw [hcount]
    rfl
  rw [plNodeDelete, deleteNode, hself, Option.bind_eq_bind, Option.bind_some]
  dsimp only
  rw [hlower, if_neg (by decide), hslots, List.foldlM_nil, Option.pure_def, Option.bind_eq_bind, Option.bind_some,
    NodeHeap.free, node_put_self hself, Option.map_some, NodeHeap.put, List.set_set, List.set_append_right _ _ le_rfl, Nat.sub_self,
    List.set_cons_zero]

/-- The bytes a caller says there are can be read. -/
def Readable (datum : Option Plist.Bytes) (dlen : UInt32) : Prop := dlen.toNat ≤ (datum.getD []).length

/-- `plDataNew` makes a node. -/
structure Makes (grant : Grant) (datum : Option Plist.Bytes) (dlen : UInt32) : Prop where
  datum : ¬(datum = none ∧ dlen = 0)
  node : grant.node = true
  short : dlen + 1 ≠ 0
  datval : grant.datval = true

theorem plDataNew_made (grant : Grant) {datum : Option Plist.Bytes} {dlen : UInt32} (hread : Readable datum dlen)
    (heap : NodeHeap) :
    ∃ made, plDataNew grant datum dlen heap = some made ∧ Made heap made ∧
      ∀ node, made.2 = some node → Makes grant datum dlen := by
  have hnothing : ∀ heap' node, ((heap', none) : NodeHeap × Option Nat).2 = some node → Makes grant datum dlen := by
    intro heap' node h
    cases h
  unfold plDataNew plNodeNew
  by_cases hnull : datum = none ∧ dlen = 0
  · rw [if_pos hnull]
    exact ⟨_, rfl, Made.refused, hnothing heap⟩
  rw [if_neg hnull]
  by_cases hnode : grant.node = true
  · rw [if_pos hnode]
    dsimp only
    by_cases hgrant : dlen + 1 = 0 ∨ grant.datval = false
    · rw [if_pos hgrant, plNodeDelete_append rfl rfl]
      exact ⟨_, rfl, Made.undone, hnothing _⟩
    · rw [if_neg hgrant, if_neg (not_lt.mpr hread), update_append_self]
      rw [not_or, Bool.not_eq_false] at hgrant
      exact ⟨_, rfl, Made.made _ rfl rfl, fun _ _ => ⟨hnull, hnode, hgrant.1, hgrant.2⟩⟩
  · rw [if_neg hnode]
    exact ⟨_, rfl, Made.refused, hnothing heap⟩

theorem ofKind_made {made : NodeHeap × Option Nat} (h : Made heap made) (nk : Plist.Kind) :
    ∃ made', ofKind nk made = some made' ∧ Made heap made' := by
  cases h with
  | refused => exact ⟨_, rfl, Made.refused⟩
  | undone => exact ⟨_, rfl, Made.undone⟩
  | made pn hcount hslots =>
      rw [ofKind, update_append_self]
      exact ⟨_, rfl, Made.made _ hcount hslots⟩

theorem datumNew_made (grant : Grant) {datum : Option Plist.Bytes} {dlen : UInt32} (hread : Readable datum dlen)
    (nk : Plist.Kind) (heap : NodeHeap) :
    ∃ made, (plDataNew grant datum dlen heap).bind (ofKind nk) = some made ∧ Made heap made := by
  obtain ⟨made, hrun, hmade, _⟩ := plDataNew_made grant hread heap
  rw [hrun, Option.bind_some]
  exact ofKind_made hmade nk

theorem scalarNew_made {grant : Grant} (hgrant : grant.node = true) (nk : Plist.Kind) (val : Int64) (heap : NodeHeap) :
    ∃ made, scalarNew grant nk val heap = some made ∧ Made heap made := by
  rw [scalarNew, plNodeNew, if_pos hgrant]
  dsimp only
  rw [update_append_self]
  exact ⟨_, rfl, Made.made _ rfl rfl⟩

/-! ### Adding -/

theorem attach_counted (h : Counted heap) (hb : heap.node b = some bn) (hd : heap.node d = some dn)
    (hslots : pn.slots.Perm (d :: bn.slots)) (hrefcnt : pn.refcnt = bn.refcnt) (hroom : pn.amap.length ≤ pn.acap)
    (hback : ¬Relation.ReflTransGen (Refers heap.slots heap.live) d b) (hsmall : dn.refcnt < 2 ^ 31 - 1) :
    ∃ heap', attach heap b d pn = some (heap', true) ∧ Counted heap' := by
  have hne : d ≠ b := by
    rintro rfl
    exact hback Relation.ReflTransGen.refl
  have hmore : i32 (dn.refcnt + 1) = dn.refcnt + 1 := by
    have hcount := h.counted d dn hd
    exact i32_of_mem (by omega) (by omega)
  obtain ⟨heap', hheap⟩ : ∃ heap', heap' = (heap.put b pn).put d { dn with refcnt := dn.refcnt + 1 } := ⟨_, rfl⟩
  have hdnode : (heap.put b pn).node d = some dn := (node_put_ne hne).trans hd
  have hself : heap'.node b = some pn := by
    rw [hheap, node_put_ne hne.symm, node_put_self hb]
  have hheld : heap'.node d = some { dn with refcnt := dn.refcnt + 1 } := by rw [hheap, node_put_self hdnode]
  have hother : ∀ x, x ≠ b → x ≠ d → heap'.node x = heap.node x := fun x hxb hxd => by
    rw [hheap, node_put_ne hxd, node_put_ne hxb]
  have hlive : heap'.live = heap.live := by
    ext x
    rw [mem_live, mem_live]
    by_cases hxb : x = b
    · rw [hxb, hself, hb]
      exact iff_of_true ⟨pn, rfl⟩ ⟨bn, rfl⟩
    · by_cases hxd : x = d
      · rw [hxd, hheld, hd]
        exact iff_of_true ⟨_, rfl⟩ ⟨dn, rfl⟩
      · rw [hother x hxb hxd]
  have hslotsOf : ∀ x, x ≠ b → heap'.slots x = heap.slots x := by
    intro x hxb
    by_cases hxd : x = d
    · rw [hxd, slots_eq hheld, slots_eq hd]
      rfl
    · exact slots_congr (hother x hxb hxd)
  have hbag : (heap'.slots b).Perm (d :: heap.slots b) := by
    rw [slots_eq hself, slots_eq hb]
    exact hslots
  have hblive : b ∈ heap.live := mem_live.mpr ⟨bn, hb⟩
  have hreferences : ∀ x, heap'.references x = heap.references x + if d = x then 1 else 0 := by
    intro x
    have hrest : Sharing.references heap'.slots (heap.live.erase b) x =
        Sharing.references heap.slots (heap.live.erase b) x :=
      references_congr fun y hy => hslotsOf y (Finset.ne_of_mem_erase hy)
    rw [NodeHeap.references, NodeHeap.references, hlive, references_erase hblive, references_erase hblive, hrest,
      hbag.count_eq, List.count_cons, beq_eq_decide]
    simp only [decide_eq_true_eq]
    omega
  have hrefers : ∀ y c, Refers heap'.slots heap.live y c → Refers heap.slots heap.live y c ∨ y = b ∧ c = d := by
    intro y c href
    by_cases hy : y = b
    · have hc := href.2
      rw [hy, hbag.mem_iff, List.mem_cons] at hc
      rcases hc with rfl | hc
      · exact Or.inr ⟨hy, rfl⟩
      · exact Or.inl ⟨href.1, hy ▸ hc⟩
    · exact Or.inl ⟨href.1, hslotsOf y hy ▸ href.2⟩
  have hcases : ∀ x pn', heap'.node x = some pn' →
      (x = b ∧ pn' = pn) ∨ (x = d ∧ pn' = { dn with refcnt := dn.refcnt + 1 }) ∨ (d ≠ x ∧ heap.node x = some pn') := by
    intro x pn' hx
    by_cases hxb : x = b
    · rw [hxb, hself, Option.some.injEq] at hx
      exact Or.inl ⟨hxb, hx.symm⟩
    · by_cases hxd : x = d
      · rw [hxd, hheld, Option.some.injEq] at hx
        exact Or.inr (Or.inl ⟨hxd, hx.symm⟩)
      · rw [hother x hxb hxd] at hx
        exact Or.inr (Or.inr ⟨Ne.symm hxd, hx⟩)
  refine ⟨heap', ?_, ?_, ?_, ?_, ?_, ?_⟩
  · rw [attach, update_eq hdnode, Option.map_some, hmore, hheap]
  · intro x pn' hx
    rw [hreferences]
    rcases hcases x pn' hx with ⟨rfl, rfl⟩ | ⟨rfl, rfl⟩ | ⟨hxd, hold⟩
    · rw [if_neg hne, hrefcnt]
      exact h.counted x bn hb
    · rw [if_pos rfl, Nat.cast_add, ← h.counted x dn hd]
      rfl
    · rw [if_neg hxd]
      exact h.counted x pn' hold
  · intro x pn' hx
    rcases hcases x pn' hx with ⟨rfl, rfl⟩ | ⟨rfl, rfl⟩ | ⟨_, hold⟩
    · rw [hrefcnt]
      exact h.small x bn hb
    · exact Int.add_lt_of_lt_sub_right hsmall
    · exact h.small x pn' hold
  · intro x pn' hx
    rcases hcases x pn' hx with ⟨rfl, rfl⟩ | ⟨rfl, rfl⟩ | ⟨_, hold⟩
    · exact hroom
    · exact h.room x dn hd
    · exact h.room x pn' hold
  · intro y c href
    rw [hlive] at href ⊢
    rcases hrefers y c href with hold | ⟨_, rfl⟩
    · exact h.closed y c hold
    · exact mem_live.mpr ⟨dn, hd⟩
  · rw [hlive]
    exact h.acyclic.slot hrefers hback

/-- The kinds of the two nodes let `plNodeAdd` add one to the other. -/
def Takes (bn dn : PlNode) : Prop :=
  match bn.kind with
  | .dict => dn.kind = .key ∧ plNodeGetItem dn 0 ≠ none
  | .array => True
  | .key => plNodeGetItem bn 0 = none
  | _ => False

/-- A bag without a free entry. -/
def Full (bn : PlNode) : Prop := bn.kind ≠ .key ∧ bn.acap ≤ bn.amap.length

/-- The sizes of the grown array and the new count are the ones that are meant. -/
structure Fits (grant : Grant) (bn dn : PlNode) : Prop where
  capacity : Takes bn dn → Full bn → grant.amap = true → bn.acap + bn.acap / 4 + 1 < 2 ^ 29
  count : Takes bn dn → (Full bn → grant.amap = true) → dn.refcnt < 2 ^ 31 - 1

theorem addItem_counted (h : Counted heap) (hb : heap.node b = some bn) (hd : heap.node d = some dn)
    (hback : ¬Relation.ReflTransGen (Refers heap.slots heap.live) d b) {grant : Grant} (hkind : bn.kind ≠ .key)
    (htakes : Takes bn dn) (hfits : Fits grant bn dn) :
    ∃ added, addItem grant heap b d bn = some added ∧ Counted added.1 := by
  have hroom := h.room b bn hb
  have hslots : ∀ ncap, ({ bn with acap := ncap, amap := bn.amap ++ [d] } : PlNode).slots.Perm (d :: bn.slots) := by
    intro ncap
    show (bn.keyval.toList ++ (bn.amap ++ [d])).Perm (d :: (bn.keyval.toList ++ bn.amap))
    rw [← List.append_assoc]
    exact List.perm_append_singleton d _
  unfold addItem
  by_cases hfull : bn.acap ≤ bn.amap.length
  · rw [if_pos hfull]
    dsimp only
    cases hgrant : grant.amap with
    | false => exact ⟨_, if_pos rfl, h⟩
    | true =>
        have hcapacity := hfits.capacity htakes ⟨hkind, hfull⟩ hgrant
        have hncap : u32 (bn.acap + bn.acap / 4 + 1) = bn.acap + bn.acap / 4 + 1 := by
          unfold u32
          omega
        have hnsz : ¬u32 ((bn.acap + bn.acap / 4 + 1 : Nat) * 8) / 8 ≤ bn.amap.length := by
          unfold u32
          omega
        rw [if_neg (by decide), hncap, if_neg hnsz]
        obtain ⟨heap', hrun, hcounted⟩ := attach_counted h hb hd (hslots (bn.acap + bn.acap / 4 + 1)) rfl
          (by
            show (bn.amap ++ [d]).length ≤ bn.acap + bn.acap / 4 + 1
            rw [List.length_append, List.length_singleton]
            omega)
          hback (hfits.count htakes fun _ => hgrant)
        exact ⟨_, hrun, hcounted⟩
  · rw [if_neg hfull]
    obtain ⟨heap', hrun, hcounted⟩ := attach_counted h hb hd (hslots bn.acap) rfl
      (by
        show (bn.amap ++ [d]).length ≤ bn.acap
        rw [List.length_append, List.length_singleton]
        omega)
      hback (hfits.count htakes fun hgrow => absurd hgrow.2 hfull)
    exact ⟨_, hrun, hcounted⟩

theorem plNodeAdd_counted (h : Counted heap) (hb : heap.node b = some bn) (hd : heap.node d = some dn)
    (hback : ¬Relation.ReflTransGen (Refers heap.slots heap.live) d b) {grant : Grant} (hfits : Fits grant bn dn) :
    ∃ added, plNodeAdd grant heap (some b) (some d) = some added ∧ Counted added.1 := by
  rw [plNodeAdd, hb, hd, Option.bind_eq_bind, Option.bind_some, Option.bind_some]
  have hrefused : ∃ added, some (heap, false) = some added ∧ Counted added.1 := ⟨_, rfl, h⟩
  cases hkind : bn.kind with
  | dict =>
      dsimp only
      by_cases hrefuse : dn.kind ≠ .key ∨ plNodeGetItem dn 0 = none
      · rw [if_pos hrefuse]
        exact hrefused
      · rw [if_neg hrefuse]
        rw [not_or, not_not] at hrefuse
        have htakes : Takes bn dn := by
          rw [Takes, hkind]
          exact hrefuse
        exact addItem_counted h hb hd hback (by rw [hkind]; decide) htakes hfits
  | array =>
      have htakes : Takes bn dn := by
        rw [Takes, hkind]
        trivial
      exact addItem_counted h hb hd hback (by rw [hkind]; decide) htakes hfits
  | key =>
      dsimp only
      by_cases hrefuse : plNodeGetItem bn 0 ≠ none
      · rw [if_pos hrefuse]
        exact hrefused
      · rw [if_neg hrefuse]
        rw [not_not] at hrefuse
        have htakes : Takes bn dn := by
          rw [Takes, hkind]
          exact hrefuse
        have hkeyval : bn.keyval = none := by rwa [plNodeGetItem, hkind] at hrefuse
        have hslots : ({ bn with keyval := some d } : PlNode).slots = d :: bn.slots := by
          rw [PlNode.slots, PlNode.slots, hkeyval]
          rfl
        obtain ⟨heap', hrun, hcounted⟩ := attach_counted h hb hd (List.Perm.of_eq hslots) rfl (h.room b bn hb) hback
          (hfits.count htakes fun hgrow => absurd hkind hgrow.1)
        rw [hkind] at hrun
        exact ⟨_, hrun, hcounted⟩
  | any | bool | data | date | integer | string => exact hrefused

/-! ### Histories -/

/-- What a client keeps to: it passes nodes that are there, deletes what no bag holds, and adds no bag into its own
subtree. -/
def Meant (heap : NodeHeap) : Call → Prop
  | .dataNew datum dlen | .dateNew datum dlen | .stringNew datum dlen => Readable datum dlen
  | .keyNew key klen datum => Readable key klen ∧ ∀ d, datum = some d → d ∈ heap.live
  | .nodeAdd bag node => ∀ b d, bag = some b → node = some d →
      b ∈ heap.live ∧ d ∈ heap.live ∧ ¬Relation.ReflTransGen (Refers heap.slots heap.live) d b
  | .nodeDelete node => ∀ a, node = some a → a ∈ heap.live ∧ heap.references a = 0
  | _ => True

/-- No size or count wraps, and no value is written through `NULL`. -/
def Safe (heap : NodeHeap) : Call × Grant → Prop
  | (.keyNew key klen datum, grant) => ∀ d dn, datum = some d → heap.node d = some dn → Makes grant key klen →
      dn.refcnt < 2 ^ 31 - 1
  | (.boolNew _, grant) | (.integerNew _, grant) => grant.node = true
  | (.nodeAdd bag node, grant) => ∀ b d bn dn, bag = some b → node = some d → heap.node b = some bn →
      heap.node d = some dn → Fits grant bn dn
  | _ => True

/-- At each step of a history, as far as it goes. -/
def Along (P : NodeHeap → Call × Grant → Prop) : NodeHeap → List (Call × Grant) → Prop
  | _, [] => True
  | heap, call :: history => P heap call ∧ ∀ heap', step heap call = some heap' → Along P heap' history

/-- Each live node counts the slots that refer to it, these refer to live nodes, and without a node that no bag holds
every node has been freed. -/
structure Sound (heap : NodeHeap) : Prop where
  counted : ∀ a pn, heap.node a = some pn → pn.refcnt = (heap.references a : Nat)
  held : ∀ b pn, heap.node b = some pn → ∀ c ∈ pn.slots, (heap.node c).isSome
  freed : (∀ a ∈ heap.live, heap.references a ≠ 0) → ∀ a, heap.node a = none

theorem Counted.sound (h : Counted heap) : Sound heap where
  counted := h.counted
  held b pn hb c hc := by
    have href : Refers heap.slots heap.live b c := ⟨mem_live.mpr ⟨pn, hb⟩, slots_eq hb ▸ hc⟩
    exact Option.isSome_iff_exists.mpr (mem_live.mp (h.closed b c href))
  freed hheld a := by
    by_contra hne
    obtain ⟨pn, hpn⟩ := Option.ne_none_iff_exists'.mp hne
    obtain ⟨x, hx, hzero⟩ := h.acyclic.exists_unheld h.closed ⟨a, mem_live.mpr ⟨pn, hpn⟩⟩
    exact hheld x hx hzero

theorem plKeyNew_counted (h : Counted heap) {grant : Grant} {key : Option Plist.Bytes} {klen : UInt32}
    {datum : Option Nat}     (hread : Readable key klen) (hlive : ∀ d, datum = some d → d ∈ heap.live)
    (hsmall : ∀ d dn, datum = some d → heap.node d = some dn → Makes grant key klen → dn.refcnt < 2 ^ 31 - 1) :
    ∃ made, plKeyNew grant key klen datum heap = some made ∧ Counted made.1 := by
  obtain ⟨made, hrun, hmade, hmakes⟩ := plDataNew_made grant hread heap
  unfold plKeyNew
  rw [hrun, Option.bind_eq_bind, Option.bind_some]
  cases hmade with
  | refused => exact ⟨_, rfl, h⟩
  | undone => exact ⟨_, rfl, Made.undone.counted h⟩
  | made pn hcount hslots =>
      have hkey : Counted (heap ++ [some { pn with kind := .key }]) ∧
          NodeHeap.references (heap ++ [some { pn with kind := .key }]) heap.length = 0 := h.fresh hcount hslots
      rw [ofKind, update_append_self, Option.map_some, Option.bind_some]
      cases datum with
      | none => exact ⟨_, rfl, hkey.1⟩
      | some d =>
          obtain ⟨dn, hd⟩ := mem_live.mp (hlive d rfl)
          have hdne : d ≠ heap.length := (lt_length hd).ne
          have hback : ¬Relation.ReflTransGen (Refers (NodeHeap.slots (heap ++ [some { pn with kind := .key }]))
              (NodeHeap.live (heap ++ [some { pn with kind := .key }]))) d heap.length := by
            intro hwalk
            rcases hwalk.cases_tail with heq | ⟨c, _, href⟩
            · exact hdne heq.symm
            · exact references_eq_zero.mp hkey.2 c href
          have hfits : Fits grant { pn with kind := .key } dn :=
            ⟨fun _ hfull => absurd rfl hfull.1, fun _ _ => hsmall d dn rfl hd (hmakes _ rfl)⟩
          obtain ⟨added, hadd, hcounted⟩ := plNodeAdd_counted hkey.1 node_append_self
            ((node_append_ne hdne).trans hd) hback hfits
          refine ⟨(added.1, some heap.length), ?_, hcounted⟩
          dsimp only
          rw [hadd, Option.map_some]

/-- A call that is meant and safe comes to its end, and leaves the counts right. -/
theorem step_counted (h : Counted heap) {call : Call} {grant : Grant} (hmeant : Meant heap call)
    (hsafe : Safe heap (call, grant)) : ∃ heap', step heap (call, grant) = some heap' ∧ Counted heap' := by
  have hmade : ∀ {f : Option (NodeHeap × Option Nat)}, (∃ made, f = some made ∧ Made heap made) →
      ∃ heap', f.map Prod.fst = some heap' ∧ Counted heap' := by
    rintro f ⟨made, rfl, hmade⟩
    exact ⟨made.1, rfl, hmade.counted h⟩
  cases call with
  | dictNew => exact ⟨_, rfl, (plNodeNew_made grant .dict heap).counted h⟩
  | arrayNew => exact ⟨_, rfl, (plNodeNew_made grant .array heap).counted h⟩
  | dataNew datum dlen =>
      obtain ⟨made, hrun, hdatum, _⟩ := plDataNew_made grant hmeant heap
      exact hmade ⟨made, hrun, hdatum⟩
  | keyNew key klen datum =>
      obtain ⟨made, hrun, hcounted⟩ := plKeyNew_counted h hmeant.1 hmeant.2 hsafe
      exact ⟨made.1, by rw [step, hrun, Option.map_some], hcounted⟩
  | dateNew datum dlen => exact hmade (datumNew_made grant hmeant .date heap)
  | stringNew datum dlen => exact hmade (datumNew_made grant hmeant .string heap)
  | boolNew bval => exact hmade (scalarNew_made hsafe .bool _ heap)
  | integerNew val => exact hmade (scalarNew_made hsafe .integer val heap)
  | nodeAdd bag node =>
      cases bag with
      | none => exact ⟨heap, rfl, h⟩
      | some b =>
          cases node with
          | none => exact ⟨heap, rfl, h⟩
          | some d =>
              obtain ⟨hb, hd, hback⟩ := hmeant b d rfl rfl
              obtain ⟨bn, hbn⟩ := mem_live.mp hb
              obtain ⟨dn, hdn⟩ := mem_live.mp hd
              obtain ⟨added, hrun, hcounted⟩ := plNodeAdd_counted h hbn hdn hback (hsafe b d bn dn rfl rfl hbn hdn)
              exact ⟨added.1, by rw [step, hrun, Option.map_some], hcounted⟩
  | nodeDelete node =>
      cases node with
      | none => exact ⟨heap, rfl, h⟩
      | some a =>
          obtain ⟨ha, hnone⟩ := hmeant a rfl
          obtain ⟨pn, hpn⟩ := mem_live.mp ha
          exact h.nodeDelete hpn hnone

theorem foldlM_counted (h : Counted heap) {history past : List (Call × Grant)}
    (hmeant : Along (fun heap call => Meant heap call.1) heap history) (hsafe : Along Safe heap history)
    (hpast : past <+: history) : ∃ heap', past.foldlM step heap = some heap' ∧ Counted heap' := by
  induction past generalizing heap history with
  | nil => exact ⟨heap, rfl, h⟩
  | cons call past ih =>
      obtain ⟨history, rfl, hrest⟩ := List.cons_prefix_iff.mp hpast
      obtain ⟨next, hnext, hcounted⟩ := step_counted h hmeant.1 hsafe.1
      obtain ⟨heap', hrun, hcounted'⟩ := ih hcounted (hmeant.2 next hnext) (hsafe.2 next hnext) hrest
      exact ⟨heap', by rw [List.foldlM_cons, hnext, Option.bind_eq_bind, Option.bind_some, hrun], hcounted'⟩

def granted : Grant := ⟨true, true, true⟩

theorem along_cons {P : NodeHeap → Call × Grant → Prop} {call : Call × Grant} {history : List (Call × Grant)}
    (hstep : step heap call = some heap') : Along P heap (call :: history) ↔ P heap call ∧ Along P heap' history := by
  constructor
  · exact fun h => ⟨h.1, h.2 heap' hstep⟩
  · rintro ⟨hcall, hrest⟩
    refine ⟨hcall, fun next hnext => ?_⟩
    rw [hstep, Option.some.injEq] at hnext
    rwa [← hnext]

/-- From a node without slots nothing but the node is reached. -/
theorem eq_of_walk (hnode : heap.node x = some pn) (hslots : pn.slots = [])
    (hwalk : Relation.ReflTransGen (Refers heap.slots heap.live) x c) : x = c := by
  rcases hwalk.cases_head with heq | ⟨y, href, _⟩
  · exact heq
  · have hy := href.2
    rw [slots_eq hnode, hslots] at hy
    exact absurd hy List.not_mem_nil

/-- An array holds an empty array twice, and goes with it. -/
def twiceHeld : List (Call × Grant) :=
  [(.arrayNew, granted), (.arrayNew, granted), (.nodeAdd (some 0) (some 1), granted),
    (.nodeAdd (some 0) (some 1), granted), (.nodeDelete (some 0), granted)]

theorem meant_add (hb : heap.node b = some bn) (hd : heap.node d = some dn) (hslots : dn.slots = []) (hne : d ≠ b) :
    Meant heap (.nodeAdd (some b) (some d)) := by
  intro b' d' hb' hd'
  cases hb'
  cases hd'
  exact ⟨mem_live.mpr ⟨bn, hb⟩, mem_live.mpr ⟨dn, hd⟩, fun hwalk => hne (eq_of_walk hd hslots hwalk)⟩

theorem twiceHeld_meant : Along (fun heap call => Meant heap call.1) [] twiceHeld := by
  refine (along_cons rfl).mpr ⟨trivial, (along_cons rfl).mpr ⟨trivial, (along_cons rfl).mpr ⟨?_, (along_cons rfl).mpr
    ⟨?_, (along_cons rfl).mpr ⟨?_, trivial⟩⟩⟩⟩⟩
  · exact meant_add rfl rfl rfl (by decide)
  · exact meant_add rfl rfl rfl (by decide)
  · intro a ha
    cases ha
    exact ⟨mem_live.mpr ⟨_, rfl⟩, by decide⟩

theorem safe_add (hb : heap.node b = some bn) (hd : heap.node d = some dn)
    (hcapacity : bn.acap + bn.acap / 4 + 1 < 2 ^ 29) (hcount : dn.refcnt < 2 ^ 31 - 1) :
    Safe heap (.nodeAdd (some b) (some d), granted) := by
  intro b' d' bn' dn' hb' hd' hbn' hdn'
  cases hb'
  cases hd'
  rw [hb, Option.some.injEq] at hbn'
  rw [hd, Option.some.injEq] at hdn'
  rw [← hbn', ← hdn']
  exact ⟨fun _ _ _ => hcapacity, fun _ _ => hcount⟩

theorem twiceHeld_safe : Along Safe [] twiceHeld := by
  refine (along_cons rfl).mpr ⟨trivial, (along_cons rfl).mpr ⟨trivial, (along_cons rfl).mpr ⟨?_, (along_cons rfl).mpr
    ⟨?_, (along_cons rfl).mpr ⟨trivial, trivial⟩⟩⟩⟩⟩
  · exact safe_add rfl rfl (by decide) (by decide)
  · exact safe_add rfl rfl (by decide) (by decide)

/-- The array at 0 has `n` entries, and the node at 1 is an empty array. -/
structure Filling (n : Nat) (heap : NodeHeap) (bn dn : PlNode) : Prop where
  heap : heap = [some bn, some dn]
  kind : bn.kind = .array
  entries : bn.amap.length = n
  room : n ≤ bn.acap
  narrow : bn.acap < 2 ^ 29
  slots : dn.slots = []

variable {n : Nat}

theorem Filling.attach (h : Filling n heap bn dn) (pn : PlNode) (hkind : pn.kind = .array) (hentries : pn.amap.length = n + 1)
    (hroom : n + 1 ≤ pn.acap) (hnarrow : pn.acap < 2 ^ 29) :
    ∃ heap' dn', attach heap 0 1 pn = some (heap', true) ∧ Filling (n + 1) heap' pn dn' := by
  obtain ⟨rfl, -, -, -, -, hslots⟩ := h
  exact ⟨[some pn, some { dn with refcnt := i32 (dn.refcnt + 1) }], _, rfl, rfl, hkind, hentries, hroom, hnarrow,
    hslots⟩

/-- One more entry, unless the grown array has the size of a smaller one. -/
theorem Filling.add (h : Filling n heap bn dn) :
    step heap (.nodeAdd (some 0) (some 1), granted) = none ∨
      ∃ heap' bn' dn', step heap (.nodeAdd (some 0) (some 1), granted) = some heap' ∧
        Filling (n + 1) heap' bn' dn' := by
  have hentries : (bn.amap ++ [1]).length = n + 1 := by
    rw [List.length_append, List.length_singleton, h.entries]
  have hroom := h.room
  have hnarrow := h.narrow
  have hstep : step heap (.nodeAdd (some 0) (some 1), granted) = (addItem granted heap 0 1 bn).map Prod.fst := by
    have hb : heap.node 0 = some bn := by rw [h.heap]; rfl
    have hd : heap.node 1 = some dn := by rw [h.heap]; rfl
    rw [step, plNodeAdd, hb, hd, Option.bind_eq_bind, Option.bind_some, Option.bind_some, h.kind]
  rw [hstep, addItem, h.entries]
  by_cases hfull : bn.acap ≤ n
  · rw [if_pos hfull]
    dsimp only
    have hncap : u32 (bn.acap + bn.acap / 4 + 1) = bn.acap + bn.acap / 4 + 1 := by
      unfold u32
      omega
    rw [hncap, if_neg (by decide)]
    by_cases hwide : u32 ((bn.acap + bn.acap / 4 + 1 : Nat) * 8) / 8 ≤ n
    · rw [if_pos hwide]
      exact Or.inl rfl
    · rw [if_neg hwide]
      have hless : bn.acap + bn.acap / 4 + 1 < 2 ^ 29 := by
        unfold u32 at hwide
        omega
      obtain ⟨heap', dn', hrun, hfilling⟩ := h.attach { bn with acap := _, amap := bn.amap ++ [1] } h.kind
        hentries (show n + 1 ≤ bn.acap + bn.acap / 4 + 1 by omega) hless
      exact Or.inr ⟨heap', _, dn', by rw [hrun, Option.map_some], hfilling⟩
  · rw [if_neg hfull]
    obtain ⟨heap', dn', hrun, hfilling⟩ := h.attach { bn with amap := bn.amap ++ [1] } h.kind hentries
      (show n + 1 ≤ bn.acap by omega) hnarrow
    exact Or.inr ⟨heap', _, dn', by rw [hrun, Option.map_some], hfilling⟩

theorem Filling.adds (h : Filling n heap bn dn) (k : Nat) :
    (List.replicate k (Call.nodeAdd (some 0) (some 1), granted)).foldlM step heap = none ∨
      n + k < 2 ^ 29 := by
  induction k generalizing n heap bn dn with
  | zero => exact Or.inr (h.room.trans_lt h.narrow)
  | succ k ih =>
      rw [List.replicate_succ, List.foldlM_cons]
      rcases h.add with hnone | ⟨heap', bn', dn', hstep, hfilling⟩
      · rw [hnone]
        exact Or.inl rfl
      · rw [hstep, Option.bind_eq_bind, Option.bind_some, Nat.add_comm k, ← Nat.add_assoc]
        exact ih hfilling

theorem Filling.meant (h : Filling n heap bn dn) (k : Nat) :
    Along (fun heap call => Meant heap call.1) heap (List.replicate k (.nodeAdd (some 0) (some 1), granted)) := by
  induction k generalizing n heap bn dn with
  | zero => trivial
  | succ k ih =>
      rw [List.replicate_succ]
      have hb : heap.node 0 = some bn := by rw [h.heap]; rfl
      have hd : heap.node 1 = some dn := by rw [h.heap]; rfl
      refine ⟨meant_add hb hd h.slots one_ne_zero, fun next hnext => ?_⟩
      rcases h.add with hnone | ⟨heap', bn', dn', hstep, hfilling⟩
      · rw [hnone] at hnext
        cases hnext
      · rw [hstep, Option.some.injEq] at hnext
        rw [← hnext]
        exact ih hfilling

/-- The history of two arrays, the first of which takes the second so often. -/
def fills (k : Nat) : List (Call × Grant) :=
  (.arrayNew, granted) :: (.arrayNew, granted) :: List.replicate k (.nodeAdd (some 0) (some 1), granted)

theorem filling_start : Filling 0 [some ⟨0, .array, none, none, 0, [], 0⟩, some ⟨0, .array, none, none, 0, [], 0⟩]
    ⟨0, .array, none, none, 0, [], 0⟩ ⟨0, .array, none, none, 0, [], 0⟩ :=
  ⟨rfl, rfl, rfl, le_rfl, by decide, rfl⟩

theorem fills_meant (k : Nat) : Along (fun heap call => Meant heap call.1) [] (fills k) :=
  (along_cons rfl).mpr ⟨trivial, (along_cons rfl).mpr ⟨trivial, filling_start.meant k⟩⟩

/-- Before the array has `2 ^ 29` entries it is grown to a block of a few. -/
theorem run_fills {k : Nat} (hk : 2 ^ 29 ≤ k) : run (fills k) = none := by
  rcases filling_start.adds k with hnone | hlt
  · exact hnone
  · omega

end BareBoot.Nodes
