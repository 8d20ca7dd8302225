import BareBoot.EntrySearch

/-! The entry iterator of `device_tree.c`: a stack of scopes, of which a call changes the innermost one, and
which stays as it is below the scope a caller has entered and not left again. -/

namespace BareBoot.DeviceTree

open Kext
open Plist (Bytes ascii)

/-! ### Scopes -/

/-- The scopes that are in force, the innermost first. -/
def EntryIterator.scopes (iter : EntryIterator) : List SavedScope :=
  ⟨iter.currentScope, iter.currentEntry, iter.currentIndex⟩ :: iter.savedScope

/-- The children of a node with their addresses. -/
def childNodes (node : Nat × Tree Record) : List (Nat × Tree Record) := siblings (kidsAt node.1 node.2.label) node.2.kids

/-- A scope is a node of the tree, with its first children handed out. -/
structure SavedScope.Of (s : SavedScope) (node : Nat × Tree Record) : Prop where
  scope : s.scope = node.1
  index : s.index ≤ (childNodes node).length
  entry : s.entry = ((childNodes node).take s.index).getLast?.map Prod.fst

def SavedScope.freshScope (a : Nat) : SavedScope := ⟨a, none, 0⟩

/-- The answer where `i` entries have been asked for before. -/
def answerAt (nodes : List (Nat × Tree Record)) (i : Nat) : Answer :=
  match nodes[i]? with
  | none => .iterationDone
  | some node => .success (some node.1)

/-! ### Sequences of calls -/

/-- How many scopes the caller is in afterwards, above the one it was in at depth zero. -/
def Call.depthAfter (depth : Nat) : Call → Nat
  | .enter (some _) => depth + 1
  | .exit => depth - 1
  | _ => depth

def depthAfter (depth : Nat) (cs : List Call) : Nat := cs.foldl Call.depthAfter depth

/-- The scope of depth zero is not left. -/
def Within : Nat → List Call → Prop
  | _, [] => True
  | depth, c :: cs => (c = .exit → 0 < depth) ∧ Within (c.depthAfter depth) cs

/-- The scope of depth zero is not restarted. -/
def Unrestarted : Nat → List Call → Prop
  | _, [] => True
  | depth, c :: cs => (c = .restart → 0 < depth) ∧ Unrestarted (c.depthAfter depth) cs

/-- The entries that are entered are nodes of the tree. -/
def Admissible (nodes : List (Nat × Tree Record)) (cs : List Call) : Prop :=
  ∀ child, .enter (some child) ∈ cs → ∃ node, (child, node) ∈ nodes

/-- The answers to the iterations in the scope of depth zero. -/
def ownAnswers : Nat → List Call → List Answer → List Answer
  | depth, c :: cs, answer :: answers =>
      if depth = 0 ∧ c = .iterate then answer :: ownAnswers (c.depthAfter depth) cs answers
      else ownAnswers (c.depthAfter depth) cs answers
  | _, _, _ => []

/-- The number of iterations in the scope of depth zero. -/
def iterations : Nat → List Call → Nat
  | _, [] => 0
  | depth, c :: cs =>
      if depth = 0 ∧ c = .iterate then iterations (c.depthAfter depth) cs + 1 else iterations (c.depthAfter depth) cs

/-- The scope in force has just been started: the iterator is new, or the last call has entered or restarted it. -/
def Started (cs : List Call) : Prop := ∀ c ∈ cs.getLast?, c = .restart ∨ ∃ child, c = .enter (some child)

/-! ### Children in memory -/

section Children

variable {memory : Memory} {fuel a b i : Nat} {forest : Forest Record} {node x y : Nat × Tree Record}

theorem siblings_length (a : Nat) (forest : Forest Record) : (siblings a forest).length = forest.trees.length := by
  induction forest generalizing a with
  | nil => rfl
  | cons record kids next _ ih => rw [siblings, Forest.trees, List.length_cons, List.length_cons, ih]

theorem siblings_first (h : (siblings a forest)[0]? = some x) : x.1 = a := by
  cases forest with
  | nil => cases h
  | cons record kids next =>
      obtain rfl := Option.some_inj.mp h
      rfl

theorem NodesAt.deeper (h : NodesAt memory fuel a forest) : NodesAt memory (fuel + 1) a forest :=
  ⟨h.bytes, h.fits, Nat.le_succ_of_le h.depth⟩

/-- From each child the next one is found. -/
theorem NodesAt.skipTree_sibling (h : NodesAt memory fuel a forest) (hx : (siblings a forest)[i]? = some x)
    (hy : (siblings a forest)[i + 1]? = some y) : DeviceTree.skipTree memory fuel (some x.1) = some (some y.1) := by
  induction forest generalizing a i with
  | nil => cases hx
  | cons record kids next _ ih =>
      rw [siblings, List.getElem?_cons_succ] at hy
      cases i with
      | zero =>
          obtain rfl := Option.some_inj.mp hx
          rw [h.skipTree, siblings_first hy]
      | succ i => exact ih h.behind hx hy

theorem NodesAt.single {record : Record} {kids next : Forest Record} (h : NodesAt memory fuel a (.cons record kids next)) :
    NodesAt memory fuel a (.single ⟨record, kids⟩) := by
  have hbytes := h.bytes
  have hdepth := h.depth
  rw [encodeNodes_cons, holds_append, Bool.and_eq_true] at hbytes
  refine ⟨hbytes.1, ⟨h.fits.1, h.fits.2.1, trivial⟩, ?_⟩
  simp only [Forest.single, height] at hdepth ⊢
  omega

/-- Every node of a forest in memory stands in memory. -/
theorem NodesAt.member (h : NodesAt memory fuel a forest) (hnode : node ∈ preorder a forest) :
    NodesAt memory fuel node.1 (.single node.2) := by
  induction forest generalizing fuel a with
  | nil => cases hnode
  | cons record kids next ihkids ihnext =>
      rw [preorder, List.mem_cons, List.mem_append] at hnode
      rcases hnode with rfl | hkids | hnext
      · exact h.single
      · obtain ⟨depth, rfl, hbelow⟩ := h.below
        exact (ihkids hbelow hkids).deeper
      · exact ihnext h.behind hnext

theorem childNodes_length (h : NodesAt memory fuel node.1 (.single node.2)) :
    nChildren memory node.1 = (childNodes node).length ∧ (childNodes node).length < 2 ^ 32 := by
  rw [childNodes, siblings_length]
  exact ⟨h.first.children, h.fits.1⟩

end Children

/-! ### One call -/

section Step

variable {memory : Memory} {fuel base : Nat} {root : Tree Record} {iter : EntryIterator} {s : SavedScope}
  {node : Nat × Tree Record}

theorem freshScope_of (node : Nat × Tree Record) : (SavedScope.freshScope node.1).Of node := ⟨rfl, Nat.zero_le _, rfl⟩

theorem take_last {nodes : List (Nat × Tree Record)} {i : Nat} {child : Nat × Tree Record} (h : nodes[i]? = some child) :
    (nodes.take (i + 1)).getLast?.map Prod.fst = some child.1 := by
  rw [List.take_add_one, h, Option.toList_some, List.getLast?_append, List.getLast?_singleton, Option.some_or]
  rfl

/-- One more child is handed out, if there is one. -/
theorem dtIterateEntries_eq (h : NodesAt memory fuel node.1 (.single node.2))
    (hs : SavedScope.Of ⟨iter.currentScope, iter.currentEntry, iter.currentIndex⟩ node) :
    ∃ iter', dtIterateEntries memory fuel iter = some (iter', answerAt (childNodes node) iter.currentIndex) ∧
      iter'.outerScope = iter.outerScope ∧ iter'.savedScope = iter.savedScope ∧
      iter'.currentIndex = min (iter.currentIndex + 1) (childNodes node).length ∧
      SavedScope.Of ⟨iter'.currentScope, iter'.currentEntry, iter'.currentIndex⟩ node := by
  obtain ⟨hchildren, hcount⟩ := childNodes_length h
  have hscope : iter.currentScope = node.1 := hs.scope
  have hindex : iter.currentIndex ≤ (childNodes node).length := hs.index
  have hentry : iter.currentEntry = ((childNodes node).take iter.currentIndex).getLast?.map Prod.fst := hs.entry
  obtain ⟨depth, rfl, hbelow⟩ := h.below
  unfold dtIterateEntries
  rw [hscope, hchildren]
  by_cases hdone : (childNodes node).length ≤ iter.currentIndex
  · have hnone : (childNodes node)[iter.currentIndex]? = none := List.getElem?_eq_none hdone
    rw [if_pos hdone, answerAt, hnone]
    exact ⟨iter, rfl, rfl, rfl, by omega, hs⟩
  · obtain ⟨child, hnext⟩ : ∃ child, (childNodes node)[iter.currentIndex]? = some child :=
      ⟨_, List.getElem?_eq_getElem (by omega)⟩
    have hwrap : (iter.currentIndex + 1) % 2 ^ 32 = iter.currentIndex + 1 := Nat.mod_eq_of_lt (by omega)
    have hstep : (if iter.currentIndex + 1 = 1 then some (skipProperties memory (some node.1))
        else skipTree memory (depth + 1) iter.currentEntry) = some (some child.1) := by
      cases hj : iter.currentIndex with
      | zero =>
          rw [hj] at hnext
          have hfirst : child.1 = kidsAt node.1 node.2.label := siblings_first hnext
          rw [if_pos rfl, hfirst]
          exact congrArg some h.skipProperties
      | succ j =>
          rw [hj] at hnext
          obtain ⟨previous, hprevious⟩ : ∃ previous, (childNodes node)[j]? = some previous :=
            ⟨_, List.getElem?_eq_getElem (by omega)⟩
          have hbefore : iter.currentEntry = some previous.1 := by
            rw [hentry, hj, take_last hprevious]
          rw [if_neg (by omega), hbefore]
          exact hbelow.deeper.skipTree_sibling hprevious hnext
    rw [if_neg hdone, answerAt, hnext, hwrap]
    dsimp only
    rw [hstep]
    refine ⟨_, rfl, rfl, rfl, ?_, rfl, ?_, (take_last hnext).symm⟩
    · dsimp only
      omega
    · dsimp only
      omega

/-- The scopes in force are nodes of the tree. -/
def Proper (nodes : List (Nat × Tree Record)) (iter : EntryIterator) : Prop := ∀ s ∈ iter.scopes, ∃ node ∈ nodes, s.Of node

/-- What a call does to the scope of depth zero, which has `depth` scopes above it. -/
structure Called (nodes : List (Nat × Tree Record)) (node : Nat × Tree Record) (depth : Nat) (own : SavedScope)
    (below : List SavedScope) (c : Call) (iter' : EntryIterator) (answer : Answer) (own' : SavedScope) : Prop where
  proper : Proper nodes iter'
  scopes : ∃ above, iter'.scopes = above ++ own' :: below ∧ above.length = c.depthAfter depth
  sound : own'.Of node
  given : depth = 0 → c = .iterate → answer = answerAt (childNodes node) own.index ∧
    own'.index = min (own.index + 1) (childNodes node).length
  kept : (c = .iterate → 0 < depth) → (c = .restart → 0 < depth) → own' = own

theorem scopes_eq {above below : List SavedScope} {own : SavedScope} (h : iter.scopes = above ++ own :: below) :
    (above = [] ∧ own = ⟨iter.currentScope, iter.currentEntry, iter.currentIndex⟩ ∧ iter.savedScope = below) ∨
      ∃ rest, above = ⟨iter.currentScope, iter.currentEntry, iter.currentIndex⟩ :: rest ∧
        iter.savedScope = rest ++ own :: below := by
  unfold EntryIterator.scopes at h
  cases above with
  | nil =>
      obtain ⟨hown, hbelow⟩ := List.cons.inj h
      exact Or.inl ⟨rfl, hown.symm, hbelow⟩
  | cons s rest =>
      obtain ⟨hs, hrest⟩ := List.cons.inj h
      exact Or.inr ⟨rest, by rw [hs], hrest⟩

theorem call_spec (h : NodesAt memory fuel base (.single root)) {c : Call} {depth : Nat} {own : SavedScope}
    {above below : List SavedScope} (hproper : Proper (preorder base (.single root)) iter)
    (hadmissible : ∀ child, c = .enter (some child) → ∃ node, (child, node) ∈ preorder base (.single root))
    (hscopes : iter.scopes = above ++ own :: below) (hdepth : above.length = depth)
    (hnode : node ∈ preorder base (.single root)) (hown : own.Of node) (hwithin : c = .exit → 0 < depth) :
    ∃ iter' answer own', call memory fuel iter c = some (iter', answer) ∧ iter'.outerScope = iter.outerScope ∧
      Called (preorder base (.single root)) node depth own below c iter' answer own' := by
  have hsaved : ∀ s ∈ iter.savedScope, ∃ node ∈ preorder base (.single root), s.Of node :=
    fun s hs => hproper s (List.mem_cons_of_mem _ hs)
  cases c with
  | iterate =>
      obtain ⟨head, hhead, hof⟩ := hproper _ List.mem_cons_self
      obtain ⟨iter', hrun, houter, hkeep, -, hof'⟩ := dtIterateEntries_eq (h.member hhead) hof
      have hproper' : Proper (preorder base (.single root)) iter' := by
        intro s hs
        rcases List.mem_cons.mp hs with rfl | hs
        · exact ⟨head, hhead, hof'⟩
        · exact hsaved s (hkeep ▸ hs)
      rcases scopes_eq hscopes with ⟨rfl, rfl, hbelow⟩ | ⟨rest, rfl, hrest⟩
      · obtain ⟨iter'', hrun', -, -, hindex, hof''⟩ := dtIterateEntries_eq (h.member hnode) hown
        obtain ⟨rfl, hanswer⟩ := Prod.mk.inj (Option.some_inj.mp (hrun.symm.trans hrun'))
        refine ⟨iter', _, ⟨iter'.currentScope, iter'.currentEntry, iter'.currentIndex⟩, hrun, houter, hproper', ?_, hof'',
          fun _ _ => ⟨hanswer, hindex⟩, fun hpos _ => ?_⟩
        · exact ⟨[], by rw [EntryIterator.scopes, hkeep, hbelow]; rfl, hdepth⟩
        · exact absurd (hpos rfl) (by rw [← hdepth]; exact Nat.lt_irrefl 0)
      · refine ⟨iter', _, own, hrun, houter, hproper', ?_, hown, fun hzero _ => ?_, fun _ _ => rfl⟩
        · exact ⟨⟨iter'.currentScope, iter'.currentEntry, iter'.currentIndex⟩ :: rest, by rw [EntryIterator.scopes, hkeep, hrest]; rfl,
            hdepth⟩
        · rw [hzero] at hdepth
          cases hdepth
  | enter childEntry =>
      cases childEntry with
      | none => exact ⟨iter, .error, own, rfl, rfl, hproper, ⟨above, hscopes, hdepth⟩, hown, (fun _ hc => nomatch hc), fun _ _ => rfl⟩
      | some child =>
          obtain ⟨entered, hentered⟩ := hadmissible child rfl
          refine ⟨_, .success none, own, rfl, rfl, ?_, ⟨SavedScope.freshScope child :: above, ?_, ?_⟩, hown,
            (fun _ hc => nomatch hc), fun _ _ => rfl⟩
          · intro s hs
            rcases List.mem_cons.mp hs with rfl | hs
            · exact ⟨(child, entered), hentered, freshScope_of (child, entered)⟩
            · exact hproper s hs
          · exact congrArg (SavedScope.freshScope child :: ·) hscopes
          · exact congrArg (· + 1) hdepth
  | exit =>
      have hpos := hwithin rfl
      rcases scopes_eq hscopes with ⟨rfl, -, -⟩ | ⟨rest, rfl, hrest⟩
      · rw [← hdepth] at hpos
        cases hpos
      · cases hsaves : iter.savedScope with
        | nil =>
            rw [hsaves] at hrest
            cases rest <;> cases hrest
        | cons newScope nextScope =>
            obtain ⟨saved, hmem, hof⟩ := hsaved newScope (hsaves ▸ List.mem_cons_self)
            have hindex : newScope.index % 2 ^ 32 = newScope.index :=
              Nat.mod_eq_of_lt (hof.index.trans_lt (childNodes_length (h.member hmem)).2)
            have hrun : dtExitEntry iter =
                (⟨iter.outerScope, newScope.scope, newScope.entry, nextScope, newScope.index % 2 ^ 32⟩,
                  .success newScope.entry) := by
              rw [dtExitEntry, hsaves]
            refine ⟨_, .success newScope.entry, own, congrArg some hrun, rfl, ?_, ⟨rest, ?_, ?_⟩, hown,
              (fun _ hc => nomatch hc), fun _ _ => rfl⟩
            · intro s hs
              rw [EntryIterator.scopes] at hs
              dsimp only at hs
              rw [hindex] at hs
              exact hsaved s (hsaves ▸ hs)
            · rw [EntryIterator.scopes]
              dsimp only
              rw [hindex, ← hrest, hsaves]
            · rw [Call.depthAfter, ← hdepth]
              rfl
  | restart =>
      obtain ⟨head, hhead, hof⟩ := hproper _ List.mem_cons_self
      have hfresh : ∀ node, SavedScope.Of ⟨iter.currentScope, iter.currentEntry, iter.currentIndex⟩ node →
          SavedScope.Of ⟨iter.currentScope, none, 0⟩ node := fun node hnode => ⟨hnode.scope, Nat.zero_le _, rfl⟩
      have hproper' : Proper (preorder base (.single root)) (dtRestartEntryIteration iter).1 := by
        intro s hs
        rcases List.mem_cons.mp hs with rfl | hs
        · exact ⟨head, hhead, hfresh head hof⟩
        · exact hsaved s hs
      rcases scopes_eq hscopes with ⟨rfl, rfl, hbelow⟩ | ⟨rest, rfl, hrest⟩
      · refine ⟨_, _, ⟨iter.currentScope, none, 0⟩, rfl, rfl, hproper', ⟨[], ?_, hdepth⟩, hfresh node hown, (fun _ hc => nomatch hc),
          fun _ hpos => ?_⟩
        · rw [← hbelow]
          rfl
        · exact absurd (hpos rfl) (by rw [← hdepth]; exact Nat.lt_irrefl 0)
      · refine ⟨_, _, own, rfl, rfl, hproper', ⟨⟨iter.currentScope, none, 0⟩ :: rest, ?_, hdepth⟩, hown, (fun _ hc => nomatch hc),
          fun _ _ => rfl⟩
        rw [List.cons_append, ← hrest]
        rfl

end Step

/-! ### Runs -/

section Run

variable {memory : Memory} {fuel base : Nat} {root : Tree Record} {iter : EntryIterator} {node : Nat × Tree Record}
  {below : List SavedScope}

/-- What a sequence of calls does to the scope of depth zero, of which `i` entries have been asked for. -/
structure Ran (nodes : List (Nat × Tree Record)) (node : Nat × Tree Record) (depth i : Nat) (below : List SavedScope)
    (cs : List Call) (iter' : EntryIterator) (answers : List Answer) : Prop where
  proper : Proper nodes iter'
  scopes : ∃ above own', iter'.scopes = above ++ own' :: below ∧ above.length = depthAfter depth cs ∧ own'.Of node
  given : Unrestarted depth cs →
    ownAnswers depth cs answers = (List.range (iterations depth cs)).map fun j => answerAt (childNodes node) (i + j)

theorem answerAt_min (nodes : List (Nat × Tree Record)) (i : Nat) : answerAt nodes (min i nodes.length) = answerAt nodes i := by
  by_cases h : i ≤ nodes.length
  · rw [Nat.min_eq_left h]
  · rw [Nat.min_eq_right (by omega), answerAt, answerAt, List.getElem?_eq_none (Nat.le_refl _),
      List.getElem?_eq_none (by omega)]

theorem calls_spec (h : NodesAt memory fuel base (.single root)) (hnode : node ∈ preorder base (.single root))
    {cs : List Call} {depth i : Nat} {own : SavedScope} {above : List SavedScope}
    (hproper : Proper (preorder base (.single root)) iter) (hadmissible : Admissible (preorder base (.single root)) cs)
    (hscopes : iter.scopes = above ++ own :: below) (hdepth : above.length = depth) (hown : own.Of node)
    (hindex : own.index = min i (childNodes node).length) (hwithin : Within depth cs) :
    ∃ iter' answers, calls memory fuel iter cs = some (iter', answers) ∧ iter'.outerScope = iter.outerScope ∧
      Ran (preorder base (.single root)) node depth i below cs iter' answers := by
  induction cs generalizing iter depth i own above with
  | nil => exact ⟨iter, [], rfl, rfl, hproper, ⟨above, own, hscopes, hdepth, hown⟩, fun _ => rfl⟩
  | cons c cs ih =>
      have hadmissible' : Admissible (preorder base (.single root)) cs :=
        fun child hmem => hadmissible child (List.mem_cons_of_mem _ hmem)
      obtain ⟨iter', answer, own', hcall, houter, hcalled⟩ := call_spec h hproper
        (fun child hc => hadmissible child (hc ▸ List.mem_cons_self)) hscopes hdepth hnode hown hwithin.1
      obtain ⟨above', hscopes', hdepth'⟩ := hcalled.scopes
      by_cases hiterate : depth = 0 ∧ c = .iterate
      · obtain ⟨hanswer, hindex'⟩ := hcalled.given hiterate.1 hiterate.2
        rw [hindex] at hanswer hindex'
        rw [answerAt_min] at hanswer
        obtain ⟨iter'', answers, hcalls, houter', hran⟩ := ih (i := i + 1) hcalled.proper hadmissible' hscopes' hdepth'
          hcalled.sound (by omega) hwithin.2
        refine ⟨iter'', answer :: answers, ?_, houter'.trans houter, hran.proper, hran.scopes, ?_⟩
        · rw [calls, hcall, Option.bind_eq_bind, Option.bind_some, hcalls]
          rfl
        · intro hun
          rw [ownAnswers, iterations, if_pos hiterate, if_pos hiterate, hran.given hun.2, hanswer, List.range_succ_eq_map,
            List.map_cons, List.map_map]
          congr 2
          funext j
          rw [Function.comp_apply, Nat.succ_eq_add_one, Nat.add_right_comm, Nat.add_assoc]
      · by_cases hrestart : depth = 0 ∧ c = .restart
        · -- the answers are not followed any more
          obtain ⟨iter'', answers, hcalls, houter', hran⟩ := ih (i := own'.index) hcalled.proper hadmissible' hscopes' hdepth'
            hcalled.sound (Nat.min_eq_left hcalled.sound.index).symm hwithin.2
          refine ⟨iter'', answer :: answers, ?_, houter'.trans houter, hran.proper, hran.scopes, ?_⟩
          · rw [calls, hcall, Option.bind_eq_bind, Option.bind_some, hcalls]
            rfl
          · intro hun
            have hpos := hun.1 hrestart.2
            omega
        · have hkept : own' = own := by
            apply hcalled.kept
            · intro hc
              by_contra hzero
              exact hiterate ⟨by omega, hc⟩
            · intro hc
              by_contra hzero
              exact hrestart ⟨by omega, hc⟩
          subst hkept
          obtain ⟨iter'', answers, hcalls, houter', hran⟩ := ih hcalled.proper hadmissible' hscopes' hdepth' hown hindex
            hwithin.2
          refine ⟨iter'', answer :: answers, ?_, houter'.trans houter, hran.proper, hran.scopes, ?_⟩
          · rw [calls, hcall, Option.bind_eq_bind, Option.bind_some, hcalls]
            rfl
          · intro hun
            rw [ownAnswers, iterations, if_neg hiterate, if_neg hiterate]
            exact hran.given hun.2

theorem calls_append (memory : Memory) (fuel : Nat) (iter : EntryIterator) (cs cs' : List Call) :
    calls memory fuel iter (cs ++ cs') = (calls memory fuel iter cs).bind fun first =>
      (calls memory fuel first.1 cs').map fun second => (second.1, first.2 ++ second.2) := by
  induction cs generalizing iter with
  | nil =>
      rw [List.nil_append, calls, Option.bind_some]
      exact Option.map_id_apply.symm
  | cons c cs ih =>
      simp only [List.cons_append, calls, Option.bind_eq_bind]
      cases call memory fuel iter c with
      | none => rfl
      | some first =>
          rw [Option.bind_some, Option.bind_some, ih]
          cases calls memory fuel first.1 cs with
          | none => rfl
          | some rest =>
              simp only [Option.bind_some]
              cases calls memory fuel rest.1 cs' <;> rfl

theorem call_proper (h : NodesAt memory fuel base (.single root)) {c : Call} (hproper : Proper (preorder base (.single root)) iter)
    (hadmissible : ∀ child, c = .enter (some child) → ∃ node, (child, node) ∈ preorder base (.single root)) :
    ∃ iter' answer, call memory fuel iter c = some (iter', answer) ∧ Proper (preorder base (.single root)) iter' := by
  by_cases hexit : c = .exit
  · subst hexit
    cases hsaved : iter.savedScope with
    | nil => exact ⟨iter, .error, by simp only [call, dtExitEntry, hsaved], hproper⟩
    | cons saved rest =>
        have hscopes : iter.scopes = [⟨iter.currentScope, iter.currentEntry, iter.currentIndex⟩] ++ saved :: rest := by
          rw [EntryIterator.scopes, hsaved]
          rfl
        obtain ⟨node, hnode, hof⟩ := hproper saved (by rw [hscopes]; exact List.mem_append_right _ List.mem_cons_self)
        obtain ⟨iter', answer, _, hcall, -, hcalled⟩ := call_spec h hproper hadmissible hscopes rfl hnode hof fun _ => Nat.one_pos
        exact ⟨iter', answer, hcall, hcalled.proper⟩
  · have hscopes : iter.scopes = [] ++ ⟨iter.currentScope, iter.currentEntry, iter.currentIndex⟩ :: iter.savedScope := rfl
    obtain ⟨node, hnode, hof⟩ := hproper _ List.mem_cons_self
    obtain ⟨iter', answer, _, hcall, -, hcalled⟩ := call_spec h hproper hadmissible hscopes rfl hnode hof fun hc => absurd hc hexit
    exact ⟨iter', answer, hcall, hcalled.proper⟩

theorem calls_proper (h : NodesAt memory fuel base (.single root)) {cs : List Call}
    (hproper : Proper (preorder base (.single root)) iter) (hadmissible : Admissible (preorder base (.single root)) cs) :
    ∃ iter' answers, calls memory fuel iter cs = some (iter', answers) ∧ Proper (preorder base (.single root)) iter' := by
  induction cs generalizing iter with
  | nil => exact ⟨iter, [], rfl, hproper⟩
  | cons c cs ih =>
      obtain ⟨iter', answer, hcall, hproper'⟩ := call_proper h hproper fun child hc => hadmissible child (hc ▸ List.mem_cons_self)
      obtain ⟨iter'', answers, hcalls, hproper''⟩ := ih hproper' fun child hmem => hadmissible child (List.mem_cons_of_mem _ hmem)
      refine ⟨iter'', answer :: answers, ?_, hproper''⟩
      rw [calls, hcall, Option.bind_eq_bind, Option.bind_some, hcalls]
      rfl

/-- Nothing has been handed out in a scope that has just been started. -/
theorem calls_started {cs : List Call} {iter' : EntryIterator} {answers : List Answer} (hindex : iter.currentIndex = 0)
    (hrun : calls memory fuel iter cs = some (iter', answers)) (hstarted : Started cs) : iter'.currentIndex = 0 := by
  cases cs using List.reverseRecOn with
  | nil =>
      obtain ⟨rfl, -⟩ := Prod.mk.inj (Option.some_inj.mp hrun)
      exact hindex
  | append_singleton cs c =>
      rw [calls_append] at hrun
      obtain ⟨first, -, hlast⟩ := Option.bind_eq_some_iff.mp hrun
      obtain ⟨second, hsecond, hpair⟩ := Option.map_eq_some_iff.mp hlast
      obtain ⟨rfl, -⟩ := Prod.mk.inj hpair
      rcases hstarted c (by rw [List.getLast?_concat]; rfl) with rfl | ⟨child, rfl⟩
      · obtain rfl := Option.some_inj.mp hsecond
        rfl
      · obtain rfl := Option.some_inj.mp hsecond
        rfl

/-- What happens between an entry and the exit that matches it is undone by the exit. -/
theorem calls_matched (h : NodesAt memory fuel base (.single root)) (hproper : Proper (preorder base (.single root)) iter)
    {child : Nat} {cs : List Call} (hadmissible : Admissible (preorder base (.single root)) (.enter (some child) :: cs))
    (hwithin : Within 0 cs) (hdepth : depthAfter 0 cs = 0) :
    ∃ answers, calls memory fuel iter (.enter (some child) :: cs ++ [.exit]) =
      some (iter, answers ++ [.success iter.currentEntry]) := by
  obtain ⟨entered, hentered⟩ := hadmissible child List.mem_cons_self
  have hproper' : Proper (preorder base (.single root)) (dtEnterEntry iter (some child)).1 := by
    intro s hs
    rcases List.mem_cons.mp hs with rfl | hs
    · exact ⟨(child, entered), hentered, freshScope_of (child, entered)⟩
    · exact hproper s hs
  have hscopes : (dtEnterEntry iter (some child)).1.scopes = [] ++ SavedScope.freshScope child :: iter.scopes := rfl
  obtain ⟨iter', answers, hrun, houter, hran⟩ := calls_spec h hentered hproper'
    (fun child hmem => hadmissible child (List.mem_cons_of_mem _ hmem)) hscopes List.length_nil (freshScope_of (child, entered))
    (Nat.zero_min _).symm hwithin
  obtain ⟨above, own, hscopes', hlength, -⟩ := hran.scopes
  rw [hdepth, List.length_eq_zero_iff] at hlength
  subst hlength
  obtain ⟨-, hsaved⟩ := List.cons.inj hscopes'
  obtain ⟨node, hnode, hof⟩ := hproper _ List.mem_cons_self
  have hindex : iter.currentIndex % 2 ^ 32 = iter.currentIndex :=
    Nat.mod_eq_of_lt (hof.index.trans_lt (childNodes_length (h.member hnode)).2)
  have hexit : dtExitEntry iter' = (iter, .success iter.currentEntry) := by
    rw [dtExitEntry, hsaved, EntryIterator.scopes]
    dsimp only
    rw [hindex, houter]
    rfl
  refine ⟨.success none :: answers, ?_⟩
  have hlast : calls memory fuel iter' [.exit] = some (iter, [.success iter.currentEntry]) := by
    rw [calls, call, hexit]
    rfl
  have hfirst : calls memory fuel iter (.enter (some child) :: cs) = some (iter', .success none :: answers) := by
    rw [calls, call, Option.bind_eq_bind, Option.bind_some, hrun]
    rfl
  rw [calls_append, hfirst, Option.bind_some, hlast]
  rfl

/-- From the start of a scope on its children are handed out once each, in order, and then the iteration is done,
whatever happens in the scopes that are entered in between; and an exit restores what was in force at the entry. -/
theorem entryIterator_spec (hbase : base ≠ 0) (hroot : holds memory base (encodeNode root) = true) (hfits : Fits (.single root))
    (hfuel : height (.single root) ≤ fuel) (startEntry : Option Nat)
    (hstart : ∀ start ∈ startEntry, ∃ node, (start, node) ∈ preorder base (.single root)) :
    ∃ iter, dtCreateEntryIterator (dtInit base) startEntry = some iter ∧
      ∀ before, Admissible (preorder base (.single root)) before →
        ∃ iter' answers, calls memory fuel iter before = some (iter', answers) ∧
          (∀ cs, Started before → Admissible (preorder base (.single root)) cs → Within 0 cs → Unrestarted 0 cs →
            ∃ iter'' answers', calls memory fuel iter' cs = some (iter'', answers') ∧
              ∃ node ∈ preorder base (.single root), iter'.currentScope = node.1 ∧
                ownAnswers 0 cs answers' = (List.range (iterations 0 cs)).map (answerAt (childNodes node))) ∧
          ∀ child cs, Admissible (preorder base (.single root)) (.enter (some child) :: cs) → Within 0 cs →
            depthAfter 0 cs = 0 → ∃ answers', calls memory fuel iter' (.enter (some child) :: cs ++ [.exit]) =
              some (iter', answers' ++ [.success iter'.currentEntry]) := by
  have h : NodesAt memory fuel base (.single root) := ⟨hroot, hfits, hfuel⟩
  have hdevice : (dtInit base).initialized = true := decide_eq_true hbase
  have hscope : ∃ node, (startEntry.getD base, node) ∈ preorder base (.single root) := by
    cases startEntry with
    | none => exact ⟨root, List.mem_cons_self⟩
    | some start => exact hstart start rfl
  obtain ⟨first, hfirst⟩ := hscope
  refine ⟨⟨startEntry.getD base, startEntry.getD base, none, [], 0⟩, ?_, ?_⟩
  · rw [dtCreateEntryIterator, hdevice, if_neg Bool.noConfusion]
    rfl
  · intro before hbefore
    have hnew : Proper (preorder base (.single root)) ⟨startEntry.getD base, startEntry.getD base, none, [], 0⟩ := by
      intro s hs
      obtain rfl := List.mem_singleton.mp hs
      exact ⟨_, hfirst, freshScope_of (startEntry.getD base, first)⟩
    obtain ⟨iter', answers, hrun, hproper⟩ := calls_proper h hnew hbefore
    refine ⟨iter', answers, hrun, ?_, ?_⟩
    · intro cs hstarted hadmissible hwithin hun
      obtain ⟨node, hnode, hof⟩ := hproper _ List.mem_cons_self
      have hindex : iter'.currentIndex = min 0 (childNodes node).length := by
        rw [Nat.zero_min]
        exact calls_started rfl hrun hstarted
      obtain ⟨iter'', answers', hrun', -, hran⟩ := calls_spec h hnode hproper hadmissible (List.nil_append _).symm List.length_nil hof hindex
        hwithin
      refine ⟨iter'', answers', hrun', node, hnode, hof.scope, ?_⟩
      simpa only [Nat.zero_add] using hran.given hun
    · intro child cs hadmissible hwithin hdepth
      exact calls_matched h hproper hadmissible hwithin hdepth

end Run

theorem consoleTree_iterator :
    ∃ iter, dtCreateEntryIterator (dtInit 4096) none = some iter ∧
      ∀ before, Admissible (preorder 4096 (.single consoleTree)) before →
        ∃ iter' answers, calls consoleMemory 2 iter before = some (iter', answers) ∧
          (∀ cs, Started before → Admissible (preorder 4096 (.single consoleTree)) cs → Within 0 cs → Unrestarted 0 cs →
            ∃ iter'' answers', calls consoleMemory 2 iter' cs = some (iter'', answers') ∧
              ∃ node ∈ preorder 4096 (.single consoleTree), iter'.currentScope = node.1 ∧
                ownAnswers 0 cs answers' = (List.range (iterations 0 cs)).map (answerAt (childNodes node))) ∧
          ∀ child cs, Admissible (preorder 4096 (.single consoleTree)) (.enter (some child) :: cs) → Within 0 cs →
            depthAfter 0 cs = 0 → ∃ answers', calls consoleMemory 2 iter' (.enter (some child) :: cs ++ [.exit]) =
              some (iter', answers' ++ [.success iter'.currentEntry]) := by
  have hroot : holds consoleMemory 4096 (encodeNode consoleTree) = true := by decide +kernel
  have hfits : Fits (.single consoleTree) := by
    refine ⟨by decide, ⟨by decide, trivial, by decide, trivial, trivial⟩, trivial⟩
  exact entryIterator_spec (by decide) hroot hfits (by decide) none fun _ hstart => nomatch hstart

end BareBoot.DeviceTree
