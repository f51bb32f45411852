import ShiftReduce.Proofs.Merging
import ShiftReduce.Proofs.Moments

/-!
# Finding a state in the middle of a pass

While states are closed and created, the state for a kernel is looked up among all states that are
there, appended or not.  In canonical mode only the states indexed under the cores of the kernel are
compared with it, which leaves out none that has the kernel; as no two states have the same kernel,
at most one is found.  In superset mode the items of every state are searched.  A kernel that a
transition leads to has no item at the start of its rule, and closing a state changes no other items;
so it plays no part which states have been closed, and the first state whose kernel contains the
kernel at hand is found.

    Reached g f .canonical m → (m.construction.findNode .canonical kernel = some id ↔
      ∃ node, … node.id = id ∧ node.kernel.Agrees kernel)                    (canonical_lookup)
    Reached g f .superset m → (m.construction.findNode .superset kernel = some id ↔
      … id is the least number of a node with node.kernel.Takes kernel …)    (superset_lookup)
-/

namespace ShiftReduce

variable {g : Grammar} {f : FirstSets} {rules : List Rule} {start : Symbol}

namespace ItemSet

/-- The same cores, each with the same lookaheads. -/
def Agrees (items other : ItemSet) : Prop :=
  (∀ c, items.Has c ↔ other.Has c) ∧ ∀ c t, items.Looks c t ↔ other.Looks c t

/-- The cores of the part are there, each with the lookaheads that it has in the part. -/
def Takes (items part : ItemSet) : Prop :=
  ∀ c, part.Has c → items.Has c ∧ ∀ t, items.Looks c t ↔ part.Looks c t

variable {items other part : ItemSet}

theorem agrees_iff_same : items.Agrees other ↔ items.same other = true := same_iff.symm

theorem takes_iff_contains : items.Takes part ↔ items.contains part = true := contains_iff.symm

end ItemSet

namespace Construction

variable {c : Construction} {kernel : ItemSet}

/-- The kernel with a number is that of the state with the number, wherever the state is. -/
theorem Numbered.kernel?_eq_some_iff_mem (hc : c.Numbered g f) {i : StateId} :
    c.kernel? i = some kernel ↔ ∃ node ∈ c.allNodes, node.id = i ∧ node.kernel = kernel := by
  rw [kernel?_eq_some_iff]
  constructor
  · rintro ⟨node, hnode, hkernel⟩
    exact ⟨node, List.mem_of_getElem? hnode, hc.id_eq hnode, hkernel⟩
  · rintro ⟨node, hmem, rfl, hkernel⟩
    obtain ⟨i, hnode⟩ := List.mem_iff_getElem?.1 hmem
    exact ⟨node, by rwa [hc.id_eq hnode], hkernel⟩

/-! ## By equal kernels -/

theorem Numbered.findNode_canonical_iff (hc : c.Numbered g f) {i : StateId} :
    c.findNode .canonical kernel = some i ↔
      ∃ found, c.kernel? i = some found ∧ found.same kernel = true := by
  constructor
  · exact same_of_findNode
  · rintro ⟨found, hi, hsame⟩
    cases hfind : c.findNode .canonical kernel with
    | none => exact absurd hsame (hc.not_same_of_findNode hfind hi)
    | some j =>
      obtain ⟨other, hj, hother⟩ := same_of_findNode hfind
      rw [hc.distinct hj hi (ItemSet.same_trans hother (ItemSet.same_symm hsame))]

/-- The index leaves out no state: searching all of them finds the same. -/
theorem Numbered.findNode_canonical_eq (hc : c.Numbered g f) :
    c.findNode .canonical kernel =
      (c.allNodes.find? fun node => node.kernel.same kernel).map (·.id) := by
  cases hfind : c.allNodes.find? fun node => node.kernel.same kernel with
  | none =>
    refine Option.eq_none_iff_forall_ne_some.2 fun i hi => ?_
    obtain ⟨found, hfound, hsame⟩ := same_of_findNode hi
    obtain ⟨node, hnode, rfl⟩ := kernel?_eq_some_iff.1 hfound
    exact List.find?_eq_none.1 hfind node (List.mem_of_getElem? hnode) hsame
  | some node =>
    obtain ⟨i, hi⟩ := List.mem_iff_getElem?.1 (List.mem_of_find?_eq_some hfind)
    have hkernel : c.kernel? i = some node.kernel := kernel?_eq_some_iff.2 ⟨node, hi, rfl⟩
    rw [Option.map_some, hc.id_eq hi]
    have hsame : node.kernel.same kernel = true := by simpa using List.find?_some hfind
    exact hc.findNode_canonical_iff.2 ⟨node.kernel, hkernel, hsame⟩

/-! ## By contained kernels -/

section Containing

variable (hg : g.WellFormed) (hf : f.Exact g) (hc : c.Numbered g f) (hkernel : kernel.Advanced)
include hg hf hc hkernel

theorem Numbered.findNode_superset_iff {i : StateId} :
    c.findNode .superset kernel = some i ↔
      (∃ found, c.kernel? i = some found ∧ found.contains kernel = true) ∧
      ∀ j found, c.kernel? j = some found → found.contains kernel = true → i ≤ j := by
  constructor
  · intro hfind
    refine ⟨matches_of_findNode hg hf hc hkernel hfind, fun j found hj hcontains => ?_⟩
    by_contra hlt
    exact not_contains_of_findNode hg hf hc hkernel hfind (Nat.lt_of_not_le hlt) hj hcontains
  · rintro ⟨⟨found, hi, hcontains⟩, hleast⟩
    cases hfind : c.findNode .superset kernel with
    | none => exact absurd hcontains (not_matches_of_findNode hg hf hc hkernel hfind hi)
    | some j =>
      obtain ⟨other, hj, hother⟩ := matches_of_findNode hg hf hc hkernel hfind
      have hij := hleast j other hj hother
      have hji : j ≤ i := by
        by_contra hlt
        exact not_contains_of_findNode hg hf hc hkernel hfind (Nat.lt_of_not_le hlt) hi hcontains
      rw [Nat.le_antisymm hji hij]

end Containing

end Construction

/-! ## At every moment -/

variable {m : Moment}

/-- At every moment of the canonical construction, and for any kernel, the state that is found is the
one state, appended or not, that has the kernel, as if all of them were searched. -/
theorem Reached.canonical_lookup (h : Grammar.ofRules rules start = .ok g)
    (hm : Reached g (.ofGrammar g) .canonical m) (kernel : ItemSet) :
    (∀ id, m.construction.findNode .canonical kernel = some id ↔
      ∃ node, m.construction.node? id = some node ∧ node.id = id ∧ node.kernel.Agrees kernel) ∧
    (∀ i j a b, m.construction.node? i = some a → m.construction.node? j = some b →
      a.kernel.Agrees kernel → b.kernel.Agrees kernel → i = j) ∧
    m.construction.findNode .canonical kernel =
      (m.construction.allNodes.find? fun node => node.kernel.same kernel).map (·.id) := by
  have hg := Grammar.wellFormed_of_ofRules h
  have hc := hm.numbered hg (FirstSets.exact_ofGrammar hg)
  simp only [ItemSet.agrees_iff_same, Construction.node?_eq]
  refine ⟨fun id => ?_, fun i j a b hi hj ha hb => ?_, hc.findNode_canonical_eq⟩
  · rw [hc.findNode_canonical_iff]
    constructor
    · rintro ⟨found, hfound, hsame⟩
      obtain ⟨node, hnode, rfl⟩ := Construction.kernel?_eq_some_iff.1 hfound
      exact ⟨node, hnode, hc.id_eq hnode, hsame⟩
    · rintro ⟨node, hnode, -, hsame⟩
      exact ⟨node.kernel, Construction.kernel?_eq_some_iff.2 ⟨node, hnode, rfl⟩, hsame⟩
  · exact hc.distinct (Construction.kernel?_eq_some_iff.2 ⟨a, hi, rfl⟩)
      (Construction.kernel?_eq_some_iff.2 ⟨b, hj, rfl⟩)
      (ItemSet.same_trans ha (ItemSet.same_symm hb))

/-- Both `a` and `b` are followed by `A`, before the same lookahead. -/
def sharing : List Rule :=
  [⟨.nonterminal "S", [.terminal "a", .nonterminal "A"]⟩,
    ⟨.nonterminal "S", [.terminal "b", .nonterminal "A"]⟩,
    ⟨.nonterminal "A", [.terminal "c"]⟩]

/-- When the state after `b` is linked, the state after `a c` is still in the buffer; the kernel after
`b c` is the same, and that state is found for it. -/
theorem canonical_lookup_sharing :
    ∃ g m, Grammar.ofRules sharing (.nonterminal "S") = .ok g ∧
      Reached g (.ofGrammar g) .canonical m ∧ m.construction.nodes.size = 4 ∧
      m.construction.created.size = 3 ∧
      ∃ l e node, m.linking? = some l ∧ e ∈ l.rest ∧ m.construction.node? 5 = some node ∧
        node.kernel.Agrees e.2 := by
  obtain ⟨g, hg, hcheck⟩ : ∃ g, Grammar.ofRules sharing (.nonterminal "S") = .ok g ∧
      (Moment.start.after? g (.ofGrammar g) .canonical 14).any (fun m =>
        decide (m.construction.nodes.size = 4) && decide (m.construction.created.size = 3) &&
        m.linking?.any fun l => l.rest.any fun e =>
          decide (m.construction.findNode .canonical e.2 = some 5)) = true :=
    exists_ok_of_any (by decide +kernel)
  simp only [Option.any_eq_true, List.any_eq_true, Bool.and_eq_true, decide_eq_true_eq] at hcheck
  obtain ⟨m, hm, ⟨hnodes, hcreated⟩, l, hl, e, he, hfind⟩ := hcheck
  have hreached := Reached.start.after hm
  obtain ⟨hlookup, -⟩ := Reached.canonical_lookup hg hreached e.2
  obtain ⟨node, hnode, -, hagrees⟩ := (hlookup 5).1 hfind
  exact ⟨g, m, hg, hreached, hnodes, hcreated, l, e, node, hl, he, hnode, hagrees⟩

/-- At every moment of the superset construction, and for a kernel that some transition leads to, it
plays no part whether a state has been closed: its items take the kernel in if its own kernel does, and
if their closure does.  The state that is found is the first whose kernel takes it in. -/
theorem Reached.superset_lookup (h : Grammar.ofRules rules start = .ok g)
    (hm : Reached g (.ofGrammar g) .superset m) {items kernel : ItemSet} {x : SymbolId}
    (hx : (transitions g items).find? x = some kernel) :
    (∀ node ∈ m.construction.allNodes,
      (node.items.Takes kernel ↔ node.kernel.Takes kernel) ∧
      (node.kernel.Takes kernel ↔ (closure g (.ofGrammar g) node.kernel).Takes kernel)) ∧
    ∀ id, m.construction.findNode .superset kernel = some id ↔
      (∃ node ∈ m.construction.allNodes, node.id = id ∧ node.kernel.Takes kernel) ∧
      ∀ node ∈ m.construction.allNodes, node.kernel.Takes kernel → id ≤ node.id := by
  have hg := Grammar.wellFormed_of_ofRules h
  have hf := FirstSets.exact_ofGrammar hg
  have hc := hm.numbered hg hf
  have hkernel := ItemSet.advanced_of_transitions hx
  simp only [ItemSet.takes_iff_contains]
  refine ⟨fun node hmem => ?_, fun id => ?_⟩
  · obtain ⟨i, hnode⟩ := List.mem_iff_getElem?.1 hmem
    exact ⟨hc.contains_items_iff hg hf hkernel hnode,
      (ItemSet.contains_closure_iff hg hf hkernel).symm⟩
  · rw [hc.findNode_superset_iff hg hf hkernel]
    simp only [hc.kernel?_eq_some_iff_mem]
    constructor
    · rintro ⟨⟨-, ⟨node, hmem, hid, rfl⟩, hcontains⟩, hleast⟩
      refine ⟨⟨node, hmem, hid, hcontains⟩, fun other hother hcontains' => ?_⟩
      exact hleast other.id other.kernel ⟨other, hother, rfl, rfl⟩ hcontains'
    · rintro ⟨⟨node, hmem, hid, hcontains⟩, hleast⟩
      refine ⟨⟨node.kernel, ⟨node, hmem, hid, rfl⟩, hcontains⟩, ?_⟩
      rintro j found ⟨other, hother, rfl, rfl⟩ hcontains'
      exact hleast other hother hcontains'

/-- After `d`, the transition on `x` leads to the state after `x` alone.  That state is not closed yet,
and the first whose kernel contains the item. -/
theorem superset_lookup_merging :
    ∃ g m, Grammar.ofRules Parser.merging (.nonterminal "S") = .ok g ∧
      Reached g (.ofGrammar g) .superset m ∧ 6 ∈ m.pending ∧
      ∃ items x kernel, (transitions g items).find? x = some kernel ∧
        (∃ node ∈ m.construction.allNodes, node.id = 6 ∧ node.kernel.Takes kernel) ∧
        ∀ node ∈ m.construction.allNodes, node.kernel.Takes kernel → 6 ≤ node.id := by
  obtain ⟨g, hg, hcheck⟩ : ∃ g, Grammar.ofRules Parser.merging (.nonterminal "S") = .ok g ∧
      (Moment.start.after? g (.ofGrammar g) .superset 15).any (fun m =>
        decide (6 ∈ m.pending) && (m.construction.node? 3).any fun node =>
          ((transitions g node.items).find? (.terminal 2)).any fun kernel =>
            decide (m.construction.findNode .superset kernel = some 6)) = true :=
    exists_ok_of_any (by decide +kernel)
  simp only [Option.any_eq_true, Bool.and_eq_true, decide_eq_true_eq] at hcheck
  obtain ⟨m, hm, hpending, node, -, kernel, hx, hfind⟩ := hcheck
  have hreached := Reached.start.after hm
  obtain ⟨-, hlookup⟩ := Reached.superset_lookup hg hreached hx
  exact ⟨g, m, hg, hreached, hpending, node.items, .terminal 2, kernel, hx, (hlookup 6).1 hfind⟩

end ShiftReduce
