import ShiftReduce.Proofs.Breadth
import ShiftReduce.Proofs.Merging

/-!
# The states and edges of an automaton

What every automaton keeps to, whichever way its states are matched.  Each state is the closure of its
kernel and has an edge on just the symbols that its items stand before; the edge leads to a kernel
that takes these items over.  A kernel was made as one transition of an earlier state, so all its
items were advanced over one symbol, and that is the symbol of every edge into the state.  Nothing in
the first kernel was advanced over a symbol, so no edge leads back to the first state.

    a.edge? q x = some r → a.edge? q' y = some r → x = y                     (symbol_of_edge)
    0 < r → r < a.size → ∃ q x, q < r ∧ a.edge? q x = some r              (exists_edge_from_below)
-/

namespace ShiftReduce

variable {g : Grammar} {f : FirstSets} {mode : MergeMode}

namespace Automaton

variable {a : Automaton}

/-- What the states and the edges of an automaton keep to. -/
structure Shape (g : Grammar) (f : FirstSets) (mode : MergeMode) (a : Automaton) : Prop where
  id_eq : ∀ {i : Nat} {node : Node}, a.nodes[i]? = some node → node.id = i
  start : ∃ node, a.nodes[startState]? = some node ∧
    node.kernel.entries = [(Core.start acceptId, .singleton endOfInputId)]
  start_not_entered : ∀ q x, a.edge? q x ≠ some startState
  items_eq : ∀ {i : Nat} {node : Node}, a.nodes[i]? = some node →
    node.items = closure g f node.kernel
  edge_iff : ∀ {q : Nat} {node : Node}, a.nodes[q]? = some node → ∀ x,
    (∃ r, a.edge? q x = some r) ↔ ∃ c, node.items.Has c ∧ c.next? g = some x
  /-- The items before the symbol, advanced, are in the kernel that the edge leads to, with the
  lookaheads they have; in canonical mode nothing else is. -/
  target : ∀ {q r : Nat} {node : Node} {x : SymbolId}, a.nodes[q]? = some node →
    a.edge? q x = some r → ∃ next, a.nodes[r]? = some next ∧
      (∀ c, node.items.Has c → c.next? g = some x →
        next.kernel.Has c.advance ∧ ∀ t, next.kernel.Looks c.advance t ↔ node.items.Looks c t) ∧
      (mode = .canonical → ∀ d, next.kernel.Has d →
        ∃ c, d = c.advance ∧ c.next? g = some x ∧ node.items.Has c)
  distinct : ∀ {i j : Nat} {node other : Node}, a.nodes[i]? = some node → a.nodes[j]? = some other →
    (∀ c, node.kernel.Has c ↔ other.kernel.Has c) →
    (∀ c t, node.kernel.Looks c t ↔ other.kernel.Looks c t) → i = j
  symbol_unique : ∀ {q q' r : StateId} {x y : SymbolId}, a.edge? q x = some r →
    a.edge? q' y = some r → x = y
  entered : ∀ {r : Nat}, 0 < r → r < a.size → ∃ q x, q < r ∧ a.edge? q x = some r

theorem exists_node_of_edge {q r : StateId} {x : SymbolId} (hedge : a.edge? q x = some r) :
    ∃ node, a.nodes[q]? = some node := by
  obtain ⟨node, hq, -⟩ := Option.bind_eq_some_iff.1 hedge
  exact ⟨node, hq⟩

section Linked

variable (ha : a.Linked g f mode)
include ha

/-! ## Where edges lead -/

/-- The kernel that an edge leads to has an item that was advanced over the symbol of the edge. -/
theorem Linked.exists_advanced {q r : Nat} {x : SymbolId} (hedge : a.edge? q x = some r) :
    ∃ (next : Node) (c : Core), a.nodes[r]? = some next ∧ c.next? g = some x ∧
      next.kernel.Has c.advance := by
  obtain ⟨node, hq⟩ := exists_node_of_edge hedge
  obtain ⟨next, -, hr, -, -⟩ := ha.exists_next hq hedge
  obtain ⟨c, hc, hx⟩ := (ha.exists_edge_iff hq).1 ⟨r, hedge⟩
  exact ⟨next, c, hr, hx, (ha.kernel_carries hq hr hedge hc hx).1⟩

theorem Linked.edge?_ne_start (q : StateId) (x : SymbolId) : a.edge? q x ≠ some startState := by
  intro hedge
  obtain ⟨next, c, hnext, -, hc⟩ := ha.exists_advanced hedge
  obtain ⟨first, hfirst, hkernel⟩ := exists_node_of_kernel? ha.start
  obtain rfl := Option.some.inj (hfirst.symm.trans hnext)
  rw [hkernel, Construction.startKernel_has] at hc
  have hmarker : c.marker + 1 = 0 := congrArg Core.marker hc
  omega

/-! ## The symbol of a state -/

variable (hbreadth : Breadth g f a.nodes.toList)
include hbreadth

/-- A state other than the first was made for an edge of a state before it. -/
theorem Linked.exists_origin {r : Nat} {node : Node} (hr : a.nodes[r]? = some node) (hpos : 0 < r) :
    ∃ (q : Nat) (parent : Node) (x : SymbolId), q < r ∧ a.nodes[q]? = some parent ∧
      a.edge? q x = some r ∧ (transitions g parent.items).find? x = some node.kernel := by
  have hlt := (Array.getElem?_eq_some_iff.1 hr).1
  obtain ⟨q, hqr, ⟨parent, made, x, hq, hmade, hedge, hx⟩, -⟩ :=
    hbreadth r hpos (by rwa [Array.length_toList])
  rw [Array.getElem?_toList] at hq hmade
  obtain rfl := Option.some.inj (hmade.symm.trans hr)
  rw [← ha.items_eq hq] at hx
  refine ⟨q, parent, x, hqr, hq, ?_, hx⟩
  rw [edge?_eq hq]
  exact hedge

theorem Linked.exists_edge_from_below {r : Nat} (hpos : 0 < r) (hlt : r < a.size) :
    ∃ q x, q < r ∧ a.edge? q x = some r := by
  obtain ⟨q, parent, x, hqr, -, hedge, -⟩ :=
    ha.exists_origin hbreadth (Array.getElem?_eq_getElem hlt) hpos
  exact ⟨q, x, hqr, hedge⟩

/-- All edges into a state have the symbol over which the items of its kernel were advanced. -/
theorem Linked.symbol_of_edge {q q' r : StateId} {x y : SymbolId} (hedge : a.edge? q x = some r)
    (hedge' : a.edge? q' y = some r) : x = y := by
  obtain ⟨node, c, hr, hcx, hc⟩ := ha.exists_advanced hedge
  obtain ⟨node', d, hr', hdy, hd⟩ := ha.exists_advanced hedge'
  obtain rfl := Option.some.inj (hr.symm.trans hr')
  have hpos : 0 < r := by
    rcases Nat.eq_zero_or_pos r with rfl | hpos
    · exact absurd hedge (ha.edge?_ne_start q x)
    · exact hpos
  obtain ⟨-, parent, z, -, -, -, hz⟩ := ha.exists_origin hbreadth hr hpos
  have hsymbol : ∀ {e : Core} {w : SymbolId}, e.next? g = some w → node.kernel.Has e.advance →
      z = w := by
    intro e w hw he
    obtain ⟨e', hadvance, hnext, -⟩ := (has_of_transitions hz).1 he
    rw [← Core.advance_injective hadvance, hw] at hnext
    exact (Option.some.inj hnext).symm
  exact (hsymbol hcx hc).symm.trans (hsymbol hdy hd)

/-! ## All together -/

theorem Linked.shape : a.Shape g f mode where
  id_eq := ha.id_eq
  start := by
    obtain ⟨node, hnode, hkernel⟩ := exists_node_of_kernel? ha.start
    refine ⟨node, hnode, ?_⟩
    rw [hkernel]
    rfl
  start_not_entered := ha.edge?_ne_start
  items_eq := ha.items_eq
  edge_iff hq x := ha.exists_edge_iff hq
  target {q r node x} hq hedge := by
    obtain ⟨next, kernel, hr, hx, hmatches⟩ := ha.exists_next hq hedge
    refine ⟨next, hr, fun c hc hnext => ha.kernel_carries hq hr hedge hc hnext, ?_⟩
    rintro rfl d hd
    have hd : kernel.Has d := ((ItemSet.same_iff.1 hmatches).1 d).1 hd
    exact (has_of_transitions hx).1 hd
  distinct hi hj hhas hlooks := ha.distinct (congrArg (Option.map Node.kernel) hi)
    (congrArg (Option.map Node.kernel) hj) (ItemSet.same_iff.2 ⟨hhas, hlooks⟩)
  symbol_unique hedge hedge' := ha.symbol_of_edge hbreadth hedge hedge'
  entered hpos hlt := ha.exists_edge_from_below hbreadth hpos hlt

end Linked

end Automaton

/-! ## Built parsers -/

namespace Parser

variable {rules : List Rule} {start : Symbol} {p : Parser}

/-- In either mode the automaton keeps to its shape, and its first state is that of the augmenting
rule, before the start symbol and with the end of input to follow. -/
theorem automaton_shape (h : build rules start mode = .ok p) :
    p.automaton.Shape p.grammar p.firstSets mode ∧
      p.grammar.nonterminal (p.grammar.left acceptId) = .augmentedStart ∧
      (p.grammar.right acceptId).map p.grammar.symbol = [start] ∧
      p.grammar.terminal endOfInputId = .endOfInput := by
  have hp := built_of_build h
  have hg := (eq_ofGrammar_of_build h).1
  refine ⟨hp.linked.shape (breadth_of_build h), ?_, ?_, hp.numbers.symbol_end⟩
  · rw [Grammar.left_eq hp.wellFormed.accepting]
    exact (Grammar.number?_eq_some_iff.1 (Grammar.number?_augmentedStart hg)).2
  · rw [hp.wellFormed.right_accept]
    exact congrArg (fun s => [s]) hp.numbers.symbol_start

/-- In superset mode the state after `x` is entered again after `d`, for the item of `A -> . x` alone:
it takes the item over with its lookaheads, and has `B -> x .` besides.  The last state is entered
from a state before it. -/
theorem automaton_shape_merging : ∃ p, build merging (.nonterminal "S") .superset = .ok p ∧
    p.automaton.edge? 0 (.terminal 2) = some 6 ∧ p.automaton.edge? 3 (.terminal 2) = some 6 ∧
    (∃ node next : Node, p.automaton.nodes[3]? = some node ∧ p.automaton.nodes[6]? = some next ∧
      node.items.Has (Core.start 5) ∧ ¬ node.items.Has (Core.start 6) ∧
      next.kernel.Has (Core.start 6).advance ∧ next.kernel.Has (Core.start 5).advance ∧
      ∀ t, next.kernel.Looks (Core.start 5).advance t ↔ node.items.Looks (Core.start 5) t) ∧
    ∃ q x, q < 7 ∧ p.automaton.edge? q x = some 7 := by
  obtain ⟨p, hp, hcheck⟩ : ∃ p, build merging (.nonterminal "S") .superset = .ok p ∧
      (decide (p.automaton.edge? 0 (.terminal 2) = some 6) &&
        decide (p.automaton.edge? 3 (.terminal 2) = some 6) &&
        decide ((Core.start 5).next? p.grammar = some (.terminal 2)) &&
        decide (p.automaton.size = 8) &&
        (p.automaton.nodes[3]?).any (fun (node : Node) =>
          decide (Core.start 5 ∈ node.items.keys) && decide (Core.start 6 ∉ node.items.keys)) &&
        (p.automaton.nodes[6]?).any (fun (next : Node) =>
          decide ((Core.start 6).advance ∈ next.kernel.keys))) = true :=
    exists_of_any_build (by decide +kernel)
  simp only [Bool.and_eq_true, decide_eq_true_eq, Option.any_eq_true] at hcheck
  obtain ⟨⟨⟨⟨⟨hfirst, hedge⟩, hx⟩, hsize⟩, node, hnode, hA, hB⟩, next, hnext, hmore⟩ := hcheck
  simp only [← ItemSet.has_iff_mem_keys] at hA hB hmore
  obtain ⟨hshape, -⟩ := automaton_shape hp
  obtain ⟨next', hnext', htaken, -⟩ := hshape.target hnode hedge
  obtain rfl := Option.some.inj (hnext.symm.trans hnext')
  obtain ⟨hhas, hlooks⟩ := htaken _ hA hx
  refine ⟨p, hp, hfirst, hedge, ⟨node, next, hnode, hnext, hA, hB, hmore, hhas, hlooks⟩, ?_⟩
  exact hshape.entered (by decide) (by omega)

end Parser

end ShiftReduce
