import ShiftReduce.Proofs.Edges

/-!
# What the parse table holds

A table is no more and no less than the states of its automaton: the cells of a row are those of the
symbols of the grammar, a cell lists the edge on its symbol and then the completed items that look at
it, and nothing is listed twice.  An item of the augmenting rule is complete where the start symbol
and nothing else has been read, and one state only holds the valid items of that string, so one cell
accepts.

    ValidItem g γ c t → c.isComplete g = true → c.rule = acceptId →
      γ = [.nonterminal g.start] ∧ t = endOfInputId                        (ValidItem.of_accept)
    .accept ∈ p.table.actions r x ↔ r = q ∧ x = .terminal endOfInputId        (accept_mem_iff)
-/

namespace ShiftReduce

variable {g : Grammar} {mode : MergeMode}

/-- What a table holds of the automaton that it was made of. -/
structure ParseTable.Content (g : Grammar) (a : Automaton) (t : ParseTable) : Prop where
  size_rows : t.rows.size = a.size
  keys_eq : ∀ {q : Nat} {row : Row}, t.rows[q]? = some row → row.keys = g.symbolIds
  actions_eq : ∀ {q : Nat} {node : Node}, a.nodes[q]? = some node → ∀ x,
    t.actions q x = ((a.edge? q x).map (edgeAction x)).toList ++ node.completions g x
  nodup : ∀ q x, (t.actions q x).Nodup
  nonterminal_le : ∀ q n, (t.actions q (.nonterminal n)).length ≤ 1
  shift_not_mem : ∀ q r, Action.shift r ∉ t.actions q (.terminal endOfInputId)
  /-- There is one accept, after the start symbol and on the end of input. -/
  accept : ∃ q, a.edge? Automaton.startState (.nonterminal g.start) = some q ∧
    ∀ r x, Action.accept ∈ t.actions r x ↔ r = q ∧ x = .terminal endOfInputId
  nodup_conflicts : t.conflicts.Nodup
  conflict_iff : ∀ k, k ∈ t.conflicts ↔ (∃ u, k.symbol = .terminal u) ∧
    k.actions = t.actions k.state k.symbol ∧ ∃ b ∈ k.actions, ∃ c ∈ k.actions, b ≠ c

/-! ## Accepting -/

theorem Core.completion_eq_accept_iff {c : Core} : c.completion = .accept ↔ c.rule = acceptId := by
  unfold Core.completion
  split
  · next h => exact ⟨fun _ => h, fun _ => rfl⟩
  · next h => exact ⟨fun heq => (by cases heq), fun heq => absurd heq h⟩

theorem edgeAction_ne_accept (x : SymbolId) (q : StateId) : edgeAction x q ≠ .accept := by
  intro h
  cases x <;> cases h

/-- The augmenting rule is complete where the start symbol and nothing else has been read, and at the
end of input only. -/
theorem ValidItem.of_accept (hg : g.WellFormed) {γ : List SymbolId} {c : Core} {t : TerminalId}
    (h : ValidItem g γ c t) (hcomplete : c.isComplete g = true) (hrule : c.rule = acceptId) :
    γ = [.nonterminal g.start] ∧ t = endOfInputId := by
  obtain ⟨β, rfl, hstart⟩ := h.validCore.exists_before_right hcomplete
  rw [hrule] at hstart ⊢
  rw [hstart.eq_nil_of_start_accept hg, hg.right_accept]
  exact ⟨rfl, h.eq_end_of_accept hg hrule⟩

/-- A list in which nothing is repeated is of length two or more if it has different members. -/
theorem two_le_length_iff {α : Type} {l : List α} (h : l.Nodup) :
    2 ≤ l.length ↔ ∃ b ∈ l, ∃ c ∈ l, b ≠ c := by
  match l with
  | [] => simp
  | [d] => simp
  | b :: c :: l =>
    have hne : b ≠ c := fun heq => (List.nodup_cons.1 h).1 (heq ▸ List.mem_cons_self)
    constructor
    · intro _
      exact ⟨b, List.mem_cons_self, c, List.mem_cons_of_mem b List.mem_cons_self, hne⟩
    · intro _
      simp

namespace Parser

variable {rules : List Rule} {start : Symbol} {p : Parser}

section Table

variable (hp : p.Built rules start mode)
include hp

/-- A state with an accept holds the valid items of the start symbol. -/
theorem recognizes_of_accept (hpaths : p.automaton.Recognizing p.grammar) {q : Nat} {node : Node}
    (hq : p.automaton.nodes[q]? = some node) {x : SymbolId}
    (h : Action.accept ∈ p.table.actions q x) : x = .terminal endOfInputId ∧
      Recognizes p.grammar [.nonterminal p.grammar.start] node.items := by
  rcases (mem_actions_iff hp hq).1 h with ⟨r, -, heq⟩ | ⟨c, t, rfl, hlooks, hcomplete, heq⟩
  · exact absurd heq.symm (edgeAction_ne_accept x r)
  · obtain ⟨γ, hγ, -, -⟩ := hpaths q node hq
    obtain ⟨rfl, rfl⟩ := ((hγ.looks_iff c t).1 hlooks).of_accept hp.wellFormed hcomplete
      (Core.completion_eq_accept_iff.1 heq.symm)
    exact ⟨rfl, hγ⟩

/-- The state after the start symbol accepts at the end of input. -/
theorem exists_accept : ∃ q,
    p.automaton.edge? Automaton.startState (.nonterminal p.grammar.start) = some q ∧
      Action.accept ∈ p.table.actions q (.terminal endOfInputId) := by
  have hg := hp.wellFormed
  have hitem : ValidItem p.grammar [.nonterminal p.grammar.start] (Core.start acceptId).advance
      endOfInputId := .advance .start hg.next?_start
  obtain ⟨q, hq⟩ := hp.linked.exists_follow? hg hp.exact hitem.validCore
  obtain ⟨node, hnode, hcovers⟩ := hp.linked.covers hg hp.exact hq
  obtain ⟨r, hedge, hr⟩ := Option.bind_eq_some_iff.1 hq
  obtain rfl := Option.some.inj hr
  refine ⟨r, hedge, (mem_actions_iff hp hnode).2 (Or.inr ⟨_, _, rfl, hcovers.looks hitem, ?_, rfl⟩)⟩
  exact hg.isComplete_advance_start

/-- One cell accepts: that of the state after the start symbol and of the end of input. -/
theorem accept_mem_iff (hpaths : p.automaton.Recognizing p.grammar) : ∃ q,
    p.automaton.edge? Automaton.startState (.nonterminal p.grammar.start) = some q ∧
      ∀ r x, Action.accept ∈ p.table.actions r x ↔ r = q ∧ x = .terminal endOfInputId := by
  obtain ⟨q, hedge, haccept⟩ := exists_accept hp
  refine ⟨q, hedge, fun r x => ⟨fun h => ?_, fun ⟨hr, hx⟩ => hr ▸ hx ▸ haccept⟩⟩
  obtain ⟨node, hq⟩ := exists_node_of_actions hp (List.ne_nil_of_mem haccept)
  obtain ⟨other, hr⟩ := exists_node_of_actions hp (List.ne_nil_of_mem h)
  obtain ⟨-, hvalid⟩ := recognizes_of_accept hp hpaths hq haccept
  obtain ⟨hx, hvalid'⟩ := recognizes_of_accept hp hpaths hr h
  exact ⟨hpaths.eq_of_recognizes hp.wellFormed hp.linked hr hq hvalid' hvalid, hx⟩

/-! ## Cells -/

theorem length_actions_nonterminal_le (q : StateId) (n : NonterminalId) :
    (p.table.actions q (.nonterminal n)).length ≤ 1 := by
  by_cases hempty : p.table.actions q (.nonterminal n) = []
  · rw [hempty]
    exact Nat.zero_le _
  · obtain ⟨node, hq⟩ := exists_node_of_actions hp hempty
    rw [actions_nonterminal hp hq]
    exact Option.length_toList_le

theorem shift_not_mem_end (q r : StateId) :
    Action.shift r ∉ p.table.actions q (.terminal endOfInputId) := by
  intro h
  obtain ⟨node, hq⟩ := exists_node_of_actions hp (List.ne_nil_of_mem h)
  rcases (mem_actions_iff hp hq).1 h with ⟨s, hedge, -⟩ | ⟨c, -, -, -, -, heq⟩
  · cases hedge.symm.trans (hp.linked.edge?_end hp.wellFormed hq)
  · unfold Core.completion at heq
    split at heq <;> cases heq

/-! ## Conflicts -/

/-- The conflicts are the cells of terminals with two different actions. -/
theorem conflict_mem_iff (k : Conflict) : k ∈ p.table.conflicts ↔
    (∃ u, k.symbol = .terminal u) ∧ k.actions = p.table.actions k.state k.symbol ∧
      ∃ b ∈ k.actions, ∃ c ∈ k.actions, b ≠ c := by
  rw [ParseTable.mem_conflicts_iff]
  constructor
  · rintro ⟨hactions, hlong⟩
    have hnodup := nodup_actions hp k.state k.symbol
    rw [← hactions] at hnodup
    refine ⟨?_, hactions, (two_le_length_iff hnodup).1 hlong⟩
    cases hsymbol : k.symbol with
    | terminal u => exact ⟨u, rfl⟩
    | nonterminal n =>
      have hshort := length_actions_nonterminal_le hp k.state n
      rw [← hsymbol, ← hactions] at hshort
      omega
  · rintro ⟨-, hactions, hdifferent⟩
    have hnodup := nodup_actions hp k.state k.symbol
    rw [← hactions] at hnodup
    exact ⟨hactions, (two_le_length_iff hnodup).2 hdifferent⟩

end Table

/-- The table holds the states of the automaton and nothing else. -/
theorem table_content (h : build rules start mode = .ok p) :
    p.table.Content p.grammar p.automaton := by
  have hp := built_of_build h
  exact {
    size_rows := by
      rw [hp.table_eq]
      exact Array.size_map
    keys_eq {q row} hrow := by
      rw [hp.table_eq] at hrow
      have hlt := (Array.getElem?_eq_some_iff.1 hrow).1
      have hq : q < p.automaton.nodes.size := Array.size_map ▸ hlt
      have hnode := Array.getElem?_eq_getElem hq
      obtain rfl := Option.some.inj ((ParseTable.getElem?_rows hnode).symm.trans hrow)
      exact ParseTable.keys_row hp.wellFormed hp.exact hp.linked hnode
    actions_eq {q node} hq x := by
      rw [hp.table_eq, ParseTable.actions_eq_append hq, Automaton.edge?_eq hq]
    nodup := nodup_actions hp
    nonterminal_le := length_actions_nonterminal_le hp
    shift_not_mem := shift_not_mem_end hp
    accept := accept_mem_iff hp (recognizing_of_build h)
    nodup_conflicts := p.table.nodup_conflicts
    conflict_iff := conflict_mem_iff hp }

/-- Sums that do not say which of their parts are summed first: `E -> E p E` and `E -> a`. -/
def ambiguousSums : List Rule :=
  [⟨.nonterminal "E", [.nonterminal "E", .terminal "p", .nonterminal "E"]⟩,
    ⟨.nonterminal "E", [.terminal "a"]⟩]

/-- After `E p E` there is an edge on `p`, and the first rule is complete and looks at `p`.  The
state after `E` is the only one that accepts. -/
theorem table_content_ambiguousSums : ∃ p, build ambiguousSums (.nonterminal "E") .canonical = .ok p ∧
    ⟨4, .terminal 1, [.shift 3, .reduce 1]⟩ ∈ p.table.conflicts ∧
    ∀ r x, Action.accept ∈ p.table.actions r x ↔ r = 1 ∧ x = .terminal endOfInputId := by
  obtain ⟨p, hp, hcheck⟩ : ∃ p, build ambiguousSums (.nonterminal "E") .canonical = .ok p ∧
      (decide (p.table.actions 4 (.terminal 1) = [.shift 3, .reduce 1]) &&
        decide (p.grammar.start = 1) &&
        decide (p.automaton.edge? 0 (.nonterminal 1) = some 1)) = true :=
    exists_of_any_build (by decide +kernel)
  simp only [Bool.and_eq_true, decide_eq_true_eq] at hcheck
  obtain ⟨⟨hcell, hstart⟩, hedge⟩ := hcheck
  have hcontent := table_content hp
  obtain ⟨q, hq, haccept⟩ := hcontent.accept
  rw [hstart] at hq
  obtain rfl := Option.some.inj (hq.symm.trans hedge)
  refine ⟨p, hp, (hcontent.conflict_iff _).2 ⟨⟨1, rfl⟩, hcell.symm, ?_⟩, haccept⟩
  exact ⟨.shift 3, by simp, .reduce 1, by simp, by simp⟩

end Parser

end ShiftReduce
