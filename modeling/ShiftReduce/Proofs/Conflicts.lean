import ShiftReduce.Proofs.SupersetTrees

/-!
# Conflicts of the two modes

Merging states can only add actions to a cell.  Every state of the canonical automaton is at the end
of a path, the superset automaton has a path with the same labels, and its state offers the like of
each action there.  So a cell with several actions remains one, and a superset table without
conflicts vouches for the canonical table.

    p.automaton.nodes[q]? = some node → ∃ γ, p.automaton.follow? startState γ = some q ∧ …
                                                                           (exists_follow?_eq)
    s.table.hasConflicts = false → p.table.hasConflicts = false        (superset_keeps_conflicts)
-/

namespace ShiftReduce

variable {rules : List Rule} {start : Symbol} {p s : Parser}

/-- Every state of a canonical automaton is at the end of a path. -/
theorem Automaton.Recognizing.exists_follow?_eq {g : Grammar} {f : FirstSets} {a : Automaton}
    (hg : g.WellFormed) (hf : f.Exact g) (ha : a.Linked g f .canonical) (hpaths : a.Recognizing g)
    {q : Nat} {node : Node} (hq : a.nodes[q]? = some node) :
    ∃ γ, a.follow? startState γ = some q := by
  obtain ⟨γ, hγ, -, c, hc⟩ := hpaths q node hq
  rcases recognizes_follow? hg hf ha γ with ⟨-, hinvalid⟩ | ⟨r, twin, hfollow, hr, hγ', -⟩
  · exact absurd hc (hinvalid c)
  · -- The path ends in a state that holds the same items, and there is only one.
    obtain rfl := hpaths.eq_of_recognizes hg ha hq hr hγ hγ'
    exact ⟨γ, hfollow⟩

namespace Parser

/-- A cell of a canonical table with an action is at the end of a path. -/
theorem exists_path_of_actions (h : build rules start .canonical = .ok p) {q : StateId}
    {x : SymbolId} (hactions : p.table.actions q x ≠ []) :
    ∃ γ, p.automaton.follow? Automaton.startState γ = some q := by
  have hp := built_of_build h
  obtain ⟨node, hnode⟩ := exists_node_of_actions hp hactions
  exact (recognizing_of_build h).exists_follow?_eq hp.wellFormed hp.exact hp.linked hnode

/-- Along every path of the canonical automaton the superset automaton has a path, whose last state
offers the like of each action of the last state of the canonical path.  Without conflicts in the
superset table there are none in the canonical table. -/
theorem superset_keeps_conflicts (h : build rules start .canonical = .ok p) :
    ∃ s, build rules start .superset = .ok s ∧
      (∀ γ q, p.automaton.follow? Automaton.startState γ = some q →
        ∃ r, s.automaton.follow? Automaton.startState γ = some r ∧
          ∀ x, ∀ action ∈ p.table.actions q x, ∃ like ∈ s.table.actions r x, action.Like like) ∧
      (s.table.hasConflicts = false → p.table.hasConflicts = false) := by
  obtain ⟨s, hsuperset⟩ := exists_build h .superset
  have hp := built_of_build h
  have hs := built_of_build hsuperset
  have hgrammar := grammar_eq_of_build h hsuperset
  refine ⟨s, hsuperset, ?_, ?_⟩
  · intro γ q hq
    obtain ⟨r, hr⟩ := exists_follow? hp hs hgrammar hq
    exact ⟨r, hr, fun x action => exists_like hp hs hgrammar hq hr⟩
  · intro hnone
    by_contra hsome
    obtain ⟨q, x, hlong⟩ := ParseTable.hasConflicts_iff.1 (Bool.of_not_eq_false hsome)
    have hactions : p.table.actions q x ≠ [] := List.ne_nil_of_length_pos (by omega)
    obtain ⟨γ, hq⟩ := exists_path_of_actions h hactions
    obtain ⟨r, hr⟩ := exists_follow? hp hs hgrammar hq
    have hshort := ParseTable.length_actions_le_of_hasConflicts hnone r x
    have hle := length_actions_le hp hs hgrammar hq hr x
    omega

/-- The superset table of the grammar has no conflicts, though it is smaller than the canonical one,
so that one has none. -/
theorem superset_keeps_conflicts_borrowing : ∃ p s,
    build borrowing (.nonterminal "S") .canonical = .ok p ∧
      build borrowing (.nonterminal "S") .superset = .ok s ∧
      s.automaton.size < p.automaton.size ∧ p.table.hasConflicts = false ∧
      ∀ γ q, p.automaton.follow? Automaton.startState γ = some q →
        ∃ r, s.automaton.follow? Automaton.startState γ = some r ∧
          ∀ x, ∀ action ∈ p.table.actions q x, ∃ like ∈ s.table.actions r x, action.Like like := by
  obtain ⟨p, hp, hlarge⟩ : ∃ p, build borrowing (.nonterminal "S") .canonical = .ok p ∧
      decide (p.automaton.size = 11) = true := exists_of_any_build (by decide +kernel)
  obtain ⟨s, hs, hcheck⟩ : ∃ s, build borrowing (.nonterminal "S") .superset = .ok s ∧
      (decide (s.automaton.size = 10) && !s.table.hasConflicts) = true :=
    exists_of_any_build (by decide +kernel)
  obtain ⟨hsmall, hnone⟩ := Bool.and_eq_true_iff.1 hcheck
  have hlarge : p.automaton.size = 11 := of_decide_eq_true hlarge
  have hsmall : s.automaton.size = 10 := of_decide_eq_true hsmall
  obtain ⟨s', hs', hlike, hconflicts⟩ := superset_keeps_conflicts hp
  obtain rfl := Except.ok.inj (hs'.symm.trans hs)
  exact ⟨p, s', hp, hs, by omega, hconflicts (by simpa using hnone), hlike⟩

end Parser

end ShiftReduce
