import ShiftReduce.Proofs.DerivationTrees
import ShiftReduce.Proofs.Turns

/-!
# Soundness of the canonical parser

All trees that a canonical parser gathers follow the rules: a reduction is made only where a valid
item has its whole right side behind it, so the trees that are gathered are labelled with that
right side.  The tree that is accepted is labelled with the start symbol and has all tokens as its
leaves.

    build rules start .canonical = .ok p → p.parse tokens = .ok root →
      root.IsDerivation rules start tokens                         (canonical_parse_sound)
-/

namespace ShiftReduce

variable {π : Type} {rules : List Rule} {start : Symbol} {p : Parser} {γ δ : List SymbolId}

namespace Configuration

variable {tokens rest : List (Token π)} {c : Configuration π}

/-- The tree of a reduction by a rule at the end of the path follows the rules. -/
theorem followsRules_gathered (hp : p.Built rules start .canonical) {rule : Production}
    (hrule : rule ∈ p.grammar.productions) (hne : rule.id ≠ acceptId)
    (h : Tracks p.grammar p.automaton tokens (γ ++ rule.right) none rest c)
    (htrees : ∀ tree ∈ c.trees, tree.FollowsRules rules) :
    (gathered p.grammar rule.id c.trees).FollowsRules rules := by
  have hsymbols := h.symbols_split.2
  have hmem := hp.numbers.rule_of_production hrule hne
  unfold gathered
  rw [hp.wellFormed.left_id hrule, hp.wellFormed.right_id hrule]
  refine .node ?_ fun child hchild => ?_
  · rw [hsymbols]
    exact hmem
  · exact htrees child (List.mem_of_mem_take (List.mem_reverse.1 hchild))

theorem kept_followsRules (hp : p.Built rules start .canonical) (tokens : List (Token π)) :
    Kept p tokens fun _ _ c => ∀ tree ∈ c.trees, tree.FollowsRules rules where
  shift htrees hreads _ _ _ htop := by
    rw [htop]
    exact List.forall_mem_cons.2 ⟨.leaf hreads.isTerminal, htrees⟩
  reduce htrees h _ _ _ hrule hne _ htop := by
    rw [htop]
    exact List.forall_mem_cons.2 ⟨followsRules_gathered hp hrule hne h htrees,
      fun tree htree => htrees tree (List.mem_of_mem_drop htree)⟩

end Configuration

namespace Parser

theorem run_of_parse_eq_ok {tokens : List (Token π)} {root : Tree π}
    (h : p.parse tokens = .ok root) :
    (Configuration.initial tokens).run p.grammar p.table = some (.ok root) := by
  unfold parse at h
  cases hrun : (Configuration.initial tokens).run p.grammar p.table with
  | none =>
    rw [hrun] at h
    cases h
  | some r =>
    rw [hrun] at h
    exact congrArg some h

theorem parse_of_runWithin {tokens : List (Token π)} {n : Nat} {r : Except ParseError (Tree π)}
    (h : Configuration.runWithin p.grammar p.table n (Configuration.initial tokens) = some r) :
    p.parse tokens = r := by
  rw [parse, Configuration.run_of_runWithin h, Option.getD_some]

theorem Built.isDerivation_of_parse (hp : p.Built rules start .canonical) {tokens : List (Token π)}
    {root : Tree π} (hparse : p.parse tokens = .ok root) :
    root.IsDerivation rules start tokens := by
  have hinitial := Configuration.tracks_initial p.grammar p.automaton tokens
  obtain ⟨γ, rest, c, h, hrules, hanswer⟩ :=
    hinitial.exists_last hp (Configuration.kept_followsRules hp tokens)
      (fun tree htree => by cases htree) (run_of_parse_eq_ok hparse)
  have hstep := Configuration.Outcome.eq_accepted_of_answer? hanswer
  obtain ⟨htop, hsymbol, hleaves⟩ :=
    h.of_step_accepted hp (hp.linked.faithful hp.wellFormed hp.exact) hstep
  exact ⟨hsymbol, hrules root (by rw [htop]; exact List.mem_singleton.2 rfl), hleaves⟩

/-- What a canonical parser accepts, with or without conflicts in its table, is a derivation tree
of the whole input from the start symbol by the given rules. -/
theorem canonical_parse_sound (h : build rules start .canonical = .ok p) {tokens : List (Token π)}
    {root : Tree π} (hparse : p.parse tokens = .ok root) :
    root.IsDerivation rules start tokens :=
  (built_of_build h).isDerivation_of_parse hparse

/-- The parser of nested pairs accepts `a b`. -/
theorem canonical_parse_sound_nested :
    ∃ p root, build nested (.nonterminal "S") .canonical = .ok p ∧
      p.parse [⟨.terminal "a", some 0⟩, ⟨.terminal "b", some 1⟩] = .ok root ∧
      root.IsDerivation nested (.nonterminal "S")
        [⟨.terminal "a", some 0⟩, ⟨.terminal "b", some 1⟩] := by
  obtain ⟨p, hp, haccepts⟩ : ∃ p, build nested (.nonterminal "S") .canonical = .ok p ∧
      (Configuration.runWithin p.grammar p.table 7 (Configuration.initial
        [⟨.terminal "a", some 0⟩, ⟨.terminal "b", some 1⟩])).any Except.isOk = true :=
    exists_of_any_build (by decide +kernel)
  obtain ⟨r, hr, hok⟩ := (Option.any_eq_true _ _).1 haccepts
  cases r with
  | error e => cases hok
  | ok root =>
    have hparse := parse_of_runWithin hr
    exact ⟨p, root, hp, hparse, canonical_parse_sound hp hparse⟩

end Parser

end ShiftReduce
