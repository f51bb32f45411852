import ShiftReduce.Proofs.Completeness
import ShiftReduce.Proofs.Simulation

/-!
# What a superset parser accepts

A state that was entered over a smaller kernel may reduce a rule whose right side is not at the end
of the path; only its last symbol is.  So a superset parser can accept inputs that are no sentences,
even without a conflict in its table.  The trees that it gathers resemble the rules: every node has
as many children as a rule for it has symbols, and the last child is the last of them.  Of a
sentence it accepts a derivation tree, since there it follows the canonical parser, and it accepts
anything else only where the canonical parser reports a terminal that it does not expect.

    p.Sustained tokens fun _ _ c => ∀ tree ∈ c.trees, tree.ResemblesRules rules
                                                                      (sustained_resemblesRules)
    p.parse tokens = .ok root → root.symbol = start ∧ root.leaves = tokens ∧
      root.ResemblesRules rules ∧ …                              (superset_parse_resembles)
-/

namespace ShiftReduce

variable {π : Type} {rules : List Rule} {start : Symbol} {mode : MergeMode} {p : Parser}
  {γ : List SymbolId}

/-- Leaves are terminals, and every node has as many children as some rule for it has symbols, the
last of them as in the rule. -/
inductive Tree.ResemblesRules (rules : List Rule) : Tree π → Prop
  | leaf {token : Token π} : token.symbol.isTerminal = true → ResemblesRules rules (.leaf token)
  | node {name : String} {children : List (Tree π)} {rule : Rule} : rule ∈ rules →
      rule.left = .nonterminal name → rule.right.length = children.length →
      rule.right.getLast? = (children.map symbol).getLast? →
      (∀ child ∈ children, ResemblesRules rules child) → ResemblesRules rules (.node name children)

namespace Configuration

variable {tokens rest : List (Token π)} {c : Configuration π}

section Gathering

variable (hp : p.Built rules start mode) (hpaths : p.automaton.Faithful p.grammar)
include hp hpaths

/-- The tree of a reduction resembles the rule. -/
theorem resemblesRules_gathered {rule : Production} (hrule : rule ∈ p.grammar.productions)
    (hne : rule.id ≠ acceptId) {β κ : List SymbolId} {q : Nat} {node : Node}
    (hq : p.automaton.follow? Automaton.startState (β ++ κ) = some q)
    (hnode : p.automaton.nodes[q]? = some node)
    (hitem : node.items.Has ⟨rule.id, rule.right.length⟩) (hlength : κ.length = rule.right.length)
    (h : Tracks p.grammar p.automaton tokens (β ++ κ) none rest c)
    (htrees : ∀ tree ∈ c.trees, tree.ResemblesRules rules) :
    (gathered p.grammar rule.id c.trees).ResemblesRules rules := by
  have hg := hp.wellFormed
  have hmem := hp.numbers.rule_of_production hrule hne
  have hlast : rule.right.getLast? = κ.getLast? := by
    by_cases hnil : rule.right = []
    · rw [hnil, List.length_nil] at hlength
      rw [hnil, List.length_eq_zero_iff.1 hlength]
    · have hκ : κ ≠ [] := by
        rintro rfl
        exact hnil (List.length_eq_zero_iff.1 hlength.symm)
      obtain ⟨δ, hδ⟩ := hpaths _ q node hq hnode
      have hright := hp.linked.getLast?_right hg hp.exact hq hnode hδ hitem (hg.isComplete_end hrule)
        (by rw [hg.right_id hrule]; exact hnil) (List.append_ne_nil_of_right_ne_nil β hκ)
      rw [hg.right_id hrule, List.getLast?_append_of_ne_nil β hκ] at hright
      exact hright
  have hsymbols := h.symbols_split.2
  rw [hlength] at hsymbols
  unfold gathered
  rw [hg.left_id hrule, hg.right_id hrule]
  refine .node hmem rfl ?_ ?_ fun child hchild => ?_
  · have hcount := congrArg List.length hsymbols
    rw [List.length_map, List.length_map, hlength] at hcount
    rw [List.length_map, hcount]
  · rw [hsymbols, List.getLast?_map, List.getLast?_map, hlast]
  · exact htrees child (List.mem_of_mem_take (List.mem_reverse.1 hchild))

theorem sustained_resemblesRules (tokens : List (Token π)) :
    Sustained p tokens fun _ _ c => ∀ tree ∈ c.trees, tree.ResemblesRules rules where
  shift htrees hx _ _ _ htop := by
    rw [htop]
    exact List.forall_mem_cons.2 ⟨.leaf hx.isTerminal, htrees⟩
  reduce htrees h hlength _ hq hnode _ hrule hne hlooks _ htop := by
    have hgathered := resemblesRules_gathered hp hpaths hrule hne hq hnode hlooks.has hlength h htrees
    rw [htop]
    exact List.forall_mem_cons.2 ⟨hgathered,
      fun tree htree => htrees tree (List.mem_of_mem_drop htree)⟩

end Gathering

end Configuration

namespace Parser

theorem Built.resemblesRules_of_parse (hp : p.Built rules start mode)
    (hpaths : p.automaton.Faithful p.grammar) {tokens : List (Token π)} {root : Tree π}
    (hparse : p.parse tokens = .ok root) :
    root.symbol = start ∧ root.leaves = tokens ∧ root.ResemblesRules rules := by
  have hinitial := Configuration.tracks_initial p.grammar p.automaton tokens
  obtain ⟨γ, rest, c, h, hrules, hlast | ⟨_, _, e, -, he, hlast⟩⟩ :=
    hinitial.exists_last_stride hp (Configuration.sustained_resemblesRules hp hpaths tokens)
      (fun tree htree => by cases htree) (run_of_parse_eq_ok hparse)
  · have hstep := Configuration.Outcome.eq_accepted_of_answer? hlast
    obtain ⟨htop, hsymbol, hleaves⟩ := h.of_step_accepted hp hpaths hstep
    exact ⟨hsymbol, hleaves, hrules root (by rw [htop]; exact List.mem_singleton.2 rfl)⟩
  · -- A goto does not accept.
    obtain ⟨b, -, -, hb⟩ := he.path.exists_cons
    rcases he.step_goto hp hb with ⟨-, hstep⟩ | ⟨_, hstep, -, -⟩ <;> rw [hstep] at hlast <;>
      cases hlast

theorem exists_build (h : build rules start mode = .ok p) (mode' : MergeMode) :
    ∃ c, build rules start mode' = .ok c := by
  refine ⟨ofGrammar p.grammar mode', ?_⟩
  rw [build, (eq_ofGrammar_of_build h).1]
  rfl

/-- What the parser accepts in either mode, the canonical parser accepts with the same tree, or it
reports a terminal that it does not expect. -/
theorem canonical_parse_of_parse_eq_ok {c : Parser} (h : build rules start mode = .ok p)
    (hc : build rules start .canonical = .ok c) {tokens : List (Token π)} {root : Tree π}
    (hparse : p.parse tokens = .ok root) : c.parse tokens = .ok root ∨
      ∃ i found expected, c.parse tokens = .error (.unexpected i found expected) := by
  rcases upToConflict_of_build hc h tokens with hsyntax | hsame | ⟨_, _, _, _, hconflict, -⟩
  · exact Or.inr hsyntax
  · exact Or.inl (hsame.symm.trans hparse)
  · cases hconflict.symm.trans hparse

/-- On a sentence the canonical parser does not report a terminal that it does not expect. -/
theorem parse_ne_unexpected_of_sentence {c : Parser} (hc : build rules start .canonical = .ok c)
    {tokens : List (Token π)} (hsentence : Rule.Sentence rules start (tokens.map (·.symbol)))
    (i : Nat) (found : Symbol) (expected : List Symbol) :
    c.parse tokens ≠ .error (.unexpected i found expected) := by
  have hbuilt := built_of_build hc
  obtain ⟨tree, htree⟩ :=
    (Tree.exists_isDerivation_iff hbuilt.numbers.admissible.left_nonterminal).2 hsentence
  rcases Configuration.run_of_isDerivation hbuilt htree with ⟨-, _, _, _, _, hrun⟩ | hrun <;>
    rw [parse, hrun, Option.getD_some] <;> simp

/-- What a superset parser accepts has the start symbol at its root, the tokens as its leaves, and
nodes that resemble the rules.  Of a sentence it is a derivation tree; of any other input it is
accepted only where the canonical parser reports a terminal that it does not expect. -/
theorem superset_parse_resembles (h : build rules start .superset = .ok p)
    {tokens : List (Token π)} {root : Tree π} (hparse : p.parse tokens = .ok root) :
    root.symbol = start ∧ root.leaves = tokens ∧ root.ResemblesRules rules ∧
      (Rule.Sentence rules start (tokens.map (·.symbol)) → root.IsDerivation rules start tokens) ∧
      ∀ c, build rules start .canonical = .ok c →
        (c.parse tokens = .ok root ∧ root.IsDerivation rules start tokens) ∨
          ∃ i found expected, c.parse tokens = .error (.unexpected i found expected) := by
  have hcanonical : ∀ c, build rules start .canonical = .ok c →
      (c.parse tokens = .ok root ∧ root.IsDerivation rules start tokens) ∨
        ∃ i found expected, c.parse tokens = .error (.unexpected i found expected) := by
    intro c hc
    rcases canonical_parse_of_parse_eq_ok h hc hparse with hsame | hsyntax
    · exact Or.inl ⟨hsame, (built_of_build hc).isDerivation_of_parse hsame⟩
    · exact Or.inr hsyntax
  obtain ⟨hsymbol, hleaves, hresembles⟩ :=
    (built_of_build h).resemblesRules_of_parse (recognizing_of_build h).faithful hparse
  refine ⟨hsymbol, hleaves, hresembles, fun hsentence => ?_, hcanonical⟩
  obtain ⟨c, hc⟩ := exists_build h .canonical
  rcases hcanonical c hc with ⟨-, hderivation⟩ | ⟨i, found, expected, hsyntax⟩
  · exact hderivation
  · exact absurd hsyntax (parse_ne_unexpected_of_sentence hc hsentence i found expected)

/-- After `y` both `A -> y m` and `C -> m c` go on with `m`; after `z` only `C -> m c` does. -/
def borrowing : List Rule :=
  [⟨.nonterminal "S", [.nonterminal "A", .terminal "a"]⟩,
    ⟨.nonterminal "S", [.terminal "y", .nonterminal "C"]⟩,
    ⟨.nonterminal "S", [.terminal "z", .nonterminal "C"]⟩,
    ⟨.nonterminal "A", [.terminal "y", .terminal "m"]⟩,
    ⟨.nonterminal "C", [.terminal "m", .terminal "c"]⟩]

/-- Not a sentence: `A -> y m` is the only rule for what comes before `a`. -/
def borrowed : List (Token Nat) :=
  [⟨.terminal "z", none⟩, ⟨.terminal "m", none⟩, ⟨.terminal "a", none⟩]

theorem not_sentence_borrowed :
    ¬ Rule.Sentence borrowing (.nonterminal "S") (borrowed.map (·.symbol)) := by
  obtain ⟨c, hc, hfails⟩ : ∃ c, build borrowing (.nonterminal "S") .canonical = .ok c ∧
      (Configuration.runWithin c.grammar c.table 8 (Configuration.initial borrowed)).any (fun
        | .error (.unexpected _ _ _) => true
        | _ => false) = true := exists_of_any_build (by decide +kernel)
  obtain ⟨r, hr, hunexpected⟩ := (Option.any_eq_true _ _).1 hfails
  intro hsentence
  have hne := parse_ne_unexpected_of_sentence hc hsentence
  rw [parse_of_runWithin hr] at hne
  match r with
  | .error (.unexpected i found expected) => exact hne i found expected rfl
  | .error (.undefinedSymbol _ _) => cases hunexpected
  | .error (.conflict _ _ _ _) => cases hunexpected
  | .error (.internal _) => cases hunexpected
  | .ok _ => cases hunexpected

/-- The superset parser enters the state after `y m` also after `z m`, where it then reduces
`A -> y m`: without a conflict in its table it accepts `z m a`, which is no sentence. -/
theorem superset_parse_unsound : ∃ p root, build borrowing (.nonterminal "S") .superset = .ok p ∧
    p.table.hasConflicts = false ∧ p.parse borrowed = .ok root ∧
    ¬ root.IsDerivation borrowing (.nonterminal "S") borrowed ∧
    ¬ Rule.Sentence borrowing (.nonterminal "S") (borrowed.map (·.symbol)) := by
  obtain ⟨p, hp, hcheck⟩ : ∃ p, build borrowing (.nonterminal "S") .superset = .ok p ∧
      (!p.table.hasConflicts && (Configuration.runWithin p.grammar p.table 8
        (Configuration.initial borrowed)).any Except.isOk) = true :=
    exists_of_any_build (by decide +kernel)
  obtain ⟨hnone, haccepts⟩ := Bool.and_eq_true_iff.1 hcheck
  obtain ⟨r, hr, hok⟩ := (Option.any_eq_true _ _).1 haccepts
  cases r with
  | error e => cases hok
  | ok root =>
    refine ⟨p, root, hp, by rwa [Bool.not_eq_true'] at hnone, parse_of_runWithin hr,
      fun htree => not_sentence_borrowed ?_, not_sentence_borrowed⟩
    exact (Tree.exists_isDerivation_iff
      (built_of_build hp).numbers.admissible.left_nonterminal).1 ⟨root, htree⟩

/-- The tree of `z m a` still resembles the rules. -/
theorem superset_parse_resembles_borrowed : ∃ p root,
    build borrowing (.nonterminal "S") .superset = .ok p ∧ p.parse borrowed = .ok root ∧
      root.symbol = .nonterminal "S" ∧ root.leaves = borrowed ∧ root.ResemblesRules borrowing := by
  obtain ⟨p, hp, haccepts⟩ : ∃ p, build borrowing (.nonterminal "S") .superset = .ok p ∧
      (Configuration.runWithin p.grammar p.table 8 (Configuration.initial borrowed)).any
        Except.isOk = true := exists_of_any_build (by decide +kernel)
  obtain ⟨r, hr, hok⟩ := (Option.any_eq_true _ _).1 haccepts
  cases r with
  | error e => cases hok
  | ok root =>
    have hparse := parse_of_runWithin hr
    obtain ⟨hsymbol, hleaves, hresembles, -⟩ := superset_parse_resembles hp hparse
    exact ⟨p, root, hp, hparse, hsymbol, hleaves, hresembles⟩

end Parser

end ShiftReduce
