import ShiftReduce.Proofs.Soundness

/-!
# Completeness of the canonical parser

A derivation tree dictates the run over its leaves.  As long as the table does not conflict, each
action that the tree asks for is the one in the cell: a shift, since the item at hand stands before
the leaf, or a reduction, since the item at hand is valid with the lookahead that the leaves to the
right begin with.  `Regained` says of a tree that its leaves are read and the tree is put on top;
it holds of a node by going through its children from left to right.

    tree.FollowsRules rules → Regained p tree                                  (regained)
    tree.IsDerivation rules start tokens → p.parse tokens = .ok tree ∨ ∃ …, .conflict …
                                                              (canonical_parse_complete)
-/

namespace ShiftReduce

variable {π : Type} {rules : List Rule} {start : Symbol} {p : Parser} {γ : List SymbolId}

namespace Configuration

/-- The run stops at a cell that offers several actions. -/
def EndsInConflict (p : Parser) (c : Configuration π) : Prop :=
  p.table.hasConflicts = true ∧ ∃ position q s actions,
    c.run p.grammar p.table = some (.error (.conflict position q s actions))

variable {tokens rest : List (Token π)} {c d : Configuration π}

theorem EndsInConflict.of_run_eq (h : EndsInConflict p d)
    (hrun : c.run p.grammar p.table = d.run p.grammar p.table) : EndsInConflict p c := by
  unfold EndsInConflict
  rw [hrun]
  exact h

/-! ## Actions that are asked for -/

section Asked

variable (hp : p.Built rules start .canonical)
  (h : Tracks p.grammar p.automaton tokens γ none rest c) {x : TerminalId}
  (hx : Reads p.grammar rest x)
include hp h hx

/-- An action in the cell is the only one there, or the run ends in a conflict. -/
theorem Tracks.actions_eq_or_conflict {q : StateId}
    (hq : p.automaton.follow? Automaton.startState γ = some q) {action : Action}
    (hmem : action ∈ p.table.actions q (.terminal x)) :
    EndsInConflict p c ∨ p.table.actions q (.terminal x) = [action] := by
  rcases h.only_or_conflict hp hx hq hmem with hactions | ⟨hlong, hstep⟩
  · exact Or.inr hactions
  · refine Or.inl ⟨?_, _, _, _, _, run_of_failed hstep⟩
    by_contra hnone
    have hshort := ParseTable.length_actions_le_of_hasConflicts (Bool.eq_false_iff.2 hnone) q
      (.terminal x)
    omega

theorem Tracks.shift_or_conflict {item : Core} (hitem : ValidCore p.grammar γ item)
    (hnext : item.next? p.grammar = some (.terminal x)) : EndsInConflict p c ∨
    ∃ token below d, rest = token :: below ∧
      c.run p.grammar p.table = d.run p.grammar p.table ∧
      Tracks p.grammar p.automaton tokens (γ ++ [.terminal x]) none below d ∧
      d.trees = .leaf token :: c.trees := by
  obtain ⟨q, states, hstates, hq⟩ := h.path.exists_cons
  obtain ⟨r, hedge⟩ := (Automaton.exists_edge_iff hp.wellFormed hp.exact hp.linked hq).2
    ⟨item, hitem, hnext⟩
  have hmem : Action.shift r ∈ p.table.actions q (.terminal x) :=
    (Parser.mem_canonical_actions_iff hp hq).2 (Or.inl ⟨r, hedge, rfl⟩)
  rcases h.actions_eq_or_conflict hp hx hq hmem with hconflict | hactions
  · exact Or.inl hconflict
  · obtain ⟨token, below, d, hrest, hstep, hd, htop⟩ := h.step_shift hp hx hq hactions hedge
    exact Or.inr ⟨token, below, d, hrest, run_of_step hstep, hd, htop⟩

theorem Tracks.reduce_or_conflict {rule : Production} (hrule : rule ∈ p.grammar.productions)
    (hne : rule.id ≠ acceptId) (hitem : ValidItem p.grammar γ ⟨rule.id, rule.right.length⟩ x) :
    EndsInConflict p c ∨ ∃ β d, γ = β ++ rule.right ∧
      c.run p.grammar p.table = d.run p.grammar p.table ∧
      Tracks p.grammar p.automaton tokens (β ++ [.nonterminal rule.left]) none rest d ∧
      d.trees = gathered p.grammar rule.id c.trees :: c.trees.drop rule.right.length := by
  obtain ⟨q, states, hstates, hq⟩ := h.path.exists_cons
  have hcomplete := hp.wellFormed.isComplete_end hrule
  have hmem : Action.reduce rule.id ∈ p.table.actions q (.terminal x) := by
    refine (Parser.mem_canonical_actions_iff hp hq).2 (Or.inr ⟨_, x, rfl, hitem, hcomplete, ?_⟩)
    exact (if_neg hne).symm
  rcases h.actions_eq_or_conflict hp hx hq hmem with hconflict | hactions
  · exact Or.inl hconflict
  · obtain ⟨β, d, e, hγ, hstep, hstep', he, htop⟩ := h.step_reduce hp hx hq hrule hne hitem hactions
    exact Or.inr ⟨β, e, hγ, (run_of_step hstep).trans (run_of_step hstep'), he, htop⟩

theorem Tracks.accept_or_conflict {item : Core} (hitem : ValidItem p.grammar γ item x)
    (hcomplete : item.isComplete p.grammar = true) (hrule : item.rule = acceptId) :
    EndsInConflict p c ∨ ∃ root, rest = [] ∧ γ = [.nonterminal p.grammar.start] ∧
      c.trees = [root] ∧ c.run p.grammar p.table = some (.ok root) := by
  obtain ⟨q, states, hstates, hq⟩ := h.path.exists_cons
  have hmem : Action.accept ∈ p.table.actions q (.terminal x) := by
    refine (Parser.mem_canonical_actions_iff hp hq).2 (Or.inr ⟨_, x, rfl, hitem, hcomplete, ?_⟩)
    exact (if_pos hrule).symm
  rcases h.actions_eq_or_conflict hp hx hq hmem with hconflict | hactions
  · exact Or.inl hconflict
  · obtain ⟨root, hrest, hγ, htop, hstep⟩ := h.step_accept hp hx hq hitem hcomplete hrule hactions
    exact Or.inr ⟨root, hrest, hγ, htop, run_of_accepted hstep⟩

end Asked

/-! ## Lookaheads of a forest -/

/-- Every rule that the item asks for is asked for with the lookahead. -/
def Asks (g : Grammar) (γ : List SymbolId) (item : Core) (x : TerminalId) : Prop :=
  ∀ rule ∈ g.productions, item.next? g = some (.nonterminal rule.left) →
    ValidItem g γ (Core.start rule.id) x

theorem reads_of_ordinary (rest : List (Token π)) {g : Grammar} {token : Token π} {y : SymbolId}
    (hy : g.Ordinary y) (hsymbol : g.symbol y = token.symbol) (hterminal : token.symbol.isTerminal = true) :
    ∃ x, y = .terminal x ∧ Reads g (token :: rest) x := by
  cases y with
  | nonterminal n =>
    rw [← hsymbol] at hterminal
    cases hterminal
  | terminal x =>
    have hne : x ≠ endOfInputId := fun hx => hy.ne_end (congrArg SymbolId.terminal hx)
    exact ⟨x, rfl, .token (Grammar.number?_eq_some_iff.2 ⟨hy.has, hsymbol⟩) hne⟩

section Forests

variable (hp : p.Built rules start .canonical)
include hp

/-- The numbers of a forest's symbols derive the numbers of its leaves. -/
theorem exists_derives_leaves {α : List SymbolId} (hα : ∀ x ∈ α, p.grammar.Ordinary x)
    {forest : List (Tree π)} (hsymbols : forest.map Tree.symbol = α.map p.grammar.symbol)
    (hrules : ∀ tree ∈ forest, tree.FollowsRules rules) :
    ∃ β, (Tree.leavesOfAll forest).map (·.symbol) = β.map p.grammar.symbol ∧
      Derives p.grammar.HasRule α β ∧ ∀ x ∈ β, p.grammar.Ordinary x := by
  have hderives := Tree.derives_leavesOfAll fun tree htree => (hrules tree htree).derives
  rw [hsymbols] at hderives
  exact Grammar.derives_numbers hp.wellFormed hp.numbers hα hderives

/-- What is asked for before a forest is asked for with the first leaf, or else with what follows
the forest. -/
theorem exists_reads_asks {item : Core} {x : TerminalId} (hitem : ValidItem p.grammar γ item x)
    {forest : List (Tree π)}
    (hsymbols : forest.map Tree.symbol = (item.rest p.grammar).map p.grammar.symbol)
    (hrules : ∀ tree ∈ forest, tree.FollowsRules rules) (hx : Reads p.grammar rest x) :
    ∃ y, Reads p.grammar (Tree.leavesOfAll forest ++ rest) y ∧ Asks p.grammar γ item y := by
  have hordinary : ∀ y ∈ item.rest p.grammar, p.grammar.Ordinary y := fun y hy =>
    hp.wellFormed.ordinary_of_mem_right_id (List.mem_of_mem_drop hy)
  obtain ⟨β, hβ, hderives, hordinary'⟩ := exists_derives_leaves hp hordinary hsymbols hrules
  have hterminal := Tree.isTerminal_of_mem_leavesOfAll fun tree htree =>
    (hrules tree htree).isTerminal_of_mem_leaves
  cases hleaves : Tree.leavesOfAll forest with
  | nil =>
    rw [hleaves] at hβ
    obtain rfl := List.map_eq_nil_iff.1 hβ.symm
    exact ⟨x, hx, fun rule hrule hnext => .inherit hitem hnext hrule hderives⟩
  | cons token leaves =>
    rw [hleaves] at hβ hterminal
    obtain ⟨y, β, rfl, hy, -⟩ := List.map_eq_cons_iff.1 hβ.symm
    obtain ⟨z, rfl, hread⟩ := reads_of_ordinary (leaves ++ rest)
      (hordinary' y List.mem_cons_self) hy (hterminal token List.mem_cons_self)
    exact ⟨z, hread, fun rule hrule hnext => .first hitem.validCore hnext hrule ⟨β, hderives⟩⟩

end Forests

/-! ## Regaining a tree from its leaves -/

/-- Where an item stands before the symbol of the tree, the run over the leaves of the tree puts
the tree on top, or it ends in a conflict. -/
def Regained (p : Parser) (tree : Tree π) : Prop :=
  ∀ ⦃tokens γ rest c item X x⦄,
    Tracks p.grammar p.automaton tokens γ none (tree.leaves ++ rest) c →
    ValidCore p.grammar γ item → item.next? p.grammar = some X → p.grammar.symbol X = tree.symbol →
    Reads p.grammar rest x → Asks p.grammar γ item x →
    EndsInConflict p c ∨ ∃ d : Configuration π,
      c.run p.grammar p.table = d.run p.grammar p.table ∧
      Tracks p.grammar p.automaton tokens (γ ++ [X]) none rest d ∧ d.trees = tree :: c.trees

section Regaining

variable (hp : p.Built rules start .canonical)
include hp

theorem regained_leaf {token : Token π} (hterminal : token.symbol.isTerminal = true) :
    Regained p (.leaf token) := by
  intro tokens γ rest c item X x h hitem hnext hX _ _
  have hordinary := hp.wellFormed.ordinary_of_mem_right_id (List.mem_of_getElem? hnext)
  obtain ⟨y, rfl, hread⟩ := reads_of_ordinary rest hordinary hX hterminal
  rcases h.shift_or_conflict hp hread hitem hnext with hconflict | ⟨_, _, d, hrest, hrun, hd, htop⟩
  · exact Or.inl hconflict
  · obtain ⟨rfl, rfl⟩ := List.cons.inj hrest
    exact Or.inr ⟨d, hrun, hd, htop⟩

/-- An item is carried to the end of its rule over a forest with the symbols after its marker. -/
theorem regained_forest {forest : List (Tree π)}
    (hrules : ∀ tree ∈ forest, tree.FollowsRules rules) (hforest : ∀ tree ∈ forest, Regained p tree)
    {item : Core} {x : TerminalId} (hitem : ValidItem p.grammar γ item x)
    (hsymbols : forest.map Tree.symbol =
      ((p.grammar.right item.rule).drop item.marker).map p.grammar.symbol)
    (h : Tracks p.grammar p.automaton tokens γ none (Tree.leavesOfAll forest ++ rest) c)
    (hx : Reads p.grammar rest x) : EndsInConflict p c ∨ ∃ d : Configuration π,
      c.run p.grammar p.table = d.run p.grammar p.table ∧
      Tracks p.grammar p.automaton tokens
        (γ ++ (p.grammar.right item.rule).drop item.marker) none rest d ∧
      ValidItem p.grammar (γ ++ (p.grammar.right item.rule).drop item.marker)
        ⟨item.rule, item.marker + forest.length⟩ x ∧
      d.trees = forest.reverse ++ c.trees := by
  induction forest generalizing γ c item with
  | nil =>
    rw [List.map_eq_nil_iff.1 hsymbols.symm, List.append_nil]
    exact Or.inr ⟨c, rfl, h, hitem, rfl⟩
  | cons tree forest ih =>
    obtain ⟨X, after, hdrop, hX, hafter⟩ := List.map_eq_cons_iff.1 hsymbols.symm
    obtain ⟨hnext, hrest⟩ := Core.next?_of_drop hdrop
    have hrules' : ∀ t ∈ forest, t.FollowsRules rules := fun t ht =>
      hrules t (List.mem_cons_of_mem tree ht)
    obtain ⟨y, hy, hasks⟩ :=
      exists_reads_asks hp hitem (by rw [hrest]; exact hafter.symm) hrules' hx
    rw [Tree.leavesOfAll, List.append_assoc] at h
    rcases hforest tree List.mem_cons_self h hitem.validCore hnext hX hy hasks with
      hconflict | ⟨d, hrun, hd, htop⟩
    · exact Or.inl hconflict
    -- The item is advanced over the tree and goes on over the others.
    have hadvanced : (p.grammar.right item.advance.rule).drop item.advance.marker = after := hrest
    rcases ih hrules' (fun t ht => hforest t (List.mem_cons_of_mem tree ht))
        (hitem.advance hnext) (by rw [hadvanced]; exact hafter.symm) hd with
      hconflict | ⟨e, hrun', he, hend, htop'⟩
    · exact Or.inl (hconflict.of_run_eq hrun)
    rw [hadvanced, List.append_assoc, List.singleton_append, ← hdrop] at he hend
    refine Or.inr ⟨e, hrun.trans hrun', he, ?_, ?_⟩
    · have hcount : item.marker + (tree :: forest).length = item.marker + 1 + forest.length := by
        rw [List.length_cons]
        omega
      rw [hcount]
      exact hend
    · rw [htop', htop, List.reverse_cons, List.append_assoc, List.singleton_append]

theorem regained_node {name : String} {children : List (Tree π)}
    (hrule : (⟨.nonterminal name, children.map Tree.symbol⟩ : Rule) ∈ rules)
    (hrules : ∀ child ∈ children, child.FollowsRules rules)
    (hchildren : ∀ child ∈ children, Regained p child) : Regained p (.node name children) := by
  intro tokens γ rest c item X x h hitem hnext hX hx hasks
  have hg := hp.wellFormed
  obtain ⟨rule, hmem, hne, hleft, hright⟩ := hp.numbers.production_of_rule hrule
  have hhas := (hg.ordinary_of_mem_right_id (List.mem_of_getElem? hnext)).has
  obtain rfl : .nonterminal rule.left = X :=
    Grammar.symbol_inj (hg.left_lt hmem) hhas (hleft.trans hX.symm)
  have hdrop : (p.grammar.right (Core.start rule.id).rule).drop (Core.start rule.id).marker =
      rule.right := hg.right_id hmem
  rcases regained_forest hp hrules hchildren (hasks rule hmem hnext)
      (by rw [hdrop]; exact hright.symm) h hx with hconflict | ⟨d, hrun, hd, hend, htop⟩
  · exact Or.inl hconflict
  have hlength : children.length = rule.right.length := by
    have hlength := congrArg List.length hright
    rw [List.length_map, List.length_map] at hlength
    exact hlength.symm
  have hcore : (⟨(Core.start rule.id).rule, (Core.start rule.id).marker + children.length⟩ : Core) =
      ⟨rule.id, rule.right.length⟩ := by
    rw [hlength]
    exact congrArg (Core.mk rule.id) (Nat.zero_add _)
  rw [hdrop] at hd hend
  rw [hcore] at hend
  rcases hd.reduce_or_conflict hp hx hmem hne hend with hconflict | ⟨β, e, hβ, hrun', he, htop'⟩
  · exact Or.inl (hconflict.of_run_eq hrun)
  obtain rfl := List.append_cancel_right hβ
  refine Or.inr ⟨e, hrun.trans hrun', he, ?_⟩
  -- The trees gathered are the children.
  have hname : (p.grammar.nonterminal rule.left).name = name := by
    rw [hleft]
    rfl
  have hlength' : rule.right.length = children.reverse.length := by
    rw [List.length_reverse, hlength]
  rw [htop', htop, gathered, hg.left_id hmem, hg.right_id hmem, hname, hlength', List.take_left,
    List.drop_left, List.reverse_reverse]

/-- Every tree that follows the rules is regained from its leaves. -/
theorem regained {tree : Tree π} (h : tree.FollowsRules rules) : Regained p tree := by
  induction h with
  | leaf hterminal => exact regained_leaf hp hterminal
  | node hrule hrules ih => exact regained_node hp hrule hrules ih

/-- The run over the leaves of a derivation ends in the derivation or in a conflict. -/
theorem run_of_isDerivation {tree : Tree π} (h : tree.IsDerivation rules start tokens) :
    EndsInConflict p (initial tokens) ∨
      (initial tokens).run p.grammar p.table = some (.ok tree) := by
  obtain ⟨hsymbol, hrules, rfl⟩ := h
  have hg := hp.wellFormed
  have hstart : ValidItem p.grammar [] (Core.start acceptId) endOfInputId := .start
  have hnext := hg.next?_start
  have hasks : Asks p.grammar [] (Core.start acceptId) endOfInputId := fun rule hrule hnext =>
    .inherit hstart hnext hrule (by rw [hg.rest_start])
  have hinitial : Tracks p.grammar p.automaton tree.leaves [] none (tree.leaves ++ [])
      (initial tree.leaves) := by
    rw [List.append_nil]
    exact tracks_initial p.grammar p.automaton tree.leaves
  have hsymbol' : p.grammar.symbol (.nonterminal p.grammar.start) = tree.symbol :=
    hp.numbers.symbol_start.trans hsymbol.symm
  rcases regained hp hrules hinitial hstart.validCore hnext hsymbol' .done hasks with
    hconflict | ⟨d, hrun, hd, htop⟩
  · exact Or.inl hconflict
  rcases hd.accept_or_conflict hp .done (hstart.advance hnext) hg.isComplete_advance_start rfl with
    hconflict | ⟨root, -, -, htop', haccept⟩
  · exact Or.inl (hconflict.of_run_eq hrun)
  · have hroot : root = tree := (List.cons.inj (htop'.symm.trans htop)).1
    exact Or.inr (by rw [hrun, haccept, hroot])

end Regaining

end Configuration

namespace Parser

/-- A canonical parser regains every derivation tree from its leaves, unless it comes to a cell that
offers several actions.  Without such cells it accepts the sentences and nothing else, and no
sentence has two derivation trees. -/
theorem canonical_parse_complete (h : build rules start .canonical = .ok p) :
    (∀ (tokens : List (Token π)) (tree : Tree π), tree.IsDerivation rules start tokens →
      p.parse tokens = .ok tree ∨ ∃ position state symbol actions,
        p.parse tokens = .error (.conflict position state symbol actions)) ∧
    (p.table.hasConflicts = false →
      (∀ tokens : List (Token π), (∃ tree, p.parse tokens = .ok tree) ↔
        Rule.Sentence rules start (tokens.map (·.symbol))) ∧
      ∀ (tokens : List (Token π)) (tree tree' : Tree π), tree.IsDerivation rules start tokens →
        tree'.IsDerivation rules start tokens → tree = tree') := by
  have hp := built_of_build h
  have hregained : ∀ {tokens : List (Token π)} {tree : Tree π},
      tree.IsDerivation rules start tokens → p.table.hasConflicts = false →
      p.parse tokens = .ok tree := by
    intro tokens tree htree hnone
    rcases Configuration.run_of_isDerivation hp htree with ⟨hconflict, -⟩ | hrun
    · rw [hnone] at hconflict
      cases hconflict
    · rw [parse, hrun, Option.getD_some]
  refine ⟨fun tokens tree htree => ?_, fun hnone => ⟨fun tokens => ?_, ?_⟩⟩
  · rcases Configuration.run_of_isDerivation hp htree with ⟨-, i, q, s, actions, hrun⟩ | hrun
    · exact Or.inr ⟨i, q, s, actions, by rw [parse, hrun, Option.getD_some]⟩
    · exact Or.inl (by rw [parse, hrun, Option.getD_some])
  · rw [← Tree.exists_isDerivation_iff hp.numbers.admissible.left_nonterminal]
    constructor
    · rintro ⟨tree, htree⟩
      exact ⟨tree, hp.isDerivation_of_parse htree⟩
    · rintro ⟨tree, htree⟩
      exact ⟨tree, hregained htree hnone⟩
  · intro tokens tree tree' htree htree'
    have hparse := hregained htree hnone
    rw [hregained htree' hnone] at hparse
    exact (Except.ok.inj hparse).symm

/-- The tree of a pair with nothing in it. -/
def pair : Tree Nat :=
  .node "S" [.leaf ⟨.terminal "a", some 0⟩, .node "S" [], .leaf ⟨.terminal "b", some 1⟩]

theorem isDerivation_pair : pair.IsDerivation nested (.nonterminal "S") pair.leaves := by
  refine ⟨rfl, .node (by decide) fun child hchild => ?_, rfl⟩
  simp only [List.mem_cons, List.not_mem_nil, or_false] at hchild
  rcases hchild with rfl | rfl | rfl
  · exact .leaf rfl
  · exact .node (by decide) fun child hchild => by cases hchild
  · exact .leaf rfl

/-- The table of nested pairs has no conflicts, so a pair has one derivation tree. -/
theorem canonical_parse_complete_nested :
    ∃ p, build nested (.nonterminal "S") .canonical = .ok p ∧ p.table.hasConflicts = false ∧
      (∃ root, p.parse pair.leaves = .ok root) ∧
      ∀ tree, tree.IsDerivation nested (.nonterminal "S") pair.leaves → tree = pair := by
  obtain ⟨p, hp, hnone⟩ : ∃ p, build nested (.nonterminal "S") .canonical = .ok p ∧
      (!p.table.hasConflicts) = true := exists_of_any_build (by decide +kernel)
  rw [Bool.not_eq_true'] at hnone
  obtain ⟨haccepts, hunique⟩ := (canonical_parse_complete hp).2 hnone
  refine ⟨p, hp, hnone, (haccepts pair.leaves).2 ?_, fun tree htree => ?_⟩
  · exact ⟨by decide, isDerivation_pair.followsRules.derives⟩
  · exact hunique pair.leaves tree pair htree isDerivation_pair

end Parser

end ShiftReduce
