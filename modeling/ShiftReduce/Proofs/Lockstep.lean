import ShiftReduce.Proofs.Mirroring

/-!
# Runs of mirrored parsers

Where two grammars mirror each other, their canonical parsers run in lockstep.  When the one is at
the end of a path, the other one is at the end of the renamed path, with the same trees and the same
tokens still to be read.  The cells there offer like actions, so both take the same turn.  The
answers are alike: equal trees, or errors that differ at most in numbers of states and rules and in
the order of the terminals that were expected.

    Mirrored p' ρ tokens γ rest c → (c.step …).answer? = some r →
      ∃ r', (initial tokens).run … = some r' ∧ AnswersAlike r r'                (Mirrored.answer)
    Mirrors ρ σ p.grammar p'.grammar → AnswersAlike (p.parse tokens) (p'.parse tokens)
                                                                                  (parse_mirrors)
-/

namespace ShiftReduce

variable {π : Type} {rules rules' : List Rule} {start start' : Symbol} {p p' : Parser}
  {ρ σ : Renaming} {γ : List SymbolId}

/-! ## Answers that are alike -/

/-- Errors of the same kind at the same place, on the same symbol and with the same terminals
expected. -/
inductive ParseError.Alike : ParseError → ParseError → Prop
  | undefinedSymbol (i : Nat) (s : Symbol) : Alike (.undefinedSymbol i s) (.undefinedSymbol i s)
  | unexpected (i : Nat) (found : Symbol) {expected expected' : List Symbol} :
      (∀ s, s ∈ expected ↔ s ∈ expected') →
      Alike (.unexpected i found expected) (.unexpected i found expected')
  | conflict (i : Nat) (s : Symbol) {q q' : StateId} {actions actions' : List Action} :
      Alike (.conflict i q s actions) (.conflict i q' s actions')

/-- Equal trees, or errors that are alike. -/
inductive AnswersAlike : Except ParseError (Tree π) → Except ParseError (Tree π) → Prop
  | ok (root : Tree π) : AnswersAlike (.ok root) (.ok root)
  | error {e e' : ParseError} : e.Alike e' → AnswersAlike (.error e) (.error e')

/-! ## Cells of a turn -/

namespace Parser

section Cells

variable (hp : p.Built rules start .canonical) (hp' : p'.Built rules' start' .canonical)
  (hm : Mirrors ρ σ p.grammar p'.grammar) {q q' : StateId}
  (hq : p.automaton.follow? Automaton.startState γ = some q)
  (hq' : p'.automaton.follow? Automaton.startState (γ.map ρ.symbol) = some q')
include hp hp' hm hq hq'

/-- A cell with one action has its like alone in the renamed cell. -/
theorem exists_singleton_rename {x : SymbolId} {action : Action}
    (hactions : p.table.actions q x = [action]) :
    ∃ like, p'.table.actions q' (ρ.symbol x) = [like] ∧ (action.rename ρ).Like like := by
  have hmem : action ∈ p.table.actions q x := by simp [hactions]
  have hlength := Corresponds.length_eq hp hp' hm ⟨γ, hq, hq'⟩ (has_of_actions hp hq hmem)
  rw [hactions, List.length_singleton] at hlength
  obtain ⟨like, honly⟩ := List.length_eq_one_iff.1 hlength.symm
  obtain ⟨like', hmem', hlike⟩ := exists_like_rename hp hp' hm hq hq' hmem
  rw [honly, List.mem_singleton] at hmem'
  exact ⟨like, honly, hmem' ▸ hlike⟩

/-- The terminals that are expected are expected in the corresponding state. -/
theorem mem_expected_rename {s : Symbol}
    (hs : s ∈ (p.table.expectedTerminals q).map p.grammar.terminal) :
    s ∈ (p'.table.expectedTerminals q').map p'.grammar.terminal := by
  obtain ⟨t, ht, rfl⟩ := List.mem_map.1 hs
  rw [expectedTerminals_eq_filter hp hq, List.mem_filter, decide_eq_true_eq] at ht
  obtain ⟨hrange, hactions⟩ := ht
  have hhas : p.grammar.Has (.terminal t) := List.mem_range.1 hrange
  have hlength := Corresponds.length_eq hp hp' hm ⟨γ, hq, hq'⟩ hhas
  have hpos := List.length_pos_iff.2 hactions
  refine List.mem_map.2 ⟨ρ.terminal t, ?_, hm.forth.symbol hhas⟩
  rw [expectedTerminals_eq_filter hp' hq', List.mem_filter, decide_eq_true_eq]
  exact ⟨List.mem_range.2 (hm.forth.has hhas), List.length_pos_iff.1 (hlength ▸ hpos)⟩

theorem mem_expected_iff (s : Symbol) :
    s ∈ (p.table.expectedTerminals q).map p.grammar.terminal ↔
      s ∈ (p'.table.expectedTerminals q').map p'.grammar.terminal := by
  constructor
  · exact mem_expected_rename hp hp' hm hq hq'
  · intro hs
    refine mem_expected_rename hp' hp hm.symm hq' ?_ hs
    rw [hm.map_map_symbol (has_of_follow? hp hq)]
    exact hq

end Cells

end Parser

/-! ## The lockstep -/

namespace Configuration

variable {tokens rest : List (Token π)} {c d : Configuration π} {x : TerminalId} {q : StateId}

theorem Reads.has {g : Grammar} (hg : g.WellFormed) (hx : Reads g rest x) :
    g.Has (.terminal x) :=
  hx.lt_size hg

/-- What is read keeps its symbol under a renaming. -/
theorem Reads.rename {g h : Grammar} (hm : Mirrors ρ σ g h) (hx : Reads g rest x) :
    Reads h rest (ρ.terminal x) := by
  cases hx with
  | done =>
    rw [hm.forth.endOfInput]
    exact .done
  | token hnumber hne =>
    obtain ⟨hhas, hsymbol⟩ := Grammar.number?_eq_some_iff.1 hnumber
    refine .token (Grammar.number?_eq_some_iff.2 ⟨hm.forth.has hhas, ?_⟩) fun hend => hne ?_
    · exact (hm.forth.symbol hhas).trans hsymbol
    · rw [← hm.terminal_terminal hhas, hend, hm.back.endOfInput]

/-- The tree of a renamed rule is the tree of the rule. -/
theorem gathered_rename {g h : Grammar} (hρ : ρ.Carries g h) (hg : g.WellFormed)
    (hh : h.WellFormed) {rule : Production} (hrule : rule ∈ g.productions)
    (trees : List (Tree π)) :
    gathered h (ρ.production rule).id trees = gathered g rule.id trees := by
  have hrule' := hρ.production hrule
  have hname : h.nonterminal (ρ.production rule).left = g.nonterminal rule.left :=
    hρ.symbol (x := .nonterminal rule.left) (hg.left_lt hrule)
  have hlength : (ρ.production rule).right.length = rule.right.length := List.length_map _
  unfold gathered
  rw [hh.left_id hrule', hh.right_id hrule', hg.left_id hrule, hg.right_id hrule, hname, hlength]

/-- When a parser is at `c` with `rest` still to be read, the parser `p'` has gathered the same trees
along the renamed string. -/
def Mirrored (p' : Parser) (ρ : Renaming) (tokens : List (Token π)) (γ : List SymbolId)
    (rest : List (Token π)) (c : Configuration π) : Prop :=
  ∃ d, Tracks p'.grammar p'.automaton tokens (γ.map ρ.symbol) none rest d ∧ d.trees = c.trees ∧
    (initial tokens).run p'.grammar p'.table = d.run p'.grammar p'.table

section Keeping

variable (hp : p.Built rules start .canonical) (hp' : p'.Built rules' start' .canonical)
  (hm : Mirrors ρ σ p.grammar p'.grammar)
include hp hp' hm

theorem Mirrored.shift (hq : p.automaton.follow? Automaton.startState γ = some q)
    {token : Token π} {below : List (Token π)} (hx : Reads p.grammar (token :: below) x)
    {r : StateId} (hactions : p.table.actions q (.terminal x) = [.shift r])
    (htop : d.trees = .leaf token :: c.trees) (h : Mirrored p' ρ tokens γ (token :: below) c) :
    Mirrored p' ρ tokens (γ ++ [.terminal x]) below d := by
  obtain ⟨c', hc', htrees, hrun⟩ := h
  obtain ⟨q', -, -, hq'⟩ := hc'.path.exists_cons
  obtain ⟨like, honly, hlike⟩ := Parser.exists_singleton_rename hp hp' hm hq hq' hactions
  cases hlike with
  | shift _ r' =>
    obtain ⟨node, hnode⟩ := hp'.linked.exists_node hq'
    have hedge := Parser.edge?_of_target? hp' hnode (by rw [honly]; exact List.mem_singleton.2 rfl)
      (rfl : (Action.shift r').target? = some r')
    obtain ⟨token', below', d', hrest, hstep, hd', htop'⟩ :=
      hc'.step_shift hp' (hx.rename hm) hq' honly hedge
    obtain ⟨rfl, rfl⟩ := List.cons.inj hrest
    refine ⟨d', ?_, by rw [htop', htop, htrees], hrun.trans (run_of_step hstep)⟩
    rw [List.map_append]
    exact hd'

theorem Mirrored.reduce {rule : Production} {β : List SymbolId} (hx : Reads p.grammar rest x)
    (hq : p.automaton.follow? Automaton.startState (β ++ rule.right) = some q)
    (hactions : p.table.actions q (.terminal x) = [.reduce rule.id])
    (hrule : rule ∈ p.grammar.productions) (hne : rule.id ≠ acceptId)
    (hitem : ValidItem p.grammar (β ++ rule.right) ⟨rule.id, rule.right.length⟩ x)
    (htop : d.trees = gathered p.grammar rule.id c.trees :: c.trees.drop rule.right.length)
    (h : Mirrored p' ρ tokens (β ++ rule.right) rest c) :
    Mirrored p' ρ tokens (β ++ [.nonterminal rule.left]) rest d := by
  obtain ⟨c', hc', htrees, hrun⟩ := h
  obtain ⟨q', -, -, hq'⟩ := hc'.path.exists_cons
  obtain ⟨like, honly, hlike⟩ := Parser.exists_singleton_rename hp hp' hm hq hq' hactions
  cases hlike
  have hrule' := hm.forth.production hrule
  have hlength : (ρ.production rule).right.length = rule.right.length := List.length_map _
  have hne' : (ρ.production rule).id ≠ acceptId := by
    intro haccept
    have hback := hm.rule_forth hrule
    rw [show ρ.rule rule.id = acceptId from haccept, hm.back.accept] at hback
    exact hne hback.symm
  have hitem' := hm.forth.validItem hp.wellFormed hp'.wellFormed hitem
  have hcore : ρ.core ⟨rule.id, rule.right.length⟩ =
      ⟨(ρ.production rule).id, (ρ.production rule).right.length⟩ := by
    rw [hlength]
    rfl
  rw [hcore] at hitem'
  obtain ⟨β', d', e', hβ, hstep, hstep', he', htop'⟩ :=
    hc'.step_reduce hp' (hx.rename hm) hq' hrule' hne' hitem' honly
  rw [List.map_append] at hβ
  obtain rfl := List.append_cancel_right hβ
  refine ⟨e', ?_, ?_, hrun.trans ((run_of_step hstep).trans (run_of_step hstep'))⟩
  · rw [List.map_append]
    exact he'
  · rw [htop', gathered_rename hm.forth hp.wellFormed hp'.wellFormed hrule, hlength, htrees, htop]

theorem kept_mirrored (tokens : List (Token π)) :
    Kept p tokens fun γ rest c => Mirrored p' ρ tokens γ rest c where
  shift h hx hq hactions _ htop := h.shift hp hp' hm hq hx hactions htop
  reduce h _ hx hq hactions hrule hne hitem htop :=
    h.reduce hp hp' hm hx hq hactions hrule hne hitem htop

/-- The last steps of the two parsers answer alike. -/
theorem Mirrored.answer (h : Tracks p.grammar p.automaton tokens γ none rest c)
    (hmirrored : Mirrored p' ρ tokens γ rest c) {r : Except ParseError (Tree π)}
    (hanswer : (c.step p.grammar p.table).answer? = some r) :
    ∃ r', (initial tokens).run p'.grammar p'.table = some r' ∧ AnswersAlike r r' := by
  obtain ⟨c', hc', htrees, hrun⟩ := hmirrored
  obtain ⟨q', -, -, hq'⟩ := hc'.path.exists_cons
  have hplace : c.position = c'.position := by
    have hposition := h.position_add
    have hposition' := hc'.position_add
    omega
  rcases h.turn hp with ⟨hrest, hnumber, hstep⟩ | ⟨hx, hq, hactions, hstep⟩ |
    ⟨hx, hq, hactions, hstep⟩ | ⟨-, -, -, -, hstep, -, -⟩ | ⟨-, -, -, -, -, -, -, hstep, -, -, -⟩ |
    ⟨hrest, hq, hactions, -, htop, hstep⟩ <;> rw [hstep] at hanswer
  · obtain rfl := Option.some.inj hanswer
    have hnot : ∀ x, ¬ Reads p'.grammar rest x := by
      intro x hx
      have hback := hx.rename hm.symm
      rw [hrest] at hback
      cases hback with
      | token hread hne => exact hne (hnumber _ hread)
    obtain ⟨token', below', hrest', -, hstep'⟩ := hc'.step_undefined hnot
    obtain ⟨rfl, rfl⟩ := List.cons.inj (hrest'.symm.trans hrest)
    rw [hplace]
    exact ⟨_, hrun.trans (run_of_failed hstep'), .error (.undefinedSymbol _ _)⟩
  · obtain rfl := Option.some.inj hanswer
    have hlength := Parser.Corresponds.length_eq hp hp' hm ⟨γ, hq, hq'⟩
      (hx.has hp.wellFormed)
    rw [hactions] at hlength
    have hactions' := List.length_eq_zero_iff.1 hlength.symm
    rw [hplace]
    exact ⟨_, hrun.trans (run_of_failed (hc'.step_unexpected hp' (hx.rename hm) hq' hactions')),
      .error (.unexpected _ _ (Parser.mem_expected_iff hp hp' hm hq hq'))⟩
  · obtain rfl := Option.some.inj hanswer
    have hlength := Parser.Corresponds.length_eq hp hp' hm ⟨γ, hq, hq'⟩
      (hx.has hp.wellFormed)
    rw [hlength] at hactions
    rw [hplace]
    exact ⟨_, hrun.trans (run_of_failed (hc'.step_conflict hp' (hx.rename hm) hq' hactions)),
      .error (.conflict _ _)⟩
  · cases hanswer
  · cases hanswer
  · obtain rfl := Option.some.inj hanswer
    obtain ⟨like, honly, hlike⟩ := Parser.exists_singleton_rename hp hp' hm hq hq' hactions
    cases hlike
    subst hrest
    have hend : Reads p'.grammar ([] : List (Token π)) (ρ.terminal endOfInputId) :=
      Reads.done.rename hm
    exact ⟨_, hrun.trans (run_of_accepted
      (hc'.step_accepted hp' hend hq' honly rfl (htrees.trans htop))), .ok _⟩

end Keeping

end Configuration

/-- Canonical parsers of mirrored grammars answer alike. -/
theorem Parser.parse_mirrors (h : build rules start .canonical = .ok p)
    (h' : build rules' start' .canonical = .ok p') (hm : Mirrors ρ σ p.grammar p'.grammar)
    (tokens : List (Token π)) : AnswersAlike (p.parse tokens) (p'.parse tokens) := by
  have hp := built_of_build h
  have hp' := built_of_build h'
  have hstart : Configuration.Mirrored p' ρ tokens [] tokens (Configuration.initial tokens) :=
    ⟨_, Configuration.tracks_initial p'.grammar p'.automaton tokens, rfl, rfl⟩
  obtain ⟨γ, rest, c, hc, hmirrored, hanswer⟩ := (Configuration.tracks_initial p.grammar
    p.automaton tokens).exists_last hp (Configuration.kept_mirrored hp hp' hm tokens) hstart
      (run_eq_parse h tokens)
  obtain ⟨r', hrun', halike⟩ := hmirrored.answer hp hp' hm hc hanswer
  rw [run_eq_parse h' tokens] at hrun'
  rwa [← Option.some.inj hrun'] at halike

end ShiftReduce
