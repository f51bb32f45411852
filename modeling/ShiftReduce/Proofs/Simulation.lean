import ShiftReduce.Proofs.Errors

/-!
# A superset parser follows the canonical parser

Along every path of the canonical automaton the superset automaton has a path too, and the state at
its end covers the string of the path.  So each action in a canonical cell has its like in the
superset cell, and different actions have different likes.  As long as the superset cell offers one
action it is that of the canonical cell, and the superset parser gathers the same trees along the
same string; otherwise it reports a conflict there, which is no later than any report of the
canonical parser.  Only where the canonical parser finds its cell empty does this say nothing.

    action ∈ p.table.actions q x → ∃ like ∈ s.table.actions r x, action.Like like    (exists_like)
    p.Kept tokens fun γ rest c => Simulated s tokens γ rest c                     (kept_simulated)
    p.parse tokens = .ok root → s.parse tokens = .ok root ∨ ∃ …, .conflict …
                                                                   (superset_parse_simulates)
-/

namespace ShiftReduce

variable {π : Type} {rules : List Rule} {start : Symbol} {mode : MergeMode} {p s : Parser}
  {γ : List SymbolId}

/-- A list without repetitions that is related into another list, different members to different
ones, is no longer than that list. -/
theorem length_le_of_relates {α β : Type} {r : α → β → Prop} {l : List α} {l' : List β}
    (hl : l.Nodup) (htotal : ∀ a ∈ l, ∃ b ∈ l', r a b)
    (hunique : ∀ a ∈ l, ∀ b ∈ l, ∀ c, r a c → r b c → a = b) : l.length ≤ l'.length := by
  choose image hmem hrelated using htotal
  have hnodup : (l.pmap image fun _ ha => ha).Nodup := hl.pmap fun a ha b hb heq =>
    hunique a ha b hb (image a ha) (hrelated a ha) (heq ▸ hrelated b hb)
  have hsubset : l.pmap image (fun _ ha => ha) ⊆ l' := by
    intro b hb
    obtain ⟨a, ha, rfl⟩ := List.mem_pmap.1 hb
    exact hmem a ha
  have hle := hnodup.length_le_of_subset hsubset
  rwa [List.length_pmap] at hle

/-! ## Like actions -/

namespace Action

/-- Actions that differ at most in the state that is entered. -/
inductive Like : Action → Action → Prop
  | shift (q r : StateId) : Like (.shift q) (.shift r)
  | goto (q r : StateId) : Like (.goto q) (.goto r)
  | reduce (rule : RuleId) : Like (.reduce rule) (.reduce rule)
  | accept : Like .accept .accept

/-- The state that is entered. -/
def target? : Action → Option StateId
  | shift q => some q
  | goto q => some q
  | reduce _ => none
  | accept => none

theorem Like.eq_of_target? {a b like : Action} (ha : a.Like like) (hb : b.Like like)
    (h : a.target? = b.target?) : a = b := by
  cases ha with
  | shift q r =>
    cases hb
    rw [Option.some.inj h]
  | goto q r =>
    cases hb
    rw [Option.some.inj h]
  | reduce rule =>
    cases hb
    rfl
  | accept =>
    cases hb
    rfl

theorem Like.isSome_target? {a b : Action} (h : a.Like b) :
    a.target?.isSome = b.target?.isSome := by
  cases h <;> rfl

theorem like_edgeAction (x : SymbolId) (q r : StateId) : (edgeAction x q).Like (edgeAction x r) := by
  cases x with
  | terminal t => exact .shift q r
  | nonterminal n => exact .goto q r

theorem like_completion (c : Core) : c.completion.Like c.completion := by
  unfold Core.completion
  split
  · exact .accept
  · exact .reduce c.rule

theorem target?_edgeAction (x : SymbolId) (q : StateId) : (edgeAction x q).target? = some q := by
  cases x <;> rfl

theorem target?_completion (c : Core) : c.completion.target? = none := by
  unfold Core.completion
  split <;> rfl

end Action

namespace Parser

/-- The state that an action enters is that of the edge. -/
theorem edge?_of_target? (hp : p.Built rules start mode) {q : Nat} {node : Node}
    (hnode : p.automaton.nodes[q]? = some node) {x : SymbolId} {action : Action}
    (h : action ∈ p.table.actions q x) {r : StateId} (hr : action.target? = some r) :
    p.automaton.edge? q x = some r := by
  rcases (mem_actions_iff hp hnode).1 h with ⟨r', hedge, rfl⟩ | ⟨c, -, -, -, -, rfl⟩
  · rw [Action.target?_edgeAction] at hr
    rw [hedge, hr]
  · rw [Action.target?_completion] at hr
    cases hr

/-- Of the actions of a cell at most one enters a state. -/
theorem target?_eq_of_isSome (hp : p.Built rules start mode) {q : Nat} {node : Node}
    (hnode : p.automaton.nodes[q]? = some node) {x : SymbolId} {a b : Action}
    (ha : a ∈ p.table.actions q x) (hb : b ∈ p.table.actions q x)
    (hsome : a.target?.isSome = b.target?.isSome) : a.target? = b.target? := by
  cases ha' : a.target? with
  | none =>
    rw [ha', Option.isSome_none] at hsome
    exact (Option.not_isSome_iff_eq_none.1 (by rw [← hsome]; exact Bool.false_ne_true)).symm
  | some r =>
    rw [ha', Option.isSome_some] at hsome
    obtain ⟨r', hb'⟩ := Option.isSome_iff_exists.1 hsome.symm
    rw [hb', ← edge?_of_target? hp hnode ha ha', edge?_of_target? hp hnode hb hb']

/-- No two actions of a cell have the same like. -/
theorem eq_of_like (hp : p.Built rules start mode) {q : Nat} {node : Node}
    (hnode : p.automaton.nodes[q]? = some node) {x : SymbolId} {a b like : Action}
    (ha : a ∈ p.table.actions q x) (hb : b ∈ p.table.actions q x) (hlike : a.Like like)
    (hlike' : b.Like like) : a = b :=
  hlike.eq_of_target? hlike' (target?_eq_of_isSome hp hnode ha hb
    (hlike.isSome_target?.trans hlike'.isSome_target?.symm))

section Cells

variable (hp : p.Built rules start .canonical) (hs : s.Built rules start mode)
  (hgrammar : s.grammar = p.grammar)
include hp hs hgrammar

/-- The paths of the canonical automaton are paths of the other automaton. -/
theorem exists_follow? {q : StateId} (hq : p.automaton.follow? Automaton.startState γ = some q) :
    ∃ r, s.automaton.follow? Automaton.startState γ = some r := by
  rcases Automaton.recognizes_follow? hp.wellFormed hp.exact hp.linked γ with
    ⟨hnone, -⟩ | ⟨_, _, -, -, -, c, hc⟩
  · cases hnone.symm.trans hq
  · rw [← hgrammar] at hc
    exact hs.linked.exists_follow? hs.wellFormed hs.exact hc

variable {q r : StateId} (hq : p.automaton.follow? Automaton.startState γ = some q)
  (hr : s.automaton.follow? Automaton.startState γ = some r)
include hq hr

/-- Each action of a canonical cell has its like in the other cell along the same path. -/
theorem exists_like {x : SymbolId} {action : Action} (h : action ∈ p.table.actions q x) :
    ∃ like ∈ s.table.actions r x, action.Like like := by
  obtain ⟨node, hnode, hcovers⟩ := hs.linked.covers hs.wellFormed hs.exact hr
  rcases (mem_canonical_actions_iff hp hq).1 h with ⟨q', hedge, rfl⟩ | ⟨c, t, hx, hc, hcomplete, rfl⟩
  · obtain ⟨c, hc, hnext⟩ :=
      (Automaton.exists_edge_iff hp.wellFormed hp.exact hp.linked hq).1 ⟨q', hedge⟩
    rw [← hgrammar] at hc hnext
    obtain ⟨r', hedge'⟩ := (hs.linked.exists_edge_iff hnode).2 ⟨c, hcovers.has hc, hnext⟩
    exact ⟨_, (mem_actions_iff hs hnode).2 (Or.inl ⟨r', hedge', rfl⟩), Action.like_edgeAction x q' r'⟩
  · rw [← hgrammar] at hc hcomplete
    exact ⟨_, (mem_actions_iff hs hnode).2 (Or.inr ⟨c, t, hx, hcovers.looks hc, hcomplete, rfl⟩),
      Action.like_completion c⟩

/-- The other cell offers no fewer actions than the canonical cell. -/
theorem length_actions_le (x : SymbolId) :
    (p.table.actions q x).length ≤ (s.table.actions r x).length := by
  obtain ⟨node, hnode⟩ := hp.linked.exists_node hq
  exact length_le_of_relates (nodup_actions hp q x)
    (fun a ha => exists_like hp hs hgrammar hq hr ha)
    (fun a ha b hb like => eq_of_like hp hnode ha hb)

end Cells

end Parser

/-! ## The simulation -/

/-- Where an error is reported, unless it is internal. -/
def ParseError.position? : ParseError → Option Nat
  | undefinedSymbol i _ => some i
  | unexpected i _ _ => some i
  | conflict i _ _ _ => some i
  | internal _ => none

namespace Configuration

variable {tokens rest : List (Token π)} {c d : Configuration π}

theorem Tracks.position_add {g : Grammar} {a : Automaton} {waiting : Option NonterminalId}
    (h : Tracks g a tokens γ waiting rest c) : c.position + rest.length = tokens.length + 1 := by
  have hshifted := h.shifted_eq
  show c.shifted + 1 + rest.length = tokens.length + 1
  omega

/-- When the canonical parser is at `c` with `rest` still to be read, the parser `s` has gathered the
same trees along the same string, or it has stopped with a conflict that is no later. -/
inductive Simulated (s : Parser) (tokens : List (Token π)) (γ : List SymbolId)
    (rest : List (Token π)) (c : Configuration π) : Prop
  | along {d : Configuration π} : Tracks s.grammar s.automaton tokens γ none rest d →
      d.trees = c.trees →
      (initial tokens).run s.grammar s.table = d.run s.grammar s.table → Simulated s tokens γ rest c
  | stopped {i : Nat} {q : StateId} {x : Symbol} {actions : List Action} :
      (initial tokens).run s.grammar s.table = some (.error (.conflict i q x actions)) →
      i + rest.length ≤ tokens.length + 1 → Simulated s tokens γ rest c

theorem Simulated.of_conflict {δ : List SymbolId} {below : List (Token π)}
    (hd : Tracks s.grammar s.automaton tokens δ none below d)
    (hrun : (initial tokens).run s.grammar s.table = d.run s.grammar s.table) {q : StateId}
    {x : Symbol} {actions : List Action}
    (hstep : d.step s.grammar s.table = .failed (.conflict d.position q x actions))
    (hrest : rest.length ≤ below.length) : Simulated s tokens γ rest c := by
  have hposition := hd.position_add
  exact .stopped (hrun.trans (run_of_failed hstep)) (by omega)

section Keeping

variable (hp : p.Built rules start .canonical) (hs : s.Built rules start mode)
  (hgrammar : s.grammar = p.grammar) {x : TerminalId} {q : StateId}
include hp hs hgrammar

/-- Along the path of the canonical parser the other parser performs the like of an action of the
canonical cell, or it reports a conflict. -/
theorem Tracks.like_or_conflict (hq : p.automaton.follow? Automaton.startState γ = some q)
    (h : Tracks s.grammar s.automaton tokens γ none rest d) (hx : Reads p.grammar rest x)
    {action : Action} (hmem : action ∈ p.table.actions q (.terminal x)) :
    (∃ r like, s.automaton.follow? Automaton.startState γ = some r ∧
      s.table.actions r (.terminal x) = [like] ∧ action.Like like) ∨
    ∃ r actions, d.step s.grammar s.table =
      .failed (.conflict d.position r (headSymbol rest) actions) := by
  rw [← hgrammar] at hx
  obtain ⟨r, -, -, hr⟩ := h.path.exists_cons
  obtain ⟨like, hmem', hlike⟩ := Parser.exists_like hp hs hgrammar hq hr hmem
  rcases h.only_or_conflict hs hx hr hmem' with honly | ⟨-, hstep⟩
  · exact Or.inl ⟨r, like, hr, honly, hlike⟩
  · exact Or.inr ⟨r, _, hstep⟩

theorem Simulated.shift (hq : p.automaton.follow? Automaton.startState γ = some q)
    {token : Token π} {below : List (Token π)} (hx : Reads p.grammar (token :: below) x)
    {q' : StateId} (hactions : p.table.actions q (.terminal x) = [.shift q'])
    (htop : d.trees = .leaf token :: c.trees) (h : Simulated s tokens γ (token :: below) c) :
    Simulated s tokens (γ ++ [.terminal x]) below d := by
  rcases h with ⟨hd, htrees, hrun⟩ | ⟨hrun, hle⟩
  · have hmem : Action.shift q' ∈ p.table.actions q (.terminal x) := by simp [hactions]
    rcases hd.like_or_conflict hp hs hgrammar hq hx hmem with
      ⟨r, like, hr, honly, hlike⟩ | ⟨r, actions, hstep⟩
    · cases hlike with
      | shift _ r' =>
        obtain ⟨node, hnode⟩ := hs.linked.exists_node hr
        have hedge := Parser.edge?_of_target? hs hnode (by rw [honly]; exact List.mem_singleton.2 rfl)
          (rfl : (Action.shift r').target? = some r')
        rw [← hgrammar] at hx
        obtain ⟨token', below', e, hrest, hstep, he, htop'⟩ := hd.step_shift hs hx hr honly hedge
        obtain ⟨rfl, rfl⟩ := List.cons.inj hrest
        exact .along he (by rw [htop', htop, htrees]) (hrun.trans (run_of_step hstep))
    · exact .of_conflict hd hrun hstep (Nat.le_succ _)
  · exact .stopped hrun (by rw [List.length_cons] at hle; omega)

theorem Simulated.reduce {rule : Production} {β : List SymbolId} (hx : Reads p.grammar rest x)
    (hq : p.automaton.follow? Automaton.startState (β ++ rule.right) = some q)
    (hactions : p.table.actions q (.terminal x) = [.reduce rule.id])
    (hrule : rule ∈ p.grammar.productions) (hne : rule.id ≠ acceptId)
    (hitem : ValidItem p.grammar (β ++ rule.right) ⟨rule.id, rule.right.length⟩ x)
    (htop : d.trees = gathered p.grammar rule.id c.trees :: c.trees.drop rule.right.length)
    (h : Simulated s tokens (β ++ rule.right) rest c) :
    Simulated s tokens (β ++ [.nonterminal rule.left]) rest d := by
  rcases h with ⟨hd, htrees, hrun⟩ | ⟨hrun, hle⟩
  · have hmem : Action.reduce rule.id ∈ p.table.actions q (.terminal x) := by simp [hactions]
    rcases hd.like_or_conflict hp hs hgrammar hq hx hmem with
      ⟨r, like, hr, honly, hlike⟩ | ⟨r, actions, hstep⟩
    · cases hlike
      rw [← hgrammar] at hx hrule hitem htop
      rcases hd.step_gather hs hx hr hrule honly with
        ⟨hshort, -⟩ | ⟨β', κ, e, hβ, hlength, hstep, he, htop'⟩
      · rw [List.length_append] at hshort
        omega
      obtain ⟨rfl, -⟩ := List.append_inj' hβ hlength.symm
      -- The state below covers the item that asked for the rule, so it has the goto.
      obtain ⟨b, -, -, hb⟩ := he.path.exists_cons
      obtain ⟨node, hnode, hcovers⟩ := hs.linked.covers hs.wellFormed hs.exact hb
      obtain ⟨item, hvalid, hnext⟩ := hitem.validCore.exists_before_left hs.wellFormed hrule hne
      obtain ⟨r', hedge⟩ := (hs.linked.exists_edge_iff hnode).2 ⟨item, hcovers.has hvalid, hnext⟩
      rcases he.step_goto hs hb with ⟨hnone, -⟩ | ⟨e', hstep', he', htop''⟩
      · cases hnone.symm.trans hedge
      · refine .along he' ?_ (hrun.trans ((run_of_step hstep).trans (run_of_step hstep')))
        rw [htop'', htop', htop, htrees]
    · exact .of_conflict hd hrun hstep (Nat.le_refl _)
  · exact .stopped hrun hle

theorem kept_simulated (tokens : List (Token π)) :
    Kept p tokens fun γ rest c => Simulated s tokens γ rest c where
  shift h hx hq hactions _ htop := h.shift hp hs hgrammar hq hx hactions htop
  reduce h _ hx hq hactions hrule hne hitem htop :=
    h.reduce hp hs hgrammar hx hq hactions hrule hne hitem htop

end Keeping

/-! ## The answer -/

/-- The answer `r'` is `r`, or it is a conflict that is reported no later. -/
def UpToConflict (r r' : Except ParseError (Tree π)) : Prop :=
  r' = r ∨ ∃ i q x actions, r' = .error (.conflict i q x actions) ∧
    ∀ e j, r = .error e → e.position? = some j → i ≤ j

theorem position_eq_of_lookahead {g : Grammar} {e : ParseError} {i : Nat}
    (h : c.lookahead g = .error e) (hi : e.position? = some i) : i = c.position := by
  unfold lookahead at h
  split at h
  · obtain rfl := Except.error.inj h
    cases hi
  · cases h
  · cases h
  · split at h
    · split at h
      · obtain rfl := Except.error.inj h
        exact (Option.some.inj hi).symm
      · cases h
    · obtain rfl := Except.error.inj h
      exact (Option.some.inj hi).symm

/-- What an action fails with is internal. -/
theorem position?_of_perform {g : Grammar} {action : Action} {e : ParseError}
    (h : c.perform g action = .failed e) : e.position? = none := by
  cases action with
  | shift q =>
    simp only [perform] at h
    split at h
    · cases h
    · rw [← Outcome.failed.inj h]
      rfl
  | reduce r =>
    simp only [perform] at h
    split at h
    · rw [← Outcome.failed.inj h]
      rfl
    · cases h
  | goto q =>
    simp only [perform] at h
    split at h
    · cases h
    · rw [← Outcome.failed.inj h]
      rfl
  | accept =>
    simp only [perform] at h
    split at h
    · cases h
    · rw [← Outcome.failed.inj h]
      rfl

/-- An error with a position is reported where the configuration is. -/
theorem position_eq_of_step {g : Grammar} {t : ParseTable} {e : ParseError} {i : Nat}
    (h : c.step g t = .failed e) (hi : e.position? = some i) : i = c.position := by
  unfold step at h
  split at h
  · next e' hmove =>
    obtain rfl := Outcome.failed.inj h
    unfold move at hmove
    split at hmove
    · obtain rfl := Except.error.inj hmove
      cases hi
    · split at hmove
      · next hlookahead =>
        obtain rfl := Except.error.inj hmove
        exact position_eq_of_lookahead hlookahead hi
      · split at hmove
        · cases hmove
        · obtain rfl := Except.error.inj hmove
          exact (Option.some.inj hi).symm
        · obtain rfl := Except.error.inj hmove
          exact (Option.some.inj hi).symm
  · rw [position?_of_perform h] at hi
    cases hi

/-- The last step of the canonical parser decides the answer of the parser that follows it, unless
the canonical parser finds its cell empty. -/
theorem Simulated.answer (hp : p.Built rules start .canonical) (hs : s.Built rules start mode)
    (hgrammar : s.grammar = p.grammar) (h : Tracks p.grammar p.automaton tokens γ none rest c)
    (hsimulated : Simulated s tokens γ rest c) {r : Except ParseError (Tree π)}
    (hanswer : (c.step p.grammar p.table).answer? = some r) :
    (∃ i found expected, r = .error (.unexpected i found expected)) ∨
      ∃ r', (initial tokens).run s.grammar s.table = some r' ∧ UpToConflict r r' := by
  have hposition := h.position_add
  -- A conflict no later than here is no later than the error reported here.
  have hconflict : ∀ {i q x actions}, (initial tokens).run s.grammar s.table =
      some (.error (.conflict i q x actions)) → i ≤ c.position →
      ∃ r', (initial tokens).run s.grammar s.table = some r' ∧ UpToConflict r r' := by
    intro i q x actions hrun hle
    refine ⟨_, hrun, Or.inr ⟨_, _, _, _, rfl, fun e j he hj => ?_⟩⟩
    rw [he] at hanswer
    rw [position_eq_of_step (Outcome.eq_failed_of_answer? hanswer) hj]
    exact hle
  rcases hsimulated with @⟨d, hd, htrees, hrun⟩ | ⟨hrun, hle⟩
  · have hsame := hd.position_add
    obtain ⟨q', -, -, hq'⟩ := hd.path.exists_cons
    rcases h.turn hp with ⟨hrest, hnumber, hstep⟩ | ⟨-, -, -, hstep⟩ | ⟨hx, hq, hactions, hstep⟩ |
      ⟨-, -, -, -, hstep, -, -⟩ | ⟨-, -, -, -, -, -, -, hstep, -, -, -⟩ |
      @⟨q, _, hrest, hq, hactions, -, htop, hstep⟩ <;> rw [hstep] at hanswer
    · obtain rfl := Option.some.inj hanswer
      have hnot : ∀ x, ¬ Reads s.grammar rest x := by
        rw [hgrammar, hrest]
        intro x hx
        cases hx with
        | token hx hne => exact hne (hnumber x hx)
      obtain ⟨token', below', hrest', -, hstep'⟩ := hd.step_undefined hnot
      obtain ⟨rfl, rfl⟩ := List.cons.inj (hrest'.symm.trans hrest)
      have hplace : c.position = d.position := by omega
      rw [hplace]
      exact Or.inr ⟨_, hrun.trans (run_of_failed hstep'), Or.inl rfl⟩
    · obtain rfl := Option.some.inj hanswer
      exact Or.inl ⟨_, _, _, rfl⟩
    · rw [← hgrammar] at hx
      have hlong := hactions.trans (Parser.length_actions_le hp hs hgrammar hq hq' _)
      exact Or.inr (hconflict (hrun.trans (run_of_failed (hd.step_conflict hs hx hq' hlong)))
        (by omega))
    · cases hanswer
    · cases hanswer
    · obtain rfl := Option.some.inj hanswer
      have hmem : Action.accept ∈ p.table.actions q (.terminal endOfInputId) := by simp [hactions]
      subst hrest
      rcases hd.like_or_conflict hp hs hgrammar hq .done hmem with
        ⟨r, like, hr, honly, hlike⟩ | ⟨r, actions, hstep'⟩
      · cases hlike
        have hstep' := hd.step_accepted hs .done hr honly rfl (htrees.trans htop)
        exact Or.inr ⟨_, hrun.trans (run_of_accepted hstep'), Or.inl rfl⟩
      · exact Or.inr (hconflict (hrun.trans (run_of_failed hstep')) (by omega))
  · exact Or.inr (hconflict hrun (by omega))

end Configuration

namespace Parser

theorem upToConflict_of_build (hp : build rules start .canonical = .ok p)
    (hs : build rules start mode = .ok s) (tokens : List (Token π)) :
    (∃ i found expected, p.parse tokens = .error (.unexpected i found expected)) ∨
      Configuration.UpToConflict (p.parse tokens) (s.parse tokens) := by
  have hbuilt := built_of_build hp
  have hbuilt' := built_of_build hs
  have hgrammar := grammar_eq_of_build hp hs
  have hinitial := Configuration.tracks_initial p.grammar p.automaton tokens
  obtain ⟨r, hrun⟩ :=
    hinitial.run_ends hbuilt (hbuilt.linked.faithful hbuilt.wellFormed hbuilt.exact)
  have hstart : Configuration.Simulated s tokens [] tokens (Configuration.initial tokens) :=
    .along (Configuration.tracks_initial s.grammar s.automaton tokens) rfl rfl
  obtain ⟨γ, rest, c, h, hsimulated, hanswer⟩ := hinitial.exists_last hbuilt
    (Configuration.kept_simulated hbuilt hbuilt' hgrammar tokens) hstart hrun
  have hparse : p.parse tokens = r := by rw [parse, hrun, Option.getD_some]
  rw [hparse]
  rcases hsimulated.answer hbuilt hbuilt' hgrammar h hanswer with hsyntax | ⟨r', hrun', hr'⟩
  · exact Or.inl hsyntax
  · have hparse' : s.parse tokens = r' := by rw [parse, hrun', Option.getD_some]
    rw [hparse']
    exact Or.inr hr'

/-- The superset parser gives the answer of the canonical parser, or reports a conflict that is no
later, unless the canonical parser reports a terminal that it does not expect. -/
theorem superset_parse_simulates (hp : build rules start .canonical = .ok p)
    (hs : build rules start .superset = .ok s) (tokens : List (Token π)) :
    (∀ root, p.parse tokens = .ok root → s.parse tokens = .ok root ∨
      ∃ j q x actions, s.parse tokens = .error (.conflict j q x actions)) ∧
    (∀ i q x actions, p.parse tokens = .error (.conflict i q x actions) →
      ∃ j q' x' actions', s.parse tokens = .error (.conflict j q' x' actions') ∧ j ≤ i) ∧
    (∀ i x, p.parse tokens = .error (.undefinedSymbol i x) →
      s.parse tokens = .error (.undefinedSymbol i x) ∨
      ∃ j q x' actions, s.parse tokens = .error (.conflict j q x' actions) ∧ j ≤ i) ∧
    ∀ fault, p.parse tokens ≠ .error (.internal fault) := by
  have hfollows : ∀ r, p.parse tokens = r → (∀ i found l, r ≠ .error (.unexpected i found l)) →
      s.parse tokens = r ∨ ∃ j q x actions, s.parse tokens = .error (.conflict j q x actions) ∧
        ∀ e i, r = .error e → e.position? = some i → j ≤ i := by
    rintro r rfl hr
    rcases upToConflict_of_build hp hs tokens with ⟨i, found, l, herror⟩ | hanswer
    · exact absurd herror (hr i found l)
    · exact hanswer
  refine ⟨fun root hroot => ?_, fun i q x actions herror => ?_, fun i x herror => ?_,
    fun fault herror => ?_⟩
  · rcases hfollows _ hroot (by simp) with hsame | ⟨j, q, x, actions, hconflict, -⟩
    · exact Or.inl hsame
    · exact Or.inr ⟨j, q, x, actions, hconflict⟩
  · rcases hfollows _ herror (by simp) with hsame | ⟨j, q', x', actions', hconflict, hle⟩
    · exact ⟨i, q, x, actions, hsame, Nat.le_refl i⟩
    · exact ⟨j, q', x', actions', hconflict, hle _ _ rfl rfl⟩
  · rcases hfollows _ herror (by simp) with hsame | ⟨j, q, x', actions, hconflict, hle⟩
    · exact Or.inl hsame
    · exact Or.inr ⟨j, q, x', actions, hconflict, hle _ _ rfl rfl⟩
  · cases (built_of_build hp).exactError_of_parse herror

/-- After `y`, both `S -> A c` with `A -> y m` and `S -> y C` with `C -> m c` go on with `m c`; after
`z` only `S -> z C` does. -/
def contested : List Rule :=
  [⟨.nonterminal "S", [.nonterminal "A", .terminal "c"]⟩,
    ⟨.nonterminal "S", [.terminal "y", .nonterminal "C"]⟩,
    ⟨.nonterminal "S", [.terminal "z", .nonterminal "C"]⟩,
    ⟨.nonterminal "A", [.terminal "y", .terminal "m"]⟩,
    ⟨.nonterminal "C", [.terminal "m", .terminal "c"]⟩]

/-- The superset parser enters the state after `y m` also after `z m`, and so it reports a conflict
where the canonical parser accepts. -/
theorem superset_parse_simulates_contested : ∃ p s,
    build contested (.nonterminal "S") .canonical = .ok p ∧
      build contested (.nonterminal "S") .superset = .ok s ∧
      (∃ root, p.parse (π := Nat) [⟨.terminal "z", none⟩, ⟨.terminal "m", none⟩,
        ⟨.terminal "c", none⟩] = .ok root) ∧
      ∃ j q x actions, s.parse (π := Nat) [⟨.terminal "z", none⟩, ⟨.terminal "m", none⟩,
        ⟨.terminal "c", none⟩] = .error (.conflict j q x actions) := by
  obtain ⟨p, hp, haccepts⟩ : ∃ p, build contested (.nonterminal "S") .canonical = .ok p ∧
      (Configuration.runWithin (π := Nat) p.grammar p.table 8 (Configuration.initial
        [⟨.terminal "z", none⟩, ⟨.terminal "m", none⟩, ⟨.terminal "c", none⟩])).any
          Except.isOk = true := exists_of_any_build (by decide +kernel)
  obtain ⟨s, hs, hfails⟩ : ∃ s, build contested (.nonterminal "S") .superset = .ok s ∧
      (Configuration.runWithin (π := Nat) s.grammar s.table 8 (Configuration.initial
        [⟨.terminal "z", none⟩, ⟨.terminal "m", none⟩, ⟨.terminal "c", none⟩])).any
          (!·.isOk) = true := exists_of_any_build (by decide +kernel)
  obtain ⟨r, hr, hok⟩ := (Option.any_eq_true _ _).1 haccepts
  obtain ⟨r', hr', hfail⟩ := (Option.any_eq_true _ _).1 hfails
  cases r with
  | error e => cases hok
  | ok root =>
    have hparse := parse_of_runWithin hr
    refine ⟨p, s, hp, hs, ⟨root, hparse⟩, ?_⟩
    rcases (superset_parse_simulates hp hs _).1 root hparse with hsame | hconflict
    · rw [parse_of_runWithin hr'] at hsame
      rw [hsame] at hfail
      cases hfail
    · exact hconflict

end Parser

end ShiftReduce
