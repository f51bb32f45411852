import ShiftReduce.Proofs.Detection
import ShiftReduce.Proofs.Soundness
import ShiftReduce.Proofs.Termination

/-!
# Errors of the canonical parser

What a canonical parser has read when it reports an error is viable.  It reports the first symbol
that is undefined or that cannot follow what was read, and names all terminals that can, unless it
stops earlier because the table offers several actions.  `ExactError` says so of a report, and
`FaultAt` says where an input goes wrong; both are about the rules alone.

    p.parse tokens = .error e → ExactError rules start p.grammar (tokens.map (·.symbol)) e
    ExactError rules start g w e → ¬ Sentence rules start w →
      ∃ n, IsLeast {n | FaultAt rules start w n} n ∧ …             (ExactError.exists_isLeast)
-/

namespace ShiftReduce

variable {π : Type} {rules : List Rule} {start : Symbol} {p : Parser} {g : Grammar}
  {u v w : List Symbol} {s : Symbol}

/-! ## What an error should say -/

namespace Rule

/-- The symbols are those that can follow the string, in the order of their numbers. -/
structure Expects (rules : List Rule) (start : Symbol) (g : Grammar) (u expected : List Symbol) :
    Prop where
  mem_iff : ∀ s, s ∈ expected ↔ MayFollow rules start u s
  ordered : ∃ ids : List TerminalId, expected = ids.map g.terminal ∧ ids.Pairwise (· < ·) ∧
    ∀ t ∈ ids, t < g.terminals.size

/-- The error is about the symbol after a viable prefix of the input, and says why that symbol or
the end of the input is not taken. -/
inductive ExactError (rules : List Rule) (start : Symbol) (g : Grammar) (w : List Symbol) :
    ParseError → Prop
  | undefinedSymbol {u v : List Symbol} {s : Symbol} : w = u ++ s :: v → Viable rules start u →
      ¬ HasTerminal rules s → ExactError rules start g w (.undefinedSymbol (u.length + 1) s)
  | unexpected {u v expected : List Symbol} {s : Symbol} : w = u ++ s :: v →
      Viable rules start u → HasTerminal rules s → ¬ Viable rules start (u ++ [s]) →
      Expects rules start g u expected →
      ExactError rules start g w (.unexpected (u.length + 1) s expected)
  | unexpectedEnd {expected : List Symbol} : Viable rules start w → ¬ Sentence rules start w →
      Expects rules start g w expected →
      ExactError rules start g w (.unexpected (w.length + 1) .endOfInput expected)
  | conflict {u v : List Symbol} {s : Symbol} {q : StateId} {actions : List Action} :
      w = u ++ s :: v → Viable rules start (u ++ [s]) →
      ExactError rules start g w (.conflict (u.length + 1) q s actions)
  | conflictEnd {q : StateId} {actions : List Action} : Sentence rules start w →
      ExactError rules start g w (.conflict (w.length + 1) q .endOfInput actions)

/-- At this position, counted from 1, the input has an undefined symbol, is no longer viable, or is
at its end. -/
inductive FaultAt (rules : List Rule) (start : Symbol) (w : List Symbol) : Nat → Prop
  | undefined {u v : List Symbol} {s : Symbol} : w = u ++ s :: v → ¬ HasTerminal rules s →
      FaultAt rules start w (u.length + 1)
  | unviable {u v : List Symbol} {s : Symbol} : w = u ++ s :: v → ¬ Viable rules start (u ++ [s]) →
      FaultAt rules start w (u.length + 1)
  | atEnd : FaultAt rules start w (w.length + 1)

/-! ## First faults -/

/-- No fault lies within a viable string. -/
theorem not_faultAt_of_viable (hstart : start.isTerminal = false) (h : Viable rules start u)
    {n : Nat} (hn : n ≤ u.length) : ¬ FaultAt rules start (u ++ v) n := by
  have hwithin : ∀ {u' v' s'}, u ++ v = u' ++ s' :: v' → u'.length + 1 ≤ u.length →
      Viable rules start (u' ++ [s']) := by
    intro u' v' s' heq hle
    have hbegins : u' ++ [s'] <+: u := by
      refine List.prefix_of_prefix_length_le ⟨v', ?_⟩ (List.prefix_append u v) ?_
      · rw [heq, List.append_assoc, List.singleton_append]
      · rwa [List.length_append, List.length_singleton]
    obtain ⟨rest, rfl⟩ := hbegins
    exact h.of_append
  intro hfault
  cases hfault with
  | undefined heq hnot => exact hnot ((hwithin heq hn).hasTerminal hstart (by simp))
  | unviable heq hnot => exact hnot (hwithin heq hn)
  | atEnd =>
    rw [List.length_append] at hn
    omega

theorem exists_isLeast_faultAt (rules : List Rule) (start : Symbol) (w : List Symbol) :
    ∃ n, IsLeast {n | FaultAt rules start w n} n := by
  classical
  have hsome : ∃ n, FaultAt rules start w n := ⟨w.length + 1, .atEnd⟩
  exact ⟨Nat.find hsome, Nat.find_spec hsome, fun n hn => Nat.find_min' hsome hn⟩

/-- A fault after a viable string that reaches up to it is the first one. -/
theorem FaultAt.isLeast (hstart : start.isTerminal = false)
    (h : FaultAt rules start (u ++ v) (u.length + 1)) (hu : Viable rules start u) :
    IsLeast {n | FaultAt rules start (u ++ v) n} (u.length + 1) := by
  refine ⟨h, fun n hn => ?_⟩
  by_contra hlt
  exact not_faultAt_of_viable hstart hu (by omega) hn

/-- Where the input is no sentence, an exact error is at its first fault, or it is a conflict before
that. -/
theorem ExactError.exists_isLeast (hstart : start.isTerminal = false) {e : ParseError}
    (h : ExactError rules start g w e) (hw : ¬ Sentence rules start w) :
    ∃ n, IsLeast {n | FaultAt rules start w n} n ∧
      ((∃ s, e = .undefinedSymbol n s) ∨ (∃ found expected, e = .unexpected n found expected) ∨
        ∃ i q s actions, e = .conflict i q s actions ∧ i < n) := by
  cases h with
  | @undefinedSymbol u v s heq hu hnot =>
    subst heq
    have hfault : FaultAt rules start (u ++ s :: v) (u.length + 1) := .undefined rfl hnot
    exact ⟨_, hfault.isLeast hstart hu, Or.inl ⟨s, rfl⟩⟩
  | @unexpected u v expected s heq hu _ hnot _ =>
    subst heq
    have hfault : FaultAt rules start (u ++ s :: v) (u.length + 1) := .unviable rfl hnot
    exact ⟨_, hfault.isLeast hstart hu, Or.inr (Or.inl ⟨s, expected, rfl⟩)⟩
  | @unexpectedEnd expected hu _ _ =>
    have hfault : FaultAt rules start (w ++ []) (w.length + 1) := by
      rw [List.append_nil]
      exact .atEnd
    have hleast := hfault.isLeast hstart hu
    rw [List.append_nil] at hleast
    exact ⟨_, hleast, Or.inr (Or.inl ⟨_, expected, rfl⟩)⟩
  | @conflict u v s q actions heq hu =>
    obtain ⟨n, hn⟩ := exists_isLeast_faultAt rules start w
    refine ⟨n, hn, Or.inr (Or.inr ⟨_, q, s, actions, rfl, ?_⟩)⟩
    by_contra hle
    have hsplit : w = (u ++ [s]) ++ v := by rw [heq, List.append_assoc, List.singleton_append]
    have hlength : n ≤ (u ++ [s]).length := by
      rw [List.length_append, List.length_singleton]
      omega
    have hfault : FaultAt rules start w n := hn.1
    rw [hsplit] at hfault
    exact not_faultAt_of_viable hstart hu hlength hfault
  | conflictEnd hsentence => exact absurd hsentence hw

end Rule

/-! ## Errors of a run -/

namespace Configuration

variable {tokens rest : List (Token π)} {c : Configuration π} {γ : List SymbolId}
  {taken : List TerminalId}

theorem Forced.length_eq (h : Forced p tokens γ rest taken) :
    taken.length + rest.length = tokens.length := by
  have hlength := congrArg List.length h.spelled
  simpa only [List.length_append, List.length_map] using hlength

section Reports

variable (hp : p.Built rules start .canonical)
  (h : Tracks p.grammar p.automaton tokens γ none rest c)
  (hforced : Forced p tokens γ rest taken)

include h hforced in
theorem Tracks.position_eq : c.position = (taken.map p.grammar.terminal).length + 1 := by
  have hshifted := h.shifted_eq
  have hlength := hforced.length_eq
  rw [List.length_map]
  show c.shifted + 1 = taken.length + 1
  omega

include hp hforced

/-- A terminal on which a cell offers an action can follow what was read. -/
theorem Forced.mayFollow {q : StateId} {x : TerminalId}
    (hq : p.automaton.follow? Automaton.startState γ = some q) (hx : x < p.grammar.terminals.size)
    (hactions : p.table.actions q (.terminal x) ≠ []) :
    Rule.MayFollow rules start (taken.map p.grammar.terminal) (p.grammar.terminal x) := by
  obtain ⟨m, z, hfits⟩ := (Parser.actions_ne_nil_iff hp hq).1 hactions
  refine (Grammar.mayFollow_iff hp.wellFormed hp.numbers hforced.ordinary hx).2 ⟨z, ?_⟩
  exact (hfits.derivesInput hp.wellFormed).trans (hforced.derives.append_right _)

include h in
/-- What was read is viable, since the path is that of some valid item. -/
theorem Forced.viable : Rule.Viable rules start (taken.map p.grammar.terminal) := by
  obtain ⟨q, -, -, hq⟩ := h.path.exists_cons
  have hvalid : ∃ item, ValidCore p.grammar γ item := by
    rcases Automaton.recognizes_follow? hp.wellFormed hp.exact hp.linked γ with
      ⟨hnone, -⟩ | ⟨_, _, -, -, -, hvalid⟩
    · cases hnone.symm.trans hq
    · exact hvalid
  obtain ⟨item, hitem⟩ := hvalid
  obtain ⟨k, z, hcontext⟩ := hitem.exists_inContext
  refine (Grammar.viable_iff hp.wellFormed hp.numbers hforced.ordinary).2
    ⟨(p.grammar.right item.rule).drop item.marker ++ z, ?_⟩
  have hderives := hcontext.derives hp.wellFormed
  rw [List.append_assoc] at hderives
  exact hderives.trans (hforced.derives.append_right _)

variable {q : StateId} (hq : p.automaton.follow? Automaton.startState γ = some q) {x : TerminalId}
  (hx : Reads p.grammar rest x) (hactions : p.table.actions q (.terminal x) = [])
include hq hx hactions

/-- Where the cell of the lookahead is empty, no input goes on with the lookahead. -/
theorem Forced.not_derivesInput (z : List SymbolId) :
    ¬ DerivesInput p.grammar (taken.map .terminal ++ .terminal x :: z) := by
  intro hderives
  obtain ⟨m, hfits⟩ := hforced.ahead x z hx hderives
  exact (Parser.actions_ne_nil_iff hp hq).2 ⟨m, z, hfits⟩ hactions

theorem Forced.not_mayFollow :
    ¬ Rule.MayFollow rules start (taken.map p.grammar.terminal) (p.grammar.terminal x) := by
  rw [Grammar.mayFollow_iff hp.wellFormed hp.numbers hforced.ordinary (hx.lt_size hp.wellFormed)]
  rintro ⟨z, hz⟩
  exact hforced.not_derivesInput hp hq hx hactions z hz

/-- Where the cell of the lookahead is empty, no reduction was made on it, so the terminals of the
cells that are not empty are all that can follow. -/
theorem Forced.expects : Rule.Expects rules start p.grammar (taken.map p.grammar.terminal)
    ((p.table.expectedTerminals q).map p.grammar.terminal) := by
  have hmem : ∀ t, t ∈ p.table.expectedTerminals q ↔
      t < p.grammar.terminals.size ∧ p.table.actions q (.terminal t) ≠ [] := by
    intro t
    rw [Parser.expectedTerminals_eq_filter hp hq, List.mem_filter, List.mem_range,
      decide_eq_true_eq]
  refine ⟨fun s => ?_, _, rfl, ?_, fun t ht => ((hmem t).1 ht).1⟩
  · rw [List.mem_map]
    constructor
    · rintro ⟨t, ht, rfl⟩
      obtain ⟨hlt, hne⟩ := (hmem t).1 ht
      exact hforced.mayFollow hp hq hlt hne
    · intro hfollow
      obtain ⟨t, hlt, rfl⟩ :=
        Grammar.exists_terminal_of_mayFollow hp.wellFormed hp.numbers hfollow
      refine ⟨t, (hmem t).2 ⟨hlt, (Parser.actions_ne_nil_iff hp hq).2 ?_⟩, rfl⟩
      obtain ⟨z, hz⟩ :=
        (Grammar.mayFollow_iff hp.wellFormed hp.numbers hforced.ordinary hlt).1 hfollow
      rcases hforced.any_ahead with hany | ⟨y, z', hy, hz'⟩
      · obtain ⟨m, hm⟩ := hany _ hz
        exact ⟨m, z, hm⟩
      · obtain rfl := hy.unique hx
        exact absurd hz' (hforced.not_derivesInput hp hq hx hactions z')
  · rw [Parser.expectedTerminals_eq_filter hp hq]
    exact List.pairwise_lt_range.filter _

end Reports

section Exact

variable (hp : p.Built rules start .canonical)
  (h : Tracks p.grammar p.automaton tokens γ none rest c)
  (hforced : Forced p tokens γ rest taken) {x : TerminalId} (hx : Reads p.grammar rest x)
  {q : StateId} (hq : p.automaton.follow? Automaton.startState γ = some q)
include hp h hforced hx hq

theorem Forced.exactError_unexpected (hactions : p.table.actions q (.terminal x) = []) :
    Rule.ExactError rules start p.grammar (tokens.map (·.symbol))
      (.unexpected c.position (headSymbol rest)
        ((p.table.expectedTerminals q).map p.grammar.terminal)) := by
  have hviable := hforced.viable hp h
  have hexpects := hforced.expects hp hq hx hactions
  have hnot := hforced.not_mayFollow hp hq hx hactions
  rw [← hforced.spelled, h.position_eq hforced]
  cases hx with
  | done =>
    rw [hp.numbers.symbol_end, Rule.mayFollow_endOfInput_iff] at hnot
    rw [List.map_nil, List.append_nil]
    exact .unexpectedEnd hviable hnot hexpects
  | @token token below _ hnumber hne =>
    obtain ⟨hlt, hsymbol⟩ := Grammar.number?_eq_some_iff.1 hnumber
    have hhead : p.grammar.terminal x = headSymbol (token :: below) := hsymbol
    rw [Rule.mayFollow_iff_viable (hp.numbers.terminal_ne_endOfInput hp.wellFormed hlt hne), hhead]
      at hnot
    have hhas := (Grammar.hasTerminal_iff hp.wellFormed hp.numbers).2 ⟨x, hnumber, hne⟩
    exact .unexpected rfl hviable hhas hnot hexpects

theorem Forced.exactError_conflict (hactions : p.table.actions q (.terminal x) ≠ []) :
    Rule.ExactError rules start p.grammar (tokens.map (·.symbol))
      (.conflict c.position q (headSymbol rest) (p.table.actions q (.terminal x))) := by
  have hfollow := hforced.mayFollow hp hq (hx.lt_size hp.wellFormed) hactions
  rw [← hforced.spelled, h.position_eq hforced]
  cases hx with
  | done =>
    rw [hp.numbers.symbol_end, Rule.mayFollow_endOfInput_iff] at hfollow
    rw [List.map_nil, List.append_nil]
    exact .conflictEnd hfollow
  | @token token below _ hnumber hne =>
    obtain ⟨hlt, hsymbol⟩ := Grammar.number?_eq_some_iff.1 hnumber
    have hhead : p.grammar.terminal x = headSymbol (token :: below) := hsymbol
    rw [Rule.mayFollow_iff_viable (hp.numbers.terminal_ne_endOfInput hp.wellFormed hlt hne), hhead]
      at hfollow
    exact .conflict rfl hfollow

end Exact

/-- The error of a step from a forced path is exact. -/
theorem Forced.exactError (hp : p.Built rules start .canonical)
    (h : Tracks p.grammar p.automaton tokens γ none rest c) (hforced : Forced p tokens γ rest taken)
    {e : ParseError} (hstep : c.step p.grammar p.table = .failed e) :
    Rule.ExactError rules start p.grammar (tokens.map (·.symbol)) e := by
  rcases h.turn hp with ⟨rfl, hnumber, hfail⟩ | ⟨hx, hq, hactions, hfail⟩ |
    ⟨hx, hq, hactions, hfail⟩ | ⟨_, _, _, _, hnext, _, _⟩ | ⟨_, _, _, _, _, _, _, hnext, _, _, _⟩ |
    ⟨_, _, _, _, _, haccept⟩
  · obtain rfl := Outcome.failed.inj (hstep.symm.trans hfail)
    rw [← hforced.spelled, h.position_eq hforced]
    refine .undefinedSymbol rfl (hforced.viable hp h) fun hhas => ?_
    obtain ⟨x, hx, hne⟩ := (Grammar.hasTerminal_iff hp.wellFormed hp.numbers).1 hhas
    exact hne (hnumber x hx)
  · obtain rfl := Outcome.failed.inj (hstep.symm.trans hfail)
    exact hforced.exactError_unexpected hp h hx hq hactions
  · obtain rfl := Outcome.failed.inj (hstep.symm.trans hfail)
    refine hforced.exactError_conflict hp h hx hq fun hnil => ?_
    rw [hnil, List.length_nil] at hactions
    omega
  · cases hstep.symm.trans hnext
  · cases hstep.symm.trans hnext
  · cases hstep.symm.trans haccept

end Configuration

namespace Parser

theorem Built.exactError_of_parse (hp : p.Built rules start .canonical) {tokens : List (Token π)}
    {e : ParseError} (hparse : p.parse tokens = .error e) :
    Rule.ExactError rules start p.grammar (tokens.map (·.symbol)) e := by
  have hinitial := Configuration.tracks_initial p.grammar p.automaton tokens
  obtain ⟨r, hrun⟩ := hinitial.run_ends hp (hp.linked.faithful hp.wellFormed hp.exact)
  have hr : r = .error e := by
    rw [parse, hrun, Option.getD_some] at hparse
    exact hparse
  obtain ⟨γ, rest, c, h, ⟨taken, hforced⟩, hanswer⟩ :=
    hinitial.exists_last hp (Configuration.kept_forced hp tokens)
      ⟨[], Configuration.forced_initial hp tokens⟩ hrun
  rw [hr] at hanswer
  exact hforced.exactError hp h (Configuration.Outcome.eq_failed_of_answer? hanswer)

/-- The errors of a canonical parser are exact, and none is internal.  An input that is no sentence
is rejected at its first fault, unless a conflict is reported before that. -/
theorem canonical_parse_errors_exact (h : build rules start .canonical = .ok p)
    (tokens : List (Token π)) :
    (∀ e, p.parse tokens = .error e →
      Rule.ExactError rules start p.grammar (tokens.map (·.symbol)) e) ∧
    (¬ Rule.Sentence rules start (tokens.map (·.symbol)) → ∃ n e,
      IsLeast {n | Rule.FaultAt rules start (tokens.map (·.symbol)) n} n ∧
      p.parse tokens = .error e ∧
      ((∃ s, e = .undefinedSymbol n s) ∨ (∃ found expected, e = .unexpected n found expected) ∨
        ∃ i q s actions, e = .conflict i q s actions ∧ i < n)) := by
  have hp := built_of_build h
  refine ⟨fun e he => hp.exactError_of_parse he, fun hnot => ?_⟩
  cases hparse : p.parse tokens with
  | ok root =>
    have hsentence := (Tree.exists_isDerivation_iff hp.numbers.admissible.left_nonterminal).1
      ⟨root, hp.isDerivation_of_parse hparse⟩
    exact absurd hsentence hnot
  | error e =>
    obtain ⟨n, hleast, hreport⟩ :=
      (hp.exactError_of_parse hparse).exists_isLeast hp.numbers.start_isTerminal hnot
    exact ⟨n, e, hleast, rfl, hreport⟩

/-- The parser of nested pairs expects `a` or the end of input first, so `b` is not expected. -/
theorem canonical_parse_errors_exact_nested :
    ∃ p, build nested (.nonterminal "S") .canonical = .ok p ∧
      p.parse [⟨.terminal "b", some 0⟩] =
        .error (.unexpected 1 (.terminal "b") [.endOfInput, .terminal "a"]) ∧
      Rule.ExactError nested (.nonterminal "S") p.grammar [.terminal "b"]
        (.unexpected 1 (.terminal "b") [.endOfInput, .terminal "a"]) := by
  obtain ⟨p, hp, hfails⟩ : ∃ p, build nested (.nonterminal "S") .canonical = .ok p ∧
      (Configuration.runWithin p.grammar p.table 7 (Configuration.initial
        [⟨.terminal "b", some 0⟩])).any (fun
          | .error e => decide (e = .unexpected 1 (.terminal "b") [.endOfInput, .terminal "a"])
          | .ok _ => false) = true :=
    exists_of_any_build (by decide +kernel)
  obtain ⟨r, hr, hfails⟩ := (Option.any_eq_true _ _).1 hfails
  cases r with
  | ok root => cases hfails
  | error e =>
    obtain rfl := of_decide_eq_true hfails
    have hparse := parse_of_runWithin hr
    exact ⟨p, hp, hparse, (canonical_parse_errors_exact hp _).1 _ hparse⟩

end Parser

end ShiftReduce
