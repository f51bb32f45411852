import ShiftReduce.Proofs.Simulation
import ShiftReduce.Proofs.Termination

/-!
# What errors report

An error reports a symbol and its place in the input.  Where nothing waits it is the symbol at the
head of what is still to be read, so it stands at that place of the input.  Where a nonterminal waits
that was just gathered, the only error is that its goto is missing, and then the nonterminal is
reported in the place of the token behind it.  A canonical parser always has the goto.

    c.Tracks … γ none rest → e.report? = some (i, s) → i = c.position ∧ s = headSymbol rest
                                                                             (Tracks.report_eq)
    p.parse tokens = .error e → e.report? = some (i, s) →
      1 ≤ i ∧ i ≤ tokens.length + 1 ∧ (s = symbolAt tokens i ∨ mode = .superset ∧ …)
                                                                           (error_reports_input)
-/

namespace ShiftReduce

variable {π : Type} {rules : List Rule} {start : Symbol} {mode : MergeMode} {p : Parser}
  {γ : List SymbolId}

/-- The place in the input and the symbol that an error reports, unless it is internal. -/
def ParseError.report? : ParseError → Option (Nat × Symbol)
  | undefinedSymbol i s => some (i, s)
  | unexpected i found _ => some (i, found)
  | conflict i _ s _ => some (i, s)
  | internal _ => none

/-- The symbol at a place of the input, counted from 1; after the tokens comes the end of input. -/
def symbolAt (tokens : List (Token π)) (i : Nat) : Symbol :=
  ((tokens[i - 1]?).map (·.symbol)).getD .endOfInput

namespace Configuration

variable {tokens rest : List (Token π)} {waiting : Option NonterminalId} {c : Configuration π}

theorem Tracks.drop_shifted {g : Grammar} {a : Automaton}
    (h : Tracks g a tokens γ waiting rest c) : tokens.drop c.shifted = rest := by
  have hlength := congrArg List.length h.leaves_eq
  rw [List.length_append] at hlength
  have hshifted := h.shifted_eq
  have hread : c.shifted = (Tree.leavesOfAll c.trees.reverse).length := by omega
  rw [hread, ← h.leaves_eq, List.drop_left]

/-- At the place of the head of the queue stands what is read next. -/
theorem Tracks.symbolAt_position {g : Grammar} {a : Automaton}
    (h : Tracks g a tokens γ waiting rest c) : symbolAt tokens c.position = headSymbol rest := by
  unfold symbolAt headSymbol
  rw [← h.drop_shifted, List.head?_drop]
  rfl

/-- The place of the head of the queue is in the input, or just behind it. -/
theorem Tracks.position_bounds {g : Grammar} {a : Automaton}
    (h : Tracks g a tokens γ waiting rest c) : 1 ≤ c.position ∧ c.position ≤ tokens.length + 1 := by
  have hposition := h.position_add
  unfold position at hposition ⊢
  omega

theorem Tracks.waiting_eq {g : Grammar} {a : Automaton} {δ : List SymbolId}
    {below : List (Token π)} {m n : NonterminalId} (h : Tracks g a tokens γ (some m) rest c)
    (h' : Tracks g a tokens δ (some n) below c) : m = n := by
  have hqueue : c.queue = .reduced m :: (rest.map .token ++ [.endOfInput]) := h.queue_eq
  have hqueue' : c.queue = .reduced n :: (below.map .token ++ [.endOfInput]) := h'.queue_eq
  rw [hqueue'] at hqueue
  exact (Input.reduced.inj (List.cons.inj hqueue).1).symm

section Reports

variable (hp : p.Built rules start mode) {e : ParseError} {i : Nat} {s : Symbol}
include hp

/-- Where nothing waits, an error reports what is read next. -/
theorem Tracks.report_eq (h : Tracks p.grammar p.automaton tokens γ none rest c)
    (hfail : c.step p.grammar p.table = .failed e) (hreport : e.report? = some (i, s)) :
    i = c.position ∧ s = headSymbol rest := by
  rcases h.stride hp with ⟨rfl, -, hstep⟩ | ⟨-, -, -, hstep⟩ | ⟨-, -, -, hstep⟩ |
    ⟨-, -, -, -, hstep, -, -⟩ | ⟨hx, hq, -, hactions, hrule, -, -⟩ | ⟨hx, hq, -, hactions, -, -, -⟩
  · obtain rfl := Outcome.failed.inj (hstep.symm.trans hfail)
    obtain ⟨rfl, rfl⟩ := Prod.mk.inj (Option.some.inj hreport)
    exact ⟨rfl, rfl⟩
  · obtain rfl := Outcome.failed.inj (hstep.symm.trans hfail)
    obtain ⟨rfl, rfl⟩ := Prod.mk.inj (Option.some.inj hreport)
    exact ⟨rfl, rfl⟩
  · obtain rfl := Outcome.failed.inj (hstep.symm.trans hfail)
    obtain ⟨rfl, rfl⟩ := Prod.mk.inj (Option.some.inj hreport)
    exact ⟨rfl, rfl⟩
  · cases hfail.symm.trans hstep
  -- What a reduction or an acceptance fails with is internal.
  · rcases h.step_gather hp hx hq hrule hactions with ⟨-, hstep⟩ | ⟨_, _, _, -, -, hstep, -, -⟩
    · obtain rfl := Outcome.failed.inj (hstep.symm.trans hfail)
      cases hreport
    · cases hfail.symm.trans hstep
  · rcases h.step_finish hp hx hq hactions with ⟨_, -, -, hstep⟩ | hstep
    · cases hfail.symm.trans hstep
    · obtain rfl := Outcome.failed.inj (hstep.symm.trans hfail)
      cases hreport

/-- Where a nonterminal waits, the only error is that it was not expected. -/
theorem Tracks.report_waiting {n : NonterminalId}
    (h : Tracks p.grammar p.automaton tokens γ (some n) rest c)
    (hfail : c.step p.grammar p.table = .failed e) (hreport : e.report? = some (i, s)) :
    i = c.position ∧ s = p.grammar.nonterminal n ∧ ∃ expected, e = .unexpected i s expected := by
  obtain ⟨q, -, -, hq⟩ := h.path.exists_cons
  rcases h.step_goto hp hq with ⟨-, hstep⟩ | ⟨_, hstep, -, -⟩
  · obtain rfl := Outcome.failed.inj (hstep.symm.trans hfail)
    obtain ⟨rfl, rfl⟩ := Prod.mk.inj (Option.some.inj hreport)
    exact ⟨rfl, rfl, _, rfl⟩
  · cases hfail.symm.trans hstep

/-- What waits after a step is the left side of a rule. -/
theorem Tracks.rule_of_waiting {δ : List SymbolId} {n : NonterminalId} {d : Configuration π}
    (h : Tracks p.grammar p.automaton tokens γ none rest c)
    (hnext : c.step p.grammar p.table = .next d)
    (hd : Tracks p.grammar p.automaton tokens δ (some n) rest d) :
    ∃ r ∈ rules, r.left = p.grammar.nonterminal n := by
  rcases h.of_step_next hp hnext with ⟨_, _, _, _, _, -, -, -, -, hshift, -⟩ |
    ⟨rule, _, _, _, _, _, -, -, -, -, -, -, hrule, hne, -, hgather, -⟩
  · exact absurd hd hshift.not_waiting
  · obtain rfl := hgather.waiting_eq hd
    exact ⟨_, hp.numbers.rule_of_production hrule hne, rfl⟩

end Reports

theorem kept_true (tokens : List (Token π)) : Kept p tokens fun _ _ _ => True where
  shift _ _ _ _ _ _ := trivial
  reduce _ _ _ _ _ _ _ _ _ := trivial

theorem sustained_true (tokens : List (Token π)) : Sustained p tokens fun _ _ _ => True where
  shift _ _ _ _ _ _ := trivial
  reduce _ _ _ _ _ _ _ _ _ _ _ _ := trivial

end Configuration

namespace Parser

variable {tokens : List (Token π)} {e : ParseError} {i : Nat} {s : Symbol}

/-- An error of a canonical parser reports the symbol at its place. -/
theorem report_of_canonical (h : build rules start .canonical = .ok p)
    (hparse : p.parse tokens = .error e) (hreport : e.report? = some (i, s)) :
    1 ≤ i ∧ i ≤ tokens.length + 1 ∧ s = symbolAt tokens i := by
  have hp := built_of_build h
  have hrun := run_eq_parse h tokens
  rw [hparse] at hrun
  obtain ⟨γ, rest, c, hc, -, hlast⟩ := (Configuration.tracks_initial p.grammar p.automaton
    tokens).exists_last hp (Configuration.kept_true tokens) trivial hrun
  obtain ⟨rfl, rfl⟩ :=
    hc.report_eq hp (Configuration.Outcome.eq_failed_of_answer? hlast) hreport
  obtain ⟨hpos, hle⟩ := hc.position_bounds
  exact ⟨hpos, hle, hc.symbolAt_position.symm⟩

/-- The place that an error reports is in the input or just behind it, and the symbol is the one at
that place, unless a superset parser did not expect the left side of a rule that it gathered. -/
theorem error_reports_input (h : build rules start mode = .ok p)
    (hparse : p.parse tokens = .error e) (hreport : e.report? = some (i, s)) :
    1 ≤ i ∧ i ≤ tokens.length + 1 ∧
      (s = symbolAt tokens i ∨ mode = .superset ∧ (∃ expected, e = .unexpected i s expected) ∧
        ∃ r ∈ rules, r.left = s) := by
  cases mode with
  | canonical =>
    obtain ⟨hpos, hle, hsymbol⟩ := report_of_canonical h hparse hreport
    exact ⟨hpos, hle, Or.inl hsymbol⟩
  | superset =>
    have hp := built_of_build h
    have hrun := run_eq_parse h tokens
    rw [hparse] at hrun
    obtain ⟨γ, rest, c, hc, -, hlast | ⟨β, n, d, hnext, hd, hlast⟩⟩ :=
      (Configuration.tracks_initial p.grammar p.automaton tokens).exists_last_stride hp
        (Configuration.sustained_true tokens) trivial hrun
    · obtain ⟨rfl, rfl⟩ :=
        hc.report_eq hp (Configuration.Outcome.eq_failed_of_answer? hlast) hreport
      obtain ⟨hpos, hle⟩ := hc.position_bounds
      exact ⟨hpos, hle, Or.inl hc.symbolAt_position.symm⟩
    · obtain ⟨rfl, rfl, hunexpected⟩ :=
        hd.report_waiting hp (Configuration.Outcome.eq_failed_of_answer? hlast) hreport
      obtain ⟨hpos, hle⟩ := hd.position_bounds
      exact ⟨hpos, hle, Or.inr ⟨rfl, hunexpected, hc.rule_of_waiting hp hnext hd⟩⟩

/-- After `y` both `A -> y m` and `C -> m c` go on with `m`; after `w z` only `C -> m c` does. -/
def misreporting : List Rule :=
  [⟨.nonterminal "S", [.nonterminal "A", .terminal "a"]⟩,
    ⟨.nonterminal "S", [.terminal "y", .nonterminal "C"]⟩,
    ⟨.nonterminal "S", [.terminal "w", .terminal "z", .nonterminal "C"]⟩,
    ⟨.nonterminal "A", [.terminal "y", .terminal "m"]⟩,
    ⟨.nonterminal "C", [.terminal "m", .terminal "c"]⟩]

def misreported : List (Token Nat) :=
  [⟨.terminal "w", none⟩, ⟨.terminal "z", none⟩, ⟨.terminal "m", none⟩, ⟨.terminal "a", none⟩]

/-- The superset parser reduces `A -> y m` over `z m` and finds no goto on `A` after `w`.  It reports
`A` as symbol 4 of `w z m a`, which is `a`; its table has no conflict. -/
theorem error_reports_gathered : ∃ p expected,
    build misreporting (.nonterminal "S") .superset = .ok p ∧ p.table.hasConflicts = false ∧
      p.parse misreported = .error (.unexpected 4 (.nonterminal "A") expected) ∧
      symbolAt misreported 4 = .terminal "a" := by
  obtain ⟨p, hp, hcheck⟩ : ∃ p, build misreporting (.nonterminal "S") .superset = .ok p ∧
      (!p.table.hasConflicts && (Configuration.runWithin p.grammar p.table 8
        (Configuration.initial misreported)).any (fun
          | .error e => decide (e = .unexpected 4 (.nonterminal "A") [.terminal "z"])
          | .ok _ => false)) = true := exists_of_any_build (by decide +kernel)
  obtain ⟨hnone, hfails⟩ := Bool.and_eq_true_iff.1 hcheck
  obtain ⟨r, hr, herror⟩ := (Option.any_eq_true _ _).1 hfails
  cases r with
  | ok root => cases herror
  | error e =>
    have hunexpected : e = .unexpected 4 (.nonterminal "A") [.terminal "z"] := of_decide_eq_true herror
    exact ⟨p, _, hp, by simpa using hnone, hunexpected ▸ parse_of_runWithin hr, rfl⟩

/-- The canonical parser reports `a` there. -/
theorem error_reports_input_misreported : ∃ p e i s,
    build misreporting (.nonterminal "S") .canonical = .ok p ∧ p.parse misreported = .error e ∧
      e.report? = some (i, s) ∧ i ≤ 5 ∧ s = symbolAt misreported i := by
  obtain ⟨p, hp, hfails⟩ : ∃ p, build misreporting (.nonterminal "S") .canonical = .ok p ∧
      (Configuration.runWithin p.grammar p.table 8 (Configuration.initial misreported)).any (fun
        | .error e => decide (e.report?.isSome = true)
        | .ok _ => false) = true := exists_of_any_build (by decide +kernel)
  obtain ⟨r, hr, herror⟩ := (Option.any_eq_true _ _).1 hfails
  cases r with
  | ok root => cases herror
  | error e =>
    obtain ⟨⟨i, s⟩, hreport⟩ := Option.isSome_iff_exists.1 (of_decide_eq_true herror)
    have hparse := parse_of_runWithin hr
    obtain ⟨-, hle, hsymbol | ⟨hmode, -⟩⟩ := error_reports_input hp hparse hreport
    · exact ⟨p, e, i, s, hp, hparse, hreport, hle, hsymbol⟩
    · cases hmode

end Parser

end ShiftReduce
