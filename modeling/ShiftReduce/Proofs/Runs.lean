import ShiftReduce.Parser
import ShiftReduce.Proofs.ValidItems

/-!
# Runs

A run is finitely many steps or none that ends it, so an answer of `run` is the answer of a run
within some number of steps.  At every moment the states entered are a path of the automaton, the
symbols of the trees gathered label the path, and the leaves of the trees followed by the tokens
still to be read are the input; a nonterminal just gathered waits at the head of the queue and has
its tree on top.  `Tracks` says this of a configuration, and each kind of action is shown to keep
it.

    c.run g t = some r ↔ ∃ n, c.runWithin g t n = some r                    (run_eq_some_iff)
    Tracks g a tokens γ waiting rest c
-/

namespace ShiftReduce

variable {π : Type} {g : Grammar} {a : Automaton} {t : ParseTable}

/-! ## Trees -/

theorem Tree.leavesOfAll_append (l l' : List (Tree π)) :
    leavesOfAll (l ++ l') = leavesOfAll l ++ leavesOfAll l' := by
  induction l with
  | nil => rfl
  | cons tree l ih => rw [List.cons_append, leavesOfAll, leavesOfAll, ih, List.append_assoc]

theorem Tree.leavesOfAll_concat (l : List (Tree π)) (tree : Tree π) :
    leavesOfAll (l ++ [tree]) = leavesOfAll l ++ tree.leaves := by
  rw [leavesOfAll_append, leavesOfAll, leavesOfAll, List.append_nil]

/-! ## Answers within a number of steps -/

namespace Configuration

/-- The answer of the run from a configuration, if it ends within `n` steps. -/
def runWithin (g : Grammar) (t : ParseTable) : Nat → Configuration π →
    Option (Except ParseError (Tree π))
  | 0, _ => none
  | n + 1, c =>
    match c.step g t with
    | .next c => runWithin g t n c
    | .accepted tree => some (.ok tree)
    | .failed e => some (.error e)

theorem runWithin_of_next {n : Nat} {c d : Configuration π} (h : c.step g t = .next d) :
    runWithin g t (n + 1) c = runWithin g t n d := by
  rw [runWithin, h]

theorem runWithin_of_accepted {n : Nat} {c : Configuration π} {tree : Tree π}
    (h : c.step g t = .accepted tree) : runWithin g t (n + 1) c = some (.ok tree) := by
  rw [runWithin, h]

theorem runWithin_of_failed {n : Nat} {c : Configuration π} {e : ParseError}
    (h : c.step g t = .failed e) : runWithin g t (n + 1) c = some (.error e) := by
  rw [runWithin, h]

theorem run_of_runWithin {n : Nat} {c : Configuration π} {r : Except ParseError (Tree π)}
    (h : runWithin g t n c = some r) : c.run g t = some r := by
  induction n generalizing c with
  | zero => cases h
  | succ n ih =>
    rw [run.eq_1]
    cases hstep : c.step g t with
    | next d =>
      rw [runWithin_of_next hstep] at h
      exact ih h
    | accepted tree => rwa [runWithin_of_accepted hstep] at h
    | failed e => rwa [runWithin_of_failed hstep] at h

theorem run_eq_some_iff {c : Configuration π} {r : Except ParseError (Tree π)} :
    c.run g t = some r ↔ ∃ n, runWithin g t n c = some r := by
  constructor
  · intro h
    refine run.partial_correctness g t (fun c r => ∃ n, runWithin g t n c = some r) ?_ c r h
    intro rec ih c r hc
    cases hstep : c.step g t with
    | next d =>
      rw [hstep] at hc
      obtain ⟨n, hn⟩ := ih d r hc
      exact ⟨n + 1, (runWithin_of_next hstep).trans hn⟩
    | accepted tree =>
      rw [hstep] at hc
      exact ⟨1, (runWithin_of_accepted hstep).trans hc⟩
    | failed e =>
      rw [hstep] at hc
      exact ⟨1, (runWithin_of_failed hstep).trans hc⟩
  · rintro ⟨n, hn⟩
    exact run_of_runWithin hn

theorem run_of_step {c d : Configuration π} (h : c.step g t = .next d) :
    c.run g t = d.run g t := by
  rw [run.eq_1, h]

theorem run_of_accepted {c : Configuration π} {tree : Tree π} (h : c.step g t = .accepted tree) :
    c.run g t = some (.ok tree) := by
  rw [run.eq_1, h]

theorem run_of_failed {c : Configuration π} {e : ParseError} (h : c.step g t = .failed e) :
    c.run g t = some (.error e) := by
  rw [run.eq_1, h]

end Configuration

/-! ## Paths -/

namespace Automaton

/-- The states entered from the start state along the edges labelled by a string, the last of them
first. -/
inductive Path (a : Automaton) : List SymbolId → List StateId → Prop
  | start : Path a [] [startState]
  | push {γ : List SymbolId} {x : SymbolId} {q r : StateId} {states : List StateId} :
      Path a γ (q :: states) → a.edge? q x = some r → Path a (γ ++ [x]) (r :: q :: states)

variable {γ δ : List SymbolId} {states : List StateId}

theorem Path.exists_cons (h : a.Path γ states) :
    ∃ q below, states = q :: below ∧ a.follow? startState γ = some q := by
  induction h with
  | start => exact ⟨startState, [], rfl, rfl⟩
  | push _ hedge ih =>
    obtain ⟨_, _, heq, hfollow⟩ := ih
    obtain ⟨rfl, rfl⟩ := List.cons.inj heq
    refine ⟨_, _, rfl, ?_⟩
    rw [follow?_concat, hfollow, Option.bind_some, hedge]

/-- Leaving the last states of a path leaves the path of a shorter string. -/
theorem Path.drop (h : a.Path (γ ++ δ) states) : a.Path γ (states.drop δ.length) := by
  induction δ using List.reverseRecOn generalizing states with
  | nil => rwa [List.append_nil] at h
  | append_singleton δ x ih =>
    rw [← List.append_assoc] at h
    generalize hε : γ ++ δ ++ [x] = ε at h
    cases h with
    | start => exact absurd hε (by simp)
    | push h hedge =>
      obtain ⟨rfl, -⟩ := List.append_inj' hε rfl
      rw [List.length_append, List.length_singleton, List.drop_succ_cons]
      exact ih h

end Automaton

/-! ## What is kept along a run -/

namespace Configuration

/-- The configuration has gathered the start of `tokens` along the path of `γ` and has `rest` still
to read, where `waiting` is the nonterminal that was just gathered, if one was. -/
structure Tracks (g : Grammar) (a : Automaton) (tokens : List (Token π)) (γ : List SymbolId)
    (waiting : Option NonterminalId) (rest : List (Token π)) (c : Configuration π) : Prop where
  path : a.Path γ c.states
  queue_eq : c.queue = waiting.toList.map .reduced ++ (rest.map .token ++ [.endOfInput])
  symbols_eq : c.trees.reverse.map Tree.symbol =
    γ.map g.symbol ++ waiting.toList.map g.nonterminal
  leaves_eq : Tree.leavesOfAll c.trees.reverse ++ rest = tokens
  shifted_eq : c.shifted + rest.length = tokens.length

theorem tracks_initial (g : Grammar) (a : Automaton) (tokens : List (Token π)) :
    Tracks g a tokens [] none tokens (initial tokens) where
  path := .start
  queue_eq := rfl
  symbols_eq := rfl
  leaves_eq := rfl
  shifted_eq := Nat.zero_add _

variable {tokens rest : List (Token π)} {γ δ : List SymbolId} {waiting : Option NonterminalId}
  {c : Configuration π}

theorem Tracks.length_trees (h : Tracks g a tokens γ none rest c) :
    c.trees.length = γ.length := by
  have hlength := congrArg List.length h.symbols_eq
  simpa using hlength

theorem Tracks.exists_states (h : Tracks g a tokens γ waiting rest c) {q : StateId}
    (hq : a.follow? Automaton.startState γ = some q) : ∃ states, c.states = q :: states := by
  obtain ⟨q', states, hstates, hq'⟩ := h.path.exists_cons
  obtain rfl := Option.some.inj (hq'.symm.trans hq)
  exact ⟨states, hstates⟩

theorem reverse_eq_drop_append_take (c : Configuration π) (n : Nat) :
    c.trees.reverse = (c.trees.drop n).reverse ++ (c.trees.take n).reverse := by
  rw [← List.reverse_append, List.take_append_drop]

/-- The topmost trees are labelled with the end of the path, the others with its beginning. -/
theorem Tracks.symbols_split (h : Tracks g a tokens (γ ++ δ) none rest c) :
    (c.trees.drop δ.length).reverse.map Tree.symbol = γ.map g.symbol ∧
      (c.trees.take δ.length).reverse.map Tree.symbol = δ.map g.symbol := by
  have hlength := h.length_trees
  have hsymbols := h.symbols_eq
  rw [List.length_append] at hlength
  rw [c.reverse_eq_drop_append_take δ.length, List.map_append, List.map_append,
    Option.toList_none, List.map_nil, List.append_nil] at hsymbols
  refine List.append_inj' hsymbols ?_
  simp only [List.length_map, List.length_reverse, List.length_take]
  omega

/-! ## Shift, reduce and goto -/

theorem Tracks.shift {token : Token π} (h : Tracks g a tokens γ none (token :: rest) c)
    {x : SymbolId} (hx : g.symbol x = token.symbol) {q r : StateId} {below : List StateId}
    (hq : c.states = q :: below) (hedge : a.edge? q x = some r) :
    ∃ d, c.perform g (.shift r) = .next d ∧ Tracks g a tokens (γ ++ [x]) none rest d ∧
      d.trees = .leaf token :: c.trees := by
  have hqueue : c.queue = .token token :: (rest.map .token ++ [.endOfInput]) := h.queue_eq
  refine ⟨⟨r :: c.states, .leaf token :: c.trees, rest.map .token ++ [.endOfInput],
    c.shifted + 1⟩, ?_, ?_, rfl⟩
  · simp only [perform, hqueue]
  · refine ⟨?_, rfl, ?_, ?_, ?_⟩
    · have hpath := h.path
      rw [hq] at hpath
      show a.Path (γ ++ [x]) (r :: c.states)
      rw [hq]
      exact .push hpath hedge
    · have hsymbols := h.symbols_eq
      simp only [Option.toList_none, List.map_nil, List.append_nil] at hsymbols ⊢
      rw [List.reverse_cons, List.map_append, hsymbols, List.map_append, List.map_singleton,
        List.map_singleton, hx]
      rfl
    · have hleaves := h.leaves_eq
      rw [List.reverse_cons, Tree.leavesOfAll_concat, List.append_assoc]
      exact hleaves
    · have hshifted := h.shifted_eq
      rw [List.length_cons] at hshifted
      show c.shifted + 1 + rest.length = tokens.length
      omega

/-- The tree that a reduction gathers from the topmost trees. -/
def gathered (g : Grammar) (r : RuleId) (trees : List (Tree π)) : Tree π :=
  .node (g.nonterminal (g.left r)).name (trees.take (g.right r).length).reverse

theorem Tracks.reduce {r : RuleId} (h : Tracks g a tokens (γ ++ δ) none rest c)
    (hlength : δ.length = (g.right r).length) :
    ∃ d, c.perform g (.reduce r) = .next d ∧ Tracks g a tokens γ (some (g.left r)) rest d ∧
      d.trees = gathered g r c.trees :: c.trees.drop (g.right r).length := by
  have htrees := h.length_trees
  rw [List.length_append, hlength] at htrees
  have hpath := h.path.drop
  rw [hlength] at hpath
  obtain ⟨q, below, hstates, -⟩ := hpath.exists_cons
  refine ⟨⟨c.states.drop (g.right r).length, gathered g r c.trees :: c.trees.drop (g.right r).length,
    .reduced (g.left r) :: c.queue, c.shifted⟩, ?_, ?_, rfl⟩
  · have hempty : (c.states.drop (g.right r).length).isEmpty = false := by rw [hstates]; rfl
    have hshort : decide ((c.trees.take (g.right r).length).length < (g.right r).length) = false := by
      rw [List.length_take]
      exact decide_eq_false (by omega)
    simp only [perform, hempty, hshort, Bool.or_self, if_false, gathered, Bool.false_eq_true]
  · have hdrop := h.symbols_split.1
    rw [hlength] at hdrop
    refine ⟨hpath, ?_, ?_, ?_, h.shifted_eq⟩
    · show Input.reduced (g.left r) :: c.queue = _
      rw [h.queue_eq]
      rfl
    · show (gathered g r c.trees :: c.trees.drop (g.right r).length).reverse.map Tree.symbol = _
      rw [List.reverse_cons, List.map_append, hdrop]
      rfl
    · have hleaves := h.leaves_eq
      rw [c.reverse_eq_drop_append_take (g.right r).length, Tree.leavesOfAll_append] at hleaves
      show Tree.leavesOfAll (gathered g r c.trees :: c.trees.drop (g.right r).length).reverse ++ rest = _
      rw [List.reverse_cons, Tree.leavesOfAll_concat]
      exact hleaves

theorem Tracks.goto {n : NonterminalId} (h : Tracks g a tokens γ (some n) rest c) {q r : StateId}
    {below : List StateId} (hq : c.states = q :: below)
    (hactions : t.actions q (.nonterminal n) = [.goto r])
    (hedge : a.edge? q (.nonterminal n) = some r) :
    ∃ d, c.step g t = .next d ∧ Tracks g a tokens (γ ++ [.nonterminal n]) none rest d ∧
      d.trees = c.trees := by
  have hqueue : c.queue = .reduced n :: (rest.map .token ++ [.endOfInput]) := h.queue_eq
  refine ⟨⟨r :: c.states, c.trees, rest.map .token ++ [.endOfInput], c.shifted⟩, ?_, ?_, rfl⟩
  · simp only [step, move, hq, lookahead, hqueue, hactions, perform]
  · refine ⟨?_, rfl, ?_, h.leaves_eq, h.shifted_eq⟩
    · have hpath := h.path
      rw [hq] at hpath
      show a.Path (γ ++ [.nonterminal n]) (r :: c.states)
      rw [hq]
      exact .push hpath hedge
    · show c.trees.reverse.map Tree.symbol = _
      rw [h.symbols_eq, List.map_append, Option.toList_none, List.map_nil, List.append_nil]
      rfl

/-! ## The lookahead -/

/-- The symbol at the head of what is still to be read. -/
def headSymbol (rest : List (Token π)) : Symbol := (rest.head?.map (·.symbol)).getD .endOfInput

/-- The number of the terminal at the head of what is still to be read. -/
inductive Reads (g : Grammar) : List (Token π) → TerminalId → Prop
  | done : Reads g [] endOfInputId
  | token {token : Token π} {rest : List (Token π)} {t : TerminalId} :
      g.number? token.symbol = some (.terminal t) → t ≠ endOfInputId → Reads g (token :: rest) t

theorem Reads.terminal_eq {token : Token π} {rest : List (Token π)} {x : TerminalId}
    (h : Reads g (token :: rest) x) : g.terminal x = token.symbol := by
  cases h with
  | token hnumber _ => exact (Grammar.number?_eq_some_iff.1 hnumber).2

theorem Reads.isTerminal {token : Token π} {rest : List (Token π)} {x : TerminalId}
    (h : Reads g (token :: rest) x) : token.symbol.isTerminal = true := by
  rw [← h.terminal_eq]
  rfl

theorem Reads.unique {rest : List (Token π)} {x y : TerminalId} (hx : Reads g rest x)
    (hy : Reads g rest y) : x = y := by
  cases hx with
  | done => cases hy; rfl
  | token hnumber _ =>
    cases hy with
    | token hnumber' _ => exact SymbolId.terminal.inj (Option.some.inj (hnumber.symm.trans hnumber'))

theorem Reads.ordinary {token : Token π} {rest : List (Token π)} {x : TerminalId}
    (h : Reads g (token :: rest) x) : g.Ordinary (.terminal x) := by
  cases h with
  | token hnumber hne =>
    exact ⟨(Grammar.number?_eq_some_iff.1 hnumber).1, fun heq => hne (SymbolId.terminal.inj heq),
      fun heq => by cases heq⟩

theorem Reads.lt_size (hg : g.WellFormed) {rest : List (Token π)} {x : TerminalId}
    (h : Reads g rest x) : x < g.terminals.size := by
  cases h with
  | done => exact hg.end_lt
  | token hnumber _ => exact (Grammar.number?_eq_some_iff.1 hnumber).1

theorem Tracks.lookahead (h : Tracks g a tokens γ none rest c)
    (hend : g.terminal endOfInputId = .endOfInput) {x : TerminalId} (hx : Reads g rest x) :
    c.lookahead g = .ok (.terminal x, headSymbol rest) := by
  have hqueue : c.queue = rest.map .token ++ [.endOfInput] := h.queue_eq
  cases hx with
  | done =>
    simp only [Configuration.lookahead, hqueue, List.map_nil, List.nil_append, hend]
    rfl
  | token hnumber hne =>
    simp only [Configuration.lookahead, hqueue, List.map_cons, List.cons_append, hnumber, if_neg hne]
    rfl

/-- A token that is not read is no terminal of the grammar, or is the end of input. -/
theorem Tracks.lookahead_of_not_reads (h : Tracks g a tokens γ none rest c)
    (hnot : ∀ x, ¬ Reads g rest x) : ∃ token below, rest = token :: below ∧
      (∀ x, g.number? token.symbol = some (.terminal x) → x = endOfInputId) ∧
      c.lookahead g = .error (.undefinedSymbol c.position token.symbol) := by
  have hqueue : c.queue = rest.map .token ++ [.endOfInput] := h.queue_eq
  cases rest with
  | nil => exact absurd .done (hnot endOfInputId)
  | cons token below =>
    have hnumber : ∀ x, g.number? token.symbol = some (.terminal x) → x = endOfInputId := by
      intro x hx
      by_contra hne
      exact hnot x (.token hx hne)
    refine ⟨token, below, rfl, hnumber, ?_⟩
    simp only [Configuration.lookahead, hqueue, List.map_cons, List.cons_append]
    cases hs : g.number? token.symbol with
    | none => rfl
    | some y =>
      cases y with
      | nonterminal n => rfl
      | terminal x => simp only [hnumber x hs, if_true]

end Configuration

end ShiftReduce
