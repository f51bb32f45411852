import ShiftReduce.Proofs.Lockstep
import ShiftReduce.Proofs.RuleLists

/-!
# The order of the rules

Rules in another order get other numbers, and so do the symbols, which are numbered as they appear.
But a list is accepted in any order or in none, the same names are numbered, and a symbol or a rule
has one number in each grammar.  So the two grammars mirror each other by the renamings that keep
names and rules, and canonical parsers of them have as many states and conflicts and answer alike.

    rules.Perm rules' → Mirrors (.ofNames g h) (.ofNames h g) g h               (mirrors_ofNames)
    rules.Perm rules' → … AnswersAlike (p.parse tokens) (p'.parse tokens)       (build_reordered)
-/

namespace ShiftReduce

variable {rules rules' : List Rule} {start : Symbol} {g h : Grammar} {x : SymbolId}

/-! ## Names in another order -/

namespace Numbering

theorem mem_names_ofList_perm {l l' : List String} (hperm : l.Perm l') (a : String) :
    a ∈ (ofList l).names ↔ a ∈ (ofList l').names := by
  rw [mem_names_ofList, mem_names_ofList]
  exact hperm.mem_iff

end Numbering

namespace Grammar

theorem perm_symbols (hperm : rules.Perm rules') (start : Symbol) :
    ((Rule.augmenting start :: rules).flatMap Rule.symbols).Perm
      ((Rule.augmenting start :: rules').flatMap Rule.symbols) :=
  (hperm.cons _).flatMap_right _

/-- Rules that are accepted are accepted in any order. -/
theorem exists_ofRules_perm (hperm : rules.Perm rules') (hg : ofRules rules start = .ok g) :
    ∃ h, ofRules rules' start = .ok h := by
  have hnone := (of_ofRules_eq_ok hg).1
  have hnone' := Rule.defect?_eq_none_iff.2 ((Rule.defect?_eq_none_iff.1 hnone).perm hperm)
  have hterminals := Numbering.size_ofList_perm
    (((perm_symbols hperm start).filterMap Symbol.terminalName?).cons Symbol.endOfInput.name)
  have hnonterminals := Numbering.size_ofList_perm
    ((perm_symbols hperm start).filterMap Symbol.nonterminalName?)
  have hlength := (hperm.cons (Rule.augmenting start)).length_eq
  unfold ofRules at hg ⊢
  rw [hnone] at hg
  rw [hnone']
  simp only at hg ⊢
  rw [← hterminals, ← hnonterminals, ← hlength]
  split at hg
  · cases hg
  · next hsmall =>
    rw [if_neg hsmall]
    exact ⟨_, rfl⟩

/-- The augmenting rule is no user rule, and no user rule is repeated. -/
theorem nodup_of_ofRules (hg : ofRules rules start = .ok g) :
    (Rule.augmenting start :: rules).Nodup := by
  have haccepted := Rule.defect?_eq_none_iff.1 (of_ofRules_eq_ok hg).1
  refine List.nodup_cons.2 ⟨fun hmem => ?_, haccepted.nodup⟩
  have hreserved := haccepted.not_reserved _ hmem _ List.mem_cons_self
  cases hreserved

end Grammar

/-! ## The renaming that keeps names and rules -/

/-- Each symbol gets the number that its name has in the other grammar, each rule its place there. -/
def Renaming.ofNames (g h : Grammar) : Renaming where
  terminal t := ((g.terminals.name? t).bind h.terminals.number?).getD 0
  nonterminal n := ((g.nonterminals.name? n).bind h.nonterminals.number?).getD 0
  rule r := ((g.rules[r]?).map h.rules.toList.idxOf).getD 0

namespace Renaming

section Names

variable (hperm : rules.Perm rules') (hg : Grammar.ofRules rules start = .ok g)
  (hh : Grammar.ofRules rules' start = .ok h)
include hperm hg hh

/-- The number of a symbol in the other grammar. -/
theorem number?_symbol (hx : g.Has x) :
    h.number? (g.symbol x) = some ((ofNames g h).symbol x) := by
  obtain ⟨-, hterminals, hnonterminals, -, -⟩ := Grammar.of_ofRules_eq_ok hg
  obtain ⟨-, hterminals', hnonterminals', -, -⟩ := Grammar.of_ofRules_eq_ok hh
  have hsymbols := Grammar.perm_symbols hperm start
  cases x with
  | terminal t =>
    obtain ⟨a, ha⟩ := Numbering.exists_name?_of_lt hx
    have hmem : a ∈ h.terminals.names := by
      rw [hterminals', ← Numbering.mem_names_ofList_perm
        ((hsymbols.filterMap Symbol.terminalName?).cons _), ← hterminals]
      exact Array.mem_of_getElem? ha
    obtain ⟨u, hu⟩ := Numbering.exists_number?_iff.2 hmem
    simp only [Grammar.number?, Grammar.numberIn?, Grammar.symbol, Grammar.terminal, ha, hu, symbol,
      ofNames, Option.getD_some, Option.bind_some, Option.map_some]
  | nonterminal n =>
    obtain ⟨a, ha⟩ := Numbering.exists_name?_of_lt hx
    have hmem : a ∈ h.nonterminals.names := by
      rw [hnonterminals', ← Numbering.mem_names_ofList_perm
        (hsymbols.filterMap Symbol.nonterminalName?), ← hnonterminals]
      exact Array.mem_of_getElem? ha
    obtain ⟨u, hu⟩ := Numbering.exists_number?_iff.2 hmem
    simp only [Grammar.number?, Grammar.numberIn?, Grammar.symbol, Grammar.nonterminal, ha, hu,
      symbol, ofNames, Option.getD_some, Option.bind_some, Option.map_some]

omit hperm in
/-- The place of a rule in the other grammar. -/
theorem rule_ofNames {i : RuleId} {r : Rule} (hr : (Rule.augmenting start :: rules)[i]? = some r) :
    (ofNames g h).rule i = (Rule.augmenting start :: rules').idxOf r := by
  have hrule : g.rules[i]? = some r := by
    rw [Grammar.rules_of_ofRules hg, List.getElem?_toArray]
    exact hr
  simp only [ofNames, hrule, Grammar.rules_of_ofRules hh, Option.map_some, Option.getD_some]

/-- Both grammars read a rule over numbers back, so renaming the one makes the other of it. -/
theorem resolve_ofNames {r : Rule} (hr : r ∈ Rule.augmenting start :: rules) (i j : RuleId) :
    (ofNames g h).nonterminal (Grammar.resolve g.terminals g.nonterminals i r).left =
        (Grammar.resolve h.terminals h.nonterminals j r).left ∧
      (Grammar.resolve g.terminals g.nonterminals i r).right.map (ofNames g h).symbol =
        (Grammar.resolve h.terminals h.nonterminals j r).right := by
  have hr' := (hperm.cons (Rule.augmenting start)).mem_iff.1 hr
  obtain ⟨hleft, hright, hhas⟩ := Grammar.resolve_symbols hg hr i
  obtain ⟨hleft', hright', hhas'⟩ := Grammar.resolve_symbols hh hr' j
  have hrename := fun y hy =>
    Grammar.number?_eq_some_iff.1 (number?_symbol hperm hg hh (hhas y hy))
  constructor
  · obtain ⟨hx, hsymbol⟩ := Grammar.number?_eq_some_iff.1 hleft
    have hnumber := number?_symbol hperm hg hh hx
    rw [hsymbol, hleft'] at hnumber
    exact (SymbolId.nonterminal.inj (Option.some.inj hnumber)).symm
  · refine Grammar.map_symbol_inj (fun x hx => ?_) hhas' ?_
    · obtain ⟨y, hy, rfl⟩ := List.mem_map.1 hx
      exact (hrename y hy).1
    · rw [hright', List.map_map, ← hright]
      exact List.map_congr_left fun y hy => (hrename y hy).2

theorem production_ofNames {p : Production} (hp : p ∈ g.productions) :
    (ofNames g h).production p ∈ h.productions := by
  obtain ⟨i, r, hr, rfl⟩ := Grammar.exists_resolve_of_mem hg hp
  have hmem := List.mem_of_getElem? hr
  have hmem' := (hperm.cons (Rule.augmenting start)).mem_iff.1 hmem
  have hplace := Grammar.getElem?_of_rule hh (List.getElem?_idxOf hmem')
  have heq : (ofNames g h).production (Grammar.resolve g.terminals g.nonterminals i r) =
      Grammar.resolve h.terminals h.nonterminals ((Rule.augmenting start :: rules').idxOf r) r := by
    obtain ⟨hleft, hright⟩ :=
      resolve_ofNames hperm hg hh hmem i ((Rule.augmenting start :: rules').idxOf r)
    unfold production
    rw [hleft, hright]
    exact congrArg (Production.mk · _ _) (rule_ofNames hg hh hr)
  rw [heq]
  exact Array.mem_of_getElem? hplace

theorem carries_ofNames : (ofNames g h).Carries g h where
  accept := by
    rw [rule_ofNames hg hh (r := Rule.augmenting start) rfl]
    exact List.idxOf_cons_self
  endOfInput := by
    have hend := Grammar.terminal_end hg
    have hend' := Grammar.terminal_end hh
    have hnumber := number?_symbol hperm hg hh (x := .terminal endOfInputId) hend.2
    have hnumber' : h.number? .endOfInput = some (.terminal endOfInputId) :=
      Grammar.number?_eq_some_iff.2 ⟨hend'.2, hend'.1⟩
    rw [show g.symbol (.terminal endOfInputId) = .endOfInput from hend.1, hnumber'] at hnumber
    exact (SymbolId.terminal.inj (Option.some.inj hnumber)).symm
  production := production_ofNames hperm hg hh
  has hx := (Grammar.number?_eq_some_iff.1 (number?_symbol hperm hg hh hx)).1
  symbol hx := (Grammar.number?_eq_some_iff.1 (number?_symbol hperm hg hh hx)).2

/-- Renaming a rule back yields its old place. -/
theorem rule_rule_ofNames {p : Production} (hp : p ∈ g.productions) :
    (ofNames h g).rule ((ofNames g h).rule p.id) = p.id := by
  obtain ⟨i, r, hr, rfl⟩ := Grammar.exists_resolve_of_mem hg hp
  have hmem' := (hperm.cons (Rule.augmenting start)).mem_iff.1 (List.mem_of_getElem? hr)
  show (ofNames h g).rule ((ofNames g h).rule i) = i
  rw [rule_ofNames hg hh hr, rule_ofNames hh hg (List.getElem?_idxOf hmem')]
  obtain ⟨hlt, rfl⟩ := List.getElem?_eq_some_iff.1 hr
  exact (Grammar.nodup_of_ofRules hg).idxOf_getElem i hlt

end Names

end Renaming

/-- Grammars of the same rules in another order mirror each other. -/
theorem mirrors_ofNames (hperm : rules.Perm rules') (hg : Grammar.ofRules rules start = .ok g)
    (hh : Grammar.ofRules rules' start = .ok h) : Mirrors (.ofNames g h) (.ofNames h g) g h where
  forth := Renaming.carries_ofNames hperm hg hh
  back := Renaming.carries_ofNames hperm.symm hh hg
  rule_forth := Renaming.rule_rule_ofNames hperm hg hh
  rule_back := Renaming.rule_rule_ofNames hperm.symm hh hg

/-! ## Parsers of reordered rules -/

namespace Parser

theorem exists_build_perm {mode : MergeMode} {p : Parser} (hperm : rules.Perm rules')
    (h : build rules start mode = .ok p) : ∃ p', build rules' start mode = .ok p' := by
  obtain ⟨g, hg⟩ := Grammar.exists_ofRules_perm hperm (eq_ofGrammar_of_build h).1
  exact ⟨ofGrammar g mode, by rw [build, hg]; rfl⟩

/-- Rules in another order are accepted or refused alike, and the canonical parsers have as many
states and as many conflicts and answer alike on every input. -/
theorem build_reordered (hperm : rules.Perm rules') (start : Symbol) :
    ((∃ p, build rules start .canonical = .ok p) ↔ ∃ p', build rules' start .canonical = .ok p') ∧
    ∀ p p', build rules start .canonical = .ok p → build rules' start .canonical = .ok p' →
      p.automaton.size = p'.automaton.size ∧
      p.table.conflicts.length = p'.table.conflicts.length ∧
      ∀ (π : Type) (tokens : List (Token π)), AnswersAlike (p.parse tokens) (p'.parse tokens) := by
  refine ⟨⟨fun ⟨_, h⟩ => exists_build_perm hperm h, fun ⟨_, h⟩ => exists_build_perm hperm.symm h⟩, ?_⟩
  intro p p' h h'
  have hp := built_of_build h
  have hp' := built_of_build h'
  have hpaths := recognizing_of_build h
  have hpaths' := recognizing_of_build h'
  have hm := mirrors_ofNames hperm (eq_ofGrammar_of_build h).1 (eq_ofGrammar_of_build h').1
  refine ⟨?_, ?_, fun π tokens => parse_mirrors h h' hm tokens⟩
  · exact Nat.le_antisymm (size_le hp hp' hm hpaths) (size_le hp' hp hm.symm hpaths')
  · exact Nat.le_antisymm (length_conflicts_le hp hp' hm hpaths)
      (length_conflicts_le hp' hp hm.symm hpaths')

/-- Sums that may be read from either side. -/
def sums : List Rule :=
  [⟨.nonterminal "E", [.nonterminal "E", .terminal "+", .nonterminal "E"]⟩,
    ⟨.nonterminal "E", [.terminal "n"]⟩]

/-- The same conflicts and the same answers come of the two rules for sums in either order. -/
theorem build_reordered_sums : ∃ p p', build sums (.nonterminal "E") .canonical = .ok p ∧
    build sums.reverse (.nonterminal "E") .canonical = .ok p' ∧ p.table.hasConflicts = true ∧
      p.automaton.size = p'.automaton.size ∧
      p.table.conflicts.length = p'.table.conflicts.length ∧
      ∀ tokens : List (Token Nat), AnswersAlike (p.parse tokens) (p'.parse tokens) := by
  obtain ⟨p, hp, hconflicts⟩ : ∃ p, build sums (.nonterminal "E") .canonical = .ok p ∧
      p.table.hasConflicts = true := exists_of_any_build (by decide +kernel)
  obtain ⟨hbuilds, halike⟩ :=
    build_reordered (List.reverse_perm sums).symm (.nonterminal "E")
  obtain ⟨p', hp'⟩ := hbuilds.1 ⟨p, hp⟩
  obtain ⟨hsize, hlength, hanswers⟩ := halike p p' hp hp'
  exact ⟨p, p', hp, hp', hconflicts, hsize, hlength, hanswers Nat⟩

end Parser

end ShiftReduce
