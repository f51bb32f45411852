import ShiftReduce.Grammar
import ShiftReduce.Proofs.Derivation

/-!
# Grammars and the rules they come from

`WellFormed` collects what every grammar made by `Grammar.ofRules` satisfies over numbers: rules
are numbered by their places, all numbers are in range, rule 0 is `S' -> S`, and neither `S'` nor
`$` stands on a right side.  `Numbers` ties the numbers to the symbols they stand for, so that
derivations over numbers are derivations over symbols.

    ofRules rules start = .ok g → g.WellFormed                          (wellFormed_of_ofRules)
    ofRules rules start = .ok g → g.Numbers rules start                 (numbers_of_ofRules)
-/

namespace ShiftReduce

/-- The number of the left side of the augmenting rule. -/
def augmentedStartId : NonterminalId := 0

/-- What a check finds is there. -/
theorem exists_ok_of_any {ε α : Type} {result : Except ε α} {check : α → Bool}
    (h : result.toOption.any check = true) : ∃ a, result = .ok a ∧ check a = true := by
  cases result with
  | error e => cases h
  | ok a => exact ⟨a, rfl, h⟩

/-! ## Rule lists -/

namespace Rule

/-- `x -> right` is one of the rules. -/
def In (rules : List Rule) (x : Symbol) (right : List Symbol) : Prop := ⟨x, right⟩ ∈ rules

/-- What the checks on single rules leave of a rule list with its start symbol. -/
structure Admissible (rules : List Rule) (start : Symbol) : Prop where
  not_reserved : ∀ r ∈ rules, ∀ s ∈ r.symbols, s.isReserved = false
  start_not_reserved : start.isReserved = false
  start_has_rule : ∃ r ∈ rules, r.left = start
  left_nonterminal : ∀ r ∈ rules, r.left.isTerminal = false

theorem admissible_of_defect?_eq_none {rules : List Rule} {start : Symbol}
    (h : defect? rules start = none) : Admissible rules start := by
  simp only [defect?, Option.orElse_eq_orElse, Option.orElse_eq_or, Option.or_eq_none_iff,
    Option.map_eq_none_iff, reserved?, List.find?_eq_none, List.mem_cons, List.mem_flatMap] at h
  obtain ⟨hreserved, hstart, hleft, -⟩ := h
  refine ⟨fun r hr s hs => ?_, ?_, ?_, fun r hr => ?_⟩
  · simpa using hreserved s (Or.inr ⟨r, hr, hs⟩)
  · simpa using hreserved start (Or.inl rfl)
  · by_cases hany : rules.any (·.left = start)
    · simpa using hany
    · simp [hany] at hstart
  · simpa using hleft r hr

end Rule

namespace Symbol

theorem isReserved_iff {s : Symbol} :
    s.isReserved = true ↔ s = endOfInput ∨ s = augmentedStart := by
  simp [isReserved]

theorem eq_nonterminal_of_isTerminal_eq_false {s : Symbol} (h : s.isTerminal = false) :
    s = nonterminal s.name := by
  cases s with
  | terminal name => cases h
  | nonterminal name => rfl

end Symbol

/-! ## Numberings -/

namespace Numbering

theorem name?_foldl_add {n : Numbering} {l : List String} {i : Nat} {a : String}
    (h : n.name? i = some a) : (l.foldl add n).name? i = some a := by
  induction l generalizing n with
  | nil => exact h
  | cons b l ih =>
    refine ih ?_
    show (n.add b).names[i]? = some a
    have hi : n.names[i]? = some a := h
    rw [names_add]
    split
    · exact hi
    · obtain ⟨hlt, -⟩ := Array.getElem?_eq_some_iff.1 hi
      rw [Array.getElem?_push, if_neg (Nat.ne_of_lt hlt), hi]

theorem name?_ofList_cons (a : String) (l : List String) :
    (ofList (a :: l)).name? 0 = some a := by
  have h : (empty.add a).name? 0 = some a := by
    show (empty.add a).names[0]? = some a
    rw [names_add, if_neg (by simp [empty])]
    rfl
  show (l.foldl add (empty.add a)).name? 0 = some a
  exact name?_foldl_add h

theorem exists_number?_iff {n : Numbering} {a : String} :
    (∃ i, n.number? a = some i) ↔ a ∈ n.names := by
  rw [Array.mem_iff_getElem?]
  exact exists_congr fun i => n.number?_eq_some_iff

theorem exists_number?_ofList {l : List String} {a : String} (h : a ∈ l) :
    ∃ i, (ofList l).number? a = some i :=
  exists_number?_iff.2 (mem_names_ofList.2 h)

theorem lt_size_of_name? {n : Numbering} {i : Nat} {a : String} (h : n.name? i = some a) :
    i < n.size :=
  lt_size_of_number? (n.number?_eq_some_iff.2 h)

theorem exists_name?_of_lt {n : Numbering} {i : Nat} (h : i < n.size) :
    ∃ a, n.name? i = some a := by
  have hi : i < n.names.size := h
  exact ⟨n.names[i], Array.getElem?_eq_getElem hi⟩

end Numbering

/-! ## Grammars over numbers -/

namespace Grammar

variable {g : Grammar} {rules : List Rule} {start : Symbol}

/-- The number stands for a symbol of the grammar. -/
def Has (g : Grammar) : SymbolId → Prop
  | .terminal t => t < g.terminals.size
  | .nonterminal n => n < g.nonterminals.size

/-- The rules over numbers. -/
def HasRule (g : Grammar) (x : SymbolId) (right : List SymbolId) : Prop :=
  ∃ p ∈ g.productions, x = .nonterminal p.left ∧ right = p.right

structure WellFormed (g : Grammar) : Prop where
  id_eq : ∀ {i : Nat} {p : Production}, g.productions[i]? = some p → p.id = i
  left_lt : ∀ {p : Production}, p ∈ g.productions → p.left < g.nonterminals.size
  has_of_mem_right : ∀ {p : Production} {x : SymbolId}, p ∈ g.productions → x ∈ p.right → g.Has x
  accepting : g.productions[acceptId]? =
    some ⟨acceptId, augmentedStartId, [.nonterminal g.start]⟩
  eq_accept_of_left : ∀ {p : Production}, p ∈ g.productions → p.left = augmentedStartId →
    p.id = acceptId
  end_not_mem_right : ∀ {p : Production}, p ∈ g.productions → SymbolId.terminal endOfInputId ∉ p.right
  start_not_mem_right : ∀ {p : Production}, p ∈ g.productions →
    SymbolId.nonterminal augmentedStartId ∉ p.right
  end_lt : endOfInputId < g.terminals.size

theorem symbol?_eq_some {x : SymbolId} (h : g.Has x) : g.symbol? x = some (g.symbol x) := by
  cases x with
  | terminal t =>
    obtain ⟨name, hname⟩ := Numbering.exists_name?_of_lt h
    simp only [symbol?, symbol, terminal, hname, Option.map_some, Option.getD_some]
  | nonterminal n =>
    obtain ⟨name, hname⟩ := Numbering.exists_name?_of_lt h
    simp only [symbol?, symbol, nonterminal, hname, Option.map_some, Option.getD_some]

theorem mem_symbolIds_iff {x : SymbolId} : x ∈ g.symbolIds ↔ g.Has x := by
  unfold symbolIds
  rw [List.mem_append, List.mem_map, List.mem_map]
  cases x with
  | terminal t => simp [Has]
  | nonterminal n => simp [Has]

theorem mem_productionsOf {n : NonterminalId} {p : Production} :
    p ∈ g.productionsOf n ↔ p ∈ g.productions ∧ p.left = n := by
  rw [productionsOf_eq_filter, List.mem_filter, Array.mem_toList_iff, decide_eq_true_eq]

theorem right_eq {r : RuleId} {p : Production} (h : g.productions[r]? = some p) :
    g.right r = p.right := by
  simp [right, h]

theorem left_eq {r : RuleId} {p : Production} (h : g.productions[r]? = some p) :
    g.left r = p.left := by
  simp [left, h]

theorem exists_production_of_mem_right {r : RuleId} {x : SymbolId} (hx : x ∈ g.right r) :
    ∃ p ∈ g.productions, x ∈ p.right := by
  unfold right at hx
  cases hp : g.productions[r]? with
  | none => simp [hp] at hx
  | some p =>
    rw [hp] at hx
    exact ⟨p, Array.mem_of_getElem? hp, hx⟩

theorem not_hasRule_terminal (t : TerminalId) (right : List SymbolId) :
    ¬ g.HasRule (.terminal t) right := by
  rintro ⟨p, -, h, -⟩
  cases h

namespace WellFormed

variable (hg : g.WellFormed)
include hg

theorem getElem?_id {p : Production} (hp : p ∈ g.productions) :
    g.productions[p.id]? = some p := by
  obtain ⟨i, hi⟩ := Array.mem_iff_getElem?.1 hp
  rw [hg.id_eq hi]
  exact hi

/-- The number of a rule determines the rule. -/
theorem eq_of_id_eq {p q : Production} (hp : p ∈ g.productions) (hq : q ∈ g.productions)
    (h : p.id = q.id) : p = q := by
  have hget := hg.getElem?_id hp
  rw [h, hg.getElem?_id hq] at hget
  exact (Option.some.inj hget).symm

theorem right_id {p : Production} (hp : p ∈ g.productions) : g.right p.id = p.right :=
  right_eq (hg.getElem?_id hp)

theorem left_id {p : Production} (hp : p ∈ g.productions) : g.left p.id = p.left :=
  left_eq (hg.getElem?_id hp)

theorem right_accept : g.right acceptId = [.nonterminal g.start] := right_eq hg.accepting

/-- Every symbol of a right side, by its rule's number, is in the grammar. -/
theorem has_of_mem_right_id {r : RuleId} {x : SymbolId} (hx : x ∈ g.right r) : g.Has x := by
  obtain ⟨p, hp, hx⟩ := exists_production_of_mem_right hx
  exact hg.has_of_mem_right hp hx

theorem end_not_mem_right_id (r : RuleId) : SymbolId.terminal endOfInputId ∉ g.right r := by
  intro hx
  obtain ⟨p, hp, hx⟩ := exists_production_of_mem_right hx
  exact hg.end_not_mem_right hp hx

theorem start_not_mem_right_id (r : RuleId) :
    SymbolId.nonterminal augmentedStartId ∉ g.right r := by
  intro hx
  obtain ⟨p, hp, hx⟩ := exists_production_of_mem_right hx
  exact hg.start_not_mem_right hp hx

theorem left_eq_of_id_eq_accept {p : Production} (hp : p ∈ g.productions)
    (hid : p.id = acceptId) : p.left = augmentedStartId := by
  have hget := hg.getElem?_id hp
  rw [hid, hg.accepting] at hget
  obtain rfl := Option.some.inj hget
  rfl

/-- The rules of a symbol that stands on a right side are not the augmenting rule. -/
theorem id_ne_accept {p : Production} (hp : p ∈ g.productions) {r : RuleId}
    (hmem : SymbolId.nonterminal p.left ∈ g.right r) : p.id ≠ acceptId := by
  intro hid
  rw [hg.left_eq_of_id_eq_accept hp hid] at hmem
  exact hg.start_not_mem_right_id r hmem

theorem has_of_derives {α β : List SymbolId} (hα : ∀ x ∈ α, g.Has x)
    (h : Derives g.HasRule α β) : ∀ x ∈ β, g.Has x := by
  induction h with
  | refl => exact hα
  | tail _ hstep ih =>
    obtain ⟨γ, δ, p, hp, rfl, rfl⟩ := hstep
    intro x hx
    rw [List.mem_append, List.mem_append] at hx
    rcases hx with (hx | hx) | hx
    · exact ih x (by simp [hx])
    · exact hg.has_of_mem_right hp hx
    · exact ih x (by simp [hx])

theorem lt_of_begins {α : List SymbolId} {t : TerminalId} (hα : ∀ x ∈ α, g.Has x)
    (h : Begins g.HasRule α (.terminal t)) : t < g.terminals.size := by
  obtain ⟨β, hβ⟩ := h
  exact hg.has_of_derives hα hβ _ List.mem_cons_self

end WellFormed

/-! ## Numbers and symbols -/

/-- Numbers in range stand one to one for the symbols, and rules over numbers for the rules. -/
structure Numbers (g : Grammar) (rules : List Rule) (start : Symbol) : Prop where
  admissible : Rule.Admissible rules start
  symbol_start : g.nonterminal g.start = start
  symbol_end : g.terminal endOfInputId = .endOfInput
  rule_of_production : ∀ {p : Production}, p ∈ g.productions → p.id ≠ acceptId →
    ⟨g.nonterminal p.left, p.right.map g.symbol⟩ ∈ rules
  production_of_rule : ∀ {r : Rule}, r ∈ rules → ∃ p ∈ g.productions, p.id ≠ acceptId ∧
    g.nonterminal p.left = r.left ∧ p.right.map g.symbol = r.right
  rule_of_terminal : ∀ {t : TerminalId}, t < g.terminals.size → t ≠ endOfInputId →
    ∃ r ∈ rules, g.terminal t ∈ r.symbols

theorem number?_eq_some_iff {s : Symbol} {x : SymbolId} :
    g.number? s = some x ↔ g.Has x ∧ g.symbol x = s := by
  have hterminals := fun {a i} => g.terminals.number?_eq_some_iff (a := a) (i := i)
  have hnonterminals := fun {a i} => g.nonterminals.number?_eq_some_iff (a := a) (i := i)
  constructor
  · cases s with
    | terminal name =>
      intro h
      obtain ⟨t, ht, rfl⟩ := Option.map_eq_some_iff.1 h
      exact ⟨Numbering.lt_size_of_number? ht, by simp [symbol, terminal, hterminals.1 ht]⟩
    | nonterminal name =>
      intro h
      obtain ⟨n, hn, rfl⟩ := Option.map_eq_some_iff.1 h
      exact ⟨Numbering.lt_size_of_number? hn, by simp [symbol, nonterminal, hnonterminals.1 hn]⟩
  · rintro ⟨hx, rfl⟩
    cases x with
    | terminal t =>
      obtain ⟨a, ha⟩ := Numbering.exists_name?_of_lt hx
      have : g.symbol (.terminal t) = .terminal a := by simp [symbol, terminal, ha]
      rw [this]
      exact Option.map_eq_some_iff.2 ⟨t, hterminals.2 ha, rfl⟩
    | nonterminal n =>
      obtain ⟨a, ha⟩ := Numbering.exists_name?_of_lt hx
      have : g.symbol (.nonterminal n) = .nonterminal a := by simp [symbol, nonterminal, ha]
      rw [this]
      exact Option.map_eq_some_iff.2 ⟨n, hnonterminals.2 ha, rfl⟩

/-! ## Construction -/

theorem of_ofRules_eq_ok (h : ofRules rules start = .ok g) :
    Rule.defect? rules start = none ∧
      g.terminals = Numbering.ofList (Symbol.endOfInput.name ::
        ((Rule.augmenting start :: rules).flatMap Rule.symbols).filterMap Symbol.terminalName?) ∧
      g.nonterminals = Numbering.ofList
        (((Rule.augmenting start :: rules).flatMap Rule.symbols).filterMap
          Symbol.nonterminalName?) ∧
      g.productions = (Rule.augmenting start :: rules).toArray.mapIdx
        (resolve g.terminals g.nonterminals) ∧
      g.start = (g.nonterminals.number? start.name).getD 0 := by
  unfold ofRules at h
  split at h
  · cases h
  · next hnone =>
    simp only at h
    split at h
    · cases h
    · obtain rfl := Except.ok.inj h
      exact ⟨hnone, rfl, rfl, rfl, rfl⟩

theorem rules_of_ofRules (h : ofRules rules start = .ok g) :
    g.rules = (Rule.augmenting start :: rules).toArray := by
  unfold ofRules at h
  split at h
  · cases h
  · simp only at h
    split at h
    · cases h
    · rw [← Except.ok.inj h]

theorem sizes_of_ofRules (h : ofRules rules start = .ok g) :
    g.terminals.size ≤ symbolLimit ∧ g.nonterminals.size ≤ symbolLimit ∧
      rules.length + 1 ≤ ruleLimit := by
  unfold ofRules at h
  split at h
  · cases h
  · simp only at h
    split at h
    · cases h
    · next hsmall =>
      obtain rfl := Except.ok.inj h
      simpa [not_or, and_assoc] using hsmall

section Construction

variable (h : ofRules rules start = .ok g)
include h

theorem admissible_of_ofRules : Rule.Admissible rules start :=
  Rule.admissible_of_defect?_eq_none (of_ofRules_eq_ok h).1

/-- Every symbol of every rule is numbered. -/
theorem exists_number?_of_mem_symbols {r : Rule} (hr : r ∈ Rule.augmenting start :: rules)
    {s : Symbol} (hs : s ∈ r.symbols) : ∃ x, g.number? s = some x := by
  obtain ⟨-, hterminals, hnonterminals, -, -⟩ := of_ofRules_eq_ok h
  have hmem : s ∈ (Rule.augmenting start :: rules).flatMap Rule.symbols :=
    List.mem_flatMap.2 ⟨r, hr, hs⟩
  cases s with
  | terminal name =>
    have hname : name ∈ Symbol.endOfInput.name ::
        ((Rule.augmenting start :: rules).flatMap Rule.symbols).filterMap Symbol.terminalName? :=
      List.mem_cons_of_mem _ (List.mem_filterMap.2 ⟨_, hmem, rfl⟩)
    obtain ⟨t, ht⟩ := Numbering.exists_number?_ofList hname
    rw [← hterminals] at ht
    exact ⟨.terminal t, Option.map_eq_some_iff.2 ⟨t, ht, rfl⟩⟩
  | nonterminal name =>
    have hname : name ∈ ((Rule.augmenting start :: rules).flatMap Rule.symbols).filterMap
        Symbol.nonterminalName? := List.mem_filterMap.2 ⟨_, hmem, rfl⟩
    obtain ⟨n, hn⟩ := Numbering.exists_number?_ofList hname
    rw [← hnonterminals] at hn
    exact ⟨.nonterminal n, Option.map_eq_some_iff.2 ⟨n, hn, rfl⟩⟩

theorem terminal_end : g.terminal endOfInputId = .endOfInput ∧
    endOfInputId < g.terminals.size := by
  obtain ⟨-, hterminals, -, -, -⟩ := of_ofRules_eq_ok h
  have hname : g.terminals.name? endOfInputId = some Symbol.endOfInput.name := by
    rw [hterminals]
    exact Numbering.name?_ofList_cons _ _
  exact ⟨by simp [terminal, hname, Symbol.endOfInput, Symbol.name],
    Numbering.lt_size_of_name? hname⟩

theorem number?_augmentedStart :
    g.number? .augmentedStart = some (.nonterminal augmentedStartId) := by
  obtain ⟨-, -, hnonterminals, -, -⟩ := of_ofRules_eq_ok h
  have hname : g.nonterminals.name? augmentedStartId = some Symbol.augmentedStart.name := by
    rw [hnonterminals]
    exact Numbering.name?_ofList_cons _ _
  exact Option.map_eq_some_iff.2 ⟨_, g.nonterminals.number?_eq_some_iff.2 hname, rfl⟩

theorem left_isTerminal_eq_false {r : Rule} (hr : r ∈ Rule.augmenting start :: rules) :
    r.left.isTerminal = false := by
  rcases List.mem_cons.1 hr with rfl | hr
  · rfl
  · exact (admissible_of_ofRules h).left_nonterminal r hr

/-- The rule over numbers, read back, is the rule. -/
theorem resolve_symbols {r : Rule} (hr : r ∈ Rule.augmenting start :: rules) (i : RuleId) :
    let p := resolve g.terminals g.nonterminals i r
    g.number? r.left = some (.nonterminal p.left) ∧ p.right.map g.symbol = r.right ∧
      ∀ x ∈ p.right, g.Has x := by
  refine ⟨?_, ?_, ?_⟩
  · obtain ⟨x, hx⟩ := exists_number?_of_mem_symbols h hr (List.mem_cons_self (a := r.left))
    have hleft := Symbol.eq_nonterminal_of_isTerminal_eq_false (left_isTerminal_eq_false h hr)
    rw [hleft] at hx ⊢
    obtain ⟨n, hn, rfl⟩ := Option.map_eq_some_iff.1 hx
    simp only [resolve, number?, numberIn?, hn, Option.map_some, Option.getD_some]
  · have hnumbered : ∀ s ∈ r.right, ∃ x, g.number? s = some x := fun s hs =>
      exists_number?_of_mem_symbols h hr (List.mem_cons_of_mem _ hs)
    show (r.right.filterMap g.number?).map g.symbol = r.right
    generalize r.right = right at hnumbered
    induction right with
    | nil => rfl
    | cons s right ih =>
      obtain ⟨x, hx⟩ := hnumbered s List.mem_cons_self
      rw [List.filterMap_cons_some hx, List.map_cons, (number?_eq_some_iff.1 hx).2,
        ih fun s hs => hnumbered s (List.mem_cons_of_mem _ hs)]
  · intro x hx
    obtain ⟨s, -, hs⟩ := List.mem_filterMap.1 hx
    exact (number?_eq_some_iff.1 hs).1

theorem exists_resolve_of_getElem? {i : Nat} {p : Production} (hp : g.productions[i]? = some p) :
    ∃ r, (Rule.augmenting start :: rules)[i]? = some r ∧
      p = resolve g.terminals g.nonterminals i r := by
  obtain ⟨-, -, -, hproductions, -⟩ := of_ofRules_eq_ok h
  rw [hproductions, Array.getElem?_mapIdx, List.getElem?_toArray, Option.map_eq_some_iff] at hp
  obtain ⟨r, hr, rfl⟩ := hp
  exact ⟨r, hr, rfl⟩

theorem exists_resolve_of_mem {p : Production} (hp : p ∈ g.productions) :
    ∃ i r, (Rule.augmenting start :: rules)[i]? = some r ∧
      p = resolve g.terminals g.nonterminals i r := by
  obtain ⟨i, hi⟩ := Array.mem_iff_getElem?.1 hp
  exact ⟨i, exists_resolve_of_getElem? h hi⟩

theorem getElem?_of_rule {i : Nat} {r : Rule} (hr : (Rule.augmenting start :: rules)[i]? = some r) :
    g.productions[i]? = some (resolve g.terminals g.nonterminals i r) := by
  obtain ⟨-, -, -, hproductions, -⟩ := of_ofRules_eq_ok h
  conv => lhs; rw [hproductions]
  rw [Array.getElem?_mapIdx, List.getElem?_toArray, hr, Option.map_some]

theorem number?_start : g.number? start = some (.nonterminal g.start) := by
  obtain ⟨-, -, -, -, hstart⟩ := of_ofRules_eq_ok h
  obtain ⟨r, hr, rfl⟩ := (admissible_of_ofRules h).start_has_rule
  obtain ⟨hnumber, -, -⟩ := resolve_symbols h (List.mem_cons_of_mem _ hr) 0
  rw [hnumber, hstart]
  rfl

/-- A rule with a reserved symbol is the augmenting rule, and the symbol is its left side. -/
theorem eq_zero_of_isReserved {i : Nat} {r : Rule}
    (hr : (Rule.augmenting start :: rules)[i]? = some r) {s : Symbol} (hs : s ∈ r.symbols)
    (hreserved : s.isReserved = true) : i = 0 ∧ s ∉ r.right := by
  have hadmissible := admissible_of_ofRules h
  cases i with
  | zero =>
    obtain rfl : Rule.augmenting start = r := Option.some.inj hr
    refine ⟨rfl, fun hright => ?_⟩
    obtain rfl : s = start := List.mem_singleton.1 hright
    rw [hadmissible.start_not_reserved] at hreserved
    cases hreserved
  | succ i =>
    have hmem : r ∈ rules := List.mem_of_getElem? hr
    rw [hadmissible.not_reserved r hmem s hs] at hreserved
    cases hreserved

theorem wellFormed_of_ofRules : g.WellFormed where
  id_eq hp := by
    obtain ⟨r, -, rfl⟩ := exists_resolve_of_getElem? h hp
    rfl
  left_lt hp := by
    obtain ⟨i, r, hr, rfl⟩ := exists_resolve_of_mem h hp
    exact (number?_eq_some_iff.1 (resolve_symbols h (List.mem_of_getElem? hr) i).1).1
  has_of_mem_right hp hx := by
    obtain ⟨i, r, hr, rfl⟩ := exists_resolve_of_mem h hp
    exact (resolve_symbols h (List.mem_of_getElem? hr) i).2.2 _ hx
  accepting := by
    have hr : (Rule.augmenting start :: rules)[acceptId]? = some (Rule.augmenting start) := rfl
    rw [getElem?_of_rule h hr]
    obtain ⟨hleft, -, -⟩ := resolve_symbols h (List.mem_of_getElem? hr) acceptId
    have hstart : resolve g.terminals g.nonterminals acceptId (Rule.augmenting start) =
        ⟨acceptId, (resolve g.terminals g.nonterminals acceptId (Rule.augmenting start)).left,
          [start].filterMap g.number?⟩ := rfl
    have heq := hleft.symm.trans (number?_augmentedStart h)
    rw [hstart, SymbolId.nonterminal.inj (Option.some.inj heq),
      List.filterMap_cons_some (number?_start h)]
    rfl
  eq_accept_of_left hp hleft := by
    obtain ⟨i, r, hr, rfl⟩ := exists_resolve_of_mem h hp
    obtain ⟨hnumber, -, -⟩ := resolve_symbols h (List.mem_of_getElem? hr) i
    have haugmented := (number?_eq_some_iff.1 (number?_augmentedStart h)).2
    have hreserved : r.left = .augmentedStart := by
      rw [← (number?_eq_some_iff.1 hnumber).2, hleft, haugmented]
    exact (eq_zero_of_isReserved h hr List.mem_cons_self
      (Symbol.isReserved_iff.2 (Or.inr hreserved))).1
  end_not_mem_right hp hmem := by
    obtain ⟨i, r, hr, rfl⟩ := exists_resolve_of_mem h hp
    have hright := List.mem_map_of_mem (f := g.symbol) hmem
    have hend : g.symbol (.terminal endOfInputId) = .endOfInput := (terminal_end h).1
    rw [(resolve_symbols h (List.mem_of_getElem? hr) i).2.1, hend] at hright
    exact (eq_zero_of_isReserved h hr (List.mem_cons_of_mem _ hright)
      (Symbol.isReserved_iff.2 (Or.inl rfl))).2 hright
  start_not_mem_right hp hmem := by
    obtain ⟨i, r, hr, rfl⟩ := exists_resolve_of_mem h hp
    have hright := List.mem_map_of_mem (f := g.symbol) hmem
    rw [(resolve_symbols h (List.mem_of_getElem? hr) i).2.1,
      (number?_eq_some_iff.1 (number?_augmentedStart h)).2] at hright
    exact (eq_zero_of_isReserved h hr (List.mem_cons_of_mem _ hright)
      (Symbol.isReserved_iff.2 (Or.inr rfl))).2 hright
  end_lt := (terminal_end h).2

/-- Every terminal but `$` was numbered because it stands in a rule. -/
theorem exists_rule_of_terminal {t : TerminalId} (ht : t < g.terminals.size)
    (hne : t ≠ endOfInputId) : ∃ r ∈ rules, g.terminal t ∈ r.symbols := by
  have hsymbol : g.terminal t ≠ .endOfInput := by
    intro heq
    have hnumber : g.number? .endOfInput = some (.terminal t) :=
      number?_eq_some_iff.2 ⟨ht, heq⟩
    have hend : g.number? .endOfInput = some (.terminal endOfInputId) :=
      number?_eq_some_iff.2 ⟨(terminal_end h).2, (terminal_end h).1⟩
    rw [hend] at hnumber
    exact hne (SymbolId.terminal.inj (Option.some.inj hnumber)).symm
  obtain ⟨-, hterminals, -, -, -⟩ := of_ofRules_eq_ok h
  obtain ⟨a, ha⟩ := Numbering.exists_name?_of_lt ht
  have hterminal : g.terminal t = .terminal a := by rw [terminal, ha, Option.getD_some]
  rw [hterminal] at hsymbol ⊢
  have hmem : a ∈ g.terminals.names := Array.mem_of_getElem? ha
  rw [hterminals, Numbering.mem_names_ofList, List.mem_cons, List.mem_filterMap] at hmem
  rcases hmem with rfl | ⟨s, hs, hname⟩
  · exact absurd rfl hsymbol
  cases s with
  | nonterminal name => cases hname
  | terminal name =>
    obtain rfl := Option.some.inj hname
    obtain ⟨r, hr, hs⟩ := List.mem_flatMap.1 hs
    rcases List.mem_cons.1 hr with rfl | hr
    · -- The augmenting rule has nonterminals only.
      obtain ⟨r, hr, hstart⟩ := (admissible_of_ofRules h).start_has_rule
      have hkind := (admissible_of_ofRules h).left_nonterminal r hr
      rcases List.mem_cons.1 hs with hs | hs
      · cases hs
      · rw [hstart, ← List.mem_singleton.1 hs] at hkind
        cases hkind
    · exact ⟨r, hr, hs⟩

theorem numbers_of_ofRules : g.Numbers rules start where
  admissible := admissible_of_ofRules h
  symbol_start := (number?_eq_some_iff.1 (number?_start h)).2
  symbol_end := (terminal_end h).1
  rule_of_production hp hne := by
    obtain ⟨i, r, hr, rfl⟩ := exists_resolve_of_mem h hp
    obtain ⟨hleft, hright, -⟩ := resolve_symbols h (List.mem_of_getElem? hr) i
    have hrule : (⟨g.nonterminal (resolve g.terminals g.nonterminals i r).left,
        (resolve g.terminals g.nonterminals i r).right.map g.symbol⟩ : Rule) = r := by
      have hsymbol : g.nonterminal (resolve g.terminals g.nonterminals i r).left = r.left :=
        (number?_eq_some_iff.1 hleft).2
      rw [hright, hsymbol]
    rw [hrule]
    cases i with
    | zero => exact absurd rfl hne
    | succ i => exact List.mem_of_getElem? hr
  production_of_rule hr := by
    obtain ⟨i, hi⟩ := List.mem_iff_getElem?.1 hr
    have hi' : (Rule.augmenting start :: rules)[i + 1]? = some _ := hi
    obtain ⟨hleft, hright, -⟩ := resolve_symbols h (List.mem_of_getElem? hi') (i + 1)
    refine ⟨_, Array.mem_of_getElem? (getElem?_of_rule h hi'), Nat.succ_ne_zero i, ?_, hright⟩
    exact (number?_eq_some_iff.1 hleft).2
  rule_of_terminal := exists_rule_of_terminal h

end Construction

/-! ## Derivations over numbers and over symbols -/

/-- A symbol of the rules, that is any symbol of the grammar but `$` and `S'`. -/
structure Ordinary (g : Grammar) (x : SymbolId) : Prop where
  has : g.Has x
  ne_end : x ≠ .terminal endOfInputId
  ne_augmentedStart : x ≠ .nonterminal augmentedStartId

theorem WellFormed.ordinary_of_mem_right (hg : g.WellFormed) {p : Production}
    (hp : p ∈ g.productions) {x : SymbolId} (hx : x ∈ p.right) : g.Ordinary x where
  has := hg.has_of_mem_right hp hx
  ne_end h := hg.end_not_mem_right hp (h ▸ hx)
  ne_augmentedStart h := hg.start_not_mem_right hp (h ▸ hx)

theorem WellFormed.ordinary_of_mem_right_id (hg : g.WellFormed) {r : RuleId} {x : SymbolId}
    (hx : x ∈ g.right r) : g.Ordinary x := by
  obtain ⟨p, hp, hx⟩ := exists_production_of_mem_right hx
  exact hg.ordinary_of_mem_right hp hx

theorem symbol_inj {x y : SymbolId} (hx : g.Has x) (hy : g.Has y) (h : g.symbol x = g.symbol y) :
    x = y := by
  have hnumber := number?_eq_some_iff.2 ⟨hx, rfl⟩
  rw [h, number?_eq_some_iff.2 ⟨hy, rfl⟩] at hnumber
  exact (Option.some.inj hnumber).symm

theorem map_symbol_inj {α β : List SymbolId} (hα : ∀ x ∈ α, g.Has x) (hβ : ∀ x ∈ β, g.Has x)
    (h : α.map g.symbol = β.map g.symbol) : α = β := by
  induction α generalizing β with
  | nil => exact (List.map_eq_nil_iff.1 h.symm).symm
  | cons x α ih =>
    obtain ⟨y, β, rfl, hxy, hrest⟩ := List.map_eq_cons_iff.1 h.symm
    rw [symbol_inj (hα x List.mem_cons_self) (hβ y List.mem_cons_self) hxy.symm,
      ih (fun z hz => hα z (List.mem_cons_of_mem x hz)) (fun z hz => hβ z (List.mem_cons_of_mem y hz))
        hrest.symm]

section Symbols

variable (hg : g.WellFormed) (hn : g.Numbers rules start) {α : List SymbolId}
  (hα : ∀ x ∈ α, g.Ordinary x)
include hg hn hα

/-- Derivations over numbers are derivations by the rules. -/
theorem derives_symbols {β : List SymbolId} (h : Derives g.HasRule α β) :
    Derives (Rule.In rules) (α.map g.symbol) (β.map g.symbol) ∧ ∀ x ∈ β, g.Ordinary x := by
  refine Derives.map (fun x right hx hrule => ?_) hα h
  obtain ⟨p, hp, rfl, rfl⟩ := hrule
  have hne : p.id ≠ acceptId := fun hid =>
    hx.ne_augmentedStart (congrArg SymbolId.nonterminal (hg.left_eq_of_id_eq_accept hp hid))
  exact ⟨hn.rule_of_production hp hne, fun y hy => hg.ordinary_of_mem_right hp hy⟩

/-- Derivations by the rules are derivations over numbers. -/
theorem derives_numbers {β' : List Symbol} (h : Derives (Rule.In rules) (α.map g.symbol) β') :
    ∃ β, β' = β.map g.symbol ∧ Derives g.HasRule α β ∧ ∀ x ∈ β, g.Ordinary x := by
  refine Derives.exists_of_map (fun x right' hx hrule => ?_) hα h
  obtain ⟨p, hp, -, hleft, rfl⟩ := hn.production_of_rule hrule
  have hx : .nonterminal p.left = x := symbol_inj (hg.left_lt hp) hx.has hleft
  exact ⟨p.right, rfl, ⟨p, hp, hx.symm, rfl⟩, fun y hy => hg.ordinary_of_mem_right hp hy⟩

end Symbols

end Grammar

end ShiftReduce
