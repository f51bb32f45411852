import ShiftReduce.Proofs.Contexts
import ShiftReduce.Proofs.DerivationTrees

/-!
# Inputs over numbers

An input of a grammar is a string derived from its start symbol with the end of input after it.
What the rules say about sentences and viable strings of terminals is read off the inputs over
numbers.

    Sentence rules start (taken.map g.terminal) ↔ DerivesInput g (taken.map .terminal ++ [$])
                                                                              (sentence_iff)
    Viable rules start (taken.map g.terminal) ↔ ∃ z, DerivesInput g (taken.map .terminal ++ z)
                                                                                (viable_iff)
-/

namespace ShiftReduce

variable {rules : List Rule} {start : Symbol} {g : Grammar} {s : Symbol} {v : List SymbolId}

/-- An input is a string derived from the start symbol, with the end of input after it. -/
theorem derivesInput_iff : DerivesInput g v ↔
    ∃ u, v = u ++ [.terminal endOfInputId] ∧ Derives g.HasRule [.nonterminal g.start] u := by
  have hpair : [SymbolId.nonterminal g.start, .terminal endOfInputId] =
      [.nonterminal g.start] ++ [.terminal endOfInputId] := rfl
  unfold DerivesInput
  rw [hpair, derives_append_iff]
  constructor
  · rintro ⟨u, w, rfl, hu, hw⟩
    obtain rfl := (derives_singleton_iff fun right => Grammar.not_hasRule_terminal _ right).1 hw
    exact ⟨u, rfl, hu⟩
  · rintro ⟨u, rfl, hu⟩
    exact ⟨u, _, rfl, hu, Derives.refl _⟩

namespace Grammar

theorem WellFormed.ordinary_start (hg : g.WellFormed) : g.Ordinary (.nonterminal g.start) := by
  have hmem : SymbolId.nonterminal g.start ∈ g.right acceptId := by
    rw [hg.right_accept]
    exact List.mem_singleton.2 rfl
  exact hg.ordinary_of_mem_right_id hmem

theorem Numbers.start_isTerminal (hn : g.Numbers rules start) : start.isTerminal = false := by
  rw [← hn.symbol_start]
  rfl

theorem isTerminal_of_mem_map {taken : List TerminalId} :
    ∀ s ∈ taken.map g.terminal, s.isTerminal = true := by
  intro s hs
  obtain ⟨t, -, rfl⟩ := List.mem_map.1 hs
  rfl

theorem Numbers.terminal_ne_endOfInput (hn : g.Numbers rules start) (hg : g.WellFormed)
    {t : TerminalId} (ht : t < g.terminals.size) (hne : t ≠ endOfInputId) :
    g.terminal t ≠ .endOfInput := by
  intro heq
  have hend : g.terminal t = g.terminal endOfInputId := heq.trans hn.symbol_end.symm
  exact hne (SymbolId.terminal.inj (symbol_inj ht hg.end_lt hend))

section Inputs

variable (hg : g.WellFormed) (hn : g.Numbers rules start)
include hg hn

/-- The terminals of the rules are the terminals of the grammar but `$`. -/
theorem hasTerminal_iff : Rule.HasTerminal rules s ↔
    ∃ x, g.number? s = some (.terminal x) ∧ x ≠ endOfInputId := by
  constructor
  · rintro ⟨hterminal, r, hr, hs⟩
    rcases List.mem_cons.1 hs with rfl | hs
    · rw [hn.admissible.left_nonterminal r hr] at hterminal
      cases hterminal
    obtain ⟨rule, hrule, -, -, hright⟩ := hn.production_of_rule hr
    rw [← hright] at hs
    obtain ⟨y, hy, rfl⟩ := List.mem_map.1 hs
    have hordinary := hg.ordinary_of_mem_right hrule hy
    cases y with
    | nonterminal n => cases hterminal
    | terminal x =>
      have hne : x ≠ endOfInputId := fun hx => hordinary.ne_end (congrArg SymbolId.terminal hx)
      exact ⟨x, number?_eq_some_iff.2 ⟨hordinary.has, rfl⟩, hne⟩
  · rintro ⟨x, hx, hne⟩
    obtain ⟨hhas, rfl⟩ := number?_eq_some_iff.1 hx
    exact ⟨rfl, hn.rule_of_terminal hhas hne⟩

/-- What can follow a string is a terminal of the grammar. -/
theorem exists_terminal_of_mayFollow {u : List Symbol} (h : Rule.MayFollow rules start u s) :
    ∃ t, t < g.terminals.size ∧ g.terminal t = s := by
  cases h with
  | terminal _ hviable =>
    have hhas := hviable.hasTerminal hn.start_isTerminal (List.mem_append_right u (List.mem_singleton.2 rfl))
    obtain ⟨x, hx, -⟩ := (hasTerminal_iff hg hn).1 hhas
    exact ⟨x, number?_eq_some_iff.1 hx⟩
  | endOfInput _ => exact ⟨endOfInputId, hg.end_lt, hn.symbol_end⟩

theorem ordinary_of_derives_start {z : List SymbolId}
    (h : Derives g.HasRule [.nonterminal g.start] z) : ∀ x ∈ z, g.Ordinary x :=
  (derives_symbols hg hn (fun x hx => by rw [List.mem_singleton.1 hx]; exact hg.ordinary_start) h).2

/-- The end of input is the last symbol of an input, and only the last. -/
theorem eq_nil_of_derivesInput {α z : List SymbolId}
    (h : DerivesInput g (α ++ .terminal endOfInputId :: z)) : z = [] := by
  obtain ⟨u, heq, hu⟩ := derivesInput_iff.1 h
  rcases List.eq_nil_or_concat z with rfl | ⟨z, x, rfl⟩
  · rfl
  · have hsplit : α ++ .terminal endOfInputId :: z ++ [x] = u ++ [.terminal endOfInputId] := by
      rw [← heq]
      simp
    obtain ⟨rfl, -⟩ := List.append_inj' hsplit rfl
    exact absurd rfl (ordinary_of_derives_start hg hn hu (.terminal endOfInputId) (by simp)).ne_end

variable {taken : List TerminalId} (htaken : ∀ t ∈ taken, g.Ordinary (.terminal t))
include htaken

/-- What the start symbol derives after the terminals is the same over numbers and by the rules. -/
theorem derives_start_iff {β : List Symbol} :
    Derives (Rule.In rules) [start] (taken.map g.terminal ++ β) ↔
      ∃ z, β = z.map g.symbol ∧
        Derives g.HasRule [.nonterminal g.start] (taken.map .terminal ++ z) := by
  have hstart : ∀ x ∈ [SymbolId.nonterminal g.start], g.Ordinary x := fun x hx => by
    rw [List.mem_singleton.1 hx]
    exact hg.ordinary_start
  have hsymbol : [SymbolId.nonterminal g.start].map g.symbol = [start] :=
    congrArg (fun s => [s]) hn.symbol_start
  have htaken' : (taken.map SymbolId.terminal).map g.symbol = taken.map g.terminal := List.map_map
  constructor
  · intro h
    rw [← hsymbol] at h
    obtain ⟨β', hβ', hderives, hordinary⟩ := derives_numbers hg hn hstart h
    obtain ⟨α, z, rfl, hα, rfl⟩ := List.map_eq_append_iff.1 hβ'.symm
    refine ⟨z, rfl, ?_⟩
    have hnumbers : α = taken.map .terminal := by
      refine map_symbol_inj (fun x hx => (hordinary x (List.mem_append_left z hx)).has) ?_
        (hα.trans htaken'.symm)
      intro x hx
      obtain ⟨t, ht, rfl⟩ := List.mem_map.1 hx
      exact (htaken t ht).has
    rwa [hnumbers] at hderives
  · rintro ⟨z, rfl, h⟩
    have hderives := (derives_symbols hg hn hstart h).1
    rwa [hsymbol, List.map_append, htaken'] at hderives

theorem sentence_iff : Rule.Sentence rules start (taken.map g.terminal) ↔
    DerivesInput g (taken.map .terminal ++ [.terminal endOfInputId]) := by
  constructor
  · rintro ⟨-, h⟩
    rw [← List.append_nil (taken.map g.terminal)] at h
    obtain ⟨z, hz, hderives⟩ := (derives_start_iff hg hn htaken).1 h
    obtain rfl := List.map_eq_nil_iff.1 hz.symm
    rw [List.append_nil] at hderives
    exact derivesInput_iff.2 ⟨_, rfl, hderives⟩
  · intro h
    obtain ⟨u, heq, hu⟩ := derivesInput_iff.1 h
    obtain rfl := List.append_cancel_right heq
    refine ⟨isTerminal_of_mem_map, ?_⟩
    rw [← List.append_nil (taken.map g.terminal)]
    exact (derives_start_iff hg hn htaken).2 ⟨[], rfl, by rwa [List.append_nil]⟩

theorem viable_iff : Rule.Viable rules start (taken.map g.terminal) ↔
    ∃ z, DerivesInput g (taken.map .terminal ++ z) := by
  constructor
  · rintro ⟨-, β, h⟩
    obtain ⟨z, -, hderives⟩ := (derives_start_iff hg hn htaken).1 h
    exact ⟨z ++ [.terminal endOfInputId],
      derivesInput_iff.2 ⟨_, (List.append_assoc _ _ _).symm, hderives⟩⟩
  · rintro ⟨z, h⟩
    obtain ⟨u, heq, hu⟩ := derivesInput_iff.1 h
    refine ⟨isTerminal_of_mem_map, ?_⟩
    rcases List.eq_nil_or_concat z with rfl | ⟨z, x, rfl⟩
    · -- The end of input is not one of the terminals.
      have hmem : SymbolId.terminal endOfInputId ∈ taken.map .terminal := by
        rw [List.append_nil] at heq
        rw [heq]
        simp
      obtain ⟨t, ht, hend⟩ := List.mem_map.1 hmem
      exact absurd hend (htaken t ht).ne_end
    · rw [List.concat_eq_append, ← List.append_assoc] at heq
      obtain ⟨rfl, -⟩ := List.append_inj' heq rfl
      exact ⟨_, (derives_start_iff hg hn htaken).2 ⟨z, rfl, hu⟩⟩

/-- The terminals that can follow are those that some input goes on with. -/
theorem mayFollow_iff {t : TerminalId} (ht : t < g.terminals.size) :
    Rule.MayFollow rules start (taken.map g.terminal) (g.terminal t) ↔
      ∃ z, DerivesInput g (taken.map .terminal ++ .terminal t :: z) := by
  by_cases hend : t = endOfInputId
  · subst hend
    rw [hn.symbol_end, Rule.mayFollow_endOfInput_iff, sentence_iff hg hn htaken]
    constructor
    · intro h
      exact ⟨[], h⟩
    · rintro ⟨z, h⟩
      obtain rfl := eq_nil_of_derivesInput hg hn h
      exact h
  · have hordinary : g.Ordinary (.terminal t) :=
      ⟨ht, fun heq => hend (SymbolId.terminal.inj heq), fun heq => by cases heq⟩
    have hlonger : ∀ x ∈ taken ++ [t], g.Ordinary (.terminal x) := by
      intro x hx
      rcases List.mem_append.1 hx with hx | hx
      · exact htaken x hx
      · rwa [List.mem_singleton.1 hx]
    have hviable := viable_iff hg hn hlonger
    rw [List.map_append, List.map_append] at hviable
    simp only [List.append_assoc] at hviable
    rw [Rule.mayFollow_iff_viable (hn.terminal_ne_endOfInput hg ht hend)]
    exact hviable

end Inputs

end Grammar

end ShiftReduce
