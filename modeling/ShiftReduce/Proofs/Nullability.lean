import Mathlib.Tactic.ByContra
import ShiftReduce.Proofs.Beginnings

/-!
# Nullable nonterminals by derivations

A pass over the rules adds what it can show to be nullable and loses nothing, and the last pass finds
nothing left to add.  So from any nullable nonterminals on the passes end in all of them, whatever the
order of the rules: where they start plays no part in where they end, only in whether they grow.

    Derives g.HasRule [.nonterminal n] [] ↔ g.Has (.nonterminal n) ∧ the symbol of n derives []
                                                                          (derives_nil_iff_symbol)
    (expandNulls g nulls).2 = true ↔ ∃ n, n ∈ (expandNulls g nulls).1 ∧ ¬ n ∈ nulls
                                                                         (expandNulls_grows_iff)
-/

namespace ShiftReduce

variable {g : Grammar} {rules : List Rule} {start : Symbol}

/-! ## Symbols that derive the empty string -/

namespace Grammar

/-- What derives the empty string has a rule, so it is in the grammar. -/
theorem WellFormed.has_of_derives_nil (hg : g.WellFormed) {x : SymbolId}
    (hd : Derives g.HasRule [x] []) : g.Has x := by
  by_contra hnot
  have hnone : ∀ right, ¬ g.HasRule x right := by
    rintro right ⟨p, hp, rfl, -⟩
    exact hnot (hg.left_lt hp)
  cases (derives_singleton_iff hnone).1 hd

theorem derives_nil_iff_symbol (h : ofRules rules start = .ok g) {n : NonterminalId} :
    Derives g.HasRule [.nonterminal n] [] ↔ g.Has (.nonterminal n) ∧
      Derives (Rule.In (Rule.augmenting start :: rules)) [g.nonterminal n] [] := by
  constructor
  · intro hd
    have hn := (wellFormed_of_ofRules h).has_of_derives_nil hd
    exact ⟨hn, (derives_nil_iff_derives_symbols h (List.forall_mem_singleton.2 hn)).1 hd⟩
  · rintro ⟨hn, hd⟩
    exact (derives_nil_iff_derives_symbols h (List.forall_mem_singleton.2 hn)).2 hd

end Grammar

/-! ## Growing to all of them -/

theorem mem_nullPass_of_mem {nulls : NonterminalSet} {n : NonterminalId} (hn : n ∈ nulls) :
    n ∈ nullPass g nulls := by
  rw [nullPass_eq]
  refine foldl_keeps (fun s => n ∈ s) (fun s p _ hs => ?_) hn
  exact mem_addNull.2 (Or.inl hs)

theorem mem_expandNulls_of_mem {nulls : NonterminalSet} {n : NonterminalId} (hn : n ∈ nulls) :
    n ∈ (expandNulls g nulls).1 :=
  saturate_induction (P := fun s => n ∈ s) (fun _ hs => mem_nullPass_of_mem hs) _ _ hn

/-- Growth is reported when some nonterminal came in that was not there before. -/
theorem expandNulls_grows_iff (nulls : NonterminalSet) :
    (expandNulls g nulls).2 = true ↔ ∃ n, n ∈ (expandNulls g nulls).1 ∧ ¬ n ∈ nulls := by
  have hgrown : (expandNulls g nulls).2 = decide (nulls.size < (expandNulls g nulls).1.size) := rfl
  rw [hgrown, decide_eq_true_eq]
  apply OrderedSet.size_lt_size_iff
  intro n hn
  exact mem_expandNulls_of_mem hn

namespace FirstSets

/-- The nullable nonterminals of a grammar are those that derive the empty string.  From any of them
on, all of them are found, and growth is reported exactly if not all were there. -/
theorem expandNulls_finds_all (h : Grammar.ofRules rules start = .ok g) :
    let R := Rule.In (Rule.augmenting start :: rules)
    let all := (ofGrammar g).nulls
    (∀ n, n ∈ all ↔ g.Has (.nonterminal n) ∧ Derives R [g.nonterminal n] []) ∧
    ∀ nulls : NonterminalSet,
      (∀ n, n ∈ nulls → g.Has (.nonterminal n) ∧ Derives R [g.nonterminal n] []) →
        (∀ n, n ∈ (expandNulls g nulls).1 ↔ n ∈ all) ∧
        ((expandNulls g nulls).2 = true ↔ ¬ ∀ n, n ∈ nulls ↔ n ∈ all) := by
  intro R all
  have hall : ∀ n, n ∈ all ↔ g.Has (.nonterminal n) ∧ Derives R [g.nonterminal n] [] := by
    intro n
    rw [mem_nulls_ofGrammar, Grammar.derives_nil_iff_symbol h]
  refine ⟨hall, fun nulls hnulls => ?_⟩
  have hsound : ∀ n, n ∈ nulls → Derives g.HasRule [.nonterminal n] [] := by
    intro n hn
    exact (Grammar.derives_nil_iff_symbol h).2 (hnulls n hn)
  have hsame : ∀ n, n ∈ (expandNulls g nulls).1 ↔ n ∈ all := by
    intro n
    rw [mem_expandNulls_iff hsound, mem_nulls_ofGrammar]
  refine ⟨hsame, ?_⟩
  rw [expandNulls_grows_iff]
  constructor
  · rintro ⟨n, hn, hnew⟩ hfull
    exact hnew ((hfull n).2 ((hsame n).1 hn))
  · intro hmissing
    by_contra hnone
    apply hmissing
    intro n
    constructor
    · intro hn
      exact (hsame n).1 (mem_expandNulls_of_mem hn)
    · intro hn
      by_contra hnew
      exact hnone ⟨n, (hsame n).2 hn, hnew⟩

/-- Each rule waits for one that is listed behind it, and `D` is not nullable. -/
def chain : List Rule :=
  [⟨.nonterminal "S", [.nonterminal "A", .nonterminal "B"]⟩,
    ⟨.nonterminal "S", [.nonterminal "D"]⟩,
    ⟨.nonterminal "A", [.nonterminal "B", .nonterminal "C"]⟩,
    ⟨.nonterminal "B", [.nonterminal "C"]⟩,
    ⟨.nonterminal "C", []⟩,
    ⟨.nonterminal "D", [.terminal "d", .nonterminal "C"]⟩]

/-- From `C` alone on the set grows up to `S`, and `D` stays out. -/
theorem expandNulls_finds_all_chain : ∃ g, Grammar.ofRules chain (.nonterminal "S") = .ok g ∧
    let R := Rule.In (Rule.augmenting (.nonterminal "S") :: chain)
    let grown := expandNulls g (.singleton 5)
    g.nonterminal 5 = .nonterminal "C" ∧ Derives R [.nonterminal "C"] [] ∧
      g.nonterminal 1 = .nonterminal "S" ∧ Derives R [.nonterminal "S"] [] ∧ 1 ∈ grown.1 ∧
      g.nonterminal 4 = .nonterminal "D" ∧ ¬ Derives R [.nonterminal "D"] [] ∧ ¬ 4 ∈ grown.1 ∧
      grown.2 = true := by
  obtain ⟨g, hg, hcheck⟩ : ∃ g, Grammar.ofRules chain (.nonterminal "S") = .ok g ∧
      (decide ((ofGrammar g).nulls.toList = [5, 3, 2, 1, 0]) && decide (4 < g.nonterminals.size) &&
        decide (g.nonterminal 5 = .nonterminal "C") && decide (g.nonterminal 1 = .nonterminal "S") &&
        decide (g.nonterminal 4 = .nonterminal "D")) = true := exists_ok_of_any (by decide +kernel)
  simp only [Bool.and_eq_true, decide_eq_true_eq] at hcheck
  obtain ⟨⟨⟨⟨hnulls, hD⟩, hsymbolC⟩, hsymbolS⟩, hsymbolD⟩ := hcheck
  have hmem : ∀ n, n ∈ (ofGrammar g).nulls ↔ n ∈ [5, 3, 2, 1, 0] := fun n => by
    rw [OrderedSet.mem_def, hnulls]
  obtain ⟨hall, hgrow⟩ := expandNulls_finds_all hg
  have hC := (hall 5).1 ((hmem 5).2 (by decide))
  have hS := (hall 1).1 ((hmem 1).2 (by decide))
  obtain ⟨hsame, hgrown⟩ := hgrow (.singleton 5) fun n hn => by
    obtain rfl := OrderedSet.mem_singleton.1 hn
    exact hC
  rw [hsymbolC] at hC
  rw [hsymbolS] at hS
  refine ⟨g, hg, hsymbolC, hC.2, hsymbolS, hS.2, ?_, hsymbolD, ?_, ?_, ?_⟩
  · exact (hsame 1).2 ((hmem 1).2 (by decide))
  · intro hd
    rw [← hsymbolD] at hd
    have hin := (hmem 4).1 ((hall 4).2 ⟨hD, hd⟩)
    exact absurd hin (by decide)
  · intro hin
    have hin := (hmem 4).1 ((hsame 4).1 hin)
    exact absurd hin (by decide)
  · refine hgrown.2 fun hfull => ?_
    have hin := (hfull 1).2 ((hmem 1).2 (by decide))
    exact absurd (OrderedSet.mem_singleton.1 hin) (by decide)

end FirstSets

end ShiftReduce
