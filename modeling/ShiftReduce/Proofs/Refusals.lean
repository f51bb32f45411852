import ShiftReduce.Proofs.RuleLists

/-!
# Why a rule list is refused

Each check on a rule list has a cause, which is said here of the list and its start symbol alone:
what is wrong, and with which symbol or rule, namely the first one that it is wrong with.  The checks
run one after the other, so a list is refused for the first cause that it gives, and accepted if it
gives none.

    check? rules start i = some e ↔ Refused rules start i e                 (check?_eq_some_iff)
    Grammar.ofRules rules start = .error e ↔
      ∃ i, Refused rules start i e ∧ ∀ j < i, ∀ e', ¬ Refused rules start j e'
                                                                       (ofRules_refuses_first)
-/

namespace ShiftReduce

/-! ## First members -/

section First

variable {α β : Type} {P Q : α → Prop} {l : List α} {a b : α}

/-- `a` is the first member of the list with a property. -/
def IsFirst (P : α → Prop) (l : List α) (a : α) : Prop :=
  P a ∧ ∃ before after, l = before ++ a :: after ∧ ∀ b ∈ before, ¬ P b

theorem isFirst_congr (h : ∀ a ∈ l, P a ↔ Q a) : IsFirst P l a ↔ IsFirst Q l a := by
  constructor
  · rintro ⟨ha, before, after, rfl, hbefore⟩
    exact ⟨(h a (by simp)).1 ha, before, after, rfl,
      fun b hb => mt (h b (List.mem_append_left _ hb)).2 (hbefore b hb)⟩
  · rintro ⟨ha, before, after, rfl, hbefore⟩
    exact ⟨(h a (by simp)).2 ha, before, after, rfl,
      fun b hb => mt (h b (List.mem_append_left _ hb)).1 (hbefore b hb)⟩

theorem find?_eq_some_iff_isFirst {p : α → Bool} :
    l.find? p = some a ↔ IsFirst (fun a => p a = true) l a := by
  rw [List.find?_eq_some_iff_append]
  simp only [IsFirst, Bool.not_eq_true', Bool.not_eq_true]

theorem findSome?_eq_some_iff_isFirst {f : α → Option β} {b : β} :
    l.findSome? f = some b ↔ ∃ a, IsFirst (fun a => f a ≠ none) l a ∧ f a = some b := by
  rw [List.findSome?_eq_some_iff]
  constructor
  · rintro ⟨before, a, after, hl, ha, hbefore⟩
    exact ⟨a, ⟨by simp [ha], before, after, hl, fun b hb => by simp [hbefore b hb]⟩, ha⟩
  · rintro ⟨a, ⟨-, before, after, hl, hbefore⟩, ha⟩
    exact ⟨before, a, after, hl, ha, fun b hb => not_not.1 (hbefore b hb)⟩

/-- A member without the property may be put in front. -/
theorem isFirst_cons_iff_of_not (hb : ¬ P b) : IsFirst P (b :: l) a ↔ IsFirst P l a := by
  constructor
  · rintro ⟨ha, before, after, heq, hbefore⟩
    cases before with
    | nil =>
      obtain ⟨rfl, -⟩ := List.cons.inj heq
      exact absurd ha hb
    | cons c before =>
      obtain ⟨-, rfl⟩ := List.cons.inj heq
      exact ⟨ha, before, after, rfl, (List.forall_mem_cons.1 hbefore).2⟩
  · rintro ⟨ha, before, after, rfl, hbefore⟩
    exact ⟨ha, b :: before, after, rfl, List.forall_mem_cons.2 ⟨hb, hbefore⟩⟩

/-- The first value of a function on the numbers below a bound. -/
theorem findSome?_range_eq_some_iff {f : Nat → Option β} {n : Nat} {b : β} :
    (List.range n).findSome? f = some b ↔ ∃ i < n, f i = some b ∧ ∀ j < i, f j = none := by
  induction n with
  | zero => simp
  | succ n ih =>
    rw [List.range_succ, List.findSome?_append, Option.or_eq_some_iff, ih,
      List.findSome?_eq_none_iff]
    simp only [List.mem_range, List.findSome?_singleton]
    constructor
    · rintro (⟨i, hi, hb, hnone⟩ | ⟨hnone, hb⟩)
      · exact ⟨i, Nat.lt_succ_of_lt hi, hb, hnone⟩
      · exact ⟨n, Nat.lt_succ_self n, hb, hnone⟩
    · rintro ⟨i, hi, hb, hnone⟩
      rcases Nat.lt_succ_iff_lt_or_eq.1 hi with hlt | rfl
      · exact Or.inl ⟨i, hlt, hb, hnone⟩
      · exact Or.inr ⟨hnone, hb⟩

end First

variable {rules : List Rule} {start : Symbol}

namespace Rule

/-! ## Causes -/

/-- A nonterminal other than `S'` that is on no right side but those of its own rules. -/
def Unsupported (all : List Rule) (s : Symbol) : Prop :=
  s.isTerminal = false ∧ s ≠ .augmentedStart ∧ ∀ r ∈ all, s ∈ r.right → s = r.left

/-- There are more terminals, `$` among them, or nonterminals, `S'` among them, or rules, the
augmenting one among them, than 16 bits number. -/
def Oversized (rules : List Rule) (start : Symbol) : Prop :=
  let all := augmenting start :: rules
  65535 < ((.endOfInput :: all.flatMap symbols).filter (·.isTerminal)).dedup.length ∨
    65535 < ((all.flatMap symbols).filter (·.isNonterminal)).dedup.length ∨ 65536 < all.length

/-- The causes for which a rule list is refused, numbered in the order in which they are looked for,
each with the error that reports it. -/
inductive Refused (rules : List Rule) (start : Symbol) : Nat → GrammarError → Prop
  | reserved {s : Symbol} :
      IsFirst (fun s => s = .endOfInput ∨ s = .augmentedStart) (start :: rules.flatMap symbols) s →
      Refused rules start 0 (.reservedSymbol s)
  | missingStart : (∀ r ∈ rules, r.left ≠ start) → Refused rules start 1 (.missingStartRule start)
  | terminalOnLeft {r : Rule} : IsFirst (fun r => r.left.isTerminal = true) rules r →
      Refused rules start 2 (.terminalOnLeft r)
  | repeated {before after : List Rule} {r : Rule} : rules = before ++ r :: after → before.Nodup →
      r ∈ before → Refused rules start 3 (.duplicateRule r)
  | unproduced {s : Symbol} : IsFirst (Unsupported (augmenting start :: rules))
        ((augmenting start :: rules).flatMap symbols) s →
      (∀ r ∈ augmenting start :: rules, s ∉ r.right) → Refused rules start 4 (.unproduced s)
  | selfProduced {s : Symbol} : IsFirst (Unsupported (augmenting start :: rules))
        ((augmenting start :: rules).flatMap symbols) s →
      (∃ r ∈ augmenting start :: rules, s ∈ r.right) → Refused rules start 4 (.selfProducedOnly s)
  | tooLarge : Oversized rules start → Refused rules start 5 .tooLarge

theorem Refused.lt {i : Nat} {e : GrammarError} (h : Refused rules start i e) : i < 6 := by
  cases h <;> decide

/-! ## Reserved symbols -/

theorem reserved?_eq_some_iff {s : Symbol} : reserved? rules start = some s ↔
    IsFirst (fun s => s = .endOfInput ∨ s = .augmentedStart) (start :: rules.flatMap symbols) s := by
  unfold reserved?
  rw [find?_eq_some_iff_isFirst]
  exact isFirst_congr fun s _ => Symbol.isReserved_iff

theorem reserved?_eq_none_iff : reserved? rules start = none ↔
    ∀ s ∈ start :: rules.flatMap symbols, s ≠ .endOfInput ∧ s ≠ .augmentedStart := by
  unfold reserved?
  simp only [List.find?_eq_none, Symbol.isReserved_iff, not_or, ne_eq]

/-! ## The checks and their causes -/

theorem map_reserved?_eq_some_iff {e : GrammarError} :
    (reserved? rules start).map .reservedSymbol = some e ↔ Refused rules start 0 e := by
  simp only [Option.map_eq_some_iff, reserved?_eq_some_iff]
  constructor
  · rintro ⟨s, hs, rfl⟩
    exact .reserved hs
  · intro h
    cases h with
    | reserved hs => exact ⟨_, hs, rfl⟩

theorem ite_any_left_eq_some_iff {e : GrammarError} :
    (if rules.any (·.left = start) then none else some (.missingStartRule start)) = some e ↔
      Refused rules start 1 e := by
  simp only [List.any_eq_true, decide_eq_true_eq]
  constructor
  · intro h
    split at h
    · cases h
    · next hnone =>
      obtain rfl := Option.some.inj h
      exact .missingStart fun r hr hleft => hnone ⟨r, hr, hleft⟩
  · intro h
    cases h with
    | missingStart hnone => exact if_neg fun ⟨r, hr, hleft⟩ => hnone r hr hleft

theorem map_find?_left_eq_some_iff {e : GrammarError} :
    (rules.find? (·.left.isTerminal)).map .terminalOnLeft = some e ↔ Refused rules start 2 e := by
  simp only [Option.map_eq_some_iff, find?_eq_some_iff_isFirst]
  constructor
  · rintro ⟨r, hr, rfl⟩
    exact .terminalOnLeft hr
  · intro h
    cases h with
    | terminalOnLeft hr => exact ⟨_, hr, rfl⟩

theorem map_repetition?_eq_some_iff {e : GrammarError} :
    (repetition? rules).map .duplicateRule = some e ↔ Refused rules start 3 e := by
  simp only [Option.map_eq_some_iff, repetition?_eq_some_iff]
  constructor
  · rintro ⟨r, ⟨before, after, hrules, hnodup, hr⟩, rfl⟩
    exact .repeated hrules hnodup hr
  · intro h
    cases h with
    | repeated hrules hnodup hr => exact ⟨_, ⟨_, _, hrules, hnodup, hr⟩, rfl⟩

theorem unsupported_iff_ne_none {s : Symbol} (hs : s ≠ .augmentedStart) :
    Unsupported (augmenting start :: rules) s ↔ unsupportedAt? rules start s ≠ none := by
  rw [ne_eq, unsupportedAt?_eq_none_iff, Classical.not_imp, not_exists_other_iff]
  unfold Unsupported
  exact ⟨fun ⟨hkind, _, hown⟩ => ⟨hkind, hown⟩, fun ⟨hkind, hown⟩ => ⟨hkind, hs, hown⟩⟩

/-- The symbols of the augmenting rule are never at fault: `S'` is left out, and the start symbol is
on the right side of a rule that is not its own.  In the other rules there is no `S'`. -/
theorem isFirst_unsupported_iff (hreserved : reserved? rules start = none) {s : Symbol} :
    IsFirst (Unsupported (augmenting start :: rules)) ((augmenting start :: rules).flatMap symbols) s ↔
      IsFirst (fun s => unsupportedAt? rules start s ≠ none) (rules.flatMap symbols) s := by
  obtain ⟨⟨-, hstart⟩, hrules⟩ := List.forall_mem_cons.1 (reserved?_eq_none_iff.1 hreserved)
  have hall : (augmenting start :: rules).flatMap symbols =
      .augmentedStart :: start :: rules.flatMap symbols := rfl
  have hfirst : ¬ Unsupported (augmenting start :: rules) .augmentedStart := fun h => h.2.1 rfl
  have hsecond : ¬ Unsupported (augmenting start :: rules) start := fun h =>
    hstart (h.2.2 (augmenting start) List.mem_cons_self List.mem_cons_self)
  rw [hall, isFirst_cons_iff_of_not hfirst, isFirst_cons_iff_of_not hsecond]
  exact isFirst_congr fun s hs => unsupported_iff_ne_none (hrules s hs).2

theorem unsupported?_eq_some_iff (hreserved : reserved? rules start = none) {e : GrammarError} :
    unsupported? rules start = some e ↔ Refused rules start 4 e := by
  rw [unsupported?_eq_findSome?, findSome?_eq_some_iff_isFirst]
  constructor
  · rintro ⟨s, hfirst, hs⟩
    rw [← isFirst_unsupported_iff hreserved] at hfirst
    obtain ⟨-, -, ⟨rfl, hnone⟩ | ⟨rfl, hsome⟩⟩ := unsupportedAt?_eq_some_iff.1 hs
    · exact .unproduced hfirst hnone
    · exact .selfProduced hfirst hsome
  · intro h
    cases h with
    | @unproduced s hfirst hnone =>
      obtain ⟨hkind, -, hown⟩ := hfirst.1
      exact ⟨s, (isFirst_unsupported_iff hreserved).1 hfirst,
        unsupportedAt?_eq_some_iff.2 ⟨hkind, hown, Or.inl ⟨rfl, hnone⟩⟩⟩
    | @selfProduced s hfirst hsome =>
      obtain ⟨hkind, -, hown⟩ := hfirst.1
      exact ⟨s, (isFirst_unsupported_iff hreserved).1 hfirst,
        unsupportedAt?_eq_some_iff.2 ⟨hkind, hown, Or.inr ⟨rfl, hsome⟩⟩⟩

instance (rules : List Rule) (start : Symbol) : Decidable (Oversized rules start) :=
  inferInstanceAs (Decidable (_ ∨ _ ∨ _))

theorem ite_oversized_eq_some_iff {e : GrammarError} :
    (if Oversized rules start then some .tooLarge else none) = some e ↔ Refused rules start 5 e := by
  constructor
  · intro h
    split at h
    · next hlarge =>
      obtain rfl := Option.some.inj h
      exact .tooLarge hlarge
    · cases h
  · intro h
    cases h with
    | tooLarge hlarge => exact if_pos hlarge

/-! ## The checks in order -/

/-- What the checks find, numbered as the causes are. -/
def check? (rules : List Rule) (start : Symbol) : Nat → Option GrammarError
  | 0 => (reserved? rules start).map .reservedSymbol
  | 1 => if rules.any (·.left = start) then none else some (.missingStartRule start)
  | 2 => (rules.find? (·.left.isTerminal)).map .terminalOnLeft
  | 3 => (repetition? rules).map .duplicateRule
  | 4 => unsupported? rules start
  | 5 => if Oversized rules start then some .tooLarge else none
  | _ => none

/-- A check finds its cause.  The check for support relies on the first check. -/
theorem check?_eq_some_iff {i : Nat} {e : GrammarError}
    (hbefore : ∀ j < i, check? rules start j = none) :
    check? rules start i = some e ↔ Refused rules start i e := by
  match i with
  | 0 => exact map_reserved?_eq_some_iff
  | 1 => exact ite_any_left_eq_some_iff
  | 2 => exact map_find?_left_eq_some_iff
  | 3 => exact map_repetition?_eq_some_iff
  | 4 => exact unsupported?_eq_some_iff (Option.map_eq_none_iff.1 (hbefore 0 (by decide)))
  | 5 => exact ite_oversized_eq_some_iff
  | i + 6 =>
    constructor
    · intro h
      cases h
    · intro h
      cases h

/-- Before a check all checks find nothing just where there is no cause before. -/
theorem check?_eq_none_iff {i : Nat} : (∀ j < i, check? rules start j = none) ↔
    ∀ j < i, ∀ e, ¬ Refused rules start j e := by
  induction i with
  | zero => simp
  | succ i ih =>
    simp only [Nat.forall_lt_succ_right]
    constructor
    · rintro ⟨hbefore, hi⟩
      refine ⟨ih.1 hbefore, fun e he => ?_⟩
      cases hi.symm.trans ((check?_eq_some_iff hbefore).2 he)
    · rintro ⟨hbefore, hi⟩
      have hbefore := ih.2 hbefore
      refine ⟨hbefore, Option.eq_none_iff_forall_ne_some.2 fun e he => ?_⟩
      exact hi e ((check?_eq_some_iff hbefore).1 he)

theorem defect?_eq_findSome? (rules : List Rule) (start : Symbol) :
    defect? rules start = (List.range 5).findSome? (check? rules start) := by
  unfold defect?
  simp only [Option.orElse_eq_orElse, Option.orElse_eq_or]
  show _ = [0, 1, 2, 3, 4].findSome? (check? rules start)
  have hcons : ∀ (i : Nat) (l : List Nat), (i :: l).findSome? (check? rules start) =
      (check? rules start i).or (l.findSome? (check? rules start)) := by
    intro i l
    rw [List.findSome?_cons]
    cases check? rules start i <;> rfl
  rw [hcons, hcons, hcons, hcons, hcons, List.findSome?_nil, Option.or_none]
  rfl

end Rule

/-! ## Sizes -/

theorem Symbol.filter_isTerminal (l : List Symbol) :
    l.filter (·.isTerminal) = (l.filterMap terminalName?).map .terminal := by
  induction l with
  | nil => rfl
  | cons s l ih =>
    cases s with
    | terminal name => exact congrArg (Symbol.terminal name :: ·) ih
    | nonterminal name => exact ih

theorem Symbol.filter_isNonterminal (l : List Symbol) :
    l.filter (·.isNonterminal) = (l.filterMap nonterminalName?).map .nonterminal := by
  induction l with
  | nil => rfl
  | cons s l ih =>
    cases s with
    | terminal name => exact ih
    | nonterminal name => exact congrArg (Symbol.nonterminal name :: ·) ih

namespace Grammar

theorem size_terminals (l : List Symbol) :
    (Numbering.ofList (l.filterMap Symbol.terminalName?)).size =
      (l.filter (·.isTerminal)).dedup.length := by
  rw [Numbering.size_ofList, Symbol.filter_isTerminal,
    List.dedup_map_of_injective fun _ _ => Symbol.terminal.inj, List.length_map]

theorem size_nonterminals (l : List Symbol) :
    (Numbering.ofList (l.filterMap Symbol.nonterminalName?)).size =
      (l.filter (·.isNonterminal)).dedup.length := by
  rw [Numbering.size_ofList, Symbol.filter_isNonterminal,
    List.dedup_map_of_injective fun _ _ => Symbol.nonterminal.inj, List.length_map]

/-- The numbering is too large just where the rule list is. -/
theorem oversized_iff (rules : List Rule) (start : Symbol) : Rule.Oversized rules start ↔
    let symbols := (Rule.augmenting start :: rules).flatMap Rule.symbols
    (Numbering.ofList (Symbol.endOfInput.name :: symbols.filterMap Symbol.terminalName?)).size >
        symbolLimit ∨
      (Numbering.ofList (symbols.filterMap Symbol.nonterminalName?)).size > symbolLimit ∨
      (Rule.augmenting start :: rules).length > ruleLimit := by
  have hterminals := size_terminals
    (.endOfInput :: (Rule.augmenting start :: rules).flatMap Rule.symbols)
  have hnonterminals := size_nonterminals ((Rule.augmenting start :: rules).flatMap Rule.symbols)
  unfold Rule.Oversized
  dsimp only
  rw [← hterminals, ← hnonterminals]
  exact Iff.rfl

/-- A rule list is refused with what the first check that finds something finds. -/
theorem ofRules_eq_error_iff {rules : List Rule} {start : Symbol} {e : GrammarError} :
    ofRules rules start = .error e ↔
      (List.range 6).findSome? (Rule.check? rules start) = some e := by
  rw [List.range_succ, List.findSome?_append, ← Rule.defect?_eq_findSome?, List.findSome?_singleton]
  unfold ofRules
  cases Rule.defect? rules start with
  | some cause => simp
  | none =>
    have hsizes := oversized_iff rules start
    simp only [Option.none_or, Rule.check?]
    split
    · next hlarge =>
      simp only [Bool.or_eq_true, decide_eq_true_eq, or_assoc] at hlarge
      rw [if_pos (hsizes.2 hlarge)]
      simp
    · next hsmall =>
      simp only [Bool.or_eq_true, decide_eq_true_eq, or_assoc] at hsmall
      rw [if_neg (mt hsizes.1 hsmall)]
      simp

/-- A rule list is refused for the first of its causes, and accepted if it has none. -/
theorem ofRules_refuses_first (rules : List Rule) (start : Symbol) :
    (∀ e, ofRules rules start = .error e ↔ ∃ i, Rule.Refused rules start i e ∧
      ∀ j < i, ∀ e', ¬ Rule.Refused rules start j e') ∧
    ((∃ g, ofRules rules start = .ok g) ↔ ∀ i e, ¬ Rule.Refused rules start i e) := by
  have hrefused : ∀ e, ofRules rules start = .error e ↔ ∃ i, Rule.Refused rules start i e ∧
      ∀ j < i, ∀ e', ¬ Rule.Refused rules start j e' := by
    intro e
    rw [ofRules_eq_error_iff, findSome?_range_eq_some_iff]
    constructor
    · rintro ⟨i, -, hi, hbefore⟩
      exact ⟨i, (Rule.check?_eq_some_iff hbefore).1 hi, Rule.check?_eq_none_iff.1 hbefore⟩
    · rintro ⟨i, hi, hbefore⟩
      have hnone := Rule.check?_eq_none_iff.2 hbefore
      exact ⟨i, hi.lt, (Rule.check?_eq_some_iff hnone).2 hi, hnone⟩
  refine ⟨hrefused, ?_⟩
  constructor
  · rintro ⟨g, hg⟩ i e hi
    have hnone : (List.range 6).findSome? (Rule.check? rules start) = none := by
      refine Option.eq_none_iff_forall_ne_some.2 fun e he => ?_
      cases hg.symm.trans (ofRules_eq_error_iff.2 he)
    simp only [List.findSome?_eq_none_iff, List.mem_range] at hnone
    exact Rule.check?_eq_none_iff.1 hnone i hi.lt e hi
  · intro hnone
    cases hg : ofRules rules start with
    | ok g => exact ⟨g, rfl⟩
    | error e =>
      obtain ⟨i, hi, -⟩ := (hrefused e).1 hg
      exact absurd hi (hnone i e)

/-- The rule of `B` is repeated and only that rule has `B` on its right side: it is refused as a
repetition. -/
example : Rule.defect? [⟨.nonterminal "S", [.terminal "a"]⟩,
    ⟨.nonterminal "B", [.terminal "b", .nonterminal "B"]⟩,
    ⟨.nonterminal "B", [.terminal "b", .nonterminal "B"]⟩] (.nonterminal "S") =
      some (.duplicateRule ⟨.nonterminal "B", [.terminal "b", .nonterminal "B"]⟩) := by
  decide +kernel

end Grammar

end ShiftReduce
