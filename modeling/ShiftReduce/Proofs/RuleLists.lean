import Mathlib.Data.List.Dedup
import Mathlib.Data.List.Nodup
import ShiftReduce.Proofs.Numbered

/-!
# Which rule lists are accepted

The checks on a rule list find no cause to refuse it exactly if the list is `Accepted`: besides what
`Admissible` says of single rules, no rule is repeated, and each nonterminal of the rules stands on
the right side of some rule that is not its own.  All this is about the members of the list and
their number only, so the order of the rules plays no part in it.

    repetition? rules = none ↔ rules.Nodup                           (repetition?_eq_none_iff)
    defect? rules start = none ↔ Accepted rules start                    (defect?_eq_none_iff)
    rules.Perm rules' → Accepted rules start → Accepted rules' start           (Accepted.perm)
-/

namespace ShiftReduce

namespace Rule

variable {rules rules' : List Rule} {start : Symbol}

/-- What the checks leave of a rule list with its start symbol, sizes apart. -/
structure Accepted (rules : List Rule) (start : Symbol) : Prop extends Admissible rules start where
  nodup : rules.Nodup
  supported : ∀ r ∈ rules, ∀ s ∈ r.symbols, s.isTerminal = false →
    ∃ other ∈ augmenting start :: rules, s ∈ other.right ∧ s ≠ other.left

/-! ## The single checks -/

theorem repetitionAfter?_eq_none_iff {seen : Std.TreeSet Rule} :
    repetitionAfter? seen rules = none ↔ rules.Nodup ∧ ∀ r ∈ rules, r ∉ seen := by
  induction rules generalizing seen with
  | nil => simp [repetitionAfter?]
  | cons r rest ih =>
    unfold repetitionAfter?
    by_cases hr : seen.contains r = true
    · rw [if_pos hr]
      constructor
      · intro h
        cases h
      · rintro ⟨-, hnew⟩
        exact absurd (Std.TreeSet.mem_iff_contains.2 hr) (hnew r List.mem_cons_self)
    · rw [if_neg hr, ih, List.nodup_cons]
      have hr : r ∉ seen := fun hmem => hr (Std.TreeSet.mem_iff_contains.1 hmem)
      simp only [Std.TreeSet.mem_insert, Std.LawfulEqOrd.compare_eq_iff_eq, not_or]
      constructor
      · rintro ⟨hnodup, hnew⟩
        exact ⟨⟨fun hmem => (hnew r hmem).1 rfl, hnodup⟩,
          List.forall_mem_cons.2 ⟨hr, fun r' hr' => (hnew r' hr').2⟩⟩
      · rintro ⟨⟨hfirst, hnodup⟩, hnew⟩
        exact ⟨hnodup, fun r' hr' => ⟨fun heq => hfirst (heq ▸ hr'),
          (List.forall_mem_cons.1 hnew).2 r' hr'⟩⟩

theorem repetition?_eq_none_iff : repetition? rules = none ↔ rules.Nodup := by
  unfold repetition?
  rw [repetitionAfter?_eq_none_iff]
  simp

/-- A rule is reported as repeated where the rules before it hold it and nothing twice. -/
theorem repetitionAfter?_eq_some_iff {seen : Std.TreeSet Rule} {r : Rule} :
    repetitionAfter? seen rules = some r ↔ ∃ before after, rules = before ++ r :: after ∧
      before.Nodup ∧ (∀ b ∈ before, b ∉ seen) ∧ (r ∈ before ∨ r ∈ seen) := by
  induction rules generalizing seen with
  | nil => simp [repetitionAfter?]
  | cons x rest ih =>
    unfold repetitionAfter?
    by_cases hx : seen.contains x = true
    · rw [if_pos hx]
      have hx : x ∈ seen := Std.TreeSet.mem_iff_contains.2 hx
      constructor
      · intro h
        obtain rfl := Option.some.inj h
        exact ⟨[], rest, rfl, List.nodup_nil, fun _ hb => absurd hb List.not_mem_nil, Or.inr hx⟩
      · rintro ⟨before, after, heq, -, hnew, -⟩
        cases before with
        | nil => exact congrArg some (List.cons.inj heq).1
        | cons b before =>
          obtain ⟨rfl, -⟩ := List.cons.inj heq
          exact absurd hx (hnew x List.mem_cons_self)
    · rw [if_neg hx, ih]
      have hx : x ∉ seen := fun hmem => hx (Std.TreeSet.mem_iff_contains.1 hmem)
      simp only [Std.TreeSet.mem_insert, Std.LawfulEqOrd.compare_eq_iff_eq, not_or]
      constructor
      · rintro ⟨before, after, rfl, hnodup, hnew, hseen⟩
        refine ⟨x :: before, after, rfl, ?_, ?_, ?_⟩
        · exact List.nodup_cons.2 ⟨fun hmem => (hnew x hmem).1 rfl, hnodup⟩
        · exact List.forall_mem_cons.2 ⟨hx, fun b hb => (hnew b hb).2⟩
        · rw [List.mem_cons]
          tauto
      · rintro ⟨before, after, heq, hnodup, hnew, hseen⟩
        cases before with
        | nil =>
          obtain ⟨rfl, -⟩ := List.cons.inj heq
          exact absurd (hseen.resolve_left List.not_mem_nil) hx
        | cons b before =>
          obtain ⟨rfl, rfl⟩ := List.cons.inj heq
          obtain ⟨hfirst, hnodup⟩ := List.nodup_cons.1 hnodup
          refine ⟨before, after, rfl, hnodup, fun c hc => ⟨fun heq => hfirst (heq ▸ hc), ?_⟩, ?_⟩
          · exact hnew c (List.mem_cons_of_mem x hc)
          · rw [List.mem_cons] at hseen
            tauto

theorem repetition?_eq_some_iff {r : Rule} : repetition? rules = some r ↔
    ∃ before after, rules = before ++ r :: after ∧ before.Nodup ∧ r ∈ before := by
  unfold repetition?
  rw [repetitionAfter?_eq_some_iff]
  simp

theorem contains_ofList_iff {l : List Symbol} {s : Symbol} :
    (Std.TreeSet.ofList l).contains s = true ↔ s ∈ l := by
  rw [Std.TreeSet.contains_ofList, List.contains_iff_mem]

theorem contains_right_iff (rules : List Rule) (s : Symbol) :
    (Std.TreeSet.ofList (rules.flatMap right)).contains s = true ↔ ∃ r ∈ rules, s ∈ r.right := by
  rw [contains_ofList_iff, List.mem_flatMap]

theorem contains_right_filter_iff (rules : List Rule) (s : Symbol) :
    (Std.TreeSet.ofList (rules.flatMap fun r => r.right.filter (· ≠ r.left))).contains s = true ↔
      ∃ r ∈ rules, s ∈ r.right ∧ s ≠ r.left := by
  simp only [contains_ofList_iff, List.mem_flatMap, List.mem_filter, decide_eq_true_eq]

theorem not_exists_other_iff {rules : List Rule} {s : Symbol} :
    (¬ ∃ r ∈ rules, s ∈ r.right ∧ s ≠ r.left) ↔ ∀ r ∈ rules, s ∈ r.right → s = r.left := by
  simp only [not_exists, not_and, ne_eq, not_not]

/-- What the check for support finds wrong with one symbol. -/
def unsupportedAt? (rules : List Rule) (start s : Symbol) : Option GrammarError :=
  let all := augmenting start :: rules
  if s.isTerminal then none
  else if !(Std.TreeSet.ofList (all.flatMap right)).contains s then some (.unproduced s)
  else if !(Std.TreeSet.ofList (all.flatMap fun r => r.right.filter (· ≠ r.left))).contains s then
    some (.selfProducedOnly s)
  else none

theorem unsupported?_eq_findSome? (rules : List Rule) (start : Symbol) :
    unsupported? rules start = (rules.flatMap symbols).findSome? (unsupportedAt? rules start) := rfl

/-- A nonterminal that no rule but its own has on the right is refused, for one of two reasons. -/
theorem unsupportedAt?_eq_some_iff {s : Symbol} {e : GrammarError} :
    unsupportedAt? rules start s = some e ↔ s.isTerminal = false ∧
      (∀ r ∈ augmenting start :: rules, s ∈ r.right → s = r.left) ∧
      (e = .unproduced s ∧ (∀ r ∈ augmenting start :: rules, s ∉ r.right) ∨
        e = .selfProducedOnly s ∧ ∃ r ∈ augmenting start :: rules, s ∈ r.right) := by
  have hproduced := contains_right_iff (augmenting start :: rules) s
  have hothers := contains_right_filter_iff (augmenting start :: rules) s
  unfold unsupportedAt?
  by_cases hkind : s.isTerminal = true
  · simp [hkind]
  simp only [if_neg hkind]
  rw [Bool.not_eq_true] at hkind
  by_cases hany : ∃ r ∈ augmenting start :: rules, s ∈ r.right
  · rw [hproduced.2 hany]
    by_cases hother : ∃ r ∈ augmenting start :: rules, s ∈ r.right ∧ s ≠ r.left
    · rw [hothers.2 hother]
      constructor
      · intro h
        cases h
      · rintro ⟨-, hown, -⟩
        exact absurd hother (not_exists_other_iff.2 hown)
    · rw [Bool.eq_false_iff.2 (mt hothers.1 hother)]
      constructor
      · intro h
        exact ⟨hkind, not_exists_other_iff.1 hother, Or.inr ⟨(Option.some.inj h).symm, hany⟩⟩
      · rintro ⟨-, -, ⟨-, hnone⟩ | ⟨rfl, -⟩⟩
        · obtain ⟨r, hr, hright⟩ := hany
          exact absurd hright (hnone r hr)
        · rfl
  · rw [Bool.eq_false_iff.2 (mt hproduced.1 hany)]
    have hnone : ∀ r ∈ augmenting start :: rules, s ∉ r.right := fun r hr hright =>
      hany ⟨r, hr, hright⟩
    constructor
    · intro h
      exact ⟨hkind, fun r hr hright => absurd hright (hnone r hr),
        Or.inl ⟨(Option.some.inj h).symm, hnone⟩⟩
    · rintro ⟨-, -, ⟨rfl, -⟩ | ⟨-, hsome⟩⟩
      · rfl
      · exact absurd hsome hany

theorem unsupportedAt?_eq_none_iff {s : Symbol} : unsupportedAt? rules start s = none ↔
    (s.isTerminal = false → ∃ r ∈ augmenting start :: rules, s ∈ r.right ∧ s ≠ r.left) := by
  rw [Option.eq_none_iff_forall_ne_some]
  constructor
  · intro h hkind
    by_contra hnone
    have hown := not_exists_other_iff.1 hnone
    by_cases hany : ∃ r ∈ augmenting start :: rules, s ∈ r.right
    · exact h _ (unsupportedAt?_eq_some_iff.2 ⟨hkind, hown, Or.inr ⟨rfl, hany⟩⟩)
    · refine h _ (unsupportedAt?_eq_some_iff.2 ⟨hkind, hown, Or.inl ⟨rfl, ?_⟩⟩)
      exact fun r hr hright => hany ⟨r, hr, hright⟩
  · intro h e he
    obtain ⟨hkind, hown, -⟩ := unsupportedAt?_eq_some_iff.1 he
    exact not_exists_other_iff.2 hown (h hkind)

theorem unsupported?_eq_none_iff : unsupported? rules start = none ↔
    ∀ r ∈ rules, ∀ s ∈ r.symbols, s.isTerminal = false →
      ∃ other ∈ augmenting start :: rules, s ∈ other.right ∧ s ≠ other.left := by
  rw [unsupported?_eq_findSome?, List.findSome?_eq_none_iff]
  simp only [unsupportedAt?_eq_none_iff, List.mem_flatMap]
  exact ⟨fun h r hr s hs => h s ⟨r, hr, hs⟩, fun h s ⟨r, hr, hs⟩ => h r hr s hs⟩

/-! ## All checks -/

theorem defect?_eq_none_iff : defect? rules start = none ↔ Accepted rules start := by
  constructor
  · intro h
    refine ⟨admissible_of_defect?_eq_none h, ?_, ?_⟩
    all_goals
      simp only [defect?, Option.orElse_eq_orElse, Option.orElse_eq_or, Option.or_eq_none_iff,
        Option.map_eq_none_iff] at h
      obtain ⟨-, -, -, hrepetition, hunsupported⟩ := h
    · exact repetition?_eq_none_iff.1 hrepetition
    · exact unsupported?_eq_none_iff.1 hunsupported
  · intro h
    have hreserved : reserved? rules start = none := by
      refine List.find?_eq_none.2 (List.forall_mem_cons.2 ⟨by simp [h.start_not_reserved], ?_⟩)
      intro s hs
      obtain ⟨r, hr, hs⟩ := List.mem_flatMap.1 hs
      simp [h.not_reserved r hr s hs]
    have hstart : rules.any (·.left = start) = true := by
      obtain ⟨r, hr, hleft⟩ := h.start_has_rule
      exact List.any_eq_true.2 ⟨r, hr, decide_eq_true hleft⟩
    have hleft : rules.find? (·.left.isTerminal) = none :=
      List.find?_eq_none.2 fun r hr => by simp [h.left_nonterminal r hr]
    unfold defect?
    rw [hreserved, if_pos hstart, hleft, repetition?_eq_none_iff.2 h.nodup,
      unsupported?_eq_none_iff.2 h.supported]
    rfl

/-- The order of the rules plays no part. -/
theorem Accepted.perm (hperm : rules.Perm rules') (h : Accepted rules start) :
    Accepted rules' start where
  not_reserved r hr := h.not_reserved r (hperm.mem_iff.2 hr)
  start_not_reserved := h.start_not_reserved
  start_has_rule := by
    obtain ⟨r, hr, hleft⟩ := h.start_has_rule
    exact ⟨r, hperm.mem_iff.1 hr, hleft⟩
  left_nonterminal r hr := h.left_nonterminal r (hperm.mem_iff.2 hr)
  nodup := hperm.nodup_iff.1 h.nodup
  supported r hr s hs hkind := by
    obtain ⟨other, hother, hright, hne⟩ := h.supported r (hperm.mem_iff.2 hr) s hs hkind
    exact ⟨other, (hperm.cons _).mem_iff.1 hother, hright, hne⟩

end Rule

/-! ## Sizes -/

namespace Numbering

theorem nodup_names (n : Numbering) : n.names.toList.Nodup := by
  rw [List.nodup_iff_getElem?_ne_getElem?]
  intro i j hij hj heq
  rw [Array.getElem?_toList, Array.getElem?_toList] at heq
  have hname : n.name? j = some n.names[j] := Array.getElem?_eq_getElem hj
  have hi := n.number?_eq_some_iff.2 (heq.trans hname)
  rw [n.number?_eq_some_iff.2 hname] at hi
  have hsame := Option.some.inj hi
  omega

/-- A list of names has as many numbers as different names. -/
theorem size_ofList (l : List String) : (ofList l).size = l.dedup.length := by
  have hperm : (ofList l).names.toList.Perm l.dedup :=
    (List.perm_ext_iff_of_nodup (nodup_names _) l.nodup_dedup).2 fun a => by
      rw [Array.mem_toList_iff, mem_names_ofList, List.mem_dedup]
  exact hperm.length_eq

theorem size_ofList_perm {l l' : List String} (hperm : l.Perm l') :
    (ofList l).size = (ofList l').size := by
  rw [size_ofList, size_ofList]
  exact hperm.dedup.length_eq

end Numbering

end ShiftReduce
