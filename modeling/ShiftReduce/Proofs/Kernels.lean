import Mathlib.Data.Finset.Powerset
import ShiftReduce.Automaton
import ShiftReduce.Proofs.Closure

/-!
# Kernels

The kernels of a construction are over the rules and the terminals of the grammar, and apart from
the first none of their items is at the start of its rule.  Of such kernels there are finitely
many, counted here as sets of cores with no lookahead and with each of theirs.

    kernel.Advanced → ((closure g f items).contains kernel = true ↔ items.contains kernel = true)
                                                                        (contains_closure_iff)
    kernels.length ≤ Automaton.passLimit g                                (length_kernels_le)
-/

namespace ShiftReduce

variable {g : Grammar} {f : FirstSets}

/-! ## Matching and range -/

/-- How a state with a kernel matches a kernel that leads to it. -/
def MergeMode.Matches : MergeMode → ItemSet → ItemSet → Prop
  | .canonical, found, kernel => found.same kernel = true
  | .superset, found, kernel => found.contains kernel = true

namespace ItemSet

/-- Every item is over the rules and the terminals of the grammar. -/
structure InRange (g : Grammar) (items : ItemSet) : Prop where
  rule_lt : ∀ {c}, items.Has c → c.rule < g.productions.size
  marker_le : ∀ {c}, items.Has c → c.marker ≤ (g.right c.rule).length
  lookahead_lt : ∀ {c t}, items.Looks c t → t < g.terminals.size

/-- No item is at the start of its rule. -/
def Advanced (items : ItemSet) : Prop := ∀ c, items.Has c → 0 < c.marker

variable {items kernel : ItemSet}

theorem InRange.marker_eq (h : items.InRange g) {c : Core} (hc : items.Has c)
    (hcomplete : c.isComplete g = true) : c.marker = (g.right c.rule).length :=
  Nat.le_antisymm (h.marker_le hc) (of_decide_eq_true hcomplete)

/-- Of one rule there is at most one completed item. -/
theorem InRange.eq_of_complete (h : items.InRange g) {c d : Core}
    (hc : items.Has c) (hd : items.Has d) (hcomplete : c.isComplete g = true)
    (hcomplete' : d.isComplete g = true) (hrule : c.rule = d.rule) : c = d := by
  have hmarker := h.marker_eq hc hcomplete
  have hmarker' := h.marker_eq hd hcomplete'
  obtain ⟨r, m⟩ := c
  obtain ⟨r', m'⟩ := d
  obtain rfl : r = r' := hrule
  rw [show m = m' from hmarker.trans hmarker'.symm]

theorem same_refl (items : ItemSet) : items.same items = true :=
  same_iff.2 ⟨fun _ => Iff.rfl, fun _ _ => Iff.rfl⟩

theorem same_symm {a b : ItemSet} (h : a.same b = true) : b.same a = true := by
  obtain ⟨hhas, hlooks⟩ := same_iff.1 h
  exact same_iff.2 ⟨fun c => (hhas c).symm, fun c t => (hlooks c t).symm⟩

theorem contains_of_same {a b : ItemSet} (h : a.same b = true) : a.contains b = true :=
  (Bool.and_eq_true_iff.1 h).1

theorem same_trans {a b c : ItemSet} (hab : a.same b = true) (hbc : b.same c = true) :
    a.same c = true := by
  obtain ⟨hhas, hlooks⟩ := same_iff.1 hab
  obtain ⟨hhas', hlooks'⟩ := same_iff.1 hbc
  exact same_iff.2 ⟨fun c => (hhas c).trans (hhas' c), fun c t => (hlooks c t).trans (hlooks' c t)⟩

theorem contains_congr {a b c : ItemSet} (h : b.same c = true) :
    a.contains b = true ↔ a.contains c = true := by
  obtain ⟨hhas, hlooks⟩ := same_iff.1 h
  simp only [contains_iff, hhas, hlooks]

theorem sortedCores_eq_of_same {a b : ItemSet} (h : a.same b = true) :
    a.sortedCores = b.sortedCores := by
  refine (Std.TreeSet.Equiv.of_forall_mem_iff fun c => ?_).toList_eq
  rw [Std.TreeSet.mem_ofList, Std.TreeSet.mem_ofList, List.contains_iff_mem, List.contains_iff_mem,
    ← has_iff_mem_keys, ← has_iff_mem_keys]
  exact (same_iff.1 h).1 c

/-- What the closure holds is over the grammar when the item set is. -/
theorem InRange.of_within (h : items.InRange g) (hg : g.WellFormed) {part : ItemSet}
    (hpart : Within g items part) : part.InRange g where
  rule_lt hc := by
    cases hpart.has hc with
    | base hc => exact h.rule_lt hc
    | expand _ _ hp => exact (Array.getElem?_eq_some_iff.1 (hg.getElem?_id hp)).1
  marker_le hc := by
    cases hpart.has hc with
    | base hc => exact h.marker_le hc
    | expand _ _ _ => exact Nat.zero_le _
  lookahead_lt hc := by
    have hlook := hpart.looks hc
    clear hc
    induction hlook with
    | base hc => exact h.lookahead_lt hc
    | first _ _ _ hbegins =>
      exact hg.lt_of_begins (fun x hx => hg.has_of_mem_right_id (List.mem_of_mem_drop hx)) hbegins
    | inherit _ _ _ _ ih => exact ih

theorem inRange_closure (hg : g.WellFormed) (hf : f.Exact g) (h : items.InRange g) :
    (closure g f items).InRange g :=
  h.of_within hg (within_closure hf)

theorem inRange_of_transitions {x : SymbolId} (h : items.InRange g)
    (hx : (transitions g items).find? x = some kernel) : kernel.InRange g where
  rule_lt hc := by
    obtain ⟨d, rfl, -, hd⟩ := (has_of_transitions hx).1 hc
    exact h.rule_lt (c := d) hd
  marker_le hc := by
    obtain ⟨d, rfl, hnext, -⟩ := (has_of_transitions hx).1 hc
    exact (List.getElem?_eq_some_iff.1 hnext).1
  lookahead_lt hc := by
    obtain ⟨d, -, -, hd⟩ := (looks_of_transitions hx).1 hc
    exact h.lookahead_lt hd

theorem advanced_of_transitions {x : SymbolId} (hx : (transitions g items).find? x = some kernel) :
    kernel.Advanced := by
  intro c hc
  obtain ⟨d, rfl, -, -⟩ := (has_of_transitions hx).1 hc
  exact Nat.succ_pos _

/-- Items that are not at the start of their rule are in the closure as they are in the set. -/
theorem contains_closure_iff (hg : g.WellFormed) (hf : f.Exact g) (h : kernel.Advanced) :
    (closure g f items).contains kernel = true ↔ items.contains kernel = true := by
  rw [contains_iff, contains_iff]
  refine forall_congr' fun c => imp_congr_right fun hc => ?_
  have hhas : (closure g f items).Has c ↔ items.Has c := by
    rw [has_closure_iff hg hf]
    exact ⟨fun hcore => hcore.has_of_marker_pos (h c hc), .base⟩
  have hlooks : ∀ t, (closure g f items).Looks c t ↔ items.Looks c t := fun t => by
    rw [looks_closure_iff hg hf]
    exact ⟨fun hlook => hlook.looks_of_marker_pos (h c hc), .base⟩
  simp only [hhas, hlooks]

end ItemSet

theorem MergeMode.Matches.contains {mode : MergeMode} {found kernel : ItemSet}
    (h : mode.Matches found kernel) : found.contains kernel = true := by
  cases mode with
  | canonical => exact ItemSet.contains_of_same h
  | superset => exact h

/-! ## Counting kernels -/

section Counting

open scoped Classical

/-- Every core of the grammar, with no lookahead and with each. -/
def itemUniverse (g : Grammar) : List (Core × Option TerminalId) :=
  (g.productions.toList.flatMap fun p => (List.range (p.right.length + 1)).map (Core.mk p.id)) ×ˢ
    (none :: (List.range g.terminals.size).map some)

theorem length_itemUniverse (g : Grammar) : (itemUniverse g).length =
    total (fun p => p.right.length + 1) g.productions.toList * (g.terminals.size + 1) := by
  have hcores : ∀ l : List Production,
      (l.flatMap fun p => (List.range (p.right.length + 1)).map (Core.mk p.id)).length =
        total (fun p => p.right.length + 1) l := by
    intro l
    induction l with
    | nil => rfl
    | cons p l ih =>
      rw [List.flatMap_cons, List.length_append, ih, List.length_map, List.length_range, total]
  rw [itemUniverse, List.length_product, hcores, List.length_cons, List.length_map,
    List.length_range]

/-- What an item set has, as a set of cores without lookahead and with each of theirs. -/
noncomputable def ItemSet.facts (g : Grammar) (items : ItemSet) :
    Finset (Core × Option TerminalId) :=
  (itemUniverse g).toFinset.filter fun e =>
    match e.2 with
    | none => items.Has e.1
    | some t => items.Looks e.1 t

theorem ItemSet.mem_facts_none (hg : g.WellFormed) {items : ItemSet} (h : items.InRange g)
    {c : Core} : (c, none) ∈ items.facts g ↔ items.Has c := by
  unfold facts
  rw [Finset.mem_filter, List.mem_toFinset]
  refine ⟨And.right, fun hc => ⟨?_, hc⟩⟩
  have hp := Array.getElem?_eq_getElem (h.rule_lt hc)
  have hmarker := h.marker_le hc
  rw [Grammar.right_eq hp] at hmarker
  refine List.mem_product.2 ⟨List.mem_flatMap.2 ⟨_, Array.mem_toList_iff.2
    (Array.getElem_mem (h.rule_lt hc)), List.mem_map.2 ⟨c.marker, List.mem_range.2 (by omega), ?_⟩⟩,
    List.mem_cons_self⟩
  rw [hg.id_eq hp]

theorem ItemSet.mem_facts_some (hg : g.WellFormed) {items : ItemSet} (h : items.InRange g)
    {c : Core} {t : TerminalId} : (c, some t) ∈ items.facts g ↔ items.Looks c t := by
  constructor
  · intro hc
    exact (Finset.mem_filter.1 hc).2
  · intro hc
    have hcore := (Finset.mem_filter.1 ((mem_facts_none hg h).2 hc.has)).1
    rw [List.mem_toFinset, itemUniverse, List.mem_product] at hcore
    refine Finset.mem_filter.2 ⟨List.mem_toFinset.2 (List.mem_product.2 ⟨hcore.1, ?_⟩), hc⟩
    exact List.mem_cons_of_mem _ (List.mem_map.2 ⟨t, List.mem_range.2 (h.lookahead_lt hc), rfl⟩)

/-- There are at most as many different kernels as the construction may make passes. -/
theorem length_kernels_le (hg : g.WellFormed) {kernels : List ItemSet}
    (hrange : ∀ kernel ∈ kernels, kernel.InRange g)
    (hdistinct : kernels.Pairwise fun a b => ¬ a.same b = true) :
    kernels.length ≤ Automaton.passLimit g := by
  have hnodup : (kernels.map (ItemSet.facts g)).Nodup := by
    rw [List.Nodup, List.pairwise_map]
    refine hdistinct.imp_of_mem fun {a b} ha hb hne heq => hne (ItemSet.same_iff.2 ⟨?_, ?_⟩)
    · intro c
      rw [← ItemSet.mem_facts_none hg (hrange a ha), ← ItemSet.mem_facts_none hg (hrange b hb), heq]
    · intro c t
      rw [← ItemSet.mem_facts_some hg (hrange a ha), ← ItemSet.mem_facts_some hg (hrange b hb), heq]
  have hsubset : (kernels.map (ItemSet.facts g)).toFinset ⊆ (itemUniverse g).toFinset.powerset := by
    intro facts hfacts
    obtain ⟨kernel, -, rfl⟩ := List.mem_map.1 (List.mem_toFinset.1 hfacts)
    exact Finset.mem_powerset.2 (Finset.filter_subset _ _)
  have hcard := Finset.card_le_card hsubset
  rw [List.toFinset_card_of_nodup hnodup, List.length_map, Finset.card_powerset] at hcard
  refine Nat.le_trans hcard ?_
  have hlimit : Automaton.passLimit g = 2 ^ (itemUniverse g).length := by
    rw [length_itemUniverse]
    rfl
  rw [hlimit]
  exact Nat.pow_le_pow_right (by omega) (List.toFinset_card_le _)

end Counting

end ShiftReduce
