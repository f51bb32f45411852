import Mathlib.Data.List.Induction
import ShiftReduce.Closure
import ShiftReduce.Proofs.FirstSets

/-!
# Closures and transitions of item sets

An item set is read through two questions, whether it has a core and whether it has a core with a
lookahead; the order in which its items stand plays no part.  In these terms the closure of an
item set is the least one that is closed under what its items ask for, and a transition advances
the items that stand before its symbol and nothing else.

    (closure g f items).Has c ↔ ClosureCore g items c                   (has_closure_iff)
    (closure g f items).Looks c t ↔ ClosureLook g items c t             (looks_closure_iff)
    (transitions g items).find? x = some K →
      (K.find? c' = some L ↔ ∃ c, c' = c.advance ∧ … ∧ items.find? c = some L)
                                                                   (find?_of_transitions)
-/

namespace ShiftReduce

variable {g : Grammar} {f : FirstSets}

/-! ## Reading item sets -/

namespace ItemSet

def Has (items : ItemSet) (c : Core) : Prop := ∃ lookaheads, items.find? c = some lookaheads

/-- The core is in the set and `t` is one of its lookaheads. -/
def Looks (items : ItemSet) (c : Core) (t : TerminalId) : Prop :=
  ∃ lookaheads, items.find? c = some lookaheads ∧ t ∈ lookaheads

variable {items : ItemSet}

theorem Looks.has {c : Core} {t : TerminalId} (h : items.Looks c t) : items.Has c := by
  obtain ⟨lookaheads, hfind, -⟩ := h
  exact ⟨lookaheads, hfind⟩

theorem looks_iff_mem {c : Core} {lookaheads : TerminalSet} (h : items.find? c = some lookaheads)
    {t : TerminalId} : items.Looks c t ↔ t ∈ lookaheads := by
  constructor
  · rintro ⟨found, hfind, ht⟩
    obtain rfl := Option.some.inj (h.symm.trans hfind)
    exact ht
  · intro ht
    exact ⟨lookaheads, h, ht⟩

theorem has_iff_mem_keys {c : Core} : items.Has c ↔ c ∈ items.keys := by
  constructor
  · rintro ⟨lookaheads, h⟩
    exact List.mem_map.2 ⟨_, OrderedMap.find?_eq_some_iff.1 h, rfl⟩
  · intro h
    obtain ⟨⟨c', lookaheads⟩, hmem, rfl⟩ := List.mem_map.1 h
    exact ⟨lookaheads, OrderedMap.find?_eq_some_iff.2 hmem⟩

theorem has_of_mem_entries {e : Core × TerminalSet} (he : e ∈ items.entries) : items.Has e.1 :=
  ⟨e.2, OrderedMap.find?_eq_some_iff.2 he⟩

/-- The part's cores are there, each with the lookaheads that it has in the part. -/
theorem contains_iff {part : ItemSet} : items.contains part = true ↔
    ∀ c, part.Has c → items.Has c ∧ ∀ t, items.Looks c t ↔ part.Looks c t := by
  unfold contains
  rw [List.all_eq_true]
  constructor
  · rintro h c ⟨lookaheads, hfind⟩
    have hentry := h (c, lookaheads) (OrderedMap.find?_eq_some_iff.1 hfind)
    cases hfound : items.find? c with
    | none => simp [hfound] at hentry
    | some found =>
      simp only [hfound] at hentry
      refine ⟨⟨found, hfound⟩, fun t => ?_⟩
      rw [looks_iff_mem hfound, looks_iff_mem hfind]
      exact OrderedSet.sameMembers_iff.1 hentry t
  · rintro h ⟨c, lookaheads⟩ hmem
    have hfind : part.find? c = some lookaheads := OrderedMap.find?_eq_some_iff.2 hmem
    obtain ⟨⟨found, hfound⟩, hlooks⟩ := h c ⟨lookaheads, hfind⟩
    simp only [hfound]
    refine OrderedSet.sameMembers_iff.2 fun t => ?_
    rw [← looks_iff_mem hfound, ← looks_iff_mem hfind]
    exact hlooks t

/-- Equal item sets have the same cores with the same lookaheads. -/
theorem same_iff {a b : ItemSet} : a.same b = true ↔
    (∀ c, a.Has c ↔ b.Has c) ∧ ∀ c t, a.Looks c t ↔ b.Looks c t := by
  unfold same
  rw [Bool.and_eq_true, contains_iff, contains_iff]
  constructor
  · rintro ⟨hab, hba⟩
    refine ⟨fun c => ⟨fun h => (hba c h).1, fun h => (hab c h).1⟩, fun c t => ⟨?_, ?_⟩⟩
    · intro h
      exact ((hba c h.has).2 t).2 h
    · intro h
      exact ((hab c h.has).2 t).2 h
  · rintro ⟨hhas, hlooks⟩
    exact ⟨fun c h => ⟨(hhas c).2 h, fun t => hlooks c t⟩,
      fun c h => ⟨(hhas c).1 h, fun t => (hlooks c t).symm⟩⟩

end ItemSet

/-! ## Adding an item -/

section Weights

variable {κ ν : Type} [DecidableEq κ] (weight : κ × ν → Nat) {k : κ} (f : Option ν → ν)

theorem total_upsertBinding_of_none {l : List (κ × ν)} (h : bindingOf? k l = none) :
    total weight (upsertBinding k f l) = total weight l + weight (k, f none) := by
  induction l with
  | nil => simp [upsertBinding, total]
  | cons e l ih =>
    obtain ⟨k', v⟩ := e
    by_cases hk : k' = k
    · simp [bindingOf?, hk] at h
    · simp only [bindingOf?, if_neg hk] at h
      simp only [upsertBinding, if_neg hk, total, ih h]
      omega

theorem total_upsertBinding_of_some {l : List (κ × ν)} {v : ν} (h : bindingOf? k l = some v) :
    total weight (upsertBinding k f l) + weight (k, v) =
      total weight l + weight (k, f (some v)) := by
  induction l with
  | nil => simp [bindingOf?] at h
  | cons e l ih =>
    obtain ⟨k', v'⟩ := e
    by_cases hk : k' = k
    · subst hk
      simp only [bindingOf?, if_true, Option.some.injEq] at h
      subst h
      simp only [upsertBinding, if_true, total]
      omega
    · simp only [bindingOf?, if_neg hk] at h
      have := ih h
      simp only [upsertBinding, if_neg hk, total]
      omega

end Weights

namespace ItemSet

theorem weight_insert_of_none {items : ItemSet} {c : Core} (h : items.find? c = none)
    (lookaheads : TerminalSet) :
    weight (items.insert c lookaheads) = items.weight + (lookaheads.size + 1) :=
  total_upsertBinding_of_none _ _ h

theorem weight_insert_of_some {items : ItemSet} {c : Core} {old : TerminalSet}
    (h : items.find? c = some old) (lookaheads : TerminalSet) :
    weight (items.insert c lookaheads) + (old.size + 1) =
      items.weight + (lookaheads.size + 1) :=
  total_upsertBinding_of_some _ _ h

end ItemSet

section AddItem

variable {items : ItemSet} {item : Core × TerminalSet}

theorem find?_addItem (c : Core) : (addItem items item).find? c =
    if c = item.1 then some (match items.find? item.1 with
      | none => item.2
      | some old => old.union item.2)
    else items.find? c := by
  unfold addItem
  cases hold : items.find? item.1 with
  | none => exact OrderedMap.find?_insert items item.1 c item.2
  | some old =>
    simp only
    split
    · next hsubset =>
      rw [OrderedSet.union_of_subset (OrderedSet.subset_iff.1 hsubset)]
      by_cases hc : c = item.1
      · rw [if_pos hc, hc, hold]
      · rw [if_neg hc]
    · exact OrderedMap.find?_insert items item.1 c _

theorem has_addItem {c : Core} : (addItem items item).Has c ↔ items.Has c ∨ c = item.1 := by
  unfold ItemSet.Has
  rw [find?_addItem]
  by_cases hc : c = item.1
  · simp [hc]
  · simp [hc]

theorem looks_addItem {c : Core} {t : TerminalId} :
    (addItem items item).Looks c t ↔ items.Looks c t ∨ (c = item.1 ∧ t ∈ item.2) := by
  unfold ItemSet.Looks
  rw [find?_addItem]
  by_cases hc : c = item.1
  · subst hc
    cases items.find? item.1 <;> simp
  · simp [hc]

theorem weight_le_addItem (items : ItemSet) (item : Core × TerminalSet) :
    items.weight ≤ (addItem items item).weight := by
  unfold addItem
  cases hold : items.find? item.1 with
  | none =>
    have := ItemSet.weight_insert_of_none hold item.2
    simp only
    omega
  | some old =>
    simp only
    split
    · exact Nat.le_refl _
    · have := ItemSet.weight_insert_of_some hold (old.union item.2)
      have hgrows := OrderedSet.size_le_size_union old item.2
      omega

/-- Adding an item that adds no weight adds nothing. -/
theorem addItem_eq_of_weight (items : ItemSet) (item : Core × TerminalSet)
    (h : (addItem items item).weight = items.weight) : addItem items item = items := by
  unfold addItem at h ⊢
  cases hold : items.find? item.1 with
  | none =>
    have := ItemSet.weight_insert_of_none hold item.2
    simp only [hold] at h
    omega
  | some old =>
    simp only [hold] at h ⊢
    split
    · rfl
    · next hsubset =>
      rw [if_neg hsubset] at h
      have := ItemSet.weight_insert_of_some hold (old.union item.2)
      have hunion : old.union item.2 = old := OrderedSet.union_eq_of_size (by omega)
      exact absurd (OrderedSet.subset_iff.2 fun t ht => OrderedSet.mem_of_union_eq hunion ht) hsubset

end AddItem

/-! ## The least closed item set -/

/-- The cores of the least item set that holds `items` and all that its items ask for. -/
inductive ClosureCore (g : Grammar) (items : ItemSet) : Core → Prop
  | base {c : Core} : items.Has c → ClosureCore g items c
  | expand {c : Core} {p : Production} : ClosureCore g items c →
      c.next? g = some (.nonterminal p.left) → p ∈ g.productions →
      ClosureCore g items (Core.start p.id)

/-- The lookaheads in the least item set that holds `items` and all that its items ask for. -/
inductive ClosureLook (g : Grammar) (items : ItemSet) : Core → TerminalId → Prop
  | base {c : Core} {t : TerminalId} : items.Looks c t → ClosureLook g items c t
  | first {c : Core} {p : Production} {t : TerminalId} : ClosureCore g items c →
      c.next? g = some (.nonterminal p.left) → p ∈ g.productions →
      Begins g.HasRule (c.rest g) (.terminal t) → ClosureLook g items (Core.start p.id) t
  | inherit {c : Core} {p : Production} {t : TerminalId} : ClosureLook g items c t →
      c.next? g = some (.nonterminal p.left) → p ∈ g.productions →
      Derives g.HasRule (c.rest g) [] → ClosureLook g items (Core.start p.id) t

/-- Closing an item set leaves its advanced items alone. -/
theorem ClosureCore.has_of_marker_pos {items : ItemSet} {c : Core} (h : ClosureCore g items c)
    (hpos : 0 < c.marker) : items.Has c := by
  cases h with
  | base h => exact h
  | expand _ _ _ => exact absurd hpos (Nat.lt_irrefl 0)

theorem ClosureLook.looks_of_marker_pos {items : ItemSet} {c : Core} {t : TerminalId}
    (h : ClosureLook g items c t) (hpos : 0 < c.marker) : items.Looks c t := by
  cases h with
  | base h => exact h
  | first _ _ _ _ => exact absurd hpos (Nat.lt_irrefl 0)
  | inherit _ _ _ _ => exact absurd hpos (Nat.lt_irrefl 0)

theorem mem_demands {c : Core} {lookaheads : TerminalSet} {item : Core × TerminalSet} :
    item ∈ demands g f c lookaheads ↔ ∃ p ∈ g.productions,
      c.next? g = some (.nonterminal p.left) ∧
      item = (Core.start p.id, f.firstBefore (c.rest g) lookaheads) := by
  unfold demands
  split
  · next y hy =>
    rw [List.mem_map]
    constructor
    · rintro ⟨p, hp, rfl⟩
      obtain ⟨hmem, rfl⟩ := Grammar.mem_productionsOf.1 hp
      exact ⟨p, hmem, hy, rfl⟩
    · rintro ⟨p, hp, hnext, rfl⟩
      have hleft : y = p.left := SymbolId.nonterminal.inj (Option.some.inj (hy.symm.trans hnext))
      exact ⟨p, Grammar.mem_productionsOf.2 ⟨hp, hleft.symm⟩, rfl⟩
  · next hnone =>
    constructor
    · intro h
      cases h
    · rintro ⟨p, -, hnext, -⟩
      exact absurd hnext (hnone p.left)

/-- An item set that extends `items` by nothing but what the closure holds. -/
structure Within (g : Grammar) (items part : ItemSet) : Prop where
  has : ∀ {c}, part.Has c → ClosureCore g items c
  looks : ∀ {c t}, part.Looks c t → ClosureLook g items c t

section Closure

variable (hg : g.WellFormed) (hf : f.Exact g) {items : ItemSet}

theorem within_self : Within g items items := ⟨.base, .base⟩

include hf in
theorem within_closurePass {part : ItemSet} (h : Within g items part) :
    Within g items (closurePass g f part) := by
  refine foldl_keeps (Within g items) (fun acc item hitem hacc => ?_) h
  obtain ⟨⟨c, lookaheads⟩, hentry, hdemand⟩ := List.mem_flatMap.1 hitem
  obtain ⟨p, hp, hnext, rfl⟩ := mem_demands.1 hdemand
  have hfind : part.find? c = some lookaheads := OrderedMap.find?_eq_some_iff.2 hentry
  have hcore : ClosureCore g items c := h.has ⟨lookaheads, hfind⟩
  constructor
  · intro c' hc'
    rcases has_addItem.1 hc' with hc' | rfl
    · exact hacc.has hc'
    · exact .expand hcore hnext hp
  · intro c' t hc'
    rcases looks_addItem.1 hc' with hc' | ⟨rfl, ht⟩
    · exact hacc.looks hc'
    · rcases hf.mem_firstBefore_iff.1 ht with hfirst | ⟨hnil, ht⟩
      · exact .first hcore hnext hp hfirst
      · exact .inherit (h.looks ⟨lookaheads, hfind, ht⟩) hnext hp hnil

include hf in
theorem within_closure : Within g items (closure g f items) :=
  saturate_induction (P := Within g items) (fun _ h => within_closurePass hf h) _ _ within_self

/-- The cores of the closure are those of `items` and the starts of rules. -/
theorem ClosureCore.mem_cores {c : Core} (h : ClosureCore g items c) :
    c ∈ items.keys ++ g.productions.toList.map fun p => Core.start p.id := by
  cases h with
  | base h => exact List.mem_append_left _ (ItemSet.has_iff_mem_keys.1 h)
  | expand _ _ hp =>
    exact List.mem_append_right _ (List.mem_map.2 ⟨_, Array.mem_toList_iff.2 hp, rfl⟩)

include hg in
/-- The lookaheads of the closure are those of `items` and terminals of the grammar. -/
theorem ClosureLook.mem_lookaheads {c : Core} {t : TerminalId} (h : ClosureLook g items c t) :
    t ∈ List.range g.terminals.size ++ items.entries.flatMap fun e => e.2.toList := by
  induction h with
  | base h =>
    obtain ⟨lookaheads, hfind, ht⟩ := h
    refine List.mem_append_right _ (List.mem_flatMap.2 ⟨_, OrderedMap.find?_eq_some_iff.1 hfind, ht⟩)
  | first _ _ _ hbegins =>
    refine List.mem_append_left _ (List.mem_range.2 (hg.lt_of_begins (fun x hx => ?_) hbegins))
    exact hg.has_of_mem_right_id (List.mem_of_mem_drop hx)
  | inherit _ _ _ _ ih => exact ih

theorem length_lookaheads_le (l : List (Core × TerminalSet)) :
    (l.flatMap fun e => e.2.toList).length ≤ total (fun e => e.2.size + 1) l := by
  induction l with
  | nil => exact Nat.zero_le _
  | cons e l ih =>
    have hsize : e.2.toList.length = e.2.size := rfl
    rw [List.flatMap_cons, List.length_append, total, hsize]
    omega

include hg in
theorem Within.weight_le {part : ItemSet} (h : Within g items part) :
    part.weight ≤ (items.size + g.productions.size) * (g.terminals.size + items.weight + 1) := by
  have hcount : part.entries.length ≤ items.size + g.productions.size := by
    have hsubset := part.nodup_keys.length_le_of_subset fun c hc =>
      (h.has (ItemSet.has_iff_mem_keys.2 hc)).mem_cores
    simpa [OrderedMap.keys, OrderedMap.size] using hsubset
  have hsize : ∀ e ∈ part.entries, e.2.size + 1 ≤ g.terminals.size + items.weight + 1 := by
    intro e he
    have hfind := OrderedMap.find?_eq_some_iff.2 he
    have hle := OrderedSet.size_le_length fun t ht =>
      (h.looks ⟨e.2, hfind, ht⟩).mem_lookaheads hg
    have hlength := length_lookaheads_le items.entries
    rw [List.length_append, List.length_range] at hle
    have hweight : items.weight = total (fun e => e.2.size + 1) items.entries := rfl
    omega
  exact Nat.le_trans (total_le _ hsize) (Nat.mul_le_mul_right _ hcount)

include hg hf in
/-- The closure is left alone by everything its items ask for. -/
theorem addItem_closure {c : Core} {lookaheads : TerminalSet}
    (hfind : (closure g f items).find? c = some lookaheads) {item : Core × TerminalSet}
    (hitem : item ∈ demands g f c lookaheads) :
    addItem (closure g f items) item = closure g f items := by
  have hfixed : ∀ item ∈ (closure g f items).entries.flatMap (fun e => demands g f e.1 e.2),
      addItem (closure g f items) item = closure g f items :=
    step_saturate weight_le_addItem addItem_eq_of_weight (fun _ => rfl) (Within g items)
      (fun _ h => within_closurePass hf h) (fun _ h => h.weight_le hg) within_self (by omega)
  exact hfixed item (List.mem_flatMap.2 ⟨_, OrderedMap.find?_eq_some_iff.1 hfind, hitem⟩)

theorem extends_closure : (∀ c, items.Has c → (closure g f items).Has c) ∧
    ∀ c t, items.Looks c t → (closure g f items).Looks c t := by
  let P : ItemSet → Prop := fun part =>
    (∀ c, items.Has c → part.Has c) ∧ ∀ c t, items.Looks c t → part.Looks c t
  refine saturate_induction (P := P) (fun part h => ?_) _ _ ⟨fun _ h => h, fun _ _ h => h⟩
  refine foldl_keeps P (fun acc item _ hacc => ?_) h
  exact ⟨fun c hc => has_addItem.2 (Or.inl (hacc.1 c hc)),
    fun c t hc => looks_addItem.2 (Or.inl (hacc.2 c t hc))⟩

include hg hf in
theorem has_closure_iff {c : Core} : (closure g f items).Has c ↔ ClosureCore g items c := by
  constructor
  · exact (within_closure hf).has
  · intro h
    induction h with
    | base h => exact extends_closure.1 _ h
    | expand _ hnext hp ih =>
      obtain ⟨lookaheads, hfind⟩ := ih
      rw [← addItem_closure hg hf hfind (mem_demands.2 ⟨_, hp, hnext, rfl⟩)]
      exact has_addItem.2 (Or.inr rfl)

include hg hf in
theorem looks_closure_iff {c : Core} {t : TerminalId} :
    (closure g f items).Looks c t ↔ ClosureLook g items c t := by
  constructor
  · exact (within_closure hf).looks
  · intro h
    induction h with
    | base h => exact extends_closure.2 _ _ h
    | first hcore hnext hp hbegins =>
      obtain ⟨lookaheads, hfind⟩ := (has_closure_iff hg hf).2 hcore
      rw [← addItem_closure hg hf hfind (mem_demands.2 ⟨_, hp, hnext, rfl⟩)]
      exact looks_addItem.2 (Or.inr ⟨rfl, hf.mem_firstBefore_iff.2 (Or.inl hbegins)⟩)
    | inherit _ hnext hp hnil ih =>
      obtain ⟨lookaheads, hfind, ht⟩ := ih
      rw [← addItem_closure hg hf hfind (mem_demands.2 ⟨_, hp, hnext, rfl⟩)]
      exact looks_addItem.2 (Or.inr ⟨rfl, hf.mem_firstBefore_iff.2 (Or.inr ⟨hnil, ht⟩)⟩)

end Closure

/-! ## Transitions -/

/-- The items of a list that stand before `x`, advanced over it. -/
def advanced (g : Grammar) (x : SymbolId) (l : List (Core × TerminalSet)) :
    List (Core × TerminalSet) :=
  (l.filter fun e => e.1.next? g = some x).map fun e => (e.1.advance, e.2)

theorem mem_advanced {x : SymbolId} {l : List (Core × TerminalSet)} {e : Core × TerminalSet} :
    e ∈ advanced g x l ↔ ∃ c, (c, e.2) ∈ l ∧ c.next? g = some x ∧ e.1 = c.advance := by
  unfold advanced
  rw [List.mem_map]
  constructor
  · rintro ⟨⟨c, lookaheads⟩, hmem, rfl⟩
    obtain ⟨hmem, hnext⟩ := List.mem_filter.1 hmem
    exact ⟨c, hmem, of_decide_eq_true hnext, rfl⟩
  · rintro ⟨c, hmem, hnext, hadvance⟩
    exact ⟨(c, e.2), List.mem_filter.2 ⟨hmem, decide_eq_true hnext⟩, by rw [← hadvance]⟩

theorem advanced_append (x : SymbolId) (l : List (Core × TerminalSet)) (e : Core × TerminalSet) :
    advanced g x (l ++ [e]) = advanced g x l ++
      if e.1.next? g = some x then [(e.1.advance, e.2)] else [] := by
  unfold advanced
  rw [List.filter_append, List.map_append]
  by_cases h : e.1.next? g = some x
  · simp [h]
  · simp [h]

theorem Core.advance_injective {c d : Core} (h : c.advance = d.advance) : c = d := by
  cases c; cases d
  simpa [Core.advance] using h

/-- Under each symbol stand the items of the list before it, advanced, in order. -/
def Gathers (g : Grammar) (l : List (Core × TerminalSet)) (kernels : OrderedMap SymbolId ItemSet) :
    Prop :=
  ∀ x, (kernels.find? x = none → advanced g x l = []) ∧
    ∀ kernel, kernels.find? x = some kernel →
      kernel.entries = advanced g x l ∧ advanced g x l ≠ []

theorem upsertBinding_of_not_mem {κ ν : Type} [DecidableEq κ] {k : κ} (f : Option ν → ν)
    {l : List (κ × ν)} (h : k ∉ l.map Prod.fst) : upsertBinding k f l = l ++ [(k, f none)] := by
  induction l with
  | nil => rfl
  | cons e l ih =>
    rw [List.map_cons, List.mem_cons, not_or] at h
    rw [upsertBinding, if_neg fun heq => h.1 heq.symm, ih h.2, List.cons_append]

theorem gathers_addTransition {l : List (Core × TerminalSet)} {e : Core × TerminalSet}
    {kernels : OrderedMap SymbolId ItemSet} (hfresh : e.1 ∉ l.map Prod.fst)
    (h : Gathers g l kernels) : Gathers g (l ++ [e]) (addTransition g kernels e) := by
  intro x
  obtain ⟨hnone, hsome⟩ := h x
  rw [advanced_append]
  unfold addTransition
  cases hnext : e.1.next? g with
  | none =>
    rw [if_neg (by simp), List.append_nil]
    exact ⟨hnone, hsome⟩
  | some y =>
    simp only [OrderedMap.find?_upsert]
    by_cases hxy : x = y
    · subst hxy
      simp only [if_true]
      refine ⟨fun hfalse => by simp at hfalse, fun kernel hkernel => ⟨?_, by simp⟩⟩
      obtain rfl := Option.some.inj hkernel
      -- No item of the list is advanced to the same core, so the new one goes to the end.
      have hold : ((kernels.find? x).getD .empty).entries = advanced g x l := by
        cases hfind : kernels.find? x with
        | none => exact (hnone hfind).symm
        | some old => exact (hsome old hfind).1
      have hnot : e.1.advance ∉ ((kernels.find? x).getD .empty).entries.map Prod.fst := by
        rw [hold, List.mem_map]
        rintro ⟨d, hd, heq⟩
        obtain ⟨c, hc, -, hadvance⟩ := mem_advanced.1 hd
        obtain rfl := Core.advance_injective (hadvance.symm.trans heq)
        exact hfresh (List.mem_map.2 ⟨_, hc, rfl⟩)
      show upsertBinding e.1.advance _ _ = _
      rw [upsertBinding_of_not_mem _ hnot, hold]
    · have hyx : ¬ y = x := fun heq => hxy heq.symm
      simp only [if_neg hxy, Option.some.injEq, if_neg hyx, List.append_nil]
      exact ⟨hnone, hsome⟩

theorem gathers_transitions (items : ItemSet) :
    Gathers g items.entries (transitions g items) := by
  unfold transitions
  have hnodup := items.nodup_keys
  generalize items.entries = l at hnodup
  induction l using List.reverseRecOn with
  | nil => exact fun x => ⟨fun _ => rfl, fun kernel hkernel => by simp at hkernel⟩
  | append_singleton l e ih =>
    rw [List.map_append, List.nodup_append] at hnodup
    rw [List.foldl_append]
    refine gathers_addTransition (fun hmem => ?_) (ih hnodup.1)
    exact hnodup.2.2 _ hmem _ (List.mem_singleton.2 rfl) rfl

section Transitions

variable {items : ItemSet} {x : SymbolId}

theorem find?_transitions_eq_none_iff :
    (transitions g items).find? x = none ↔ ∀ c, items.Has c → c.next? g ≠ some x := by
  obtain ⟨hnone, hsome⟩ := gathers_transitions items x
  constructor
  · rintro h c ⟨lookaheads, hfind⟩ hnext
    have hmem : (c.advance, lookaheads) ∈ advanced g x items.entries :=
      mem_advanced.2 ⟨c, OrderedMap.find?_eq_some_iff.1 hfind, hnext, rfl⟩
    rw [hnone h] at hmem
    cases hmem
  · intro h
    cases hfind : (transitions g items).find? x with
    | none => rfl
    | some kernel =>
      obtain ⟨e, he⟩ := List.exists_mem_of_ne_nil _ (hsome kernel hfind).2
      obtain ⟨c, hc, hnext, -⟩ := mem_advanced.1 he
      exact absurd hnext (h c ⟨e.2, OrderedMap.find?_eq_some_iff.2 hc⟩)

/-- A transition advances some item. -/
theorem exists_has_of_transitions {kernel : ItemSet}
    (h : (transitions g items).find? x = some kernel) : ∃ c, kernel.Has c := by
  obtain ⟨hentries, hne⟩ := (gathers_transitions items x).2 kernel h
  obtain ⟨e, he⟩ := List.exists_mem_of_ne_nil _ hne
  rw [← hentries] at he
  exact ⟨e.1, ItemSet.has_of_mem_entries he⟩

/-- A kernel holds the items that stand before its symbol, advanced, with their lookaheads. -/
theorem find?_of_transitions {kernel : ItemSet}
    (h : (transitions g items).find? x = some kernel) {c : Core} {lookaheads : TerminalSet} :
    kernel.find? c = some lookaheads ↔
      ∃ d, c = d.advance ∧ d.next? g = some x ∧ items.find? d = some lookaheads := by
  rw [OrderedMap.find?_eq_some_iff, ((gathers_transitions items x).2 kernel h).1, mem_advanced]
  constructor
  · rintro ⟨d, hd, hnext, hadvance⟩
    exact ⟨d, hadvance, hnext, OrderedMap.find?_eq_some_iff.2 hd⟩
  · rintro ⟨d, hadvance, hnext, hd⟩
    exact ⟨d, OrderedMap.find?_eq_some_iff.1 hd, hnext, hadvance⟩

theorem has_of_transitions {kernel : ItemSet}
    (h : (transitions g items).find? x = some kernel) {c : Core} :
    kernel.Has c ↔ ∃ d, c = d.advance ∧ d.next? g = some x ∧ items.Has d := by
  constructor
  · rintro ⟨lookaheads, hfind⟩
    obtain ⟨d, hadvance, hnext, hd⟩ := (find?_of_transitions h).1 hfind
    exact ⟨d, hadvance, hnext, lookaheads, hd⟩
  · rintro ⟨d, hadvance, hnext, lookaheads, hd⟩
    exact ⟨lookaheads, (find?_of_transitions h).2 ⟨d, hadvance, hnext, hd⟩⟩

theorem looks_of_transitions {kernel : ItemSet}
    (h : (transitions g items).find? x = some kernel) {c : Core} {t : TerminalId} :
    kernel.Looks c t ↔ ∃ d, c = d.advance ∧ d.next? g = some x ∧ items.Looks d t := by
  constructor
  · rintro ⟨lookaheads, hfind, ht⟩
    obtain ⟨d, hadvance, hnext, hd⟩ := (find?_of_transitions h).1 hfind
    exact ⟨d, hadvance, hnext, lookaheads, hd, ht⟩
  · rintro ⟨d, hadvance, hnext, lookaheads, hd, ht⟩
    exact ⟨lookaheads, (find?_of_transitions h).2 ⟨d, hadvance, hnext, hd⟩, ht⟩

end Transitions

end ShiftReduce
