import ShiftReduce.FirstSets
import ShiftReduce.Proofs.Growth
import ShiftReduce.Proofs.Numbered

/-!
# Nullable nonterminals and First sets are exact

The computed sets are compared with derivations over the numbered rules.  That they hold nothing
else is kept by every step of a pass; that they hold everything is read off the last pass, which
changes nothing, by induction on the unfolding of a derivation.

    n ∈ nulls ↔ n derives the empty string                      (mem_expandNulls_iff)
    t ∈ first n ↔ n derives a string that begins with t         (exact_ofGrammar)
    t ∈ firstBefore α L ↔ α derives a string that begins with t, or the empty one, and t ∈ L
                                                                (mem_firstBefore_iff)
-/

namespace ShiftReduce

variable {g : Grammar}

/-! ## Nullable nonterminals -/

theorem nullableRight_terminal_cons (nulls : NonterminalSet) (t : TerminalId)
    (α : List SymbolId) : nullableRight nulls (.terminal t :: α) = false := by
  simp [nullableRight]

theorem nullableRight_nonterminal_cons {nulls : NonterminalSet} {n : NonterminalId}
    {α : List SymbolId} : nullableRight nulls (.nonterminal n :: α) = true ↔
      n ∈ nulls ∧ nullableRight nulls α = true := by
  simp [nullableRight]

theorem derives_nil_of_nullableRight {nulls : NonterminalSet}
    (sound : ∀ n, n ∈ nulls → Derives g.HasRule [.nonterminal n] []) {α : List SymbolId}
    (h : nullableRight nulls α = true) : Derives g.HasRule α [] := by
  induction α with
  | nil => exact Derives.refl []
  | cons x α ih =>
    cases x with
    | terminal t =>
      rw [nullableRight_terminal_cons] at h
      cases h
    | nonterminal n =>
      obtain ⟨hn, hα⟩ := nullableRight_nonterminal_cons.1 h
      exact derives_cons_nil_iff.2 ⟨sound n hn, ih hα⟩

/-- A set that is closed under the rules holds all that derives the empty string. -/
theorem nullableRight_of_derives_nil {nulls : NonterminalSet}
    (closed : ∀ p ∈ g.productions, nullableRight nulls p.right = true → p.left ∈ nulls)
    {α : List SymbolId} (h : Derives g.HasRule α []) : nullableRight nulls α = true := by
  obtain ⟨n, hu⟩ := derives_iff_unfolds.1 h
  clear h
  generalize hβ : ([] : List SymbolId) = β at hu
  induction hu with
  | nil => rfl
  | keep x _ _ => cases hβ
  | @unfold x right m n β α γ hrule _ _ ihright ih =>
    obtain ⟨rfl, rfl⟩ := List.nil_eq_append_iff.1 hβ
    obtain ⟨p, hp, rfl, rfl⟩ := hrule
    exact nullableRight_nonterminal_cons.2 ⟨closed p hp (ihright rfl), ih rfl⟩

/-- What one rule adds to the nullable nonterminals. -/
def addNull (nulls : NonterminalSet) (p : Production) : NonterminalSet :=
  if nullableRight nulls p.right then nulls.insert p.left else nulls

theorem nullPass_eq (nulls : NonterminalSet) :
    nullPass g nulls = g.productions.toList.foldl addNull nulls :=
  (Array.foldl_toList _).symm

theorem size_le_size_addNull (nulls : NonterminalSet) (p : Production) :
    nulls.size ≤ (addNull nulls p).size := by
  unfold addNull
  split
  · rw [OrderedSet.size_insert]
    split <;> omega
  · exact Nat.le_refl _

theorem addNull_eq_of_size (nulls : NonterminalSet) (p : Production)
    (h : (addNull nulls p).size = nulls.size) : addNull nulls p = nulls := by
  unfold addNull at h ⊢
  split
  · next hnull =>
    rw [if_pos hnull, OrderedSet.size_insert] at h
    by_cases hmem : p.left ∈ nulls
    · exact OrderedSet.insert_of_mem hmem
    · rw [if_neg hmem] at h
      omega
  · rfl

theorem mem_addNull {nulls : NonterminalSet} {p : Production} {n : NonterminalId} :
    n ∈ addNull nulls p ↔ n ∈ nulls ∨ (nullableRight nulls p.right = true ∧ n = p.left) := by
  unfold addNull
  split
  · next h => simp [h]
  · next h => simp [h]

/-- The set holds members of `nulls` and left sides of rules only. -/
def NullsWithin (g : Grammar) (nulls s : NonterminalSet) : Prop :=
  ∀ n, n ∈ s → n ∈ nulls.toList ++ g.productions.toList.map (·.left)

theorem nullsWithin_self (nulls : NonterminalSet) : NullsWithin g nulls nulls :=
  fun _ hn => List.mem_append_left _ hn

theorem nullsWithin_nullPass {nulls s : NonterminalSet} (h : NullsWithin g nulls s) :
    NullsWithin g nulls (nullPass g s) := by
  rw [nullPass_eq]
  refine foldl_keeps (NullsWithin g nulls) (fun s p hp hs n hn => ?_) h
  rcases mem_addNull.1 hn with hn | ⟨-, rfl⟩
  · exact hs n hn
  · exact List.mem_append_right _ (List.mem_map_of_mem hp)

theorem NullsWithin.size_le {nulls s : NonterminalSet} (h : NullsWithin g nulls s) :
    s.size ≤ nulls.size + g.productions.size := by
  have hlength := OrderedSet.size_le_length h
  simpa [OrderedSet.size] using hlength

theorem expandNulls_closed (nulls : NonterminalSet) {p : Production} (hp : p ∈ g.productions)
    (h : nullableRight (expandNulls g nulls).1 p.right = true) :
    p.left ∈ (expandNulls g nulls).1 := by
  have hfixed : ∀ q ∈ g.productions.toList,
      addNull (expandNulls g nulls).1 q = (expandNulls g nulls).1 :=
    step_saturate size_le_size_addNull addNull_eq_of_size nullPass_eq (NullsWithin g nulls)
      (fun _ hs => nullsWithin_nullPass hs) (fun _ hs => hs.size_le) (nullsWithin_self nulls)
      (by omega)
  rw [← hfixed p (Array.mem_toList_iff.2 hp)]
  exact mem_addNull.2 (Or.inr ⟨h, rfl⟩)

theorem expandNulls_sound {nulls : NonterminalSet}
    (sound : ∀ n, n ∈ nulls → Derives g.HasRule [.nonterminal n] []) :
    ∀ n, n ∈ (expandNulls g nulls).1 → Derives g.HasRule [.nonterminal n] [] := by
  let P : NonterminalSet → Prop := fun s => ∀ n, n ∈ s → Derives g.HasRule [.nonterminal n] []
  refine saturate_induction (P := P) (fun s hs => ?_) _ _ sound
  rw [nullPass_eq]
  refine foldl_keeps P (fun s p hp hs n hn => ?_) hs
  rcases mem_addNull.1 hn with hn | ⟨hnull, rfl⟩
  · exact hs n hn
  · have hrule : g.HasRule (.nonterminal p.left) p.right :=
      ⟨p, Array.mem_toList_iff.1 hp, rfl, rfl⟩
    exact (Derives.of_rule hrule).trans (derives_nil_of_nullableRight hs hnull)

/-- From nullable nonterminals on, all nullable nonterminals are found. -/
theorem mem_expandNulls_iff {nulls : NonterminalSet}
    (sound : ∀ n, n ∈ nulls → Derives g.HasRule [.nonterminal n] []) {n : NonterminalId} :
    n ∈ (expandNulls g nulls).1 ↔ Derives g.HasRule [.nonterminal n] [] := by
  constructor
  · exact expandNulls_sound sound n
  · intro h
    have hclosed := nullableRight_of_derives_nil (fun p hp => expandNulls_closed nulls hp) h
    exact (nullableRight_nonterminal_cons.1 hclosed).1

/-! ## First sets -/

section AddFirst

variable {nulls : NonterminalSet} {sets : Array TerminalSet}

theorem mem_addFirst_of_mem {α : List SymbolId} {s : TerminalSet} {t : TerminalId} (h : t ∈ s) :
    t ∈ (addFirst nulls sets α s).1 := by
  induction α generalizing s with
  | nil => exact h
  | cons x α ih =>
    cases x with
    | terminal u => exact OrderedSet.mem_insert.2 (Or.inl h)
    | nonterminal n =>
      have hunion : t ∈ s.union (sets.getD n .empty) := OrderedSet.mem_union.2 (Or.inl h)
      simp only [addFirst]
      split
      · exact ih hunion
      · exact hunion

theorem addFirst_snd (α : List SymbolId) (s : TerminalSet) :
    (addFirst nulls sets α s).2 = nullableRight nulls α := by
  induction α generalizing s with
  | nil => rfl
  | cons x α ih =>
    cases x with
    | terminal t => exact (nullableRight_terminal_cons nulls t α).symm
    | nonterminal n =>
      simp only [addFirst]
      split
      · next hn =>
        rw [ih, Bool.eq_iff_iff, nullableRight_nonterminal_cons]
        exact ⟨fun h => ⟨hn, h⟩, And.right⟩
      · next hn =>
        rw [Bool.eq_iff_iff, nullableRight_nonterminal_cons]
        exact ⟨fun h => absurd h Bool.false_ne_true, fun h => absurd h.1 hn⟩

theorem begins_of_mem_addFirst
    (nullable : ∀ n, n ∈ nulls → Derives g.HasRule [.nonterminal n] [])
    (sound : ∀ n t, t ∈ sets.getD n .empty → Begins g.HasRule [.nonterminal n] (.terminal t))
    {α : List SymbolId} {s : TerminalSet} {t : TerminalId}
    (h : t ∈ (addFirst nulls sets α s).1) : t ∈ s ∨ Begins g.HasRule α (.terminal t) := by
  induction α generalizing s with
  | nil => exact Or.inl h
  | cons x α ih =>
    cases x with
    | terminal u =>
      rcases OrderedSet.mem_insert.1 h with h | rfl
      · exact Or.inl h
      · exact Or.inr ⟨α, Derives.refl _⟩
    | nonterminal n =>
      have hunion : t ∈ s.union (sets.getD n .empty) →
          t ∈ s ∨ Begins g.HasRule (.nonterminal n :: α) (.terminal t) := fun h =>
        (OrderedSet.mem_union.1 h).imp id fun h => begins_cons_iff.2 (Or.inl (sound n t h))
      simp only [addFirst] at h
      split at h
      · next hn =>
        rcases ih h with h | h
        · exact hunion h
        · exact Or.inr (begins_cons_iff.2 (Or.inr ⟨nullable n hn, h⟩))
      · exact hunion h

/-- Sets that are closed under the rules hold all that begins a derived string. -/
theorem mem_addFirst_of_begins
    (nullable : ∀ n, n ∈ nulls ↔ Derives g.HasRule [.nonterminal n] [])
    (closed : ∀ p ∈ g.productions, ∀ t, t ∈ (addFirst nulls sets p.right .empty).1 →
      t ∈ sets.getD p.left .empty)
    {α : List SymbolId} {s : TerminalSet} {t : TerminalId}
    (h : Begins g.HasRule α (.terminal t)) : t ∈ (addFirst nulls sets α s).1 := by
  obtain ⟨δ, hδ⟩ := h
  obtain ⟨n, hu⟩ := derives_iff_unfolds.1 hδ
  clear hδ
  generalize hε : SymbolId.terminal t :: δ = ε at hu
  induction hu generalizing s δ with
  | nil => cases hε
  | keep x _ _ =>
    obtain ⟨rfl, -⟩ := List.cons.inj hε
    exact OrderedSet.mem_insert.2 (Or.inr rfl)
  | @unfold x right m n β α γ hrule hright _ ihright ih =>
    obtain ⟨p, hp, rfl, rfl⟩ := hrule
    cases β with
    | cons y β =>
      obtain ⟨rfl, -⟩ := List.cons.inj hε
      have hfirst : t ∈ sets.getD p.left .empty := closed p hp t (ihright β rfl)
      have hunion : t ∈ s.union (sets.getD p.left .empty) := OrderedSet.mem_union.2 (Or.inr hfirst)
      simp only [addFirst]
      split
      · exact mem_addFirst_of_mem hunion
      · exact hunion
    | nil =>
      have hrule : g.HasRule (.nonterminal p.left) p.right := ⟨p, hp, rfl, rfl⟩
      have hnull : p.left ∈ nulls :=
        (nullable _).2 ((Derives.of_rule hrule).trans hright.derives)
      simp only [addFirst, if_pos hnull]
      exact ih δ hε

end AddFirst

/-- What one rule adds to the First sets. -/
def addFirstOf (nulls : NonterminalSet) (sets : Array TerminalSet) (p : Production) :
    Array TerminalSet :=
  let added := (addFirst nulls sets p.right .empty).1
  sets.modify p.left (·.union added)

section Passes

variable {nulls : NonterminalSet}

theorem firstPass_eq (sets : Array TerminalSet) :
    firstPass g nulls sets = g.productions.toList.foldl (addFirstOf nulls) sets :=
  (Array.foldl_toList _).symm

theorem totalSize_le_addFirstOf (sets : Array TerminalSet) (p : Production) :
    totalSize sets ≤ totalSize (addFirstOf nulls sets p) := by
  unfold totalSize addFirstOf
  rw [Array.toList_modify]
  exact total_modify_of_le _ (fun s => OrderedSet.size_le_size_union s _) _ _

theorem addFirstOf_eq_of_totalSize (sets : Array TerminalSet) (p : Production)
    (h : totalSize (addFirstOf nulls sets p) = totalSize sets) : addFirstOf nulls sets p = sets := by
  unfold totalSize addFirstOf at h
  rw [Array.toList_modify] at h
  refine Array.toList_inj.1 ?_
  unfold addFirstOf
  rw [Array.toList_modify]
  exact modify_eq_of_total _ (fun s => OrderedSet.union_eq_of_size) h

theorem size_addFirstOf (sets : Array TerminalSet) (p : Production) :
    (addFirstOf nulls sets p).size = sets.size := by
  simp [addFirstOf]

theorem mem_addFirstOf {sets : Array TerminalSet} {p : Production} {n : NonterminalId}
    {t : TerminalId} (h : t ∈ (addFirstOf nulls sets p).getD n .empty) :
    t ∈ sets.getD n .empty ∨
      (n = p.left ∧ t ∈ (addFirst nulls sets p.right .empty).1) := by
  simp only [addFirstOf, Array.getD_eq_getD_getElem?, Array.getElem?_modify] at h ⊢
  split at h
  · next heq =>
    cases hs : sets[n]? with
    | none =>
      rw [hs] at h
      exact Or.inl h
    | some s =>
      rw [hs] at h
      rcases OrderedSet.mem_union.1 h with h | h
      · exact Or.inl h
      · exact Or.inr ⟨heq.symm, h⟩
  · exact Or.inl h

/-- A rule that adds nothing has added all it can. -/
theorem mem_of_addFirstOf_eq {sets : Array TerminalSet} {p : Production}
    (hlt : p.left < sets.size) (h : addFirstOf nulls sets p = sets) {t : TerminalId}
    (ht : t ∈ (addFirst nulls sets p.right .empty).1) : t ∈ sets.getD p.left .empty := by
  have hget := congrArg (·.getD p.left OrderedSet.empty) h
  simp only [addFirstOf, Array.getD_eq_getD_getElem?, Array.getElem?_modify, if_true,
    Array.getElem?_eq_getElem hlt, Option.map_some, Option.getD_some] at hget ⊢
  exact OrderedSet.mem_of_union_eq hget ht

end Passes

namespace FirstSets

/-- The sets agree with the derivations over the numbered rules. -/
structure Exact (f : FirstSets) (g : Grammar) : Prop where
  mem_nulls_iff : ∀ {n}, n ∈ f.nulls ↔ Derives g.HasRule [.nonterminal n] []
  mem_first_iff : ∀ {n t}, t ∈ f.first n ↔ Begins g.HasRule [.nonterminal n] (.terminal t)

/-- One First set for each nonterminal, holding only what begins a derived string. -/
def SoundSets (g : Grammar) (sets : Array TerminalSet) : Prop :=
  sets.size = g.nonterminals.size ∧
    ∀ n t, t ∈ sets.getD n .empty → Begins g.HasRule [.nonterminal n] (.terminal t)

theorem soundSets_replicate :
    SoundSets g (Array.replicate g.nonterminals.size OrderedSet.empty) := by
  refine ⟨Array.size_replicate, fun n t ht => ?_⟩
  rw [Array.getD_eq_getD_getElem?, Array.getElem?_replicate] at ht
  split at ht <;> exact absurd ht (OrderedSet.not_mem_empty t)

theorem soundSets_firstPass {nulls : NonterminalSet}
    (nullable : ∀ n, n ∈ nulls → Derives g.HasRule [.nonterminal n] [])
    {sets : Array TerminalSet} (h : SoundSets g sets) : SoundSets g (firstPass g nulls sets) := by
  rw [firstPass_eq]
  refine foldl_keeps (SoundSets g) (fun sets p hp hsets => ?_) h
  refine ⟨(size_addFirstOf sets p).trans hsets.1, fun n t ht => ?_⟩
  rcases mem_addFirstOf ht with hold | ⟨rfl, hadded⟩
  · exact hsets.2 n t hold
  · have hrule : g.HasRule (.nonterminal p.left) p.right :=
      ⟨p, Array.mem_toList_iff.1 hp, rfl, rfl⟩
    rcases begins_of_mem_addFirst nullable hsets.2 hadded with hempty | hbegins
    · exact absurd hempty (OrderedSet.not_mem_empty t)
    · exact begins_of_derives (Derives.of_rule hrule) hbegins

/-- No First set holds more than all terminals. -/
theorem totalSize_le (hg : g.WellFormed) {sets : Array TerminalSet} (h : SoundSets g sets) :
    totalSize sets ≤ g.nonterminals.size * g.terminals.size := by
  have hsize : ∀ s ∈ sets.toList, s.size ≤ g.terminals.size := by
    intro s hs
    obtain ⟨n, hn⟩ := List.mem_iff_getElem?.1 hs
    have hlt : n < g.nonterminals.size := by
      rw [← h.1, ← Array.length_toList]
      exact (List.getElem?_eq_some_iff.1 hn).1
    refine OrderedSet.size_le_of_forall_lt fun t ht => ?_
    refine hg.lt_of_begins (fun x hx => ?_) (h.2 n t ?_)
    · obtain rfl := List.mem_singleton.1 hx
      exact hlt
    · rw [Array.getD_eq_getD_getElem?, ← Array.getElem?_toList, hn]
      exact ht
  have := total_le OrderedSet.size hsize
  rwa [Array.length_toList, h.1] at this

theorem mem_nulls_ofGrammar {n : NonterminalId} :
    n ∈ (ofGrammar g).nulls ↔ Derives g.HasRule [.nonterminal n] [] :=
  mem_expandNulls_iff fun n hn => absurd hn (OrderedSet.not_mem_empty n)

theorem soundSets_ofGrammar : SoundSets g (ofGrammar g).sets :=
  saturate_induction (P := SoundSets g)
    (fun _ hs => soundSets_firstPass (fun _ => mem_nulls_ofGrammar.1) hs) _ _ soundSets_replicate

theorem first_closed (hg : g.WellFormed) {p : Production} (hp : p ∈ g.productions)
    {t : TerminalId} (h : t ∈ (addFirst (ofGrammar g).nulls (ofGrammar g).sets p.right .empty).1) :
    t ∈ (ofGrammar g).first p.left := by
  have hfixed : ∀ q ∈ g.productions.toList,
      addFirstOf (ofGrammar g).nulls (ofGrammar g).sets q = (ofGrammar g).sets :=
    step_saturate totalSize_le_addFirstOf addFirstOf_eq_of_totalSize firstPass_eq (SoundSets g)
      (fun _ hs => soundSets_firstPass (fun _ => mem_nulls_ofGrammar.1) hs)
      (fun _ hs => totalSize_le hg hs) soundSets_replicate (by omega)
  have hlt : p.left < (ofGrammar g).sets.size := by
    rw [soundSets_ofGrammar.1]
    exact hg.left_lt hp
  exact mem_of_addFirstOf_eq hlt (hfixed p (Array.mem_toList_iff.2 hp)) h

theorem exact_ofGrammar (hg : g.WellFormed) : (ofGrammar g).Exact g where
  mem_nulls_iff := mem_nulls_ofGrammar
  mem_first_iff {n t} := by
    constructor
    · exact soundSets_ofGrammar.2 n t
    · intro h
      -- The set of `n` is what `addFirst` collects for the string `n`, up to the nullable tail.
      have hmem : t ∈ (addFirst (ofGrammar g).nulls (ofGrammar g).sets [.nonterminal n] .empty).1 :=
        mem_addFirst_of_begins (fun _ => mem_nulls_ofGrammar)
          (fun p hp t ht => first_closed hg hp ht) h
      have hone : t ∈ OrderedSet.empty.union ((ofGrammar g).sets.getD n .empty) := by
        simp only [addFirst] at hmem
        split at hmem <;> exact hmem
      exact (OrderedSet.mem_union.1 hone).resolve_left (OrderedSet.not_mem_empty t)

/-! ## What can follow a symbol -/

namespace Exact

variable {f : FirstSets} (hf : f.Exact g)
include hf

theorem nullableRight_iff {α : List SymbolId} :
    nullableRight f.nulls α = true ↔ Derives g.HasRule α [] := by
  constructor
  · exact derives_nil_of_nullableRight fun n hn => hf.mem_nulls_iff.1 hn
  · refine nullableRight_of_derives_nil fun p hp hright => hf.mem_nulls_iff.2 ?_
    have hrule : g.HasRule (.nonterminal p.left) p.right := ⟨p, hp, rfl, rfl⟩
    exact (Derives.of_rule hrule).trans
      (derives_nil_of_nullableRight (fun n hn => hf.mem_nulls_iff.1 hn) hright)

theorem mem_firstOf_iff {α : List SymbolId} {t : TerminalId} :
    t ∈ f.firstOf α ↔ Begins g.HasRule α (.terminal t) := by
  constructor
  · intro h
    have := begins_of_mem_addFirst (fun n hn => hf.mem_nulls_iff.1 hn)
      (fun n t ht => hf.mem_first_iff.1 ht) h
    exact this.resolve_left (OrderedSet.not_mem_empty t)
  · refine mem_addFirst_of_begins (fun n => hf.mem_nulls_iff) fun p hp t ht => ?_
    have hrule : g.HasRule (.nonterminal p.left) p.right := ⟨p, hp, rfl, rfl⟩
    refine hf.mem_first_iff.2 (begins_of_derives (Derives.of_rule hrule) ?_)
    have := begins_of_mem_addFirst (fun n hn => hf.mem_nulls_iff.1 hn)
      (fun n t ht => hf.mem_first_iff.1 ht) ht
    exact this.resolve_left (OrderedSet.not_mem_empty t)

theorem mem_firstBefore_iff {α : List SymbolId} {lookaheads : TerminalSet} {t : TerminalId} :
    t ∈ f.firstBefore α lookaheads ↔
      Begins g.HasRule α (.terminal t) ∨ (Derives g.HasRule α [] ∧ t ∈ lookaheads) := by
  rw [← hf.mem_firstOf_iff, ← hf.nullableRight_iff, ← @addFirst_snd f.nulls f.sets α .empty]
  unfold firstBefore firstOf
  split
  · next s heq => simp [heq]
  · next s heq => simp [heq]

end Exact

end FirstSets

end ShiftReduce
