import ShiftReduce.Proofs.Kernels

/-!
# First sets and closures with checked look-ups and without limits

The library's functions give an answer in any case: a look-up by a number that is out of range has a
default, and a pass is repeated up to a limit only.  Here First sets, closures and transitions are
computed without either.  A look-up by such a number has no answer, and then neither has what is
computed from it; a pass is repeated for as long as it changes something, and where that has no end
there is no answer.  For a grammar, and for items over it, there is always one, the library's.

    l.run a = some (saturate pass l.weight fuel a)                        (Loop.run_eq_saturate)
    closure g f items = some (ShiftReduce.closure g f items)                   (closure_eq_some)
-/

namespace ShiftReduce

namespace Checked

variable {g : Grammar} {f : FirstSets}

/-! ## Lists and arrays -/

section Collections

variable {α β : Type}

/-- A fold in which no step fails, as long as what the steps keep holds. -/
theorem foldlM_eq_some {checked : α → β → Option α} {step : α → β → α} (P : α → Prop) {l : List β}
    (h : ∀ a x, x ∈ l → P a → checked a x = some (step a x) ∧ P (step a x)) {a : α} (ha : P a) :
    l.foldlM checked a = some (l.foldl step a) := by
  induction l generalizing a with
  | nil => rfl
  | cons x l ih =>
    obtain ⟨hx, hstep⟩ := h a x List.mem_cons_self ha
    rw [List.foldlM_cons, hx]
    exact ih (fun a y hy => h a y (List.mem_cons_of_mem x hy)) hstep

theorem mapM_eq_some {checked : α → Option β} {f : α → β} {l : List α}
    (h : ∀ a ∈ l, checked a = some (f a)) : l.mapM checked = some (l.map f) := by
  induction l with
  | nil => rfl
  | cons a l ih =>
    rw [List.mapM_cons, h a List.mem_cons_self, ih fun b hb => h b (List.mem_cons_of_mem a hb)]
    rfl

/-- Changes the member at a place, which needs to be there. -/
def update (xs : Array α) (i : Nat) (f : α → α) : Option (Array α) :=
  if h : i < xs.size then some (xs.set i (f xs[i]) h) else none

theorem update_eq_some {xs : Array α} {i : Nat} (h : i < xs.size) (f : α → α) :
    update xs i f = some (xs.modify i f) := by
  unfold update
  rw [dif_pos h]
  refine congrArg some (Array.ext_getElem? fun j => ?_)
  rw [Array.getElem?_set, Array.getElem?_modify]
  split
  · next hij =>
    subst hij
    rw [Array.getElem?_eq_getElem h, Option.map_some]
  · rfl

end Collections

/-! ## Repeating a pass -/

/-- A pass that may fail, and the weight that tells whether it has changed something. -/
structure Loop (α : Type) where
  pass : α → Option α
  weight : α → Nat

/-- Applies the pass until the weight stays the same.  Where a pass fails, or none is the last,
there is no answer. -/
def Loop.run {α : Type} (l : Loop α) (a : α) : Option α := do
  let b ← l.pass a
  if l.weight b = l.weight a then some a else l |>.run b
partial_fixpoint

/-- A weight that never falls and is bounded stays the same in the end. -/
theorem Loop.run_eq_saturate {α : Type} {l : Loop α} {pass : α → α} (P : α → Prop)
    (hpass : ∀ a, P a → l.pass a = some (pass a)) (keeps : ∀ a, P a → P (pass a))
    (grows : ∀ a, l.weight a ≤ l.weight (pass a)) {bound : Nat}
    (bounded : ∀ a, P a → l.weight a ≤ bound) {fuel : Nat} {a : α} (h : P a)
    (enough : bound < l.weight a + fuel) :
    l.run a = some (saturate pass l.weight fuel a) := by
  induction fuel generalizing a with
  | zero =>
    have hle := bounded a h
    omega
  | succ fuel ih =>
    unfold Loop.run saturate
    simp only [hpass a h, Option.bind_eq_bind, Option.bind_some]
    split
    · rfl
    · have hle := grows a
      exact ih (keeps a h) (by omega)

/-! ## First sets -/

/-- As the library's `addFirst`, but each nonterminal that is looked up needs to have a set. -/
def addFirst (nulls : NonterminalSet) (sets : Array TerminalSet) :
    List SymbolId → TerminalSet → Option (TerminalSet × Bool)
  | [], s => some (s, true)
  | .terminal t :: _, s => some (s.insert t, false)
  | .nonterminal n :: rest, s => do
    let first ← sets[n]?
    let s := s.union first
    if n ∈ nulls then addFirst nulls sets rest s else some (s, false)

/-- The terminals that begin a string derived from `seq` followed by one of the lookaheads. -/
def firstBefore (f : FirstSets) (seq : List SymbolId) (lookaheads : TerminalSet) :
    Option TerminalSet := do
  let (first, nullable) ← addFirst f.nulls f.sets seq .empty
  some (if nullable then first.union lookaheads else first)

/-- What one rule adds to the First sets; its left side needs to have one. -/
def addFirstOf (nulls : NonterminalSet) (sets : Array TerminalSet) (p : Production) :
    Option (Array TerminalSet) := do
  let (added, _) ← addFirst nulls sets p.right .empty
  update sets p.left (·.union added)

def nullLoop (g : Grammar) : Loop NonterminalSet where
  pass nulls := some (nullPass g nulls)
  weight := OrderedSet.size

def firstLoop (g : Grammar) (nulls : NonterminalSet) : Loop (Array TerminalSet) where
  pass sets := g.productions.toList.foldlM (addFirstOf nulls) sets
  weight := totalSize

def firstSets (g : Grammar) : Option FirstSets := do
  let nulls ← (nullLoop g).run .empty
  let sets ← (firstLoop g nulls).run (Array.replicate g.nonterminals.size .empty)
  some { nulls, sets }

theorem addFirst_eq_some {nulls : NonterminalSet} {sets : Array TerminalSet} {α : List SymbolId}
    {s : TerminalSet} (h : ∀ n, .nonterminal n ∈ α → n < sets.size) :
    addFirst nulls sets α s = some (ShiftReduce.addFirst nulls sets α s) := by
  induction α generalizing s with
  | nil => rfl
  | cons x α ih =>
    cases x with
    | terminal t => rfl
    | nonterminal n =>
      have hn := Array.getElem?_eq_getElem (h n List.mem_cons_self)
      have hα : ∀ n, .nonterminal n ∈ α → n < sets.size :=
        fun n hn => h n (List.mem_cons_of_mem _ hn)
      simp only [addFirst, ShiftReduce.addFirst, Array.getD_eq_getD_getElem?, hn,
        Option.bind_eq_bind, Option.bind_some, Option.getD_some]
      split
      · exact ih hα
      · rfl

theorem firstBefore_eq_some {seq : List SymbolId} (lookaheads : TerminalSet)
    (h : ∀ n, .nonterminal n ∈ seq → n < f.sets.size) :
    firstBefore f seq lookaheads = some (f.firstBefore seq lookaheads) := by
  simp only [firstBefore, addFirst_eq_some h, Option.bind_eq_bind, Option.bind_some,
    FirstSets.firstBefore]
  obtain ⟨first, nullable⟩ := ShiftReduce.addFirst f.nulls f.sets seq .empty
  cases nullable <;> rfl

theorem nullLoop_eq_some (g : Grammar) :
    (nullLoop g).run .empty = some (FirstSets.ofGrammar g).nulls := by
  refine Loop.run_eq_saturate (NullsWithin g .empty) (fun _ _ => rfl)
    (fun _ h => nullsWithin_nullPass h) (fun nulls => ?_) (fun _ h => h.size_le)
    (nullsWithin_self .empty) (Nat.lt_succ_self _)
  rw [nullPass_eq]
  exact weight_le_foldl size_le_size_addNull _ nulls

section WellFormed

variable (hg : g.WellFormed)
include hg

theorem addFirstOf_eq_some {nulls : NonterminalSet} {sets : Array TerminalSet}
    (hsize : sets.size = g.nonterminals.size) {p : Production} (hp : p ∈ g.productions) :
    addFirstOf nulls sets p = some (ShiftReduce.addFirstOf nulls sets p) := by
  have hright : ∀ n, .nonterminal n ∈ p.right → n < sets.size := fun n hn => by
    rw [hsize]
    exact hg.has_of_mem_right hp hn
  have hleft : p.left < sets.size := by
    rw [hsize]
    exact hg.left_lt hp
  simp only [addFirstOf, addFirst_eq_some hright, Option.bind_eq_bind, Option.bind_some]
  exact update_eq_some hleft _

theorem firstLoop_eq_some : (firstLoop g (FirstSets.ofGrammar g).nulls).run
    (Array.replicate g.nonterminals.size .empty) = some (FirstSets.ofGrammar g).sets := by
  refine Loop.run_eq_saturate (FirstSets.SoundSets g) (fun sets h => ?_)
    (fun _ h => FirstSets.soundSets_firstPass (fun _ => FirstSets.mem_nulls_ofGrammar.1) h)
    (fun sets => ?_) (fun _ h => FirstSets.totalSize_le hg h) FirstSets.soundSets_replicate
    (by omega)
  · rw [firstPass_eq]
    refine foldlM_eq_some (fun sets => sets.size = g.nonterminals.size) ?_ h.1
    intro sets p hp hsize
    exact ⟨addFirstOf_eq_some hg hsize (Array.mem_toList_iff.1 hp),
      (size_addFirstOf sets p).trans hsize⟩
  · rw [firstPass_eq]
    exact weight_le_foldl totalSize_le_addFirstOf _ sets

theorem firstSets_eq_some : firstSets g = some (.ofGrammar g) := by
  simp only [firstSets, nullLoop_eq_some, firstLoop_eq_some hg, Option.bind_eq_bind,
    Option.bind_some]

end WellFormed

/-! ## Closures and transitions -/

/-- The right side of an item's rule.  The rule needs to be one of the grammar, and the marker to
be in the right side or at its end. -/
def rightOf (g : Grammar) (c : Core) : Option (List SymbolId) := do
  let p ← g.productions[c.rule]?
  if c.marker ≤ p.right.length then some p.right else none

section Definitions

variable (g : Grammar) (f : FirstSets)

/-- What an item asks for. -/
def demands (c : Core) (lookaheads : TerminalSet) : Option (List (Core × TerminalSet)) := do
  let right ← rightOf g c
  match right[c.marker]? with
  | some (.nonterminal y) => do
    let follow ← firstBefore f (right.drop (c.marker + 1)) lookaheads
    some ((g.productionsOf y).map fun p => (Core.start p.id, follow))
  | _ => some []

def closurePass (items : ItemSet) : Option ItemSet := do
  let demanded ← items.entries.mapM fun e => demands g f e.1 e.2
  some (demanded.flatten.foldl addItem items)

def closureLoop : Loop ItemSet where
  pass := closurePass g f
  weight := ItemSet.weight

def closure (items : ItemSet) : Option ItemSet := (closureLoop g f).run items

/-- Puts an item under the symbol after its marker, advanced over that symbol. -/
def addTransition (kernels : OrderedMap SymbolId ItemSet) (item : Core × TerminalSet) :
    Option (OrderedMap SymbolId ItemSet) := do
  let right ← rightOf g item.1
  match right[item.1.marker]? with
  | none => some kernels
  | some x => some (kernels.upsert x fun old => (old.getD .empty).insert item.1.advance item.2)

def transitions (items : ItemSet) : Option (OrderedMap SymbolId ItemSet) :=
  items.entries.foldlM (addTransition g) .empty

end Definitions

section Items

variable {items : ItemSet}

theorem rightOf_eq_some (h : items.InRange g) {c : Core} (hc : items.Has c) :
    rightOf g c = some (g.right c.rule) := by
  have hp := Array.getElem?_eq_getElem (h.rule_lt hc)
  have hmarker := h.marker_le hc
  rw [Grammar.right_eq hp] at hmarker ⊢
  simp only [rightOf, hp, Option.bind_eq_bind, Option.bind_some, if_pos hmarker]

theorem addTransition_eq_some (h : items.InRange g) {e : Core × TerminalSet}
    (he : e ∈ items.entries) (kernels : OrderedMap SymbolId ItemSet) :
    addTransition g kernels e = some (ShiftReduce.addTransition g kernels e) := by
  simp only [addTransition, rightOf_eq_some h (ItemSet.has_of_mem_entries he), Option.bind_eq_bind,
    Option.bind_some, ShiftReduce.addTransition, Core.next?]
  cases (g.right e.1.rule)[e.1.marker]? <;> rfl

theorem transitions_eq_some (h : items.InRange g) :
    transitions g items = some (ShiftReduce.transitions g items) :=
  foldlM_eq_some (fun _ => True)
    (fun kernels _ he _ => ⟨addTransition_eq_some h he kernels, trivial⟩) trivial

variable (hg : g.WellFormed) (hf : f.Exact g) (hsets : f.sets.size = g.nonterminals.size)
include hg hsets

theorem demands_eq_some (h : items.InRange g) {c : Core} (hc : items.Has c)
    (lookaheads : TerminalSet) :
    demands g f c lookaheads = some (ShiftReduce.demands g f c lookaheads) := by
  have hrest : ∀ n, .nonterminal n ∈ (g.right c.rule).drop (c.marker + 1) → n < f.sets.size := by
    intro n hn
    rw [hsets]
    exact hg.has_of_mem_right_id (List.mem_of_mem_drop hn)
  simp only [demands, rightOf_eq_some h hc, firstBefore_eq_some lookaheads hrest,
    Option.bind_eq_bind, Option.bind_some, ShiftReduce.demands, Core.next?, Core.rest]
  cases (g.right c.rule)[c.marker]? with
  | none => rfl
  | some x => cases x <;> rfl

theorem closurePass_eq_some (h : items.InRange g) :
    closurePass g f items = some (ShiftReduce.closurePass g f items) := by
  have hdemands : ∀ e ∈ items.entries,
      demands g f e.1 e.2 = some (ShiftReduce.demands g f e.1 e.2) :=
    fun e he => demands_eq_some hg hsets h (ItemSet.has_of_mem_entries he) e.2
  simp only [closurePass, mapM_eq_some hdemands, Option.bind_eq_bind, Option.bind_some,
    ShiftReduce.closurePass, List.flatMap]

include hf in
theorem closure_eq_some (h : items.InRange g) :
    closure g f items = some (ShiftReduce.closure g f items) :=
  Loop.run_eq_saturate (Within g items)
    (fun _ hpart => closurePass_eq_some hg hsets (h.of_within hg hpart))
    (fun _ hpart => within_closurePass hf hpart)
    (fun part => weight_le_foldl weight_le_addItem _ part)
    (fun _ hpart => hpart.weight_le hg) within_self (by omega)

end Items

end Checked

end ShiftReduce
