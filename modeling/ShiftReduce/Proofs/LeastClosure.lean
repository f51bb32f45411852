import ShiftReduce.Proofs.Closure

/-!
# The least closed item set

Item sets are ordered by their cores and, core by core, by their lookaheads.  An item set is closed
when every rule that one of its items asks for is started in it, with all that can follow there.
The closure of an item set is the least closed one above it, and what is said of it here besides is
read off that: closing again changes nothing, more items have a larger closure, and the order of
the items plays no part.

    other.Closed g f → items.Below other → (closure g f items).Below other      (closure_below)
    items.Closed g f → closure g f items = items                        (closure_eq_of_closed)
    0 < c.marker → (closure g f items).find? c = items.find? c  (find?_closure_of_marker_pos)
-/

namespace ShiftReduce

variable {g : Grammar} {f : FirstSets}

namespace ItemSet

/-- Every core is there, with all the lookaheads it has and perhaps others. -/
structure Below (a b : ItemSet) : Prop where
  has : ∀ {c}, a.Has c → b.Has c
  looks : ∀ {c t}, a.Looks c t → b.Looks c t

/-- Before a nonterminal, each of its rules is started, with every terminal that can follow the
nonterminal there as a lookahead. -/
def Closed (g : Grammar) (f : FirstSets) (items : ItemSet) : Prop :=
  ∀ c lookaheads, items.find? c = some lookaheads → ∀ p ∈ g.productions,
    c.next? g = some (.nonterminal p.left) → items.Has (Core.start p.id) ∧
      ∀ t ∈ f.firstBefore (c.rest g) lookaheads, items.Looks (Core.start p.id) t

variable {a b c items other : ItemSet}

theorem Below.trans (h : a.Below b) (h' : b.Below c) : a.Below c :=
  ⟨fun hc => h'.has (h.has hc), fun ht => h'.looks (h.looks ht)⟩

theorem same_iff_below : a.same b = true ↔ a.Below b ∧ b.Below a := by
  rw [same_iff]
  constructor
  · rintro ⟨hhas, hlooks⟩
    exact ⟨⟨(hhas _).1, (hlooks _ _).1⟩, ⟨(hhas _).2, (hlooks _ _).2⟩⟩
  · rintro ⟨hab, hba⟩
    exact ⟨fun c => ⟨hab.has, hba.has⟩, fun c t => ⟨hab.looks, hba.looks⟩⟩

theorem Closed.addItem_eq (h : items.Closed g f) {c : Core} {lookaheads : TerminalSet}
    (hfind : items.find? c = some lookaheads) {item : Core × TerminalSet}
    (hitem : item ∈ demands g f c lookaheads) : addItem items item = items := by
  obtain ⟨p, hp, hnext, rfl⟩ := mem_demands.1 hitem
  obtain ⟨⟨old, hold⟩, hlooks⟩ := h c lookaheads hfind p hp hnext
  have hsubset : (f.firstBefore (c.rest g) lookaheads).subset old = true :=
    OrderedSet.subset_iff.2 fun t ht => (looks_iff_mem hold).1 (hlooks t ht)
  simp only [addItem, hold, if_pos hsubset]

/-- A closed item set is left alone. -/
theorem closure_eq_of_closed (h : items.Closed g f) : closure g f items = items := by
  have hpass : closurePass g f items = items := by
    apply foldl_eq_of_step_eq
    intro item hitem
    obtain ⟨e, he, hdemand⟩ := List.mem_flatMap.1 hitem
    exact h.addItem_eq (OrderedMap.find?_eq_some_iff.2 he) hdemand
  unfold closure saturate
  simp only [hpass, if_true]

/-- Closing adds nothing to an item that is not at the start of its rule. -/
theorem find?_closure_of_marker_pos {c : Core} (hpos : 0 < c.marker) :
    (closure g f items).find? c = items.find? c := by
  let P : ItemSet → Prop := fun part => part.find? c = items.find? c
  refine saturate_induction (P := P) (fun part hpart => ?_) _ _ rfl
  refine foldl_keeps P (fun acc item hitem hacc => ?_) hpart
  obtain ⟨e, -, hdemand⟩ := List.mem_flatMap.1 hitem
  obtain ⟨p, -, -, rfl⟩ := mem_demands.1 hdemand
  have hne : c ≠ Core.start p.id := by
    rintro rfl
    exact Nat.lt_irrefl 0 hpos
  show (addItem acc (Core.start p.id, _)).find? c = items.find? c
  rw [find?_addItem, if_neg hne]
  exact hacc

section Least

theorem below_closure : items.Below (closure g f items) :=
  ⟨fun hc => extends_closure.1 _ hc, fun ht => extends_closure.2 _ _ ht⟩

variable (hg : g.WellFormed) (hf : f.Exact g)
include hg hf

theorem closed_closure : (closure g f items).Closed g f := by
  intro c lookaheads hfind p hp hnext
  have hfixed := addItem_closure hg hf hfind (mem_demands.2 ⟨p, hp, hnext, rfl⟩)
  rw [← hfixed]
  exact ⟨has_addItem.2 (Or.inr rfl), fun t ht => looks_addItem.2 (Or.inr ⟨rfl, ht⟩)⟩

/-- By induction on how the closure comes by a core or a lookahead: what a closed item set above
the seed has, it has to pass on. -/
theorem closure_below (hclosed : other.Closed g f) (h : items.Below other) :
    (closure g f items).Below other := by
  have hhas : ∀ {c}, ClosureCore g items c → other.Has c := by
    intro c hc
    induction hc with
    | base hc => exact h.has hc
    | expand _ hnext hp ih =>
      obtain ⟨lookaheads, hfind⟩ := ih
      exact (hclosed _ _ hfind _ hp hnext).1
  have hlooks : ∀ {c t}, ClosureLook g items c t → other.Looks c t := by
    intro c t ht
    induction ht with
    | base ht => exact h.looks ht
    | first hc hnext hp hbegins =>
      obtain ⟨lookaheads, hfind⟩ := hhas hc
      exact (hclosed _ _ hfind _ hp hnext).2 _ (hf.mem_firstBefore_iff.2 (Or.inl hbegins))
    | inherit _ hnext hp hnil ih =>
      obtain ⟨lookaheads, hfind, ht⟩ := ih
      exact (hclosed _ _ hfind _ hp hnext).2 _ (hf.mem_firstBefore_iff.2 (Or.inr ⟨hnil, ht⟩))
  exact ⟨fun hc => hhas ((has_closure_iff hg hf).1 hc),
    fun ht => hlooks ((looks_closure_iff hg hf).1 ht)⟩

theorem closure_mono (h : items.Below other) :
    (closure g f items).Below (closure g f other) :=
  closure_below hg hf (closed_closure hg hf) (h.trans below_closure)

end Least

/-- The closure of an item set is the least closed item set above it.  So it is closed once and for
all, grows with the item set, depends on the items and not on their order, and keeps the lookaheads
of every item that is not at the start of its rule. -/
theorem closure_isLeast {rules : List Rule} {start : Symbol}
    (h : Grammar.ofRules rules start = .ok g) (items : ItemSet) :
    let close := closure g (.ofGrammar g)
    (items.Below (close items) ∧ (close items).Closed g (.ofGrammar g) ∧
      ∀ other, items.Below other → other.Closed g (.ofGrammar g) → (close items).Below other) ∧
    close (close items) = close items ∧
    (∀ larger, items.Below larger → (close items).Below (close larger)) ∧
    (∀ other, items.same other = true → (close items).same (close other) = true) ∧
    ∀ c, 0 < c.marker → (close items).find? c = items.find? c := by
  intro close
  have hg := Grammar.wellFormed_of_ofRules h
  have hf := FirstSets.exact_ofGrammar hg
  refine ⟨⟨below_closure, closed_closure hg hf, ?_⟩, ?_, ?_, ?_, ?_⟩
  · intro other hbelow hclosed
    exact closure_below hg hf hclosed hbelow
  · exact closure_eq_of_closed (closed_closure hg hf)
  · intro larger hbelow
    exact closure_mono hg hf hbelow
  · intro other hsame
    obtain ⟨hbelow, habove⟩ := same_iff_below.1 hsame
    exact same_iff_below.2 ⟨closure_mono hg hf hbelow, closure_mono hg hf habove⟩
  · intro c hpos
    exact find?_closure_of_marker_pos hpos

/-- One or more `a`, read from the left. -/
def repeated : List Rule :=
  [⟨.nonterminal "S", [.nonterminal "S", .terminal "a"]⟩, ⟨.nonterminal "S", [.terminal "a"]⟩]

/-- The item of `S -> . S a` feeds itself: closing `S' -> . S` before the end of input gives it the
lookahead `$`, and so, with the `a` behind its own `S`, the lookahead `a`. -/
theorem closure_isLeast_repeated : ∃ g, Grammar.ofRules repeated (.nonterminal "S") = .ok g ∧
    let items := closure g (.ofGrammar g)
      (OrderedMap.empty.insert (Core.start acceptId) (.singleton endOfInputId))
    items.Looks (Core.start 1) endOfInputId ∧ items.Looks (Core.start 1) 1 := by
  obtain ⟨g, hg, hcheck⟩ : ∃ g, Grammar.ofRules repeated (.nonterminal "S") = .ok g ∧
      (decide (⟨1, 1, [.nonterminal 1, .terminal 1]⟩ ∈ g.productions) &&
        decide ((Core.start acceptId).next? g = some (.nonterminal 1)) &&
        decide ((Core.start acceptId).rest g = []) &&
        decide ((Core.start 1).next? g = some (.nonterminal 1)) &&
        decide ((Core.start 1).rest g = [.terminal 1])) = true :=
    exists_ok_of_any (by decide +kernel)
  simp only [Bool.and_eq_true, decide_eq_true_eq] at hcheck
  obtain ⟨⟨⟨⟨hrule, hnext⟩, hrest⟩, hnext'⟩, hrest'⟩ := hcheck
  obtain ⟨⟨hbelow, hclosed, -⟩, -⟩ := closure_isLeast hg
    (OrderedMap.empty.insert (Core.start acceptId) (.singleton endOfInputId))
  obtain ⟨lookaheads, hfind, hend⟩ := hbelow.looks (c := Core.start acceptId) (t := endOfInputId)
    ⟨_, by rw [OrderedMap.find?_insert, if_pos rfl], OrderedSet.mem_singleton.2 rfl⟩
  obtain ⟨⟨own, hown⟩, hlooks⟩ := hclosed _ _ hfind _ hrule hnext
  obtain ⟨-, hlooks'⟩ := hclosed _ _ hown _ hrule hnext'
  refine ⟨g, hg, hlooks _ ?_, hlooks' _ ?_⟩
  · rw [hrest]
    exact OrderedSet.mem_union.2 (Or.inr hend)
  · rw [hrest']
    exact OrderedSet.mem_insert.2 (Or.inr rfl)

end ItemSet

end ShiftReduce
