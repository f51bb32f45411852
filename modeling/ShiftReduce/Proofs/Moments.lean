import ShiftReduce.Proofs.Construction
import ShiftReduce.Proofs.LeastClosure

/-!
# The moments of the construction

A pass of the construction goes by single steps: a pending state is closed, its transitions are
linked one after the other, its edges are entered, and when no state is pending the states that were
created are appended.  A moment is what the construction looks like between two steps: a state may
be closed with only some of its transitions linked, and others may be created and not yet appended.

What holds between the passes holds at every moment: the states are numbered in order and indexed
by their cores, no two have the same kernel, and each has the items of its kernel or their closure.

    Reached g f mode m → m.construction.Numbered g f                        (Reached.numbered)
    ∃ m, Reached g f mode m ∧ m.next? g f mode = none ∧
      (Automaton.ofGrammar g f mode).nodes = m.construction.nodes              (exists_last_moment)
-/

namespace ShiftReduce

variable {g : Grammar} {f : FirstSets} {mode : MergeMode}

/-! ## Steps -/

/-- The state at hand, its edges so far, and its transitions still to be linked. -/
structure Linking where
  state : StateId
  edges : OrderedMap SymbolId StateId
  rest : List (SymbolId × ItemSet)

/-- The states as they are, the state whose transitions are being linked, if there is one, and the
states that the pass has still to expand. -/
structure Moment where
  construction : Construction
  linking? : Option Linking
  pending : List StateId

namespace Moment

/-- With nothing but the first state, which is pending. -/
def start : Moment := ⟨.initial, none, [Automaton.startState]⟩

variable (g : Grammar) (f : FirstSets) (mode : MergeMode)

/-- One step.  There is none where no state is pending and the pass has created none. -/
def next? : Moment → Option Moment
  | ⟨c, some ⟨k, edges, transition :: rest⟩, pending⟩ =>
    let acc := Construction.link mode (c, edges) transition
    some ⟨acc.1, some ⟨k, acc.2, rest⟩, pending⟩
  | ⟨c, some ⟨k, edges, []⟩, pending⟩ =>
    some ⟨c.modify k fun node => { node with edges }, none, pending⟩
  | ⟨c, none, k :: pending⟩ =>
    let c := c.close g f k
    some ⟨c, (c.nodes[k]?).map fun node => ⟨k, .empty, (transitions g node.items).entries⟩, pending⟩
  | ⟨c, none, []⟩ =>
    if c.created.isEmpty then none else some ⟨c.commit, none, c.created.toList.map (·.id)⟩

/-- The moment after some number of steps. -/
def after? : Nat → Moment → Option Moment
  | 0, m => some m
  | n + 1, m => (m.next? g f mode).bind (after? n)

end Moment

/-- The moments that the construction comes by. -/
inductive Reached (g : Grammar) (f : FirstSets) (mode : MergeMode) : Moment → Prop
  | start : Reached g f mode .start
  | next {m n : Moment} : Reached g f mode m → m.next? g f mode = some n → Reached g f mode n

theorem Reached.after {k : Nat} {m n : Moment} (h : Reached g f mode m)
    (hn : m.after? g f mode k = some n) : Reached g f mode n := by
  induction k generalizing m with
  | zero =>
    obtain rfl := Option.some.inj hn
    exact h
  | succ k ih =>
    obtain ⟨m', hstep, hn⟩ := Option.bind_eq_some_iff.1 hn
    exact ih (h.next hstep) hn

/-! ## Whole passes -/

section Passes

variable {c : Construction} {pending : List StateId}

theorem Reached.link {k : StateId} {edges : OrderedMap SymbolId StateId}
    {l : List (SymbolId × ItemSet)} (h : Reached g f mode ⟨c, some ⟨k, edges, l⟩, pending⟩) :
    Reached g f mode ⟨(l.foldl (Construction.link mode) (c, edges)).1,
      some ⟨k, (l.foldl (Construction.link mode) (c, edges)).2, []⟩, pending⟩ := by
  induction l generalizing c edges with
  | nil => exact h
  | cons e l ih => exact ih (h.next rfl)

theorem Reached.expand {k : StateId} (h : Reached g f mode ⟨c, none, k :: pending⟩) :
    Reached g f mode ⟨c.expand g f mode k, none, pending⟩ := by
  have hclosed := h.next rfl
  unfold Construction.expand
  cases hnode : (c.close g f k).nodes[k]? with
  | none =>
    simp only [hnode, Option.map_none] at hclosed ⊢
    exact hclosed
  | some node =>
    simp only [hnode, Option.map_some] at hclosed ⊢
    exact hclosed.link.next rfl

theorem Reached.foldl_expand {ids : List StateId} (h : Reached g f mode ⟨c, none, ids⟩) :
    Reached g f mode ⟨ids.foldl (Construction.expand g f mode) c, none, []⟩ := by
  induction ids generalizing c with
  | nil => exact h
  | cons k ids ih => exact ih h.expand

theorem Construction.commit_of_created (h : c.created = #[]) : c.commit = c := by
  obtain ⟨nodes, created, sameCores⟩ := c
  obtain rfl : created = #[] := h
  simp [commit]

theorem Reached.pass {ids : List StateId} (h : Reached g f mode ⟨c, none, ids⟩) :
    Reached g f mode ⟨(c.pass g f mode ids).1, none, (c.pass g f mode ids).2⟩ := by
  have hlast := h.foldl_expand
  unfold Construction.pass
  generalize ids.foldl (Construction.expand g f mode) c = d at hlast
  simp only
  by_cases hcreated : d.created = #[]
  · rw [Construction.commit_of_created hcreated, hcreated]
    exact hlast
  · have hsome : d.created.isEmpty = false := by
      rw [Array.isEmpty_eq_false_iff]
      exact hcreated
    refine hlast.next ?_
    simp only [Moment.next?, hsome, Bool.false_eq_true, if_false]

section Running

variable (hg : g.WellFormed) (hf : f.Exact g)
include hg hf

theorem Reached.run {k n fuel : Nat} (hc : c.Progress g f mode k) (hn : k + n = c.nodes.size)
    (hcreated : c.created = #[]) (enough : Automaton.passLimit g ≤ k + fuel) (passes : List Nat)
    (h : Reached g f mode ⟨c, none, List.range' k n⟩) :
    ∃ d, (Construction.run g f mode fuel c (List.range' k n) passes).nodes = d.nodes ∧
      d.created = #[] ∧ Reached g f mode ⟨d, none, []⟩ := by
  induction fuel generalizing c k n passes with
  | zero =>
    have hsize := hc.size_le hg
    obtain rfl : n = 0 := by omega
    exact ⟨c, rfl, hcreated, h⟩
  | succ fuel ih =>
    cases n with
    | zero => exact ⟨c, rfl, hcreated, h⟩
    | succ n =>
      obtain ⟨d, hpass, hd, hle, hempty, -⟩ :=
        hc.pass hg hf Construction.lasting_true hn trivial
      have hnext := h.pass
      rw [hpass] at hnext
      have hpending : (List.range' k (n + 1)).isEmpty = false := rfl
      simp only [Construction.run, hpending, hpass, Bool.false_eq_true, if_false]
      exact ih hd (by omega) hempty (by omega) _ hnext

/-- The steps end with the states of the automaton. -/
theorem exists_last_moment : ∃ m, Reached g f mode m ∧ m.next? g f mode = none ∧
    (Automaton.ofGrammar g f mode).nodes = m.construction.nodes := by
  obtain ⟨d, hnodes, hcreated, hd⟩ := Reached.run hg hf (k := 0) (n := 1)
    (Construction.progress_initial hg) rfl rfl (Nat.le_of_eq (Nat.zero_add _).symm) [] .start
  refine ⟨_, hd, ?_, hnodes⟩
  simp [Moment.next?, hcreated]

end Running

end Passes

/-! ## What holds at every moment -/

namespace Construction

variable {c : Construction}

theorem Numbered.commit (hc : c.Numbered g f) : c.commit.Numbered g f :=
  hc.congr c.allNodes_commit rfl

theorem Numbered.inRange_items (hg : g.WellFormed) (hf : f.Exact g) (hc : c.Numbered g f) {i : Nat}
    {node : Node} (hnode : c.allNodes[i]? = some node) : node.items.InRange g := by
  have hkernel := hc.inRange (kernel?_eq_some_iff.2 ⟨node, hnode, rfl⟩)
  rcases hc.items_eq hnode with heq | heq
  · rwa [heq]
  · rw [heq]
    exact ItemSet.inRange_closure hg hf hkernel

/-- A state may be closed at any time: a second time changes nothing. -/
theorem Numbered.close (hg : g.WellFormed) (hf : f.Exact g) (hc : c.Numbered g f) {k : Nat}
    (hk : k < c.nodes.size) : (c.close g f k).Numbered g f := by
  rw [close_eq_modify]
  refine hc.modify hk (fun _ => rfl) (fun _ => rfl) fun {node} hnode => Or.inr ?_
  rcases hc.items_eq hnode with heq | heq
  · exact congrArg (closure g f) heq
  · show closure g f node.items = closure g f node.kernel
    rw [heq, ItemSet.closure_eq_of_closed (ItemSet.closed_closure hg hf)]

end Construction

namespace Moment

/-- The states are numbered, the states still to be expanded are there, and so is the state at hand,
with transitions that lead to kernels over the grammar. -/
structure Sound (g : Grammar) (f : FirstSets) (m : Moment) : Prop where
  numbered : m.construction.Numbered g f
  pending_lt : ∀ k ∈ m.pending, k < m.construction.nodes.size
  state_lt : ∀ l ∈ m.linking?, l.state < m.construction.nodes.size
  transitions : ∀ l ∈ m.linking?, ∀ e ∈ l.rest, e.2.Advanced ∧ e.2.InRange g

theorem sound_start (hg : g.WellFormed) : start.Sound g f where
  numbered := (@Construction.progress_initial g f .canonical hg).toNumbered
  pending_lt k hk := by
    rw [List.mem_singleton.1 hk]
    exact Nat.zero_lt_one
  state_lt l hl := by cases hl
  transitions l hl := by cases hl

variable {c : Construction} {pending : List StateId} {k : StateId}
  {edges : OrderedMap SymbolId StateId} {n : Moment}

theorem Sound.link (hg : g.WellFormed) (hf : f.Exact g) {e : SymbolId × ItemSet}
    {rest : List (SymbolId × ItemSet)} (h : Sound g f ⟨c, some ⟨k, edges, e :: rest⟩, pending⟩) :
    Sound g f ⟨(Construction.link mode (c, edges) e).1,
      some ⟨k, (Construction.link mode (c, edges) e).2, rest⟩, pending⟩ := by
  obtain ⟨x, kernel⟩ := e
  obtain ⟨⟨hkernel, hrange⟩, hrest⟩ := List.forall_mem_cons.1 (h.transitions _ rfl)
  obtain ⟨hnumbered, hgrows, -⟩ :=
    Construction.link_spec mode hg hf h.numbered hkernel hrange edges x
  have hsize := congrArg Array.size hgrows.nodes_eq
  refine ⟨hnumbered, fun j hj => ?_, fun l hl => ?_, fun l hl => ?_⟩
  · show j < Array.size _
    rw [hsize]
    exact h.pending_lt j hj
  · obtain rfl := Option.some.inj hl
    show k < Array.size _
    rw [hsize]
    exact h.state_lt _ rfl
  · obtain rfl := Option.some.inj hl
    exact hrest

theorem Sound.enter (h : Sound g f ⟨c, some ⟨k, edges, []⟩, pending⟩) :
    Sound g f ⟨c.modify k fun node => { node with edges }, none, pending⟩ where
  numbered := by
    refine h.numbered.modify (h.state_lt _ rfl) (fun _ => rfl) (fun _ => rfl) fun {node} hnode => ?_
    have hitems := h.numbered.items_eq hnode
    exact hitems
  pending_lt j hj := by
    show j < Array.size _
    rw [Construction.size_modify]
    exact h.pending_lt j hj
  state_lt l hl := by cases hl
  transitions l hl := by cases hl

theorem Sound.close (hg : g.WellFormed) (hf : f.Exact g)
    (h : Sound g f ⟨c, none, k :: pending⟩) :
    Sound g f ⟨c.close g f k, ((c.close g f k).nodes[k]?).map fun node =>
      ⟨k, .empty, (ShiftReduce.transitions g node.items).entries⟩, pending⟩ := by
  obtain ⟨hk, hpending⟩ := List.forall_mem_cons.1 h.pending_lt
  have hclosed := h.numbered.close hg hf hk
  have hsize := Construction.size_close (g := g) (f := f) c k
  refine ⟨hclosed, fun j hj => ?_, fun l hl => ?_, fun l hl => ?_⟩
  · show j < Array.size _
    rw [hsize]
    exact hpending j hj
  · obtain ⟨node, -, rfl⟩ := Option.map_eq_some_iff.1 hl
    show k < Array.size _
    rw [hsize]
    exact hk
  · obtain ⟨node, hnode, rfl⟩ := Option.map_eq_some_iff.1 hl
    have hthere : (c.close g f k).allNodes[k]? = some node := by
      rw [Construction.getElem?_allNodes_of_lt (hsize.symm ▸ hk), hnode]
    rintro ⟨x, kernel⟩ he
    have hx := OrderedMap.find?_eq_some_iff.2 he
    exact ⟨ItemSet.advanced_of_transitions hx,
      ItemSet.inRange_of_transitions (hclosed.inRange_items hg hf hthere) hx⟩

theorem Sound.commit (h : Sound g f ⟨c, none, []⟩) :
    Sound g f ⟨c.commit, none, c.created.toList.map (·.id)⟩ where
  numbered := h.numbered.commit
  pending_lt j hj := by
    rw [h.numbered.map_id_created, List.mem_range'_1] at hj
    show j < c.commit.nodes.size
    rw [Construction.size_commit, Construction.length_allNodes]
    exact hj.2
  state_lt l hl := by cases hl
  transitions l hl := by cases hl

theorem Sound.next (hg : g.WellFormed) (hf : f.Exact g) {m : Moment} (h : m.Sound g f)
    (hn : m.next? g f mode = some n) : n.Sound g f := by
  unfold next? at hn
  split at hn
  case h_1 =>
    obtain rfl := Option.some.inj hn
    exact h.link hg hf
  case h_2 =>
    obtain rfl := Option.some.inj hn
    exact h.enter
  case h_3 =>
    obtain rfl := Option.some.inj hn
    exact h.close hg hf
  case h_4 =>
    split at hn
    · cases hn
    · obtain rfl := Option.some.inj hn
      exact h.commit

end Moment

theorem Reached.sound (hg : g.WellFormed) (hf : f.Exact g) {m : Moment} (h : Reached g f mode m) :
    m.Sound g f := by
  induction h with
  | start => exact Moment.sound_start hg
  | next _ hstep ih => exact ih.next hg hf hstep

theorem Reached.numbered (hg : g.WellFormed) (hf : f.Exact g) {m : Moment}
    (h : Reached g f mode m) : m.construction.Numbered g f :=
  (h.sound hg hf).numbered

end ShiftReduce
