import ShiftReduce.Proofs.Reports

/-!
# Runs that have read the same

A step looks at the topmost state, at the head of the queue and at how many states and trees there
are, and at nothing else.  So on inputs whose first tokens have the same symbols, a table takes the
same steps for as long as the head of the queue is one of these tokens or waits before one of them.
An error is reported at the place of the head of the queue, and that place never moves back, so an
error that is reported at a token depends on the symbols up to that token only.

    Agree (k + 1) c d → (c.step g t).Agree (c.shifted + (k + 1)) (d.step g t)        (Agree.step)
    p.parse w = .error e → e.position? = some i → i ≤ w.length →
      (v.take i).map (·.symbol) = (w.take i).map (·.symbol) → p.parse v = .error e
                                                                     (error_depends_on_prefix)
-/

namespace ShiftReduce

variable {π π' : Type} {g : Grammar} {t : ParseTable}

/-! ## Configurations that agree -/

/-- Two queues hold the same up to their `k`-th token, payloads apart. -/
inductive Input.SameUpTo : Nat → List (Input π) → List (Input π') → Prop
  | behind (queue : List (Input π)) (queue' : List (Input π')) : SameUpTo 0 queue queue'
  | reduced {k : Nat} {queue : List (Input π)} {queue' : List (Input π')} (n : NonterminalId) :
      SameUpTo k queue queue' → SameUpTo k (.reduced n :: queue) (.reduced n :: queue')
  | token {k : Nat} {queue : List (Input π)} {queue' : List (Input π')} {token : Token π}
      {token' : Token π'} : token.symbol = token'.symbol → SameUpTo k queue queue' →
      SameUpTo (k + 1) (.token token :: queue) (.token token' :: queue')

namespace Configuration

variable {k i n : Nat} {c : Configuration π} {d : Configuration π'} {e : ParseError}

/-- The same states and as many trees, with the same to come up to the `k`-th token from here. -/
structure Agree (k : Nat) (c : Configuration π) (d : Configuration π') : Prop where
  states_eq : c.states = d.states
  height_eq : c.trees.length = d.trees.length
  shifted_eq : c.shifted = d.shifted
  queue : Input.SameUpTo k c.queue d.queue

/-- Two steps fail alike, or lead to configurations that agree up to token number `i` of the input. -/
inductive Outcome.Agree (i : Nat) : Outcome π → Outcome π' → Prop
  | next {k : Nat} {c : Configuration π} {d : Configuration π'} : c.Agree k d → c.shifted + k = i →
      Agree i (.next c) (.next d)
  | failed (e : ParseError) : Agree i (.failed e) (.failed e)

/-! ## One step -/

section Step

variable (h : c.Agree (k + 1) d)
include h

theorem Agree.lookahead_eq (g : Grammar) : c.lookahead g = d.lookahead g := by
  have hposition : c.position = d.position := congrArg (· + 1) h.shifted_eq
  have hqueue := h.queue
  unfold lookahead
  generalize c.queue = queue at hqueue
  generalize d.queue = queue' at hqueue
  cases hqueue with
  | reduced n _ => rfl
  | token hsymbol _ => simp only [hsymbol, hposition]

theorem Agree.move_eq (g : Grammar) (t : ParseTable) : c.move g t = d.move g t := by
  have hposition : c.position = d.position := congrArg (· + 1) h.shifted_eq
  simp only [move, h.states_eq, h.lookahead_eq g, hposition]

/-- An action needs a token or a nonterminal at the head of the queue and enough states and trees;
all of that is the same. -/
theorem Agree.perform (g : Grammar) (action : Action) :
    (c.perform g action).Agree (c.shifted + (k + 1)) (d.perform g action) := by
  have hqueue := h.queue
  cases action with
  | shift q =>
    simp only [Configuration.perform]
    generalize c.queue = queue at hqueue
    generalize d.queue = queue' at hqueue
    cases hqueue with
    | reduced n _ => exact .failed _
    | token _ hrest =>
      refine .next (k := k) ⟨?_, ?_, ?_, hrest⟩ ?_
      · exact congrArg (q :: ·) h.states_eq
      · exact congrArg (· + 1) h.height_eq
      · exact congrArg (· + 1) h.shifted_eq
      · show c.shifted + 1 + k = c.shifted + (k + 1)
        omega
  | reduce r =>
    simp only [Configuration.perform, List.length_take, h.states_eq, h.height_eq]
    split
    · exact .failed _
    · refine .next (k := k + 1) ⟨rfl, ?_, h.shifted_eq, .reduced _ hqueue⟩ rfl
      simp only [List.length_cons, List.length_drop, h.height_eq]
  | goto q =>
    simp only [Configuration.perform]
    generalize c.queue = queue at hqueue
    generalize d.queue = queue' at hqueue
    cases hqueue with
    | reduced n hrest =>
      exact .next (k := k + 1) ⟨congrArg (q :: ·) h.states_eq, h.height_eq, h.shifted_eq, hrest⟩ rfl
    | token _ _ => exact .failed _
  | accept =>
    -- something is still to be read, so neither run can accept
    simp only [Configuration.perform]
    generalize c.queue = queue at hqueue
    generalize d.queue = queue' at hqueue
    cases hqueue with
    | reduced n _ => exact .failed _
    | token _ _ => exact .failed _

/-- While there is something to come on which they agree, configurations that agree step alike. -/
theorem Agree.step (g : Grammar) (t : ParseTable) :
    (c.step g t).Agree (c.shifted + (k + 1)) (d.step g t) := by
  unfold Configuration.step
  rw [h.move_eq g t]
  cases d.move g t with
  | error e => exact .failed e
  | ok move => exact h.perform g move.action

end Step

/-! ## Runs -/

theorem shifted_le_of_perform {action : Action} {c' : Configuration π}
    (h : c.perform g action = .next c') : c.shifted ≤ c'.shifted := by
  cases action with
  | shift q =>
    simp only [perform] at h
    split at h
    · rw [← Outcome.next.inj h]
      exact Nat.le_succ _
    · cases h
  | reduce r =>
    simp only [perform] at h
    split at h
    · cases h
    · rw [← Outcome.next.inj h]
  | goto q =>
    simp only [perform] at h
    split at h
    · rw [← Outcome.next.inj h]
    · cases h
  | accept =>
    simp only [perform] at h
    split at h <;> cases h

theorem shifted_le_of_step {c' : Configuration π} (h : c.step g t = .next c') :
    c.shifted ≤ c'.shifted := by
  unfold step at h
  split at h
  next => cases h
  next => exact shifted_le_of_perform h

/-- The place that is reported lies ahead of all tokens that were shifted before. -/
theorem shifted_lt_of_runWithin (hrun : runWithin g t n c = some (.error e))
    (hi : e.position? = some i) : c.shifted < i := by
  induction n generalizing c with
  | zero => cases hrun
  | succ n ih =>
    cases hstep : c.step g t with
    | next c' =>
      rw [runWithin_of_next hstep] at hrun
      exact Nat.lt_of_le_of_lt (shifted_le_of_step hstep) (ih hrun)
    | accepted tree =>
      rw [runWithin_of_accepted hstep] at hrun
      cases hrun
    | failed e' =>
      rw [runWithin_of_failed hstep] at hrun
      obtain rfl := Except.error.inj (Option.some.inj hrun)
      rw [position_eq_of_step hstep hi]
      exact Nat.lt_succ_self _

/-- A run that fails where the other run has the same to come fails there in the same way. -/
theorem Agree.runWithin (h : c.Agree k d) (hrun : runWithin g t n c = some (.error e))
    (hi : e.position? = some i) (hle : i ≤ c.shifted + k) :
    Configuration.runWithin g t n d = some (.error e) := by
  induction n generalizing c d k with
  | zero => cases hrun
  | succ n ih =>
    have hlt := shifted_lt_of_runWithin hrun hi
    obtain ⟨k, rfl⟩ : ∃ m, k = m + 1 := Nat.exists_eq_succ_of_ne_zero (by omega)
    have hstep := h.step g t
    cases hc : c.step g t with
    | next c' =>
      rw [hc] at hstep
      rw [runWithin_of_next hc] at hrun
      generalize hd : d.step g t = outcome at hstep
      cases hstep with
      | next h' hshifted =>
        rw [runWithin_of_next hd]
        exact ih h' hrun (by omega)
    | accepted tree =>
      rw [runWithin_of_accepted hc] at hrun
      cases hrun
    | failed e' =>
      rw [hc] at hstep
      rw [runWithin_of_failed hc] at hrun
      generalize hd : d.step g t = outcome at hstep
      cases hstep with
      | failed =>
        obtain rfl := Except.error.inj (Option.some.inj hrun)
        exact runWithin_of_failed hd

/-- Inputs with the same first symbols start with configurations that agree. -/
theorem agree_initial {w : List (Token π)} {v : List (Token π')} (hi : i ≤ w.length)
    (h : (v.take i).map (·.symbol) = (w.take i).map (·.symbol)) :
    (initial w).Agree i (initial v) := by
  refine ⟨rfl, rfl, rfl, ?_⟩
  show Input.SameUpTo i (w.map .token ++ [.endOfInput]) (v.map .token ++ [.endOfInput])
  induction i generalizing w v with
  | zero => exact .behind _ _
  | succ i ih =>
    cases w with
    | nil => cases hi
    | cons token w =>
      cases v with
      | nil => cases h
      | cons token' v =>
        obtain ⟨hsymbol, h⟩ := List.cons.inj h
        exact .token hsymbol.symm (ih (Nat.le_of_succ_le_succ hi) h)

end Configuration

namespace Parser

variable {p : Parser} {w : List (Token π)} {v : List (Token π')} {e : ParseError} {i : Nat}

/-- An error with a place is the answer of a run. -/
theorem exists_runWithin_of_error (hparse : p.parse w = .error e) (hi : e.position? = some i) :
    ∃ n, Configuration.runWithin p.grammar p.table n (Configuration.initial w) =
      some (.error e) := by
  unfold parse at hparse
  cases hrun : (Configuration.initial w).run p.grammar p.table with
  | none =>
    rw [hrun] at hparse
    obtain rfl := Except.error.inj hparse
    cases hi
  | some answer =>
    rw [hrun] at hparse
    obtain rfl : answer = .error e := hparse
    exact Configuration.run_eq_some_iff.1 hrun

/-- An error that is reported at a token is reported on every input whose symbols are the same up to
that token, whatever follows and whatever the payloads are. -/
theorem error_depends_on_prefix (hparse : p.parse w = .error e) (hi : e.position? = some i)
    (hw : i ≤ w.length) (hv : (v.take i).map (·.symbol) = (w.take i).map (·.symbol)) :
    p.parse v = .error e := by
  obtain ⟨n, hrun⟩ := exists_runWithin_of_error hparse hi
  have hagree := Configuration.agree_initial hw hv
  have hle : i ≤ (Configuration.initial w).shifted + i := Nat.le_add_left i _
  exact parse_of_runWithin (hagree.runWithin hrun hi hle)

/-- Once `A -> y m` was reduced over `z m` before `a`, what comes behind the `a` plays no part. -/
theorem error_depends_on_prefix_misreported : ∃ p e,
    build misreporting (.nonterminal "S") .superset = .ok p ∧
      p.parse misreported = .error e ∧ e.position? = some 4 ∧
      p.parse (misreported ++ [⟨.terminal "c", some 7⟩, ⟨.nonterminal "S", none⟩]) = .error e := by
  obtain ⟨p, hp, hfails⟩ : ∃ p, build misreporting (.nonterminal "S") .superset = .ok p ∧
      (Configuration.runWithin p.grammar p.table 8 (Configuration.initial misreported)).any (fun
        | .error e => decide (e.position? = some 4)
        | .ok _ => false) = true := exists_of_any_build (by decide +kernel)
  obtain ⟨r, hr, herror⟩ := (Option.any_eq_true _ _).1 hfails
  cases r with
  | ok root => cases herror
  | error e =>
    have hparse := parse_of_runWithin hr
    have hi : e.position? = some 4 := of_decide_eq_true herror
    exact ⟨p, e, hp, hparse, hi, error_depends_on_prefix hparse hi (by decide) rfl⟩

end Parser

end ShiftReduce
