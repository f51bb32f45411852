import ShiftReduce.Proofs.ValidItems

/-!
# Contexts of valid items

A valid item stands in a context: its rule is followed by a string that the items asking for it go
on to, up to the end of input.  `InContext` keeps that string and counts the rules that are applied
in it and that are still open.  A string fits a path when an item of the path goes on to it in its
context; where it begins with a terminal, one action is dictated: to shift the terminal, to reduce
by a rule at the end of the path, after which one rule less is to be applied, or to accept.

    InContext g k γ c v → Derives g.HasRule [S, $] (γ ++ … ++ v)         (InContext.derives)
    Fits g m γ (.terminal t :: v) → … shift … ∨ … reduce … ∨ … accept …         (Fits.dictates)
-/

namespace ShiftReduce

variable {g : Grammar} {γ : List SymbolId} {c : Core} {t : TerminalId} {v : List SymbolId}

/-- The item is valid for `γ`, and `v` follows its rule.  In `v` and below the item `k` rules are
applied or open. -/
inductive InContext (g : Grammar) : Nat → List SymbolId → Core → List SymbolId → Prop
  | start : InContext g 0 [] (Core.start acceptId) [.terminal endOfInputId]
  | expand {k n : Nat} {γ v w : List SymbolId} {c : Core} {p : Production} : InContext g k γ c v →
      c.next? g = some (.nonterminal p.left) → p ∈ g.productions →
      Unfolds g.HasRule n (c.rest g) w → InContext g (k + n + 1) γ (Core.start p.id) (w ++ v)
  | advance {k : Nat} {γ v : List SymbolId} {c : Core} {x : SymbolId} : InContext g k γ c v →
      c.next? g = some x → InContext g k (γ ++ [x]) c.advance v

/-- What the grammar derives, with the end of input after it. -/
def DerivesInput (g : Grammar) (α : List SymbolId) : Prop :=
  Derives g.HasRule [.nonterminal g.start, .terminal endOfInputId] α

theorem Core.drop_eq_cons {x : SymbolId} (h : c.next? g = some x) :
    (g.right c.rule).drop c.marker = x :: c.rest g := by
  obtain ⟨hlt, hget⟩ := List.getElem?_eq_some_iff.1 h
  rw [List.drop_eq_getElem_cons hlt, hget]
  rfl

/-! ## Contexts and validity -/

theorem InContext.validCore {k : Nat} (h : InContext g k γ c v) : ValidCore g γ c := by
  induction h with
  | start => exact .start
  | expand _ hnext hp _ ih => exact .expand ih hnext hp
  | advance _ hnext ih => exact .advance ih hnext

/-- The terminal that a context begins with is a lookahead. -/
theorem InContext.validItem {k : Nat} (h : InContext g k γ c (.terminal t :: v)) :
    ValidItem g γ c t := by
  generalize hu : SymbolId.terminal t :: v = u at h
  induction h generalizing v with
  | start =>
    obtain ⟨ht, -⟩ := List.cons.inj hu
    obtain rfl := SymbolId.terminal.inj ht
    exact .start
  | @expand _ _ _ _ w _ _ hc hnext hp hw ih =>
    cases w with
    | nil => exact .inherit (ih hu) hnext hp hw.derives
    | cons y w =>
      obtain ⟨rfl, -⟩ := List.cons.inj hu
      exact .first hc.validCore hnext hp ⟨w, hw.derives⟩
  | advance _ hnext ih => exact .advance (ih hu) hnext

theorem ValidCore.exists_inContext (h : ValidCore g γ c) : ∃ k v, InContext g k γ c v := by
  induction h with
  | start => exact ⟨_, _, .start⟩
  | expand _ hnext hp ih =>
    obtain ⟨k, v, hc⟩ := ih
    exact ⟨_, _, .expand hc hnext hp (.refl _)⟩
  | advance _ hnext ih =>
    obtain ⟨k, v, hc⟩ := ih
    exact ⟨k, v, .advance hc hnext⟩

theorem ValidItem.exists_inContext (h : ValidItem g γ c t) :
    ∃ k v, InContext g k γ c (.terminal t :: v) := by
  induction h with
  | start => exact ⟨_, _, .start⟩
  | first hd hnext hp hbegins =>
    obtain ⟨k, v, hc⟩ := hd.exists_inContext
    obtain ⟨β, hβ⟩ := hbegins
    obtain ⟨n, hn⟩ := derives_iff_unfolds.1 hβ
    exact ⟨_, _, .expand hc hnext hp hn⟩
  | inherit _ hnext hp hnil ih =>
    obtain ⟨k, v, hc⟩ := ih
    obtain ⟨n, hn⟩ := derives_iff_unfolds.1 hnil
    exact ⟨_, v, .expand hc hnext hp hn⟩
  | advance _ hnext ih =>
    obtain ⟨k, v, hc⟩ := ih
    exact ⟨k, v, .advance hc hnext⟩

/-- The path, what the item still has before it, and its context make a derived string. -/
theorem InContext.derives (hg : g.WellFormed) {k : Nat} (h : InContext g k γ c v) :
    DerivesInput g (γ ++ (g.right c.rule).drop c.marker ++ v) := by
  induction h with
  | start =>
    show DerivesInput g ([] ++ (g.right acceptId).drop 0 ++ [.terminal endOfInputId])
    rw [hg.right_accept]
    exact Derives.refl _
  | @expand k n γ v w c p _ hnext hp hw ih =>
    rw [Core.drop_eq_cons hnext] at ih
    refine Derives.trans ih ?_
    have hrule : g.HasRule (.nonterminal p.left) p.right := ⟨p, hp, rfl, rfl⟩
    have hstart : (g.right (Core.start p.id).rule).drop (Core.start p.id).marker = p.right :=
      hg.right_id hp
    rw [hstart, List.append_assoc, List.append_assoc]
    refine Derives.append_left γ ?_
    have hafter : Derives g.HasRule ([.nonterminal p.left] ++ (c.rest g ++ v)) (p.right ++ (w ++ v)) :=
      (Derives.of_rule hrule).append (hw.derives.append_right v)
    exact hafter
  | @advance k γ v c x _ hnext ih =>
    rw [Core.drop_eq_cons hnext] at ih
    have hadvance : (g.right c.advance.rule).drop c.advance.marker = c.rest g := rfl
    rw [hadvance]
    simpa only [List.append_assoc, List.singleton_append] using ih

/-- The context of an item is that of the start of its rule. -/
theorem InContext.exists_before {k : Nat} (h : InContext g k γ c v) :
    ∃ β, γ = β ++ (g.right c.rule).take c.marker ∧ InContext g k β (Core.start c.rule) v := by
  induction h with
  | start => exact ⟨[], rfl, .start⟩
  | @expand _ _ γ _ _ _ _ hc hnext hp hw _ =>
    exact ⟨γ, (List.append_nil γ).symm, .expand hc hnext hp hw⟩
  | @advance k γ v c x _ hnext ih =>
    obtain ⟨β, rfl, hstart⟩ := ih
    refine ⟨β, ?_, hstart⟩
    rw [List.append_assoc, ← Core.take_advance hnext]

/-- The start of a rule in a context is asked for by an item in a context. -/
theorem InContext.start_cases {k : Nat} {r : RuleId} (h : InContext g k γ (Core.start r) v)
    (hr : r ≠ acceptId) : ∃ k' n d u w, ∃ p ∈ g.productions, p.id = r ∧ k = k' + n + 1 ∧
      InContext g k' γ d u ∧ d.next? g = some (.nonterminal p.left) ∧
      Unfolds g.HasRule n (d.rest g) w ∧ v = w ++ u := by
  generalize hc : Core.start r = c at h
  cases h with
  | start => exact absurd (congrArg Core.rule hc) hr
  | @expand k' n _ u w d p hd hnext hp hw =>
    exact ⟨k', n, d, u, w, p, hp, congrArg Core.rule hc.symm, rfl, hd, hnext, hw, rfl⟩
  | advance _ _ => exact absurd (congrArg Core.marker hc) (Nat.succ_ne_zero _).symm

/-! ## Strings that fit a path -/

/-- Some item of the path goes on to the string in its context, with `m` rules applied or open. -/
def Fits (g : Grammar) (m : Nat) (γ v : List SymbolId) : Prop :=
  ∃ k n c w u, m = k + n ∧ InContext g k γ c w ∧
    Unfolds g.HasRule n ((g.right c.rule).drop c.marker) u ∧ v = u ++ w

theorem fits_of_derives (hg : g.WellFormed) {u : List SymbolId}
    (h : Derives g.HasRule [.nonterminal g.start] u) :
    ∃ m, Fits g m [] (u ++ [.terminal endOfInputId]) := by
  obtain ⟨n, hn⟩ := derives_iff_unfolds.1 h
  refine ⟨0 + n, 0, n, Core.start acceptId, _, u, rfl, .start, ?_, rfl⟩
  show Unfolds g.HasRule n ((g.right acceptId).drop 0) u
  rw [hg.right_accept]
  exact hn

/-- A completed item in a context is reduced, and its rule is no longer open. -/
theorem InContext.fits_of_complete (hg : g.WellFormed) {k : Nat} {p : Production}
    (h : InContext g k γ ⟨p.id, p.right.length⟩ v) (hp : p ∈ g.productions)
    (hne : p.id ≠ acceptId) : ∃ β m, γ = β ++ p.right ∧ k = m + 1 ∧
      Fits g m (β ++ [.nonterminal p.left]) v := by
  obtain ⟨β, hγ, hstart⟩ := h.exists_before
  rw [hg.right_id hp, List.take_length] at hγ
  obtain ⟨k', n, d, u, w, p', hp', hid, rfl, hd, hnext, hw, rfl⟩ := hstart.start_cases hne
  obtain rfl := hg.eq_of_id_eq hp' hp hid
  exact ⟨β, k' + n, hγ, rfl, k', n, d.advance, u, w, rfl, .advance hd hnext, hw, rfl⟩

/-- A valid item before a terminal is one from which some string with that terminal fits. -/
theorem ValidCore.exists_fits (h : ValidCore g γ c) (hnext : c.next? g = some (.terminal t)) :
    ∃ m v, Fits g m γ (.terminal t :: v) := by
  obtain ⟨k, w, hc⟩ := h.exists_inContext
  refine ⟨k + 0, c.rest g ++ w, k, 0, c, w, .terminal t :: c.rest g, rfl, hc, ?_, rfl⟩
  rw [Core.drop_eq_cons hnext]
  exact .refl _

theorem ValidItem.exists_fits_of_complete (h : ValidItem g γ c t) (hcomplete : c.isComplete g = true) :
    ∃ m v, Fits g m γ (.terminal t :: v) := by
  obtain ⟨k, w, hc⟩ := h.exists_inContext
  refine ⟨k + 0, w, k, 0, c, .terminal t :: w, [], rfl, hc, ?_, rfl⟩
  rw [List.drop_eq_nil_of_le (of_decide_eq_true hcomplete)]
  exact .nil

/-- Where a rule may start with a lookahead, its left side goes on to that lookahead. -/
theorem ValidItem.exists_fits_after (hg : g.WellFormed) {p : Production} (hp : p ∈ g.productions)
    (hne : p.id ≠ acceptId) (h : ValidItem g γ (Core.start p.id) t) :
    ∃ m v, Fits g m (γ ++ [.nonterminal p.left]) (.terminal t :: v) := by
  obtain ⟨k, v, hc⟩ := h.exists_inContext
  obtain ⟨k', n, d, u, w, p', hp', hid, -, hd, hnext, hw, hv⟩ := hc.start_cases hne
  obtain rfl := hg.eq_of_id_eq hp' hp hid
  exact ⟨k' + n, v, k', n, d.advance, u, w, rfl, .advance hd hnext, hw, hv⟩

/-- A string that fits and begins with a terminal dictates an action. -/
theorem Fits.dictates (hg : g.WellFormed) {m : Nat} (h : Fits g m γ (.terminal t :: v)) :
    (∃ c, ValidCore g γ c ∧ c.next? g = some (.terminal t) ∧ Fits g m (γ ++ [.terminal t]) v) ∨
    (∃ p ∈ g.productions, p.id ≠ acceptId ∧ ValidItem g γ ⟨p.id, p.right.length⟩ t ∧
      ∃ β m', γ = β ++ p.right ∧ m = m' + 1 ∧
        Fits g m' (β ++ [.nonterminal p.left]) (.terminal t :: v)) ∨
    ∃ c, ValidItem g γ c t ∧ c.isComplete g = true ∧ c.rule = acceptId := by
  obtain ⟨k, n, c, w, u, rfl, hc, hu, hv⟩ := h
  induction n using Nat.strong_induction_on generalizing k c w u with
  | _ n ih =>
    cases hdrop : (g.right c.rule).drop c.marker with
    | nil =>
      -- The item is complete, so its context begins with the terminal.
      have hcomplete : c.isComplete g = true := decide_eq_true (List.drop_eq_nil_iff.1 hdrop)
      rw [hdrop] at hu
      cases hu
      rw [List.nil_append] at hv
      subst hv
      by_cases hrule : c.rule = acceptId
      · exact Or.inr (Or.inr ⟨c, hc.validItem, hcomplete, hrule⟩)
      · obtain ⟨p, hp, rfl⟩ := hc.validCore.exists_rule_of_complete hg hcomplete hrule
        obtain ⟨β, m, hγ, rfl, hfits⟩ := hc.fits_of_complete hg hp hrule
        exact Or.inr (Or.inl ⟨p, hp, hrule, hc.validItem, β, m, hγ, rfl, hfits⟩)
    | cons x after =>
      obtain ⟨hnext, hrest⟩ := Core.next?_of_drop hdrop
      rw [hdrop] at hu
      cases hu with
      | @keep _ _ _ u' hu' =>
        -- The symbol is kept, so it is the terminal.
        obtain ⟨rfl, rfl⟩ := List.cons.inj hv
        refine Or.inl ⟨c, hc.validCore, hnext, k, n, c.advance, w, u', rfl, .advance hc hnext, ?_, rfl⟩
        show Unfolds g.HasRule n (c.rest g) u'
        rw [hrest]
        exact hu'
      | @unfold _ _ a b β _ δ hrule hright hafter =>
        -- The symbol is unfolded, so its rule is started below the item.
        obtain ⟨p, hp, rfl, rfl⟩ := hrule
        rw [← hrest] at hafter
        rw [List.append_assoc] at hv
        have hstart : (g.right (Core.start p.id).rule).drop (Core.start p.id).marker = p.right :=
          hg.right_id hp
        have hcount : k + (a + b + 1) = k + b + 1 + a := by omega
        rw [hcount]
        exact ih a (by omega) (k + b + 1) (Core.start p.id) (δ ++ w) β
          (.expand hc hnext hp hafter) (by rw [hstart]; exact hright) hv

end ShiftReduce
