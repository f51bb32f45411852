/-!
# Repeating a pass until nothing changes

Nullable symbols, First sets and closures are each computed by a pass that only adds, repeated
until it adds nothing.  What a pass adds is measured by a weight; where the weight is bounded, a
number of passes beyond the bound ends in a value that the pass leaves alone.

    bound < weight a + fuel → pass (saturate pass weight fuel a) = saturate pass weight fuel a
                                                                              (pass_saturate)
-/

namespace ShiftReduce

variable {α : Type}

/-- Applies `pass` until the weight stays the same, at most `fuel` times. -/
def saturate (pass : α → α) (weight : α → Nat) : Nat → α → α
  | 0, a => a
  | fuel + 1, a =>
    let b := pass a
    if weight b = weight a then a else saturate pass weight fuel b

/-- The weights of the members of a list together. -/
def total (weight : α → Nat) : List α → Nat
  | [] => 0
  | a :: rest => weight a + total weight rest

theorem saturate_induction {pass : α → α} {weight : α → Nat} {P : α → Prop}
    (step : ∀ a, P a → P (pass a)) (fuel : Nat) (a : α) (h : P a) :
    P (saturate pass weight fuel a) := by
  induction fuel generalizing a with
  | zero => exact h
  | succ fuel ih =>
    unfold saturate
    simp only
    split
    · exact h
    · exact ih _ (step a h)

theorem pass_saturate {pass : α → α} {weight : α → Nat} {P : α → Prop} {bound : Nat}
    (step : ∀ a, P a → P (pass a))
    (grows : ∀ a, P a → weight a ≤ weight (pass a))
    (still : ∀ a, P a → weight (pass a) = weight a → pass a = a)
    (bounded : ∀ a, P a → weight a ≤ bound) (fuel : Nat) (a : α) (h : P a)
    (enough : bound < weight a + fuel) :
    pass (saturate pass weight fuel a) = saturate pass weight fuel a := by
  induction fuel generalizing a with
  | zero =>
    have := bounded a h
    omega
  | succ fuel ih =>
    unfold saturate
    simp only
    split
    · next heq => exact still a h heq
    · next hne =>
      refine ih _ (step a h) ?_
      have := grows a h
      omega

end ShiftReduce
