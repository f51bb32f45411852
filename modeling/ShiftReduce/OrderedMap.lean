/-!
# Finite maps in order of insertion

An `OrderedMap` lists its bindings in the order in which their keys were first bound, and binds
no key twice.  `find?` is the view of a map; its one update, `upsert`, changes the value under a
key in place or appends a first value.

    (m.upsert k f).find? k' = if k' = k then some (f (m.find? k)) else m.find? k'   (find?_upsert)
    (m.upsert k f).keys = if k ∈ m.keys then m.keys else m.keys ++ [k]              (keys_upsert)
-/

namespace ShiftReduce

/-! ## Bindings as a list -/

section Bindings

variable {κ ν : Type} [DecidableEq κ]

/-- The value of the first binding of a key. -/
def bindingOf? (k : κ) : List (κ × ν) → Option ν
  | [] => none
  | (k', v) :: rest => if k' = k then some v else bindingOf? k rest

/-- Replaces the value under a key, or binds the key at the end. -/
def upsertBinding (k : κ) (f : Option ν → ν) : List (κ × ν) → List (κ × ν)
  | [] => [(k, f none)]
  | (k', v) :: rest => if k' = k then (k', f (some v)) :: rest else (k', v) :: upsertBinding k f rest

theorem keys_upsertBinding (k : κ) (f : Option ν → ν) (l : List (κ × ν)) :
    (upsertBinding k f l).map Prod.fst =
      if k ∈ l.map Prod.fst then l.map Prod.fst else l.map Prod.fst ++ [k] := by
  induction l with
  | nil => simp [upsertBinding]
  | cons e rest ih =>
    obtain ⟨k', v⟩ := e
    by_cases h : k' = k
    · simp [upsertBinding, h]
    · have h' : ¬ k = k' := fun e => h e.symm
      simp only [upsertBinding, if_neg h, List.map_cons, ih, List.mem_cons, h', false_or]
      split <;> simp

theorem bindingOf?_upsertBinding (k k' : κ) (f : Option ν → ν) (l : List (κ × ν)) :
    bindingOf? k' (upsertBinding k f l) =
      if k' = k then some (f (bindingOf? k l)) else bindingOf? k' l := by
  induction l with
  | nil =>
    by_cases h : k' = k
    · simp [upsertBinding, bindingOf?, h]
    · have h' : ¬ k = k' := fun e => h e.symm
      simp [upsertBinding, bindingOf?, h, h']
  | cons e rest ih =>
    obtain ⟨j, v⟩ := e
    by_cases hj : j = k
    · subst hj
      by_cases h : k' = j
      · simp [upsertBinding, bindingOf?, h]
      · have h' : ¬ j = k' := fun e => h e.symm
        simp [upsertBinding, bindingOf?, h, h']
    · simp only [upsertBinding, if_neg hj, bindingOf?, ih]
      by_cases h : j = k'
      · subst h
        simp [hj]
      · simp [h]

theorem bindingOf?_eq_some_iff {k : κ} {v : ν} {l : List (κ × ν)} (h : (l.map Prod.fst).Nodup) :
    bindingOf? k l = some v ↔ (k, v) ∈ l := by
  induction l with
  | nil => simp [bindingOf?]
  | cons e rest ih =>
    obtain ⟨k', v'⟩ := e
    rw [List.map_cons, List.nodup_cons] at h
    by_cases hk : k' = k
    · subst hk
      simp only [bindingOf?, if_true, Option.some.injEq, List.mem_cons, Prod.mk.injEq, true_and]
      refine ⟨fun e => Or.inl e.symm, ?_⟩
      rintro (rfl | hmem)
      · rfl
      · exact absurd (List.mem_map.2 ⟨_, hmem, rfl⟩) h.1
    · have hk' : ¬ k = k' := fun e => hk e.symm
      simp [bindingOf?, hk, hk', ih h.2]

theorem bindingOf?_eq_none_iff {k : κ} {l : List (κ × ν)} :
    bindingOf? k l = none ↔ k ∉ l.map Prod.fst := by
  induction l with
  | nil => simp [bindingOf?]
  | cons e rest ih =>
    obtain ⟨k', v'⟩ := e
    by_cases hk : k' = k
    · simp [bindingOf?, hk]
    · have hk' : ¬ k = k' := fun e => hk e.symm
      simp only [bindingOf?, if_neg hk, ih, List.map_cons, List.mem_cons, hk', false_or]

end Bindings

/-! ## Maps -/

/-- A finite map, listed in the order in which its keys were first bound. -/
structure OrderedMap (κ ν : Type) where
  entries : List (κ × ν)
  nodup_keys : (entries.map Prod.fst).Nodup

namespace OrderedMap

variable {κ ν : Type}

def empty : OrderedMap κ ν := ⟨[], List.nodup_nil⟩

def size (m : OrderedMap κ ν) : Nat := m.entries.length

def keys (m : OrderedMap κ ν) : List κ := m.entries.map Prod.fst

theorem ext_entries {m n : OrderedMap κ ν} (h : m.entries = n.entries) : m = n := by
  cases m; cases n; cases h; rfl

@[simp] theorem entries_empty : (empty : OrderedMap κ ν).entries = [] := rfl

theorem keys_nodup (m : OrderedMap κ ν) : m.keys.Nodup := m.nodup_keys

variable [DecidableEq κ]

def find? (m : OrderedMap κ ν) (k : κ) : Option ν := bindingOf? k m.entries

/-- Gives the key the value computed from its old one, if it has one. -/
def upsert (m : OrderedMap κ ν) (k : κ) (f : Option ν → ν) : OrderedMap κ ν where
  entries := upsertBinding k f m.entries
  nodup_keys := by
    rw [keys_upsertBinding]
    split
    · exact m.nodup_keys
    · next h =>
      exact List.nodup_append.2
        ⟨m.nodup_keys, by simp, fun a ha b hb e => h (List.mem_singleton.1 hb ▸ e ▸ ha)⟩

def insert (m : OrderedMap κ ν) (k : κ) (v : ν) : OrderedMap κ ν := m.upsert k fun _ => v

@[simp] theorem find?_empty (k : κ) : (empty : OrderedMap κ ν).find? k = none := rfl

theorem find?_upsert (m : OrderedMap κ ν) (k k' : κ) (f : Option ν → ν) :
    (m.upsert k f).find? k' = if k' = k then some (f (m.find? k)) else m.find? k' :=
  bindingOf?_upsertBinding k k' f m.entries

theorem find?_insert (m : OrderedMap κ ν) (k k' : κ) (v : ν) :
    (m.insert k v).find? k' = if k' = k then some v else m.find? k' :=
  m.find?_upsert k k' _

theorem keys_upsert (m : OrderedMap κ ν) (k : κ) (f : Option ν → ν) :
    (m.upsert k f).keys = if k ∈ m.keys then m.keys else m.keys ++ [k] :=
  keys_upsertBinding k f m.entries

theorem find?_eq_some_iff {m : OrderedMap κ ν} {k : κ} {v : ν} :
    m.find? k = some v ↔ (k, v) ∈ m.entries :=
  bindingOf?_eq_some_iff m.nodup_keys

theorem find?_eq_none_iff {m : OrderedMap κ ν} {k : κ} : m.find? k = none ↔ k ∉ m.keys :=
  bindingOf?_eq_none_iff

end OrderedMap

end ShiftReduce
