import OneUnknown.Equation.ZeroProduct
import OneUnknown.Proofs.Rounding
/-!
# What a solution says

A solution is measured against the condition that the unknown is to satisfy, a predicate on the
rationals.

* `Value.IsSound`: what is recorded is true;
* `Value.Admits`: a solution of the condition is among what is recorded;
* `Answers`: a collection of recorded values is sound, and no rational solution is missing;
* `Solution.mem_entries_record`: recording a value adds that value and nothing else.
-/

namespace OneUnknown

/-- Whether a recorded value is right about the condition `holds`.  Recorded numbers and the ends
of ranges are rounded, fractions are exact, and irrational roots are not looked at. -/
def Value.IsSound (holds : Rat → Prop) : Value → Prop
  | .number n => ∃ r, holds r ∧ n = Number.ofRat (Rational.rounded r)
  | .fraction t b => ∃ r, holds r ∧ (Node.fraction t b).valueAt (everywhere 0) = some r
  | .trueForAll _ => ∀ r, holds r
  | .range recorded => ∃ exact : Range, exact.rounded = recorded ∧ ∀ r, exact.contains r ↔ holds r
  | .root _ | .quotient .. | .noSolution => True

/-- Whether a recorded value stands for the solution `r` of the condition `holds`. -/
def Value.Admits (holds : Rat → Prop) (r : Rat) : Value → Prop
  | .number n => n = Number.ofRat (Rational.rounded r)
  | .fraction t b => (Node.fraction t b).valueAt (everywhere 0) = some r
  | .trueForAll _ => True
  | .range recorded =>
    ∃ exact : Range, exact.rounded = recorded ∧ exact.contains r ∧ ∀ r, exact.contains r ↔ holds r
  | .root _ | .quotient .. | .noSolution => False

/-- No rational solution of a condition is missing among the recorded values. -/
structure IsComplete (holds : Rat → Prop) (recorded : Value → Prop) : Prop where
  admits : ∀ r, holds r → ∃ value, recorded value ∧ value.Admits holds r
  noSolution : recorded .noSolution → ∀ r, ¬ holds r

/-- The recorded values are right about a condition, and none of its rational solutions is
missing. -/
structure Answers (holds : Rat → Prop) (recorded : Value → Prop) : Prop extends
    IsComplete holds recorded where
  sound : ∀ value, recorded value → value.IsSound holds

/-- The values that are kept when some values are recorded. -/
def RecordedFrom (values : List Value) (value : Value) : Prop :=
  ∃ original ∈ values, value = original.recorded

/-! ## Numbers -/

theorem Value.ofRat_eq (value : Rat) :
    Value.ofRat value = .number (Number.ofRat (Rational.rounded value)) := by
  rw [Value.ofRat, Value.recorded, Number.rounded_ofRat]

theorem Value.recorded_ofRat (value : Rat) : (Value.ofRat value).recorded = Value.ofRat value :=
  Value.recorded_recorded _

/-- Recording rational numbers answers a condition of which they are the solutions. -/
theorem Answers.of_rationals {holds : Rat → Prop} {recorded : Value → Prop} (roots : List Rat)
    (hroots : ∀ r, holds r ↔ r ∈ roots)
    (hrecorded : ∀ value, recorded value ↔ ∃ root ∈ roots, value = Value.ofRat root) :
    Answers holds recorded where
  sound := by
    intro value hvalue
    obtain ⟨root, hroot, rfl⟩ := (hrecorded value).1 hvalue
    rw [Value.ofRat_eq]
    exact ⟨root, (hroots root).2 hroot, rfl⟩
  admits := fun r hr =>
    ⟨Value.ofRat r, (hrecorded _).2 ⟨r, (hroots r).1 hr, rfl⟩, by rw [Value.ofRat_eq]; rfl⟩
  noSolution := by
    intro hnone
    obtain ⟨root, -, heq⟩ := (hrecorded _).1 hnone
    rw [Value.ofRat_eq] at heq
    cases heq

/-! ## What a solution records -/

namespace Binding

theorem values_ofValues {values : List Value} : (ofValues values).values = values := by
  unfold ofValues
  split <;> rfl

theorem mem_values_insert {binding : Binding} {value other : Value} :
    other ∈ (binding.insert value).values ↔ other ∈ binding.values ∨ other = value := by
  rw [insert]
  split
  · rename_i hmem
    rw [values_ofValues]
    exact ⟨Or.inl, fun h => h.elim id fun heq => heq ▸ hmem⟩
  · rw [values_ofValues, List.mem_append, List.mem_singleton]

end Binding

namespace Solution

variable {name other : Char} {value found : Value}

/-- The values in some bindings, each with its unknown. -/
theorem mem_entries {s : Solution} :
    (name, value) ∈ s.entries ↔
      ∃ binding, (name, binding) ∈ s.bindings ∧ value ∈ binding.values := by
  simp only [entries, List.mem_flatMap, List.mem_map, Prod.mk.injEq, Prod.exists]
  constructor
  · rintro ⟨other, binding, hbinding, found, hfound, rfl, rfl⟩
    exact ⟨binding, hbinding, hfound⟩
  · rintro ⟨binding, hbinding, hvalue⟩
    exact ⟨name, binding, hbinding, value, hvalue, rfl, rfl⟩

theorem mem_recordIn {bindings : List (Char × Binding)} :
    (∃ binding, (other, binding) ∈ recordIn name value bindings ∧ found ∈ binding.values) ↔
      (∃ binding, (other, binding) ∈ bindings ∧ found ∈ binding.values) ∨
        (other = name ∧ found = value) := by
  induction bindings with
  | nil =>
    simp only [recordIn, List.mem_singleton, Prod.mk.injEq, List.not_mem_nil, false_and,
      exists_false, false_or]
    constructor
    · rintro ⟨binding, ⟨rfl, rfl⟩, hfound⟩
      exact ⟨rfl, List.mem_singleton.1 hfound⟩
    · rintro ⟨rfl, rfl⟩
      exact ⟨_, ⟨rfl, rfl⟩, .head _⟩
  | cons first rest ih =>
    obtain ⟨firstName, first⟩ := first
    rw [recordIn]
    split
    · rename_i heq
      subst heq
      simp only [List.mem_cons, Prod.mk.injEq, or_and_right, exists_or]
      constructor
      · rintro (⟨binding, ⟨rfl, rfl⟩, hfound⟩ | hrest)
        · exact (Binding.mem_values_insert.1 hfound).elim
            (fun h => .inl (.inl ⟨first, ⟨rfl, rfl⟩, h⟩)) fun h => .inr ⟨rfl, h⟩
        · exact .inl (.inr hrest)
      · rintro ((⟨binding, ⟨rfl, rfl⟩, hfound⟩ | hrest) | ⟨rfl, rfl⟩)
        · exact .inl ⟨_, ⟨rfl, rfl⟩, Binding.mem_values_insert.2 (.inl hfound)⟩
        · exact .inr hrest
        · exact .inl ⟨_, ⟨rfl, rfl⟩, Binding.mem_values_insert.2 (.inr rfl)⟩
    · split
      · simp only [List.mem_cons (a := (other, _)), Prod.mk.injEq, or_and_right, exists_or]
        constructor
        · rintro (⟨binding, ⟨rfl, rfl⟩, hfound⟩ | hrest)
          · exact .inr ⟨rfl, List.mem_singleton.1 hfound⟩
          · exact .inl hrest
        · rintro (hrest | ⟨rfl, rfl⟩)
          · exact .inr hrest
          · exact .inl ⟨_, ⟨rfl, rfl⟩, .head _⟩
      · simp only [List.mem_cons (a := (other, _)), or_and_right, exists_or, ih, or_assoc]

/-- Recording a value adds that value and nothing else. -/
theorem mem_entries_record {s : Solution} :
    (other, found) ∈ (s.record name value).entries ↔
      (other, found) ∈ s.entries ∨ (other = name ∧ found = value.recorded) := by
  rw [mem_entries, mem_entries]
  exact mem_recordIn

@[simp] theorem entries_empty : empty.entries = [] := rfl

theorem mem_entries_only :
    (other, found) ∈ (only name value).entries ↔ other = name ∧ found = value.recorded := by
  rw [only, mem_entries_record]
  simp

theorem mem_entries_ofValues {values : List Value} :
    (other, found) ∈ (ofValues name values).entries ↔ other = name ∧ RecordedFrom values found := by
  have hfold (s : Solution) : (other, found) ∈
      (values.foldl (fun s value => s.record name value) s).entries ↔
        (other, found) ∈ s.entries ∨ (other = name ∧ RecordedFrom values found) := by
    induction values generalizing s with
    | nil => simp [RecordedFrom]
    | cons first rest ih =>
      rw [List.foldl_cons, ih, mem_entries_record, or_assoc, ← and_or_left]
      simp [RecordedFrom]
  rw [ofValues, hfold]
  simp

theorem get?_eq_none_iff {s : Solution} :
    s.get? name = none ↔ ∀ binding, (name, binding) ∉ s.bindings := by
  simp only [get?, Option.map_eq_none_iff, List.find?_eq_none, decide_eq_true_eq, Prod.forall]
  constructor
  · intro h binding hmem
    exact h name binding hmem rfl
  · rintro h other binding hmem rfl
    exact h binding hmem

end Solution

end OneUnknown
