import OneUnknown.Proofs.Limits
/-!
# How often a solution lists a number

What is recorded is compared as it is written.  A number is rounded first, so every number is written
in one way, and so is every fraction: in lowest terms, and only if it is no integer.  But a rational
number may be recorded as a fraction for one factor of a product and as a number for another one, and
then it is listed twice.

* `Value.rational?`, `Value.IsCanonical`: the rational number that a value denotes, and the two ways
  in which it is written;
* `Binding.IsListing`: values of which none is listed twice as it is written;
* `Binding.IsListing.nodup_rationals_iff`: which rational numbers are listed twice then;
* `Solution.IsListing.record`: recording keeps values apart;
* `Solution.IsIsolated`: solutions for which the unknown was isolated;
* `Sequence.ends_step`, `ends_rewriteUntilSolved`: how a step and a run end;
* `isListing_solveWithin`: runs, by induction on the levels;
* `solve_listed_rationals`: the solution of a text.
-/

namespace OneUnknown

/-! ## The rational number of a value -/

/-- The rational number that a value denotes, if it is a number or a fraction. -/
def Value.rational? : Value → Option Rat
  | .number n => some n.value
  | .fraction top bottom => (Node.fraction top bottom).valueAt (everywhere 0)
  | .root _ | .quotient .. | .noSolution | .trueForAll _ | .range _ => none

/-- A value that is written as values are recorded. -/
def Value.IsCanonical : Value → Prop
  | .number n => n = Number.ofRat n.value
  | .fraction top bottom =>
    ∃ q : Rat, q.den ≠ 1 ∧ Value.fraction top bottom = Value.fractionOf q
  | .root _ | .quotient .. | .noSolution | .trueForAll _ | .range _ => True

/-- The values of an unknown, each recorded once. -/
structure Binding.IsListing (binding : Binding) : Prop where
  nodup : binding.values.Nodup
  canonical : ∀ value ∈ binding.values, value.IsCanonical

section

variable {x : Char} {value value' : Value} {values : List Value} {q : Rat} {binding : Binding}

@[simp] theorem Value.rational?_number (n : Number) : (Value.number n).rational? = some n.value := rfl

@[simp] theorem Value.rational?_fractionOf (q : Rat) : (Value.fractionOf q).rational? = some q :=
  valueAt_quotientFraction _ q

/-- Of the values as they are recorded, two denote a rational number, unless it is an integer. -/
theorem Value.IsCanonical.eq_of_rational? (h : value.IsCanonical) (hq : value.rational? = some q) :
    value = .number (Number.ofRat q) ∨ q.den ≠ 1 ∧ value = Value.fractionOf q := by
  cases value with
  | number n =>
    obtain rfl := Option.some.inj hq
    exact .inl (congrArg Value.number h)
  | fraction top bottom =>
    obtain ⟨q', hden, heq⟩ := h
    rw [heq, Value.rational?_fractionOf] at hq
    obtain rfl := Option.some.inj hq
    exact .inr ⟨hden, heq⟩
  | _ => cases hq

/-- Rounding writes every number in one way. -/
theorem Value.isCanonical_recorded
    (h : ∀ top bottom, value = .fraction top bottom → value.IsCanonical) :
    value.recorded.IsCanonical := by
  cases value with
  | number n => exact (congrArg Number.ofRat (Number.value_ofRat _)).symm
  | fraction top bottom => exact h top bottom rfl
  | _ => trivial

/-- A rational number is listed twice exactly if it is listed as a number and as a fraction. -/
theorem Binding.IsListing.nodup_rationals_iff (h : binding.IsListing) :
    (binding.values.filterMap Value.rational?).Nodup ↔
      ∀ q, ¬(Value.number (Number.ofRat q) ∈ binding.values ∧
        Value.fractionOf q ∈ binding.values) := by
  rw [List.Nodup, List.pairwise_filterMap]
  constructor
  · rintro hpairwise q ⟨hnumber, hfraction⟩
    have : Std.Symm fun value value' : Value => ∀ r, value.rational? = some r →
        ∀ r', value'.rational? = some r' → r ≠ r' :=
      ⟨fun _ _ hne r hr r' hr' heq => hne r' hr' r hr heq.symm⟩
    refine hpairwise.forall hnumber hfraction (fun heq => by cases heq) q ?_ q
      (Value.rational?_fractionOf q) rfl
    rw [Value.rational?_number, Number.value_ofRat]
  · intro hnever
    refine h.nodup.imp_of_mem fun {value value'} hvalue hvalue' hne r hr r' hr' heq => ?_
    subst heq
    obtain rfl | ⟨-, rfl⟩ := (h.canonical value hvalue).eq_of_rational? hr <;>
      obtain rfl | ⟨-, rfl⟩ := (h.canonical value' hvalue').eq_of_rational? hr'
    · exact hne rfl
    · exact hnever r ⟨hvalue, hvalue'⟩
    · exact hnever r ⟨hvalue', hvalue⟩
    · exact hne rfl

/-! ## Recording -/

theorem Binding.isListing_single (h : value.IsCanonical) : (Binding.single value).IsListing where
  nodup := List.nodup_singleton value
  canonical := List.forall_mem_singleton.2 h

/-- A value that is there already is not added. -/
theorem Binding.IsListing.insert (h : binding.IsListing) (hvalue : value.IsCanonical) :
    (binding.insert value).IsListing where
  nodup := by
    rw [Binding.insert]
    split
    · rw [Binding.values_ofValues]
      exact h.nodup
    · rename_i hnew
      rw [Binding.values_ofValues]
      exact h.nodup.append (List.nodup_singleton value) (by simpa using hnew)
  canonical := by
    intro other hother
    rcases Binding.mem_values_insert.1 hother with hother | rfl
    · exact h.canonical other hother
    · exact hvalue

/-- The values of every unknown, each recorded once. -/
def Solution.IsListing (solution : Solution) : Prop :=
  ∀ entry ∈ solution.bindings, entry.2.IsListing

theorem Solution.isListing_empty : Solution.empty.IsListing :=
  List.forall_mem_nil _

theorem Solution.isListing_recordIn {bindings : List (Char × Binding)}
    (h : ∀ entry ∈ bindings, entry.2.IsListing) (hvalue : value.IsCanonical) :
    ∀ entry ∈ Solution.recordIn x value bindings, entry.2.IsListing := by
  induction bindings with
  | nil => exact List.forall_mem_singleton.2 (Binding.isListing_single hvalue)
  | cons first rest ih =>
    obtain ⟨hfirst, hrest⟩ := List.forall_mem_cons.1 h
    rw [Solution.recordIn]
    split
    · exact List.forall_mem_cons.2 ⟨hfirst.insert hvalue, hrest⟩
    · split
      · exact List.forall_mem_cons.2 ⟨Binding.isListing_single hvalue, h⟩
      · exact List.forall_mem_cons.2 ⟨hfirst, ih hrest⟩

/-- Recording keeps the values of every unknown apart, if what is recorded is no fraction other than
those in lowest terms. -/
theorem Solution.IsListing.record {solution : Solution} (h : solution.IsListing)
    (hvalue : ∀ top bottom, value = .fraction top bottom → value.IsCanonical) :
    (solution.record x value).IsListing :=
  Solution.isListing_recordIn h (Value.isCanonical_recorded hvalue)

/-- The values of a listing are added to another one. -/
theorem Solution.IsListing.addEntries {found merged : Solution} (h : found.IsListing)
    {entries : List (Char × Value)} (hentries : ∀ entry ∈ entries, entry.2.IsCanonical)
    (hmerged : addEntries found entries = some merged) : merged.IsListing := by
  induction entries generalizing found with
  | nil => exact Option.some.inj hmerged ▸ h
  | cons entry rest ih =>
    obtain ⟨name, value⟩ := entry
    obtain ⟨hvalue, hrest⟩ := List.forall_mem_cons.1 hentries
    cases value with
    | noSolution => exact ih h hrest hmerged
    | trueForAll => cases hmerged
    | _ => exact ih (h.record fun _ _ _ => hvalue) hrest hmerged

theorem Solution.IsListing.forall_mem_entries {solution : Solution} (h : solution.IsListing) :
    ∀ entry ∈ solution.entries, entry.2.IsCanonical := by
  rintro ⟨name, value⟩ hentry
  obtain ⟨binding, hbinding, hvalue⟩ := Solution.mem_entries.1 hentry
  exact (h _ hbinding).canonical value hvalue

theorem Solution.isListing_only
    (hvalue : ∀ top bottom, value = .fraction top bottom → value.IsCanonical) :
    (Solution.only x value).IsListing :=
  Solution.isListing_empty.record hvalue

theorem Solution.isListing_ofValues
    (h : ∀ value ∈ values, ∀ top bottom, value = .fraction top bottom → value.IsCanonical) :
    (Solution.ofValues x values).IsListing :=
  List.foldlRecOn values _ Solution.isListing_empty fun _ hsolution value hvalue =>
    hsolution.record (h value hvalue)

/-! ## Isolating the unknown -/

/-- A solution without unknowns, or one for which the unknown was isolated. -/
def Solution.IsIsolated (solution : Solution) : Prop :=
  solution.bindings = [] ∨ ∃ coefficient exponent relation constant name values,
    isolate coefficient exponent relation constant name = .ok values ∧
      solution = Solution.ofValues name values

/-- Isolating the unknown gives one value, or no fractions. -/
theorem isolate_single_or_roots {coefficient constant : Rat} {exponent : Nat} {relation : Relation}
    (h : isolate coefficient exponent relation constant x = .ok values) :
    (∃ value, values = [value] ∧
        ∀ top bottom, value = .fraction top bottom → value.IsCanonical) ∨
      ∀ value ∈ values, value.IsRoot := by
  obtain ⟨-, rfl⟩ | ⟨-, ⟨-, range, rfl, -⟩ | ⟨-, -, value, hvalue, rfl⟩ | ⟨-, -, rfl⟩⟩ :=
    isolate_cases h
  · refine .inl ⟨_, rfl, fun top bottom heq => ?_⟩
    split at heq <;> cases heq
  · exact .inl ⟨_, rfl, fun top bottom heq => by cases heq⟩
  · refine .inl ⟨value, rfl, fun top bottom heq => ?_⟩
    obtain rfl | ⟨hden, rfl⟩ := exactQuotient_spec hvalue
    · rw [Value.ofRat_eq] at heq
      cases heq
    · exact ⟨_, hden, rfl⟩
  · obtain hnone | hroots := rootsOf_cases (constant / coefficient) exponent
    · exact .inl ⟨_, hnone, fun top bottom heq => by cases heq⟩
    · exact .inr hroots

namespace Solution.IsIsolated

variable {solution : Solution}

theorem isListing (h : solution.IsIsolated) : solution.IsListing := by
  obtain hnone | ⟨_, _, _, _, name, values, hvalues, rfl⟩ := h
  · rw [IsListing, hnone]
    exact List.forall_mem_nil _
  · refine isListing_ofValues ?_
    obtain ⟨value, rfl, hvalue⟩ | hroots := isolate_single_or_roots hvalues
    · exact List.forall_mem_singleton.2 hvalue
    · rintro _ hvalue top bottom rfl
      exact (hroots _ hvalue).elim

/-- Where the unknown was isolated no rational number is listed twice. -/
theorem nodup_rationals (h : solution.IsIsolated) (hbinding : (x, binding) ∈ solution.bindings) :
    (binding.values.filterMap Value.rational?).Nodup := by
  refine (h.isListing _ hbinding).nodup_rationals_iff.2 ?_
  rintro q ⟨hnumber, hfraction⟩
  obtain hnone | ⟨_, _, _, _, name, values, hvalues, rfl⟩ := h
  · simp [hnone] at hbinding
  · have hrecorded {value : Value} (hvalue : value ∈ binding.values) : RecordedFrom values value :=
      (mem_entries_ofValues.1 (mem_entries.2 ⟨binding, hbinding, hvalue⟩)).2
    obtain ⟨number, hnumber, hnumberEq⟩ := hrecorded hnumber
    obtain ⟨fraction, hfraction, hfractionEq⟩ := hrecorded hfraction
    obtain ⟨value, rfl, -⟩ | hroots := isolate_single_or_roots hvalues
    · rw [List.mem_singleton.1 hnumber] at hnumberEq
      rw [List.mem_singleton.1 hfraction, ← hnumberEq] at hfractionEq
      cases hfractionEq
    · have hroot := hroots fraction hfraction
      cases fraction with
      | number | root | quotient => cases hfractionEq
      | _ => exact hroot.elim

end Solution.IsIsolated

end

/-! ## Steps -/

section

variable {escapes : Stage → Bool} {solve : List Node → Traced Solution} {options : Options}
  {x : Char}

/-- How a step ends: the unknown is isolated, or a product is taken apart, or a sequence is reached
that was recorded. -/
def Step.Ends (escapes : Stage → Bool) (solve : List Node → Traced Solution) (x : Char)
    (nodes : List Node) : Step → Prop
  | .solved solution => solution.IsIsolated ∨ Sequence.isTakenApart nodes = true ∧
      ∃ equations, (mergeFactors solve x Solution.empty equations).outcome = .ok solution
  | .rewritten next => ∃ name, escapes ⟨name, next⟩ = false

theorem Sides.ends_tidied (s : Sides) :
    (s.tidied options x).EnsuresUnless escapes fun crossing =>
      ∀ value, crossing = .settled value → (Solution.only x value).IsIsolated := by
  refine .bind (.of_ofHalting fun _ _ => trivial) fun _ _ => .bind (.of_stage _ _) fun _ _ =>
    .bind (.of_ofHalting fun _ _ => trivial) fun _ _ => .bind (.of_stage _ _) fun _ _ =>
      .bind (.of_ofExcept fun _ _ => trivial) fun multiplied _ =>
        .bind (.of_stage _ _) fun _ _ => .bind (.of_stage _ _) fun _ _ => .of_pure ?_
  intro value hcrossed
  obtain ⟨-, rfl⟩ := Sides.crossed_eq_settled hcrossed
  exact .inr ⟨0, 1, multiplied.collected.relation, 0, x, _, if_pos rfl, rfl⟩

theorem Sides.ends_rewritten (s : Sides) {nodes : List Node} :
    (s.rewritten options x).EnsuresUnless escapes (Step.Ends escapes solve x nodes) := by
  refine .bind (Sides.ends_tidied s) fun crossing hcrossing => ?_
  cases crossing with
  | settled value => exact .of_pure (.inl (hcrossing value rfl))
  | moved next =>
    refine .bind (.of_stage _ _) fun _ hnext => ?_
    split
    · refine .bind (.of_ofExcept fun _ _ => trivial) fun opened _ =>
        .bind (.of_stage _ _) fun _ hopened => ?_
      split
      · exact .of_fail _
      · exact .of_pure ⟨_, hopened⟩
    · exact .of_pure ⟨_, hnext⟩

theorem Sequence.ends_step (nodes : List Node) :
    (Sequence.step solve options x nodes).EnsuresUnless escapes
      (Step.Ends escapes solve x nodes) := by
  refine .bind (.of_ofExcept fun _ h => h) fun written hwritten => ?_
  split
  · exact .of_fail _
  · refine .bind (.of_ofExcept fun _ h => h) fun s hs =>
      .bind (.of_ofExcept fun _ h => h) fun closed hclosed => ?_
    cases closed with
    | some solution =>
      obtain ⟨_, _, _, _, _, _, -, -, -, hvalues, rfl⟩ := Sides.closedForm?_eq_some hclosed
      exact .of_pure (.inl (.inr ⟨_, _, _, _, _, _, hvalues, rfl⟩))
    | none =>
      refine .bind (.of_ofExcept fun _ h => h) fun product hproduct => ?_
      cases product with
      | none => exact Sides.ends_rewritten s
      | some product =>
        dsimp only
        split
        · rename_i hfactorable
          have htaken : Sequence.isTakenApart nodes = true := by
            have hsides : Sequence.withFractions nodes >>= Sides.ofNodes = .ok s :=
              Except.bind_eq_ok.2 ⟨written, hwritten, hs⟩
            simp [Sequence.isTakenApart, hsides, hproduct, hfactorable]
          exact .bind (fun _ _ hmerged => hmerged) fun solution hmerged =>
            .of_pure (.inr ⟨htaken, _, hmerged⟩)
        · exact Sides.ends_rewritten s

/-! ## Runs -/

/-- What holds where the unknown is isolated, and where a product is taken apart, holds at the end of
a run, by induction on its rounds. -/
theorem ends_rewriteUntilSolved (escapes : Stage → Bool) {result : Solution → Prop}
    (hisolated : ∀ solution : Solution, solution.IsIsolated → result solution)
    (hmerged : ∀ name nodes x equations solution, escapes ⟨name, nodes⟩ = false →
      Sequence.isTakenApart nodes = true →
        (mergeFactors solve x Solution.empty equations).outcome = .ok solution → result solution)
    (rounds : Nat) {nodes : List Node} (hnodes : ∃ name, escapes ⟨name, nodes⟩ = false) :
    (rewriteUntilSolved solve options rounds nodes).EnsuresUnless escapes result := by
  induction rounds generalizing nodes with
  | zero => exact .of_fail _
  | succ rounds ih =>
    refine .bind (.of_ofExcept fun _ h => h) fun kind _ => ?_
    cases kind with
    | arithmetic =>
      exact .bind (.of_ofExcept fun _ h => h) fun _ _ => .of_pure (hisolated _ (.inl rfl))
    | comparison =>
      exact .bind (.of_ofExcept fun _ h => h) fun _ _ => .of_pure (hisolated _ (.inl rfl))
    | equation x =>
      refine .bind (Sequence.ends_step nodes) fun step hstep => ?_
      cases step with
      | solved solution =>
        obtain hsolution | ⟨htaken, equations, hsolution⟩ := hstep
        · exact .of_pure (hisolated solution hsolution)
        · obtain ⟨name, hname⟩ := hnodes
          exact .of_pure (hmerged name nodes x equations solution hname htaken hsolution)
      | rewritten next => exact ih hstep

/-- The values of the factors are kept apart, by induction on the factors. -/
theorem isListing_mergeFactors
    (hsolve : ∀ nodes solution, (solve nodes).outcome = .ok solution → solution.IsListing)
    {equations : List (List Node)} {found solution : Solution} (hfound : found.IsListing)
    (h : (mergeFactors solve x found equations).outcome = .ok solution) : solution.IsListing := by
  induction equations generalizing found with
  | nil =>
    obtain rfl := Except.ok.inj h
    split
    · exact hfound.record fun _ _ heq => by cases heq
    · exact hfound
  | cons equation rest ih =>
    obtain ⟨first, hfirst, h⟩ := Traced.bind_eq_ok.1 h
    cases hmerged : addEntries found first.entries with
    | none =>
      rw [hmerged] at h
      obtain rfl := Except.ok.inj h
      exact Solution.isListing_only fun _ _ heq => by cases heq
    | some merged =>
      rw [hmerged] at h
      exact ih (hfound.addEntries (hsolve equation first hfirst).forall_mem_entries hmerged) h

/-- Every solution is a listing, by induction on the levels. -/
theorem isListing_solveWithin (levels : Nat) {nodes : List Node} {solution : Solution}
    (h : (solveWithin levels options nodes).outcome = .ok solution) : solution.IsListing := by
  induction levels generalizing nodes solution with
  | zero => cases h
  | succ levels ih =>
    obtain ⟨cleaned, -, h⟩ := Traced.bind_eq_ok.1 h
    obtain ⟨-, -, h⟩ := Traced.bind_eq_ok.1 h
    exact ends_rewriteUntilSolved (fun _ => false) (fun _ => Solution.IsIsolated.isListing)
      (fun _ _ _ _ _ _ _ => isListing_mergeFactors (fun _ _ => ih) Solution.isListing_empty) _
      ⟨.cleaning, rfl⟩ (fun _ _ => rfl) solution h

/-- Where no product is taken apart, the unknown is isolated. -/
theorem isIsolated_solveNodes {nodes : List Node} {solution : Solution}
    (hsolve : solveNodes options nodes = .ok solution)
    (hkeeps : KeepsProducts (solveTraced options nodes).1) : solution.IsIsolated := by
  obtain ⟨cleaned, hcleaned, -⟩ := Traced.bind_eq_ok.1 (solveTraced_cases hsolve).1
  obtain ⟨levels, hrun, hstages⟩ := solveNodes_cases (Traced.ofExcept_eq_ok.1 hcleaned) hsolve
  rw [hstages] at hkeeps
  obtain ⟨hfirst, hrest⟩ := List.forall_mem_cons.1 hkeeps
  refine ends_rewriteUntilSolved (fun stage => Sequence.isTakenApart stage.nodes) (fun _ => id)
    (fun _ _ _ _ _ hkept htaken _ => ?_) _ ⟨.cleaning, hfirst⟩ hrest solution hrun
  rw [hkept] at htaken
  cases htaken

end

/-! ## The solution of a text -/

/-- How often the solution of a text lists a rational number: more than once exactly if it is listed
as a number and as a fraction.  No value is listed twice, a rational number is written in one of
these two ways only, an integer in the first of them, and where no product is taken apart, none is
listed more than once. -/
theorem solve_listed_rationals {text : List Char} {solution : Solution} {x : Char}
    {binding : Binding} (hsolve : solve text = .ok solution)
    (hbinding : (x, binding) ∈ solution.bindings) :
    ((binding.values.filterMap Value.rational?).Nodup ↔
        ∀ q, ¬(Value.number (Number.ofRat q) ∈ binding.values ∧
          Value.fractionOf q ∈ binding.values)) ∧
      binding.values.Nodup ∧
      (∀ value ∈ binding.values, ∀ q, value.rational? = some q →
        value = .number (Number.ofRat q) ∨ q.den ≠ 1 ∧ value = Value.fractionOf q) ∧
      (∀ nodes, parse text = .ok nodes → KeepsProducts (solveTraced Options.standard nodes).1 →
        (binding.values.filterMap Value.rational?).Nodup) := by
  obtain ⟨nodes, hparse, hsolve⟩ := solveNodes_of_solve hsolve
  have hlisting := isListing_solveWithin _ (solveTraced_cases hsolve).1 _ hbinding
  refine ⟨hlisting.nodup_rationals_iff, hlisting.nodup,
    fun value hvalue q => (hlisting.canonical value hvalue).eq_of_rational?,
    fun nodes' hparse' hkeeps => ?_⟩
  obtain rfl := Except.ok.inj (hparse.symm.trans hparse')
  exact (isIsolated_solveNodes hsolve hkeeps).nodup_rationals hbinding

/-- Both solutions of `(2x - 1)(x - 3) = 0` are listed once. -/
theorem solve_listed_rationals_half_and_three :
    ∃ solution binding, solve "(2x - 1)(x - 3) = 0".toList = .ok solution ∧
      ('x', binding) ∈ solution.bindings ∧ binding.values.filterMap Value.rational? = [1 / 2, 3] ∧
      (binding.values.filterMap Value.rational?).Nodup := by
  have hsolve : solve "(2x - 1)(x - 3) = 0".toList = .ok (.unknowns
      [('x', .set [Value.fractionOf (1 / 2), .number (Number.ofNat 3)])]) := by decide +kernel
  refine ⟨_, _, hsolve, .head _, by decide +kernel,
    (solve_listed_rationals hsolve (.head _)).1.2 ?_⟩
  rintro q ⟨hnumber, hfraction⟩
  have hhalf : Value.fractionOf q = Value.fractionOf (1 / 2) := by
    simpa [Binding.values, Value.fractionOf] using hfraction
  have hq := congrArg Value.rational? hhalf
  rw [Value.rational?_fractionOf, Value.rational?_fractionOf, Option.some.injEq] at hq
  subst hq
  revert hnumber
  decide +kernel

/-- The one solution of `(2x - 1)(x - 0.5) = 0` is listed as a fraction and as a number. -/
theorem solve_lists_half_twice :
    ∃ solution binding, solve "(2x - 1)(x - 0.5) = 0".toList = .ok solution ∧
      ('x', binding) ∈ solution.bindings ∧
      binding.values.filterMap Value.rational? = [1 / 2, 1 / 2] ∧
      ¬ (binding.values.filterMap Value.rational?).Nodup :=
  ⟨.unknowns [('x', .set [Value.fractionOf (1 / 2), .number (Number.ofRat (1 / 2))])],
    .set [Value.fractionOf (1 / 2), .number (Number.ofRat (1 / 2))], by decide +kernel, .head _,
    by decide +kernel, by decide +kernel⟩

end OneUnknown
