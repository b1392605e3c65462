import OneUnknown.Proofs.Answers
import OneUnknown.Proofs.Outcome
import OneUnknown.Proofs.ZeroProduct
/-!
# Merging the solutions of factors

* `Sequence.dropsZeroFactor`: whether a product is taken apart although it is zero everywhere;
* `Solution.IsRight`: what a solution records is true of its unknown;
* `Sides.SolvedBy`: a solution is right, and complete if no stage drops a zero factor;
* `addEntries_eq_some`: the values of one factor are added to those found before;
* `Merged`, `merged_mergeFactors`: what is recorded for a product, by induction on its factors.
-/

namespace OneUnknown

/-- Whether a sequence is the equation of a product that is taken apart although a factor without
the unknown is worth zero. -/
def Sequence.dropsZeroFactor (nodes : List Node) : Bool :=
  match Sequence.withFractions nodes with
  | .ok nodes =>
    match Sides.ofNodes nodes with
    | .ok s => s.dropsZeroFactor
    | .error _ => false
  | .error _ => false

/-- What a solution records is about one unknown, rounded, and true. -/
structure Solution.IsRight (x : Char) (holds : Rat → Prop) (solution : Solution) : Prop where
  unknown : ∀ name value, (name, value) ∈ solution.entries → name = x
  recorded : ∀ name value, (name, value) ∈ solution.entries → value.recorded = value
  sound : ∀ name value, (name, value) ∈ solution.entries → value.IsSound holds

/-- Some recorded value of the unknown stands for the solution `r` of the condition. -/
def Solution.Admits (x : Char) (holds : Rat → Prop) (solution : Solution) (r : Rat) : Prop :=
  ∃ value, (x, value) ∈ solution.entries ∧ value.Admits holds r

/-- No stage drops a zero factor. -/
def NeverDrops (stages : List Stage) : Prop :=
  ∀ stage ∈ stages, Sequence.dropsZeroFactor stage.nodes = false

instance (stages : List Stage) : Decidable (NeverDrops stages) :=
  inferInstanceAs (Decidable (∀ stage ∈ stages, Sequence.dropsZeroFactor stage.nodes = false))

/-- Where a stage drops a zero factor, the equation holds everywhere. -/
def Sides.HoldsWhereDropped (s : Sides) (stages : List Stage) : Prop :=
  ∀ stage ∈ stages, Sequence.dropsZeroFactor stage.nodes = true →
    s.relation = .equal ∧ ∀ r, s.HoldsAt (everywhere r)

/-- A solution is right about an equation, no range is recorded unless it is an inequality, there is
no value beside the one that says that there is none, and no rational solution is missing unless one
of the stages drops a zero factor. -/
structure Sides.SolvedBy (x : Char) (s : Sides) (stages : List Stage) (solution : Solution) : Prop
    extends Solution.IsRight x (fun r => s.HoldsAt (everywhere r)) solution where
  noRange : s.relation = .equal → ∀ name range, (name, .range range) ∉ solution.entries
  alone : (x, .noSolution) ∈ solution.entries →
    ∀ value, (x, value) ∈ solution.entries → value = .noSolution
  complete : NeverDrops stages →
    IsComplete (fun r => s.HoldsAt (everywhere r)) fun value => (x, value) ∈ solution.entries
  holdsWhereDropped : s.HoldsWhereDropped stages

/-! ## Conditions that follow from each other -/

section

variable {P Q : Rat → Prop} {value : Value}

/-- What is sound about a factor is sound about the product. -/
theorem Value.IsSound.imp (h : value.IsSound P) (hrange : ∀ range, value ≠ .range range)
    (himp : ∀ r, P r → Q r) : value.IsSound Q := by
  cases value with
  | number n => exact h.imp fun r hr => ⟨himp r hr.1, hr.2⟩
  | fraction t b => exact h.imp fun r hr => ⟨himp r hr.1, hr.2⟩
  | trueForAll name => exact fun r => himp r (h r)
  | range range => exact absurd rfl (hrange range)
  | root | quotient | noSolution => trivial

theorem Value.Admits.congr {r : Rat} (h : value.Admits P r)
    (hrange : ∀ range, value ≠ .range range) : value.Admits Q r := by
  cases value with
  | range range => exact absurd rfl (hrange range)
  | _ => exact h

end

/-! ## Adding the values of a factor -/

theorem addEntries_eq_some {found merged : Solution} {entries : List (Char × Value)}
    (h : addEntries found entries = some merged) (name : Char) (value : Value) :
    (name, value) ∈ merged.entries ↔ (name, value) ∈ found.entries ∨
      ∃ original, (name, original) ∈ entries ∧ original ≠ .noSolution ∧
        value = original.recorded := by
  induction entries generalizing found with
  | nil =>
    obtain rfl := Option.some.inj h
    simp
  | cons entry rest ih =>
    obtain ⟨other, first⟩ := entry
    have hrecord (hne : first ≠ .noSolution)
        (h : addEntries (found.record other first) rest = some merged) :
        (name, value) ∈ merged.entries ↔ (name, value) ∈ found.entries ∨
          ∃ original, (name, original) ∈ (other, first) :: rest ∧ original ≠ .noSolution ∧
            value = original.recorded := by
      rw [ih h, Solution.mem_entries_record, or_assoc]
      refine or_congr_right ?_
      simp only [List.mem_cons, Prod.mk.injEq, or_and_right, exists_or]
      refine or_congr_left ⟨?_, ?_⟩
      · rintro ⟨rfl, rfl⟩
        exact ⟨first, ⟨rfl, rfl⟩, hne, rfl⟩
      · rintro ⟨original, ⟨rfl, rfl⟩, -, heq⟩
        exact ⟨rfl, heq⟩
    cases first with
    | noSolution =>
      rw [ih h]
      refine or_congr_right (exists_congr fun original => ?_)
      simp only [List.mem_cons, Prod.mk.injEq]
      constructor
      · rintro ⟨hmem, hne, heq⟩
        exact ⟨.inr hmem, hne, heq⟩
      · rintro ⟨⟨-, rfl⟩ | hmem, hne, heq⟩
        · exact absurd rfl hne
        · exact ⟨hmem, hne, heq⟩
    | trueForAll => cases h
    | number | fraction | root | quotient | range => exact hrecord (by simp) h

theorem addEntries_eq_none {found : Solution} {entries : List (Char × Value)}
    (h : addEntries found entries = none) :
    ∃ name other, (name, .trueForAll other) ∈ entries := by
  induction entries generalizing found with
  | nil => cases h
  | cons entry rest ih =>
    obtain ⟨name, first⟩ := entry
    cases first with
    | trueForAll other => exact ⟨name, other, .head _⟩
    | noSolution | number | fraction | root | quotient | range =>
      obtain ⟨name, other, hmem⟩ := ih h
      exact ⟨name, other, .tail _ hmem⟩

/-! ## The factors one after the other -/

section

variable {x : Char} {solve : List Node → Traced Solution} {holds : Rat → Prop}

/-- The values of a factor that has been solved, added to what was found before. -/
theorem Solution.IsRight.addEntries {found merged solution : Solution} {t : Sides}
    {stages : List Stage} (hfound : found.IsRight x holds) (ht : t.SolvedBy x stages solution)
    (hequal : t.relation = .equal) (himp : ∀ r, t.HoldsAt (everywhere r) → holds r)
    (h : OneUnknown.addEntries found solution.entries = some merged) :
    merged.IsRight x holds := by
  have hmem := addEntries_eq_some h
  have hcases {name : Char} {value : Value} (hvalue : (name, value) ∈ merged.entries) :
      (name, value) ∈ found.entries ∨ (name, value) ∈ solution.entries := by
    refine ((hmem name value).1 hvalue).imp_right ?_
    rintro ⟨original, horiginal, -, rfl⟩
    rwa [ht.recorded name original horiginal]
  constructor
  · exact fun name value hvalue =>
      (hcases hvalue).elim (hfound.unknown name value) (ht.unknown name value)
  · exact fun name value hvalue =>
      (hcases hvalue).elim (hfound.recorded name value) (ht.recorded name value)
  · intro name value hvalue
    rcases hcases hvalue with hvalue | hvalue
    · exact hfound.sound name value hvalue
    · refine (ht.sound name value hvalue).imp ?_ himp
      rintro range rfl
      exact ht.noRange hequal name range hvalue

/-- What has been found so far for a product. -/
structure Found (x : Char) (holds : Rat → Prop) (found : Solution) : Prop
    extends Solution.IsRight x holds found where
  noRange : ∀ name range, (name, .range range) ∉ found.entries
  noSolution : ∀ name, (name, .noSolution) ∉ found.entries

theorem Found.empty (x : Char) (holds : Rat → Prop) : Found x holds Solution.empty where
  unknown := by simp
  recorded := by simp
  sound := by simp
  noRange := by simp
  noSolution := by simp

theorem Found.addEntries {found merged solution : Solution} {t : Sides} {stages : List Stage}
    (hfound : Found x holds found) (ht : t.SolvedBy x stages solution)
    (hequal : t.relation = .equal) (himp : ∀ r, t.HoldsAt (everywhere r) → holds r)
    (h : OneUnknown.addEntries found solution.entries = some merged) : Found x holds merged where
  toIsRight := hfound.toIsRight.addEntries ht hequal himp h
  noRange := by
    intro name range hrange
    rcases (addEntries_eq_some h _ _).1 hrange with hrange | ⟨original, horiginal, -, heq⟩
    · exact hfound.noRange name range hrange
    · rw [ht.recorded name original horiginal] at heq
      exact ht.noRange hequal name range (heq ▸ horiginal)
  noSolution := by
    intro name hnone
    rcases (addEntries_eq_some h _ _).1 hnone with hnone | ⟨original, horiginal, hne, heq⟩
    · exact hfound.noSolution name hnone
    · rw [ht.recorded name original horiginal] at heq
      exact hne heq.symm

/-- What is recorded for a product whose factors are solved one after the other, on top of what was
found before: it is true of the product, nothing found before is lost, and neither is a solution of
a factor. -/
structure Merged (x : Char) (holds : Rat → Prop) (parts : List Sides) (stages : List Stage)
    (found solution : Solution) : Prop extends Solution.IsRight x holds solution where
  noRange : ∀ name range, (name, .range range) ∉ solution.entries
  alone : (x, .noSolution) ∈ solution.entries →
    ∀ value, (x, value) ∈ solution.entries → value = .noSolution
  admits : NeverDrops stages → ∀ r,
    (found.Admits x holds r ∨ ∃ t ∈ parts, t.HoldsAt (everywhere r)) → solution.Admits x holds r
  noSolution : NeverDrops stages → (x, .noSolution) ∈ solution.entries →
    (∀ value, (x, value) ∉ found.entries) ∧ ∀ t ∈ parts, ∀ r, ¬ t.HoldsAt (everywhere r)
  holdsWhereDropped : ∀ stage ∈ stages, Sequence.dropsZeroFactor stage.nodes = true →
    ∃ t ∈ parts, ∀ r, t.HoldsAt (everywhere r)

/-- Without a factor there is no solution, unless one was found before. -/
theorem Found.merged_nil {found : Solution} (hfound : Found x holds found) :
    Merged x holds [] [] found
      (if (found.get? x).isNone then found.record x .noSolution else found) := by
  split
  · rename_i hnone
    have hcases {name : Char} {value : Value}
        (h : (name, value) ∈ (found.record x .noSolution).entries) :
        (name, value) ∈ found.entries ∨ (name = x ∧ value = .noSolution) :=
      Solution.mem_entries_record.1 h
    have hempty (value : Value) : (x, value) ∉ found.entries := by
      intro hvalue
      obtain ⟨binding, hbinding, -⟩ := Solution.mem_entries.1 hvalue
      exact Solution.get?_eq_none_iff.1 (Option.isNone_iff_eq_none.1 hnone) binding hbinding
    refine ⟨⟨?_, ?_, ?_⟩, ?_, ?_, ?_, fun _ _ => ⟨hempty, by simp⟩, by simp⟩
    · exact fun name value hvalue => (hcases hvalue).elim (hfound.unknown name value) And.left
    · intro name value hvalue
      rcases hcases hvalue with hvalue | ⟨-, rfl⟩
      · exact hfound.recorded name value hvalue
      · rfl
    · intro name value hvalue
      rcases hcases hvalue with hvalue | ⟨-, rfl⟩
      · exact hfound.sound name value hvalue
      · trivial
    · intro name range hrange
      rcases hcases hrange with hrange | ⟨-, heq⟩
      · exact hfound.noRange name range hrange
      · cases heq
    · exact fun _ value hvalue => (hcases hvalue).elim (fun h => absurd h (hempty value)) And.right
    · rintro - r (⟨value, hvalue, -⟩ | ⟨t, ht, -⟩)
      · exact absurd hvalue (hempty value)
      · cases ht
  · refine ⟨hfound.toIsRight, hfound.noRange, fun hmem => absurd hmem (hfound.noSolution x), ?_,
      fun _ hmem => absurd hmem (hfound.noSolution x), by simp⟩
    rintro - r (hadmits | ⟨t, ht, -⟩)
    · exact hadmits
    · cases ht

/-- One factor is zero everywhere, and so is the product. -/
theorem merged_of_trueForAll {found : Solution} {t : Sides} {rest : List Sides}
    {stages : List Stage} (himp : ∀ r, t.HoldsAt (everywhere r) → holds r)
    (hall : ∀ r, t.HoldsAt (everywhere r)) :
    Merged x holds (t :: rest) stages found (Solution.only x (.trueForAll x)) where
  unknown := fun _ _ hvalue => (Solution.mem_entries_only.1 hvalue).1
  recorded := by
    intro name value hvalue
    rw [(Solution.mem_entries_only.1 hvalue).2, Value.recorded_recorded]
  sound := by
    intro name value hvalue
    rw [(Solution.mem_entries_only.1 hvalue).2]
    exact fun r => himp r (hall r)
  noRange := fun _ _ hrange => by cases (Solution.mem_entries_only.1 hrange).2
  alone := fun hnone => by cases (Solution.mem_entries_only.1 hnone).2
  admits := fun _ _ _ => ⟨.trueForAll x, Solution.mem_entries_only.2 ⟨rfl, rfl⟩, trivial⟩
  noSolution := fun _ hnone => by cases (Solution.mem_entries_only.1 hnone).2
  holdsWhereDropped := fun _ _ _ => ⟨t, .head _, hall⟩

/-- The solution of a factor is added, and then those of the others. -/
theorem Merged.cons {found merged first solution : Solution} {t : Sides} {rest : List Sides}
    {stages stages' : List Stage} (ht : t.SolvedBy x stages first) (hequal : t.relation = .equal)
    (hmerged : OneUnknown.addEntries found first.entries = some merged)
    (h : Merged x holds rest stages' merged solution) :
    Merged x holds (t :: rest) (stages ++ stages') found solution := by
  have hnever (h : NeverDrops (stages ++ stages')) : NeverDrops stages ∧ NeverDrops stages' :=
    List.forall_mem_append.1 h
  have hold {value : Value} (hvalue : (x, value) ∈ found.entries) : (x, value) ∈ merged.entries :=
    (addEntries_eq_some hmerged _ _).2 (.inl hvalue)
  have hnew (hstages : NeverDrops stages) (r : Rat) (hr : t.HoldsAt (everywhere r)) :
      merged.Admits x holds r := by
    obtain ⟨value, hvalue, hadmits⟩ := (ht.complete hstages).admits r hr
    refine ⟨value, (addEntries_eq_some hmerged _ _).2 (.inr ⟨value, hvalue, ?_, ?_⟩),
      hadmits.congr ?_⟩
    · rintro rfl
      exact hadmits
    · exact (ht.recorded x value hvalue).symm
    · rintro range rfl
      exact ht.noRange hequal x range hvalue
  refine ⟨h.toIsRight, h.noRange, h.alone, fun hstages r hr => ?_, fun hstages hmem => ?_,
    fun stage hstage hdrops => ?_⟩
  · refine h.admits (hnever hstages).2 r ?_
    rcases hr with ⟨value, hvalue, hadmits⟩ | ⟨u, hu, hr⟩
    · exact .inl ⟨value, hold hvalue, hadmits⟩
    · rcases List.mem_cons.1 hu with rfl | hu
      · exact .inl (hnew (hnever hstages).1 r hr)
      · exact .inr ⟨u, hu, hr⟩
  · obtain ⟨hempty, hrest⟩ := h.noSolution (hnever hstages).2 hmem
    refine ⟨fun value hvalue => hempty value (hold hvalue), fun u hu r hr => ?_⟩
    rcases List.mem_cons.1 hu with rfl | hu
    · obtain ⟨value, hvalue, -⟩ := hnew (hnever hstages).1 r hr
      exact hempty value hvalue
    · exact hrest u hu r hr
  · rcases List.mem_append.1 hstage with hstage | hstage
    · exact ⟨t, .head _, (ht.holdsWhereDropped stage hstage hdrops).2⟩
    · obtain ⟨u, hu, hall⟩ := h.holdsWhereDropped stage hstage hdrops
      exact ⟨u, .tail _ hu, hall⟩

/-- What is recorded for a product, by induction on the factors. -/
theorem merged_mergeFactors {parts : List Sides} {found solution : Solution}
    (hparts : ∀ t ∈ parts, t.relation = .equal ∧ ∀ solution,
      (solve t.toNodes).outcome = .ok solution → t.SolvedBy x (solve t.toNodes).stages solution)
    (himp : ∀ t ∈ parts, ∀ r, t.HoldsAt (everywhere r) → holds r) (hfound : Found x holds found)
    (h : (mergeFactors solve x found (parts.map Sides.toNodes)).outcome = .ok solution) :
    Merged x holds parts (mergeFactors solve x found (parts.map Sides.toNodes)).stages found
      solution := by
  induction parts generalizing found with
  | nil =>
    rw [← Except.ok.inj h]
    exact hfound.merged_nil
  | cons t rest ih =>
    obtain ⟨first, hfirst, h, hstages⟩ := Traced.bind_cases h
    obtain ⟨hequal, hsolved⟩ := hparts t (.head _)
    have hsolved := hsolved first hfirst
    have himpFirst := himp t (.head _)
    rw [List.map_cons, mergeFactors, hstages]
    cases hmerged : addEntries found first.entries with
    | none =>
      rw [hmerged] at h
      obtain rfl := Except.ok.inj h
      obtain ⟨name, other, htrue⟩ := addEntries_eq_none hmerged
      exact merged_of_trueForAll himpFirst (hsolved.sound name _ htrue)
    | some merged =>
      rw [hmerged] at h
      exact .cons hsolved hequal hmerged (ih (fun t ht => hparts t (.tail _ ht))
        (fun t ht => himp t (.tail _ ht)) (hfound.addEntries hsolved hequal himpFirst hmerged) h)

end

end OneUnknown
