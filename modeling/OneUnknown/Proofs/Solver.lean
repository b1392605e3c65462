import OneUnknown.Solver
import OneUnknown.Proofs.ClosedForm
import OneUnknown.Proofs.Kinds
import OneUnknown.Proofs.Merging
import OneUnknown.Proofs.Step
/-!
# What is recorded is true, and when it is everything

A run of the solver is followed from its end: the last step records values, the steps before it
keep the solutions of the equation, and the factors of a product are solved by smaller runs.

* `Sides.IsolatedAs.solvedBy`, `Sides.isolatedAs_settled`, `Sides.solvedBy_zeroProduct`: the ways in
  which a step ends a run;
* `Sides.Run`, `Sides.Run.of_rewriteUntilSolved`: a run, from its first step to its last;
* `Sides.Run.solvedBy`: what is recorded at the end of a run solves the equation it begins with;
* `solvedBy_solveWithin`: runs within runs, by induction on their levels;
* `solve_sound`: whatever is recorded for a problem is true;
* `solve_complete_iff`: when no solution is missing.
-/

namespace OneUnknown

section

variable {x : Char} {s t : Sides} {solution : Solution}

/-! ## The ends of a run -/

theorem Sides.solvedBy_ofValues {values : List Value}
    (hanswers : Answers (fun r => t.HoldsAt (everywhere r)) (RecordedFrom values))
    (hrange : t.relation = .equal → ∀ value ∈ values, ∀ range, value ≠ .range range)
    (halone : .noSolution ∈ values → values = [.noSolution]) :
    t.SolvedBy x [] (Solution.ofValues x values) where
  unknown := fun _ _ hmem => (Solution.mem_entries_ofValues.1 hmem).1
  recorded := by
    intro name value hmem
    obtain ⟨-, original, -, rfl⟩ := Solution.mem_entries_ofValues.1 hmem
    exact Value.recorded_recorded original
  sound := fun _ value hmem => hanswers.sound value (Solution.mem_entries_ofValues.1 hmem).2
  noRange := by
    intro hequal name range hmem
    obtain ⟨-, original, horiginal, heq⟩ := Solution.mem_entries_ofValues.1 hmem
    cases original with
    | range found => exact hrange hequal _ horiginal found rfl
    | _ => cases heq
  alone := by
    intro hnone value hvalue
    obtain ⟨-, original, horiginal, heq⟩ := Solution.mem_entries_ofValues.1 hnone
    obtain ⟨-, other, hother, rfl⟩ := Solution.mem_entries_ofValues.1 hvalue
    cases original <;> cases heq
    rw [halone horiginal, List.mem_singleton] at hother
    rw [hother]
    rfl
  complete := by
    intro _
    have hrecorded : (fun value => (x, value) ∈ (Solution.ofValues x values).entries) =
        RecordedFrom values := by
      funext value
      simp [Solution.mem_entries_ofValues]
    rw [hrecorded]
    exact hanswers.toIsComplete
  holdsWhereDropped := fun _ hstage => absurd hstage List.not_mem_nil

/-- What is recorded when the unknown is isolated solves the equation. -/
theorem Sides.IsolatedAs.solvedBy (h : t.IsolatedAs x solution) : t.SolvedBy x [] solution := by
  obtain ⟨values, rfl, hanswers, hrange, halone⟩ := h.answers
  exact Sides.solvedBy_ofValues hanswers hrange halone

/-- Terms are not moved where both sides are the same. -/
theorem Sides.crossed_eq_settled {name : Char} {value : Value}
    (h : t.crossed name = .settled value) :
    t.left = t.right ∧ value = if t.relation.holds 0 0 then .trueForAll name else .noSolution := by
  unfold Sides.crossed at h
  split at h
  · exact ⟨‹_›, (Crossing.settled.inj h).symm⟩
  · dsimp only at h
    split at h <;> cases h

/-- Two sides that are the same amount to zero on both. -/
theorem Sides.isolatedAs_settled {value : Value} (h : t.crossed x = .settled value)
    (ht : ∀ r, t.DefinedAt (everywhere r)) : t.IsolatedAs x (Solution.only x value) := by
  obtain ⟨hsame, rfl⟩ := Sides.crossed_eq_settled h
  refine ⟨0, 1, t.relation, 0, _, ⟨one_pos, 1, one_ne_zero, rfl, fun r => ?_⟩, if_pos rfl, rfl⟩
  obtain ⟨left, right, hleft, hright⟩ := ht r
  obtain rfl : left = right := by simpa [hsame, hright] using hleft.symm
  exact ⟨left, left, hleft, hright, by ring⟩

/-- The equations of factors are solved correctly. -/
def SolvesFactors (x : Char) (solve : List Node → Traced Solution) : Prop :=
  ∀ t : Sides, t.IsPlain x false → t.relation = .equal → t.right = [Node.constant 0] →
    t.hasVariable = true → (∀ r, t.DefinedAt (everywhere r)) →
      ∀ solution, (solve t.toNodes).outcome = .ok solution →
        t.SolvedBy x (solve t.toNodes).stages solution

theorem dropsZeroFactor_toNodes (ht : t.IsPlain x false)
    (h : Sequence.withFractions s.toNodes = .ok t.toNodes) :
    Sequence.dropsZeroFactor s.toNodes = t.dropsZeroFactor := by
  rw [Sequence.dropsZeroFactor, h]
  dsimp only
  rw [Sides.ofNodes_of_isPlain ht]

/-- An equation whose zero factor is dropped holds everywhere. -/
theorem Sides.holds_of_dropsZeroFactor (hs : s.IsPlain x true)
    (hdefined : ∀ r, s.DefinedAt (everywhere r))
    (h : Sequence.dropsZeroFactor s.toNodes = true) :
    s.relation = .equal ∧ ∀ r, s.HoldsAt (everywhere r) := by
  cases hnodes : Sequence.withFractions s.toNodes with
  | error reason => simp [Sequence.dropsZeroFactor, hnodes] at h
  | ok nodes =>
    obtain ⟨t, rfl, ht⟩ := Sides.becomes_withFractions hs hnodes
    rw [dropsZeroFactor_toNodes ht.isPlain hnodes] at h
    have hholds (r : Rat) := Sides.holdsAt_of_dropsZeroFactor _ h (ht.definedAt (hdefined r))
    exact ⟨ht.relation ▸ (hholds 0).1, fun r => (ht.holdsAt_iff (hdefined r)).1 (hholds r).2⟩

theorem Sides.holdsWhereDropped_of_becomes {stages : List Stage}
    (hdefined : ∀ r, s.DefinedAt (everywhere r)) (h : s.StagesBecome x stages) :
    s.HoldsWhereDropped stages := by
  intro stage hstage hdrops
  obtain ⟨u, hu, heq⟩ := h stage hstage
  obtain ⟨hequal, hholds⟩ := Sides.holds_of_dropsZeroFactor (Sides.isPlain_mono hu.isPlain)
    (fun r => hu.definedAt (hdefined r)) (heq ▸ hdrops)
  exact ⟨hu.relation ▸ hequal, fun r => (hu.holdsAt_iff (hdefined r)).1 (hholds r)⟩

/-- A product that is taken apart.  `dropped` is a stage at which it is seen whether a zero factor
is dropped. -/
theorem Sides.solvedBy_zeroProduct (stage : Stage) {solve : List Node → Traced Solution}
    {product : List Node} (hsolve : SolvesFactors x solve) (ht : t.IsPlain x false)
    (hdefined : ∀ r, t.DefinedAt (everywhere r))
    (hproduct : t.zeroProduct? = .ok (some product)) (hfactorable : isFactorable product = true)
    (hstage : Sequence.dropsZeroFactor stage.nodes = t.dropsZeroFactor)
    (h : (mergeFactors solve x Solution.empty (factorEquations product)).outcome = .ok solution) :
    t.SolvedBy x
      (stage :: (mergeFactors solve x Solution.empty (factorEquations product)).stages)
      solution := by
  set parts := ((Sequence.factors product).filter Sequence.hasVariable).map factorSides with hparts
  have hequations : factorEquations product = parts.map Sides.toNodes := by
    rw [hparts, List.map_map, factorEquations]
    rfl
  have hfactors (r : Rat) : t.HoldsAt (everywhere r) ↔ t.dropsZeroFactor = true ∨
      ∃ u ∈ parts, u.HoldsAt (everywhere r) := by
    rw [Sides.holdsAt_iff_factors _ ht (hdefined r) hproduct hfactorable]
    simp [hparts, and_assoc]
  have hpart {u : Sides} (hu : u ∈ parts) : u.relation = .equal ∧ ∀ solution,
      (solve u.toNodes).outcome = .ok solution →
        u.SolvedBy x (solve u.toNodes).stages solution := by
    obtain ⟨factor, hfactor, rfl⟩ := List.mem_map.1 hu
    obtain ⟨hmem, hfactorVariable⟩ := List.mem_filter.1 hfactor
    have hspec (r : Rat) := factor_spec (everywhere r) ht (hdefined r) hproduct hfactorable hmem
    exact ⟨rfl, hsolve _ (hspec 0).1 rfl rfl ((hspec 0).2.1.trans hfactorVariable)
      fun r => (hspec r).2.2.1⟩
  have hequal := (Sides.zeroProduct?_eq_some hproduct).1
  rw [hequations] at h ⊢
  have hmerged : Merged x (fun r => t.HoldsAt (everywhere r)) parts _ Solution.empty solution :=
    merged_mergeFactors (fun u hu => hpart hu)
      (fun u hu r hr => (hfactors r).2 (.inr ⟨u, hu, hr⟩)) (Found.empty x _) h
  refine ⟨hmerged.toIsRight, fun _ => hmerged.noRange, hmerged.alone, fun hnever => ?_,
    fun other hother hdrops => ⟨hequal, fun r => (hfactors r).2 ?_⟩⟩
  · obtain ⟨hkept, hnever⟩ := List.forall_mem_cons.1 hnever
    have hsome {r : Rat} (hr : t.HoldsAt (everywhere r)) :
        ∃ u ∈ parts, u.HoldsAt (everywhere r) :=
      ((hfactors r).1 hr).resolve_left (by simp [← hstage, hkept])
    refine ⟨fun r hr => hmerged.admits hnever r (.inr (hsome hr)), fun hmem r hr => ?_⟩
    obtain ⟨u, hu, hholds⟩ := hsome hr
    exact (hmerged.noSolution hnever hmem).2 u hu r hholds
  · rcases List.mem_cons.1 hother with rfl | hother
    · exact .inl (hstage ▸ hdrops)
    · obtain ⟨u, hu, hall⟩ := hmerged.holdsWhereDropped other hother hdrops
      exact .inr ⟨u, hu, hall r⟩

/-! ## Runs -/

theorem Sides.HoldsWhereDropped.of_becomes {stages : List Stage} (hst : s.Becomes x t)
    (hdefined : ∀ r, s.DefinedAt (everywhere r)) (h : t.HoldsWhereDropped stages) :
    s.HoldsWhereDropped stages := by
  intro stage hstage hdrops
  obtain ⟨hequal, hholds⟩ := h stage hstage hdrops
  exact ⟨hst.relation ▸ hequal, fun r => (hst.holdsAt_iff (hdefined r)).1 (hholds r)⟩

theorem Sides.HoldsWhereDropped.append {stages stages' : List Stage}
    (h : s.HoldsWhereDropped stages) (h' : s.HoldsWhereDropped stages') :
    s.HoldsWhereDropped (stages ++ stages') :=
  List.forall_mem_append.2 ⟨h, h'⟩

/-- What solves an equation also solves the equations that have become it. -/
theorem Sides.SolvedBy.of_becomes {stages stages' : List Stage} (hst : s.Becomes x t)
    (hdefined : ∀ r, s.DefinedAt (everywhere r)) (h : t.SolvedBy x stages solution)
    (hsub : stages ⊆ stages') (hdropped : s.HoldsWhereDropped stages') :
    s.SolvedBy x stages' solution := by
  have hholds : (fun r => t.HoldsAt (everywhere r)) = fun r => s.HoldsAt (everywhere r) :=
    funext fun r => propext (hst.holdsAt_iff (hdefined r))
  refine ⟨hholds ▸ h.toIsRight, fun hequal => h.noRange (hst.relation.trans hequal), h.alone,
    fun hnever => ?_, hdropped⟩
  rw [← hholds]
  exact h.complete fun stage hstage => hnever stage (hsub hstage)

/-- A run on a plain equation, with the stages it records and the solution at its end. -/
inductive Sides.Run (solve : List Node → Traced Solution) (x : Char) :
    Sides → List Stage → Solution → Prop where
  | closed {s t : Sides} {solution : Solution} (ht : s.Becomes x t)
      (hclosed : t.closedForm? x = .ok (some solution)) : Run solve x s [] solution
  | product {s t : Sides} {product : List Node} {solution : Solution}
      (hwritten : Sequence.withFractions s.toNodes = .ok t.toNodes)
      (ht : s.Becomes x t) (hproduct : t.zeroProduct? = .ok (some product))
      (hfactorable : isFactorable product = true)
      (hmerged : (mergeFactors solve x Solution.empty (factorEquations product)).outcome =
        .ok solution) :
      Run solve x s (mergeFactors solve x Solution.empty (factorEquations product)).stages solution
  | settled {s t : Sides} {stages : List Stage} {value : Value}
      (hstages : s.StagesBecome x stages) (ht : s.Becomes x t)
      (hsettled : t.crossed x = .settled value) : Run solve x s stages (Solution.only x value)
  | rewritten {s t : Sides} {stages rest : List Stage} {last : Stage} {solution : Solution}
      (hstages : s.StagesBecome x stages) (ht : s.Becomes x t) (hlast : last ∈ stages)
      (hnodes : last.nodes = t.toNodes)
      (tail : Run solve x t rest solution) : Run solve x s (stages ++ rest) solution

/-- By induction on the rounds: each is a step, and the last one ends the run. -/
theorem Sides.Run.of_rewriteUntilSolved {solve : List Node → Traced Solution} {options : Options}
    {rounds : Nat} (hs : s.IsPlain x true) (hdefined : ∀ r, s.DefinedAt (everywhere r))
    (hvariable : s.hasVariable = true)
    (h : (rewriteUntilSolved solve options rounds s.toNodes).outcome = .ok solution) :
    s.Run solve x (rewriteUntilSolved solve options rounds s.toNodes).stages solution := by
  induction rounds generalizing s with
  | zero => cases h
  | succ rounds ih =>
    obtain ⟨kind, hkind, h, hstages₁⟩ := Traced.bind_cases h
    obtain rfl := Sides.kind_eq_equation hs hvariable (Traced.ofExcept_eq_ok.1 hkind)
    obtain ⟨step, hstep, h, hstages₂⟩ := Traced.bind_cases h
    rw [rewriteUntilSolved, hstages₁, Traced.stages_ofExcept, List.nil_append]
    dsimp only
    rw [hstages₂]
    obtain ⟨t, hwritten, ht, ⟨found, hclosed, rfl, hstages₃⟩ |
      ⟨product, found, hproduct, hfactorable, hmerged, rfl, hstages₃⟩ | ⟨hrewritten, hstages₃⟩⟩ :=
      Sequence.step_cases hs hstep <;> rw [hstages₃]
    · obtain rfl := Except.ok.inj h
      exact .closed ht hclosed
    · obtain rfl := Except.ok.inj h
      rw [Traced.stages_pure, List.append_nil]
      exact .product hwritten ht hproduct hfactorable hmerged
    · obtain ⟨hpasses, u, hu, hend⟩ := Sides.becomes_rewritten ht.isPlain hrewritten
      have hstages : s.StagesBecome x (t.rewritten options x).stages := fun stage hstage =>
        (hpasses stage hstage).imp fun _ hbecomes => ⟨ht.trans hbecomes.1, hbecomes.2⟩
      have hsu := ht.trans hu
      rcases hend with ⟨rfl, last, hlast, hnodes⟩ | ⟨value, hsettled, rfl⟩
      · exact .rewritten hstages hsu hlast hnodes (ih (Sides.isPlain_mono hsu.isPlain)
          (fun r => hsu.definedAt (hdefined r)) (hsu.hasVariable (everywhere 0) (hdefined 0) hvariable)
          h)
      · obtain rfl := Except.ok.inj h
        rw [Traced.stages_pure, List.append_nil]
        exact .settled hstages hsu hsettled

/-- What is recorded at the end of a run solves every equation on the way, and in particular the
first.  `stage` is the stage of the first equation. -/
theorem Sides.Run.solvedBy {solve : List Node → Traced Solution} {stages : List Stage}
    (h : s.Run solve x stages solution) (stage : Stage) (hsolve : SolvesFactors x solve)
    (hs : s.IsPlain x true) (hdefined : ∀ r, s.DefinedAt (everywhere r))
    (hstage : stage.nodes = s.toNodes) : s.SolvedBy x (stage :: stages) solution := by
  have hown {s : Sides} {stage : Stage} (hs : s.IsPlain x true)
      (hdefined : ∀ r, s.DefinedAt (everywhere r)) (hstage : stage.nodes = s.toNodes) :
      s.HoldsWhereDropped [stage] := by
    intro other hother hdrops
    rw [List.mem_singleton.1 hother, hstage] at hdrops
    exact Sides.holds_of_dropsZeroFactor hs hdefined hdrops
  induction h generalizing stage with
  | closed ht hclosed =>
    exact (Sides.isolatedAs_closedForm ht.isPlain hclosed).solvedBy.of_becomes ht hdefined
      (List.nil_subset _) (hown hs hdefined hstage)
  | product hwritten ht hproduct hfactorable hmerged =>
    have hsolved := Sides.solvedBy_zeroProduct stage hsolve ht.isPlain
      (fun r => ht.definedAt (hdefined r)) hproduct hfactorable
      (by rw [hstage, dropsZeroFactor_toNodes ht.isPlain hwritten]) hmerged
    exact hsolved.of_becomes ht hdefined (List.Subset.refl _)
      (hsolved.holdsWhereDropped.of_becomes ht hdefined)
  | settled hstages ht hsettled =>
    have hisolated := Sides.isolatedAs_settled hsettled fun r => ht.definedAt (hdefined r)
    exact hisolated.solvedBy.of_becomes ht hdefined (List.nil_subset _)
      ((hown hs hdefined hstage).append (Sides.holdsWhereDropped_of_becomes hdefined hstages))
  | rewritten hstages ht hlast hnodes _ ih =>
    have hsolved := ih _ (Sides.isPlain_mono ht.isPlain) (fun r => ht.definedAt (hdefined r)) hnodes
    refine hsolved.of_becomes ht hdefined ?_ ((hown hs hdefined hstage).append
      ((Sides.holdsWhereDropped_of_becomes hdefined hstages).append fun other hother =>
        hsolved.holdsWhereDropped.of_becomes ht hdefined other (.tail _ hother)))
    exact List.cons_subset.2 ⟨List.mem_cons_of_mem _ (List.mem_append_left _ hlast),
      fun other hother => List.mem_cons_of_mem _ (List.mem_append_right _ hother)⟩

/-- Runs within runs: by induction on the levels, the equations of factors are solved. -/
theorem solvedBy_solveWithin (levels : Nat) (options : Options) :
    SolvesFactors x (solveWithin levels options) := by
  induction levels with
  | zero =>
    intro _ _ _ _ _ _ _ h
    cases h
  | succ levels ih =>
    rintro ⟨content, relation, right⟩ ht rfl rfl hvariable hdefined solution h
    obtain ⟨cleaned, hcleaned, h, hstages₁⟩ := Traced.bind_cases h
    obtain ⟨-, -, h, hstages₂⟩ := Traced.bind_cases h
    obtain ⟨value, -, hvalue, -⟩ := hdefined 0
    obtain rfl := Sequence.cleaned_equation (everywhere 0) ht.1 hvalue (Traced.ofExcept_eq_ok.1 hcleaned)
    rw [solveWithin, hstages₁, hstages₂, Traced.stages_ofExcept]
    exact (Sides.Run.of_rewriteUntilSolved (Sides.isPlain_mono ht) hdefined hvariable h).solvedBy
      ⟨.cleaning, _⟩ ih (Sides.isPlain_mono ht) hdefined rfl

theorem IsProblem.hasVariable {text : List Char} {unknown : Char}
    (h : IsProblem text unknown s) : s.hasVariable = true := by
  have hmem : unknown ∈ Sequence.mentions s.toNodes :=
    Sequence.mem_unknowns.1 (by rw [h.unknowns]; exact .head _)
  rw [← Sides.hasVariable_toNodes, Sequence.hasVariable]
  simpa using List.ne_nil_of_mem hmem

/-- The stages that are kept are those of the run. -/
theorem solveTraced_cases {options : Options} {nodes : List Node}
    (h : solveNodes options nodes = .ok solution) :
    (solveWithin (nestingBound nodes) options nodes).outcome = .ok solution ∧
      (solveTraced options nodes).1 = (solveWithin (nestingBound nodes) options nodes).stages := by
  unfold solveNodes solveTraced at h
  unfold solveTraced
  dsimp only at h ⊢
  split at h
  · rename_i houtcome
    rw [houtcome]
    exact ⟨congrArg _ (Except.ok.inj h), rfl⟩
  · cases h
  · cases h
  · cases h

/-- A sequence that is solved is cleaned, and then rewritten until it is solved. -/
theorem solveNodes_cases {options : Options} {nodes cleaned : List Node}
    (hcleaned : Sequence.cleaned nodes = .ok cleaned)
    (hsolve : solveNodes options nodes = .ok solution) :
    ∃ levels, (rewriteUntilSolved (solveWithin levels options) options options.maxSteps
          cleaned).outcome = .ok solution ∧
      (solveTraced options nodes).1 = ⟨.cleaning, cleaned⟩ ::
        (rewriteUntilSolved (solveWithin levels options) options options.maxSteps cleaned).stages := by
  obtain ⟨houtcome, hstages⟩ := solveTraced_cases hsolve
  obtain ⟨cleaned', hcleaned', hrun, hstages₁⟩ := Traced.bind_cases houtcome
  obtain rfl : cleaned' = cleaned :=
    Except.ok.inj ((Traced.ofExcept_eq_ok.1 hcleaned').symm.trans hcleaned)
  obtain ⟨-, -, hrun, hstages₂⟩ := Traced.bind_cases hrun
  refine ⟨_, hrun, ?_⟩
  rw [hstages, nestingBound, solveWithin, hstages₁, hstages₂, Traced.stages_ofExcept]
  rfl

/-- What is recorded for a plain equation solves it. -/
theorem Sides.solvedBy_solveNodes {nodes : List Node} {options : Options}
    (hcleaned : Sequence.cleaned nodes = .ok s.toNodes) (hs : s.IsPlain x true)
    (hdefined : ∀ r, s.DefinedAt (everywhere r)) (hvariable : s.hasVariable = true)
    (hsolve : solveNodes options nodes = .ok solution) :
    s.SolvedBy x (solveTraced options nodes).1 solution := by
  obtain ⟨levels, hrun, hstages⟩ := solveNodes_cases hcleaned hsolve
  rw [hstages]
  exact (Sides.Run.of_rewriteUntilSolved hs hdefined hvariable hrun).solvedBy
    ⟨.cleaning, s.toNodes⟩ (solvedBy_solveWithin levels options) hs hdefined rfl

/-- What is recorded for a problem solves it. -/
theorem IsProblem.solvedBy {text : List Char} {unknown : Char} {nodes : List Node}
    {options : Options} (h : IsProblem text unknown s)
    (hdivides : (Sequence.dividesByNonzero s.left && Sequence.dividesByNonzero s.right) = true)
    (hparse : parse text = .ok nodes) (hsolve : solveNodes options nodes = .ok solution) :
    s.SolvedBy unknown (solveTraced options nodes).1 solution := by
  obtain ⟨nodes', hparse', hcleaned⟩ := h.cleaned
  obtain rfl : nodes' = nodes := Except.ok.inj (hparse'.symm.trans hparse)
  exact Sides.solvedBy_solveNodes hcleaned h.isPlain (fun r => h.definedAt hdivides (everywhere r))
    h.hasVariable hsolve

theorem solveNodes_of_solve {text : List Char} (h : solve text = .ok solution) :
    ∃ nodes, parse text = .ok nodes ∧ solveNodes Options.standard nodes = .ok solution := by
  unfold solve at h
  split at h
  · exact ⟨_, ‹_›, h⟩
  · cases h

end

/-! ## Soundness -/

/-- Whatever is recorded for a problem is about its unknown, and true: a number is a rounded
solution, a fraction is a solution, a range has the solutions in it, up to the rounding of its
ends, and it is recorded only of an equation that holds everywhere that it does. -/
theorem solve_sound {text : List Char} {unknown : Char} {s : Sides} {solution : Solution}
    (hproblem : IsProblem text unknown s)
    (hdivides : (Sequence.dividesByNonzero s.left && Sequence.dividesByNonzero s.right) = true)
    (hsolve : solve text = .ok solution) (name : Char) (value : Value)
    (hvalue : (name, value) ∈ solution.entries) :
    name = unknown ∧ value.IsSound fun r => s.HoldsAt (everywhere r) := by
  obtain ⟨nodes, hparse, hsolve⟩ := solveNodes_of_solve hsolve
  have hsolved := hproblem.solvedBy hdivides hparse hsolve
  exact ⟨hsolved.unknown name value hvalue, hsolved.sound name value hvalue⟩

/-- Everything that is not above two solves `3x - 1 < 5`. -/
theorem solve_sound_three_x :
    (Value.range ⟨none, some ⟨Number.ofNat 2, false⟩⟩).IsSound fun r =>
      (Sides.mk [.group (some 'x') (Number.ofNat 3) [], .operator .add, Node.constant (-1)] .less
        [Node.constant 5]).HoldsAt (everywhere r) := by
  have hproblem : IsProblem ['3', 'x', ' ', '-', ' ', '1', ' ', '<', ' ', '5'] 'x'
      ⟨[.group (some 'x') (Number.ofNat 3) [], .operator .add, Node.constant (-1)], .less,
        [Node.constant 5]⟩ :=
    { cleaned := ⟨[.group (some 'x') (Number.ofNat 3) [], Node.constant (-1), .relation .less,
        Node.constant 5], by decide +kernel, by decide +kernel⟩
      wellFormed := by decide +kernel
      unknowns := by decide +kernel
      wholePowers := by decide +kernel }
  have hsolve : solve ['3', 'x', ' ', '-', ' ', '1', ' ', '<', ' ', '5'] = .ok (.unknowns
      [('x', .single (.range ⟨none, some ⟨Number.ofNat 2, false⟩⟩))]) := by decide +kernel
  exact (solve_sound hproblem (by decide +kernel) hsolve 'x' _ (by decide +kernel)).2

/-! ## Completeness -/

/-- A value that is no range stands for solutions up to some bound only, or for all. -/
theorem Value.exists_bound (holds : Rat → Prop) {value : Value}
    (hrange : ∀ range, value ≠ .range range) (htrue : ∀ name, value ≠ .trueForAll name) :
    ∃ bound : Rat, ∀ r, value.Admits holds r → r ≤ bound := by
  cases value with
  | number n =>
    refine ⟨max 0 (2 * n.value), fun r hr => ?_⟩
    rcases le_or_gt r 0 with hneg | hpos
    · exact hneg.trans (le_max_left _ _)
    · rw [show n = Number.ofRat (Rational.rounded r) from hr, Number.value_ofRat]
      exact (Rational.le_two_mul_rounded hpos).trans (le_max_right _ _)
  | fraction t b =>
    cases hvalue : (Node.fraction t b).valueAt (everywhere 0) with
    | none => exact ⟨0, fun r hr => by cases hvalue.symm.trans hr⟩
    | some value => exact ⟨value, fun r hr => (Option.some.inj (hvalue.symm.trans hr)).ge⟩
  | trueForAll name => exact absurd rfl (htrue name)
  | range range => exact absurd rfl (hrange range)
  | root | quotient | noSolution => exact ⟨0, fun _ hr => hr.elim⟩

theorem exists_bound_of_forall {α : Type} {R : α → Rat → Prop} {l : List α}
    (h : ∀ a ∈ l, ∃ bound, ∀ r, R a r → r ≤ bound) :
    ∃ bound, ∀ a ∈ l, ∀ r, R a r → r ≤ bound := by
  induction l with
  | nil => exact ⟨0, by simp⟩
  | cons a rest ih =>
    obtain ⟨first, hfirst⟩ := h a (.head _)
    obtain ⟨bound, hbound⟩ := ih fun b hb => h b (.tail _ hb)
    refine ⟨max first bound, List.forall_mem_cons.2 ⟨fun r hr => ?_, fun b hb r hr => ?_⟩⟩
    · exact (hfirst r hr).trans (le_max_left _ _)
    · exact (hbound b hb r hr).trans (le_max_right _ _)

/-- Finitely many numbers are not all the solutions of an equation that holds everywhere. -/
theorem exists_trueForAll_of_isComplete {x : Char} {holds : Rat → Prop} {solution : Solution}
    (h : IsComplete holds fun value => (x, value) ∈ solution.entries) (hholds : ∀ r, holds r)
    (hrange : ∀ name range, (name, .range range) ∉ solution.entries) :
    ∃ name, (x, .trueForAll name) ∈ solution.entries := by
  by_contra hnone
  obtain ⟨bound, hbound⟩ := exists_bound_of_forall
    (R := fun (entry : Char × Value) r => entry.1 = x ∧ entry.2.Admits holds r)
    (l := solution.entries) <| by
      rintro ⟨name, value⟩ hvalue
      by_cases hname : name = x
      · subst hname
        obtain ⟨bound, hbound⟩ := Value.exists_bound holds
          (fun range heq => hrange name range (heq ▸ hvalue))
          (fun other heq => hnone ⟨other, heq ▸ hvalue⟩)
        exact ⟨bound, fun r hr => hbound r hr.2⟩
      · exact ⟨0, fun r hr => absurd hr.1 hname⟩
  obtain ⟨value, hvalue, hadmits⟩ := h.admits (bound + 1) (hholds _)
  have := hbound (x, value) hvalue (bound + 1) ⟨rfl, hadmits⟩
  linarith

/-- When no rational solution of a problem is missing: if it is recorded that the problem holds
everywhere, or no equation on the way is that of a product with a factor worth zero that is left
out because the unknown is not in it. -/
theorem solve_complete_iff {text : List Char} {unknown : Char} {s : Sides} {nodes : List Node}
    {solution : Solution} (hproblem : IsProblem text unknown s)
    (hdivides : (Sequence.dividesByNonzero s.left && Sequence.dividesByNonzero s.right) = true)
    (hparse : parse text = .ok nodes) (hsolve : solve text = .ok solution) :
    IsComplete (fun r => s.HoldsAt (everywhere r)) (fun value => (unknown, value) ∈ solution.entries)
      ↔ (∃ name, (unknown, .trueForAll name) ∈ solution.entries) ∨
        NeverDrops (solveTraced Options.standard nodes).1 := by
  obtain ⟨nodes', hparse', hsolve⟩ := solveNodes_of_solve hsolve
  obtain rfl : nodes' = nodes := Except.ok.inj (hparse'.symm.trans hparse)
  have hsolved := hproblem.solvedBy hdivides hparse hsolve
  constructor
  · intro hcomplete
    by_cases hnever : NeverDrops (solveTraced Options.standard nodes').1
    · exact .inr hnever
    · obtain ⟨stage, hstage, hdrops⟩ : ∃ stage ∈ (solveTraced Options.standard nodes').1,
          Sequence.dropsZeroFactor stage.nodes = true := by
        simpa [NeverDrops] using hnever
      obtain ⟨hequal, hholds⟩ := hsolved.holdsWhereDropped stage hstage hdrops
      exact .inl (exists_trueForAll_of_isComplete hcomplete hholds (hsolved.noRange hequal))
  · rintro (⟨name, htrue⟩ | hnever)
    · refine ⟨fun r _ => ⟨_, htrue, trivial⟩, fun hnone => ?_⟩
      cases hsolved.alone hnone _ htrue
    · exact hsolved.complete hnever

/-- Both solutions of `(x - 1)(x + 2) = 0` are recorded. -/
theorem solve_complete_iff_two_factors :
    IsComplete
      (fun r => (Sides.mk
        [.paren [.group (some 'x') (Number.ofNat 1) [], .operator .add, Node.constant (-1)] [] false,
          .operator .multiply,
          .paren [.group (some 'x') (Number.ofNat 1) [], .operator .add, Node.constant 2] [] false]
        .equal [Node.constant 0]).HoldsAt (everywhere r))
      fun value => ('x', value) ∈ (Solution.unknowns
        [('x', .set [.number (Number.ofRat 1), .number (Number.ofRat (-2))])]).entries := by
  have hproblem : IsProblem
      ['(', 'x', ' ', '-', ' ', '1', ')', '(', 'x', ' ', '+', ' ', '2', ')', ' ', '=', ' ', '0'] 'x'
      ⟨[.paren [.group (some 'x') (Number.ofNat 1) [], .operator .add, Node.constant (-1)] [] false,
          .operator .multiply,
          .paren [.group (some 'x') (Number.ofNat 1) [], .operator .add, Node.constant 2] [] false],
        .equal, [Node.constant 0]⟩ :=
    { cleaned := ⟨_, rfl, by decide +kernel⟩
      wellFormed := by decide +kernel
      unknowns := by decide +kernel
      wholePowers := by decide +kernel }
  exact (solve_complete_iff hproblem (by decide +kernel) rfl (by decide +kernel)).2
    (.inr (by decide +kernel))

/-- In `0(x - 1) = 0` the factor without the unknown is left out, and every solution but one is
missing. -/
theorem solve_incomplete_zero_factor :
    ∃ solution s, solve ['0', '(', 'x', ' ', '-', ' ', '1', ')', ' ', '=', ' ', '0'] = .ok solution ∧
      IsProblem ['0', '(', 'x', ' ', '-', ' ', '1', ')', ' ', '=', ' ', '0'] 'x' s ∧
      (Sequence.dividesByNonzero s.left && Sequence.dividesByNonzero s.right) = true ∧
      (∀ r, s.HoldsAt (everywhere r)) ∧
      ¬ IsComplete (fun r => s.HoldsAt (everywhere r)) fun value =>
        ('x', value) ∈ solution.entries := by
  have hproblem : IsProblem ['0', '(', 'x', ' ', '-', ' ', '1', ')', ' ', '=', ' ', '0'] 'x'
      ⟨[Node.constant 0, .operator .multiply,
        .paren [.group (some 'x') (Number.ofNat 1) [], .operator .add, Node.constant (-1)] [] false],
        .equal, [Node.constant 0]⟩ :=
    { cleaned := ⟨_, rfl, by decide +kernel⟩
      wellFormed := by decide +kernel
      unknowns := by decide +kernel
      wholePowers := by decide +kernel }
  obtain ⟨-, hholds⟩ := Sides.holds_of_dropsZeroFactor hproblem.isPlain
    (fun r => hproblem.definedAt (by decide +kernel) (everywhere r)) (by decide +kernel)
  refine ⟨.unknowns [('x', .single (.number (Number.ofRat 1)))], _, by decide +kernel, hproblem,
    by decide +kernel, hholds, fun hcomplete => ?_⟩
  obtain ⟨value, hvalue, hadmits⟩ := hcomplete.admits 0 (hholds 0)
  obtain rfl : value = .number (Number.ofRat 1) := by
    simpa [Solution.entries, Solution.bindings, Binding.values] using hvalue
  have hone : Number.ofRat 1 = Number.ofRat (Rational.rounded 0) := hadmits
  revert hone
  decide +kernel

end OneUnknown
