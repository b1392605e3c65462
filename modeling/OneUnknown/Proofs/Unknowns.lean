import OneUnknown.Proofs.Letters
import OneUnknown.Proofs.Solver
/-!
# The unknown is never lost

Whatever a problem with a variable goes through, it stays a problem in the same unknown: no step and
no pass of a step turns it into an expression or a comparison, and neither does taking a product
apart.  So what comes out is a binding of that unknown.

* `Solution.Binds`: a solution that has values for one unknown and nothing else;
* `Sides.Pass.unknowns`: one pass;
* `Sides.ensures_rewritten`, `ensures_mergeFactors`, `Sequence.ensures_step`: one step;
* `ensures_rewriteUntilSolved`, `ensures_solveWithin`: runs, by induction on the rounds and on the
  levels;
* `solveNodes_keeps_unknown`: the solution of a problem, and every stage on the way.
-/

namespace OneUnknown

/-- A solution that consists of some values for one unknown. -/
def Solution.Binds (x : Char) (solution : Solution) : Prop :=
  ∃ binding, solution = .unknowns [(x, binding)] ∧ binding.values ≠ []

section

variable {x : Char}

/-! ## Recording -/

/-- Recording a value for the unknown binds it. -/
theorem Solution.binds_record {s : Solution} (h : s = .empty ∨ s.Binds x) (value : Value) :
    (s.record x value).Binds x := by
  rcases h with rfl | ⟨binding, rfl, -⟩
  · exact ⟨.single value.recorded, rfl, List.cons_ne_nil _ _⟩
  · refine ⟨binding.insert value.recorded, ?_,
      List.ne_nil_of_mem (Binding.mem_values_insert.2 (.inr rfl))⟩
    simp [Solution.record, Solution.bindings, Solution.recordIn]

theorem Solution.binds_only (value : Value) : (Solution.only x value).Binds x :=
  Solution.binds_record (.inl rfl) value

theorem Solution.binds_ofValues {values : List Value} (h : values ≠ []) :
    (Solution.ofValues x values).Binds x := by
  cases values with
  | nil => exact absurd rfl h
  | cons first rest =>
    exact List.foldlRecOn rest _ (Solution.binds_only first) fun s hs value _ =>
      Solution.binds_record (.inr hs) value

theorem Solution.eq_of_mem_entries {s : Solution} (h : s.Binds x) {entry : Char × Value}
    (hentry : entry ∈ s.entries) : entry.1 = x := by
  obtain ⟨binding, rfl, -⟩ := h
  obtain ⟨other, hother, -⟩ := Solution.mem_entries.1 hentry
  exact (Prod.mk.inj (List.mem_singleton.1 hother)).1

/-- The values of a factor are added to those found before. -/
theorem addEntries_binds {found merged : Solution} {entries : List (Char × Value)}
    (hfound : found = .empty ∨ found.Binds x) (hentries : ∀ entry ∈ entries, entry.1 = x)
    (h : addEntries found entries = some merged) : merged = .empty ∨ merged.Binds x := by
  induction entries generalizing found with
  | nil => exact Option.some.inj h ▸ hfound
  | cons entry rest ih =>
    obtain ⟨name, value⟩ := entry
    obtain rfl : name = x := hentries _ (.head _)
    have hrest : ∀ entry ∈ rest, entry.1 = name :=
      fun entry hentry => hentries entry (.tail _ hentry)
    cases value with
    | noSolution => exact ih hfound hrest h
    | trueForAll other => cases h
    | _ => exact ih (.inr (Solution.binds_record hfound _)) hrest h

/-! ## Closed forms -/

theorem rootsOf_ne_nil (quotient : Rat) (exponent : Nat) : rootsOf quotient exponent ≠ [] := by
  unfold rootsOf
  dsimp only
  split_ifs <;> simp

theorem isolate_ne_nil {coefficient constant : Rat} {exponent : Nat} {relation : Relation}
    {values : List Value} (h : isolate coefficient exponent relation constant x = .ok values) :
    values ≠ [] := by
  rcases isolate_cases h with ⟨-, rfl⟩ | ⟨-, ⟨-, range, rfl, -⟩ | ⟨-, -, value, -, rfl⟩ | ⟨-, -, rfl⟩⟩
  · exact List.cons_ne_nil _ _
  · exact List.cons_ne_nil _ _
  · exact List.cons_ne_nil _ _
  · exact rootsOf_ne_nil _ _

theorem Sides.binds_closedForm {s : Sides} {solution : Solution}
    (h : s.closedForm? x = .ok (some solution)) : solution.Binds x := by
  obtain ⟨_, _, _, _, _, values, -, -, -, hvalues, rfl⟩ := Sides.closedForm?_eq_some h
  exact Solution.binds_ofValues (isolate_ne_nil hvalues)

/-! ## The passes -/

/-- A step either binds the unknown or leads to another problem in it. -/
def Step.KeepsUnknown (x : Char) : Step → Prop
  | .solved solution => solution.Binds x
  | .rewritten next => Sequence.unknowns next = [x]

/-- Only sequences in the unknown are recorded. -/
abbrev Traced.EnsuresUnknown (x : Char) {α : Type} (result : α → Prop) (t : Traced α) : Prop :=
  t.Ensures (fun nodes => Sequence.unknowns nodes = [x]) result

/-- No pass brings in a letter, and none drops the last one. -/
theorem Sides.Pass.unknowns {s t : Sides} (h : s.Pass t) (hs : Sequence.unknowns s.toNodes = [x]) :
    Sequence.unknowns t.toNodes = [x] := by
  rw [Sequence.unknowns_eq_singleton, Sides.hasVariable_toNodes] at hs ⊢
  exact ⟨h.hasVariable hs.1, fun c hc => hs.2 c (h.mem_mentions hc)⟩

theorem Sides.Passes.unknowns {s t : Sides} (h : s.Passes t)
    (hs : Sequence.unknowns s.toNodes = [x]) : Sequence.unknowns t.toNodes = [x] := by
  induction h with
  | refl => exact hs
  | tail _ hpass ih => exact hpass.unknowns ih

theorem Sides.ensures_rewritten {s : Sides} (options : Options)
    (hs : Sequence.unknowns s.toNodes = [x]) :
    (s.rewritten options x).EnsuresUnknown x (Step.KeepsUnknown x) := by
  refine (Sides.ensures_passes_rewritten s options x).mono ?_ ?_
  · rintro nodes ⟨t, ht, rfl⟩
    exact Sides.Passes.unknowns ht hs
  · rintro step ⟨t, ht, rfl | ⟨value, -, rfl⟩⟩
    · exact Sides.Passes.unknowns ht hs
    · exact Solution.binds_only value

/-! ## Factors -/

/-- The equation of a factor mentions what the factor mentions: the powers that are left out are
numbers. -/
theorem mem_mentions_factorEquation {product factor : List Node} {c : Char}
    (hfactorable : isFactorable product = true) (hfactor : factor ∈ Sequence.factors product) :
    c ∈ Sequence.mentions (factorEquation factor) ↔ c ∈ Sequence.mentions factor := by
  rw [isFactorable, Bool.and_eq_true, List.all_eq_true] at hfactorable
  have hvanishes := hfactorable.2 factor hfactor
  unfold factorEquation
  extract_lets content
  have hcontent : c ∈ Sequence.mentions content ↔ c ∈ Sequence.mentions factor := by
    unfold content
    unfold vanishesWithContent at hvanishes
    split
    · rename_i b p negative
      have hpower : Sequence.mentions p = [] := by
        rcases Bool.or_eq_true_iff.1 hvanishes with hempty | hwhole
        · rw [List.isEmpty_iff.1 hempty, Sequence.mentions_nil]
        · obtain ⟨exponent, hexponent⟩ := Option.isSome_iff_exists.1 hwhole
          exact mentions_eq_nil_of_positiveIntegerPower? hexponent
      simp [hpower]
    · rfl
  simp [hcontent, Node.mentions]

/-- The unknown of an equation is that of the product in it. -/
theorem Sides.unknowns_zeroProduct {s : Sides} {product : List Node}
    (hs : Sequence.unknowns s.toNodes = [x]) (hproduct : s.zeroProduct? = .ok (some product)) :
    Sequence.unknowns product = [x] := by
  obtain ⟨hvariable, hletters⟩ := Sequence.unknowns_eq_singleton.1 hs
  rw [Sides.hasVariable_toNodes, Sides.hasVariable, Bool.or_eq_true] at hvariable
  obtain ⟨-, other, hother, -, ⟨rfl, rfl⟩ | ⟨rfl, rfl⟩⟩ := Sides.zeroProduct?_eq_some hproduct
  · exact Sequence.unknowns_eq_singleton.2 ⟨hvariable.resolve_right (by simp [hother]),
      fun c hc => hletters c (Sides.mem_mentions_toNodes.2 (.inl hc))⟩
  · exact Sequence.unknowns_eq_singleton.2 ⟨hvariable.resolve_left (by simp [hother]),
      fun c hc => hletters c (Sides.mem_mentions_toNodes.2 (.inr hc))⟩

/-- The equations of the factors are problems in the unknown of the product. -/
theorem unknowns_of_mem_factorEquations {product equation : List Node}
    (hproduct : Sequence.unknowns product = [x]) (hfactorable : isFactorable product = true)
    (h : equation ∈ factorEquations product) : Sequence.unknowns equation = [x] := by
  obtain ⟨factor, hfactor, rfl⟩ := List.mem_map.1 h
  obtain ⟨hfactor, hvariable⟩ := List.mem_filter.1 hfactor
  have hfactorUnknowns : Sequence.unknowns factor = [x] :=
    Sequence.unknowns_eq_singleton.2 ⟨hvariable, fun c hc =>
      (Sequence.unknowns_eq_singleton.1 hproduct).2 c
        (Sequence.mem_mentions_factors.2 ⟨factor, hfactor, hc⟩)⟩
  exact (Sequence.unknowns_congr fun _ =>
    mem_mentions_factorEquation hfactorable hfactor).trans hfactorUnknowns

/-- Problems in the unknown are solved by binding it. -/
def SolvesUnknown (x : Char) (solve : List Node → Traced Solution) : Prop :=
  ∀ nodes, Sequence.unknowns nodes = [x] → (solve nodes).EnsuresUnknown x (Solution.Binds x)

variable {solve : List Node → Traced Solution}

theorem ensures_mergeFactors (hsolve : SolvesUnknown x solve) {equations : List (List Node)}
    (hequations : ∀ equation ∈ equations, Sequence.unknowns equation = [x]) {found : Solution}
    (hfound : found = .empty ∨ found.Binds x) :
    (mergeFactors solve x found equations).EnsuresUnknown x (Solution.Binds x) := by
  induction equations generalizing found with
  | nil =>
    refine .of_pure ?_
    split
    · exact Solution.binds_record hfound _
    · rename_i hsome
      exact hfound.resolve_left fun hempty => hsome (hempty ▸ rfl)
  | cons equation rest ih =>
    refine .bind (hsolve equation (hequations equation (.head _))) fun solution hsolution => ?_
    cases hmerged : addEntries found solution.entries with
    | none => exact .of_pure (Solution.binds_only _)
    | some merged =>
      exact ih (fun equation hequation => hequations equation (.tail _ hequation))
        (addEntries_binds hfound (fun _ => Solution.eq_of_mem_entries hsolution) hmerged)

/-! ## Steps -/

theorem Sides.ensures_step (hsolve : SolvesUnknown x solve) {s : Sides} (options : Options)
    (hs : Sequence.unknowns s.toNodes = [x]) :
    (s.step solve options x).EnsuresUnknown x (Step.KeepsUnknown x) := by
  refine .bind (.of_ofExcept fun _ h => h) fun closed hclosed => ?_
  cases closed with
  | some solution => exact .of_pure (Sides.binds_closedForm hclosed)
  | none =>
    refine .bind (.of_ofExcept fun _ h => h) fun product hproduct => ?_
    cases product with
    | none => exact Sides.ensures_rewritten options hs
    | some product =>
      dsimp only
      split
      · rename_i hfactorable
        have hunknowns := Sides.unknowns_zeroProduct hs hproduct
        exact .bind (ensures_mergeFactors hsolve
          (fun _ => unknowns_of_mem_factorEquations hunknowns hfactorable) (.inl rfl))
          fun _ hsolution => .of_pure hsolution
      · exact Sides.ensures_rewritten options hs

theorem Sequence.ensures_step (hsolve : SolvesUnknown x solve) {nodes : List Node}
    (options : Options) (hnodes : Sequence.unknowns nodes = [x]) :
    (Sequence.step solve options x nodes).EnsuresUnknown x (Step.KeepsUnknown x) := by
  refine .bind (.of_ofExcept fun _ h => h) fun written hwritten => ?_
  split
  · exact .of_fail _
  · refine .bind (.of_ofExcept fun _ h => h) fun s hs => ?_
    refine Sides.ensures_step hsolve options ?_
    rw [Sides.toNodes_of_ofNodes hs, Sequence.unknowns, Sequence.mentions_withFractions hwritten]
    exact hnodes

/-! ## Runs -/

/-- An equation has one unknown, and any other problem has none. -/
theorem ProblemKind.of_eq_ok {nodes : List Node} {kind : ProblemKind}
    (h : ProblemKind.of nodes = .ok kind) :
    (Sequence.unknowns nodes = [] ∧ (kind = .arithmetic ∨ kind = .comparison)) ∨
      ∃ x, Sequence.unknowns nodes = [x] ∧ kind = .equation x := by
  unfold ProblemKind.of at h
  split at h
  · cases h
  · split at h
    · rename_i hunknowns _
      exact .inl ⟨hunknowns, .inl (Except.ok.inj h).symm⟩
    · rename_i hunknowns _
      exact .inl ⟨hunknowns, .inr (Except.ok.inj h).symm⟩
    · cases h
    · cases h
    · rename_i unknown hunknowns _
      obtain ⟨multiplied, -, h⟩ := Except.bind_eq_ok.1 h
      split at h
      · exact .inr ⟨unknown, hunknowns, (Except.pure_eq_ok.1 h).symm⟩
      · cases h

/-- A problem in one unknown is rewritten into problems in it. -/
theorem ensures_rewriteUntilSolved (hsolve : SolvesUnknown x solve) (options : Options)
    (rounds : Nat) {nodes : List Node} (hnodes : Sequence.unknowns nodes = [x]) :
    (rewriteUntilSolved solve options rounds nodes).EnsuresUnknown x (Solution.Binds x) := by
  induction rounds generalizing nodes with
  | zero => exact .of_fail _
  | succ rounds ih =>
    refine .bind (.of_ofExcept fun _ => ProblemKind.of_eq_ok) fun kind hkind => ?_
    rw [hnodes] at hkind
    obtain ⟨hnone, -⟩ | ⟨y, hy, rfl⟩ := hkind
    · cases hnone
    · obtain rfl := List.singleton_inj.1 hy
      refine .bind (Sequence.ensures_step hsolve options hnodes) fun step hstep => ?_
      cases step with
      | solved solution => exact .of_pure hstep
      | rewritten next => exact ih hstep

end

/-- A problem without one unknown is not rewritten, and it has a solution only if it mentions no
variable at all. -/
theorem ensures_rewriteUntilSolved_of_ne {solve : List Node → Traced Solution} (options : Options)
    (rounds : Nat) {nodes : List Node} (hnodes : ∀ x, Sequence.unknowns nodes ≠ [x]) :
    (rewriteUntilSolved solve options rounds nodes).Ensures (fun _ => False)
      fun _ => Sequence.unknowns nodes = [] := by
  cases rounds with
  | zero => exact .of_fail _
  | succ rounds =>
    refine .bind (.of_ofExcept fun _ => ProblemKind.of_eq_ok) fun kind hkind => ?_
    obtain ⟨hnone, rfl | rfl⟩ | ⟨y, hy, rfl⟩ := hkind
    · exact .bind (.of_ofExcept fun _ h => h) fun _ _ => .of_pure hnone
    · exact .bind (.of_ofExcept fun _ h => h) fun _ _ => .of_pure hnone
    · exact absurd hy (hnodes y)

/-- Problems within problems have the same unknown, by induction on the levels. -/
theorem ensures_solveWithin (levels : Nat) (options : Options) (nodes : List Node) :
    (solveWithin levels options nodes).Ensures
      (fun stage => Sequence.unknowns stage = Sequence.unknowns nodes)
      fun solution => Sequence.unknowns nodes = [] ∨
        ∃ x, Sequence.unknowns nodes = [x] ∧ solution.Binds x := by
  induction levels generalizing nodes with
  | zero => exact .of_tooDeep
  | succ levels ih =>
    refine .bind (.of_ofExcept fun _ h => h) fun cleaned hcleaned => ?_
    have hunknowns : Sequence.unknowns cleaned = Sequence.unknowns nodes := by
      rw [Sequence.unknowns, Sequence.mentions_cleaned hcleaned, Sequence.unknowns]
    refine .bind (.of_stage hunknowns) fun _ _ => ?_
    rw [← hunknowns]
    by_cases hone : ∃ x, Sequence.unknowns cleaned = [x]
    · obtain ⟨x, hx⟩ := hone
      have hsolve : SolvesUnknown x (solveWithin levels options) := fun equation hequation => by
        refine (ih equation).mono (fun stage hstage => hstage.trans hequation) fun solution h => ?_
        rw [hequation] at h
        obtain hnone | ⟨y, hy, hbinds⟩ := h
        · cases hnone
        · exact List.singleton_inj.1 hy ▸ hbinds
      exact (ensures_rewriteUntilSolved hsolve options _ hx).mono
        (fun stage hstage => hstage.trans hx.symm) fun solution h => .inr ⟨x, hx, h⟩
    · exact (ensures_rewriteUntilSolved_of_ne options _ (not_exists.1 hone)).mono
        (fun _ => False.elim) fun _ => .inl

theorem solveTraced_stages (options : Options) (nodes : List Node) :
    (solveTraced options nodes).1 = (solveWithin (nestingBound nodes) options nodes).stages := by
  unfold solveTraced
  dsimp only
  split <;> rfl

/-- The unknown of a problem is never lost.  Every stage of solving a sequence, also one of the
equation of a factor and also where solving fails in the end, has the unknowns of the sequence; and
if the sequence mentions a variable and is solved, the variable is its one unknown, and the solution
is one binding, which is of this unknown and holds a value. -/
theorem solveNodes_keeps_unknown (options : Options) {nodes : List Node}
    (hvariable : Sequence.hasVariable nodes = true) :
    (∀ stage ∈ (solveTraced options nodes).1,
        Sequence.unknowns stage.nodes = Sequence.unknowns nodes) ∧
      ∀ solution, solveNodes options nodes = .ok solution → ∃ x binding,
        Sequence.unknowns nodes = [x] ∧ solution = .unknowns [(x, binding)] ∧
          binding.values ≠ [] := by
  have hrun := ensures_solveWithin (nestingBound nodes) options nodes
  constructor
  · rw [solveTraced_stages]
    exact hrun.stages
  · intro solution h
    obtain hnone | ⟨x, hx, binding, rfl, hvalues⟩ :=
      hrun.outcome solution (solveTraced_cases h).1
    · obtain ⟨c, hc⟩ := Sequence.hasVariable_iff_exists_mem.1 hvariable
      rw [← Sequence.mem_unknowns, hnone] at hc
      cases hc
    · exact ⟨x, binding, hx, rfl, hvalues⟩

/-- In `(x - 3)(2x + 0x) = 0` a zero is dropped, and the equation of each factor is solved. -/
theorem solveNodes_keeps_unknown_two_factors :
    ∃ nodes, parse "(x - 3)(2x + 0x) = 0".toList = .ok nodes ∧
      Sequence.hasVariable nodes = true ∧
      (∀ stage ∈ (solveTraced Options.standard nodes).1,
        Sequence.unknowns stage.nodes = Sequence.unknowns nodes) ∧
      ∃ solution, solveNodes Options.standard nodes = .ok solution ∧ ∃ x binding,
        Sequence.unknowns nodes = [x] ∧ solution = .unknowns [(x, binding)] ∧
          binding.values ≠ [] := by
  have hvariable : Sequence.hasVariable
      [.paren [.group (some 'x') (Number.ofNat 1) [], .group none (Number.ofNat 3).negated []] [] false,
        .paren [.group (some 'x') (Number.ofNat 2) [], .operator .add,
          .group (some 'x') (Number.ofNat 0) []] [] false,
        .relation .equal, .group none (Number.ofNat 0) []] = true := by decide +kernel
  obtain ⟨hstages, hsolution⟩ := solveNodes_keeps_unknown Options.standard hvariable
  refine ⟨_, by decide +kernel, hvariable, hstages, _, ?_, hsolution
    (.unknowns [('x', .set [.number (Number.ofNat 3), .number (Number.ofNat 0)])]) ?_⟩ <;>
  decide +kernel

end OneUnknown
