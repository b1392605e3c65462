import OneUnknown.Proofs.LoneTerms
import OneUnknown.Proofs.Overflow
import OneUnknown.Proofs.Strictness
/-!
# How deep problems are nested

A product that is zero asks for the solutions of the equations of its factors, and steps may lead
from one of those to a product again.  An equation is ranked by its height; no pass raises the rank,
and the equation of a factor ranks lower than the product.

* `Asks`: the problems that a problem may lead to;
* `Sides.IsRanked`: the rank of an equation;
* `Sides.IsRanked.pass`, `Sides.IsRanked.asked`: what a pass and a product do to it;
* `Sequence.NestsWithin`, `wellFounded_asks`: the rank of any sequence;
* `Traced.Agrees`: runs that are the same, and halt only as a pass can halt;
* `agrees_solveWithin`: there are enough levels above the rank;
* `solving_nests_within_height`: the height of a sequence bounds how deep its problems are nested.
-/

namespace OneUnknown

/-! ## Problems within problems -/

/-- Once its divisions are fractions, the sequence is a product that is zero, and this is the
equation of one of its factors. -/
def Sequence.AsksFor (nodes equation : List Node) : Prop :=
  ∃ (t : Sides) (product : List Node), Sequence.withFractions nodes = .ok t.toNodes ∧
    t.HasOneRelation ∧ t.zeroProduct? = .ok (some product) ∧ isFactorable product = true ∧
    equation ∈ factorEquations product

/-- Cleaning and steps lead from a sequence to a product, with any limits, and this is the equation
of one of its factors. -/
def Asks (nodes equation : List Node) : Prop :=
  ∃ cleaned reached, Sequence.cleaned nodes = .ok cleaned ∧
    Relation.ReflTransGen Rewrites cleaned reached ∧ Sequence.AsksFor reached equation

/-! ## Ranks -/

/-- A clean equation that is no higher than its rank.  That of a lone term may be one higher. -/
structure Sides.IsRanked (rank : Nat) (s : Sides) : Prop where
  clean : s.IsClean
  height : s.height ≤ rank ∨ s.IsLone ∧ s.height ≤ rank + 1

namespace Sides.IsRanked

variable {rank : Nat} {s t : Sides}

theorem pass (h : s.IsRanked rank) (hpass : s.Pass t) : t.IsRanked rank := by
  have hyields := hpass.yields
  refine ⟨hyields.clean h.clean, ?_⟩
  rcases h.height with hlow | ⟨hlone, hhigh⟩
  · exact .inl (hyields.height.trans hlow)
  · rcases hlone.pass hpass with hlone' | hlower
    · exact .inr ⟨hlone', hyields.height.trans hhigh⟩
    · exact .inl (Nat.le_of_lt_succ (hlower.trans_le hhigh))

theorem passes (h : s.IsRanked rank) (hpasses : s.Passes t) : t.IsRanked rank := by
  induction hpasses with
  | refl => exact h
  | tail _ hpass ih => exact ih.pass hpass

end Sides.IsRanked

/-! ## Factors -/

theorem exists_paren_of_isFactorable {product : List Node} (h : isFactorable product = true) :
    ∃ node ∈ product, node.isParen = true := by
  simp only [isFactorable, Bool.and_eq_true] at h
  have hsome : (Positions.ofNodes product).parentheses ≠ [] := by simpa using h.1.1.2
  obtain ⟨place, hplace⟩ := List.exists_mem_of_ne_nil _ hsome
  obtain ⟨⟨node, i⟩, hnode, hparen⟩ := List.mem_filterMap.1 hplace
  refine ⟨node, List.mem_iff_getElem?.2 ⟨i, List.mk_mem_zipIdx_iff_getElem?.1 hnode⟩, ?_⟩
  by_contra hne
  simp [hne] at hparen

/-- A factor with the unknown is one term of the product. -/
theorem exists_term_of_mem_factors {product factor : List Node} (hclean : Sequence.IsClean product)
    (hfactorable : isFactorable product = true) (hfactor : factor ∈ Sequence.factors product)
    (hvariable : Sequence.hasVariable factor = true) : ∃ node ∈ product, factor = [node] := by
  have hmem {node : Node} (hnode : node ∈ factor) : node ∈ product :=
    (Sequence.mem_of_mem_splitOnP _ hfactor hnode).1
  obtain ⟨node, rfl⟩ := (hclean.of_mem_factors hfactor).eq_singleton
    (by rintro rfl; cases hvariable) fun op hop => by
      obtain ⟨hop, hne⟩ := Sequence.mem_of_mem_splitOnP _ hfactor hop
      rw [operator_of_isFactorable hfactorable hop] at hne
      cases hne
  exact ⟨node, hmem (.head _), rfl⟩

/-- The equation of a factor ranks lower than the product.  A parenthesis is taken off, a fraction
is left on its own, and a group is lower than the parenthesis beside it. -/
theorem isRanked_factorSides {rank : Nat} {product factor : List Node}
    (hclean : Sequence.IsClean product) (hheight : Sequence.height product ≤ rank)
    (hfactorable : isFactorable product = true) (hfactor : factor ∈ Sequence.factors product)
    (hvariable : Sequence.hasVariable factor = true) :
    ∃ lower, rank = lower + 1 ∧ (factorSides factor).IsRanked lower := by
  -- There is a parenthesis in the product, so the rank is not zero.
  obtain ⟨lower, rfl⟩ : ∃ lower, rank = lower + 1 := by
    obtain ⟨paren, hparen, hisParen⟩ := exists_paren_of_isFactorable hfactorable
    have hle := (Sequence.height_le_of_mem hparen 0 0).trans hheight
    cases paren with
    | paren b p negative =>
      rw [Node.height_paren] at hle
      exact Nat.exists_eq_add_of_le' ((Nat.le_add_left 1 _).trans hle)
    | _ => cases hisParen
  obtain ⟨node, hnode, rfl⟩ := exists_term_of_mem_factors hclean hfactorable hfactor hvariable
  rw [Sequence.hasVariable_singleton] at hvariable
  have hnodeClean := hclean.of_mem hnode
  have hnodeHeight := (Sequence.height_le_of_mem hnode 0 0).trans hheight
  have hzero : Sequence.IsClean [Node.constant 0] := Sequence.isClean_constant 0
  refine ⟨lower, rfl, ?_⟩
  cases node with
  | paren b p negative =>
    rw [Node.height_paren] at hnodeHeight
    exact ⟨⟨hnodeClean.1, hzero⟩,
      .inl (max_le (Nat.le_of_succ_le_succ hnodeHeight) (Nat.zero_le _))⟩
  | fraction t b =>
    have hwrapped : (Node.fraction t b).IsWrapped := trivial
    refine ⟨⟨Sequence.isClean_singleton.2 hnodeClean, hzero⟩,
      .inr ⟨.intro _ .equal (Number.ofRat 0) hwrapped hvariable, ?_⟩⟩
    exact (Sides.height_lone rfl).le.trans hnodeHeight
  | group letter n p =>
    exact ⟨⟨Sequence.isClean_singleton.2 hnodeClean, hzero⟩, .inl (Nat.zero_le _)⟩
  | operator | relation => cases hvariable

/-- The problems of a product rank lower. -/
theorem Sides.IsRanked.asked {rank : Nat} {s : Sides} {product equation : List Node}
    (h : s.IsRanked rank) (hproduct : s.zeroProduct? = .ok (some product))
    (hfactorable : isFactorable product = true) (hequation : equation ∈ factorEquations product) :
    ∃ lower, rank = lower + 1 ∧ ∃ e : Sides, equation = e.toNodes ∧ e.IsRanked lower := by
  obtain ⟨factor, hfactor, hvariable, rfl⟩ := mem_factorEquations.1 hequation
  obtain ⟨-, other, -, -, hside⟩ := Sides.zeroProduct?_eq_some hproduct
  have hclean : Sequence.IsClean product := by
    obtain ⟨rfl, -⟩ | ⟨rfl, -⟩ := hside
    · exact h.clean.1
    · exact h.clean.2
  have hheight : Sequence.height product ≤ rank := by
    rcases h.height with hlow | ⟨hlone, -⟩
    · obtain ⟨rfl, -⟩ | ⟨rfl, -⟩ := hside
      · exact (Nat.le_max_left _ _).trans hlow
      · exact (Nat.le_max_right _ _).trans hlow
    · -- The sides of a lone term are no products.
      obtain ⟨hleft, hright⟩ := hlone.isFactorable_eq_false
      obtain ⟨rfl, -⟩ | ⟨rfl, -⟩ := hside
      · rw [hleft] at hfactorable
        cases hfactorable
      · rw [hright] at hfactorable
        cases hfactorable
  obtain ⟨lower, hlower, hranked⟩ :=
    isRanked_factorSides hclean hheight hfactorable hfactor hvariable
  exact ⟨lower, hlower, factorSides factor, rfl, hranked⟩

/-! ## Sequences -/

/-- A sequence that, if it is an equation, is ranked. -/
def Sequence.IsRanked (rank : Nat) (nodes : List Node) : Prop :=
  ∀ s : Sides, nodes = s.toNodes → s.HasOneRelation → s.IsRanked rank

/-- A sequence that is ranked once it is clean. -/
def Sequence.NestsWithin (rank : Nat) (nodes : List Node) : Prop :=
  ∀ cleaned, Sequence.cleaned nodes = .ok cleaned → Sequence.IsRanked rank cleaned

section

variable {rank : Nat} {nodes next equation : List Node}

theorem Sides.IsRanked.toNodes {s : Sides} (h : s.IsRanked rank) :
    Sequence.IsRanked rank s.toNodes := by
  intro t ht hone
  obtain rfl := h.clean.hasOneRelation.eq_of_toNodes hone ht
  exact h

/-- Steps do not raise the rank. -/
theorem Sequence.IsRanked.rewrites (h : Sequence.IsRanked rank nodes)
    (hrewrites : Rewrites nodes next) :
    Sequence.IsRanked rank next := by
  obtain ⟨solve, options, name, hstep⟩ := hrewrites
  obtain ⟨s, t, hs, hone, hpasses, rfl⟩ := Sequence.passes_of_step hstep
  exact ((h s hs hone).passes hpasses).toNodes

theorem Sequence.IsRanked.reached (h : Sequence.IsRanked rank nodes)
    (hreached : Relation.ReflTransGen Rewrites nodes next) : Sequence.IsRanked rank next := by
  induction hreached with
  | refl => exact h
  | tail _ hrewrites ih => exact ih.rewrites hrewrites

theorem Sequence.IsRanked.asksFor (h : Sequence.IsRanked rank nodes)
    (hasks : Sequence.AsksFor nodes equation) :
    ∃ lower, rank = lower + 1 ∧ ∃ e : Sides, equation = e.toNodes ∧ e.IsRanked lower := by
  obtain ⟨t, product, hfractions, hone, hproduct, hfactorable, hequation⟩ := hasks
  obtain ⟨s, hs, hsone, hpass⟩ := Sides.exists_of_withFractions hfractions hone
  exact ((h s hs hsone).pass hpass).asked hproduct hfactorable hequation

/-- A problem within a problem ranks lower. -/
theorem Sequence.NestsWithin.asks (h : Sequence.NestsWithin rank nodes)
    (hasks : Asks nodes equation) :
    ∃ lower, rank = lower + 1 ∧ Sequence.NestsWithin lower equation := by
  obtain ⟨cleaned, reached, hcleaned, hreached, hasks⟩ := hasks
  obtain ⟨lower, hlower, e, rfl, he⟩ := ((h cleaned hcleaned).reached hreached).asksFor hasks
  refine ⟨lower, hlower, fun cleaned hcleaned => ?_⟩
  rw [Sequence.cleaned_eq_ok_iff.2 ((Sides.isCleanProblem_toNodes he.clean.hasOneRelation).2 he.clean)]
    at hcleaned
  exact Except.ok.inj hcleaned ▸ he.toNodes

/-- The height is a rank. -/
theorem Sequence.nestsWithin_height (nodes : List Node) :
    Sequence.NestsWithin (Sequence.height nodes) nodes := by
  rintro cleaned hcleaned s rfl hone
  have hclean := (Sides.isCleanProblem_toNodes hone).1 (Sequence.isCleanProblem_of_cleaned hcleaned)
  refine ⟨hclean, .inl ?_⟩
  have hheight := Sequence.height_cleaned_le hcleaned
  rwa [Sides.toNodes, Sequence.height_relation] at hheight

/-- A chain of problems within problems is no longer than the rank of the first. -/
theorem Sequence.NestsWithin.length_le (h : Sequence.NestsWithin rank nodes)
    {chain : List (List Node)}
    (hchain : (nodes :: chain).IsChain Asks) : chain.length ≤ rank := by
  induction chain generalizing nodes rank with
  | nil => exact Nat.zero_le _
  | cons equation rest ih =>
    obtain ⟨hasks, hrest⟩ := List.isChain_cons_cons.1 hchain
    obtain ⟨lower, rfl, hequation⟩ := h.asks hasks
    exact Nat.succ_le_succ (ih hequation hrest)

theorem Sequence.NestsWithin.acc (h : Sequence.NestsWithin rank nodes) :
    Acc (fun equation nodes => Asks nodes equation) nodes := by
  induction rank generalizing nodes with
  | zero =>
    refine ⟨_, fun equation hasks => ?_⟩
    obtain ⟨lower, hlower, -⟩ := h.asks hasks
    cases hlower
  | succ rank ih =>
    refine ⟨_, fun equation hasks => ?_⟩
    obtain ⟨lower, hlower, hequation⟩ := h.asks hasks
    obtain rfl := Nat.succ.inj hlower
    exact ih hequation

/-- Problems within problems come to an end. -/
theorem wellFounded_asks : WellFounded fun equation nodes => Asks nodes equation :=
  ⟨fun nodes => (Sequence.nestsWithin_height nodes).acc⟩

end

/-- A product that has been prepared asks for the equations of its factors. -/
theorem asks_of_isFactorable (s : Sides) (equation : List Node)
    (hprepared : Sequence.cleaned s.toNodes = .ok s.toNodes ∧
      Sequence.withFractions s.toNodes = .ok s.toNodes ∧
      (s.toNodes.filter Node.isRelation).length ≤ 1)
    (hproduct : s.zeroProduct? = .ok (some s.left)) (hfactorable : isFactorable s.left = true)
    (hequation : equation ∈ factorEquations s.left) : Asks s.toNodes equation :=
  ⟨s.toNodes, s.toNodes, hprepared.1, .refl, s, s.left, hprepared.2.1,
    Sides.hasOneRelation_iff.2 hprepared.2.2, hproduct, hfactorable, hequation⟩

/-! ## Runs that agree -/

/-- Two runs that are the same, and that halt only as a pass can halt: not because anything is
nested too deep. -/
structure Traced.Agrees (limit : Nat) {α : Type} (x y : Traced α) : Prop where
  eq : x = y
  halts : HaltsWithin limit x.outcome

namespace Traced.Agrees

variable {α β : Type} {limit : Nat}

theorem of_pure (value : α) : (pure value : Traced α).Agrees limit (pure value) :=
  ⟨rfl, .of_pure value⟩

theorem of_ofExcept (x : Except SolveError α) :
    (Traced.ofExcept x).Agrees limit (Traced.ofExcept x) := by
  refine ⟨rfl, ?_⟩
  cases x with
  | ok value => exact .of_pure value
  | error reason => exact .of_failed reason

theorem of_ofHalting {x : Except Halt α} (h : HaltsWithin limit x) :
    (Traced.ofHalting x).Agrees limit (Traced.ofHalting x) :=
  ⟨rfl, h⟩

theorem of_stage (name : StageName) (nodes : List Node) :
    (Traced.stage name nodes).Agrees limit (Traced.stage name nodes) :=
  ⟨rfl, .of_pure ()⟩

theorem of_fail (reason : SolveError) :
    (Traced.fail reason : Traced α).Agrees limit (Traced.fail reason) :=
  ⟨rfl, .of_failed reason⟩

theorem bind {x y : Traced α} {next next' : α → Traced β} (h : x.Agrees limit y)
    (hnext : ∀ value, x.outcome = .ok value → (next value).Agrees limit (next' value)) :
    (x >>= next).Agrees limit (y >>= next') := by
  obtain ⟨rfl, hhalts⟩ := h
  obtain ⟨stages, outcome⟩ := x
  cases outcome with
  | error halt => exact ⟨rfl, fun _ heq => hhalts _ (congrArg Except.error (Except.error.inj heq))⟩
  | ok value =>
    obtain ⟨heq, hhalts⟩ := hnext value rfl
    refine ⟨?_, hhalts⟩
    show Traced.mk (stages ++ (next value).stages) (next value).outcome =
      ⟨stages ++ (next' value).stages, (next' value).outcome⟩
    rw [heq]

end Traced.Agrees

section

variable {solve solve' : List Node → Traced Solution} {limit : Nat}

theorem Sides.agrees_tidied (s : Sides) (options : Options) (name : Char) :
    (s.tidied options name).Agrees options.factorLimit (s.tidied options name) :=
  .bind (.of_ofHalting (haltsWithin_withoutFraction _ s)) fun cleared _ =>
    .bind (.of_stage _ _) fun _ _ =>
      .bind (.of_ofHalting (haltsWithin_cancelled _ cleared)) fun _ _ =>
        .bind (.of_stage _ _) fun _ _ => .bind (.of_ofExcept _) fun _ _ =>
          .bind (.of_stage _ _) fun _ _ => .bind (.of_stage _ _) fun _ _ => .of_pure _

/-- The passes of a step solve no problems. -/
theorem Sides.agrees_rewritten (s : Sides) (options : Options) (name : Char) :
    (s.rewritten options name).Agrees options.factorLimit (s.rewritten options name) := by
  refine .bind (s.agrees_tidied options name) fun crossing _ => ?_
  cases crossing with
  | settled value => exact .of_pure _
  | moved next =>
    refine .bind (.of_stage _ _) fun _ _ => ?_
    split
    · refine .bind (.of_ofExcept _) fun opened _ => .bind (.of_stage _ _) fun _ _ => ?_
      split
      · exact .of_fail _
      · exact .of_pure _
    · exact .of_pure _

theorem agrees_mergeFactors {equations : List (List Node)}
    (hsolve : ∀ equation ∈ equations, (solve equation).Agrees limit (solve' equation)) (name : Char)
    (found : Solution) :
    (mergeFactors solve name found equations).Agrees limit
      (mergeFactors solve' name found equations) := by
  induction equations generalizing found with
  | nil => exact .of_pure _
  | cons equation rest ih =>
    refine .bind (hsolve equation (.head _)) fun solution _ => ?_
    split
    · exact ih (fun e he => hsolve e (.tail _ he)) _
    · exact .of_pure _

/-- A step depends on the solutions of the problems that the sequence asks for, and on no others. -/
theorem Sequence.agrees_step {nodes : List Node} {options : Options}
    (hsolve : ∀ equation, Sequence.AsksFor nodes equation →
      (solve equation).Agrees options.factorLimit (solve' equation)) (name : Char) :
    (Sequence.step solve options name nodes).Agrees options.factorLimit
      (Sequence.step solve' options name nodes) := by
  refine .bind (.of_ofExcept _) fun fractions hfractions => ?_
  split
  · exact .of_fail _
  · rename_i hcount
    refine .bind (.of_ofExcept _) fun t ht => .bind (.of_ofExcept _) fun closed _ => ?_
    obtain rfl := Sides.toNodes_of_ofNodes (Traced.ofExcept_eq_ok.1 ht)
    cases closed with
    | some solution => exact .of_pure _
    | none =>
      refine .bind (.of_ofExcept _) fun product hproduct => ?_
      cases product with
      | none => exact t.agrees_rewritten options name
      | some product =>
        dsimp only
        split
        · rename_i hfactorable
          refine .bind (agrees_mergeFactors (fun equation hequation => hsolve equation ?_) _ _)
            fun _ _ => .of_pure _
          exact ⟨t, product, Traced.ofExcept_eq_ok.1 hfractions,
            Sides.hasOneRelation_iff.2 (not_lt.1 hcount), Traced.ofExcept_eq_ok.1 hproduct,
            hfactorable, hequation⟩
        · exact t.agrees_rewritten options name

theorem agrees_rewriteUntilSolved {nodes : List Node} {options : Options}
    (hsolve : ∀ reached equation, Relation.ReflTransGen Rewrites nodes reached →
      Sequence.AsksFor reached equation →
        (solve equation).Agrees options.factorLimit (solve' equation))
    (rounds : Nat) :
    (rewriteUntilSolved solve options rounds nodes).Agrees options.factorLimit
      (rewriteUntilSolved solve' options rounds nodes) := by
  induction rounds generalizing nodes with
  | zero => exact .of_fail _
  | succ rounds ih =>
    refine .bind (.of_ofExcept _) fun kind _ => ?_
    cases kind with
    | arithmetic => exact .bind (.of_ofExcept _) fun _ _ => .of_pure _
    | comparison => exact .bind (.of_ofExcept _) fun _ _ => .of_pure _
    | equation name =>
      refine .bind (Sequence.agrees_step (fun equation => hsolve nodes equation .refl) _)
        fun step hstep => ?_
      cases step with
      | solved solution => exact .of_pure _
      | rewritten next =>
        exact ih fun reached equation hreached =>
          hsolve reached equation (hreached.head ⟨solve, options, name, hstep⟩)

/-- Solving depends on the solutions of the problems that the sequence asks for, and on no
others. -/
theorem agrees_solving {nodes : List Node} {options : Options}
    (hsolve : ∀ equation, Asks nodes equation →
      (solve equation).Agrees options.factorLimit (solve' equation)) :
    Traced.Agrees options.factorLimit
      (do
        let cleaned ← Traced.ofExcept (Sequence.cleaned nodes)
        Traced.stage .cleaning cleaned
        rewriteUntilSolved solve options options.maxSteps cleaned)
      (do
        let cleaned ← Traced.ofExcept (Sequence.cleaned nodes)
        Traced.stage .cleaning cleaned
        rewriteUntilSolved solve' options options.maxSteps cleaned) := by
  refine .bind (.of_ofExcept _) fun cleaned hcleaned => .bind (.of_stage _ _) fun _ _ => ?_
  exact agrees_rewriteUntilSolved (fun reached equation hreached hasks => hsolve equation
    ⟨cleaned, reached, Traced.ofExcept_eq_ok.1 hcleaned, hreached, hasks⟩) _

end

/-! ## Levels -/

/-- With more levels than the rank of the sequence, the number of levels does not matter. -/
theorem agrees_solveWithin {rank levels levels' : Nat} {nodes : List Node}
    (h : Sequence.NestsWithin rank nodes) (hlevels : rank < levels) (hlevels' : rank < levels')
    (options : Options) :
    (solveWithin levels options nodes).Agrees options.factorLimit
      (solveWithin levels' options nodes) := by
  induction levels generalizing rank levels' nodes with
  | zero => cases hlevels
  | succ levels ih =>
    -- One level less on both sides is enough for problems that rank lower.
    obtain ⟨levels', rfl⟩ := Nat.exists_eq_add_of_lt hlevels'
    refine agrees_solving fun equation hasks => ?_
    obtain ⟨lower, rfl, hequation⟩ := h.asks hasks
    exact ih hequation (by omega) (by omega)

/-- The number of levels that is computed from a sequence is as good as any that is enough. -/
theorem agrees_nestingBound {rank levels : Nat} {nodes : List Node}
    (h : Sequence.NestsWithin rank nodes) (hlevels : rank < levels) (options : Options) :
    (solveWithin levels options nodes).Agrees options.factorLimit
      (solveWithin (nestingBound nodes) options nodes) := by
  have hheight := Sequence.nestsWithin_height nodes
  rcases Nat.le_total rank (Sequence.height nodes) with hle | hle
  · exact agrees_solveWithin h hlevels (by rw [nestingBound]; omega) options
  · exact agrees_solveWithin hheight (by omega) (by rw [nestingBound]; omega) options

/-- Solving overflows only with a limit beyond the end of the search in machine words. -/
theorem lt_of_solveWithin_eq_overflow {options : Options} {nodes : List Node}
    (h : (solveWithin (nestingBound nodes) options nodes).outcome = .error .overflow) :
    Rational.wordSearchEnd < options.factorLimit := by
  have hagrees := agrees_nestingBound (Sequence.nestsWithin_height nodes)
    (Nat.lt_succ_self (Sequence.height nodes)) options
  cases hagrees.halts _ (hagrees.eq ▸ h) with
  | overflow hlimit => exact hlimit

/-- Problems within problems come to an end: a chain of them that begins with a sequence is no
longer than the height of the sequence, whatever the limits are.  So solving never gets beyond the
levels that are computed from the sequence, more of them make no difference, and solving is a
recursion that needs no levels at all.  It comes to an answer, or to the reason why there is none,
unless the limit lies beyond the end of the search in machine words and a search overflows. -/
theorem solving_nests_within_height (nodes : List Node) :
    Acc (fun equation nodes => Asks nodes equation) nodes ∧
    (∀ chain, (nodes :: chain).IsChain Asks → chain.length ≤ Sequence.height nodes) ∧
    Sequence.height nodes < nestingBound nodes ∧
    ∀ options : Options,
      (∀ levels, Sequence.height nodes < levels →
        (solveWithin levels options nodes).outcome ≠ .error .tooDeep ∧
        solveWithin levels options nodes = solveWithin (nestingBound nodes) options nodes) ∧
      solveWithin (nestingBound nodes) options nodes = (do
        let cleaned ← Traced.ofExcept (Sequence.cleaned nodes)
        Traced.stage .cleaning cleaned
        rewriteUntilSolved (fun equation => solveWithin (nestingBound equation) options equation)
          options options.maxSteps cleaned) ∧
      ((∃ answer : Except SolveError Solution,
          (solveWithin (nestingBound nodes) options nodes).outcome = answer.mapError .failed) ∨
        (Rational.wordSearchEnd < options.factorLimit ∧
          (solveWithin (nestingBound nodes) options nodes).outcome = .error .overflow)) := by
  have hheight := Sequence.nestsWithin_height nodes
  have hbound : Sequence.height nodes < nestingBound nodes := by
    rw [nestingBound]
    omega
  refine ⟨wellFounded_asks.apply nodes, fun chain hchain => hheight.length_le hchain, hbound,
    fun options => ⟨fun levels hlevels => ?_, ?_, ?_⟩⟩
  · have hagrees := agrees_nestingBound hheight hlevels options
    exact ⟨fun heq => (hagrees.halts _ heq).ne_tooDeep rfl, hagrees.eq⟩
  · refine (agrees_solving fun equation hasks => ?_).eq
    obtain ⟨lower, hlower, hequation⟩ := hheight.asks hasks
    exact agrees_nestingBound hequation (by omega) options
  · have hagrees := agrees_nestingBound hheight hbound options
    cases houtcome : (solveWithin (nestingBound nodes) options nodes).outcome with
    | ok solution => exact .inl ⟨.ok solution, rfl⟩
    | error halt =>
      cases hagrees.halts _ houtcome with
      | failed reason => exact .inl ⟨.error reason, rfl⟩
      | overflow hlimit => exact .inr ⟨hlimit, rfl⟩

/-- The product `x((x - 1)x) = 0` asks for `(x - 1)x = 0`, and that for `x - 1 = 0`.  Its height is
two, so three levels are enough, and two are not. -/
theorem solving_nests_within_height_nested_product :
    ∃ nodes chain, nodes = [.group (some 'x') (Number.ofNat 1) [], .operator .multiply,
        .paren [.paren [.group (some 'x') (Number.ofNat 1) [], .operator .add, Node.constant (-1)] []
          false, .operator .multiply, .group (some 'x') (Number.ofNat 1) []] [] false,
        .relation .equal, Node.constant 0] ∧
      (nodes :: chain).IsChain Asks ∧ chain.length = 2 ∧ chain.length ≤ Sequence.height nodes ∧
      (solveWithin 3 Options.standard nodes).outcome ≠ .error .tooDeep ∧
      (solveWithin 2 Options.standard nodes).outcome = .error .tooDeep := by
  have houter := asks_of_isFactorable ⟨[.group (some 'x') (Number.ofNat 1) [], .operator .multiply,
      .paren [.paren [.group (some 'x') (Number.ofNat 1) [], .operator .add, Node.constant (-1)] []
        false, .operator .multiply, .group (some 'x') (Number.ofNat 1) []] [] false], .equal,
      [Node.constant 0]⟩
    [.paren [.group (some 'x') (Number.ofNat 1) [], .operator .add, Node.constant (-1)] [] false,
      .operator .multiply, .group (some 'x') (Number.ofNat 1) [], .relation .equal, Node.constant 0]
    (by decide +kernel) (by decide +kernel) (by decide +kernel) (by decide +kernel)
  have hinner := asks_of_isFactorable ⟨[.paren [.group (some 'x') (Number.ofNat 1) [], .operator .add,
      Node.constant (-1)] [] false, .operator .multiply, .group (some 'x') (Number.ofNat 1) []], .equal,
      [Node.constant 0]⟩
    [.group (some 'x') (Number.ofNat 1) [], .operator .add, Node.constant (-1), .relation .equal,
      Node.constant 0]
    (by decide +kernel) (by decide +kernel) (by decide +kernel) (by decide +kernel)
  have hchain := List.IsChain.cons_cons houter (.cons_cons hinner (.singleton _))
  obtain ⟨-, hbound, -, hlevels⟩ := solving_nests_within_height _
  exact ⟨_, _, rfl, hchain, rfl, hbound _ hchain,
    ((hlevels Options.standard).1 3 (by decide +kernel)).1, by decide +kernel⟩

/-- A round in which a fraction cannot be cleared ends there. -/
theorem outcome_of_withoutFraction {solve : List Node → Traced Solution} {options : Options}
    {nodes : List Node} {s : Sides} {name : Char} {halt : Halt} (rounds : Nat)
    (hkind : ProblemKind.of nodes = .ok (.equation name))
    (hfractions : Sequence.withFractions nodes = .ok s.toNodes) (hone : s.HasOneRelation)
    (hclosed : s.closedForm? name = .ok none) (hproduct : s.zeroProduct? = .ok none)
    (hcleared : s.withoutFraction options.factorLimit = .error halt) :
    (rewriteUntilSolved solve options (rounds + 1) nodes).outcome = .error halt := by
  have hrewritten : (s.rewritten options name).outcome = .error halt :=
    Traced.outcome_bind_of_error (Traced.outcome_bind_of_error hcleared)
  have hstep : (Sequence.step solve options name nodes).outcome = .error halt := by
    rw [Sequence.outcome_step_of_sides hfractions hone,
      Sides.outcome_step_of_none hclosed hproduct fun side heq => by cases heq]
    exact hrewritten
  rw [rewriteUntilSolved, Traced.outcome_bind_of_ok (Traced.ofExcept_eq_ok.2 hkind)]
  exact Traced.outcome_bind_of_error hstep

/-- A denominator that is too large for the search in machine words: with the largest limit solving
`x / 18446744073709551614 = 1` comes to no answer, and to no reason why there is none. -/
theorem solving_nests_within_height_overflow :
    ∃ nodes, nodes = [.group (some 'x') (Number.ofNat 1) [], .operator .divide,
        Node.constant ((2 ^ 64 - 2 : Nat) : Rat), .relation .equal, Node.constant 1] ∧
      ∀ answer : Except SolveError Solution,
        (solveWithin (nestingBound nodes) ⟨256, 2 ^ 64 - 1⟩ nodes).outcome ≠
          answer.mapError .failed := by
  -- The denominator is a variable here, so that nothing tries to compute its divisors.
  obtain ⟨n, hn⟩ : ∃ n, n = 2 ^ 64 - 2 := ⟨_, rfl⟩
  let s : Sides := ⟨[.fraction [.group (some 'x') (Number.ofNat 1) []] [Node.constant (n : Rat)]],
    .equal, [Node.constant 1]⟩
  obtain ⟨nodes, hnodes⟩ : ∃ nodes : List Node, nodes = [.group (some 'x') (Number.ofNat 1) [],
      .operator .divide, Node.constant (n : Rat), .relation .equal, Node.constant 1] := ⟨_, rfl⟩
  have hcleared : s.withoutFraction (2 ^ 64 - 1) = .error .overflow :=
    Sides.withoutFraction_eq_overflow rfl (hn ▸ by decide) (hn ▸ by decide)
  have hprepared : Sequence.cleaned nodes = .ok nodes ∧
      ProblemKind.of nodes = .ok (.equation 'x') ∧
      Sequence.withFractions nodes = .ok s.toNodes ∧
      (s.toNodes.filter Node.isRelation).length ≤ 1 ∧
      s.closedForm? 'x' = .ok none ∧ s.zeroProduct? = .ok none := by
    simp only [s, hnodes, hn]
    decide +kernel
  obtain ⟨hcleaned, hkind, hfractions, hcount, hclosed, hproduct⟩ := hprepared
  have houtcome : (solveWithin (nestingBound nodes) ⟨256, 2 ^ 64 - 1⟩ nodes).outcome =
      .error .overflow := by
    rw [nestingBound, solveWithin, Traced.outcome_bind_of_ok (Traced.ofExcept_eq_ok.2 hcleaned),
      Traced.outcome_bind_of_ok (Traced.outcome_stage _ _)]
    exact outcome_of_withoutFraction 255 hkind hfractions (Sides.hasOneRelation_iff.2 hcount)
      hclosed hproduct hcleared
  refine ⟨nodes, by rw [hnodes, hn], fun answer heq => ?_⟩
  rw [houtcome] at heq
  cases answer <;> cases heq

end OneUnknown
