import OneUnknown.Proofs.Letters
import OneUnknown.Proofs.Passes
import OneUnknown.Proofs.Problem
/-!
# A step keeps an equation equivalent

Every pass leaves the difference of the two sides as it is, or multiplies it by a positive number.
A step is one pass after the other.

* `Sides.Becomes`: what the passes make of an equation;
* `Sides.Pass.letters` and `Sides.Pass.becomes`: one pass;
* `Sides.Passes.becomes`, `Sides.becomes_rewritten`: the passes of one step, and its stages;
* `Sequence.step_cases`: the ways in which a step on a plain equation ends;
* `Rewrites` and `isPlain_of_rewrites`: what is reached by steps stays plain;
* `step_keeps_solutions`: the equation after a step holds where the one before it does.
-/

namespace OneUnknown

section

variable {x : Char}

/-! ## Plain equations -/

theorem Node.isPlain_mono {node : Node} (h : node.IsPlain x false) : node.IsPlain x true := by
  induction node using Node.nested_induction with
  | group | fraction => exact h
  | operator op => exact ⟨h.1, fun _ => rfl⟩
  | relation r => exact h
  | paren b p negative ihb =>
    exact ⟨Sequence.isPlain_iff.2 fun node hnode =>
      ihb node hnode (Sequence.isPlain_iff.1 h.1 node hnode), h.2⟩

theorem Sides.isPlain_mono {s : Sides} (h : s.IsPlain x false) : s.IsPlain x true :=
  ⟨Sequence.isPlain_iff.2 fun node hnode => Node.isPlain_mono (Sequence.isPlain_iff.1 h.1 node hnode),
    Sequence.isPlain_iff.2 fun node hnode =>
      Node.isPlain_mono (Sequence.isPlain_iff.1 h.2 node hnode)⟩

theorem Sequence.isRelation_of_isPlain {nodes : List Node} {division : Bool}
    (h : Sequence.IsPlain x division nodes) : ∀ node ∈ nodes, node.isRelation = false := by
  intro node hnode
  have hplain := Sequence.isPlain_iff.1 h node hnode
  cases node <;> first | rfl | exact hplain.elim

theorem Sides.hasOneRelation_of_isPlain {s : Sides} {division : Bool}
    (h : s.IsPlain x division) : s.HasOneRelation :=
  ⟨Sequence.isRelation_of_isPlain h.1, Sequence.isRelation_of_isPlain h.2⟩

theorem Sides.ofNodes_of_isPlain {s : Sides} {division : Bool} (h : s.IsPlain x division) :
    Sides.ofNodes s.toNodes = .ok s :=
  Sides.ofNodes_toNodes (Sequence.isRelation_of_isPlain h.1)

/-- What the passes make of an equation: plain sides, a difference that is the same up to a positive
factor wherever the sides had values, and the unknown still in it. -/
structure Sides.Becomes (x : Char) (s t : Sides) : Prop where
  isPlain : t.IsPlain x false
  scaled : ∃ scale, Sides.Scaled scale s t
  hasVariable : ∀ point, s.DefinedAt point → s.hasVariable = true → t.hasVariable = true

namespace Sides.Becomes

variable {s t u : Sides} {point : Char → Rat}

theorem definedAt (h : s.Becomes x t) (hs : s.DefinedAt point) : t.DefinedAt point :=
  h.scaled.elim fun _ hscaled => hscaled.definedAt hs

theorem holdsAt_iff (h : s.Becomes x t) (hs : s.DefinedAt point) :
    t.HoldsAt point ↔ s.HoldsAt point :=
  h.scaled.elim fun _ hscaled => hscaled.holdsAt_iff hs

theorem relation (h : s.Becomes x t) : t.relation = s.relation :=
  h.scaled.elim fun _ hscaled => hscaled.relation

protected theorem refl (hs : s.IsPlain x false) : s.Becomes x s :=
  ⟨hs, ⟨1, .refl s⟩, fun _ _ h => h⟩

protected theorem trans (h : s.Becomes x t) (h' : t.Becomes x u) : s.Becomes x u where
  isPlain := h'.isPlain
  scaled := by
    obtain ⟨scale, hscaled⟩ := h.scaled
    obtain ⟨scale', hscaled'⟩ := h'.scaled
    exact ⟨_, hscaled.trans hscaled'⟩
  hasVariable := fun point hs hvariable =>
    h'.hasVariable point (h.definedAt hs) (h.hasVariable point hs hvariable)

end Sides.Becomes

/-! ## One pass -/

/-- Every pass keeps the letters of an equation, except the one that adds up like terms. -/
theorem Sides.Pass.letters {s t : Sides} (h : s.Pass t) :
    (∀ c, c ∈ Sequence.mentions t.toNodes ↔ c ∈ Sequence.mentions s.toNodes) ∨
      t = s.collected := by
  cases h with
  | fractions hleft hright =>
    refine .inl fun c => ?_
    rw [Sides.mem_mentions_toNodes, Sides.mem_mentions_toNodes,
      hleft.mentions_eq fun _ _ _ => Node.mentions_withFractions,
      hright.mentions_eq fun _ _ _ => Node.mentions_withFractions]
    rfl
  | withoutFraction h => exact .inl fun _ => Sides.mem_mentions_withoutFraction h
  | cancelled h => exact .inl fun _ => Sides.mem_mentions_cancelled h
  | multiplied h =>
    exact .inl fun _ => Sides.mem_mentions_mapM (fun _ _ => Sequence.mem_mentions_multiplied) h
  | collected => exact .inr rfl
  | crossed h => exact .inl fun _ => Sides.mem_mentions_crossed h
  | expanded h =>
    exact .inl fun _ => Sides.mem_mentions_mapM (fun _ _ => Sequence.mem_mentions_expanded) h

theorem Sides.Pass.mem_mentions {s t : Sides} (h : s.Pass t) {c : Char}
    (hc : c ∈ Sequence.mentions t.toNodes) : c ∈ Sequence.mentions s.toNodes := by
  rcases h.letters with hletters | rfl
  · exact (hletters c).1 hc
  · exact Sides.mem_mentions_of_collected hc

/-- No pass drops the last variable of an equation. -/
theorem Sides.Pass.hasVariable {s t : Sides} (h : s.Pass t) (hs : s.hasVariable = true) :
    t.hasVariable = true := by
  rcases h.letters with hletters | rfl
  · exact Sides.hasVariable_of_mentions hletters hs
  · exact Sides.hasVariable_collected hs

/-- The divisions of an equation become fractions on each side. -/
theorem Sides.scaled_fractions {s : Sides} {left right : List Node} (hs : s.IsPlain x true)
    (hleft : FractionsWritten none s.left left) (hright : FractionsWritten none s.right right) :
    Sides.IsPlain x false ⟨left, s.relation, right⟩ ∧
      Sides.Scaled 1 s ⟨left, s.relation, right⟩ := by
  have hplain {nodes out : List Node} (h : FractionsWritten none nodes out)
      (hnodes : Sequence.IsPlain x true nodes) : Sequence.IsPlain x false out :=
    h.isPlain trivial fun n hn hne _ hn' =>
      Node.isPlain_withFractions (Sequence.isPlain_iff.1 hnodes n hn) hne hn'
  exact ⟨⟨hplain hleft hs.1, hplain hright hs.2⟩, one_pos, rfl, fun point l r hl hr =>
    ⟨l, r, (hleft.valueAt_eq point).trans hl, (hright.valueAt_eq point).trans hr,
      (one_mul _).symm⟩⟩

theorem Sides.becomes_withFractions {s : Sides} (hs : s.IsPlain x true) {nodes : List Node}
    (h : Sequence.withFractions s.toNodes = .ok nodes) :
    ∃ t : Sides, nodes = t.toNodes ∧ s.Becomes x t := by
  obtain ⟨left, right, hleft, hright, rfl⟩ :=
    (FractionsWritten.of_withFractionsAfter h).split rfl
  have hscaled := Sides.scaled_fractions hs hleft hright
  exact ⟨⟨left, s.relation, right⟩, rfl, hscaled.1, ⟨1, hscaled.2⟩,
    fun _ _ => (Sides.Pass.fractions hleft hright).hasVariable⟩

/-- Every pass keeps a plain equation plain, and its difference up to a positive factor. -/
theorem Sides.Pass.scaled {s t : Sides} (h : s.Pass t) (hs : s.IsPlain x false) :
    t.IsPlain x false ∧ ∃ scale, Sides.Scaled scale s t := by
  cases h with
  | fractions hleft hright =>
    exact (Sides.scaled_fractions (Sides.isPlain_mono hs) hleft hright).imp_right fun h => ⟨1, h⟩
  | withoutFraction h => exact Sides.scaled_withoutFraction h hs
  | cancelled h => exact Sides.scaled_cancelled h hs
  | multiplied h => exact (Sides.scaled_multiplied h hs).imp_right fun h => ⟨1, h⟩
  | collected => exact ⟨Sides.isPlain_collected hs, 1, Sides.scaled_collected s⟩
  | crossed h => exact (Sides.scaled_crossed h hs).imp_right fun h => ⟨1, h⟩
  | expanded h => exact (Sides.scaled_expanded h hs).imp_right fun h => ⟨1, h⟩

theorem Sides.Pass.becomes {s t : Sides} (h : s.Pass t) (hs : s.IsPlain x false) :
    s.Becomes x t :=
  ⟨(h.scaled hs).1, (h.scaled hs).2, fun _ _ => h.hasVariable⟩

/-! ## The passes of a step -/

theorem Sides.Passes.becomes {s t : Sides} (h : s.Passes t) (hs : s.IsPlain x false) :
    s.Becomes x t := by
  induction h with
  | refl => exact .refl hs
  | tail _ hpass ih => exact ih.trans (hpass.becomes ih.isPlain)

/-- Every stage of a computation on an equation is an equation that it becomes. -/
def Sides.StagesBecome (x : Char) (s : Sides) (stages : List Stage) : Prop :=
  ∀ stage ∈ stages, ∃ u : Sides, s.Becomes x u ∧ stage.nodes = u.toNodes

/-- A step that has no closed form ends with equal sides, or with an equation that says the same
and is its last stage. -/
theorem Sides.becomes_rewritten {s : Sides} {options : Options} {name : Char} {step : Step}
    (hs : s.IsPlain x false) (h : (s.rewritten options name).outcome = .ok step) :
    s.StagesBecome x (s.rewritten options name).stages ∧ ∃ t, s.Becomes x t ∧
      ((step = .rewritten t.toNodes ∧
          ∃ stage ∈ (s.rewritten options name).stages, stage.nodes = t.toNodes) ∨
        ∃ value, t.crossed name = .settled value ∧ step = .solved (Solution.only name value)) := by
  have hpasses := Sides.ensures_passes_rewritten s options name
  refine ⟨fun stage hstage => ?_, ?_⟩
  · obtain ⟨u, hu, hnodes⟩ := hpasses.stages stage hstage
    exact ⟨u, Sides.Passes.becomes hu hs, hnodes⟩
  · obtain ⟨t, ht, rfl | hsettled⟩ := hpasses.outcome step h
    · exact ⟨t, Sides.Passes.becomes ht hs, .inl ⟨rfl, Sides.exists_stage_of_rewritten h⟩⟩
    · exact ⟨t, Sides.Passes.becomes ht hs, .inr hsettled⟩

/-- The ways in which a step on a plain equation ends: in closed form, with a product that is taken
apart, or with the passes. -/
theorem Sequence.step_cases {solve : List Node → Traced Solution} {options : Options} {name : Char}
    {s : Sides} {step : Step} (hs : s.IsPlain x true)
    (h : (Sequence.step solve options name s.toNodes).outcome = .ok step) :
    ∃ t : Sides, Sequence.withFractions s.toNodes = .ok t.toNodes ∧ s.Becomes x t ∧
      ((∃ solution, t.closedForm? name = .ok (some solution) ∧ step = .solved solution ∧
          (Sequence.step solve options name s.toNodes).stages = []) ∨
        (∃ product solution, t.zeroProduct? = .ok (some product) ∧ isFactorable product = true ∧
          (mergeFactors solve name Solution.empty (factorEquations product)).outcome = .ok solution ∧
          step = .solved solution ∧ (Sequence.step solve options name s.toNodes).stages =
            (mergeFactors solve name Solution.empty (factorEquations product)).stages) ∨
        ((t.rewritten options name).outcome = .ok step ∧
          (Sequence.step solve options name s.toNodes).stages =
            (t.rewritten options name).stages)) := by
  obtain ⟨s', t', heq, hone, htone, -, hfractions, hstep, hstages⟩ :=
    Sequence.exists_sides_of_step h
  obtain ⟨t, htoNodes, ht⟩ := Sides.becomes_withFractions hs hfractions
  obtain rfl := htone.eq_of_toNodes (Sides.hasOneRelation_of_isPlain ht.isPlain) htoNodes
  rw [hstages]
  exact ⟨t', hfractions, ht, Sides.step_cases hstep⟩

/-- What a step that rewrites does: fractions are written, and then the passes follow. -/
theorem Sequence.becomes_step {solve : List Node → Traced Solution} {options : Options}
    {name : Char} {s : Sides} {next : List Node} (hs : s.IsPlain x true)
    (h : (Sequence.step solve options name s.toNodes).outcome = .ok (.rewritten next)) :
    ∃ t, next = t.toNodes ∧ s.Becomes x t := by
  obtain ⟨t, -, ht, ⟨solution, -, heq, -⟩ | ⟨product, solution, -, -, -, heq, -⟩ | ⟨h, -⟩⟩ :=
    Sequence.step_cases hs h
  · cases heq
  · cases heq
  · obtain ⟨-, u, hu, ⟨heq, -⟩ | ⟨value, -, heq⟩⟩ := Sides.becomes_rewritten ht.isPlain h
    · exact ⟨u, Step.rewritten.inj heq, ht.trans hu⟩
    · cases heq

/-! ## Runs -/

/-- A sequence is rewritten into another one by a step, with any limits, and whatever solves the
equations of factors. -/
def Rewrites (nodes next : List Node) : Prop :=
  ∃ solve options name, (Sequence.step solve options name nodes).outcome = .ok (.rewritten next)

/-- Steps lead from a plain equation to plain equations only. -/
theorem isPlain_of_rewrites {s : Sides} (hs : s.IsPlain x true) {nodes : List Node}
    (h : Relation.ReflTransGen Rewrites s.toNodes nodes) :
    ∃ t : Sides, nodes = t.toNodes ∧ t.IsPlain x true := by
  induction h with
  | refl => exact ⟨s, rfl, hs⟩
  | tail _ hstep ih =>
    obtain ⟨t, rfl, ht⟩ := ih
    obtain ⟨solve, options, name, hstep⟩ := hstep
    obtain ⟨u, rfl, hu⟩ := Sequence.becomes_step ht hstep
    exact ⟨u, rfl, Sides.isPlain_mono hu.isPlain⟩

end

/-- Every step keeps an equation equivalent.  `nodes` is the cleaned text of a problem or anything
that was reached from it by steps; wherever its two sides have values, those of the next equation
do, and the one holds exactly when the other does. -/
theorem step_keeps_solutions {text : List Char} {unknown : Char} {start : Sides}
    (hproblem : IsProblem text unknown start) {nodes next : List Node}
    (hreached : Relation.ReflTransGen Rewrites start.toNodes nodes)
    (solve : List Node → Traced Solution) (options : Options) (name : Char)
    (hstep : (Sequence.step solve options name nodes).outcome = .ok (.rewritten next)) :
    ∃ s t : Sides, Sides.ofNodes nodes = .ok s ∧ Sides.ofNodes next = .ok t ∧
      ∀ r : Rat, s.DefinedAt (everywhere r) →
        t.DefinedAt (everywhere r) ∧ (t.HoldsAt (everywhere r) ↔ s.HoldsAt (everywhere r)) := by
  obtain ⟨s, rfl, hs⟩ := isPlain_of_rewrites hproblem.isPlain hreached
  obtain ⟨t, rfl, ht⟩ := Sequence.becomes_step hs hstep
  exact ⟨s, t, Sides.ofNodes_of_isPlain hs, Sides.ofNodes_of_isPlain ht.isPlain,
    fun r hdefined => ⟨ht.definedAt hdefined, ht.holdsAt_iff hdefined⟩⟩

/-- The first step on `2x + 4 = 10` divides both sides by two and moves a number to the right. -/
theorem step_keeps_solutions_two_x :
    ∃ s t : Sides,
      Sides.ofNodes [.group (some 'x') (Number.ofNat 2) [], .operator .add, Node.constant 4,
        .relation .equal, Node.constant 10] = .ok s ∧
      Sides.ofNodes [.group (some 'x') (Number.ofNat 1) [], .relation .equal, Node.constant 5,
        .operator .add, Node.constant (-2)] = .ok t ∧
      ∀ r : Rat, s.DefinedAt (everywhere r) →
        t.DefinedAt (everywhere r) ∧ (t.HoldsAt (everywhere r) ↔ s.HoldsAt (everywhere r)) := by
  have hproblem : IsProblem ['2', 'x', ' ', '+', ' ', '4', ' ', '=', ' ', '1', '0'] 'x'
      ⟨[.group (some 'x') (Number.ofNat 2) [], .operator .add, Node.constant 4], .equal,
        [Node.constant 10]⟩ :=
    { cleaned := ⟨[.group (some 'x') (Number.ofNat 2) [], .operator .add, Node.constant 4,
        .relation .equal, Node.constant 10], by decide +kernel, by decide +kernel⟩
      wellFormed := by decide +kernel
      unknowns := by decide +kernel
      wholePowers := by decide +kernel }
  exact step_keeps_solutions hproblem .refl (fun _ => Traced.tooDeep) Options.standard 'x'
    (by decide +kernel)

end OneUnknown
