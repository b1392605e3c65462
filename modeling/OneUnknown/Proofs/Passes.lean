import OneUnknown.Proofs.Division
import OneUnknown.Equation.Step
import Mathlib.Logic.Relation
/-!
# What a step can do

A step that rewrites an equation does so by passes, and nothing else.  What every pass keeps is kept
by every step.

* `Sides.Pass`: one pass on the two sides of an equation;
* `Sides.ensures_passes_rewritten`: the passes of a step, recorded or not;
* `Sides.exists_of_withFractions`: writing fractions leaves the sides apart;
* `Sides.step_cases`: the ways in which a step ends;
* `Sequence.passes_of_step`: every step that rewrites an equation.
-/

namespace OneUnknown

/-- One pass of a step, as it changes the two sides of an equation. -/
inductive Sides.Pass : Sides → Sides → Prop where
  | fractions {s left right} (hleft : FractionsWritten none s.left left)
      (hright : FractionsWritten none s.right right) : Pass s ⟨left, s.relation, right⟩
  | withoutFraction {limit s t} (h : s.withoutFraction limit = .ok t) : Pass s t
  | cancelled {limit s t} (h : s.cancelled limit = .ok t) : Pass s t
  | multiplied {s t} (h : s.mapM Sequence.multiplied = .ok t) : Pass s t
  | collected (s) : Pass s s.collected
  | crossed {name s t} (h : s.crossed name = .moved t) : Pass s t
  | expanded {s t} (h : s.mapM Sequence.expanded = .ok t) : Pass s t

/-- Some passes, one after the other. -/
abbrev Sides.Passes : Sides → Sides → Prop := Relation.ReflTransGen Sides.Pass

namespace Sides

variable {s t : Sides} {options : Options} {name : Char}

/-- A computation that records only what passes make of an equation. -/
abbrev EnsuresPasses (s : Sides) {α : Type} (result : α → Prop) (x : Traced α) : Prop :=
  x.Ensures (fun nodes => ∃ t, s.Passes t ∧ nodes = t.toNodes) result

/-- A step that has no closed form moves terms to their side only after other passes. -/
theorem ensures_passes_tidied (s : Sides) (options : Options) (name : Char) :
    s.EnsuresPasses (fun crossing => ∃ t, s.Passes t ∧ crossing = t.crossed name)
      (s.tidied options name) := by
  refine .bind (.of_ofHalting fun _ hcleared => .single (.withoutFraction hcleared))
    fun cleared (h₁ : s.Passes cleared) => .bind (.of_stage ⟨_, h₁, rfl⟩) fun _ _ => ?_
  refine .bind (.of_ofHalting fun _ hcancelled => h₁.tail (.cancelled hcancelled))
    fun cancelled (h₂ : s.Passes cancelled) => .bind (.of_stage ⟨_, h₂, rfl⟩) fun _ _ => ?_
  refine .bind (.of_ofExcept fun _ hmultiplied => h₂.tail (.multiplied hmultiplied))
    fun multiplied (h₃ : s.Passes multiplied) => .bind (.of_stage ⟨_, h₃, rfl⟩) fun _ _ => ?_
  have h₄ := h₃.tail (.collected multiplied)
  exact .bind (.of_stage ⟨_, h₄, rfl⟩) fun _ _ => .of_pure ⟨_, h₄, rfl⟩

/-- A step that has no closed form consists of passes, and if it solves the equation, the two sides
have become the same. -/
theorem ensures_passes_rewritten (s : Sides) (options : Options) (name : Char) :
    s.EnsuresPasses (fun step => ∃ t, s.Passes t ∧ (step = .rewritten t.toNodes ∨
      ∃ value, t.crossed name = .settled value ∧ step = .solved (Solution.only name value)))
      (s.rewritten options name) := by
  refine .bind (ensures_passes_tidied s options name) ?_
  rintro crossing ⟨t, ht, rfl⟩
  cases hcrossed : t.crossed name with
  | settled value => exact .of_pure ⟨t, ht, .inr ⟨value, hcrossed, rfl⟩⟩
  | moved next =>
    have hnext := ht.tail (.crossed hcrossed)
    refine .bind (.of_stage ⟨_, hnext, rfl⟩) fun _ _ => ?_
    split
    · refine .bind (.of_ofExcept fun _ hopened => .single (.expanded hopened))
        fun opened (hopened : s.Passes opened) =>
          .bind (.of_stage ⟨_, hopened, rfl⟩) fun _ _ => ?_
      split
      · exact .of_fail _
      · exact .of_pure ⟨opened, hopened, .inl rfl⟩
    · exact .of_pure ⟨next, hnext, .inl rfl⟩

/-- The equation that a step leads to is its last stage. -/
theorem exists_stage_of_rewritten {next : List Node}
    (h : (s.rewritten options name).outcome = .ok (.rewritten next)) :
    ∃ stage ∈ (s.rewritten options name).stages, stage.nodes = next := by
  obtain ⟨crossing, -, h, hstages₁⟩ := Traced.bind_cases h
  rw [Sides.rewritten, hstages₁]
  cases crossing with
  | settled value => cases h
  | moved t =>
    obtain ⟨-, -, h, hstages₂⟩ := Traced.bind_cases h
    dsimp only
    rw [hstages₂]
    split at h
    · rename_i hsame
      obtain ⟨opened, -, h, hstages₃⟩ := Traced.bind_cases h
      obtain ⟨-, -, h, hstages₄⟩ := Traced.bind_cases h
      rw [if_pos hsame, Sides.openedUp, hstages₃, hstages₄]
      split at h
      · cases h
      · exact ⟨⟨.parentheses, opened.toNodes⟩, by simp, Step.rewritten.inj (Except.ok.inj h)⟩
    · exact ⟨⟨.crossing, t.toNodes⟩, by simp, Step.rewritten.inj (Except.ok.inj h)⟩

/-! ## The only relation -/

/-- The two sides of an equation, without relations of their own. -/
def HasOneRelation (s : Sides) : Prop :=
  (∀ node ∈ s.left, node.isRelation = false) ∧ ∀ node ∈ s.right, node.isRelation = false

theorem hasOneRelation_iff :
    s.HasOneRelation ↔ (s.toNodes.filter Node.isRelation).length ≤ 1 := by
  have hnone (nodes : List Node) :
      (∀ node ∈ nodes, node.isRelation = false) ↔ (nodes.filter Node.isRelation).length = 0 := by
    simp [List.filter_eq_nil_iff]
  have hrelation : (Node.relation s.relation).isRelation = true := rfl
  rw [HasOneRelation, hnone, hnone, toNodes, List.filter_append, List.filter_cons_of_pos hrelation,
    List.length_append, List.length_cons]
  omega

/-- The two sides can be found again. -/
theorem HasOneRelation.eq_of_toNodes (hs : s.HasOneRelation) (ht : t.HasOneRelation)
    (h : s.toNodes = t.toNodes) : s = t := by
  have hsplit := ofNodes_toNodes hs.1
  rw [h, ofNodes_toNodes ht.1] at hsplit
  exact (Except.ok.inj hsplit).symm

end Sides

theorem FractionsWritten.exists_relation {held : Option Node} {rest out : List Node}
    (h : FractionsWritten held rest out) (hrest : ∃ node ∈ rest, node.isRelation = true) :
    ∃ node ∈ out, node.isRelation = true := by
  obtain ⟨node, hnode, hrelation⟩ := hrest
  obtain ⟨left, right, rfl⟩ := List.append_of_mem hnode
  cases node with
  | relation r =>
    obtain ⟨left', right', -, -, rfl⟩ := h.split rfl
    exact ⟨.relation r, by simp, rfl⟩
  | _ => cases hrelation

/-- Writing fractions makes no relations. -/
theorem FractionsWritten.exists_relation_of_out {rest out : List Node}
    (h : FractionsWritten none rest out) (hout : ∃ node ∈ out, node.isRelation = true) :
    ∃ node ∈ rest, node.isRelation = true := by
  by_contra hnone
  have hrest : ∀ old ∈ rest, ∀ new, old.withFractions = .ok new → new.isRelation = false := by
    intro old hold new hnew
    cases old with
    | paren b p negative =>
      obtain ⟨body, -, rfl⟩ := Node.eq_paren_of_withFractions hnew
      rfl
    | relation r => exact absurd ⟨_, hold, rfl⟩ hnone
    | _ => exact Except.ok.inj hnew ▸ rfl
  obtain ⟨node, hnode, hrelation⟩ := hout
  have hfalse := h.forall_mem (P := fun node => node.isRelation = false) (fun _ _ _ _ _ _ => rfl)
    (by simp) (fun old hold _ => hrest old hold) node hnode
  rw [hfalse] at hrelation
  cases hrelation

namespace Sides

variable {s t : Sides}

/-- The two sides of an equation are written with fractions each on its own. -/
theorem exists_of_withFractions {nodes : List Node}
    (h : Sequence.withFractions nodes = .ok t.toNodes) (ht : t.HasOneRelation) :
    ∃ s : Sides, nodes = s.toNodes ∧ s.HasOneRelation ∧ s.Pass t := by
  have hwritten := FractionsWritten.of_withFractionsAfter h
  obtain ⟨node, hnode, hrelation⟩ := hwritten.exists_relation_of_out
    ⟨.relation t.relation, by simp [toNodes], rfl⟩
  obtain ⟨left, right, rfl⟩ := List.append_of_mem hnode
  cases node with
  | relation r =>
    obtain ⟨left', right', hleft, hright, heq⟩ := hwritten.split rfl
    have hout : HasOneRelation ⟨left', r, right'⟩ := by
      rw [hasOneRelation_iff] at ht ⊢
      rw [heq] at ht
      exact ht
    obtain rfl := ht.eq_of_toNodes hout heq
    have hnone {rest out : List Node} (hrest : FractionsWritten none rest out)
        (hout : ∀ node ∈ out, node.isRelation = false) :
        ∀ node ∈ rest, node.isRelation = false := by
      intro node hnode
      refine Bool.eq_false_iff.2 fun hrelation => ?_
      obtain ⟨new, hnew, hnewRelation⟩ := hrest.exists_relation ⟨node, hnode, hrelation⟩
      rw [hout new hnew] at hnewRelation
      cases hnewRelation
    exact ⟨⟨left, r, right⟩, rfl, ⟨hnone hleft hout.1, hnone hright hout.2⟩,
      .fractions hleft hright⟩
  | _ => cases hrelation

end Sides

/-! ## One step -/

variable {solve : List Node → Traced Solution} {options : Options} {name : Char} {step : Step}

/-- The ways in which a step ends: in closed form, with a product that is taken apart, or with the
passes. -/
theorem Sides.step_cases {t : Sides} (h : (t.step solve options name).outcome = .ok step) :
    (∃ solution, t.closedForm? name = .ok (some solution) ∧ step = .solved solution ∧
        (t.step solve options name).stages = []) ∨
      (∃ product solution, t.zeroProduct? = .ok (some product) ∧ isFactorable product = true ∧
        (mergeFactors solve name Solution.empty (factorEquations product)).outcome = .ok solution ∧
        step = .solved solution ∧ (t.step solve options name).stages =
          (mergeFactors solve name Solution.empty (factorEquations product)).stages) ∨
      ((t.rewritten options name).outcome = .ok step ∧
        (t.step solve options name).stages = (t.rewritten options name).stages) := by
  obtain ⟨closed, hclosed, h, hstages₁⟩ := Traced.bind_cases h
  rw [Sides.step, hstages₁, Traced.stages_ofExcept, List.nil_append]
  cases closed with
  | some solution =>
    exact .inl ⟨solution, Traced.ofExcept_eq_ok.1 hclosed, (Except.ok.inj h).symm, rfl⟩
  | none =>
    obtain ⟨product, hproduct, h, hstages₂⟩ := Traced.bind_cases h
    dsimp only
    rw [hstages₂, Traced.stages_ofExcept, List.nil_append]
    cases product with
    | none => exact .inr (.inr ⟨h, rfl⟩)
    | some product =>
      dsimp only at h ⊢
      split at h
      · rename_i hfactorable
        rw [if_pos hfactorable]
        obtain ⟨solution, hsolution, h, hstages₃⟩ := Traced.bind_cases h
        rw [hstages₃]
        exact .inr (.inl ⟨product, solution, Traced.ofExcept_eq_ok.1 hproduct, hfactorable,
          hsolution, (Except.ok.inj h).symm, List.append_nil _⟩)
      · rename_i hfactorable
        rw [if_neg hfactorable]
        exact .inr (.inr ⟨h, rfl⟩)

/-- An equation without a closed form that is not taken apart goes through the passes. -/
theorem Sides.outcome_step_of_none {t : Sides} {product : Option (List Node)}
    (hclosed : t.closedForm? name = .ok none) (hproduct : t.zeroProduct? = .ok product)
    (hfactorable : ∀ side, product = some side → isFactorable side = false) :
    (t.step solve options name).outcome = (t.rewritten options name).outcome := by
  rw [Sides.step, Traced.outcome_bind_of_ok (Traced.ofExcept_eq_ok.2 hclosed)]
  dsimp only
  rw [Traced.outcome_bind_of_ok (Traced.ofExcept_eq_ok.2 hproduct)]
  cases product with
  | none => rfl
  | some side =>
    dsimp only
    rw [if_neg (by simp [hfactorable side rfl])]

/-- A step on a sequence is one on its sides, with the divisions as fractions. -/
theorem Sequence.outcome_step_of_sides {nodes : List Node} {t : Sides}
    (hfractions : Sequence.withFractions nodes = .ok t.toNodes) (hone : t.HasOneRelation) :
    (Sequence.step solve options name nodes).outcome = (t.step solve options name).outcome := by
  rw [Sequence.step, Traced.outcome_bind_of_ok (Traced.ofExcept_eq_ok.2 hfractions),
    if_neg (not_lt.2 (Sides.hasOneRelation_iff.1 hone)),
    Traced.outcome_bind_of_ok (Traced.ofExcept_eq_ok.2 (Sides.ofNodes_toNodes hone.1))]

/-- The equation of a step, with the divisions as fractions. -/
theorem Sequence.exists_sides_of_step {nodes : List Node}
    (h : (Sequence.step solve options name nodes).outcome = .ok step) :
    ∃ s t : Sides, nodes = s.toNodes ∧ s.HasOneRelation ∧ t.HasOneRelation ∧ s.Pass t ∧
      Sequence.withFractions nodes = .ok t.toNodes ∧
      (t.step solve options name).outcome = .ok step ∧
      (Sequence.step solve options name nodes).stages = (t.step solve options name).stages := by
  obtain ⟨fractions, hfractions, h, hstages₁⟩ := Traced.bind_cases h
  have hfractions := Traced.ofExcept_eq_ok.1 hfractions
  rw [Sequence.step, hstages₁, Traced.stages_ofExcept, List.nil_append]
  split at h
  · cases h
  · rename_i hcount
    obtain ⟨t, ht, hstep, hstages₂⟩ := Traced.bind_cases h
    obtain rfl := Sides.toNodes_of_ofNodes (Traced.ofExcept_eq_ok.1 ht)
    have htone := Sides.hasOneRelation_iff.2 (not_lt.1 hcount)
    obtain ⟨s, hs, hone, hpass⟩ := Sides.exists_of_withFractions hfractions htone
    refine ⟨s, t, hs, hone, htone, hpass, hfractions, hstep, ?_⟩
    rw [if_neg hcount, hstages₂, Traced.stages_ofExcept, List.nil_append]

/-- A step that rewrites an equation consists of passes. -/
theorem Sequence.passes_of_step {nodes next : List Node}
    (h : (Sequence.step solve options name nodes).outcome = .ok (.rewritten next)) :
    ∃ s t : Sides, nodes = s.toNodes ∧ s.HasOneRelation ∧ s.Passes t ∧ next = t.toNodes := by
  obtain ⟨s, fractions, hs, hone, -, hpass, -, h, -⟩ := Sequence.exists_sides_of_step h
  obtain ⟨solution, -, heq, -⟩ | ⟨product, solution, -, -, -, heq, -⟩ | ⟨h, -⟩ :=
    Sides.step_cases h
  · cases heq
  · cases heq
  · obtain ⟨t, ht, heq | ⟨value, -, heq⟩⟩ :=
      (Sides.ensures_passes_rewritten fractions options name).outcome _ h
    · exact ⟨s, t, hs, hone, ht.head hpass, Step.rewritten.inj heq⟩
    · cases heq

end OneUnknown
