import OneUnknown.Proofs.CleanForm
/-!
# Clean at every depth

A sequence holds others inside of its nodes: powers, contents of parentheses and the halves of
fractions, and so on further down.  Cleaning is about all of them.  It fails only for a relation
inside of a node, as long as no denominator is a written zero, and what it gives has neither
differences nor terms side by side at any depth, so that cleaning again changes nothing.

* `Node.Within`, `Sequence.AtEveryDepth`: a property of all the sequences inside of a node, and of a
  sequence and all inside of it;
* `Node.IsClean.within`: what clean sequences have in common holds inside of clean nodes;
* `SucceedsIff`: when a computation succeeds, if all that it can fail for is a relation;
* `Sequence.succeedsIff_cleanedFrom`, `Node.succeedsIff_cleaned`: when sequences and terms can be
  cleaned;
* `Sequence.cleaned_reaches_normal_form`: the result.
-/

namespace OneUnknown

/-! ## Every depth -/

mutual
/-- Every sequence inside of a node has a property. -/
def Node.Within (P : List Node → Prop) : Node → Prop
  | .group _ _ p => P p ∧ Sequence.Within P p
  | .paren b p _ => (P b ∧ Sequence.Within P b) ∧ P p ∧ Sequence.Within P p
  | .fraction t b => (P t ∧ Sequence.Within P t) ∧ P b ∧ Sequence.Within P b
  | .operator _ | .relation _ => True

/-- Every sequence inside of the nodes of a sequence has a property. -/
def Sequence.Within (P : List Node → Prop) : List Node → Prop
  | [] => True
  | n :: ns => n.Within P ∧ Sequence.Within P ns
end

/-- A sequence has a property, and so has every sequence inside of it. -/
def Sequence.AtEveryDepth (P : List Node → Prop) (nodes : List Node) : Prop :=
  P nodes ∧ Sequence.Within P nodes

section

variable {P : List Node → Prop} {nodes : List Node}

theorem Sequence.within_iff : Sequence.Within P nodes ↔ ∀ node ∈ nodes, node.Within P := by
  induction nodes with
  | nil => simp [Sequence.Within]
  | cons node rest ih => simp [Sequence.Within, ih]

theorem Sequence.AtEveryDepth.of_mem (h : Sequence.AtEveryDepth P nodes) {node : Node}
    (hnode : node ∈ nodes) : node.Within P :=
  Sequence.within_iff.1 h.2 node hnode

/-- What clean sequences have in common holds inside of clean nodes. -/
theorem Node.IsClean.within (hP : ∀ part, Sequence.IsClean part → P part) {node : Node}
    (h : node.IsClean) : node.Within P := by
  have hpart {part : List Node} (ih : ∀ n ∈ part, n.IsClean → n.Within P)
      (hclean : Sequence.IsClean part) : Sequence.AtEveryDepth P part :=
    ⟨hP part hclean, Sequence.within_iff.2 fun n hn => ih n hn (hclean.of_mem hn)⟩
  induction node using Node.nested_induction with
  | group letter n p ihp => exact hpart ihp h
  | paren b p negative ihb ihp => exact ⟨hpart ihb h.1, hpart ihp h.2⟩
  | fraction t b iht ihb => exact ⟨hpart iht h.1, hpart ihb h.2.1⟩
  | operator | relation => trivial

/-- What clean sequences have in common holds inside of what cleaning gives. -/
theorem Sequence.IsCleanProblem.within (hP : ∀ part, Sequence.IsClean part → P part)
    (h : Sequence.IsCleanProblem nodes) : Sequence.Within P nodes := by
  refine Sequence.within_iff.2 fun node hnode => ?_
  rcases h.1 node hnode with hrelation | hclean
  · cases node <;> trivial
  · exact hclean.within hP

end

/-! ## Relations and fractions -/

/-- No relation stands in the sequence. -/
def Sequence.HasNoRelation (nodes : List Node) : Prop := ∀ node ∈ nodes, node.isRelation = false

/-- No denominator in the sequence is a written zero. -/
def Sequence.HasBuiltFractions (nodes : List Node) : Prop :=
  ∀ t b, .fraction t b ∈ nodes → (Node.fraction? t b).isSome = true

theorem Sequence.IsClean.hasNoRelation {nodes : List Node} (h : Sequence.IsClean nodes) :
    Sequence.HasNoRelation nodes := by
  intro node hnode
  cases node with
  | relation r => exact (h.of_mem hnode).elim
  | _ => rfl

/-- A sequence that is cleaned to a lone term was a lone term. -/
theorem OperatorsWritten.eq_singleton {nested negate : Bool} {nodes : List Node} {node : Node}
    (hterm : node.isTerm = true) (h : OperatorsWritten nested false negate nodes [node]) :
    ∃ first term, nodes = [first] ∧ first.cleaned = .ok term ∧
      node = if negate then term.negated else term := by
  generalize hout : [node] = out at h
  cases h with
  | nil => cases hout
  | relation | subtract | operator =>
    cases hout
    cases hterm
  | term _ hclean tail =>
    obtain ⟨rfl, rfl⟩ := List.cons.inj hout
    cases tail with
    | nil => exact ⟨_, _, rfl, hclean, rfl⟩

theorem Sequence.eq_nil_of_cleanedFrom {nested negate : Bool} {nodes : List Node}
    (h : Sequence.cleanedFrom nested false negate nodes = .ok []) : nodes = [] := by
  cases OperatorsWritten.of_cleanedFrom h
  rfl

/-- A term that is cleaned to a group is that group, but for its power. -/
theorem Node.eq_group_of_cleaned {node : Node} {v : Option Char} {n : Number} {p : List Node}
    (h : node.cleaned = .ok (.group v n p)) :
    ∃ p', node = .group v n p' ∧ Sequence.cleanedFrom true false false p' = .ok p := by
  cases node with
  | group v' n' p' =>
    obtain ⟨power, hpower, heq⟩ := Node.cleaned_group_eq_ok.1 h
    obtain ⟨rfl, rfl, rfl⟩ := Node.group.inj heq
    exact ⟨p', rfl, hpower⟩
  | paren b p negative =>
    obtain ⟨_, _, -, -, heq⟩ := Node.cleaned_paren_eq_ok.1 h
    cases heq
  | fraction t b =>
    obtain ⟨_, _, -, -, -, heq⟩ := Node.cleaned_fraction_eq_ok.1 h
    cases heq
  | operator | relation => cases h

/-- A denominator that is no written zero does not become one. -/
theorem Node.fraction?_isSome_of_cleaned {t t' b b' : List Node}
    (hb : Sequence.cleanedFrom true false false b = .ok b')
    (h : (Node.fraction? t b).isSome = true) : (Node.fraction? t' b').isSome = true := by
  unfold Node.fraction?
  split
  · rename_i v n p
    obtain ⟨node, term, rfl, hclean, rfl⟩ := (OperatorsWritten.of_cleanedFrom hb).eq_singleton rfl
    obtain ⟨p', rfl, hp⟩ := Node.eq_group_of_cleaned hclean
    have hplaceholder : ¬ Group.isPlaceholder ⟨v, n, p⟩ = true := by
      intro hzero
      obtain ⟨rfl, rfl, hn⟩ : v = none ∧ p = [] ∧ n.isZero = true := by
        simpa [Group.isPlaceholder] using hzero
      obtain rfl := Sequence.eq_nil_of_cleanedFrom hp
      simp [Node.fraction?, Group.isPlaceholder, hn] at h
    rw [if_neg hplaceholder]
    rfl
  · rfl

/-! ## What can be cleaned -/

/-- A computation that succeeds under a condition, and otherwise refuses a relation inside of a
node. -/
def SucceedsIff {α : Type} (P : Prop) : Except SolveError α → Prop
  | .ok _ => P
  | .error reason => ¬ P ∧ reason = .relationInGroup

namespace SucceedsIff

variable {α β : Type} {P Q : Prop} {x : Except SolveError α} {next : α → Except SolveError β}

theorem congr (h : SucceedsIff P x) (hPQ : P ↔ Q) : SucceedsIff Q x := by
  cases x with
  | ok value => exact hPQ.1 h
  | error reason => exact ⟨mt hPQ.2 h.1, h.2⟩

theorem bind (h : SucceedsIff P x) (hnext : ∀ value, x = .ok value → SucceedsIff Q (next value)) :
    SucceedsIff (P ∧ Q) (x >>= next) := by
  cases x with
  | ok value => exact (hnext value rfl).congr ⟨fun hQ => ⟨h, hQ⟩, And.right⟩
  | error reason => exact ⟨fun hPQ => h.1 hPQ.1, h.2⟩

/-- What is made of a result changes nothing. -/
theorem map (h : SucceedsIff P x) (f : α → β) : SucceedsIff P (do return f (← x)) := by
  cases x <;> exact h

theorem eq_error_iff (h : SucceedsIff P x) (reason : SolveError) :
    x = .error reason ↔ reason = .relationInGroup ∧ ¬ P := by
  cases x with
  | ok value => simp [show P from h]
  | error reason' =>
    obtain ⟨hP, rfl⟩ := h
    simp [hP, eq_comm]

end SucceedsIff

/-- A sequence can be cleaned if its terms can, and if no relation stands in it where it is inside
of a node. -/
theorem Sequence.succeedsIff_cleanedFrom {nested afterTerm negate : Bool} {nodes : List Node}
    (hterms : ∀ node ∈ nodes, node.isTerm = true →
      SucceedsIff (node.Within Sequence.HasNoRelation) node.cleaned) :
    SucceedsIff ((nested = true → Sequence.HasNoRelation nodes) ∧
        Sequence.Within Sequence.HasNoRelation nodes)
      (Sequence.cleanedFrom nested afterTerm negate nodes) := by
  induction nodes generalizing afterTerm negate with
  | nil =>
    rw [Sequence.cleanedFrom]
    exact ⟨by simp [Sequence.HasNoRelation], trivial⟩
  | cons node rest ih =>
    replace ih {afterTerm negate : Bool} :=
      @ih afterTerm negate fun n hn => hterms n (.tail _ hn)
    by_cases hterm : node.isTerm = true
    · have hnode := hterms node (.head _) hterm
      have hrelation : node.isRelation = false := by cases node <;> trivial
      rw [Sequence.cleanedFrom_term _ _ _ hterm]
      refine (hnode.bind fun _ _ => ih.map _).congr ?_
      simp only [Sequence.HasNoRelation, Sequence.Within, List.forall_mem_cons, hrelation]
      tauto
    · cases node with
      | operator op =>
        rw [Sequence.cleanedFrom_operator]
        refine (ih.map _).congr ?_
        simp [Sequence.HasNoRelation, Sequence.Within, Node.Within, Node.isRelation]
      | relation r =>
        rw [Sequence.cleanedFrom]
        cases nested with
        | true => exact ⟨fun h => (by cases h.1 rfl _ (.head _)), rfl⟩
        | false =>
          refine (ih.map _).congr ?_
          simp [Sequence.Within, Node.Within]
      | _ => exact absurd rfl hterm

/-- A term can be cleaned if no relation stands inside of it. -/
theorem Node.succeedsIff_cleaned {node : Node} (hterm : node.isTerm = true)
    (hbuilt : ∀ t b, node = .fraction t b → (Node.fraction? t b).isSome = true)
    (hinside : node.Within Sequence.HasBuiltFractions) :
    SucceedsIff (node.Within Sequence.HasNoRelation) node.cleaned := by
  -- A sequence inside of the node, given what is known of its terms.
  have hpart {part : List Node} (hpart : Sequence.AtEveryDepth Sequence.HasBuiltFractions part)
      (ih : ∀ n ∈ part, n.isTerm = true →
        (∀ t b, n = .fraction t b → (Node.fraction? t b).isSome = true) →
        n.Within Sequence.HasBuiltFractions →
        SucceedsIff (n.Within Sequence.HasNoRelation) n.cleaned) :
      SucceedsIff (Sequence.AtEveryDepth Sequence.HasNoRelation part)
        (Sequence.cleanedFrom true false false part) := by
    refine (Sequence.succeedsIff_cleanedFrom fun n hn hterm => ?_).congr (and_congr (by simp) .rfl)
    exact ih n hn hterm (fun t b heq => hpart.1 t b (heq ▸ hn)) (hpart.of_mem hn)
  induction node using Node.nested_induction with
  | group v n p ihp => exact (hpart hinside ihp).map _
  | paren b p negative ihb ihp =>
    exact (hpart hinside.1 ihb).bind fun _ _ => (hpart hinside.2 ihp).map _
  | fraction t b iht ihb =>
    refine ((hpart hinside.1 iht).bind fun top _ =>
      ((hpart hinside.2 ihb).bind (Q := True) fun bottom hbottom => ?_)).congr
        (by simp [Node.Within, Sequence.AtEveryDepth])
    have hsome : (Node.fraction? top bottom).isSome = true :=
      Node.fraction?_isSome_of_cleaned hbottom (hbuilt t b rfl)
    obtain ⟨quotient, hquotient⟩ := Option.isSome_iff_exists.1 hsome
    rw [hquotient]
    trivial
  | operator | relation => cases hterm

/-! ## The normal form -/

/-- What cleaning gives has neither differences nor terms side by side at any depth, and no relation
inside of a node, and cleaning again leaves it as it is.  If no denominator is a written zero,
cleaning fails if and only if a relation stands inside of a node, and for that reason. -/
theorem Sequence.cleaned_reaches_normal_form (nodes : List Node) :
    (∀ out, Sequence.cleaned nodes = .ok out →
      Sequence.AtEveryDepth (fun part => .operator .subtract ∉ part ∧ Sequence.IsSpaced part) out ∧
        Sequence.Within Sequence.HasNoRelation out ∧ Sequence.cleaned out = .ok out) ∧
    (Sequence.AtEveryDepth Sequence.HasBuiltFractions nodes → ∀ reason,
      Sequence.cleaned nodes = .error reason ↔
        reason = .relationInGroup ∧ ¬ Sequence.Within Sequence.HasNoRelation nodes) := by
  constructor
  · intro out h
    have hclean := Sequence.isCleanProblem_of_cleaned h
    refine ⟨⟨⟨Sequence.subtract_not_mem hclean.1, hclean.2⟩, hclean.within fun part hpart => ?_⟩,
      hclean.within fun _ => Sequence.IsClean.hasNoRelation, Sequence.cleaned_eq_ok_iff.2 hclean⟩
    exact ⟨Sequence.subtract_not_mem hpart.isCleanProblem.1, (Sequence.isClean_iff.1 hpart).2⟩
  · intro hbuilt reason
    have hnodes : SucceedsIff (Sequence.Within Sequence.HasNoRelation nodes)
        (Sequence.cleaned nodes) := by
      refine (Sequence.succeedsIff_cleanedFrom fun node hnode hterm => ?_).congr (by simp)
      exact Node.succeedsIff_cleaned hterm (fun t b heq => hbuilt.1 t b (heq ▸ hnode))
        (hbuilt.of_mem hnode)
    exact hnodes.eq_error_iff reason

/-- In `-(1 - 2) - 3x/4` every `-` becomes a sign, and a relation in an exponent is refused. -/
theorem Sequence.cleaned_reaches_normal_form_both_sides :
    (Sequence.AtEveryDepth (fun part => .operator .subtract ∉ part ∧ Sequence.IsSpaced part)
        [.paren [Node.constant 1, .operator .add, Node.constant (-2)] [] true, .operator .add,
          .fraction [.group (some 'x') (Number.ofNat 3).negated []] [Node.constant 4]] ∧
      Sequence.cleaned [.paren [Node.constant 1, .operator .subtract, Node.constant 2] [] true,
          .operator .subtract, .fraction [.group (some 'x') (Number.ofNat 3) []]
            [Node.constant 4]] =
        .ok [.paren [Node.constant 1, .operator .add, Node.constant (-2)] [] true, .operator .add,
          .fraction [.group (some 'x') (Number.ofNat 3).negated []] [Node.constant 4]]) ∧
    Sequence.cleaned [.group none (Number.ofNat 2) [.relation .equal]] =
      .error .relationInGroup := by
  have hcleaned : Sequence.cleaned
      [.paren [Node.constant 1, .operator .subtract, Node.constant 2] [] true,
        .operator .subtract,
        .fraction [.group (some 'x') (Number.ofNat 3) []] [Node.constant 4]] =
      .ok [.paren [Node.constant 1, .operator .add, Node.constant (-2)] [] true, .operator .add,
        .fraction [.group (some 'x') (Number.ofNat 3).negated []] [Node.constant 4]] := by
    decide +kernel
  refine ⟨⟨((Sequence.cleaned_reaches_normal_form _).1 _ hcleaned).1, hcleaned⟩, ?_⟩
  refine ((Sequence.cleaned_reaches_normal_form _).2 ?_ _).2 ⟨rfl, ?_⟩
  · simp [Sequence.AtEveryDepth, Sequence.HasBuiltFractions, Sequence.Within, Node.Within]
  · simp [Sequence.HasNoRelation, Sequence.Within, Node.Within, Node.isRelation]

end OneUnknown
