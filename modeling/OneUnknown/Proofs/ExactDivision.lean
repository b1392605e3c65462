import OneUnknown.Proofs.CleanForm
import OneUnknown.Proofs.Conversion
/-!
# Dividing a clean sequence

Wherever a clean sequence without divisions has a value, dividing it by a number divides this value,
unless a zero has lost the minus sign of a power.

* `Node.onlyAddsAndMultiplies_reached`: the operators of a clean node without divisions;
* `Sequence.valueAt_dividedBy_of_cleaned`: the quotient of a clean sequence;
* `Sequence.dividedBy_loses_sign`: what becomes of a lost sign.
-/

namespace OneUnknown

theorem Node.onlyAddsAndMultiplies_reached {node : Node} (hclean : node.IsClean)
    (hundivided : node.IsUndivided []) : Sequence.OnlyAddsAndMultiplies node.reached := by
  induction node using Node.nested_induction with
  | group | relation =>
    intro op hop
    cases List.mem_singleton.1 hop
  | operator op =>
    intro op' hop
    obtain rfl := Node.operator.inj (List.mem_singleton.1 hop)
    have hsubtract : op' ≠ .subtract := hclean
    have hdivide : op' ≠ .divide := hundivided
    cases op' <;> simp_all
  | paren b p negative ihb =>
    intro op hop
    rcases List.mem_cons.1 hop with hop | hop
    · cases hop
    · obtain ⟨node, hnode, hop⟩ := Sequence.mem_reached.1 hop
      exact ihb node hnode (hclean.1.of_mem hnode) (Sequence.isUndivided_iff.1 hundivided node hnode)
        op hop
  | fraction t b iht =>
    intro op hop
    rcases List.mem_cons.1 hop with hop | hop
    · cases hop
    · obtain ⟨node, hnode, hop⟩ := Sequence.mem_reached.1 hop
      have ht := (hundivided.resolve_left List.not_mem_nil).1
      exact iht node hnode (hclean.1.of_mem hnode) (Sequence.isUndivided_iff.1 ht node hnode) op hop

theorem Sequence.IsCleanProblem.onlyAddsAndMultiplies_reached {nodes : List Node}
    (h : Sequence.IsCleanProblem nodes) (hundivided : Sequence.IsUndivided [] nodes) :
    Sequence.OnlyAddsAndMultiplies (Sequence.reached nodes) := by
  intro op hop
  obtain ⟨node, hnode, hop⟩ := Sequence.mem_reached.1 hop
  rcases h.1 node hnode with hrelation | hclean
  · cases node <;> simp_all [Node.isRelation, Node.reached]
  · exact Node.onlyAddsAndMultiplies_reached hclean
      (Sequence.isUndivided_iff.1 hundivided node hnode) op hop

/-- Wherever a clean sequence without divisions outside of its exponents has a value, its quotient by
any number is worth the quotient of this value, if no minus sign is lost: a negative power of a lone
fraction has its sign put into a numerator, and none of the numerators in that fraction may have a
summand that begins with a zero whose power is worth one. -/
theorem Sequence.valueAt_dividedBy_of_cleaned {source nodes : List Node} {divisor value : Rat}
    {point : Char → Rat} (hcleaned : Sequence.cleaned source = .ok nodes)
    (hundivided : Sequence.IsUndivided [] nodes)
    (hsigns : KeepsSigns point (Sequence.reached nodes))
    (hvalue : Sequence.valueAt point nodes = some value) :
    Sequence.valueAt point (Sequence.dividedBy divisor nodes) = some (value / divisor) := by
  have hoperators :=
    (Sequence.isCleanProblem_of_cleaned hcleaned).onlyAddsAndMultiplies_reached hundivided
  rw [Sequence.valueAt_dividedBy_of_signs point ⟨hoperators, hsigns⟩ hvalue, div_eq_inv_mul]

/-- Where `x` is two, `-((0 ^ 2 + 3x) / 5) ^ 3 + 7 ^ 2 * (x + 2)` is worth `24284 / 125`, and its
quotient by `-3 / 2` is worth `-48568 / 375`: the zero there stays a zero with either sign. -/
theorem Sequence.valueAt_dividedBy_of_cleaned_powers :
    ∃ nodes, Sequence.cleaned nodes = .ok nodes ∧
      Sequence.valueAt (everywhere 2) nodes = some (24284 / 125) ∧
      Sequence.valueAt (everywhere 2) (Sequence.dividedBy (-3 / 2) nodes) =
        some (24284 / 125 / (-3 / 2)) := by
  let zero : Node := .group none Number.zero [Node.constant 2]
  let top : List Node := [zero, .operator .add, .group (some 'x') (Number.ofNat 3) []]
  let nodes : List Node := [.paren [.fraction top [Node.constant 5]] [Node.constant 3] true,
    .operator .add, .group none (Number.ofNat 7) [Node.constant 2], .operator .multiply,
    .paren [.group (some 'x') (Number.ofNat 1) [], .operator .add, Node.constant 2] [] false]
  have hcleaned : Sequence.cleaned nodes = .ok nodes := by decide +kernel
  have hvalue : Sequence.valueAt (everywhere 2) nodes = some (24284 / 125) := by decide +kernel
  have hzero : zero.valueAt (everywhere 2) = some 0 := by decide +kernel
  have hundivided : Sequence.IsUndivided [] nodes := by
    simp [nodes, top, zero, Sequence.IsUndivided, Node.IsUndivided, Node.constant, Group.toNode]
  have hsigns : KeepsSigns (everywhere 2) (Sequence.reached nodes) := by
    intro t b p _ hmem _ _ t' b' hfraction
    obtain ⟨⟨rfl, rfl⟩, -⟩ : (t = top ∧ b = [Node.constant 5]) ∧ p = [Node.constant 3] := by
      simpa [nodes, top, zero, Sequence.reached, Node.reached, Node.constant, Group.toNode]
        using hmem
    obtain ⟨rfl, -⟩ : t' = top ∧ b' = [Node.constant 5] := by
      simpa [top, zero, Sequence.reached, Node.reached] using hfraction
    have hkeeps : zero.KeepsSign (everywhere 2) := fun _ _ v hv =>
      Option.some.inj (hv.symm.trans hzero)
    exact ⟨fun _ => hkeeps, fun _ => trivial, trivial⟩
  exact ⟨nodes, hcleaned, hvalue,
    Sequence.valueAt_dividedBy_of_cleaned hcleaned hundivided hsigns hvalue⟩

/-- A lost sign: `-(((0 ^ 0 + 1) / 1 * 3) / 1) ^ 2` is worth `-36`, but its quotient by `3` is zero,
and not `-12`.  The quotient has `((-0 ^ 0 - 1) / 1 * 1) / 1` as its first factor. -/
theorem Sequence.dividedBy_loses_sign :
    ∃ nodes, Sequence.cleaned nodes = .ok nodes ∧ Sequence.IsUndivided [] nodes ∧
      Sequence.evaluate nodes = .ok (-36) ∧ Sequence.evaluate (Sequence.dividedBy 3 nodes) = .ok 0 ∧
      ∀ point, Sequence.valueAt point nodes = some (-36) ∧
        Sequence.valueAt point (Sequence.dividedBy 3 nodes) ≠ some (-36 / 3) := by
  let sum : List Node := [.group none Number.zero [Node.constant 0], .operator .add, Node.constant 1]
  let top : List Node := [.fraction sum [Node.constant 1], .operator .multiply, Node.constant 3]
  let nodes : List Node := [.paren [.fraction top [Node.constant 1]] [Node.constant 2] true]
  have hvalue : Sequence.evaluate nodes = .ok (-36) := by decide +kernel
  have hquotient : Sequence.evaluate (Sequence.dividedBy 3 nodes) = .ok 0 := by decide +kernel
  refine ⟨nodes, by decide +kernel, ?_, hvalue, hquotient, fun point =>
    ⟨Sequence.valueAt_of_evaluate point hvalue, ?_⟩⟩
  · simp [nodes, top, sum, Sequence.IsUndivided, Node.IsUndivided, Node.constant, Group.toNode]
  · rw [Sequence.valueAt_of_evaluate point hquotient]
    decide +kernel

end OneUnknown
