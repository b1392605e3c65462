import OneUnknown.Equation.ZeroProduct
import OneUnknown.Proofs.Problem
import OneUnknown.Proofs.Variables
/-!
# Products that are zero

A product is zero exactly where one of its factors is, and a factor exactly where its content is.
The factors without the unknown are not looked at when a product is taken apart, although one of
them may be worth zero.

* `Sides.holdsAt_zeroProduct`: the equation says that the product is zero;
* `factorSides_spec`: the equation of a factor says that the factor is zero;
* `Sides.dropsZeroFactor`: whether a product is taken apart although it is zero everywhere;
* `Sides.holdsAt_iff_factors`: otherwise, the solutions are those of the factors.
-/

namespace OneUnknown

section

variable (point : Char → Rat) {x : Char}

/-! ## The sides -/

theorem isZeroSide_eq_true {side : List Node} (h : isZeroSide side = .ok true) :
    Sequence.hasVariable side = false ∧ Sequence.evaluate side = .ok 0 := by
  rw [isZeroSide] at h
  split at h
  · cases h
  · rename_i hvariable
    obtain ⟨value, hvalue, h⟩ := Except.bind_eq_ok.1 h
    obtain rfl : value = 0 := by simpa using Except.pure_eq_ok.1 h
    exact ⟨by simpa using hvariable, hvalue⟩

/-- The product is one side, and the other side is worth zero. -/
theorem Sides.zeroProduct?_eq_some {s : Sides} {product : List Node}
    (h : s.zeroProduct? = .ok (some product)) :
    s.relation = .equal ∧ ∃ other, Sequence.hasVariable other = false ∧
      Sequence.evaluate other = .ok 0 ∧
      ((product = s.left ∧ other = s.right) ∨ (product = s.right ∧ other = s.left)) := by
  rw [Sides.zeroProduct?] at h
  split at h
  · cases h
  · rename_i hequal
    refine ⟨by simpa using hequal, ?_⟩
    obtain ⟨rightZero, hright, h⟩ := Except.bind_eq_ok.1 h
    split at h
    · rename_i hzero
      obtain ⟨hvariable, hvalue⟩ := isZeroSide_eq_true (hzero ▸ hright)
      obtain rfl := Option.some.inj (Except.pure_eq_ok.1 h)
      exact ⟨s.right, hvariable, hvalue, .inl ⟨rfl, rfl⟩⟩
    · obtain ⟨leftZero, hleft, h⟩ := Except.bind_eq_ok.1 h
      split at h
      · rename_i hzero
        obtain ⟨hvariable, hvalue⟩ := isZeroSide_eq_true (hzero ▸ hleft)
        obtain rfl := Option.some.inj (Except.pure_eq_ok.1 h)
        exact ⟨s.left, hvariable, hvalue, .inr ⟨rfl, rfl⟩⟩
      · cases Except.pure_eq_ok.1 h

theorem Sides.isPlain_zeroProduct {s : Sides} {product : List Node} (hs : s.IsPlain x false)
    (h : s.zeroProduct? = .ok (some product)) : Sequence.IsPlain x false product := by
  obtain ⟨-, other, -, -, ⟨rfl, rfl⟩ | ⟨rfl, rfl⟩⟩ := Sides.zeroProduct?_eq_some h
  · exact hs.1
  · exact hs.2

/-- The equation holds where the product is zero. -/
theorem Sides.holdsAt_zeroProduct {s : Sides} {product : List Node}
    (h : s.zeroProduct? = .ok (some product)) (hs : s.DefinedAt point) :
    ∃ value, Sequence.valueAt point product = some value ∧ (s.HoldsAt point ↔ value = 0) := by
  obtain ⟨hequal, other, -, hother, hcases⟩ := Sides.zeroProduct?_eq_some h
  have hzero := Sequence.valueAt_of_evaluate point hother
  obtain ⟨left, right, hleft, hright⟩ := hs
  have hholds : s.HoldsAt point ↔ left = right := by
    simp [Sides.HoldsAt, hleft, hright, hequal, Relation.holds]
  rw [hholds]
  obtain ⟨rfl, rfl⟩ | ⟨rfl, rfl⟩ := hcases
  · obtain rfl : right = 0 := by simpa [hright] using hzero
    exact ⟨left, hleft, Iff.rfl⟩
  · obtain rfl : left = 0 := by simpa [hleft] using hzero
    exact ⟨right, hright, eq_comm⟩

/-! ## The factors -/

theorem operator_of_isFactorable {product : List Node} (h : isFactorable product = true)
    {op : Operator} (hop : .operator op ∈ product) : op = .multiply := by
  simp only [isFactorable, Bool.and_eq_true] at h
  obtain ⟨i, hi⟩ := List.mem_iff_getElem?.1 hop
  have hmem : (op, i) ∈ (Positions.ofNodes product).operators :=
    List.mem_filterMap.2 ⟨(.operator op, i), List.mk_mem_zipIdx_iff_getElem?.2 hi, rfl⟩
  simpa using List.all_eq_true.1 h.1.1.1 _ hmem

theorem isProduct_of_isFactorable {product : List Node} (h : isFactorable product = true) :
    Sequence.IsProduct product := fun op hop => by
  rw [operator_of_isFactorable h hop]
  rfl

/-- A product has a value if its factors have, and is zero where one of them is. -/
theorem Sequence.productAt_eq_zero_iff {parts : List (List Node)} {value : Rat}
    (h : Sequence.productAt point parts = some value) :
    (∀ part ∈ parts, ∃ v, Sequence.valueAt point part = some v) ∧
      (value = 0 ↔ ∃ part ∈ parts, Sequence.valueAt point part = some 0) := by
  induction parts generalizing value with
  | nil =>
    obtain rfl : 1 = value := by simpa [Sequence.productAt] using h
    simp
  | cons first rest ih =>
    obtain ⟨v, w, hv, hw, rfl⟩ := (Sequence.productAt_cons_eq_some point).1 h
    obtain ⟨hdefined, hzero⟩ := ih hw
    constructor
    · intro part hpart
      rcases List.mem_cons.1 hpart with rfl | hpart
      · exact ⟨v, hv⟩
      · exact hdefined part hpart
    · simp [hv, hzero]

/-- A factor with a value is one term. -/
theorem eq_singleton_of_mem_factors {product factor : List Node}
    (hfactorable : isFactorable product = true) (hfactor : factor ∈ Sequence.factors product)
    {value : Rat} (hvalue : Sequence.valueAt point factor = some value) :
    ∃ node, factor = [node] := by
  have hoperator {op : Operator} (hop : .operator op ∈ factor) : False := by
    obtain ⟨hmem, hne⟩ := Sequence.mem_of_mem_splitOnP _ hfactor hop
    rw [operator_of_isFactorable hfactorable hmem] at hne
    cases hne
  cases factor with
  | nil => simp [Sequence.valueAt] at hvalue
  | cons node rest =>
    cases rest with
    | nil => exact ⟨node, rfl⟩
    | cons second rest =>
      cases second with
      | operator op => exact (hoperator (.tail _ (.head _))).elim
      | _ => simp [Sequence.valueAt, Sequence.valueAfter] at hvalue

/-- What has to be zero for a factor to be zero. -/
def factorContent : List Node → List Node
  | [.paren b _ _] => b
  | other => other

/-- The equation of a factor, as two sides. -/
def factorSides (factor : List Node) : Sides :=
  ⟨factorContent factor, .equal, [Node.constant 0]⟩

/-- The equation of a factor says that the factor is zero. -/
theorem factorSides_spec {node : Node} (hplain : node.IsPlain x false) :
    (factorSides [node]).IsPlain x false ∧
      (factorSides [node]).hasVariable = node.hasVariable ∧
      ∀ point v, node.valueAt point = some v → (factorSides [node]).DefinedAt point ∧
        ((factorSides [node]).HoldsAt point ↔ v = 0) := by
  have hconstant := Sequence.isPlain_constant x false 0
  have hholds {content : List Node} {c : Rat} {point : Char → Rat}
      (hc : Sequence.valueAt point content = some c) :
      (Sides.mk content .equal [Node.constant 0]).DefinedAt point ∧
        ((Sides.mk content .equal [Node.constant 0]).HoldsAt point ↔ c = 0) := by
    refine ⟨⟨c, 0, hc, by simp⟩, ?_⟩
    simp [Sides.HoldsAt, hc, Relation.holds]
  have hself (hcontent : factorContent [node] = [node]) :
      (factorSides [node]).IsPlain x false ∧
        (factorSides [node]).hasVariable = node.hasVariable ∧
        ∀ point v, node.valueAt point = some v → (factorSides [node]).DefinedAt point ∧
          ((factorSides [node]).HoldsAt point ↔ v = 0) := by
    rw [factorSides, hcontent]
    refine ⟨⟨⟨hplain, trivial⟩, hconstant⟩, ?_, fun point v hv =>
      hholds ((Sequence.valueAt_singleton point node).trans hv)⟩
    rw [Sides.hasVariable, Sequence.hasVariable_singleton, Sequence.hasVariable_singleton,
      Node.hasVariable_constant, Bool.or_false]
  cases node with
  | paren b p negative =>
    obtain ⟨hb, exponent, hp⟩ := hplain
    refine ⟨⟨hb, hconstant⟩, ?_, fun point v hv => ?_⟩
    · rw [Node.hasVariable_paren, hp.hasVariable, Bool.or_false]
      exact (congrArg _ (Sequence.hasVariable_singleton _)).trans (Bool.or_false _)
    · rw [Node.valueAt_paren point hp] at hv
      obtain ⟨content, hcontent, rfl⟩ := Option.map_eq_some_iff.1 hv
      obtain ⟨hdefined, hzero⟩ := hholds hcontent
      refine ⟨hdefined, hzero.trans ?_⟩
      cases negative <;> simp [hp.pos.ne']
  | group letter n p => exact hself rfl
  | fraction t b => exact hself rfl
  | operator op => exact hself rfl
  | relation r => exact hself rfl

/-! ## Factors that are dropped -/

/-- Whether a product is taken apart although a factor without the unknown is worth zero. -/
def Sides.dropsZeroFactor (s : Sides) : Bool :=
  match s.zeroProduct? with
  | .ok (some product) =>
    isFactorable product && (Sequence.factors product).any fun factor =>
      !Sequence.hasVariable factor && Sequence.valueAt (everywhere 0) factor == some 0
  | _ => false

theorem Sides.dropsZeroFactor_iff {s : Sides} {product : List Node}
    (hproduct : s.zeroProduct? = .ok (some product)) (hfactorable : isFactorable product = true) :
    s.dropsZeroFactor = true ↔ ∃ factor ∈ Sequence.factors product,
      Sequence.hasVariable factor = false ∧ Sequence.valueAt point factor = some 0 := by
  simp only [Sides.dropsZeroFactor, hproduct, hfactorable, Bool.true_and, List.any_eq_true,
    Bool.and_eq_true, Bool.not_eq_true', beq_iff_eq]
  refine exists_congr fun factor => and_congr_right fun _ => and_congr_right fun hvariable => ?_
  rw [Sequence.valueAt_congr hvariable]

/-- An equation whose zero factor is dropped holds everywhere. -/
theorem Sides.holdsAt_of_dropsZeroFactor {s : Sides} (h : s.dropsZeroFactor = true)
    (hs : s.DefinedAt point) : s.relation = .equal ∧ s.HoldsAt point := by
  unfold Sides.dropsZeroFactor at h
  split at h
  · rename_i product hproduct
    rw [Bool.and_eq_true] at h
    have hdrops := (Sides.dropsZeroFactor_iff point hproduct h.1).1 (by
      simpa [Sides.dropsZeroFactor, hproduct] using h)
    obtain ⟨factor, hfactor, -, hzero⟩ := hdrops
    obtain ⟨value, hvalue, hholds⟩ := Sides.holdsAt_zeroProduct point hproduct hs
    refine ⟨(Sides.zeroProduct?_eq_some hproduct).1, hholds.2 ?_⟩
    exact (Sequence.productAt_eq_zero_iff point (Sequence.productAt_factors point
      (isProduct_of_isFactorable h.1) hvalue)).2.2 ⟨factor, hfactor, hzero⟩
  · cases h

/-- The factors with the unknown of a product that is taken apart. -/
theorem factor_spec {s : Sides} {product factor : List Node} (hs : s.IsPlain x false)
    (hdefined : s.DefinedAt point) (hproduct : s.zeroProduct? = .ok (some product))
    (hfactorable : isFactorable product = true) (hfactor : factor ∈ Sequence.factors product) :
    (factorSides factor).IsPlain x false ∧
      (factorSides factor).hasVariable = Sequence.hasVariable factor ∧
      (factorSides factor).DefinedAt point ∧
      ((factorSides factor).HoldsAt point ↔ Sequence.valueAt point factor = some 0) := by
  obtain ⟨value, hvalue, -⟩ := Sides.holdsAt_zeroProduct point hproduct hdefined
  obtain ⟨hfactors, -⟩ := Sequence.productAt_eq_zero_iff point
    (Sequence.productAt_factors point (isProduct_of_isFactorable hfactorable) hvalue)
  obtain ⟨v, hv⟩ := hfactors factor hfactor
  obtain ⟨node, rfl⟩ := eq_singleton_of_mem_factors point hfactorable hfactor hv
  have hplain := Sequence.isPlain_iff.1 (Sides.isPlain_zeroProduct hs hproduct) node
    (Sequence.mem_of_mem_splitOnP _ hfactor (.head _)).1
  obtain ⟨hsides, hvariable, hvalues⟩ := factorSides_spec hplain
  rw [Sequence.valueAt_singleton] at hv
  obtain ⟨hdefined, hholds⟩ := hvalues point v hv
  refine ⟨hsides, hvariable.trans (Sequence.hasVariable_singleton node).symm, hdefined, ?_⟩
  rw [hholds, Sequence.valueAt_singleton, hv, Option.some.injEq]

/-- The solutions of a product that is taken apart are those of the factors with the unknown,
unless a factor without it is worth zero. -/
theorem Sides.holdsAt_iff_factors {s : Sides} {product : List Node} (hs : s.IsPlain x false)
    (hdefined : s.DefinedAt point) (hproduct : s.zeroProduct? = .ok (some product))
    (hfactorable : isFactorable product = true) :
    s.HoldsAt point ↔ s.dropsZeroFactor = true ∨ ∃ factor ∈ Sequence.factors product,
      Sequence.hasVariable factor = true ∧ (factorSides factor).HoldsAt point := by
  obtain ⟨value, hvalue, hholds⟩ := Sides.holdsAt_zeroProduct point hproduct hdefined
  rw [hholds, (Sequence.productAt_eq_zero_iff point (Sequence.productAt_factors point
    (isProduct_of_isFactorable hfactorable) hvalue)).2,
    Sides.dropsZeroFactor_iff point hproduct hfactorable, ← exists_or]
  refine exists_congr fun factor => ?_
  rw [← and_or_left]
  refine and_congr_right fun hfactor => ?_
  obtain ⟨-, -, -, hzero⟩ := factor_spec point hs hdefined hproduct hfactorable hfactor
  rw [hzero, ← or_and_right]
  cases Sequence.hasVariable factor <;> simp

end

end OneUnknown
