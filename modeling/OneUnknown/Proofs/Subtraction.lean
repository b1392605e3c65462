import OneUnknown.Proofs.Conversion
import OneUnknown.Proofs.Depth
import OneUnknown.Proofs.Negation
/-!
# Subtracting, and adding the other sign

Evaluation subtracts what stands behind a `-`, once its products are worked out.  Cleaning writes a
`+` there, and the first factor behind it with the other sign.  Where no two terms stand side by
side and no zero carries an exponent, both come to the same: a sequence has a value if and only if
it can be cleaned and what cleaning gives has that value.

* `Node.LacksPoweredZero`: terms whose value changes its sign when they are negated;
* `OperatorsWritten.append_operator`, `OperatorsWritten.eq_append_operator`: how a sequence is
  cleaned whose parts an operator joins;
* `ProductHasValue.exists_cleaned`, `ProductHasValue.of_cleaned`: products in the two forms;
* `Node.hasValue_iff_cleaned`, `SumHasValue.iff_cleaned`: terms and sums in the two forms;
* `Sequence.evaluate_iff_cleaned`: the result.
-/

namespace OneUnknown

/-! ## Zeros with an exponent -/

/-- A written zero with an exponent. -/
def Node.isPoweredZero : Node → Bool
  | .group _ n p => n.isZero && !p.isEmpty
  | _ => false

/-- No zero in the sequence carries an exponent. -/
def Sequence.HasNoPoweredZero (nodes : List Node) : Prop :=
  ∀ node ∈ nodes, node.isPoweredZero = false

/-- Neither the node nor anything inside of it is a zero with an exponent. -/
def Node.LacksPoweredZero (node : Node) : Prop :=
  node.isPoweredZero = false ∧ node.Within Sequence.HasNoPoweredZero

theorem Sequence.atEveryDepth_hasNoPoweredZero {nodes : List Node} :
    Sequence.AtEveryDepth Sequence.HasNoPoweredZero nodes ↔
      ∀ node ∈ nodes, node.LacksPoweredZero := by
  rw [Sequence.AtEveryDepth, Sequence.within_iff]
  exact ⟨fun h node hnode => ⟨h.1 node hnode, h.2 node hnode⟩,
    fun h => ⟨fun node hnode => (h node hnode).1, fun node hnode => (h node hnode).2⟩⟩

/-- What holds of the nodes, and of first factors when they are exchanged, holds afterwards. -/
theorem Sequence.forall_mem_mapFirst {P : Node → Prop} {f : Node → Node} {previous : Option Node}
    {nodes : List Node} (h : ∀ node ∈ nodes, P node) (hf : ∀ node ∈ nodes, P node → P (f node)) :
    ∀ node ∈ Sequence.mapFirst f previous nodes, P node := by
  induction nodes generalizing previous with
  | nil => simp [Sequence.mapFirst]
  | cons node rest ih =>
    rw [List.forall_mem_cons] at h hf
    refine List.forall_mem_cons.2 ⟨?_, ih h.2 hf.2⟩
    split
    · exact hf.1 h.1
    · exact h.1

theorem Sequence.mapFirst_eq_self {f : Node → Node} {previous : Option Node} {nodes : List Node}
    (h : ∀ node ∈ nodes, f node = node) : Sequence.mapFirst f previous nodes = nodes := by
  induction nodes generalizing previous with
  | nil => rfl
  | cons node rest ih =>
    rw [List.forall_mem_cons] at h
    rw [Sequence.mapFirst, ih h.2, h.1, ite_self]

namespace Node.LacksPoweredZero

variable {node term : Node}

theorem negated (h : node.LacksPoweredZero) : node.negated.LacksPoweredZero := by
  induction node using Node.nested_induction with
  | fraction t b iht =>
    have htop := Sequence.atEveryDepth_hasNoPoweredZero.1 h.2.1
    refine ⟨rfl, Sequence.atEveryDepth_hasNoPoweredZero.2 ?_, h.2.2⟩
    rw [Sequence.negatedAfter_eq_mapFirst]
    exact Sequence.forall_mem_mapFirst htop iht
  | _ => exact h

/-- Without such zeros there is nothing to turn. -/
theorem zeroTurned_eq (h : node.LacksPoweredZero) : node.zeroTurned = node := by
  induction node using Node.nested_induction with
  | group letter n p =>
    rw [Node.zeroTurned, if_neg]
    rintro ⟨-, hzero, hp⟩
    simpa [Node.isPoweredZero, hzero, hp] using h.1
  | fraction t b iht =>
    have htop := Sequence.atEveryDepth_hasNoPoweredZero.1 h.2.1
    rw [Node.zeroTurned, Sequence.zerosTurnedAfter_eq_mapFirst,
      Sequence.mapFirst_eq_self fun n hn => iht n hn (htop n hn)]
  | _ => rfl

/-- The other sign gives the opposite value. -/
theorem hasValue_negated_iff (h : node.LacksPoweredZero) {v : Rat} :
    node.negated.HasValue (-v) ↔ node.HasValue v := by
  rw [Node.hasValue_negated_iff, h.zeroTurned_eq]

/-- Cleaning brings in no zeros with an exponent. -/
theorem of_cleaned (h : node.LacksPoweredZero) (hclean : node.cleaned = .ok term) :
    term.LacksPoweredZero := by
  have hpart {part out : List Node}
      (ih : ∀ n ∈ part, ∀ {term}, n.LacksPoweredZero → n.cleaned = .ok term →
        term.LacksPoweredZero)
      (hpart : Sequence.AtEveryDepth Sequence.HasNoPoweredZero part)
      (hclean : Sequence.cleanedFrom true false false part = .ok out) :
      Sequence.AtEveryDepth Sequence.HasNoPoweredZero out := by
    rw [Sequence.atEveryDepth_hasNoPoweredZero] at hpart ⊢
    exact fun n hn => (OperatorsWritten.of_cleanedFrom hclean).forall_mem
      (P := Node.LacksPoweredZero) (fun _ _ => ⟨rfl, trivial⟩) (fun _ => negated)
      (fun old hold _ _ => ih old hold (hpart old hold)) n hn (.inl rfl)
  induction node using Node.nested_induction generalizing term with
  | group letter n p ihp =>
    obtain ⟨power, hpower, rfl⟩ := Node.cleaned_group_eq_ok.1 hclean
    refine ⟨?_, hpart ihp h.2 hpower⟩
    by_cases hempty : power = []
    · simp [Node.isPoweredZero, hempty]
    · have hp : p ≠ [] := by
        rintro rfl
        exact hempty (Except.ok.inj hpower).symm
      simpa [Node.isPoweredZero, hp, hempty] using h.1
  | paren b p negative ihb ihp =>
    obtain ⟨body, power, hbody, hpower, rfl⟩ := Node.cleaned_paren_eq_ok.1 hclean
    exact ⟨rfl, hpart ihb h.2.1 hbody, hpart ihp h.2.2 hpower⟩
  | fraction t b iht ihb =>
    obtain ⟨top, bottom, htop, hbottom, -, rfl⟩ := Node.cleaned_fraction_eq_ok.1 hclean
    exact ⟨rfl, hpart iht h.2.1 htop, hpart ihb h.2.2 hbottom⟩
  | operator | relation =>
    obtain rfl := Except.ok.inj hclean
    exact h

end Node.LacksPoweredZero

/-! ## Cleaning the parts of a sequence -/

/-- The last node of a sequence is a term, so a minus sign behind it subtracts. -/
def Sequence.EndsInTerm (nodes : List Node) : Prop := nodes.getLast?.any Node.isTerm = true

theorem Sequence.endsInTerm_cons {node : Node} {rest : List Node} :
    Sequence.EndsInTerm (node :: rest) ↔
      rest = [] ∧ node.isTerm = true ∨ Sequence.EndsInTerm rest := by
  cases rest <;> simp [Sequence.EndsInTerm]

theorem Sequence.EndsInTerm.of_cons {node : Node} {rest : List Node}
    (h : Sequence.EndsInTerm (node :: rest)) (hnode : node.isTerm = false) :
    Sequence.EndsInTerm rest :=
  (Sequence.endsInTerm_cons.1 h).resolve_left fun h => by simp [hnode] at h

theorem Sequence.EndsInTerm.append {left right : List Node} (h : Sequence.EndsInTerm right) :
    Sequence.EndsInTerm (left ++ right) := by
  cases hright : right.getLast? <;> simp_all [Sequence.EndsInTerm]

theorem ProductHasValue.endsInTerm {nodes : List Node} {v : Rat}
    (h : ProductHasValue Node.HasValue nodes v) : Sequence.EndsInTerm nodes := by
  cases h with
  | term hnode => exact hnode.isTerm
  | multiply _ hnode | divide _ hnode =>
    exact .append (Sequence.endsInTerm_cons.2 (.inr hnode.isTerm))

theorem SumHasValue.endsInTerm {nodes : List Node} {v : Rat}
    (h : SumHasValue Node.HasValue nodes v) : Sequence.EndsInTerm nodes := by
  cases h with
  | product hproduct => exact hproduct.endsInTerm
  | add _ hproduct | subtract _ hproduct =>
    exact .append (Sequence.endsInTerm_cons.2 (.inr hproduct.endsInTerm))

/-- Only a sum can have been a difference before. -/
theorem Operator.eq_of_cleaned_eq {op op' : Operator} (h : op.cleaned = op') (hop' : op' ≠ .add) :
    op = op' := by
  cases op with
  | subtract => exact absurd h.symm hop'
  | add | multiply | divide => exact h

namespace OperatorsWritten

variable {nested afterTerm negate : Bool} {nodes left right out left' right' : List Node}
  {op op' : Operator}

theorem cleanedFrom_eq (h : OperatorsWritten nested afterTerm negate nodes out) :
    Sequence.cleanedFrom nested afterTerm negate nodes = .ok out := by
  induction h with
  | nil => rw [Sequence.cleanedFrom]
  | relation hnested _ ih =>
    rw [Sequence.cleanedFrom, hnested, if_neg Bool.false_ne_true]
    exact Except.bind_eq_ok.2 ⟨_, hnested ▸ ih, rfl⟩
  | subtract _ ih => exact Except.bind_eq_ok.2 ⟨_, ih, rfl⟩
  | @operator _ negate op _ _ hop _ ih =>
    rw [Sequence.cleanedFrom_operator, if_neg hop, ih, Operator.cleaned_eq hop]
    rfl
  | term hterm hclean _ ih =>
    rw [Sequence.cleanedFrom_term _ _ _ hterm]
    exact Except.bind_eq_ok.2 ⟨_, hclean, Except.bind_eq_ok.2 ⟨_, ih, rfl⟩⟩

theorem operator_cons {negate : Bool} (tail : OperatorsWritten nested false
    (if op = .subtract then !negate else negate) right out) :
    OperatorsWritten nested afterTerm negate (.operator op :: right)
      (.operator op.cleaned :: out) := by
  cases op with
  | subtract => exact .subtract tail
  | _ => exact .operator (by decide) tail

/-- Behind a term, what an operator joins to it is cleaned on its own. -/
theorem append_operator (h : OperatorsWritten nested afterTerm negate left left')
    (hlast : Sequence.EndsInTerm left)
    (h' : OperatorsWritten nested false (decide (op = .subtract)) right right') :
    OperatorsWritten nested afterTerm negate (left ++ .operator op :: right)
      (left' ++ .operator op.cleaned :: right') := by
  induction h with
  | nil => cases hlast
  | relation hnested _ ih => exact .relation hnested (ih (hlast.of_cons rfl))
  | subtract _ ih => exact .subtract (ih (hlast.of_cons rfl))
  | operator hop _ ih => exact .operator hop (ih (hlast.of_cons rfl))
  | @term afterTerm negate node term rest out hterm hclean tail ih =>
    have hplace : placeTerm afterTerm (if negate then term.negated else term) out ++
        .operator op.cleaned :: right' =
      placeTerm afterTerm (if negate then term.negated else term)
        (out ++ .operator op.cleaned :: right') := by
      cases afterTerm <;> rfl
    rw [hplace]
    refine .term hterm hclean ?_
    rcases Sequence.endsInTerm_cons.1 hlast with ⟨rfl, -⟩ | hrest
    · cases tail
      exact .operator_cons (by cases op <;> exact h')
    · exact ih hrest

/-- Behind a term, an operator was written before if no other term follows. -/
theorem eq_operator_cons (hnext : ∀ node ∈ nodes.head?, node.isTerm = false)
    (h : OperatorsWritten nested afterTerm false nodes (.operator op' :: right')) :
    ∃ op right, nodes = .operator op :: right ∧ op.cleaned = op' ∧
      OperatorsWritten nested false (decide (op = .subtract)) right right' := by
  generalize hout : .operator op' :: right' = out at h
  cases h with
  | nil | relation => cases hout
  | subtract tail =>
    cases hout
    exact ⟨.subtract, _, rfl, rfl, tail⟩
  | operator hop tail =>
    cases hout
    exact ⟨op', _, rfl, Operator.cleaned_eq hop, by simpa [hop] using tail⟩
  | term hterm => simp [hnext _ rfl] at hterm

/-- Where no two terms stand side by side, every operator behind a term was written before. -/
theorem eq_append_operator (hspaced : Sequence.IsSpaced nodes)
    (hafter : afterTerm = true → ∀ node ∈ nodes.head?, node.isTerm = false)
    (h : OperatorsWritten nested afterTerm negate nodes (left' ++ .operator op' :: right'))
    (hlast : Sequence.EndsInTerm left') :
    ∃ left op right, nodes = left ++ .operator op :: right ∧ op.cleaned = op' ∧
      OperatorsWritten nested afterTerm negate left left' ∧
      OperatorsWritten nested false (decide (op = .subtract)) right right' := by
  induction left' generalizing afterTerm negate nodes with
  | nil => cases hlast
  | cons first left' ih =>
    generalize hout : first :: left' ++ .operator op' :: right' = out at h
    cases h with
    | nil => cases hout
    | relation hnested tail =>
      obtain ⟨rfl, rfl⟩ := List.cons.inj hout
      obtain ⟨left, op, right, rfl, hop, hleft, hright⟩ :=
        ih hspaced.tail (by simp) tail (hlast.of_cons rfl)
      exact ⟨_ :: left, op, right, rfl, hop, .relation hnested hleft, hright⟩
    | subtract tail =>
      obtain ⟨rfl, rfl⟩ := List.cons.inj hout
      obtain ⟨left, op, right, rfl, hop, hleft, hright⟩ :=
        ih hspaced.tail (by simp) tail (hlast.of_cons rfl)
      exact ⟨_ :: left, op, right, rfl, hop, .subtract hleft, hright⟩
    | operator hoperator tail =>
      obtain ⟨rfl, rfl⟩ := List.cons.inj hout
      obtain ⟨left, op, right, rfl, hop, hleft, hright⟩ :=
        ih hspaced.tail (by simp) tail (hlast.of_cons rfl)
      exact ⟨_ :: left, op, right, rfl, hop, .operator hoperator hleft, hright⟩
    | @term _ _ node term rest out hterm hclean tail =>
      have hnext := fun next hnext => (List.isChain_cons.1 hspaced).1 next hnext hterm
      obtain rfl : afterTerm = false := by
        by_contra hbehind
        simp [hafter (by simpa using hbehind) node rfl] at hterm
      obtain ⟨rfl, rfl⟩ := List.cons.inj hout
      rcases Sequence.endsInTerm_cons.1 hlast with ⟨rfl, -⟩ | hrest
      · obtain ⟨op, right, rfl, hop, hright⟩ := eq_operator_cons hnext tail
        exact ⟨[node], op, right, rfl, hop, .term hterm hclean (.nil _ _), hright⟩
      · obtain ⟨left, op, right, rfl, hop, hleft, hright⟩ :=
          ih hspaced.tail (fun _ => hnext) tail hrest
        exact ⟨node :: left, op, right, rfl, hop, .term hterm hclean hleft, hright⟩

/-- The last factor of a product was its last factor before, and was not negated. -/
theorem eq_append_factor {factor' : Node} (hspaced : Sequence.IsSpaced nodes)
    (h : OperatorsWritten nested false negate nodes (left' ++ [.operator op', factor']))
    (hop' : op' ≠ .add) (hlast : Sequence.EndsInTerm left') (hterm : factor'.isTerm = true) :
    ∃ left factor, nodes = left ++ [.operator op', factor] ∧
      OperatorsWritten nested false negate left left' ∧ factor.cleaned = .ok factor' := by
  obtain ⟨left, op, right, rfl, hop, hleft, hright⟩ := h.eq_append_operator hspaced (by simp) hlast
  obtain rfl := Operator.eq_of_cleaned_eq hop hop'
  obtain ⟨factor, term, rfl, hclean, rfl⟩ := hright.eq_singleton hterm
  have hkept : op ≠ .subtract := by
    rintro rfl
    cases hop
  exact ⟨left, factor, rfl, hleft, by simpa [hkept] using hclean⟩

end OperatorsWritten

/-! ## The two forms -/

/-- A term has a value if and only if it can be cleaned and what cleaning gives has that value, or
with the other sign the opposite one. -/
def Node.IsKept (node : Node) : Prop :=
  ∀ (negate : Bool) (v : Rat), node.HasValue v ↔ ∃ term, node.cleaned = .ok term ∧
    (if negate then term.negated else term).HasValue (if negate then -v else v)

section

variable {nested negate : Bool} {nodes out : List Node} {v : Rat}

/-- The sign of a product's first factor is that of the product. -/
theorem ProductHasValue.multiply_signed {product : List Node} {node : Node} {l r : Rat}
    (hproduct : ProductHasValue Node.HasValue product (if negate then -l else l))
    (hnode : node.HasValue r) :
    ProductHasValue Node.HasValue (product ++ [.operator .multiply, node])
      (if negate then -(l * r) else l * r) := by
  cases negate with
  | false => exact hproduct.multiply hnode
  | true =>
    rw [if_pos rfl, ← neg_mul]
    exact hproduct.multiply hnode

theorem ProductHasValue.divide_signed {product : List Node} {node : Node} {l r v : Rat}
    (hproduct : ProductHasValue Node.HasValue product (if negate then -l else l))
    (hnode : node.HasValue r) (hv : Rational.divide l r = .ok v) :
    ProductHasValue Node.HasValue (product ++ [.operator .divide, node])
      (if negate then -v else v) := by
  cases negate with
  | false => exact hproduct.divide hnode hv
  | true => exact hproduct.divide hnode (Rational.divide_neg.2 hv)

/-- A product with a value is cleaned to one with that value, or with the opposite one if it is
subtracted. -/
theorem ProductHasValue.exists_cleaned (hnodes : ∀ node ∈ nodes, node.IsKept)
    (h : ProductHasValue Node.HasValue nodes v) :
    ∃ out, OperatorsWritten nested false negate nodes out ∧
      ProductHasValue Node.HasValue out (if negate then -v else v) := by
  induction h with
  | @term node v hnode =>
    obtain ⟨term, hclean, hvalue⟩ := (hnodes node (.head _) negate v).1 hnode
    exact ⟨_, .term hnode.isTerm hclean (.nil _ _), .term hvalue⟩
  | @multiply product node l r hproduct hnode ih =>
    obtain ⟨out, hout, hvalue⟩ := ih fun n hn => hnodes n (List.mem_append_left _ hn)
    obtain ⟨term, hclean, hterm⟩ := (hnodes node (by simp) false r).1 hnode
    exact ⟨_, hout.append_operator hproduct.endsInTerm (.term hnode.isTerm hclean (.nil _ _)),
      hvalue.multiply_signed hterm⟩
  | @divide product node l r v hproduct hnode hv ih =>
    obtain ⟨out, hout, hvalue⟩ := ih fun n hn => hnodes n (List.mem_append_left _ hn)
    obtain ⟨term, hclean, hterm⟩ := (hnodes node (by simp) false r).1 hnode
    exact ⟨_, hout.append_operator hproduct.endsInTerm (.term hnode.isTerm hclean (.nil _ _)),
      hvalue.divide_signed hterm hv⟩

/-- A product that cleaning gives has the value of the one that was cleaned, or the opposite one if
that is subtracted. -/
theorem ProductHasValue.of_cleaned (hspaced : Sequence.IsSpaced nodes)
    (hnodes : ∀ node ∈ nodes, node.IsKept)
    (hclean : OperatorsWritten nested false negate nodes out)
    (h : ProductHasValue Node.HasValue out v) :
    ProductHasValue Node.HasValue nodes (if negate then -v else v) := by
  induction h generalizing nodes with
  | term hnode =>
    obtain ⟨first, term, rfl, hfirst, rfl⟩ := hclean.eq_singleton hnode.isTerm
    refine .term ((hnodes first (.head _) negate _).2 ⟨term, hfirst, ?_⟩)
    cases negate <;> simpa using hnode
  | multiply hproduct hnode ih =>
    obtain ⟨left, first, rfl, hleft, hfirst⟩ :=
      hclean.eq_append_factor hspaced (by decide) hproduct.endsInTerm hnode.isTerm
    have hvalue := (hnodes first (by simp) false _).2 ⟨_, hfirst, hnode⟩
    exact (ih hspaced.left_of_append (fun n hn => hnodes n (List.mem_append_left _ hn))
      hleft).multiply_signed hvalue
  | divide hproduct hnode hv ih =>
    obtain ⟨left, first, rfl, hleft, hfirst⟩ :=
      hclean.eq_append_factor hspaced (by decide) hproduct.endsInTerm hnode.isTerm
    have hvalue := (hnodes first (by simp) false _).2 ⟨_, hfirst, hnode⟩
    exact (ih hspaced.left_of_append (fun n hn => hnodes n (List.mem_append_left _ hn))
      hleft).divide_signed hvalue hv

theorem SumHasValue.exists_cleaned (hnodes : ∀ node ∈ nodes, node.IsKept)
    (h : SumHasValue Node.HasValue nodes v) :
    ∃ out, OperatorsWritten nested false false nodes out ∧ SumHasValue Node.HasValue out v := by
  induction h with
  | product hproduct =>
    obtain ⟨out, hout, hvalue⟩ := hproduct.exists_cleaned hnodes
    exact ⟨out, hout, .product hvalue⟩
  | add hsum hproduct ih =>
    obtain ⟨left, hleft, hvalue⟩ := ih fun n hn => hnodes n (List.mem_append_left _ hn)
    obtain ⟨right, hright, hvalue'⟩ := hproduct.exists_cleaned
      fun n hn => hnodes n (List.mem_append_right _ (.tail _ hn))
    exact ⟨_, hleft.append_operator hsum.endsInTerm hright, .add hvalue hvalue'⟩
  | @subtract sum product l r hsum hproduct ih =>
    obtain ⟨left, hleft, hvalue⟩ := ih fun n hn => hnodes n (List.mem_append_left _ hn)
    obtain ⟨right, hright, hvalue'⟩ := hproduct.exists_cleaned
      fun n hn => hnodes n (List.mem_append_right _ (.tail _ hn))
    refine ⟨_, hleft.append_operator hsum.endsInTerm hright, ?_⟩
    rw [sub_eq_add_neg]
    exact .add hvalue hvalue'

theorem SumHasValue.of_cleaned (hspaced : Sequence.IsSpaced nodes)
    (hnodes : ∀ node ∈ nodes, node.IsKept)
    (hclean : OperatorsWritten nested false false nodes out)
    (h : SumHasValue Node.HasValue out v) : SumHasValue Node.HasValue nodes v := by
  induction h generalizing nodes with
  | product hproduct => exact .product (hproduct.of_cleaned hspaced hnodes hclean)
  | add hsum hproduct ih =>
    obtain ⟨left, op, right, rfl, hop, hleft, hright⟩ :=
      hclean.eq_append_operator hspaced (by simp) hsum.endsInTerm
    have hsum' := ih hspaced.left_of_append (fun n hn => hnodes n (List.mem_append_left _ hn)) hleft
    have hproduct' := hproduct.of_cleaned hspaced.right_of_append.tail
      (fun n hn => hnodes n (List.mem_append_right _ (.tail _ hn))) hright
    cases op with
    | add => exact .add hsum' hproduct'
    | subtract => simpa using SumHasValue.subtract hsum' hproduct'
    | multiply | divide => cases hop
  | subtract hsum _ _ =>
    obtain ⟨_, op, _, _, hop, _, _⟩ :=
      hclean.eq_append_operator hspaced (by simp) hsum.endsInTerm
    cases op <;> cases hop

/-- A sum has a value if and only if it can be cleaned and what cleaning gives has that value. -/
theorem SumHasValue.iff_cleaned (hspaced : Sequence.IsSpaced nodes)
    (hnodes : ∀ node ∈ nodes, node.IsKept) :
    SumHasValue Node.HasValue nodes v ↔
      ∃ out, Sequence.cleanedFrom nested false false nodes = .ok out ∧
        SumHasValue Node.HasValue out v := by
  constructor
  · intro h
    obtain ⟨out, hout, hvalue⟩ := h.exists_cleaned hnodes
    exact ⟨out, hout.cleanedFrom_eq, hvalue⟩
  · rintro ⟨out, hout, hvalue⟩
    exact hvalue.of_cleaned hspaced hnodes (.of_cleanedFrom hout)

end

/-- The other sign changes the value, so it is enough to look at the term with its own. -/
theorem Node.LacksPoweredZero.isKept {node : Node} (hzeros : node.LacksPoweredZero)
    (h : ∀ v, node.HasValue v ↔ ∃ term, node.cleaned = .ok term ∧ term.HasValue v) :
    node.IsKept := by
  intro negate v
  rw [h]
  refine exists_congr fun term => and_congr_right fun hclean => ?_
  cases negate with
  | false => rfl
  | true => exact (hzeros.of_cleaned hclean).hasValue_negated_iff.symm

/-- A sequence inside of a node has a value if and only if it can be cleaned and what cleaning gives
has that value. -/
def Sequence.SumsAsCleaned (nodes : List Node) : Prop :=
  ∀ v, SumHasValue Node.HasValue nodes v ↔
    ∃ out, Sequence.cleanedFrom true false false nodes = .ok out ∧
      SumHasValue Node.HasValue out v

theorem Node.hasValue_group_iff_cleaned {letter : Option Char} {n : Number} {p : List Node}
    (hp : Sequence.SumsAsCleaned p) (v : Rat) : (Node.group letter n p).HasValue v ↔
      ∃ term, (Node.group letter n p).cleaned = .ok term ∧ term.HasValue v := by
  constructor
  · intro h
    cases h with
    | number => exact ⟨_, rfl, .number n⟩
    | power _ hexponent hv =>
      obtain ⟨power, hpower, hexponent⟩ := (hp _).1 hexponent
      exact ⟨_, Node.cleaned_group_eq_ok.2 ⟨power, hpower, rfl⟩,
        .power hexponent.ne_nil hexponent hv⟩
  · rintro ⟨term, hclean, h⟩
    obtain ⟨power, hpower, rfl⟩ := Node.cleaned_group_eq_ok.1 hclean
    cases h with
    | number =>
      obtain rfl := Sequence.eq_nil_of_cleanedFrom hpower
      exact .number n
    | power _ hexponent hv =>
      replace hexponent := (hp _).2 ⟨power, hpower, hexponent⟩
      exact .power hexponent.ne_nil hexponent hv

theorem Node.hasValue_paren_iff_cleaned {b p : List Node} {negative : Bool}
    (hb : Sequence.SumsAsCleaned b) (hp : Sequence.SumsAsCleaned p) (v : Rat) :
    (Node.paren b p negative).HasValue v ↔
      ∃ term, (Node.paren b p negative).cleaned = .ok term ∧ term.HasValue v := by
  constructor
  · intro h
    cases h with
    | paren _ hcontent =>
      obtain ⟨body, hbody, hcontent⟩ := (hb _).1 hcontent
      exact ⟨_, Node.cleaned_paren_eq_ok.2 ⟨body, [], hbody, by rw [Sequence.cleanedFrom], rfl⟩,
        .paren negative hcontent⟩
    | parenPower _ _ hcontent hexponent hv =>
      obtain ⟨body, hbody, hcontent⟩ := (hb _).1 hcontent
      obtain ⟨power, hpower, hexponent⟩ := (hp _).1 hexponent
      exact ⟨_, Node.cleaned_paren_eq_ok.2 ⟨body, power, hbody, hpower, rfl⟩,
        .parenPower negative hexponent.ne_nil hcontent hexponent hv⟩
  · rintro ⟨term, hclean, h⟩
    obtain ⟨body, power, hbody, hpower, rfl⟩ := Node.cleaned_paren_eq_ok.1 hclean
    cases h with
    | paren _ hcontent =>
      obtain rfl := Sequence.eq_nil_of_cleanedFrom hpower
      exact .paren negative ((hb _).2 ⟨body, hbody, hcontent⟩)
    | parenPower _ _ hcontent hexponent hv =>
      replace hexponent := (hp _).2 ⟨power, hpower, hexponent⟩
      exact .parenPower negative hexponent.ne_nil ((hb _).2 ⟨body, hbody, hcontent⟩) hexponent hv

theorem Node.hasValue_fraction_iff_cleaned {t b : List Node} (ht : Sequence.SumsAsCleaned t)
    (hb : Sequence.SumsAsCleaned b) (v : Rat) : (Node.fraction t b).HasValue v ↔
      ∃ term, (Node.fraction t b).cleaned = .ok term ∧ term.HasValue v := by
  constructor
  · intro h
    cases h with
    | fraction hnumerator hdenominator hv =>
      obtain ⟨top, htop, hnumerator⟩ := (ht _).1 hnumerator
      obtain ⟨bottom, hbottom, hdenominator⟩ := (hb _).1 hdenominator
      have hfraction : (Node.fraction? top bottom).isSome = true := by
        rw [hdenominator.fraction?_eq (Rational.divide_eq_ok.1 hv).1]
        rfl
      exact ⟨_, Node.cleaned_fraction_eq_ok.2 ⟨top, bottom, htop, hbottom, hfraction, rfl⟩,
        .fraction hnumerator hdenominator hv⟩
  · rintro ⟨term, hclean, h⟩
    obtain ⟨top, bottom, htop, hbottom, -, rfl⟩ := Node.cleaned_fraction_eq_ok.1 hclean
    cases h with
    | fraction hnumerator hdenominator hv =>
      exact .fraction ((ht _).2 ⟨top, htop, hnumerator⟩) ((hb _).2 ⟨bottom, hbottom, hdenominator⟩)
        hv

/-- A term has a value if and only if it can be cleaned and what cleaning gives has that value. -/
theorem Node.hasValue_iff_cleaned {node : Node} (hspaced : node.Within Sequence.IsSpaced)
    (hzeros : node.LacksPoweredZero) (v : Rat) :
    node.HasValue v ↔ ∃ term, node.cleaned = .ok term ∧ term.HasValue v := by
  -- A sequence inside of the node, given what is known of its terms.
  have hpart {part : List Node}
      (ih : ∀ n ∈ part, n.Within Sequence.IsSpaced → n.LacksPoweredZero → ∀ v,
        n.HasValue v ↔ ∃ term, n.cleaned = .ok term ∧ term.HasValue v)
      (hspaced : Sequence.AtEveryDepth Sequence.IsSpaced part)
      (hzeros : Sequence.AtEveryDepth Sequence.HasNoPoweredZero part) :
      Sequence.SumsAsCleaned part := by
    refine fun w => SumHasValue.iff_cleaned hspaced.1 fun n hn => ?_
    have hzero := Sequence.atEveryDepth_hasNoPoweredZero.1 hzeros n hn
    exact hzero.isKept (ih n hn (hspaced.of_mem hn) hzero)
  induction node using Node.nested_induction generalizing v with
  | group letter n p ihp => exact Node.hasValue_group_iff_cleaned (hpart ihp hspaced hzeros.2) v
  | paren b p negative ihb ihp =>
    exact Node.hasValue_paren_iff_cleaned (hpart ihb hspaced.1 hzeros.2.1)
      (hpart ihp hspaced.2 hzeros.2.2) v
  | fraction t b iht ihb =>
    exact Node.hasValue_fraction_iff_cleaned (hpart iht hspaced.1 hzeros.2.1)
      (hpart ihb hspaced.2 hzeros.2.2) v
  | operator | relation =>
    refine ⟨fun h => (by cases h), ?_⟩
    rintro ⟨term, hclean, h⟩
    cases hclean
    cases h

/-- Evaluating a sequence and evaluating what cleaning makes of it give the same value, or neither
gives one. -/
theorem Sequence.evaluate_iff_cleaned {nodes : List Node}
    (hspaced : Sequence.AtEveryDepth Sequence.IsSpaced nodes)
    (hzeros : Sequence.AtEveryDepth Sequence.HasNoPoweredZero nodes) (v : Rat) :
    Sequence.evaluate nodes = .ok v ↔
      ∃ out, Sequence.cleaned nodes = .ok out ∧ Sequence.evaluate out = .ok v := by
  simp only [Sequence.evaluate_eq_ok]
  refine SumHasValue.iff_cleaned hspaced.1 fun node hnode => ?_
  have hzero := Sequence.atEveryDepth_hasNoPoweredZero.1 hzeros node hnode
  exact hzero.isKept (Node.hasValue_iff_cleaned (hspaced.of_mem hnode) hzero)

/-- Differences in a sum, in a parenthesis with an exponent, in the exponent and in a numerator. -/
theorem Sequence.evaluate_iff_cleaned_nested_differences :
    ∃ out, Sequence.cleaned [Node.constant 10, .operator .subtract,
        .paren [Node.constant 5, .operator .subtract, Node.constant 2]
          [Node.constant 3, .operator .subtract, Node.constant 1] false,
        .operator .subtract,
        .fraction [Node.constant 7, .operator .subtract, Node.constant 3] [Node.constant 4],
        .operator .multiply, Node.constant 2] = .ok out ∧
      Sequence.evaluate out = .ok (-1) := by
  refine (Sequence.evaluate_iff_cleaned ⟨?_, ?_⟩ ⟨?_, ?_⟩ (-1)).1 (by decide +kernel)
  · decide +kernel
  · simp [Sequence.Within, Node.Within, Sequence.IsSpaced, Node.isTerm, Node.constant, Group.toNode,
      Group.constant]
  · simp [Sequence.HasNoPoweredZero, Node.isPoweredZero, Node.constant, Group.toNode,
      Group.constant]
  · simp [Sequence.HasNoPoweredZero, Sequence.Within, Node.Within, Node.isPoweredZero,
      Node.constant, Group.toNode, Group.constant]

end OneUnknown
