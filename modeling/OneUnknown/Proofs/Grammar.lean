import OneUnknown.Proofs.Evaluation
import OneUnknown.Proofs.Problem
import OneUnknown.Proofs.Variables
/-!
# The value of an expression by its grammar

A sum adds products up, a product joins terms, and a term is a number, a power, a parenthesis or a
fraction.  The value of an expression follows that structure, and evaluation, which goes over a
sequence once for each kind of operator, finds this value and no other.

* `ProductHasValue`, `SumHasValue` and `Node.HasValue`: the grammar with the value of each phrase;
* `SumHasValue.of_valueAt`: reading from left to right follows the grammar;
* `SumHasValue.combined_eq_ok`: what has a value by the grammar is evaluated to it;
* `Node.HasValue.isWellFormed`, `Node.HasValue.hasVariable_eq_false`: such a term is well formed and
  has no variable;
* `Sequence.evaluate_eq_ok_iff`: the result of evaluation.
-/

namespace OneUnknown

/-- The value of a product: terms joined by `*` and `/`, which are applied from left to right. -/
inductive ProductHasValue (value : Node → Rat → Prop) : List Node → Rat → Prop where
  | term {node : Node} {v : Rat} (hnode : value node v) : ProductHasValue value [node] v
  | multiply {product : List Node} {node : Node} {l r : Rat}
      (hproduct : ProductHasValue value product l) (hnode : value node r) :
      ProductHasValue value (product ++ [.operator .multiply, node]) (l * r)
  | divide {product : List Node} {node : Node} {l r v : Rat}
      (hproduct : ProductHasValue value product l) (hnode : value node r)
      (hv : Rational.divide l r = .ok v) :
      ProductHasValue value (product ++ [.operator .divide, node]) v

/-- The value of a sum: products joined by `+` and `-`, which are applied from left to right. -/
inductive SumHasValue (value : Node → Rat → Prop) : List Node → Rat → Prop where
  | product {product : List Node} {v : Rat} (hproduct : ProductHasValue value product v) :
      SumHasValue value product v
  | add {sum product : List Node} {l r : Rat} (hsum : SumHasValue value sum l)
      (hproduct : ProductHasValue value product r) :
      SumHasValue value (sum ++ .operator .add :: product) (l + r)
  | subtract {sum product : List Node} {l r : Rat} (hsum : SumHasValue value sum l)
      (hproduct : ProductHasValue value product r) :
      SumHasValue value (sum ++ .operator .subtract :: product) (l - r)

/-- The value of a term without variables.  The sign of a number stays outside of its power, and
that of a parenthesis is applied last. -/
inductive Node.HasValue : Node → Rat → Prop where
  | number (n : Number) : HasValue (.group none n []) n.value
  | power {n : Number} {p : List Node} {exponent v : Rat} (hp : p ≠ [])
      (hexponent : SumHasValue HasValue p exponent)
      (hv : Rational.signedPower n.value exponent = .ok v) : HasValue (.group none n p) v
  | paren {b : List Node} {content : Rat} (negative : Bool)
      (hb : SumHasValue HasValue b content) :
      HasValue (.paren b [] negative) (if negative then -content else content)
  | parenPower {b p : List Node} {content exponent v : Rat} (negative : Bool) (hp : p ≠ [])
      (hb : SumHasValue HasValue b content) (hexponent : SumHasValue HasValue p exponent)
      (hv : Rational.power content exponent = .ok v) :
      HasValue (.paren b p negative) (if negative then -v else v)
  | fraction {t b : List Node} {top bottom v : Rat} (ht : SumHasValue HasValue t top)
      (hb : SumHasValue HasValue b bottom) (hv : Rational.divide top bottom = .ok v) :
      HasValue (.fraction t b) v

/-! ## Single terms -/

theorem ProductHasValue.ne_nil {value : Node → Rat → Prop} {nodes : List Node} {v : Rat}
    (h : ProductHasValue value nodes v) : nodes ≠ [] := by
  cases h <;> simp

theorem SumHasValue.ne_nil {value : Node → Rat → Prop} {nodes : List Node} {v : Rat}
    (h : SumHasValue value nodes v) : nodes ≠ [] := by
  cases h with
  | product hproduct => exact hproduct.ne_nil
  | add | subtract => simp

theorem SumHasValue.singleton_iff {value : Node → Rat → Prop} {node : Node} {v : Rat} :
    SumHasValue value [node] v ↔ value node v := by
  refine ⟨fun h => ?_, fun h => .product (.term h)⟩
  -- In front of an operator there would be another node.
  have hlonger {left right : List Node} (hleft : left ≠ []) (hright : right ≠ []) :
      [node] ≠ left ++ right := by
    intro heq
    rcases List.append_eq_singleton_iff.1 heq.symm with ⟨rfl, -⟩ | ⟨-, rfl⟩
    · exact hleft rfl
    · exact hright rfl
  generalize hout : [node] = out at h
  cases h with
  | product hproduct =>
    cases hproduct with
    | term hnode => exact List.singleton_inj.1 hout ▸ hnode
    | multiply hproduct | divide hproduct =>
      exact absurd hout (hlonger hproduct.ne_nil (List.cons_ne_nil _ _))
  | add hsum | subtract hsum => exact absurd hout (hlonger hsum.ne_nil (List.cons_ne_nil _ _))

theorem Node.hasValue_number_iff {n : Number} {v : Rat} :
    (Node.group none n []).HasValue v ↔ n.value = v := by
  constructor
  · intro h
    cases h with
    | number => rfl
    | power hp => exact absurd rfl hp
  · rintro rfl
    exact .number n

theorem Node.hasValue_fraction_iff {t b : List Node} {v : Rat} :
    (Node.fraction t b).HasValue v ↔ ∃ top bottom, SumHasValue Node.HasValue t top ∧
      SumHasValue Node.HasValue b bottom ∧ Rational.divide top bottom = .ok v := by
  constructor
  · intro h
    cases h with
    | fraction ht hb hv => exact ⟨_, _, ht, hb, hv⟩
  · rintro ⟨top, bottom, ht, hb, hv⟩
    exact .fraction ht hb hv

theorem Node.hasValue_power_iff {n : Number} {p : List Node} {v : Rat} (hp : p ≠ []) :
    (Node.group none n p).HasValue v ↔
      ∃ exponent, SumHasValue Node.HasValue p exponent ∧
        Rational.signedPower n.value exponent = .ok v := by
  constructor
  · intro h
    cases h with
    | number => exact absurd rfl hp
    | power _ hexponent hv => exact ⟨_, hexponent, hv⟩
  · rintro ⟨exponent, hexponent, hv⟩
    exact .power hp hexponent hv

theorem Node.HasValue.isTerm {node : Node} {w : Rat} (h : node.HasValue w) :
    node.isTerm = true := by
  cases h <;> rfl

/-! ## From left to right -/

theorem Rational.divide_neg {left right value : Rat} :
    Rational.divide (-left) right = .ok (-value) ↔ Rational.divide left right = .ok value := by
  rw [Rational.divide, Rational.divide]
  split <;> simp [neg_div]

theorem Rational.divide_of_quotient? {left right value : Rat}
    (h : Rational.quotient? left right = some value) : Rational.divide left right = .ok value := by
  rw [Rational.quotient?] at h
  rw [Rational.divide]
  split at h
  · cases h
  · rename_i hright
    rw [if_neg hright, Option.some.inj h]

section

variable {value : Node → Rat → Prop} {point : Char → Rat} {v : Rat}

/-- A sum that has been read up to the middle of a product. -/
inductive SumSoFar (value : Node → Rat → Prop) : List Node → (total product : Rat) → Prop where
  | first {part : List Node} {product : Rat} (hproduct : ProductHasValue value part product) :
      SumSoFar value part 0 product
  | add {sum part : List Node} {total product : Rat} (hsum : SumHasValue value sum total)
      (hproduct : ProductHasValue value part product) :
      SumSoFar value (sum ++ .operator .add :: part) total product
  | subtract {sum part : List Node} {total product : Rat} (hsum : SumHasValue value sum total)
      (hproduct : ProductHasValue value part product) :
      SumSoFar value (sum ++ .operator .subtract :: part) total (-product)

namespace SumSoFar

variable {nodes : List Node} {total product : Rat} {node : Node} {w : Rat}

theorem sum (h : SumSoFar value nodes total product) :
    SumHasValue value nodes (total + product) := by
  cases h with
  | first hproduct => simpa using SumHasValue.product hproduct
  | add hsum hproduct => exact .add hsum hproduct
  | subtract hsum hproduct => simpa [sub_eq_add_neg] using SumHasValue.subtract hsum hproduct

theorem multiply (h : SumSoFar value nodes total product) (hnode : value node w) :
    SumSoFar value (nodes ++ [.operator .multiply, node]) total (product * w) := by
  cases h with
  | first hproduct => exact .first (.multiply hproduct hnode)
  | add hsum hproduct => simpa using SumSoFar.add hsum (.multiply hproduct hnode)
  | subtract hsum hproduct => simpa using SumSoFar.subtract hsum (.multiply hproduct hnode)

theorem divide (h : SumSoFar value nodes total product) (hnode : value node w)
    (hv : Rational.divide product w = .ok v) :
    SumSoFar value (nodes ++ [.operator .divide, node]) total v := by
  cases h with
  | first hproduct => exact .first (.divide hproduct hnode hv)
  | add hsum hproduct => simpa using SumSoFar.add hsum (.divide hproduct hnode hv)
  | subtract hsum hproduct =>
    have hneg := Rational.divide_neg.1 ((neg_neg v).symm ▸ hv)
    simpa using SumSoFar.subtract hsum (.divide hproduct hnode hneg)

end SumSoFar

/-- The rest of a sequence continues the sum that has been read. -/
theorem SumSoFar.of_valueAfter {nodes rest : List Node} {total product : Rat}
    (hvalue : ∀ node ∈ rest, ∀ w, node.valueAt point = some w → value node w)
    (hread : SumSoFar value nodes total product)
    (h : Sequence.valueAfter point total product rest = some v) :
    SumHasValue value (nodes ++ rest) v := by
  match rest with
  | [] =>
    obtain rfl := Option.some.inj h
    simpa using hread.sum
  | .operator op :: node :: rest =>
    obtain ⟨w, hw, h⟩ := Option.bind_eq_some_iff.1 h
    have hnode := hvalue node (.tail _ (.head _)) w hw
    have hrest := fun n hn => hvalue n (.tail _ (.tail _ hn))
    have hcut : nodes ++ .operator op :: node :: rest = nodes ++ [.operator op, node] ++ rest := by
      simp
    rw [hcut]
    cases op with
    | add => exact of_valueAfter hrest (.add hread.sum (.term hnode)) h
    | subtract => exact of_valueAfter hrest (.subtract hread.sum (.term hnode)) h
    | multiply => exact of_valueAfter hrest (hread.multiply hnode) h
    | divide =>
      obtain ⟨quotient, hquotient, h⟩ := Option.bind_eq_some_iff.1 h
      exact of_valueAfter hrest (hread.divide hnode (Rational.divide_of_quotient? hquotient)) h
  | [.operator _] => simp [Sequence.valueAfter] at h
  | .group .. :: _ | .paren .. :: _ | .fraction .. :: _ | .relation _ :: _ =>
    simp [Sequence.valueAfter] at h

/-- A sequence that is read from left to right has the value that its grammar gives it. -/
theorem SumHasValue.of_valueAt {nodes : List Node}
    (hvalue : ∀ node ∈ nodes, ∀ w, node.valueAt point = some w → value node w)
    (h : Sequence.valueAt point nodes = some v) : SumHasValue value nodes v := by
  cases nodes with
  | nil => cases h
  | cons node rest =>
    obtain ⟨w, hw, h⟩ := Option.bind_eq_some_iff.1 h
    exact SumSoFar.of_valueAfter (fun n hn => hvalue n (.tail _ hn))
      (.first (.term (hvalue node (.head _) w hw))) h

end

/-! ## From the evaluator to the grammar -/

/-- What the operators of one precedence are not applied to stays. -/
theorem OperatorsApplied.operand_or_mem {tighter : Bool} {before : List Node} {held : Node}
    {rest out : List Node} (h : OperatorsApplied tighter before held rest out) :
    ∀ node ∈ before ++ held :: rest,
      (∃ op, node = .operator op) ∨ (∃ v, node.operand = .ok v) ∨ node ∈ out := by
  induction h with
  | nil before held =>
    intro node hnode
    exact .inr (.inr (by simpa using hnode))
  | apply hop hleft hright hvalue tail ih =>
    rename_i before held op next rest out left right value
    intro node hnode
    simp only [List.mem_append, List.mem_cons] at hnode ih
    rcases hnode with hnode | rfl | rfl | rfl | hnode
    · exact ih node (.inl hnode)
    · exact .inr (.inl ⟨left, hleft⟩)
    · exact .inl ⟨op, rfl⟩
    · exact .inr (.inl ⟨right, hright⟩)
    · exact ih node (.inr (.inr hnode))
  | next hnode tail ih =>
    intro node hnode
    refine ih node ?_
    simp only [List.mem_append, List.mem_cons] at hnode ⊢
    tauto

theorem Sequence.operand_or_mem_applied {tighter : Bool} {nodes out : List Node}
    (h : Sequence.applied tighter nodes = .ok out) :
    ∀ node ∈ nodes, (∃ op, node = .operator op) ∨ (∃ v, node.operand = .ok v) ∨ node ∈ out := by
  obtain ⟨rfl, rfl⟩ | ⟨first, rest, rfl, -, happlied⟩ := OperatorsApplied.of_applied h
  · simp
  · simpa using happlied.operand_or_mem

/-- What a successful evaluation makes of the nodes: an operator stays, and anything else becomes a
plain number. -/
theorem exists_operand_of_combined {nodes : List Node} {v : Rat}
    (h : combined (Sequence.collapsed nodes) = .ok v) :
    ∀ node ∈ nodes, ∃ node', node.collapse = .ok node' ∧
      ((∃ op, node' = .operator op) ∨ ∃ w, node'.operand = .ok w) := by
  obtain ⟨terms, products, last, hterms, hproducts, hlast, h⟩ :=
    Sequence.exists_applied_of_combined h
  intro node hnode
  obtain ⟨node', hnode', hcollapse⟩ := Except.exists_result_of_mapM hterms
    (List.mem_map.2 ⟨node, hnode, rfl⟩)
  refine ⟨node', hcollapse, ?_⟩
  rcases Sequence.operand_or_mem_applied hproducts node' hnode' with hop | hvalue | hmem
  · exact .inl hop
  · exact .inr hvalue
  · rcases Sequence.operand_or_mem_applied hlast node' hmem with hop | hvalue | hmem
    · exact .inl hop
    · exact .inr hvalue
    · exact .inr ⟨v, List.mem_singleton.1 hmem ▸ h⟩

theorem SumHasValue.of_combined {nodes : List Node} {v : Rat}
    (hvalue : ∀ node ∈ nodes, ∀ node' w, node.collapse = .ok node' → node'.operand = .ok w →
      node.HasValue w)
    (h : combined (Sequence.collapsed nodes) = .ok v) : SumHasValue Node.HasValue nodes v := by
  have hread : Sequence.valueAt (everywhere 0) nodes = some v :=
    Sequence.valueAt_of_combined _ (fun _ _ _ => Node.valueAt_of_collapse _) h
  refine .of_valueAt (fun node hnode w hw => ?_) hread
  obtain ⟨node', hcollapse, ⟨op, rfl⟩ | ⟨u, hu⟩⟩ := exists_operand_of_combined h node hnode
  · rcases Node.valueAt_of_collapse (everywhere 0) hcollapse with rfl | ⟨_, -, hnone⟩
    · cases hw
    · cases hnone
  · obtain rfl : u = w := by
      have hu' := Node.operand_eq_ok (everywhere 0) hu
      rcases Node.valueAt_of_collapse (everywhere 0) hcollapse with rfl | ⟨x, hx, hx'⟩
      · exact Option.some.inj (hu'.symm.trans hw)
      · exact (Option.some.inj (hu'.symm.trans hx')).trans (Option.some.inj (hx.symm.trans hw))
    exact hvalue node hnode node' u hcollapse hu

@[simp] theorem Node.operand_constant (v : Rat) : (Node.constant v).operand = .ok v := by
  simp [Node.constant, Group.constant, Group.toNode, Node.operand]

/-- A term that becomes a plain number has the value of that number. -/
theorem Node.hasValue_of_collapse {node node' : Node} {w : Rat} (h : node.collapse = .ok node')
    (hw : node'.operand = .ok w) : node.HasValue w := by
  induction node using Node.nested_induction generalizing node' w with
  | group letter n p ihp =>
    cases Node.CollapsesTo.of_collapse h with
    | group =>
      cases letter with
      | none => exact Except.ok.inj hw ▸ .number n
      | some name => cases hw
    | power hp hexponent hv =>
      rw [Node.operand_constant] at hw
      exact Except.ok.inj hw ▸
        .power hp (.of_combined (fun n hn _ _ hc hw => ihp n hn hc hw) hexponent) hv
  | paren b p negative ihb ihp =>
    cases Node.CollapsesTo.of_collapse h with
    | paren _ hcontent =>
      rw [Node.operand_constant] at hw
      exact Except.ok.inj hw ▸
        .paren negative (.of_combined (fun n hn _ _ hc hw => ihb n hn hc hw) hcontent)
    | parenPower _ hp hcontent hexponent hv =>
      rw [Node.operand_constant] at hw
      exact Except.ok.inj hw ▸ .parenPower negative hp
        (.of_combined (fun n hn _ _ hc hw => ihb n hn hc hw) hcontent)
        (.of_combined (fun n hn _ _ hc hw => ihp n hn hc hw) hexponent) hv
  | fraction t b iht ihb =>
    cases Node.CollapsesTo.of_collapse h with
    | fraction htop hbottom hv =>
      rw [Node.operand_constant] at hw
      exact Except.ok.inj hw ▸ .fraction
        (.of_combined (fun n hn _ _ hc hw => iht n hn hc hw) htop)
        (.of_combined (fun n hn _ _ hc hw => ihb n hn hc hw) hbottom) hv
  | operator | relation =>
    cases Node.CollapsesTo.of_collapse h
    cases hw

/-! ## From the grammar to the evaluator -/

/-- The first operators of a sequence are applied before the others: whatever follows, reading on
from the first node comes to a node that is held before the rest. -/
def ReducesTo (tighter : Bool) (before nodes before' : List Node) (held : Node) : Prop :=
  ∃ first rest, nodes = first :: rest ∧ (∀ op, first ≠ .operator op) ∧ ∀ tail,
    Sequence.appliedFrom tighter before first (rest ++ tail) =
      Sequence.appliedFrom tighter before' held tail

section

variable {tighter : Bool} {before before' nodes : List Node} {held node : Node} {l r v : Rat}
  {op : Operator}

theorem Node.ne_operator_of_operand (h : node.operand = .ok v) (op : Operator) :
    node ≠ .operator op := by
  rintro rfl
  cases h

theorem ReducesTo.single (h : node.operand = .ok v) : ReducesTo tighter before [node] before node :=
  ⟨node, [], rfl, Node.ne_operator_of_operand h, fun _ => rfl⟩

/-- An operator that is applied next. -/
theorem ReducesTo.apply (h : ReducesTo tighter before nodes before' held)
    (hop : op.bindsTighter = tighter) (hl : held.operand = .ok l) (hr : node.operand = .ok r)
    (hv : op.apply l r = .ok v) :
    ReducesTo tighter before (nodes ++ [.operator op, node]) before' (Node.constant v) := by
  obtain ⟨first, rest, rfl, hfirst, hread⟩ := h
  refine ⟨first, rest ++ [.operator op, node], rfl, hfirst, fun tail => ?_⟩
  rw [List.append_assoc, hread, List.cons_append, List.cons_append, List.nil_append,
    Sequence.appliedFrom, if_pos hop, hl, hr]
  change (op.apply l r >>= fun value =>
    Sequence.appliedFrom tighter before' (Node.constant value) tail) = _
  rw [hv]
  rfl

/-- An operator of the other precedence is kept, and what follows it is read after it. -/
theorem ReducesTo.keep {nodes' before'' : List Node} {held' : Node}
    (h : ReducesTo tighter before nodes before' held) (hop : op.bindsTighter ≠ tighter)
    (h' : ReducesTo tighter (.operator op :: held :: before') nodes' before'' held') :
    ReducesTo tighter before (nodes ++ .operator op :: nodes') before'' held' := by
  obtain ⟨first, rest, rfl, hfirst, hread⟩ := h
  obtain ⟨first', rest', rfl, hfirst', hread'⟩ := h'
  refine ⟨first, rest ++ .operator op :: first' :: rest', rfl, hfirst, fun tail => ?_⟩
  have hnext : Sequence.appliedFrom tighter (held :: before') (.operator op)
      (first' :: (rest' ++ tail)) =
      Sequence.appliedFrom tighter (.operator op :: held :: before') first' (rest' ++ tail) := by
    cases first' with
    | operator op' => exact absurd rfl (hfirst' op')
    | _ => rfl
  rw [List.append_assoc, hread, List.cons_append, List.cons_append, Sequence.appliedFrom,
    if_neg hop, hnext, hread']

theorem ReducesTo.applied_eq (h : ReducesTo tighter [] nodes before' held) :
    Sequence.applied tighter nodes = .ok (before'.reverse ++ [held]) := by
  obtain ⟨first, rest, rfl, hfirst, hread⟩ := h
  have := hread []
  rw [List.append_nil, Sequence.appliedFrom] at this
  rw [← this]
  cases first with
  | operator op => exact absurd rfl (hfirst op)
  | _ => rfl

end

/-- A product of plain numbers is worked out in the first round. -/
theorem ProductHasValue.reducesTo {nodes : List Node} {v : Rat}
    (h : ProductHasValue (fun node w => node.operand = .ok w) nodes v) (before : List Node) :
    ∃ held, held.operand = .ok v ∧ ReducesTo true before nodes before held := by
  induction h with
  | term hnode => exact ⟨_, hnode, .single hnode⟩
  | multiply _ hnode ih =>
    obtain ⟨held, hheld, hreduces⟩ := ih
    exact ⟨_, Node.operand_constant _, hreduces.apply rfl hheld hnode rfl⟩
  | divide _ hnode hv ih =>
    obtain ⟨held, hheld, hreduces⟩ := ih
    exact ⟨_, Node.operand_constant _, hreduces.apply rfl hheld hnode (by
      rw [Operator.apply, hv]; rfl)⟩

/-- A sum of plain numbers is worked out in two rounds: the first one leaves a number for each of
its products. -/
theorem SumHasValue.reducesTo {nodes : List Node} {v : Rat}
    (h : SumHasValue (fun node w => node.operand = .ok w) nodes v) :
    ∃ before product, ReducesTo true [] nodes before product ∧
      ∃ total, total.operand = .ok v ∧
        ReducesTo false [] (before.reverse ++ [product]) [] total := by
  induction h with
  | product hproduct =>
    obtain ⟨held, hheld, hreduces⟩ := hproduct.reducesTo []
    exact ⟨[], held, hreduces, held, hheld, .single hheld⟩
  | add _ hproduct ih | subtract _ hproduct ih =>
    obtain ⟨before, last, hreduces, total, htotal, hsum⟩ := ih
    obtain ⟨held, hheld, hreduces'⟩ := hproduct.reducesTo (.operator _ :: last :: before)
    refine ⟨_, held, hreduces.keep (by decide) hreduces', _, Node.operand_constant _, ?_⟩
    simpa using hsum.apply rfl htotal hheld rfl

theorem ProductHasValue.exists_forall₂ {value value' : Node → Rat → Prop} {R : Node → Node → Prop}
    {nodes : List Node} {v : Rat}
    (hnode : ∀ node ∈ nodes, ∀ w, value node w → ∃ node', R node node' ∧ value' node' w)
    (hoperator : ∀ op, R (.operator op) (.operator op)) (h : ProductHasValue value nodes v) :
    ∃ nodes', List.Forall₂ R nodes nodes' ∧ ProductHasValue value' nodes' v := by
  induction h with
  | term hterm =>
    obtain ⟨node', hR, hvalue⟩ := hnode _ (.head _) _ hterm
    exact ⟨[node'], .cons hR .nil, .term hvalue⟩
  | multiply _ hterm ih =>
    obtain ⟨nodes', hnodes', hvalue'⟩ := ih fun n hn => hnode n (List.mem_append_left _ hn)
    obtain ⟨node', hR, hvalue⟩ := hnode _ (by simp) _ hterm
    exact ⟨_, List.rel_append hnodes' (.cons (hoperator _) (.cons hR .nil)),
      .multiply hvalue' hvalue⟩
  | divide _ hterm hv ih =>
    obtain ⟨nodes', hnodes', hvalue'⟩ := ih fun n hn => hnode n (List.mem_append_left _ hn)
    obtain ⟨node', hR, hvalue⟩ := hnode _ (by simp) _ hterm
    exact ⟨_, List.rel_append hnodes' (.cons (hoperator _) (.cons hR .nil)),
      .divide hvalue' hvalue hv⟩

/-- Terms may be exchanged for others of the same value. -/
theorem SumHasValue.exists_forall₂ {value value' : Node → Rat → Prop} {R : Node → Node → Prop}
    {nodes : List Node} {v : Rat}
    (hnode : ∀ node ∈ nodes, ∀ w, value node w → ∃ node', R node node' ∧ value' node' w)
    (hoperator : ∀ op, R (.operator op) (.operator op)) (h : SumHasValue value nodes v) :
    ∃ nodes', List.Forall₂ R nodes nodes' ∧ SumHasValue value' nodes' v := by
  induction h with
  | product hproduct =>
    obtain ⟨nodes', hnodes', hvalue'⟩ := hproduct.exists_forall₂ hnode hoperator
    exact ⟨nodes', hnodes', .product hvalue'⟩
  | add _ hproduct ih =>
    obtain ⟨sum, hsum, hsumValue⟩ := ih fun n hn => hnode n (List.mem_append_left _ hn)
    obtain ⟨product, hproduct', hproductValue⟩ := hproduct.exists_forall₂
      (fun n hn => hnode n (List.mem_append_right _ (.tail _ hn))) hoperator
    exact ⟨_, List.rel_append hsum (.cons (hoperator _) hproduct'), .add hsumValue hproductValue⟩
  | subtract _ hproduct ih =>
    obtain ⟨sum, hsum, hsumValue⟩ := ih fun n hn => hnode n (List.mem_append_left _ hn)
    obtain ⟨product, hproduct', hproductValue⟩ := hproduct.exists_forall₂
      (fun n hn => hnode n (List.mem_append_right _ (.tail _ hn))) hoperator
    exact ⟨_, List.rel_append hsum (.cons (hoperator _) hproduct'),
      .subtract hsumValue hproductValue⟩

theorem firstFailure_eq_ok {kind : Node → Bool} {terms : List (Node × Except SolveError Node)}
    (h : ∀ term ∈ terms, ∃ node, term.2 = .ok node) : firstFailure kind terms = .ok () := by
  induction terms with
  | nil => rfl
  | cons term rest ih =>
    obtain ⟨node, result⟩ := term
    obtain ⟨node', rfl⟩ := h _ (.head _)
    rw [firstFailure, ih fun t ht => h t (.tail _ ht)]
    simp

/-- What has a value by the grammar is evaluated to it, if its terms are. -/
theorem SumHasValue.combined_eq_ok {nodes : List Node} {v : Rat}
    (hcollapse : ∀ node ∈ nodes, ∀ w, node.HasValue w →
      ∃ node', node.collapse = .ok node' ∧ node'.operand = .ok w)
    (h : SumHasValue Node.HasValue nodes v) : combined (Sequence.collapsed nodes) = .ok v := by
  obtain ⟨terms, hterms, hvalue⟩ := h.exists_forall₂ hcollapse fun _ => rfl
  obtain ⟨before, product, hproducts, total, htotal, hsum⟩ := hvalue.reducesTo
  have hmapM : (Sequence.collapsed nodes).mapM (fun term => term.2) = .ok terms := by
    rw [Sequence.collapsed_eq_map]
    exact Except.mapM_eq_ok_of_forall₂ (List.forall₂_map_left_iff.2 hterms)
  have hfailure (kind : Node → Bool) : firstFailure kind (Sequence.collapsed nodes) = .ok () := by
    refine firstFailure_eq_ok fun term hterm => ?_
    obtain ⟨node, -, hnode⟩ := Except.exists_result_of_mapM hmapM hterm
    exact ⟨node, hnode⟩
  rw [combined, hfailure, hfailure, hmapM]
  change (Sequence.applied true terms >>= _) = _
  rw [hproducts.applied_eq]
  change (Sequence.applied false (before.reverse ++ [product]) >>= _) = _
  rw [hsum.applied_eq]
  exact htotal

theorem exactly_ok {α : Type} {result : Except EvaluationError α} {value : α}
    (h : result = .ok value) : exactly result = .ok value := by
  rw [h]
  rfl

/-- A term with a value becomes the plain number of this value. -/
theorem Node.HasValue.collapse_eq_ok {node : Node} {w : Rat} (h : node.HasValue w) :
    ∃ node', node.collapse = .ok node' ∧ node'.operand = .ok w := by
  induction node using Node.nested_induction generalizing w with
  | group letter n p ihp =>
    cases h with
    | number => exact ⟨.group none n [], rfl, rfl⟩
    | power hp hexponent hv =>
      refine ⟨Node.constant w, ?_, Node.operand_constant w⟩
      rw [Node.collapse, if_neg (by simpa using hp), if_neg (by simp)]
      exact Except.bind_eq_ok.2 ⟨_, hexponent.combined_eq_ok fun n hn _ => ihp n hn,
        Except.bind_eq_ok.2 ⟨w, exactly_ok hv, rfl⟩⟩
  | paren b p negative ihb ihp =>
    cases h with
    | paren _ hb =>
      refine ⟨Node.constant _, ?_, Node.operand_constant _⟩
      exact Except.bind_eq_ok.2 ⟨_, hb.combined_eq_ok fun n hn _ => ihb n hn, rfl⟩
    | @parenPower _ _ _ _ v _ hp hb hexponent hv =>
      refine ⟨Node.constant _, ?_, Node.operand_constant _⟩
      refine Except.bind_eq_ok.2 ⟨_, hb.combined_eq_ok fun n hn _ => ihb n hn, ?_⟩
      dsimp only
      rw [if_neg (by simpa using hp)]
      exact Except.bind_eq_ok.2 ⟨_, hexponent.combined_eq_ok fun n hn _ => ihp n hn,
        Except.bind_eq_ok.2 ⟨v, exactly_ok hv, rfl⟩⟩
  | fraction t b iht ihb =>
    cases h with
    | fraction ht hb hv =>
      refine ⟨Node.constant w, ?_, Node.operand_constant w⟩
      exact Except.bind_eq_ok.2 ⟨_, ht.combined_eq_ok fun n hn _ => iht n hn,
        Except.bind_eq_ok.2 ⟨_, hb.combined_eq_ok fun n hn _ => ihb n hn,
          Except.bind_eq_ok.2 ⟨w, exactly_ok hv, rfl⟩⟩⟩
  | operator op => cases h
  | relation r => cases h

/-! ## Well-formed sequences without variables -/

theorem Sequence.alternates_append {nodes nodes' : List Node}
    (h : Sequence.alternates nodes = true) :
    Sequence.alternates (nodes ++ nodes') = Sequence.alternates nodes' := by
  match nodes with
  | [] => rfl
  | .operator op :: node :: rest =>
    rw [Sequence.alternates, Bool.and_eq_true] at h
    rw [List.cons_append, List.cons_append, Sequence.alternates, h.1, Bool.true_and,
      Sequence.alternates_append h.2]
  | [.operator _] => simp [Sequence.alternates] at h
  | .group .. :: _ | .paren .. :: _ | .fraction .. :: _ | .relation _ :: _ =>
    simp [Sequence.alternates] at h

/-- A well-formed sequence goes on with an operator and another one. -/
theorem Sequence.isWellFormed_append {nodes nodes' : List Node} (op : Operator)
    (h : Sequence.isWellFormed nodes = true) (h' : Sequence.isWellFormed nodes' = true) :
    Sequence.isWellFormed (nodes ++ .operator op :: nodes') = true := by
  cases nodes with
  | nil => cases h
  | cons node rest =>
    cases nodes' with
    | nil => cases h'
    | cons node' rest' =>
      rw [Sequence.isWellFormed, Bool.and_eq_true] at h h'
      rw [List.cons_append, Sequence.isWellFormed, h.1, Bool.true_and,
        Sequence.alternates_append h.2, Sequence.alternates, h'.1, h'.2, Bool.true_and]

theorem ProductHasValue.isWellFormed {value : Node → Rat → Prop} {nodes : List Node} {v : Rat}
    (hnode : ∀ node ∈ nodes, ∀ w, value node w → node.isWellFormed = true)
    (h : ProductHasValue value nodes v) : Sequence.isWellFormed nodes = true := by
  induction h with
  | term hterm => simp [Sequence.isWellFormed, Sequence.alternates, hnode _ (.head _) _ hterm]
  | multiply _ hterm ih | divide _ hterm _ ih =>
    refine Sequence.isWellFormed_append _ (ih fun n hn => hnode n (List.mem_append_left _ hn)) ?_
    simp [Sequence.isWellFormed, Sequence.alternates, hnode _ (by simp) _ hterm]

theorem SumHasValue.isWellFormed {value : Node → Rat → Prop} {nodes : List Node} {v : Rat}
    (hnode : ∀ node ∈ nodes, ∀ w, value node w → node.isWellFormed = true)
    (h : SumHasValue value nodes v) : Sequence.isWellFormed nodes = true := by
  induction h with
  | product hproduct => exact hproduct.isWellFormed hnode
  | add _ hproduct ih | subtract _ hproduct ih =>
    exact Sequence.isWellFormed_append _ (ih fun n hn => hnode n (List.mem_append_left _ hn))
      (hproduct.isWellFormed fun n hn => hnode n (List.mem_append_right _ (.tail _ hn)))

theorem Node.HasValue.isWellFormed {node : Node} {w : Rat} (h : node.HasValue w) :
    node.isWellFormed = true := by
  induction node using Node.nested_induction generalizing w with
  | group letter n p ihp =>
    cases h with
    | number => rfl
    | power _ hexponent _ =>
      simp [Node.isWellFormed, hexponent.isWellFormed fun n hn _ => ihp n hn]
  | paren b p negative ihb ihp =>
    cases h with
    | paren _ hb => simp [Node.isWellFormed, hb.isWellFormed fun n hn _ => ihb n hn]
    | parenPower _ _ hb hexponent _ =>
      simp [Node.isWellFormed, hb.isWellFormed fun n hn _ => ihb n hn,
        hexponent.isWellFormed fun n hn _ => ihp n hn]
  | fraction t b iht ihb =>
    cases h with
    | fraction ht hb _ =>
      simp [Node.isWellFormed, ht.isWellFormed fun n hn _ => iht n hn,
        hb.isWellFormed fun n hn _ => ihb n hn]
  | operator op => cases h
  | relation r => cases h

theorem ProductHasValue.operator_or_value {value : Node → Rat → Prop} {nodes : List Node}
    {v : Rat} (h : ProductHasValue value nodes v) {node : Node} (hnode : node ∈ nodes) :
    (∃ op, node = .operator op) ∨ ∃ w, value node w := by
  induction h with
  | term hterm =>
    obtain rfl := List.mem_singleton.1 hnode
    exact .inr ⟨_, hterm⟩
  | multiply _ hterm ih | divide _ hterm _ ih =>
    rcases List.mem_append.1 hnode with hnode | hnode
    · exact ih hnode
    · rcases List.mem_cons.1 hnode with rfl | hnode
      · exact .inl ⟨_, rfl⟩
      · obtain rfl := List.mem_singleton.1 hnode
        exact .inr ⟨_, hterm⟩

/-- Everything in a sum but its operators has a value. -/
theorem SumHasValue.operator_or_value {value : Node → Rat → Prop} {nodes : List Node} {v : Rat}
    (h : SumHasValue value nodes v) {node : Node} (hnode : node ∈ nodes) :
    (∃ op, node = .operator op) ∨ ∃ w, value node w := by
  induction h with
  | product hproduct => exact hproduct.operator_or_value hnode
  | add _ hproduct ih | subtract _ hproduct ih =>
    rcases List.mem_append.1 hnode with hnode | hnode
    · exact ih hnode
    · rcases List.mem_cons.1 hnode with rfl | hnode
      · exact .inl ⟨_, rfl⟩
      · exact hproduct.operator_or_value hnode

theorem SumHasValue.hasVariable_eq_false {value : Node → Rat → Prop} {nodes : List Node} {v : Rat}
    (hvalue : ∀ node ∈ nodes, ∀ w, value node w → node.hasVariable = false)
    (h : SumHasValue value nodes v) : Sequence.hasVariable nodes = false := by
  rw [Bool.eq_false_iff, ne_eq, Sequence.hasVariable_iff]
  rintro ⟨node, hnode, hvariable⟩
  obtain ⟨op, rfl⟩ | ⟨w, hw⟩ := h.operator_or_value hnode
  · cases hvariable
  · rw [hvalue node hnode w hw] at hvariable
    cases hvariable

theorem Node.HasValue.hasVariable_eq_false {node : Node} {w : Rat} (h : node.HasValue w) :
    node.hasVariable = false := by
  induction node using Node.nested_induction generalizing w with
  | group letter n p ihp =>
    cases h with
    | number => rfl
    | power _ hexponent _ => simp [hexponent.hasVariable_eq_false fun n hn _ => ihp n hn]
  | paren b p negative ihb ihp =>
    cases h with
    | paren _ hb => simp [hb.hasVariable_eq_false fun n hn _ => ihb n hn]
    | parenPower _ _ hb hexponent _ =>
      simp [hb.hasVariable_eq_false fun n hn _ => ihb n hn,
        hexponent.hasVariable_eq_false fun n hn _ => ihp n hn]
  | fraction t b iht ihb =>
    cases h with
    | fraction ht hb _ =>
      simp [ht.hasVariable_eq_false fun n hn _ => iht n hn,
        hb.hasVariable_eq_false fun n hn _ => ihb n hn]
  | operator op => cases h
  | relation r => cases h

/-! ## Evaluation -/

/-- Evaluation gives the value of a sequence by its grammar. -/
theorem Sequence.evaluate_eq_ok {nodes : List Node} {v : Rat} :
    Sequence.evaluate nodes = .ok v ↔ SumHasValue Node.HasValue nodes v :=
  ⟨.of_combined fun _ _ _ _ => Node.hasValue_of_collapse,
    SumHasValue.combined_eq_ok fun _ _ _ => Node.HasValue.collapse_eq_ok⟩

/-- A sequence is evaluated if and only if terms and operators alternate in it at every depth, it
has neither variables nor relations, and its grammar gives it a value; the result is this value.
Every other sequence is refused. -/
theorem Sequence.evaluate_eq_ok_iff (nodes : List Node) :
    (∀ v, Sequence.evaluate nodes = .ok v ↔
      Sequence.isWellFormed nodes = true ∧ Sequence.hasVariable nodes = false ∧
        SumHasValue Node.HasValue nodes v) ∧
    ((∃ reason, Sequence.evaluate nodes = .error reason) ↔
      ¬ ∃ v, Sequence.isWellFormed nodes = true ∧ Sequence.hasVariable nodes = false ∧
        SumHasValue Node.HasValue nodes v) := by
  have hok (v : Rat) : Sequence.evaluate nodes = .ok v ↔
      Sequence.isWellFormed nodes = true ∧ Sequence.hasVariable nodes = false ∧
        SumHasValue Node.HasValue nodes v := by
    refine ⟨fun h => ?_, fun h => Sequence.evaluate_eq_ok.2 h.2.2⟩
    have hvalue := Sequence.evaluate_eq_ok.1 h
    exact ⟨hvalue.isWellFormed fun _ _ _ => Node.HasValue.isWellFormed,
      hvalue.hasVariable_eq_false fun _ _ _ => Node.HasValue.hasVariable_eq_false, hvalue⟩
  refine ⟨hok, ?_⟩
  simp only [← hok]
  cases Sequence.evaluate nodes <;> simp

/-- The sign stays outside of a power, and a division is worked out before the one after it. -/
example : Sequence.evaluate [.group none (Number.ofNat 3).negated [Node.constant 2],
    .operator .divide, Node.constant 3, .operator .divide, Node.constant 2] = .ok (-3 / 2) := by
  decide +kernel

end OneUnknown
