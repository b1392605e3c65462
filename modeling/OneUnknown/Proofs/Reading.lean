import OneUnknown.Proofs.Meaning
import Mathlib.Data.List.Forall2
import Mathlib.Tactic.Ring
/-!
# Reading a sequence from left to right

The value of a sequence is read from left to right, and the state of reading is made explicit
here, so that a part of a sequence can be exchanged for another one that is read in the same way.

* `Reading`: what has been read so far, and `Sequence.read`, which reads on;
* `Sequence.valueAt_eq`: the value of a sequence is the result of reading it;
* `Sequence.read_within`: moving or scaling what has been read moves or scales the result;
* `Sequence.read_product`: a product is read like a single term with its value.
-/

namespace OneUnknown

/-! ## Reading a sequence -/

/-- The state of reading a sequence: `total` is the sum of the summands before the present one, and
`product` what the present one is worth so far. -/
inductive Reading where
  /-- After an operator, a term has to follow. -/
  | expecting (total product : Rat) (op : Operator)
  /-- After a term, an operator may follow. -/
  | holding (total product : Rat)
  | stuck

namespace Reading

/-- Nothing read yet: what comes first is added to zero. -/
def start : Reading := .expecting 0 0 .add

/-- A term with a value. -/
def accept (value : Rat) : Reading → Reading
  | .expecting total product .add => .holding (total + product) value
  | .expecting total product .subtract => .holding (total + product) (-value)
  | .expecting total product .multiply => .holding total (product * value)
  | .expecting total product .divide =>
    match Rational.quotient? product value with
    | some quotient => .holding total quotient
    | none => .stuck
  | .holding _ _ | .stuck => .stuck

/-- One more node. -/
def next (point : Char → Rat) (s : Reading) (node : Node) : Reading :=
  match s, node with
  | .holding total product, .operator op => .expecting total product op
  | s, node =>
    match node.valueAt point with
    | some value => s.accept value
    | none => .stuck

/-- The value of what has been read, if it can end here. -/
def result : Reading → Option Rat
  | .holding total product => some (total + product)
  | .expecting .. | .stuck => none

/-- The state in which everything is multiplied by `factor` and then added to `total`. -/
def within (total factor : Rat) : Reading → Reading
  | .expecting t p op => .expecting (total + factor * t) (factor * p) op
  | .holding t p => .holding (total + factor * t) (factor * p)
  | .stuck => .stuck

end Reading

/-- Read some nodes. -/
def Sequence.read (point : Char → Rat) (s : Reading) (nodes : List Node) : Reading :=
  nodes.foldl (Reading.next point) s

section

variable (point : Char → Rat)

@[simp] theorem Sequence.read_nil (s : Reading) : Sequence.read point s [] = s := rfl

@[simp] theorem Sequence.read_cons (s : Reading) (node : Node) (rest : List Node) :
    Sequence.read point s (node :: rest) = Sequence.read point (s.next point node) rest := rfl

@[simp] theorem Sequence.read_append (s : Reading) (left right : List Node) :
    Sequence.read point s (left ++ right) =
      Sequence.read point (Sequence.read point s left) right :=
  List.foldl_append

@[simp] theorem Reading.next_operator (total product : Rat) (op : Operator) :
    (Reading.holding total product).next point (.operator op) = .expecting total product op := rfl

@[simp] theorem Reading.next_stuck (node : Node) : Reading.stuck.next point node = .stuck := by
  cases h : node.valueAt point <;> simp [Reading.next, h, Reading.accept]

@[simp] theorem Sequence.read_stuck (nodes : List Node) :
    Sequence.read point .stuck nodes = .stuck := by
  induction nodes with
  | nil => rfl
  | cons node rest ih => rw [Sequence.read_cons, Reading.next_stuck, ih]

/-- Nodes that are read in the same way can take the place of each other. -/
theorem Sequence.read_congr {nodes nodes' : List Node}
    (h : List.Forall₂ (fun a b => ∀ s : Reading, s.next point b = s.next point a) nodes nodes')
    (s : Reading) : Sequence.read point s nodes' = Sequence.read point s nodes := by
  induction h generalizing s with
  | nil => rfl
  | cons hnode _ ih => rw [Sequence.read_cons, Sequence.read_cons, hnode, ih]

/-- A term is accepted with its value. -/
theorem Reading.next_of_valueAt {node : Node} {value : Rat}
    (h : node.valueAt point = some value) (s : Reading) :
    s.next point node = s.accept value := by
  cases s <;> cases node <;> simp_all [Reading.next, Node.valueAt]

/-- What has no value cannot be read where a term has to follow. -/
theorem Reading.next_of_none {node : Node} (h : node.valueAt point = none) (total product : Rat)
    (op : Operator) : (Reading.expecting total product op).next point node = .stuck := by
  simp [Reading.next, h]

theorem Sequence.valueAfter_eq (total product : Rat) (rest : List Node) :
    Sequence.valueAfter point total product rest =
      (Sequence.read point (.holding total product) rest).result := by
  match rest with
  | [] => rfl
  | [.operator op] => simp [Sequence.valueAfter, Reading.result]
  | .operator op :: node :: rest =>
    rw [Sequence.read_cons, Reading.next_operator, Sequence.read_cons]
    cases h : node.valueAt point with
    | none => simp [Sequence.valueAfter, h, Reading.next_of_none, Reading.result]
    | some value =>
      rw [Reading.next_of_valueAt point h]
      cases op with
      | add => simp [Sequence.valueAfter, h, Reading.accept, Sequence.valueAfter_eq]
      | subtract => simp [Sequence.valueAfter, h, Reading.accept, Sequence.valueAfter_eq]
      | multiply => simp [Sequence.valueAfter, h, Reading.accept, Sequence.valueAfter_eq]
      | divide =>
        cases hquotient : Rational.quotient? product value <;>
          simp [Sequence.valueAfter, h, Reading.accept, hquotient, Sequence.valueAfter_eq,
            Reading.result]
  | .group .. :: _ | .paren .. :: _ | .fraction .. :: _ | .relation _ :: _ =>
    rw [Sequence.read_cons, Reading.next]
    · split <;> simp [Sequence.valueAfter, Reading.accept, Reading.result]
    · simp

/-- The value of a sequence is the result of reading it. -/
theorem Sequence.valueAt_eq (nodes : List Node) :
    Sequence.valueAt point nodes = (Sequence.read point .start nodes).result := by
  cases nodes with
  | nil => rfl
  | cons node rest =>
    rw [Sequence.read_cons, Reading.start]
    cases h : node.valueAt point with
    | none => simp [Sequence.valueAt, h, Reading.next_of_none, Reading.result]
    | some value =>
      rw [Reading.next_of_valueAt point h]
      simp [Sequence.valueAt, h, Sequence.valueAfter_eq, Reading.accept]

theorem Sequence.valueAt_eq_some_iff (nodes : List Node) (value : Rat) :
    Sequence.valueAt point nodes = some value ↔
      ∃ total product, Sequence.read point .start nodes = .holding total product ∧
        total + product = value := by
  rw [Sequence.valueAt_eq]
  cases Sequence.read point .start nodes <;> simp [Reading.result]

/-! ## Products -/

/-- A sequence without sums and differences. -/
def Sequence.IsProduct (nodes : List Node) : Prop :=
  ∀ op, .operator op ∈ nodes → op.bindsTighter = true

/-- Whether what comes next belongs to the present summand. -/
def Reading.InProduct : Reading → Prop
  | .expecting _ _ op => op.bindsTighter = true
  | .holding _ _ | .stuck => True

theorem Reading.accept_within (total factor value : Rat) (s : Reading)
    (h : factor = 1 ∨ s.InProduct) :
    (s.within total factor).accept value = (s.accept value).within total factor := by
  cases s with
  | holding | stuck => rfl
  | expecting t p op =>
    cases op with
    | add | subtract =>
      have hfactor : factor = 1 := by simpa [Reading.InProduct, Operator.bindsTighter] using h
      simp [Reading.within, Reading.accept, hfactor, add_assoc]
    | multiply => simp [Reading.within, Reading.accept, mul_assoc]
    | divide =>
      by_cases hvalue : value = 0 <;>
        simp [Reading.within, Reading.accept, Rational.quotient?, hvalue, mul_div_assoc]

theorem Reading.next_within (total factor : Rat) (s : Reading) (node : Node)
    (h : factor = 1 ∨ s.InProduct) :
    (s.within total factor).next point node = (s.next point node).within total factor := by
  cases hvalue : node.valueAt point with
  | some value =>
    rw [Reading.next_of_valueAt point hvalue, Reading.next_of_valueAt point hvalue,
      Reading.accept_within total factor value s h]
  | none => cases s <;> cases node <;> simp_all [Reading.within, Reading.next]

theorem Reading.accept_ne_expecting (value : Rat) (s : Reading) (total product : Rat)
    (op : Operator) : s.accept value ≠ .expecting total product op := by
  rcases s with ⟨_, _, op⟩ | _ | _
  · cases op
    case divide =>
      rw [Reading.accept]
      split <;> simp
    all_goals simp [Reading.accept]
  · simp [Reading.accept]
  · simp [Reading.accept]

theorem Reading.inProduct_accept (value : Rat) (s : Reading) : (s.accept value).InProduct := by
  cases h : s.accept value with
  | expecting total product op => exact absurd h (Reading.accept_ne_expecting value s _ _ _)
  | holding | stuck => trivial

/-- Only an operator leads to where a term has to follow. -/
theorem Reading.eq_operator_of_next {s : Reading} {node : Node} {total product : Rat}
    {op : Operator} (h : s.next point node = .expecting total product op) :
    node = .operator op := by
  cases hvalue : node.valueAt point with
  | some v =>
    rw [Reading.next_of_valueAt point hvalue] at h
    exact absurd h (Reading.accept_ne_expecting v _ _ _ _)
  | none => cases s <;> cases node <;> simp_all [Reading.next]

/-- The operator behind which reading stands is the last thing that was read. -/
theorem Sequence.operator_of_read {s : Reading} {nodes : List Node} {total product : Rat} {op : Operator}
    (h : Sequence.read point s nodes = .expecting total product op) (hne : nodes ≠ []) :
    .operator op ∈ nodes := by
  obtain ⟨pre, last, rfl⟩ := (List.eq_nil_or_concat nodes).resolve_left hne
  rw [List.concat_eq_append, Sequence.read_append, Sequence.read_cons, Sequence.read_nil] at h
  simp [Reading.eq_operator_of_next point h]

theorem Reading.inProduct_next (s : Reading) (node : Node)
    (h : ∀ op, node = .operator op → op.bindsTighter = true) :
    (s.next point node).InProduct := by
  cases hvalue : node.valueAt point with
  | some value =>
    rw [Reading.next_of_valueAt point hvalue]
    exact Reading.inProduct_accept value s
  | none => cases s <;> cases node <;> simp_all [Reading.next, Reading.InProduct]

/-- Reading goes on in the same way when everything read so far is scaled, as long as only
products and quotients follow, and in any case when it is only moved. -/
theorem Sequence.read_within (total factor : Rat) (s : Reading) (nodes : List Node)
    (h : factor = 1 ∨ s.InProduct ∧ Sequence.IsProduct nodes) :
    Sequence.read point (s.within total factor) nodes =
      (Sequence.read point s nodes).within total factor := by
  induction nodes generalizing s with
  | nil => rfl
  | cons node rest ih =>
    rw [Sequence.read_cons, Sequence.read_cons,
      Reading.next_within point total factor s node (h.imp_right And.left)]
    refine ih _ (h.imp_right fun hproduct => ⟨?_, fun op hop => hproduct.2 op (.tail _ hop)⟩)
    exact Reading.inProduct_next point s node fun op hop => hproduct.2 op (hop ▸ .head _)

/-- The sum of the summands before the present one. -/
def Reading.total : Reading → Rat
  | .expecting total _ _ | .holding total _ => total
  | .stuck => 0

theorem Reading.total_next (s : Reading) (node : Node) (h : s.InProduct) (htotal : s.total = 0) :
    (s.next point node).total = 0 := by
  cases hvalue : node.valueAt point with
  | some value =>
    rw [Reading.next_of_valueAt point hvalue]
    rcases s with ⟨_, _, op⟩ | _ | _
    · cases op with
      | add | subtract => cases h
      | multiply => exact htotal
      | divide =>
        rw [Reading.accept]
        split
        · exact htotal
        · rfl
    · rfl
    · rfl
  | none => cases s <;> cases node <;> simp_all [Reading.next, Reading.total]

/-- Within a product nothing is added to the sum before it. -/
theorem Sequence.total_read (s : Reading) (nodes : List Node) (h : Sequence.IsProduct nodes)
    (hs : s.InProduct) (htotal : s.total = 0) : (Sequence.read point s nodes).total = 0 := by
  induction nodes generalizing s with
  | nil => exact htotal
  | cons node rest ih =>
    refine ih _ (fun op hop => h op (.tail _ hop)) ?_ (Reading.total_next point s node hs htotal)
    exact Reading.inProduct_next point s node fun op hop => h op (hop ▸ .head _)

theorem Sequence.total_read_start {nodes : List Node} (h : Sequence.IsProduct nodes) :
    (Sequence.read point .start nodes).total = 0 := by
  cases nodes with
  | nil => rfl
  | cons node rest =>
    have hrest : Sequence.IsProduct rest := fun op hop => h op (.tail _ hop)
    rw [Sequence.read_cons, Reading.start]
    cases hnode : node.valueAt point with
    | none => rw [Reading.next_of_none point hnode, Sequence.read_stuck, Reading.total]
    | some value =>
      rw [Reading.next_of_valueAt point hnode]
      exact Sequence.total_read point _ rest hrest trivial (add_zero 0)

/-- A product is read like one term with its value, except behind a division. -/
theorem Sequence.read_product {part : List Node} (h : Sequence.IsProduct part) {value : Rat}
    (hvalue : Sequence.valueAt point part = some value) (total product : Rat) {op : Operator}
    (hop : op ≠ .divide) :
    Sequence.read point (.expecting total product op) part =
      (Reading.expecting total product op).accept value := by
  cases part with
  | nil => simp [Sequence.valueAt] at hvalue
  | cons node rest =>
    have hrest : Sequence.IsProduct rest := fun op hop => h op (.tail _ hop)
    cases hnode : node.valueAt point with
    | none => simp [Sequence.valueAt, hnode] at hvalue
    | some first =>
      obtain ⟨t, p, hread, rfl⟩ := (Sequence.valueAt_eq_some_iff point _ _).1 hvalue
      have ht : t = 0 := by
        have htotal := Sequence.total_read_start point h
        rwa [hread] at htotal
      rw [Sequence.read_cons, Reading.next_of_valueAt point hnode] at hread ⊢
      simp only [Reading.start, Reading.accept, add_zero] at hread
      -- What stands before the product becomes a frame around its first term.
      have hwithin (frame factor : Rat) :
          Sequence.read point (.holding frame (factor * first)) rest =
            .holding frame (factor * (t + p)) := by
        have := Sequence.read_within point frame factor (.holding 0 first) rest
          (.inr ⟨trivial, hrest⟩)
        simpa [hread, Reading.within, ht] using this
      cases op with
      | add => simpa [Reading.accept] using hwithin (total + product) 1
      | subtract => simpa [Reading.accept] using hwithin (total + product) (-1)
      | multiply => exact hwithin total product
      | divide => exact absurd rfl hop

end

end OneUnknown
