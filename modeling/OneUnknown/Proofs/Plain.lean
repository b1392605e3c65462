import OneUnknown.Proofs.Sums
import OneUnknown.Expression.Sign
import OneUnknown.Evaluation
/-!
# Plain sequences

The sequences that are rewritten have no relation inside, no `-` operator, and positive integers
as their exponents.  Divisions by `/` are there at first, and are fractions afterwards.

* `WholePower`: a power that is not written or a positive integer, with its exponent;
* `Node.IsPlain` and `Sequence.IsPlain`: plain nodes and sequences;
* `Node.valueAt_group`, `Node.valueAt_number`, `Node.valueAt_paren`: their values;
* `Node.Turns`: a term whose value changes its sign with the term;
* `Sequence.valueAt_negated_of_firsts`, `Sequence.valueAt_negated`: a sequence with the other sign.
-/

namespace OneUnknown

/-! ## Whole powers -/

/-- A power that stands for the positive integer `exponent`. -/
inductive WholePower : List Node → Nat → Prop where
  | one : WholePower [] 1
  | written (n : Number) (exponent : Nat) (hvalue : n.value = exponent) (hpos : 0 < exponent) :
      WholePower [.group none n []] exponent

namespace WholePower

theorem pos {p : List Node} {exponent : Nat} (h : WholePower p exponent) : 0 < exponent := by
  cases h with
  | one => exact Nat.one_pos
  | written _ _ _ hpos => exact hpos

/-- The value of the exponent. -/
theorem valueAt {p : List Node} {exponent : Nat} (h : WholePower p exponent)
    (point : Char → Rat) :
    (if p.isEmpty then some 1 else Sequence.valueAt point p) = some (exponent : Rat) := by
  cases h with
  | one => rfl
  | written n exponent hvalue hpos => simp [Node.valueAt, hvalue]

/-- An exponent as a number. -/
theorem constant {exponent : Nat} (hpos : 0 < exponent) :
    WholePower [Node.constant (exponent : Rat)] exponent :=
  .written _ exponent (Number.value_ofRat _) hpos

theorem evaluate {n : Number} :
    Sequence.evaluate [.group none n []] = .ok n.value := rfl

/-- The exponent as it is read off by the passes, which refuse the largest ones. -/
theorem positiveIntegerPower?_eq {p : List Node} {exponent e : Nat} (h : WholePower p exponent)
    (he : (if p.isEmpty then some 1 else positiveIntegerPower? p) = some e) : e = exponent := by
  cases h with
  | one => simpa using he.symm
  | written n exponent hvalue hpos =>
    have hsome : positiveIntegerPower? [.group none n []] = some e := he
    simp only [positiveIntegerPower?, WholePower.evaluate, hvalue] at hsome
    split at hsome
    · cases hsome
    · split at hsome
      · simpa using hsome.symm
      · cases hsome

end WholePower

/-- The powers that are read off are what multiplying gives. -/
theorem Rational.wholePower_eq (base : Rat) (n : Nat) : Rational.wholePower base n = base ^ n := by
  rw [Rational.wholePower]
  split
  · rename_i h
    rw [h, zero_pow_eq]
  · split
    · rename_i h
      rw [h, one_pow]
    · split
      · rename_i h
        rw [h]
        split
        · rename_i heven
          exact (Even.neg_one_pow (Nat.even_iff.2 heven)).symm
        · rename_i hodd
          exact (Odd.neg_one_pow (Nat.odd_iff.2 (by omega))).symm
      · rfl

/-! ## Plain nodes -/

mutual
/-- A node without relations and differences inside, whose exponents are positive integers and
whose only variable is `x`.  With `division`, it may have `/` operators outside of fractions. -/
def Node.IsPlain (x : Char) (division : Bool) : Node → Prop
  | .group letter _ p => (∀ name, letter = some name → name = x) ∧ ∃ exponent, WholePower p exponent
  | .paren b p _ => Sequence.IsPlain x division b ∧ ∃ exponent, WholePower p exponent
  | .fraction t b => Sequence.IsPlain x false t ∧ Sequence.IsPlain x false b
  | .operator op => op ≠ .subtract ∧ (op = .divide → division = true)
  | .relation _ => False

/-- A sequence of plain nodes. -/
def Sequence.IsPlain (x : Char) (division : Bool) : List Node → Prop
  | [] => True
  | n :: ns => n.IsPlain x division ∧ Sequence.IsPlain x division ns
end

theorem Node.isPlain_number {x : Char} {division : Bool} {p : List Node} {exponent : Nat}
    (h : WholePower p exponent) (n : Number) : (Node.group none n p).IsPlain x division := by
  refine ⟨?_, exponent, h⟩
  rintro _ ⟨⟩

theorem Node.isPlain_constant {x : Char} {division : Bool} (value : Rat) :
    (Node.constant value).IsPlain x division :=
  Node.isPlain_number .one _

namespace Sequence

variable {x : Char} {division : Bool}

theorem isPlain_iff {nodes : List Node} :
    IsPlain x division nodes ↔ ∀ node ∈ nodes, node.IsPlain x division := by
  induction nodes with
  | nil => simp [IsPlain]
  | cons node rest ih => simp [IsPlain, ih]

theorem isPlain_append {left right : List Node} :
    IsPlain x division (left ++ right) ↔ IsPlain x division left ∧ IsPlain x division right := by
  simp only [isPlain_iff, List.mem_append, or_imp, forall_and]

theorem isPlain_constant (x : Char) (division : Bool) (value : Rat) :
    IsPlain x division [Node.constant value] :=
  ⟨Node.isPlain_constant value, trivial⟩

/-- Summands of plain nodes, joined. -/
theorem isPlain_join {parts : List (List Node)}
    (h : ∀ part ∈ parts, IsPlain x division part) : IsPlain x division (join parts) := by
  refine isPlain_iff.2 fun node hnode => ?_
  rcases mem_join hnode with ⟨part, hpart, hmem⟩ | rfl | rfl
  · exact isPlain_iff.1 (h part hpart) node hmem
  · simp [Node.IsPlain]
  · exact Node.isPlain_constant 0

theorem isPlain_of_mem_summands {side part : List Node} (h : IsPlain x division side)
    (hpart : part ∈ summands side) : IsPlain x division part :=
  isPlain_iff.2 fun _ hnode => isPlain_iff.1 h _ (mem_of_mem_summands hpart hnode).1

/-- Without divisions, the summands are products. -/
theorem isProduct_of_mem_summands {side part : List Node} (h : IsPlain x false side)
    (hpart : part ∈ summands side) : IsProduct part := by
  intro op hop
  have hmem := mem_of_mem_summands hpart hop
  have hplain := isPlain_iff.1 h _ hmem.1
  cases op <;> simp_all [Node.IsPlain, Operator.bindsTighter]

theorem divide_not_mem {nodes : List Node} (h : IsPlain x false nodes) :
    .operator .divide ∉ nodes := fun hmem => by
  simpa [Node.IsPlain] using isPlain_iff.1 h _ hmem

end Sequence

/-- An equation between plain sides. -/
def Sides.IsPlain (x : Char) (division : Bool) (s : Sides) : Prop :=
  Sequence.IsPlain x division s.left ∧ Sequence.IsPlain x division s.right

/-! ## Values -/

/-- A number with an exponent; the sign stays outside of the power. -/
def Number.signedPower (n : Number) (exponent : Nat) : Rat :=
  if n.value < 0 then -(|n.value| ^ exponent) else |n.value| ^ exponent

section

variable (point : Char → Rat) {p : List Node} {exponent : Nat}

/-- The value of an exponent; one that is not written stands for one. -/
def Sequence.exponentAt (p : List Node) : Option Rat :=
  if p.isEmpty then some 1 else Sequence.valueAt point p

theorem Node.valueAt_number_of_exponent (h : Sequence.exponentAt point p = some (exponent : Rat))
    (n : Number) : (Node.group none n p).valueAt point = some (n.signedPower exponent) := by
  rw [Sequence.exponentAt] at h
  simp only [Node.valueAt, h, Option.bind_some, Number.powerValue?,
    Rational.exactPower?_natCast, Rational.magnitude_eq_abs, Option.map_some]
  rfl

theorem Node.valueAt_paren_of_exponent (h : Sequence.exponentAt point p = some (exponent : Rat))
    (b : List Node) (negative : Bool) :
    (Node.paren b p negative).valueAt point =
      (Sequence.valueAt point b).map fun content =>
        if negative then -(content ^ exponent) else content ^ exponent := by
  rw [Sequence.exponentAt] at h
  rw [Node.valueAt, h]
  cases Sequence.valueAt point b <;> simp [Rational.exactPower?_natCast]

theorem Node.valueAt_group (h : WholePower p exponent) (name : Char) (n : Number) :
    (Node.group (some name) n p).valueAt point = some (n.value * point name ^ exponent) := by
  rw [Node.valueAt, h.valueAt]
  simp [Rational.exactPower?_natCast]

theorem Node.valueAt_number (h : WholePower p exponent) (n : Number) :
    (Node.group none n p).valueAt point = some (n.signedPower exponent) :=
  Node.valueAt_number_of_exponent point (h.valueAt point) n

theorem Node.valueAt_paren (h : WholePower p exponent) (b : List Node) (negative : Bool) :
    (Node.paren b p negative).valueAt point =
      (Sequence.valueAt point b).map fun content =>
        if negative then -(content ^ exponent) else content ^ exponent :=
  Node.valueAt_paren_of_exponent point (h.valueAt point) b negative

theorem Node.valueAt_variable_eq_some {name : Char} {n : Number} {value : Rat} :
    (Node.group (some name) n p).valueAt point = some value ↔
      ∃ e power, Sequence.exponentAt point p = some e ∧
        Rational.exactPower? (point name) e = some power ∧ n.value * power = value := by
  rw [Node.valueAt, ← Sequence.exponentAt]
  cases Sequence.exponentAt point p <;> simp

theorem Node.valueAt_number_eq_some {n : Number} {value : Rat} :
    (Node.group none n p).valueAt point = some value ↔
      ∃ e, Sequence.exponentAt point p = some e ∧ n.powerValue? e = some value := by
  rw [Node.valueAt, ← Sequence.exponentAt]
  cases Sequence.exponentAt point p <;> simp

theorem Node.valueAt_paren_eq_some {b : List Node} {negative : Bool} {value : Rat} :
    (Node.paren b p negative).valueAt point = some value ↔
      ∃ content e power, Sequence.valueAt point b = some content ∧
        Sequence.exponentAt point p = some e ∧ Rational.exactPower? content e = some power ∧
          (if negative then -power else power) = value := by
  rw [Node.valueAt, ← Sequence.exponentAt]
  cases Sequence.valueAt point b <;> cases Sequence.exponentAt point p <;> simp

theorem Node.valueAt_fraction_eq_some {t b : List Node} {value : Rat} :
    (Node.fraction t b).valueAt point = some value ↔
      ∃ top bottom, Sequence.valueAt point t = some top ∧
        Sequence.valueAt point b = some bottom ∧ bottom ≠ 0 ∧ top / bottom = value := by
  cases ht : Sequence.valueAt point t <;> cases hb : Sequence.valueAt point b <;>
    simp [Node.valueAt, ht, hb, Rational.quotient?]

@[simp] theorem Number.signedPower_one (n : Number) : n.signedPower 1 = n.value := by
  rw [Number.signedPower, pow_one]
  split
  · rename_i h
    rw [abs_of_neg h, neg_neg]
  · rename_i h
    exact abs_of_nonneg (not_lt.1 h)

theorem Number.signedPower_negated (n : Number) (hpos : 0 < exponent) :
    n.negated.signedPower exponent = -n.signedPower exponent := by
  rw [Number.signedPower, Number.signedPower, Number.value_negated, abs_neg]
  rcases lt_trichotomy n.value 0 with h | h | h
  · simp [h, h.le]
  · simp [h, hpos.ne']
  · simp [h, h.le]

/-! ## The other sign -/

theorem Node.isTerm_negated (node : Node) : node.negated.isTerm = node.isTerm := by
  cases node <;> rfl

/-- What holds of the first factor of every summand; `first` says whether a summand begins. -/
def Sequence.Firsts (P : Node → Prop) (first : Bool) : List Node → Prop
  | [] => True
  | .operator op :: rest => Sequence.Firsts P (!op.bindsTighter) rest
  | node :: rest => (first = true → P node) ∧ Sequence.Firsts P false rest

theorem Sequence.Firsts.of_forall {P : Node → Prop} {nodes : List Node} (first : Bool)
    (h : ∀ node ∈ nodes, P node) : Sequence.Firsts P first nodes := by
  induction nodes generalizing first with
  | nil => trivial
  | cons node rest ih =>
    have hrest (next : Bool) := ih next fun n hn => h n (.tail _ hn)
    cases node with
    | operator op => exact hrest _
    | _ => exact ⟨fun _ => h _ (.head _), hrest _⟩

/-- Changing the sign of a term changes the sign of its value. -/
def Node.Turns (node : Node) : Prop :=
  ∀ v, node.valueAt point = some v → node.negated.valueAt point = some (-v)

/-- A state of reading and what the sign pass knows there: the node before, and whether a summand
begins. -/
def Reading.Follows (previous : Option Node) (first : Bool) : Reading → Prop
  | .expecting _ _ op =>
    (previous = none ∧ op = .add ∨ previous = some (.operator op)) ∧ first = !op.bindsTighter
  | .holding .. | .stuck => True

theorem Reading.next_negated {s : Reading} {node : Node} {previous : Option Node} {first : Bool}
    (hprevious : s.Follows previous first)
    (hnegated : first = true → node.Turns point)
    (hnext : s.next point node ≠ .stuck) :
    (s.within 0 (-1)).next point (if node.startsSummand previous then node.negated else node) =
      (s.next point node).within 0 (-1) := by
  cases hvalue : node.valueAt point with
  | none =>
    cases s <;> cases node <;>
      simp_all [Reading.next, Reading.within, Node.startsSummand]
  | some v =>
    rw [Reading.next_of_valueAt point hvalue] at hnext ⊢
    cases s with
    | holding | stuck => exact absurd rfl hnext
    | expecting total product op =>
      obtain ⟨hop, hfirst⟩ := hprevious
      have hstarts : node.startsSummand previous = !op.bindsTighter := by
        rcases hop with ⟨rfl, rfl⟩ | rfl <;> cases node <;>
          simp_all [Node.startsSummand, Node.valueAt, Operator.bindsTighter]
      cases op with
      | add | subtract =>
        have hv := hnegated hfirst v hvalue
        simp [hstarts, Operator.bindsTighter, Reading.next_of_valueAt point hv, Reading.within,
          Reading.accept, add_comm]
      | multiply | divide =>
        rw [hstarts, Operator.bindsTighter]
        simp only [Bool.not_true, Bool.false_eq_true, ite_false]
        rw [Reading.next_of_valueAt point hvalue, Reading.accept_within]
        exact .inr rfl

/-- Negating every summand negates what is read. -/
theorem Sequence.read_negatedAfter {s : Reading} {previous : Option Node} {first : Bool}
    {nodes : List Node} (hprevious : s.Follows previous first)
    (hnegated : Sequence.Firsts (Node.Turns point) first nodes)
    (hread : Sequence.read point s nodes ≠ .stuck) :
    Sequence.read point (s.within 0 (-1)) (Sequence.negatedAfter previous nodes) =
      (Sequence.read point s nodes).within 0 (-1) := by
  induction nodes generalizing s previous first with
  | nil => rfl
  | cons node rest ih =>
    have hnext : s.next point node ≠ .stuck := fun hstuck => hread (by simp [hstuck])
    -- A summand begins behind an operator only.
    obtain ⟨hnode, next, hrest, hfollows⟩ : (first = true → node.Turns point) ∧
        ∃ next, Sequence.Firsts (Node.Turns point) next rest ∧
          (s.next point node).Follows (some node) next := by
      cases node with
      | operator op =>
        refine ⟨fun _ v hv => by simp [Node.valueAt] at hv, _, hnegated, ?_⟩
        cases hs : s.next point (.operator op) with
        | expecting =>
          obtain rfl := Node.operator.inj (Reading.eq_operator_of_next point hs)
          exact ⟨.inr rfl, rfl⟩
        | holding | stuck => trivial
      | _ =>
        refine ⟨hnegated.1, false, hnegated.2, ?_⟩
        unfold Reading.Follows
        split
        · rename_i hs
          cases Reading.eq_operator_of_next point hs
        all_goals trivial
    rw [Sequence.negatedAfter, Sequence.read_cons, Sequence.read_cons,
      Reading.next_negated point hprevious hnode hnext]
    exact ih hfollows hrest hread

/-- A sequence with every summand negated has the opposite value, if the first factor of every
summand changes its value with its sign. -/
theorem Sequence.valueAt_negated_of_firsts {nodes : List Node}
    (hnegated : Sequence.Firsts (Node.Turns point) true nodes)
    {value : Rat} (h : Sequence.valueAt point nodes = some value) :
    Sequence.valueAt point (Sequence.negated nodes) = some (-value) := by
  obtain ⟨total, product, hread, rfl⟩ := (Sequence.valueAt_eq_some_iff point _ _).1 h
  have hstart : Reading.start.within 0 (-1) = Reading.start := by
    simp [Reading.start, Reading.within]
  have hfollows : Reading.start.Follows none true := ⟨.inl ⟨rfl, rfl⟩, rfl⟩
  have := Sequence.read_negatedAfter point hfollows hnegated (by simp [hread])
  rw [hstart, hread] at this
  rw [Sequence.valueAt_eq, Sequence.negated, this]
  simp [Reading.within, Reading.result, add_comm]

theorem Node.turns_fraction {t b : List Node}
    (h : Sequence.Firsts (Node.Turns point) true t) : (Node.fraction t b).Turns point := by
  intro v hv
  obtain ⟨top, bottom, ht, hb, hne, rfl⟩ := (Node.valueAt_fraction_eq_some point).1 hv
  exact (Node.valueAt_fraction_eq_some point).2
    ⟨-top, bottom, Sequence.valueAt_negated_of_firsts point h ht, hb, hne, neg_div bottom top⟩

variable {x : Char} {division : Bool}

/-- The sign of a parenthesis is applied last. -/
theorem Node.turns_paren (b p : List Node) (negative : Bool) :
    (Node.paren b p negative).Turns point := by
  intro v hv
  obtain ⟨content, e, power, hcontent, he, hpower, rfl⟩ := (Node.valueAt_paren_eq_some point).1 hv
  refine (Node.valueAt_paren_eq_some point).2 ⟨content, e, power, hcontent, he, hpower, ?_⟩
  cases negative <;> simp

/-- The number in front of a variable is a factor. -/
theorem Node.turns_variable (name : Char) (n : Number) (p : List Node) :
    (Node.group (some name) n p).Turns point := by
  intro v hv
  obtain ⟨e, power, he, hpower, rfl⟩ := (Node.valueAt_variable_eq_some point).1 hv
  exact (Node.valueAt_variable_eq_some point).2 ⟨e, power, he, hpower, by simp⟩

theorem Number.powerValue?_negated {n : Number} {e v : Rat} (h : e = 1 ∨ n.value ≠ 0)
    (hv : n.powerValue? e = some v) : n.negated.powerValue? e = some (-v) := by
  rcases h with rfl | hn
  · simpa using hv
  · obtain ⟨power, hpower, rfl⟩ := Option.map_eq_some_iff.1 hv
    rw [Rational.magnitude_eq_abs] at hpower
    rcases lt_or_gt_of_ne hn with h | h <;>
      simp [Number.powerValue?, Rational.magnitude_eq_abs, hpower, h, h.not_gt]

/-- The sign of a number stays outside of its power, unless the number is zero. -/
theorem Node.turns_number {n : Number} {p : List Node} (h : p = [] ∨ n.value ≠ 0) :
    (Node.group none n p).Turns point := by
  intro v hv
  obtain ⟨e, he, hpower⟩ := (Node.valueAt_number_eq_some point).1 hv
  refine (Node.valueAt_number_eq_some point).2
    ⟨e, he, Number.powerValue?_negated (h.imp_left ?_) hpower⟩
  rintro rfl
  simpa [Sequence.exponentAt, eq_comm] using he

/-- A plain term with the other sign has the opposite value. -/
theorem Node.valueAt_negated {node : Node} (hplain : node.IsPlain x division) {value : Rat}
    (h : node.valueAt point = some value) : node.negated.valueAt point = some (-value) := by
  suffices hturns : node.Turns point from hturns value h
  clear h
  induction node using Node.nested_induction generalizing division with
  | group letter n p =>
    obtain ⟨-, exponent, hp⟩ := hplain
    cases letter with
    | some name => exact Node.turns_variable point name n p
    | none =>
      intro v hv
      rw [Node.valueAt_number point hp] at hv
      rw [Node.negated, Node.valueAt_number point hp, Number.signedPower_negated n hp.pos]
      simpa using hv
  | paren b p negative => exact Node.turns_paren point b p negative
  | fraction t b iht =>
    exact Node.turns_fraction point (.of_forall true fun node hnode =>
      iht node hnode (Sequence.isPlain_iff.1 hplain.1 node hnode))
  | operator op => exact fun v hv => by simp [Node.valueAt] at hv
  | relation r => exact fun v hv => by simp [Node.valueAt] at hv

/-- A plain sequence with every summand negated has the opposite value. -/
theorem Sequence.valueAt_negated {nodes : List Node}
    (hplain : Sequence.IsPlain x division nodes) {value : Rat}
    (h : Sequence.valueAt point nodes = some value) :
    Sequence.valueAt point (Sequence.negated nodes) = some (-value) :=
  Sequence.valueAt_negated_of_firsts point (.of_forall true fun node hnode _ hv =>
    Node.valueAt_negated point (Sequence.isPlain_iff.1 hplain node hnode) hv) h

/-- A product changes its sign with its first factor. -/
theorem Sequence.valueAt_negatedSummand_of_turns {part : List Node}
    (hproduct : Sequence.IsProduct part) (hturns : ∀ first ∈ part.head?, first.Turns point)
    {value : Rat} (h : Sequence.valueAt point part = some value) :
    Sequence.valueAt point (Sequence.negatedSummand part) = some (-value) := by
  cases part with
  | nil => simp [Sequence.valueAt] at h
  | cons node rest =>
    rcases Sequence.valueAt_of_mem point h (.head _) with ⟨v, hv⟩ | ⟨op, rfl⟩
    · have hnode := hturns node rfl v hv
      have hfactor : Sequence.IsProduct [node.negated] := by
        intro op hop
        rw [← List.mem_singleton.1 hop] at hnode
        simp [Node.valueAt] at hnode
      simpa [Sequence.negatedSummand] using
        Sequence.valueAt_exchange point [] (-1) hproduct hfactor (by simp) hv
          (by simpa using hnode) h
    · simp [Sequence.valueAt, Node.valueAt] at h

theorem Sequence.valueAt_negatedSummand {part : List Node}
    (hplain : Sequence.IsPlain x division part) (hproduct : Sequence.IsProduct part) {value : Rat}
    (h : Sequence.valueAt point part = some value) :
    Sequence.valueAt point (Sequence.negatedSummand part) = some (-value) := by
  refine Sequence.valueAt_negatedSummand_of_turns point hproduct (fun first hfirst _ hv => ?_) h
  exact Node.valueAt_negated point
    (Sequence.isPlain_iff.1 hplain first (List.mem_of_mem_head? hfirst)) hv

theorem Sequence.isPlain_negatedAfter {nodes : List Node}
    (hnegated : ∀ node ∈ nodes, node.negated.IsPlain x division)
    (hplain : Sequence.IsPlain x division nodes) (previous : Option Node) :
    Sequence.IsPlain x division (Sequence.negatedAfter previous nodes) := by
  induction nodes generalizing previous with
  | nil => trivial
  | cons node rest ih =>
    refine ⟨?_, ih (fun n hn => hnegated n (.tail _ hn)) hplain.2 _⟩
    split
    · exact hnegated node (.head _)
    · exact hplain.1

theorem Node.isPlain_negated {node : Node} (h : node.IsPlain x division) :
    node.negated.IsPlain x division := by
  induction node using Node.nested_induction generalizing division with
  | group letter n p => exact h
  | paren b p negative => exact h
  | fraction t b iht =>
    refine ⟨Sequence.isPlain_negatedAfter (fun node hnode => ?_) h.1 none, h.2⟩
    exact iht node hnode (Sequence.isPlain_iff.1 h.1 node hnode)
  | operator op => exact h
  | relation r => exact h

theorem Sequence.isPlain_negated {nodes : List Node} (h : Sequence.IsPlain x division nodes) :
    Sequence.IsPlain x division (Sequence.negated nodes) :=
  Sequence.isPlain_negatedAfter
    (fun node hnode => Node.isPlain_negated (Sequence.isPlain_iff.1 h node hnode)) h none

theorem Sequence.isPlain_negatedSummand {part : List Node}
    (h : Sequence.IsPlain x division part) :
    Sequence.IsPlain x division (Sequence.negatedSummand part) := by
  cases part with
  | nil => trivial
  | cons node rest => exact ⟨Node.isPlain_negated h.1, h.2⟩

end

end OneUnknown
