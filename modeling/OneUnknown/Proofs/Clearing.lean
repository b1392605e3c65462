import OneUnknown.Proofs.EvenDivision
import OneUnknown.Proofs.FractionClearing
import OneUnknown.Proofs.Overflow
/-!
# Clearing fractions ends

A step on a fraction may only make its denominator smaller, may bring a fraction of its numerator to
light, and may write down a part of the numerator twice, where a power is divided.  What goes down
with every step is `Sides.clearingWork`: every fraction counts its denominator and what is nested in
its numerator, but of the nodes of a numerator only the one with the most work counts, so that a copy
of it adds nothing.

* `Node.clearingWork`, `Sequence.deepestWork`, `Sequence.clearingWork`: the measure of a node, of the
  nodes inside of one, and of a side;
* `Node.deepestWork_quotient_le`, `Sequence.deepestWork_dividedBy_le`: division does not add work;
* `Rational.natAbs_num_div_lt`, `reduceFraction_lowers`: a denominator that is cancelled goes down;
* `Sides.withoutFraction_progress`: one step;
* `Sides.exists_clearing_ends`, `Sides.clearing_ends`: step after step.
-/

namespace OneUnknown

/-! ## The measure -/

/-- The size of a denominator that has a value. -/
def denominatorWork (bottom : List Node) : Nat :=
  match Sequence.evaluate bottom with
  | .ok value => value.num.natAbs
  | .error _ => 0

mutual
/-- An upper bound for the steps that are spent on a node, and on what comes to light in it. -/
def Node.clearingWork : Node → Nat
  | .paren b _ _ => Sequence.deepestWork b
  | .fraction t b => Sequence.deepestWork t + denominatorWork b + 1
  | .group .. | .operator _ | .relation _ => 0

/-- The most work among the nodes of a sequence. -/
def Sequence.deepestWork : List Node → Nat
  | [] => 0
  | n :: ns => max n.clearingWork (Sequence.deepestWork ns)
end

/-- The work on all nodes of a side. -/
def Sequence.clearingWork (nodes : List Node) : Nat := (nodes.map Node.clearingWork).sum

/-- The work on both sides of an equation. -/
def Sides.clearingWork (s : Sides) : Nat :=
  Sequence.clearingWork s.left + Sequence.clearingWork s.right

namespace Sequence

variable {bound : Nat} {nodes : List Node}

theorem deepestWork_le : deepestWork nodes ≤ bound ↔ ∀ node ∈ nodes, node.clearingWork ≤ bound := by
  induction nodes with
  | nil => simp [deepestWork]
  | cons node rest ih => simp [deepestWork, ih]

theorem clearingWork_le_deepest {node : Node} (h : node ∈ nodes) :
    node.clearingWork ≤ deepestWork nodes :=
  deepestWork_le.1 (Nat.le_refl _) node h

@[simp] theorem deepestWork_constant (value : Rat) : deepestWork [Node.constant value] = 0 := by
  simp [deepestWork, Node.constant, Group.toNode, Node.clearingWork]

@[simp] theorem clearingWork_nil : clearingWork [] = 0 := rfl

@[simp] theorem clearingWork_cons (node : Node) (rest : List Node) :
    clearingWork (node :: rest) = node.clearingWork + clearingWork rest := by
  simp [clearingWork]

@[simp] theorem clearingWork_append (left right : List Node) :
    clearingWork (left ++ right) = clearingWork left + clearingWork right := by
  simp [clearingWork]

theorem clearingWork_asFactor_le (nodes : List Node) :
    (asFactor nodes).clearingWork ≤ deepestWork nodes := by
  unfold asFactor
  split
  · exact clearingWork_le_deepest (.head _)
  · exact Nat.le_refl _

/-! ## Sums -/

/-- Empty summands, which are dropped, have no work. -/
theorem sum_clearingWork_kept (parts : List (List Node)) :
    ((parts.filter fun part => !part.isEmpty).map clearingWork).sum =
      (parts.map clearingWork).sum := by
  induction parts with
  | nil => rfl
  | cons part rest ih => cases part <;> simp [ih]

/-- The summands have the work of their sum. -/
theorem sum_clearingWork_summands (side : List Node) :
    ((summands side).map clearingWork).sum = clearingWork side := by
  rw [summands, sum_clearingWork_kept]
  induction side using splitOnP_induction (Node.isOperator .add) with
  | single part hpart => simp [List.splitOnP_eq_singleton hpart]
  | cons part separator rest hpart hseparator ih =>
    obtain rfl := eq_operator_of_isOperator hseparator
    rw [List.splitOnP_append_cons_of_forall_mem hpart _ hseparator, List.map_cons, List.sum_cons, ih]
    simp [Node.clearingWork]

theorem clearingWork_join (parts : List (List Node)) :
    clearingWork (join parts) = (parts.map clearingWork).sum := by
  rw [← sum_clearingWork_kept]
  simp only [join]
  generalize (parts.filter fun part => !part.isEmpty) = kept
  induction kept with
  | nil => rfl
  | cons part rest ih =>
    cases rest with
    | nil => simp
    | cons second rest =>
      rw [if_neg (by simp)] at ih ⊢
      rw [List.intercalate_cons_of_ne_nil (by simp), List.append_assoc, List.singleton_append,
        clearingWork_append, clearingWork_cons, ih]
      simp [Node.clearingWork]

end Sequence

/-! ## The other sign -/

theorem Sequence.deepestWork_negatedAfter {nodes : List Node}
    (hnodes : ∀ node ∈ nodes, node.negated.clearingWork = node.clearingWork)
    (previous : Option Node) :
    Sequence.deepestWork (Sequence.negatedAfter previous nodes) = Sequence.deepestWork nodes := by
  induction nodes generalizing previous with
  | nil => rfl
  | cons node rest ih =>
    have hnode : (if node.startsSummand previous then node.negated else node).clearingWork =
        node.clearingWork := by
      split
      · exact hnodes node (.head _)
      · rfl
    rw [Sequence.negatedAfter, Sequence.deepestWork, hnode,
      ih (fun n hn => hnodes n (.tail _ hn)), Sequence.deepestWork]

@[simp] theorem Node.clearingWork_negated (node : Node) :
    node.negated.clearingWork = node.clearingWork := by
  induction node using Node.nested_induction with
  | fraction t b iht =>
    rw [Node.negated, Node.clearingWork, Node.clearingWork, Sequence.deepestWork_negatedAfter iht]
  | _ => rw [Node.negated] <;> simp only [Node.clearingWork]

theorem Sequence.deepestWork_negated (nodes : List Node) :
    Sequence.deepestWork (Sequence.negated nodes) = Sequence.deepestWork nodes :=
  Sequence.deepestWork_negatedAfter (fun _ _ => Node.clearingWork_negated _) none

/-! ## Quotients -/

section

variable {divisor : Rat}

/-- The quotient of a sum has no more work than the sum, if this is so for its terms. -/
theorem Sequence.deepestWork_sumQuotient_le {nodes : List Node}
    (hquotient : ∀ node ∈ nodes,
      Sequence.deepestWork (node.quotient divisor) ≤ node.clearingWork) :
    Sequence.deepestWork (sumQuotient divisor (Sequence.quotients divisor nodes)) ≤
      Sequence.deepestWork nodes := by
  rw [sumQuotient, Sequence.quotients_eq_map, Sequence.summandsWith_map, List.map_map]
  refine Sequence.deepestWork_le.2 fun node hnode => ?_
  rcases Sequence.mem_join hnode with ⟨quotient, hquotients, hnode⟩ | rfl | rfl
  · obtain ⟨part, hpart, rfl⟩ := List.mem_map.1 hquotients
    have hold {old : Node} (hmem : old ∈ part) : old.clearingWork ≤ Sequence.deepestWork nodes :=
      Sequence.clearingWork_le_deepest (Sequence.mem_of_mem_summands hpart hmem).1
    rcases productQuotient_cases divisor part with ⟨pre, old, post, rfl, -, heq⟩ | ⟨-, heq⟩
    · rw [Function.comp_apply, heq] at hnode
      simp only [List.mem_append] at hnode
      rcases hnode with (hnode | hnode) | hnode
      · exact hold (by simp [hnode])
      · have hmem : old ∈ nodes := (Sequence.mem_of_mem_summands hpart (by simp)).1
        exact ((Sequence.clearingWork_le_deepest hnode).trans (hquotient old hmem)).trans
          (Sequence.clearingWork_le_deepest hmem)
      · exact hold (by simp [hnode])
    · rw [Function.comp_apply, heq] at hnode
      exact hold hnode
  · exact Nat.zero_le _
  · exact Nat.zero_le _

theorem deepestWork_scaledQuotient_le (node : Node) :
    Sequence.deepestWork (scaledQuotient divisor node) ≤ node.clearingWork := by
  rcases scaledQuotient_cases divisor node with ⟨g, value, -, -, heq⟩ | heq <;> rw [heq]
  · simp
  · simp [Sequence.deepestWork, Node.clearingWork, Node.constant, Group.toNode]

theorem deepestWork_powerQuotient (n : Number) (p : List Node) :
    Sequence.deepestWork (powerQuotient divisor n p) = 0 := by
  rcases powerQuotient_cases divisor n p with heq | ⟨-, heq⟩ | ⟨_, divided, -, -, hdivided, heq⟩
  · exact heq ▸ Nat.le_zero.1 (deepestWork_scaledQuotient_le _)
  · simp [heq]
  · rw [heq]
    split <;> rcases hdivided with ⟨rfl, -⟩ | rfl <;>
      simp [Sequence.deepestWork, Sequence.negatedSummand, Node.clearingWork, Node.constant, Group.toNode]

/-- The base of a power is written down again, beside its quotient. -/
theorem deepestWork_parenQuotient_le {divided body p : List Node} {negative : Bool}
    (hdivided : Sequence.deepestWork divided ≤ Sequence.deepestWork body) :
    Sequence.deepestWork (parenQuotient divisor divided body p negative) ≤
      Sequence.deepestWork body := by
  rcases parenQuotient_cases divisor divided body p negative with
    heq | ⟨-, heq⟩ | ⟨exponent, remaining, -, -, hremaining, heq⟩
  · rw [heq]
    exact deepestWork_scaledQuotient_le _
  · rw [heq]
    exact Sequence.deepestWork_le.2 (by simpa [Node.clearingWork] using hdivided)
  · have hquotient : (if negative then (Sequence.asFactor divided).negated
        else Sequence.asFactor divided).clearingWork ≤ Sequence.deepestWork body := by
      have := (Sequence.clearingWork_asFactor_le divided).trans hdivided
      split
      · rwa [Node.clearingWork_negated]
      · exact this
    have hpower : remaining.clearingWork ≤ Sequence.deepestWork body := by
      rcases hremaining with ⟨-, rfl⟩ | rfl
      · exact Sequence.clearingWork_asFactor_le body
      · exact Nat.le_refl _
    rw [heq]
    exact Sequence.deepestWork_le.2 (by simpa [Node.clearingWork] using ⟨hquotient, hpower⟩)

/-- Division does not add work, although it may write a fraction twice. -/
theorem Node.deepestWork_quotient_le (node : Node) :
    Sequence.deepestWork (node.quotient divisor) ≤ node.clearingWork := by
  induction node using Node.nested_induction with
  | group letter n p =>
    rw [Node.quotient]
    split
    · exact Nat.le_refl _
    · exact (deepestWork_powerQuotient n p).le
  | paren b p negative ihb =>
    exact deepestWork_parenQuotient_le (Sequence.deepestWork_sumQuotient_le ihb)
  | fraction t b iht =>
    have := Sequence.deepestWork_sumQuotient_le iht
    simp only [Node.quotient, Sequence.deepestWork, Node.clearingWork]
    omega
  | operator | relation => exact Nat.le_refl _

theorem Sequence.deepestWork_dividedBy_le (nodes : List Node) :
    Sequence.deepestWork (Sequence.dividedBy divisor nodes) ≤ Sequence.deepestWork nodes :=
  Sequence.deepestWork_sumQuotient_le fun node _ => node.deepestWork_quotient_le

end

/-! ## Fractions -/

/-- A divisor other than one makes a value smaller. -/
theorem Rational.natAbs_num_div_lt {value : Rat} {limit d : Nat} (hd : 1 < d) (hvalue : value ≠ 0)
    (h : (Rational.divisors value limit).Allows d) :
    (value / (d : Rat)).num.natAbs < value.num.natAbs := by
  have hne : (d : Rat) ≠ 0 := by exact_mod_cast (Nat.ne_of_gt (Nat.lt_trans Nat.one_pos hd))
  have hquotient : ((value / (d : Rat)).num : Rat) = value / (d : Rat) :=
    Rat.coe_int_num_of_den_eq_one (Rational.den_div_of_allows hd h)
  -- The value is an integer, because its quotient is one.
  have hmultiple : value = (((value / (d : Rat)).num * (d : Int) : Int) : Rat) := by
    rw [Int.cast_mul, hquotient, Int.cast_natCast, div_mul_cancel₀ _ hne]
  have hnum : value.num = (value / (d : Rat)).num * (d : Int) := by
    conv_lhs => rw [hmultiple, Rat.num_intCast]
  rw [hnum, Int.natAbs_mul, Int.natAbs_natCast]
  refine Nat.lt_mul_iff_one_lt_right ?_ |>.2 hd
  refine Int.natAbs_pos.2 fun hzero => hvalue ?_
  rw [hmultiple, hzero, Int.zero_mul, Int.cast_zero]

theorem denominatorWork_constant (value : Rat) :
    denominatorWork [Node.constant value] = value.num.natAbs := by
  rw [denominatorWork, Sequence.evaluate_constant]

theorem denominatorWork_of_evaluate {bottom : List Node} {value : Rat}
    (h : Sequence.evaluate bottom = .ok value) : denominatorWork bottom = |value|.num.natAbs := by
  rw [denominatorWork, h]
  rcases abs_choice value with habs | habs <;> simp [habs]

/-- The numerator that is left has no more work, and a denominator in which something was cancelled
is smaller. -/
theorem reduceFraction_lowers {limit : Nat} {top bottom : List Node} {reduced : ReducedFraction}
    (h : reduceFraction limit top bottom = .ok reduced) :
    Sequence.deepestWork reduced.numerator ≤ Sequence.deepestWork top ∧
      (reduced.cancelled = true →
        denominatorWork [Node.constant reduced.denominator] < denominatorWork bottom) := by
  obtain ⟨signed, positive, hsigned, hreduced⟩ := reduceFraction_cases h
  have hside : Sequence.deepestWork signed ≤ Sequence.deepestWork top :=
    signedFraction_induction (P := fun nodes => Sequence.deepestWork nodes ≤ _) hsigned
      (Nat.le_refl _) (fun value _ => by simp)
      fun nodes hnodes => by rwa [Sequence.deepestWork_negated]
  obtain ⟨-, denominator, -, -, hdenominator, hzero, -, rfl⟩ := signedFraction_cases hsigned
  rcases hreduced with rfl | ⟨common, ⟨hcommon, divisors, -, hgreatest⟩, rfl⟩
  · exact ⟨hside, fun hcancelled => nomatch hcancelled⟩
  · refine ⟨(Sequence.deepestWork_dividedBy_le signed).trans hside, fun _ => ?_⟩
    rw [denominatorWork_constant, denominatorWork_of_evaluate hdenominator]
    exact Rational.natAbs_num_div_lt hcommon (abs_ne_zero.2 hzero)
      (Divisors.allows_shared.1 (hgreatest ▸ Divisors.allows_greatest (hgreatest ▸ hcommon))).2

theorem clearingWork_scaledSummand (factor : Rat) (part : List Node) :
    Sequence.clearingWork (scaledSummand factor part) = Sequence.clearingWork part := by
  cases part with
  | nil => rfl
  | cons node rest =>
    rcases scaledSummand_cons factor node rest with ⟨letter, n, p, rfl, -, heq⟩ | heq
    · simp [heq, Node.clearingWork]
    · simp [heq, Node.clearingWork, Node.constant, Group.toNode]

namespace FractionSpot

variable {spot : FractionSpot}

/-- The work of a side, the node at the spot apart. -/
theorem sum_clearingWork_fill (node : Node) :
    ((spot.fill node).map Sequence.clearingWork).sum = node.clearingWork +
      ((spot.before.map Sequence.clearingWork).sum + Sequence.clearingWork spot.leading +
        Sequence.clearingWork spot.trailing + (spot.after.map Sequence.clearingWork).sum) := by
  simp [fill]
  omega

theorem sum_clearingWork_fillScaled (factor : Rat) (node : Node) :
    ((spot.fillScaled factor node).map Sequence.clearingWork).sum =
      ((spot.fill node).map Sequence.clearingWork).sum := by
  simp [fillScaled, fill, Function.comp_def, clearingWork_scaledSummand]

/-- Dealing with a fraction leaves less work on its side, and the same on the other. -/
theorem clearingWork_cleared {limit : Nat} {side otherSide : List Node} {other : List (List Node)}
    (h : spot.cleared limit other = .ok (side, otherSide)) :
    Sequence.clearingWork side <
        ((spot.fill (.fraction spot.top spot.bottom)).map Sequence.clearingWork).sum ∧
      Sequence.clearingWork otherSide = (other.map Sequence.clearingWork).sum := by
  obtain ⟨reduced, hreduced, hcases⟩ := cleared_cases h
  obtain ⟨hnumerator, hdenominator⟩ := reduceFraction_lowers hreduced
  have hfactor : (Sequence.asFactor reduced.numerator).clearingWork <
      (Node.fraction spot.top spot.bottom).clearingWork := by
    have := Sequence.clearingWork_asFactor_le reduced.numerator
    simp only [Node.clearingWork]
    omega
  have hfill {node : Node}
      (hnode : node.clearingWork < (Node.fraction spot.top spot.bottom).clearingWork) :
      ((spot.fill node).map Sequence.clearingWork).sum <
        ((spot.fill (.fraction spot.top spot.bottom)).map Sequence.clearingWork).sum := by
    rw [sum_clearingWork_fill, sum_clearingWork_fill]
    omega
  rcases hcases with ⟨node, ⟨-, rfl⟩ | ⟨⟨hcancelled, -⟩, rfl⟩, rfl, rfl⟩ | ⟨rfl, rfl⟩
  · exact ⟨(Sequence.clearingWork_join _).trans_lt (hfill hfactor), Sequence.clearingWork_join _⟩
  · have hlower : (Node.fraction reduced.numerator [Node.constant reduced.denominator]).clearingWork
        < (Node.fraction spot.top spot.bottom).clearingWork := by
      have := hdenominator hcancelled
      simp only [Node.clearingWork]
      omega
    exact ⟨(Sequence.clearingWork_join _).trans_lt (hfill hlower), Sequence.clearingWork_join _⟩
  · rw [Sequence.clearingWork_join, Sequence.clearingWork_join, sum_clearingWork_fillScaled]
    refine ⟨hfill hfactor, ?_⟩
    simp [Function.comp_def, clearingWork_scaledSummand]

theorem inSummand?_eq_none {part : List Node} :
    inSummand? part = none ↔ ∀ node ∈ part, node.isFraction = false := by
  induction part with
  | nil => simp [inSummand?]
  | cons node rest ih => cases node <;> simp [inSummand?, Node.isFraction, ih]

theorem inSummands?_eq_none {parts : List (List Node)} :
    inSummands? parts = none ↔ ∀ part ∈ parts, ∀ node ∈ part, node.isFraction = false := by
  induction parts with
  | nil => simp [inSummands?]
  | cons part rest ih =>
    rw [inSummands?, List.forall_mem_cons, ← inSummand?_eq_none, ← ih]
    split <;> simp_all

end FractionSpot

/-! ## Step after step -/

namespace Sides

/-- No summand of either side has a fraction among its factors. -/
def HasNoFractions (s : Sides) : Prop :=
  ∀ side ∈ [s.left, s.right], ∀ part ∈ Sequence.summands side, ∀ node ∈ part,
    node.isFraction = false

/-- A number of steps, up to the first one that halts. -/
def clearing (limit : Nat) : Nat → Sides → Except Halt Sides
  | 0, s => .ok s
  | steps + 1, s => do
    let s ← s.withoutFraction limit
    clearing limit steps s

variable {limit : Nat} {s t : Sides}

theorem HasNoFractions.withoutFraction (h : s.HasNoFractions) :
    s.withoutFraction limit = .ok s := by
  have hleft := FractionSpot.inSummands?_eq_none.2 (h s.left (by simp))
  have hright := FractionSpot.inSummands?_eq_none.2 (h s.right (by simp))
  simp [Sides.withoutFraction, hleft, hright]

theorem hasNoFractions_of_clearingWork_eq_zero (h : s.clearingWork = 0) : s.HasNoFractions := by
  have hsides : ∀ side ∈ [s.left, s.right], Sequence.clearingWork side = 0 := by
    simpa using Nat.add_eq_zero_iff.1 h
  intro side hside part hpart node hnode
  have hwork : node.clearingWork = 0 := List.sum_eq_zero_iff.1 (hsides side hside) _
    (List.mem_map_of_mem (Sequence.mem_of_mem_summands hpart hnode).1)
  cases node with
  | fraction t b => simp [Node.clearingWork] at hwork
  | _ => rfl

/-- A step leaves less work, unless there is no fraction. -/
theorem withoutFraction_progress (h : s.withoutFraction limit = .ok t) :
    s.HasNoFractions ∨ t.clearingWork < s.clearingWork := by
  rw [clearingWork, clearingWork, ← Sequence.sum_clearingWork_summands s.left,
    ← Sequence.sum_clearingWork_summands s.right]
  cases FractionCleared.of_withoutFraction h with
  | left hspot hcleared =>
    obtain ⟨hleft, hright⟩ := FractionSpot.clearingWork_cleared hcleared
    rw [← FractionSpot.inSummands?_eq_some hspot] at hleft
    exact .inr (Nat.add_lt_add_of_lt_of_le hleft hright.le)
  | right _ hspot hcleared =>
    obtain ⟨hright, hleft⟩ := FractionSpot.clearingWork_cleared hcleared
    rw [← FractionSpot.inSummands?_eq_some hspot] at hright
    exact .inr (Nat.add_lt_add_of_le_of_lt hleft.le hright)
  | none hleft hright =>
    refine .inl ?_
    simpa [HasNoFractions] using
      ⟨FractionSpot.inSummands?_eq_none.1 hleft, FractionSpot.inSummands?_eq_none.1 hright⟩

/-- Within as many steps as there is work, clearing fractions halts or leaves none; from then on a
step changes nothing. -/
theorem exists_clearing_ends (limit : Nat) (s : Sides) :
    ∃ steps ≤ s.clearingWork,
      (∃ halt : Halt, halt.IsPossible limit ∧ s.clearing limit steps = .error halt) ∨
      ∃ t, s.clearing limit steps = .ok t ∧ t.HasNoFractions ∧
        t.withoutFraction limit = .ok t := by
  induction hwork : s.clearingWork using Nat.strong_induction_on generalizing s with
  | _ work ih =>
    subst hwork
    by_cases hnone : s.HasNoFractions
    · exact ⟨0, Nat.zero_le _, .inr ⟨s, rfl, hnone, hnone.withoutFraction⟩⟩
    · cases hstep : s.withoutFraction limit with
      | error halt =>
        have hpos : 0 < s.clearingWork :=
          Nat.pos_of_ne_zero fun hzero => hnone (hasNoFractions_of_clearingWork_eq_zero hzero)
        exact ⟨1, hpos, .inl ⟨halt, haltsWithin_withoutFraction limit s halt hstep,
          by rw [clearing, hstep]; rfl⟩⟩
      | ok next =>
        have hless := (withoutFraction_progress hstep).resolve_left hnone
        obtain ⟨steps, hsteps, houtcome⟩ := ih _ hless next rfl
        refine ⟨steps + 1, by omega, ?_⟩
        rwa [clearing, hstep]

/-- Within as many steps as there is work, clearing fractions fails for a reason or leaves none, and
from then on a step changes nothing.  Otherwise the limit lies beyond the end of the search in
machine words, and a search overflows. -/
theorem clearing_ends (limit : Nat) (s : Sides) :
    ∃ steps ≤ s.clearingWork, (∃ reason, s.clearing limit steps = .error (.failed reason)) ∨
      (∃ t, s.clearing limit steps = .ok t ∧ t.HasNoFractions ∧
        t.withoutFraction limit = .ok t) ∨
      (Rational.wordSearchEnd < limit ∧ s.clearing limit steps = .error .overflow) := by
  obtain ⟨steps, hsteps, ⟨halt, hpossible, hhalt⟩ | hcleared⟩ := exists_clearing_ends limit s
  · cases hpossible with
    | failed reason => exact ⟨steps, hsteps, .inl ⟨reason, hhalt⟩⟩
    | overflow hlimit => exact ⟨steps, hsteps, .inr (.inr ⟨hlimit, hhalt⟩)⟩
  · exact ⟨steps, hsteps, .inr (.inl hcleared)⟩

/-- The first step on `x / 18446744073709551614 = 1` overflows with the largest limit, so no number
of steps fails for a reason or leaves no fraction. -/
theorem clearing_ends_overflow :
    ∃ s : Sides, s = ⟨[.fraction [.group (some 'x') (Number.ofNat 1) []]
        [Node.constant ((2 ^ 64 - 2 : Nat) : Rat)]], .equal, [Node.constant 1]⟩ ∧
      ¬∃ steps, (∃ reason, s.clearing (2 ^ 64 - 1) steps = .error (.failed reason)) ∨
        ∃ t, s.clearing (2 ^ 64 - 1) steps = .ok t ∧ t.HasNoFractions := by
  refine ⟨_, rfl, ?_⟩
  rintro ⟨_ | steps, hends⟩
  · -- Without a step the fraction is still there.
    rcases hends with ⟨reason, heq⟩ | ⟨t, heq, hnone⟩
    · cases heq
    · obtain rfl := Except.ok.inj heq
      cases hnone _ (.head _) _ (.head _) _ (.head _)
  · rw [clearing, withoutFraction_eq_overflow rfl (by decide) (by decide)] at hends
    rcases hends with ⟨reason, heq⟩ | ⟨t, heq, -⟩ <;> cases heq

end Sides

end OneUnknown
