import OneUnknown.Proofs.Fit
import OneUnknown.Proofs.Letters
/-!
# From what a pass gives to what it was given

A pass does not mend anything: if what it gives is fit, then so was what it was given.  This is so
because a part of an equation is left out only after it has been evaluated, or where nothing stands
between two `+`.

* `Sequence.Retraced`: some nodes in place of others, wherever they stand;
* `Sequence.SideRetraced`: a side in place of another one;
* `Sequence.retraced_quotient`, `Sequence.sideRetraced_dividedBy`: division by a number;
* `Sides.retraced_withoutFraction`: a fraction that is cleared;
* `Sequence.retraced_multiplied`: products of groups.
-/

namespace OneUnknown

/-- Nodes that may take the place of others: they are prepared, and where they are fit the others
were fit. -/
structure Sequence.Retraced (fits : Prop) (nodes out : List Node) : Prop where
  prepared : Sequence.IsPrepared fits out
  fills : ∀ before after, Sequence.Fills Node.IsFit out before after →
    Sequence.Fills Node.IsFit nodes before after

/-- The same for whole sides. -/
structure Sequence.SideRetraced (fits : Prop) (side out : List Node) : Prop where
  prepared : Sequence.IsPrepared fits out
  isSum : Sequence.IsSum Node.IsFit out → Sequence.IsSum Node.IsFit side

variable {fits : Prop}

namespace Sequence

variable {nodes out : List Node} {node : Node}

/-- What ends in a term takes its slot. -/
theorem Fills.last {fit : Node → Prop} {pre : List Node} {before after : Slot}
    (h : Fills fit (pre ++ [node]) before after) (hterm : node.isTerm = true) :
    after = .taken ∧ fit node := by
  obtain ⟨between, -, hlast⟩ := append_iff.1 h
  exact hlast.single_cases hterm

/-- What follows a `*` begins with a factor. -/
theorem Fills.of_multiply {fit : Node → Prop} (left : List Node) {right : List Node}
    {before after : Slot} (h : Fills fit (left ++ .operator .multiply :: right) before after) :
    Fills fit right .due after := by
  obtain ⟨between, -, hright⟩ := append_iff.1 h
  cases hright with
  | term hterm => cases hterm
  | tight _ hrest => exact hrest

theorem Fills.single_of_due {fit : Node → Prop} {after : Slot} (h : Fills fit [node] .due after) :
    after = .taken ∧ node.isTerm = true ∧ fit node := by
  cases h with
  | term hterm hfit hrest => cases hrest; exact ⟨rfl, hterm, hfit⟩
  | add hbefore => exact absurd rfl hbefore

namespace Retraced

theorem refl (h : IsPrepared fits nodes) : Retraced fits nodes nodes := ⟨h, fun _ _ h => h⟩

theorem append {left left' right right' : List Node} (hleft : Retraced fits left left')
    (hright : Retraced fits right right') : Retraced fits (left ++ right) (left' ++ right') where
  prepared := isPrepared_append.2 ⟨hleft.prepared, hright.prepared⟩
  fills := by
    intro before after h
    obtain ⟨between, hl, hr⟩ := Fills.append_iff.1 h
    exact (hleft.fills _ _ hl).append (hright.fills _ _ hr)

theorem cons {rest rest' : List Node} {node' : Node} (hnode : Retraced fits [node] [node'])
    (hrest : Retraced fits rest rest') : Retraced fits (node :: rest) (node' :: rest') :=
  hnode.append hrest

/-- A term is given back if the nodes in its place take its slot and say that it is fit. -/
theorem of_term (hterm : node.isTerm = true) (hprepared : IsPrepared fits out)
    (h : ∀ before after, Fills Node.IsFit out before after → after = .taken ∧ node.IsFit) :
    Retraced fits [node] out where
  prepared := hprepared
  fills := by
    intro before after hout
    obtain ⟨rfl, hfit⟩ := h before after hout
    exact .single hterm hfit

/-- One term in place of another. -/
theorem single {node' : Node} (hterm : node.isTerm = true) (hterm' : node'.isTerm = true)
    (hprepared : node'.IsPrepared fits) (hfit : node'.IsFit → node.IsFit) :
    Retraced fits [node] [node'] :=
  .of_term hterm ⟨hprepared, trivial⟩ fun _ _ h => (h.single_cases hterm').imp_right hfit

/-- A list that ends in a term in place of one term. -/
theorem of_last (pre : List Node) {node' : Node} (hterm : node.isTerm = true)
    (hterm' : node'.isTerm = true) (hprepared : IsPrepared fits (pre ++ [node']))
    (hfit : node'.IsFit → node.IsFit) : Retraced fits [node] (pre ++ [node']) :=
  .of_term hterm hprepared fun _ _ h => (h.last hterm').imp_right hfit

theorem side (h : Retraced fits nodes out) : SideRetraced fits nodes out where
  prepared := h.prepared
  isSum := fun ⟨hfills, hafter⟩ => ⟨h.fills _ _ hfills, hafter⟩

end Retraced

namespace SideRetraced

theorem refl (h : IsPrepared fits nodes) : SideRetraced fits nodes nodes := ⟨h, id⟩

theorem trans {out' : List Node} (h : SideRetraced fits nodes out)
    (h' : SideRetraced fits out out') : SideRetraced fits nodes out' :=
  ⟨h'.prepared, fun hsum => h.isSum (h'.isSum hsum)⟩

/-- A side that is put together from parts, in which its summands can be found again. -/
theorem of_parts {side : List Node} {parts : List (List Node)}
    (hprepared : ∀ part ∈ parts, IsPrepared fits part)
    (h : (∀ part ∈ parts, IsSum Node.IsFit part) →
      ∀ part ∈ summands side, IsSum Node.IsFit part) : SideRetraced fits side (join parts) where
  prepared := isPrepared_join hprepared
  isSum := fun hsum => .of_summands (h fun _ hpart => hsum.of_join hpart)

/-- A side whose summands are changed one by one. -/
theorem of_forall₂ {side : List Node} {parts : List (List Node)}
    (h : List.Forall₂ (Retraced fits) (summands side) parts) :
    SideRetraced fits side (join parts) := by
  refine .of_parts (fun part hpart => ?_) fun hparts part hpart => ?_
  · obtain ⟨old, hold⟩ := exists_of_forall₂ h hpart
    exact hold.prepared
  · obtain ⟨new, hnew, hretraced⟩ := exists_right_of_forall₂ h hpart
    exact hretraced.side.isSum (hparts new hnew)

theorem of_map {side : List Node} {change : List Node → List Node}
    (h : ∀ part ∈ summands side, Retraced fits part (change part)) :
    SideRetraced fits side (join ((summands side).map change)) :=
  .of_forall₂ (List.forall₂_map_right_iff.2 (List.forall₂_same.2 h))

end SideRetraced

end Sequence

/-! ## The other sign -/

theorem Sequence.retraced_negatedAfter {nodes : List Node}
    (h : ∀ node ∈ nodes, Sequence.Retraced fits [node] [node.negated])
    (hprepared : Sequence.IsPrepared fits nodes) (previous : Option Node) :
    Sequence.Retraced fits nodes (Sequence.negatedAfter previous nodes) := by
  induction nodes generalizing previous with
  | nil => exact .refl trivial
  | cons node rest ih =>
    have hrest := ih (fun n hn => h n (.tail _ hn)) hprepared.2 (some node)
    rw [Sequence.negatedAfter]
    split
    · exact .cons (h node (.head _)) hrest
    · exact .cons (.refl ⟨hprepared.1, trivial⟩) hrest

theorem Sequence.retraced_negated_node {node : Node} (h : node.IsPrepared fits) :
    Sequence.Retraced fits [node] [node.negated] := by
  induction node using Node.nested_induction with
  | group letter n p =>
    refine .single rfl rfl h fun hfit => ?_
    cases letter with
    | none => exact .number (Node.isFit_number.1 hfit)
    | some name => exact .variable name n p
  | paren b p negative =>
    exact .single rfl rfl h fun hfit => Node.isFit_paren.2 (Node.isFit_paren.1 hfit)
  | fraction t b iht =>
    have htop := Sequence.retraced_negatedAfter
      (fun n hn => iht n hn (Sequence.isPrepared_iff.1 h.1 n hn)) h.1 none
    refine .single rfl rfl ⟨htop.prepared, h.2⟩ fun hfit => ?_
    obtain ⟨ht, hb⟩ := Node.isFit_fraction.1 hfit
    exact Node.isFit_fraction.2 ⟨htop.side.isSum ht, hb⟩
  | operator op => exact .refl ⟨h, trivial⟩
  | relation r => exact h.elim

theorem Sequence.retraced_negated {nodes : List Node} (h : Sequence.IsPrepared fits nodes) :
    Sequence.Retraced fits nodes (Sequence.negated nodes) :=
  Sequence.retraced_negatedAfter
    (fun n hn => Sequence.retraced_negated_node (Sequence.isPrepared_iff.1 h n hn)) h none

theorem Sequence.retraced_negatedSummand {part : List Node} (h : Sequence.IsPrepared fits part) :
    Sequence.Retraced fits part (Sequence.negatedSummand part) := by
  cases part with
  | nil => exact .refl trivial
  | cons node rest => exact .cons (Sequence.retraced_negated_node h.1) (.refl h.2)

/-! ## Quotients -/

theorem Sequence.isPrepared_asFactor {nodes : List Node} (h : Sequence.IsPrepared fits nodes) :
    (Sequence.asFactor nodes).IsPrepared fits := by
  unfold Sequence.asFactor
  split
  · exact h.1
  · exact ⟨h, isCleanPower_nil⟩

/-- What is fit as one factor is fit as a sum. -/
theorem Sequence.isSum_of_asFactor {nodes : List Node}
    (hterm : (Sequence.asFactor nodes).isTerm = true) (h : (Sequence.asFactor nodes).IsFit) :
    Sequence.IsSum Node.IsFit nodes := by
  unfold Sequence.asFactor at hterm h
  split at h
  · exact .single hterm h
  · exact (Node.isFit_paren.1 h).1

theorem isPrepared_remainingPower {exponent : Nat} {letter : Option Char} (hletter : letter = none)
    (n : Number) : (Node.group letter n (remainingPower exponent)).IsPrepared fits := by
  subst hletter
  refine ⟨?_, fun h => by cases h⟩
  rw [remainingPower]
  split
  · exact isCleanPower_nil
  · exact isCleanPower_number _

section

variable {divisor : Rat}

theorem Group.isFit_of_value {g : Group} {value : Rat} (h : g.value = .ok value) :
    g.toNode.IsFit := by
  obtain ⟨letter, n, p⟩ := g
  unfold Group.value at h
  split at h
  · cases h
  · rename_i hletter
    obtain rfl : letter = none := by simpa using hletter
    split at h
    · rename_i hempty
      exact .number (.inl (List.isEmpty_iff.1 hempty))
    · obtain ⟨exponent, hexponent, -⟩ := Except.bind_eq_ok.1 h
      exact .number (.inr ⟨exponent, hexponent⟩)

theorem Sequence.retraced_scaledQuotient {node : Node} (hterm : node.isTerm = true)
    (h : node.IsPrepared fits) : Sequence.Retraced fits [node] (scaledQuotient divisor node) := by
  rcases scaledQuotient_cases divisor node with ⟨g, value, rfl, hvalue, heq⟩ | heq <;> rw [heq]
  · exact .single hterm rfl (Node.isPrepared_constant _) fun _ => Group.isFit_of_value hvalue
  · exact .of_last [Node.constant divisor⁻¹, .operator .multiply] hterm hterm
      ⟨Node.isPrepared_constant _, .inr rfl, h, trivial⟩ id

theorem Sequence.retraced_powerQuotient {n : Number} {p : List Node}
    (h : (Node.group none n p).IsPrepared fits) :
    Sequence.Retraced fits [.group none n p] (powerQuotient divisor n p) := by
  rcases powerQuotient_cases divisor n p with
    heq | ⟨hpower, heq⟩ | ⟨exponent, divided, -, hpower, hdivided, heq⟩ <;> rw [heq]
  · exact Sequence.retraced_scaledQuotient rfl h
  · exact .single rfl rfl (Node.isPrepared_constant _)
      fun _ => .number (.of_positiveIntegerPower? hpower)
  · have hfit : (Node.group none n p).IsFit := .number (.of_positiveIntegerPower? hpower)
    have hremaining : (Node.group none (Number.ofRat |n.value|)
        (remainingPower (exponent - 1))).IsPrepared fits := isPrepared_remainingPower rfl _
    have hretraced : Sequence.Retraced fits [.group none n p] divided := by
      rcases hdivided with ⟨rfl, -⟩ | rfl
      · exact .single rfl rfl hremaining fun _ => hfit
      · exact .of_last [Node.constant (|n.value| / divisor), .operator .multiply] rfl rfl
          ⟨Node.isPrepared_constant _, .inr rfl, hremaining, trivial⟩ fun _ => hfit
    split
    · have hnegated := Sequence.retraced_negatedSummand hretraced.prepared
      exact ⟨hnegated.prepared, fun _ _ h => hretraced.fills _ _ (hnegated.fills _ _ h)⟩
    · exact hretraced

theorem Sequence.retraced_parenQuotient {divided body p : List Node} {negative : Bool}
    (h : (Node.paren body p negative).IsPrepared fits)
    (hdivided : Sequence.SideRetraced fits body divided) :
    Sequence.Retraced fits [.paren body p negative]
      (parenQuotient divisor divided body p negative) := by
  rcases parenQuotient_cases divisor divided body p negative with
    heq | ⟨hpower, heq⟩ | ⟨exponent, remaining, -, hpower, hremaining, heq⟩ <;> rw [heq]
  · exact Sequence.retraced_scaledQuotient rfl h
  · exact .single rfl rfl ⟨hdivided.prepared, isCleanPower_nil⟩ fun hfit =>
      Node.isFit_paren.2 ⟨hdivided.isSum (Node.isFit_paren.1 hfit).1,
        hpower.elim .inl IsFitPower.of_positiveIntegerPower?⟩
  · have hfactor := Sequence.isPrepared_asFactor hdivided.prepared
    have hquotient : (if negative then (Sequence.asFactor divided).negated
        else Sequence.asFactor divided).IsPrepared fits := by
      split
      · exact (Sequence.retraced_negated_node hfactor).prepared.1
      · exact hfactor
    have hprepared : remaining.IsPrepared fits := by
      rcases hremaining with ⟨-, rfl⟩ | rfl
      · exact Sequence.isPrepared_asFactor h.1
      · have hpower : (Node.group none Number.zero (remainingPower (exponent - 1))).IsPrepared fits :=
          isPrepared_remainingPower rfl _
        exact ⟨h.1, hpower.1⟩
    -- The second factor holds what the parenthesis held.
    refine .of_term rfl ⟨hquotient, .inr rfl, hprepared, trivial⟩ fun before after hout => ?_
    obtain ⟨hafter, hterm, hfit⟩ := (hout.of_multiply [_]).single_of_due
    refine ⟨hafter, Node.isFit_paren.2 ⟨?_, .of_positiveIntegerPower? hpower⟩⟩
    rcases hremaining with ⟨-, rfl⟩ | rfl
    · exact Sequence.isSum_of_asFactor hterm hfit
    · exact (Node.isFit_paren.1 hfit).1

theorem Sequence.sideRetraced_sumQuotient {nodes : List Node}
    (hprepared : Sequence.IsPrepared fits nodes)
    (h : ∀ node ∈ nodes, node.isTerm = true →
      Sequence.Retraced fits [node] (node.quotient divisor)) :
    Sequence.SideRetraced fits nodes
      (sumQuotient divisor (Sequence.quotients divisor nodes)) := by
  rw [sumQuotient, Sequence.quotients_eq_map, Sequence.summandsWith_map, List.map_map]
  refine .of_map fun part hpart => ?_
  have hpartPrepared := hprepared.of_mem_summands hpart
  rcases productQuotient_cases divisor part with ⟨pre, node, post, rfl, hterm, heq⟩ | ⟨-, heq⟩
  · have hmem : node ∈ nodes := (Sequence.mem_of_mem_summands hpart (by simp)).1
    obtain ⟨hpre, -, hpost⟩ := Sequence.isPrepared_append.1 hpartPrepared
    rw [Function.comp_apply, heq, List.append_assoc]
    exact (Sequence.Retraced.refl hpre).append ((h node hmem hterm).append (.refl hpost))
  · rw [Function.comp_apply, heq]
    exact .refl hpartPrepared

/-- The quotient of a term is fit only if the term is. -/
theorem Sequence.retraced_quotient {node : Node} (hterm : node.isTerm = true)
    (h : node.IsPrepared fits) : Sequence.Retraced fits [node] (node.quotient divisor) := by
  have hside {nodes : List Node}
      (ih : ∀ node ∈ nodes, node.isTerm = true → node.IsPrepared fits →
        Sequence.Retraced fits [node] (node.quotient divisor))
      (h : Sequence.IsPrepared fits nodes) : Sequence.SideRetraced fits nodes
        (sumQuotient divisor (Sequence.quotients divisor nodes)) :=
    Sequence.sideRetraced_sumQuotient h
      fun n hn hterm => ih n hn hterm (Sequence.isPrepared_iff.1 h n hn)
  induction node using Node.nested_induction with
  | group letter n p =>
    rw [Node.quotient]
    split
    · rename_i hcase
      refine .single rfl rfl ⟨h.1, h.2⟩ fun hfit => ?_
      cases letter with
      | none => exact .number (Node.isFit_number.1 hfit)
      | some name => exact .variable name n p
    · rename_i hcase
      obtain ⟨rfl, -⟩ : letter = none ∧ p ≠ [] := by simpa using hcase
      exact Sequence.retraced_powerQuotient h
  | paren b p negative ihb =>
    exact Sequence.retraced_parenQuotient h (hside (fun n hn => ihb n hn) h.1)
  | fraction t b iht =>
    have htop := hside (fun n hn => iht n hn) h.1
    refine .single rfl rfl ⟨htop.prepared, h.2⟩ fun hfit => ?_
    obtain ⟨ht, hb⟩ := Node.isFit_fraction.1 hfit
    exact Node.isFit_fraction.2 ⟨htop.isSum ht, hb⟩
  | operator op => cases hterm
  | relation r => cases hterm

theorem Sequence.sideRetraced_dividedBy {side : List Node} (h : Sequence.IsPrepared fits side) :
    Sequence.SideRetraced fits side (Sequence.dividedBy divisor side) :=
  Sequence.sideRetraced_sumQuotient h fun _ hnode hterm =>
    Sequence.retraced_quotient hterm (Sequence.isPrepared_iff.1 h _ hnode)

end

/-! ## Fractions -/

theorem Sequence.retraced_scaledSummand {factor : Rat} {part : List Node}
    (h : Sequence.IsPrepared fits part) :
    Sequence.Retraced fits part (scaledSummand factor part) := by
  cases part with
  | nil => exact .refl trivial
  | cons node rest =>
    rcases scaledSummand_cons factor node rest with ⟨letter, n, p, rfl, hcase, heq⟩ | heq
    · rw [heq]
      refine .cons (.single rfl rfl ⟨h.1.1, h.1.2⟩ fun hfit => ?_) (.refl h.2)
      cases letter with
      | none => exact .number (Node.isFit_number.1 hfit)
      | some name => exact .variable name n p
    · rw [heq]
      have hfirst :
          Sequence.Retraced fits [node] [Node.constant factor, .operator .multiply, node] := by
        refine ⟨⟨Node.isPrepared_constant _, .inr rfl, h.1, trivial⟩, fun before after hout => ?_⟩
        obtain ⟨rfl, hterm, hfit⟩ := (hout.of_multiply [Node.constant factor]).single_of_due
        exact .single hterm hfit
      exact hfirst.append (.refl h.2)

/-- A fraction whose divisor has been cancelled gives back the fraction: the denominator has a value
other than zero, and what was cancelled was a factor of the numerator. -/
theorem reduceFraction_retraced {limit : Nat} {top bottom : List Node} {reduced : ReducedFraction}
    (h : reduceFraction limit top bottom = .ok reduced)
    (hprepared : (Node.fraction top bottom).IsPrepared fits) :
    Sequence.IsPrepared fits reduced.numerator ∧
      (Sequence.IsSum Node.IsFit reduced.numerator → (Node.fraction top bottom).IsFit) := by
  obtain ⟨signed, positive, hsigned, hreduced⟩ := reduceFraction_cases h
  have hsides : Sequence.SideRetraced fits top signed :=
    signedFraction_induction hsigned (.refl hprepared.1)
      (fun value hvalue => ⟨⟨Node.isPrepared_constant value, trivial⟩,
        fun _ => Sequence.isSum_of_evaluate hprepared.1 hvalue⟩)
      fun _ hnodes => hnodes.trans (Sequence.retraced_negated hnodes.prepared).side
  obtain ⟨-, denominator, -, -, hdenominator, hzero, -⟩ := signedFraction_cases hsigned
  have hfit (hsum : Sequence.IsSum Node.IsFit signed) : (Node.fraction top bottom).IsFit := by
    refine Node.isFit_fraction.2 ⟨hsides.isSum hsum,
      Sequence.isSum_of_evaluate hprepared.2 hdenominator, fun _ hvalue => hzero ?_⟩
    rw [Sequence.valueAt_of_evaluate _ hdenominator] at hvalue
    exact Option.some.inj hvalue
  rcases hreduced with rfl | ⟨common, -, rfl⟩
  · exact ⟨hsides.prepared, hfit⟩
  · have hdivided : Sequence.SideRetraced fits signed (Sequence.dividedBy (common : Rat) signed) :=
      Sequence.sideRetraced_dividedBy hsides.prepared
    exact ⟨hdivided.prepared, fun hsum => hfit (hdivided.isSum hsum)⟩

/-- A lone term is the only summand. -/
theorem Sequence.summands_singleton {node : Node} (hterm : node.isTerm = true) :
    Sequence.summands [node] = [[node]] := by
  have hadd : node.isOperator .add = false := by cases node <;> first | rfl | cases hterm
  rw [Sequence.summands, List.splitOnP_eq_singleton (by simpa using hadd)]
  rfl

theorem Sequence.join_singleton (node : Node) : Sequence.join [[node]] = [node] := by
  simp [Sequence.join]

/-- A lone term is replaced by its quotient. -/
theorem Sequence.dividedBy_singleton {divisor : Rat} {node node' : Node}
    (hterm : node.isTerm = true) (hquotient : node.quotient divisor = [node']) :
    Sequence.dividedBy divisor [node] = [node'] := by
  rw [Sequence.dividedBy, sumQuotient, Sequence.quotients_eq_map, Sequence.summandsWith_map,
    List.map_map, Sequence.summands_singleton hterm, List.map_singleton, Function.comp_apply]
  rcases productQuotient_cases divisor [node] with ⟨pre, first, post, hpart, -, heq⟩ | ⟨hnone, -⟩
  · obtain ⟨rfl, rfl, rfl⟩ : pre = [] ∧ first = node ∧ post = [] := by
      cases pre <;> simp_all
    rw [heq, hquotient]
    exact Sequence.join_singleton node'
  · rw [hnone node (.head _)] at hterm
    cases hterm

/-- A number is divided as it stands. -/
theorem Sequence.dividedBy_number (divisor : Rat) (n : Number) :
    Sequence.dividedBy divisor [.group none n []] =
      [.group none (Number.ofRat (n.value / divisor)) []] :=
  Sequence.dividedBy_singleton rfl (by simp [Node.quotient])

/-- The numerator that is left is no lone operator. -/
theorem isTerm_asFactor_of_reduceFraction {limit : Nat} {top bottom : List Node}
    {reduced : ReducedFraction} (h : reduceFraction limit top bottom = .ok reduced) :
    (Sequence.asFactor reduced.numerator).isTerm = true := by
  obtain ⟨signed, positive, hsigned, hreduced⟩ := reduceFraction_cases h
  obtain ⟨numerator, denominator, -, ⟨htop, rfl⟩ | ⟨-, value, -, rfl⟩, -, -, rfl, -⟩ :=
    signedFraction_cases hsigned
  · obtain ⟨c, hc⟩ := Sequence.hasVariable_iff_exists_mem.1 htop
    refine Node.isTerm_of_mem_mentions (c := c) (Sequence.mem_mentions_asFactor.2 ?_)
    exact (mem_mentions_reduceFraction h).2 (Node.mem_mentions_fraction.2 (.inl hc))
  · -- A numerator without variables is a number now.
    obtain ⟨n, hn⟩ : ∃ n, (if denominator < 0 then Sequence.negated [Node.constant value]
        else [Node.constant value]) = [.group none n []] := by
      split <;> exact ⟨_, rfl⟩
    rw [hn] at hreduced
    rcases hreduced with rfl | ⟨common, -, rfl⟩
    · rfl
    · rw [Sequence.dividedBy_number]
      rfl

namespace FractionSpot

variable {spot : FractionSpot}

/-- A term in place of another one in its summand, while the other summands are changed. -/
theorem forall₂_fill (change : List Node → List Node) {old new : Node}
    (hchange : ∀ part, Sequence.IsPrepared fits part → Sequence.Retraced fits part (change part))
    (hnode : Sequence.Retraced fits [old] [new])
    (hprepared : ∀ part ∈ spot.fill old, Sequence.IsPrepared fits part) :
    List.Forall₂ (Sequence.Retraced fits) (spot.fill old)
      (spot.before.map change ++ (spot.leading ++ new :: spot.trailing) :: spot.after.map change) := by
  have hmap (parts : List (List Node)) (hparts : ∀ part ∈ parts, part ∈ spot.fill old) :
      List.Forall₂ (Sequence.Retraced fits) parts (parts.map change) :=
    List.forall₂_map_right_iff.2 (List.forall₂_same.2 fun part hpart =>
      hchange part (hprepared part (hparts part hpart)))
  have hown := Sequence.isPrepared_append.1 (hprepared (spot.leading ++ old :: spot.trailing)
    (List.mem_append_right _ (.head _)))
  refine List.rel_append (hmap _ fun part hpart => List.mem_append_left _ hpart) (.cons ?_
    (hmap _ fun part hpart => List.mem_append_right _ (.tail _ hpart)))
  exact (Sequence.Retraced.refl hown.1).append (.cons hnode (.refl hown.2.2))

/-- One step on a fraction. -/
theorem retraced_cleared {limit : Nat} {side other out otherOut : List Node}
    (h : spot.cleared limit (Sequence.summands other) = .ok (out, otherOut))
    (hspot : Sequence.summands side = spot.fill (.fraction spot.top spot.bottom))
    (hside : Sequence.IsPrepared fits side) (hother : Sequence.IsPrepared fits other) :
    Sequence.SideRetraced fits side out ∧ Sequence.SideRetraced fits other otherOut := by
  have hparts : ∀ part ∈ spot.fill (.fraction spot.top spot.bottom), Sequence.IsPrepared fits part :=
    fun part hpart => hside.of_mem_summands (hspot ▸ hpart)
  have hfraction : (Node.fraction spot.top spot.bottom).IsPrepared fits :=
    (Sequence.isPrepared_append.1 (hparts (spot.leading ++ _ :: spot.trailing)
      (List.mem_append_right _ (.head _)))).2.1
  obtain ⟨reduced, hreduced, hcases⟩ := cleared_cases h
  obtain ⟨hprepared, hfit⟩ := reduceFraction_retraced hreduced hfraction
  have hfactor : Sequence.Retraced fits [.fraction spot.top spot.bottom]
      [Sequence.asFactor reduced.numerator] :=
    .single rfl (isTerm_asFactor_of_reduceFraction hreduced) (Sequence.isPrepared_asFactor hprepared)
      fun hnode => hfit (Sequence.isSum_of_asFactor (isTerm_asFactor_of_reduceFraction hreduced) hnode)
  rcases hcases with ⟨node, hnode, rfl, rfl⟩ | ⟨rfl, rfl⟩
  · have hnew : Sequence.Retraced fits [.fraction spot.top spot.bottom] [node] := by
      rcases hnode with ⟨-, rfl⟩ | ⟨-, rfl⟩
      · exact hfactor
      · exact .single rfl rfl ⟨hprepared, Node.isPrepared_constant _, trivial⟩
          fun hnode => hfit (Node.isFit_fraction.1 hnode).1
    refine ⟨.of_forall₂ (hspot ▸ ?_), .of_forall₂ (List.forall₂_same.2 fun part hpart =>
      .refl (hother.of_mem_summands hpart))⟩
    simpa [fill] using forall₂_fill id (fun _ => .refl) hnew hparts
  · exact ⟨.of_forall₂
        (hspot ▸ forall₂_fill _ (fun _ => Sequence.retraced_scaledSummand) hfactor hparts),
      .of_map fun part hpart => Sequence.retraced_scaledSummand (hother.of_mem_summands hpart)⟩

end FractionSpot

/-! ## Products -/

theorem Group.isFitPower_of_exponent? {g : Group} {exponent : Rat} (h : g.exponent? = some exponent) :
    IsFitPower g.power := by
  unfold Group.exponent? at h
  split at h
  · rename_i hempty
    exact .inl (List.isEmpty_iff.1 hempty)
  · split at h
    · cases h
    · split at h
      · rename_i value hvalue
        exact .inr ⟨value, hvalue⟩
      · cases h

/-- A group that is resolved is fit, and its variable keeps its exponent. -/
theorem Group.isFit_of_resolved? {g resolved : Group} (h : g.resolved? = some resolved) :
    g.toNode.IsFit ∧ (resolved.letter.isSome = true → resolved = g) := by
  rcases Group.resolved?_cases h with ⟨-, value, hvalue, rfl⟩ | ⟨hpower, rfl⟩
  · exact ⟨Group.isFit_of_value hvalue, fun hletter => by cases hletter⟩
  · refine ⟨?_, fun _ => rfl⟩
    obtain ⟨_ | name, n, p⟩ := resolved
    · exact .number (.inl (hpower rfl))
    · exact .variable name n p

/-- The product of two groups: both are fit, and its exponent is one of theirs, or it has been
computed from values of both. -/
theorem Group.multiply_retraced {left right product : Group}
    (h : left.multiply right = .ok (some product)) (hleft : left.toNode.IsPrepared fits)
    (hright : right.toNode.IsPrepared fits) :
    left.toNode.IsFit ∧ right.toNode.IsFit ∧ product.toNode.IsPrepared fits := by
  obtain ⟨l, r, hl, hr, hcases⟩ := Group.multiply_cases h
  obtain ⟨hlfit, hlsame⟩ := Group.isFit_of_resolved? hl
  obtain ⟨hrfit, hrsame⟩ := Group.isFit_of_resolved? hr
  refine ⟨hlfit, hrfit, ?_⟩
  rcases hcases with ⟨-, -, rfl⟩ | ⟨-, hll, rfl⟩ | ⟨-, hrl, rfl⟩ |
    ⟨name, p, q, hll, -, hp, -, rfl⟩
  · exact Node.isPrepared_constant _
  · obtain rfl := hlsame (Option.isSome_iff_ne_none.2 hll)
    exact ⟨hleft.1, hleft.2⟩
  · obtain rfl := hrsame (Option.isSome_iff_ne_none.2 hrl)
    exact ⟨hright.1, hright.2⟩
  · obtain rfl := hlsame (by simp [hll])
    have hfits : fits := (hleft.2 (by simp [hll])).1 (Group.isFitPower_of_exponent? hp)
    exact ⟨isCleanPower_powerOf _, fun _ => iff_of_true (isFitPower_powerOf _) hfits⟩

/-- The product of two nodes in place of both. -/
theorem Sequence.retraced_multiply {left right product : Node}
    (h : left.multiply right = .ok (some product)) (hleft : left.IsPrepared fits)
    (hright : right.IsPrepared fits) :
    Sequence.Retraced fits [left, .operator .multiply, right] [product] := by
  obtain ⟨l, r, g, hl, hr, hproduct, rfl⟩ := Node.multiply_eq_some h
  rw [← Group.toNode_of_asGroup? hl] at hleft ⊢
  rw [← Group.toNode_of_asGroup? hr] at hright ⊢
  obtain ⟨hlfit, hrfit, hprepared⟩ := Group.multiply_retraced hproduct hleft hright
  refine ⟨⟨hprepared, trivial⟩, fun before after hout => ?_⟩
  obtain ⟨rfl, -⟩ := hout.single_cases rfl
  exact .term rfl hlfit (.multiply (.single rfl hrfit))

theorem ProductsFolded.retraced {held : Node} {rest out : List Node}
    (h : ProductsFolded held rest out) (hprepared : Sequence.IsPrepared fits (held :: rest)) :
    Sequence.Retraced fits (held :: rest) out := by
  induction h with
  | nil => exact .refl hprepared
  | @fold held next product rest out hproduct _ ih =>
    obtain ⟨hheld, -, hnext, hrest⟩ := hprepared
    have hfolded := Sequence.retraced_multiply hproduct hheld hnext
    have hwhole := hfolded.append (.refl hrest)
    have htail := ih hwhole.prepared
    exact ⟨htail.prepared, fun _ _ hout => hwhole.fills _ _ (htail.fills _ _ hout)⟩
  | next _ _ ih => exact .cons (.refl ⟨hprepared.1, trivial⟩) (ih hprepared.2)

theorem Sequence.retraced_multiplied {nodes out : List Node}
    (h : Sequence.multiplied nodes = .ok out) (hprepared : Sequence.IsPrepared fits nodes) :
    Sequence.Retraced fits nodes out := by
  cases nodes with
  | nil =>
    obtain rfl := Except.ok.inj h
    exact .refl hprepared
  | cons node rest => exact (ProductsFolded.of_multipliedAfter h).retraced hprepared

end OneUnknown
