import OneUnknown.Proofs.NormalForm
import OneUnknown.Proofs.YieldingSides
/-!
# Lone terms

The equation of a factor may be a lone fraction that is zero, and then it is as high as the product
that the factor comes from.  No such equation is a product itself: the passes keep one lone term on
the left and a number on the right until there is something lower in its place.

* `Sides.IsLone`: a wrapped term on the left and a number on the right;
* `Sides.LoneOrLower`: what may become of such an equation;
* `Sides.IsLone.pass`: one pass;
* `Sides.IsLone.isFactorable_eq_false`: it is not taken apart.
-/

namespace OneUnknown

/-- A fraction, or a parenthesis without a power. -/
def Node.IsWrapped : Node → Prop
  | .paren _ p _ => p = []
  | .fraction _ _ => True
  | _ => False

/-- An equation of a wrapped term with the unknown and a number. -/
inductive Sides.IsLone : Sides → Prop where
  | intro (node : Node) (relation : Relation) (n : Number) (hwrapped : node.IsWrapped)
      (hvariable : node.hasVariable = true) : IsLone ⟨[node], relation, [.group none n []]⟩

/-- An equation that is still one of a wrapped term and a number, or has become lower. -/
def Sides.LoneOrLower (s t : Sides) : Prop := t.IsLone ∨ t.height < s.height

theorem Node.IsWrapped.isTerm {node : Node} (h : node.IsWrapped) : node.isTerm = true := by
  cases node <;> first | rfl | exact h.elim

theorem Node.isTerm_of_hasVariable {node : Node} (h : node.hasVariable = true) :
    node.isTerm = true := by
  rw [← Sequence.hasVariable_singleton, Sequence.hasVariable_iff_exists_mem] at h
  obtain ⟨c, hc⟩ := h
  exact Node.isTerm_of_mem_mentions (by simpa using hc)

theorem Node.hasVariable_congr {node node' : Node}
    (h : ∀ c, c ∈ node'.mentions ↔ c ∈ node.mentions) : node'.hasVariable = node.hasVariable := by
  rw [← Sequence.hasVariable_singleton, ← Sequence.hasVariable_singleton, Bool.eq_iff_iff,
    Sequence.hasVariable_iff_exists_mem, Sequence.hasVariable_iff_exists_mem]
  simp [h]

section

variable {node node' : Node} {relation : Relation} {n n' : Number} {s t : Sides}

theorem Sequence.summands_number (n : Number) :
    Sequence.summands [.group none n []] = [[.group none n []]] := Sequence.summands_singleton rfl

/-- A number has no height. -/
theorem Sides.height_lone (hterm : node.isTerm = true) :
    (Sides.mk [node] relation [.group none n []]).height = node.height := by
  rw [Sides.height, Sequence.height_singleton hterm]
  exact Nat.max_zero _

/-- Another lone term with the unknown that is wrapped, too, or lower. -/
theorem Sides.loneOrLower_of_node (hterm : node.isTerm = true)
    (hvariable : node'.hasVariable = true)
    (h : node'.IsWrapped ∨ node'.height < node.height) :
    Sides.LoneOrLower ⟨[node], relation, [.group none n []]⟩
      ⟨[node'], relation, [.group none n' []]⟩ := by
  rcases h with hwrapped | hlower
  · exact .inl (.intro node' relation n' hwrapped hvariable)
  · refine .inr ?_
    rw [Sides.height_lone hterm, Sides.height_lone (Node.isTerm_of_hasVariable hvariable)]
    exact hlower

/-! ## Fractions -/

theorem FractionsWritten.eq_singleton {out : List Node} (h : FractionsWritten none [node] out) :
    ∃ node', node.withFractions = .ok node' ∧ out = [node'] := by
  cases h with
  | next _ hnode tail =>
    cases tail with
    | nil => exact ⟨_, hnode, rfl⟩

theorem Node.isWrapped_withFractions (hwrapped : node.IsWrapped)
    (h : node.withFractions = .ok node') : node'.IsWrapped := by
  cases node with
  | paren b p negative =>
    obtain ⟨body, -, rfl⟩ := Node.eq_paren_of_withFractions h
    exact hwrapped
  | fraction t b => exact Except.ok.inj h ▸ trivial
  | _ => exact hwrapped.elim

theorem Sides.IsLone.fractions {left right : List Node} (h : s.IsLone)
    (hleft : FractionsWritten none s.left left) (hright : FractionsWritten none s.right right) :
    Sides.IsLone ⟨left, s.relation, right⟩ := by
  obtain ⟨node, relation, n, hwrapped, hvariable⟩ := h
  obtain ⟨node', hnode, rfl⟩ := hleft.eq_singleton
  obtain ⟨number, hnumber, rfl⟩ := hright.eq_singleton
  obtain rfl := Except.ok.inj hnumber
  refine .intro node' relation n (Node.isWrapped_withFractions hwrapped hnode) ?_
  rw [Node.hasVariable, Node.mentions_withFractions hnode]
  exact hvariable

/-- The numerator of a lone fraction is a parenthesis, or a node that was inside of the fraction. -/
theorem isWrapped_or_lower_of_reduceFraction {limit : Nat} {top bottom : List Node}
    {reduced : ReducedFraction} (h : reduceFraction limit top bottom = .ok reduced) :
    (Sequence.asFactor reduced.numerator).IsWrapped ∨
      (Sequence.asFactor reduced.numerator).height < (Node.fraction top bottom).height := by
  have hnumerator := (reduceFraction_yields h).height
  rw [Node.height_fraction]
  unfold Sequence.asFactor
  split
  · rename_i node heq
    have hnode : node.height ≤ Sequence.height reduced.numerator :=
      Sequence.height_le_of_mem (heq ▸ .head _) 0 0
    exact .inr (by omega)
  · exact .inl rfl

theorem Sides.IsLone.withoutFraction {limit : Nat} (h : s.IsLone)
    (hout : s.withoutFraction limit = .ok t) : s.LoneOrLower t := by
  obtain ⟨node, relation, n, hwrapped, hvariable⟩ := h
  rw [Sides.withoutFraction] at hout
  simp only [Sequence.summands_singleton hwrapped.isTerm, Sequence.summands_number] at hout
  cases node with
  | paren b p negative => exact Except.ok.inj hout ▸ .inl (.intro _ relation n hwrapped hvariable)
  | fraction top bottom =>
    obtain ⟨⟨left, right⟩, hcleared, hout⟩ := Except.bind_eq_ok.1 hout
    obtain rfl := Except.pure_eq_ok.1 hout
    obtain ⟨reduced, hreduced, hcases⟩ := FractionSpot.cleared_cases hcleared
    have hfactor : (Sequence.asFactor reduced.numerator).hasVariable = true := by
      rw [Node.hasVariable_congr fun c => ?_, hvariable]
      rw [Sequence.mem_mentions_asFactor, mem_mentions_reduceFraction hreduced]
    have hnumerator : (Node.fraction reduced.numerator [Node.constant reduced.denominator]).hasVariable
        = true := by
      rw [Node.hasVariable_congr fun c => ?_, hvariable]
      rw [Node.mem_mentions_fraction, mem_mentions_reduceFraction hreduced]
      simp
    have hlower := isWrapped_or_lower_of_reduceFraction hreduced
    rcases hcases with ⟨node, ⟨-, rfl⟩ | ⟨-, rfl⟩, rfl, rfl⟩ | ⟨rfl, rfl⟩
    · exact Sides.loneOrLower_of_node rfl hfactor hlower
    · exact Sides.loneOrLower_of_node rfl hnumerator (.inl trivial)
    · exact Sides.loneOrLower_of_node rfl hfactor hlower
  | _ => exact hwrapped.elim

/-! ## Common factors -/

theorem Sides.IsLone.cancelled {limit : Nat} (h : s.IsLone) (hout : s.cancelled limit = .ok t) :
    t.IsLone := by
  obtain ⟨node, relation, n, hwrapped, hvariable⟩ := h
  rcases Sides.cancelled_cases hout with rfl | ⟨common, -, -, -, rfl⟩
  · exact .intro node relation n hwrapped hvariable
  · obtain ⟨node', hquotient, hwrapped'⟩ :
        ∃ node', node.quotient (common : Rat) = [node'] ∧ node'.IsWrapped := by
      cases node with
      | paren b p negative =>
        obtain rfl : p = [] := hwrapped
        exact ⟨_, rfl, rfl⟩
      | fraction t b => exact ⟨_, rfl, trivial⟩
      | _ => exact hwrapped.elim
    rw [Sequence.dividedBy_number, Sequence.dividedBy_singleton hwrapped.isTerm hquotient]
    refine .intro node' relation _ hwrapped' ?_
    rw [Node.hasVariable_congr fun c => ?_, hvariable]
    have hmentions : c ∈ Sequence.mentions (node.quotient (common : Rat)) ↔ c ∈ node.mentions :=
      Node.mem_mentions_quotient
    simpa [hquotient] using hmentions

/-! ## Passes that change nothing -/

theorem Sides.IsLone.multiplied (h : s.IsLone) (hout : s.mapM Sequence.multiplied = .ok t) :
    t = s := by
  cases h
  exact (Except.ok.inj hout).symm

/-- A lone term and a number are in the form that adding up like terms leads to. -/
theorem Sides.IsLone.isCollected (h : s.IsLone) : s.IsCollected := by
  obtain ⟨node, relation, n, hwrapped, -⟩ := h
  have hsides : ∀ side ∈ [[node], [.group none n []]],
      ∃ term, side = [term] ∧ Sequence.summands side = [[term]] := by
    simp [Sequence.summands_singleton hwrapped.isTerm, Sequence.summands_number]
  constructor
  · intro side hside
    obtain ⟨term, rfl, hsummands⟩ := hsides side hside
    rw [hsummands, Sequence.join_singleton]
  · intro side hside
    obtain ⟨term, rfl, hsummands⟩ := hsides side hside
    rw [hsummands]
    exact List.pairwise_singleton _ _
  · intro side hside g _ _ _ hmem
    obtain ⟨term, rfl, hsummands⟩ := hsides side hside
    rw [hsummands] at hmem ⊢
    rw [List.mem_singleton.1 hmem]
  · intro g hletter _ hmem
    obtain ⟨side, hside, hmem⟩ := Sides.mem_summands.1 hmem
    obtain ⟨term, rfl, hsummands⟩ := hsides side hside
    rw [hsummands, List.mem_singleton] at hmem
    -- Neither the wrapped term nor the number is a group with a variable.
    rcases List.mem_pair.1 (hmem ▸ hside) with heq | heq
    · obtain rfl := List.singleton_inj.1 heq
      exact hwrapped.elim
    · obtain rfl : g = ⟨none, n, []⟩ := by
        cases g
        simpa [Group.toNode] using heq
      exact absurd rfl hletter

theorem Sides.IsLone.collected (h : s.IsLone) : s.collected = s := h.isCollected.collected_eq_self

theorem Sides.IsLone.crossed {name : Char} (h : s.IsLone) (hmoved : s.crossed name = .moved t) :
    t = s := by
  obtain ⟨node, relation, n, hwrapped, hvariable⟩ := h
  have hleft : Sequence.hasVariable [node] = true :=
    (Sequence.hasVariable_singleton node).trans hvariable
  have hright : Sequence.hasVariable [.group none n []] = false := rfl
  rcases (Sides.crossed_eq_moved hmoved).2 with rfl | rfl
  · rfl
  · -- The term with the unknown is on the left already, and the number on the right.
    simp [Sides.sorted, Sequence.summands_singleton hwrapped.isTerm, Sequence.summands_number,
      hleft, hright, Sequence.join_singleton]

/-! ## Parentheses -/

theorem expandedSummand_eq_self {part : List Node} {parts : List (List Node)}
    (hparen : ∀ node ∈ part, node.isParen = false) (h : expandedSummand part = .ok parts) :
    parts = [part] := by
  rcases expandedSummand_cases h with ⟨body, negative, rfl, -⟩ | rfl |
    ⟨body, negative, groups, -, hlone, -⟩
  · cases hparen _ (.head _)
  · rfl
  · cases hparen _ (mem_of_loneParen? hlone).1

theorem Sequence.expanded_singleton {out : List Node} (hterm : node.isTerm = true)
    (h : Sequence.expanded [node] = .ok out) :
    ∃ node' parts, Node.simplified (Sequence.depth [node]) node = .ok node' ∧
      expandedSummand [node'] = .ok parts ∧ out = Sequence.join parts := by
  obtain ⟨sums, hsums, h⟩ := Except.bind_eq_ok.1 h
  obtain rfl := Except.pure_eq_ok.1 h
  rw [Sequence.summands_singleton hterm] at hsums
  obtain ⟨parts, hparts, rfl⟩ := Except.mapM_singleton_eq_ok.1 hsums
  obtain ⟨part, hpart, hexpanded⟩ := Except.bind_eq_ok.1 hparts
  obtain ⟨node', hnode, rfl⟩ := Except.mapM_singleton_eq_ok.1 hpart
  exact ⟨node', parts, hnode, hexpanded, by simp⟩

theorem Sequence.expanded_number {out : List Node}
    (h : Sequence.expanded [.group none n []] = .ok out) : out = [.group none n []] := by
  obtain ⟨node, parts, hnode, hparts, rfl⟩ := Sequence.expanded_singleton rfl h
  obtain rfl := Except.ok.inj hnode
  rw [expandedSummand_eq_self (by simp [Node.isParen]) hparts, Sequence.join_singleton]

/-- A parenthesis without a power is simplified to a parenthesis, or to something lower. -/
theorem simplifiedParen_cases {body content : List Node} {negative : Bool}
    (hcontent : Sequence.SideYields content body)
    (h : simplifiedParen body [] negative = .ok node) :
    node = .paren body [] negative ∨
      node.isTerm = true ∧ node.height < (Node.paren content [] negative).height := by
  rw [Node.height_paren]
  cases ParenSimplified.of_simplifiedParen h with
  | evaluated => exact .inr ⟨rfl, Nat.succ_pos _⟩
  | kept => exact .inl rfl
  | @opened single _ hterm =>
    have hheight := hcontent.height
    rw [Sequence.height_singleton hterm] at hheight
    refine .inr (And.imp_right Nat.lt_succ_of_le ?_)
    split
    · exact ⟨(Node.isTerm_negated single).trans hterm,
        (Node.height_negated single).le.trans hheight⟩
    · exact ⟨hterm, hheight⟩
  | raised _ hpower => exact absurd rfl hpower

/-- A lone parenthesis is opened. -/
theorem Sequence.height_expanded_lt {b out : List Node} {negative : Bool}
    (h : Sequence.expanded [.paren b [] negative] = .ok out) :
    Sequence.height out < (Node.paren b [] negative).height := by
  obtain ⟨node, parts, hnode, hparts, rfl⟩ := Sequence.expanded_singleton rfl h
  obtain ⟨body, hbody, hnode⟩ := Except.bind_eq_ok.1 hnode
  have hcontent := (yielding_simplified _).simplifyWith hbody
  rcases simplifiedParen_cases hcontent hnode with rfl | ⟨hterm, hlower⟩
  · -- The summands inside are as high as the content, one less than the parenthesis.
    rw [Node.height_paren]
    refine Nat.lt_succ_of_le (Sequence.height_join_le fun part hpart => ?_)
    obtain rfl := Except.ok.inj hparts
    refine le_trans ?_ hcontent.height
    split at hpart
    · obtain ⟨inner, hinner, rfl⟩ := List.mem_map.1 hpart
      exact (Sequence.yields_negatedSummand inner).sideYields.height.trans
        (Sequence.height_le_of_mem_summands hinner)
    · exact Sequence.height_le_of_mem_summands hpart
  · refine lt_of_le_of_lt (Sequence.height_join_le fun part hpart => ?_) hlower
    exact (expandedSummand_yields hparts part hpart).height.trans (Sequence.height_singleton hterm).le

theorem Sequence.expanded_fraction {top bottom out : List Node}
    (h : Sequence.expanded [.fraction top bottom] = .ok out) :
    ∃ top' bottom', out = [.fraction top' bottom'] := by
  obtain ⟨node, parts, hnode, hparts, rfl⟩ := Sequence.expanded_singleton rfl h
  obtain ⟨top', bottom', -, -, -, rfl⟩ := Node.eq_fraction_of_simplified hnode
  rw [expandedSummand_eq_self (by simp [Node.isParen]) hparts, Sequence.join_singleton]
  exact ⟨top', bottom', rfl⟩

theorem Sides.IsLone.expanded (h : s.IsLone) (hout : s.mapM Sequence.expanded = .ok t) :
    s.LoneOrLower t := by
  obtain ⟨node, relation, n, hwrapped, hvariable⟩ := h
  obtain ⟨left, right, hleft, hright, rfl⟩ := Sides.mapM_eq_ok hout
  obtain rfl := Sequence.expanded_number hright
  cases node with
  | paren b p negative =>
    obtain rfl : p = [] := hwrapped
    refine .inr ?_
    rw [Sides.height_lone rfl]
    exact max_lt (Sequence.height_expanded_lt hleft) (Nat.succ_pos _)
  | fraction top bottom =>
    obtain ⟨top', bottom', rfl⟩ := Sequence.expanded_fraction hleft
    refine Sides.loneOrLower_of_node rfl ?_ (.inl trivial)
    rw [Node.hasVariable_congr fun c => ?_, hvariable]
    simpa using Sequence.mem_mentions_expanded (c := c) hleft
  | _ => exact hwrapped.elim

/-! ## One pass -/

theorem Sides.IsLone.pass (h : s.IsLone) (hpass : s.Pass t) : s.LoneOrLower t := by
  cases hpass with
  | fractions hleft hright => exact .inl (h.fractions hleft hright)
  | withoutFraction hout => exact h.withoutFraction hout
  | cancelled hout => exact .inl (h.cancelled hout)
  | multiplied hout => exact .inl (h.multiplied hout ▸ h)
  | collected => exact .inl (h.collected.symm ▸ h)
  | crossed hmoved => exact .inl (h.crossed hmoved ▸ h)
  | expanded hout => exact h.expanded hout

/-- A lone term is no product that can be taken apart, and neither is a number. -/
theorem Sides.IsLone.isFactorable_eq_false (h : s.IsLone) :
    isFactorable s.left = false ∧ isFactorable s.right = false := by
  obtain ⟨node, relation, n, hwrapped, -⟩ := h
  refine ⟨?_, rfl⟩
  cases node with
  | paren b p negative =>
    obtain rfl : p = [] := hwrapped
    rfl
  | fraction t b => rfl
  | _ => exact hwrapped.elim

end

end OneUnknown
