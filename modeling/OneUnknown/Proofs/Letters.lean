import OneUnknown.Proofs.Grammar
import Mathlib.Data.List.Sort
/-!
# The letters that a pass keeps

Rewriting changes how an equation is written, but not which variables are mentioned in it.  This is
so for any sequence, whether it has a value or not: a part is folded into a number only after it has
been evaluated, and what has been evaluated mentions no variable.  Only zeros with a variable may be
dropped, and these only if the variable is mentioned elsewhere.

* `Sequence.mentions_eq_nil_of_evaluate`: what has been evaluated mentions no variable;
* `Sequence.mem_mentions_dividedBy`, `Sides.mem_mentions_withoutFraction`,
  `Sequence.mem_mentions_multiplied`, `Sides.mem_mentions_crossed`,
  `Sequence.mem_mentions_expanded`:
  one lemma for each pass;
* `Sides.hasVariable_collected`: dropping zeros does not lose the variable;
* `Sequence.mentions_cleaned`: cleaning;
* `Sequence.unknowns_congr`, `Sequence.unknowns_eq_singleton`: what this says of the unknowns.
-/

namespace OneUnknown

variable {c : Char}

/-! ## Values -/

/-- What has been evaluated mentions no variable. -/
theorem Sequence.mentions_eq_nil_of_evaluate {nodes : List Node} {value : Rat}
    (h : Sequence.evaluate nodes = .ok value) : Sequence.mentions nodes = [] :=
  Sequence.mentions_eq_nil.2
    ((Sequence.evaluate_eq_ok.1 h).hasVariable_eq_false
      fun _ _ _ => Node.HasValue.hasVariable_eq_false)

theorem mentions_eq_nil_of_positiveIntegerPower? {p : List Node} {exponent : Nat}
    (h : positiveIntegerPower? p = some exponent) : Sequence.mentions p = [] := by
  unfold positiveIntegerPower? at h
  split at h
  · cases h
  · rename_i hcase
    rw [Bool.or_eq_true, not_or, Bool.not_eq_true, Bool.not_eq_true] at hcase
    exact Sequence.mentions_eq_nil.2 hcase.2

/-- A power that is not written, or is a positive integer, mentions no variable. -/
theorem mentions_eq_nil_of_wholePower {p : List Node} {exponent : Nat}
    (h : (if p.isEmpty then some 1 else positiveIntegerPower? p) = some exponent) :
    Sequence.mentions p = [] := by
  split at h
  · rename_i hempty
    rw [List.isEmpty_iff.1 hempty, Sequence.mentions_nil]
  · exact mentions_eq_nil_of_positiveIntegerPower? h

/-- A group that has been evaluated has no letter, neither of its own nor in its power. -/
theorem Group.mentions_eq_nil_of_value {g : Group} {value : Rat} (h : g.value = .ok value) :
    g.toNode.mentions = [] := by
  unfold Group.value at h
  split at h
  · cases h
  · rename_i hletter
    have hnone : g.letter = none := by simpa using hletter
    split at h
    · rename_i hpower
      rw [List.isEmpty_iff] at hpower
      simp [Group.toNode, Node.mentions, hnone, hpower]
    · obtain ⟨exponent, hexponent, -⟩ := Except.bind_eq_ok.1 h
      simp [Group.toNode, Node.mentions, hnone, Sequence.mentions_eq_nil_of_evaluate hexponent]

/-! ## Quotients -/

section

variable {divisor : Rat}

theorem Sequence.mem_mentions_sumQuotient {nodes : List Node}
    (hquotient : ∀ node ∈ nodes,
      c ∈ Sequence.mentions (node.quotient divisor) ↔ c ∈ node.mentions) :
    c ∈ Sequence.mentions (sumQuotient divisor (Sequence.quotients divisor nodes)) ↔
      c ∈ Sequence.mentions nodes := by
  rw [sumQuotient, Sequence.quotients_eq_map, Sequence.summandsWith_map, List.map_map,
    Sequence.mem_mentions_join, Sequence.mem_mentions_summands]
  simp only [List.mem_map, exists_exists_and_eq_and, Function.comp_apply]
  refine exists_congr fun part => and_congr_right fun hpart => ?_
  rcases productQuotient_cases divisor part with ⟨pre, node, post, rfl, -, heq⟩ | ⟨-, heq⟩
  · have hmem : node ∈ nodes := (Sequence.mem_of_mem_summands hpart (by simp)).1
    rw [heq]
    simp [hquotient node hmem]
  · rw [heq]

theorem mem_mentions_scaledQuotient {node : Node} :
    c ∈ Sequence.mentions (scaledQuotient divisor node) ↔ c ∈ node.mentions := by
  rcases scaledQuotient_cases divisor node with ⟨g, value, rfl, hvalue, heq⟩ | heq
  · simp [heq, Group.mentions_eq_nil_of_value hvalue]
  · simp [heq]

theorem mentions_remainingPower (exponent : Nat) :
    Sequence.mentions (remainingPower exponent) = [] := by
  rw [remainingPower]
  split <;> rfl

theorem mem_mentions_powerQuotient {n : Number} {p : List Node} :
    c ∈ Sequence.mentions (powerQuotient divisor n p) ↔ c ∈ Sequence.mentions p := by
  rcases powerQuotient_cases divisor n p with
    heq | ⟨hpower, heq⟩ | ⟨exponent, divided, -, hpower, hdivided, heq⟩
  · simp [heq, mem_mentions_scaledQuotient]
  · simp [heq, mentions_eq_nil_of_positiveIntegerPower? hpower]
  · rw [heq, mentions_eq_nil_of_positiveIntegerPower? hpower]
    rcases hdivided with ⟨rfl, -⟩ | rfl <;> split <;> simp [mentions_remainingPower]

theorem mem_mentions_parenQuotient {divided body p : List Node} {negative : Bool}
    (hdivided : c ∈ Sequence.mentions divided ↔ c ∈ Sequence.mentions body) :
    c ∈ Sequence.mentions (parenQuotient divisor divided body p negative) ↔
      c ∈ Sequence.mentions body ∨ c ∈ Sequence.mentions p := by
  rcases parenQuotient_cases divisor divided body p negative with
    heq | ⟨hpower, heq⟩ | ⟨exponent, remaining, -, hpower, hremaining, heq⟩
  · rw [heq, mem_mentions_scaledQuotient, Node.mem_mentions_paren]
  · have hp : Sequence.mentions p = [] := by
      rcases hpower with rfl | hpower
      · rfl
      · exact mentions_eq_nil_of_positiveIntegerPower? hpower
    simp [heq, hp, hdivided]
  · have hrest : c ∈ remaining.mentions ↔ c ∈ Sequence.mentions body := by
      rcases hremaining with ⟨-, rfl⟩ | rfl <;> simp [mentions_remainingPower]
    rw [heq, mentions_eq_nil_of_positiveIntegerPower? hpower]
    split <;> simp [hdivided, hrest]

/-- The quotient of a term mentions what the term mentions. -/
theorem Node.mem_mentions_quotient {node : Node} :
    c ∈ Sequence.mentions (node.quotient divisor) ↔ c ∈ node.mentions := by
  induction node using Node.nested_induction with
  | group letter n p =>
    rw [Node.quotient]
    split
    · simp
    · rename_i hcase
      obtain ⟨rfl, -⟩ : letter = none ∧ p ≠ [] := by simpa using hcase
      simp [mem_mentions_powerQuotient]
  | paren b p negative ihb =>
    rw [Node.quotient, mem_mentions_parenQuotient
      (Sequence.mem_mentions_sumQuotient fun node hnode => ihb node hnode), Node.mem_mentions_paren]
  | fraction t b iht =>
    simp [Node.quotient, Sequence.mem_mentions_sumQuotient fun node hnode => iht node hnode]
  | operator op => simp [Node.quotient]
  | relation r => simp [Node.quotient]

theorem Sequence.mem_mentions_dividedBy {nodes : List Node} :
    c ∈ Sequence.mentions (Sequence.dividedBy divisor nodes) ↔ c ∈ Sequence.mentions nodes :=
  Sequence.mem_mentions_sumQuotient fun _ _ => Node.mem_mentions_quotient

end

/-! ## Fractions -/

@[simp] theorem mem_mentions_scaledSummand {factor : Rat} {part : List Node} :
    c ∈ Sequence.mentions (scaledSummand factor part) ↔ c ∈ Sequence.mentions part := by
  cases part with
  | nil => rfl
  | cons node rest =>
    rcases scaledSummand_cons factor node rest with ⟨letter, n, p, rfl, -, heq⟩ | heq
    · simp [heq]
    · simp [heq]

theorem mem_mentions_reduceFraction {limit : Nat} {top bottom : List Node}
    {reduced : ReducedFraction} (h : reduceFraction limit top bottom = .ok reduced) :
    c ∈ Sequence.mentions reduced.numerator ↔ c ∈ (Node.fraction top bottom).mentions := by
  obtain ⟨signed, positive, hsigned, hreduced⟩ := reduceFraction_cases h
  have hsame : c ∈ Sequence.mentions signed ↔ c ∈ Sequence.mentions top :=
    signedFraction_induction (P := fun nodes => c ∈ Sequence.mentions nodes ↔ _) hsigned .rfl
      (fun value hvalue => by simp [Sequence.mentions_eq_nil_of_evaluate hvalue])
      fun nodes hnodes => by simp [hnodes]
  obtain ⟨-, -, hbottom, -⟩ := signedFraction_cases hsigned
  rw [Node.mem_mentions_fraction, Sequence.mentions_eq_nil.2 hbottom, ← hsame]
  rcases hreduced with rfl | ⟨common, -, rfl⟩
  · simp
  · simp [Sequence.mem_mentions_dividedBy]

namespace FractionSpot

theorem exists_mem_fill {spot : FractionSpot} {node : Node} :
    (∃ part ∈ spot.fill node, c ∈ Sequence.mentions part) ↔
      (∃ part ∈ spot.before, c ∈ Sequence.mentions part) ∨
        (c ∈ Sequence.mentions spot.leading ∨ c ∈ node.mentions ∨
          c ∈ Sequence.mentions spot.trailing) ∨
        ∃ part ∈ spot.after, c ∈ Sequence.mentions part := by
  simp [fill, or_and_right, exists_or]

theorem exists_mem_fillScaled {spot : FractionSpot} {factor : Rat} {node : Node} :
    (∃ part ∈ spot.fillScaled factor node, c ∈ Sequence.mentions part) ↔
      ∃ part ∈ spot.fill node, c ∈ Sequence.mentions part := by
  simp [fillScaled, fill, or_and_right, exists_or]

theorem mem_mentions_cleared {limit : Nat} {spot : FractionSpot} {other : List (List Node)}
    {side otherSide : List Node} (h : spot.cleared limit other = .ok (side, otherSide)) :
    (c ∈ Sequence.mentions side ↔
        ∃ part ∈ spot.fill (.fraction spot.top spot.bottom), c ∈ Sequence.mentions part) ∧
      (c ∈ Sequence.mentions otherSide ↔ ∃ part ∈ other, c ∈ Sequence.mentions part) := by
  obtain ⟨reduced, hreduced, hcases⟩ := cleared_cases h
  have hnumerator := mem_mentions_reduceFraction (c := c) hreduced
  have hfilled {node : Node}
      (hnode : c ∈ node.mentions ↔ c ∈ Sequence.mentions reduced.numerator) :
      (∃ part ∈ spot.fill node, c ∈ Sequence.mentions part) ↔
        ∃ part ∈ spot.fill (.fraction spot.top spot.bottom), c ∈ Sequence.mentions part := by
    rw [exists_mem_fill, exists_mem_fill, hnode, hnumerator]
  rcases hcases with ⟨node, hnode, rfl, rfl⟩ | ⟨rfl, rfl⟩
  · refine ⟨Sequence.mem_mentions_join.trans (hfilled ?_), Sequence.mem_mentions_join⟩
    rcases hnode with ⟨-, rfl⟩ | ⟨-, rfl⟩ <;> simp
  · refine ⟨?_, by simp [Sequence.mem_mentions_join]⟩
    rw [Sequence.mem_mentions_join, exists_mem_fillScaled, hfilled Sequence.mem_mentions_asFactor]

end FractionSpot

/-! ## Equations -/

namespace Sides

/-- An equation with the same letters mentions a variable, too. -/
theorem hasVariable_of_mentions {s t : Sides}
    (h : ∀ c, c ∈ Sequence.mentions t.toNodes ↔ c ∈ Sequence.mentions s.toNodes)
    (hvariable : s.hasVariable = true) : t.hasVariable = true := by
  rw [← hasVariable_toNodes, Sequence.hasVariable_iff_exists_mem] at hvariable ⊢
  exact hvariable.imp fun c => (h c).2

/-- Rewriting both sides keeps the letters, if rewriting one does. -/
theorem mem_mentions_mapM {rewrite : List Node → Except SolveError (List Node)} {s t : Sides}
    (hrewrite : ∀ side out, rewrite side = .ok out →
      (c ∈ Sequence.mentions out ↔ c ∈ Sequence.mentions side))
    (h : s.mapM rewrite = .ok t) :
    c ∈ Sequence.mentions t.toNodes ↔ c ∈ Sequence.mentions s.toNodes := by
  obtain ⟨left, right, hleft, hright, rfl⟩ := Sides.mapM_eq_ok h
  rw [mem_mentions_toNodes, mem_mentions_toNodes]
  exact or_congr (hrewrite _ _ hleft) (hrewrite _ _ hright)

theorem mem_mentions_withoutFraction {limit : Nat} {s t : Sides}
    (h : s.withoutFraction limit = .ok t) :
    c ∈ Sequence.mentions t.toNodes ↔ c ∈ Sequence.mentions s.toNodes := by
  rw [mem_mentions_toNodes, mem_mentions_toNodes]
  cases FractionCleared.of_withoutFraction h with
  | left hspot hcleared =>
    obtain ⟨hleft, hright⟩ := FractionSpot.mem_mentions_cleared (c := c) hcleared
    rw [hleft, hright, ← FractionSpot.inSummands?_eq_some hspot, ← Sequence.mem_mentions_summands,
      ← Sequence.mem_mentions_summands]
  | right _ hspot hcleared =>
    obtain ⟨hright, hleft⟩ := FractionSpot.mem_mentions_cleared (c := c) hcleared
    rw [hleft, hright, ← FractionSpot.inSummands?_eq_some hspot, ← Sequence.mem_mentions_summands,
      ← Sequence.mem_mentions_summands]
  | none => rfl

theorem mem_mentions_cancelled {limit : Nat} {s t : Sides} (h : s.cancelled limit = .ok t) :
    c ∈ Sequence.mentions t.toNodes ↔ c ∈ Sequence.mentions s.toNodes := by
  rcases cancelled_cases h with rfl | ⟨common, -, -, -, rfl⟩
  · rfl
  · simp [Sequence.mem_mentions_dividedBy]

end Sides

/-! ## Products -/

theorem Group.mentions_eq_nil_of_exponent? {g : Group} {exponent : Rat}
    (h : g.exponent? = some exponent) : Sequence.mentions g.power = [] := by
  unfold Group.exponent? at h
  split at h
  · rename_i hempty
    rw [List.isEmpty_iff.1 hempty, Sequence.mentions_nil]
  · split at h
    · cases h
    · rename_i hvariable
      exact Sequence.mentions_eq_nil.2 (by simpa using hvariable)

theorem Group.mentions_powerOf (exponent : Rat) :
    Sequence.mentions (Group.powerOf exponent) = [] := by
  rw [Group.powerOf]
  split <;> rfl

/-- A group that is resolved has no power, if it has no letter. -/
theorem Group.resolved?_eq_some {g resolved : Group} (h : g.resolved? = some resolved) :
    (resolved.letter = none → resolved.power = []) ∧
      (c ∈ resolved.toNode.mentions ↔ c ∈ g.toNode.mentions) := by
  rcases Group.resolved?_cases h with ⟨-, value, hvalue, rfl⟩ | ⟨hpower, rfl⟩
  · refine ⟨fun _ => rfl, ?_⟩
    rw [Group.mentions_eq_nil_of_value hvalue]
    rfl
  · exact ⟨hpower, Iff.rfl⟩

theorem Group.mem_mentions_multiply {left right product : Group}
    (h : left.multiply right = .ok (some product)) :
    c ∈ product.toNode.mentions ↔ c ∈ left.toNode.mentions ∨ c ∈ right.toNode.mentions := by
  obtain ⟨l, r, hl, hr, hcases⟩ := Group.multiply_cases h
  obtain ⟨hlpower, hlmentions⟩ := Group.resolved?_eq_some (c := c) hl
  obtain ⟨hrpower, hrmentions⟩ := Group.resolved?_eq_some (c := c) hr
  rw [← hlmentions, ← hrmentions]
  rcases hcases with ⟨hll, hrl, rfl⟩ | ⟨hrl, -, rfl⟩ | ⟨hll, -, rfl⟩ |
    ⟨name, p, q, hll, hrl, hp, hq, rfl⟩
  · simp [hll, hrl, hlpower hll, hrpower hrl, Group.constant]
  · simp [hrl, hrpower hrl, Group.withCoefficient]
  · simp [hll, hlpower hll, Group.withCoefficient]
  · simp [hll, hrl, Group.mentions_eq_nil_of_exponent? hp, Group.mentions_eq_nil_of_exponent? hq,
      Group.mentions_powerOf]

theorem Node.mem_mentions_multiply {left right product : Node}
    (h : left.multiply right = .ok (some product)) :
    c ∈ product.mentions ↔ c ∈ left.mentions ∨ c ∈ right.mentions := by
  obtain ⟨l, r, g, hl, hr, hproduct, rfl⟩ := Node.multiply_eq_some h
  rw [Group.mem_mentions_multiply hproduct, Group.toNode_of_asGroup? hl,
    Group.toNode_of_asGroup? hr]

theorem ProductsFolded.mem_mentions {held : Node} {rest out : List Node}
    (h : ProductsFolded held rest out) :
    c ∈ Sequence.mentions out ↔ c ∈ held.mentions ∨ c ∈ Sequence.mentions rest := by
  induction h with
  | nil => simp
  | fold hproduct _ ih => simp [ih, Node.mem_mentions_multiply hproduct, or_assoc]
  | next _ _ ih => simp [ih]

theorem Sequence.mem_mentions_multiplied {nodes out : List Node}
    (h : Sequence.multiplied nodes = .ok out) :
    c ∈ Sequence.mentions out ↔ c ∈ Sequence.mentions nodes := by
  cases nodes with
  | nil =>
    obtain rfl := Except.ok.inj h
    rfl
  | cons node rest =>
    rw [(ProductsFolded.of_multipliedAfter h).mem_mentions, Sequence.mem_mentions_cons]

/-! ## Like terms -/

theorem mem_mentions_addLike {g : Group} {parts : List (List Node)} :
    (∃ part ∈ addLike g parts, c ∈ Sequence.mentions part) ↔
      c ∈ g.toNode.mentions ∨ ∃ part ∈ parts, c ∈ Sequence.mentions part := by
  induction parts with
  | nil => simp [addLike]
  | cons first rest ih =>
    have hlater : (∃ part ∈ first :: addLike g rest, c ∈ Sequence.mentions part) ↔
        c ∈ g.toNode.mentions ∨ ∃ part ∈ first :: rest, c ∈ Sequence.mentions part := by
      simp only [List.mem_cons, exists_eq_or_imp, ih]
      exact or_left_comm
    rw [addLike]
    split
    · rename_i other hother
      split
      · rename_i hkey
        obtain ⟨rfl, -⟩ := loneTerm?_eq_some hother
        obtain ⟨hletter, hpower⟩ := TermKey.mk.inj hkey
        simp [Group.withCoefficient, hletter, hpower]
      · exact hlater
    · exact hlater

theorem mem_mentions_collectLike {parts : List (List Node)} :
    (∃ part ∈ collectLike parts, c ∈ Sequence.mentions part) ↔
      ∃ part ∈ parts, c ∈ Sequence.mentions part := by
  suffices hfold : ∀ collected, (∃ part ∈ parts.foldl Sequence.collectStep collected,
      c ∈ Sequence.mentions part) ↔
        (∃ part ∈ collected, c ∈ Sequence.mentions part) ∨
          ∃ part ∈ parts, c ∈ Sequence.mentions part by
    simpa [Sequence.collectLike_eq] using hfold []
  intro collected
  induction parts generalizing collected with
  | nil => simp
  | cons first rest ih =>
    have hstep : (∃ part ∈ Sequence.collectStep collected first, c ∈ Sequence.mentions part) ↔
        (∃ part ∈ collected, c ∈ Sequence.mentions part) ∨ c ∈ Sequence.mentions first := by
      rw [Sequence.collectStep]
      split
      · rename_i g hg
        obtain ⟨rfl, -⟩ := loneTerm?_eq_some hg
        rw [mem_mentions_addLike, or_comm]
        simp
      · simp [or_and_right, exists_or]
    rw [List.foldl_cons, ih, hstep]
    simp [or_assoc]

theorem Sequence.mem_mentions_collected {side : List Node} :
    c ∈ Sequence.mentions (Sequence.collected side) ↔ c ∈ Sequence.mentions side := by
  rw [Sequence.collected, Sequence.mem_mentions_join, mem_mentions_collectLike,
    ← Sequence.mem_mentions_summands]

/-- Dropping zeros adds no letter. -/
theorem Sequence.mem_mentions_of_withoutZeros {otherVariables : Bool} {side : List Node}
    (h : c ∈ Sequence.mentions (Sequence.withoutZeros otherVariables side)) :
    c ∈ Sequence.mentions side := by
  obtain ⟨part, hpart, hc⟩ := Sequence.mem_mentions_join.1 h
  exact (Sequence.mem_mentions_summands _).2 ⟨part, (List.mem_filter.1 hpart).1, hc⟩

theorem Sides.mem_mentions_of_collected {s : Sides}
    (h : c ∈ Sequence.mentions s.collected.toNodes) : c ∈ Sequence.mentions s.toNodes := by
  rw [Sides.mem_mentions_toNodes] at h ⊢
  exact h.imp
    (fun h => Sequence.mem_mentions_collected.1 (Sequence.mem_mentions_of_withoutZeros h))
    fun h => Sequence.mem_mentions_collected.1 (Sequence.mem_mentions_of_withoutZeros h)

/-- A zero that could be dropped mentions a variable if it has one, and not in a power only. -/
theorem Sequence.hasVariable_of_zeroTerm? {part : List Node} {g : Group}
    (h : zeroTerm? part = some g) : Sequence.hasVariable part = true ↔ g.letter ≠ none := by
  obtain ⟨rfl, hpower⟩ := loneTerm?_eq_some (Sequence.zeroTerm?_eq_some h).1
  rw [Sequence.hasVariable_singleton, Group.toNode, Node.hasVariable_group]
  cases hletter : g.letter with
  | some name => simp
  | none => simp [hpower hletter]

/-- A zero with a variable is dropped only if another summand mentions the variable. -/
theorem Sides.hasVariable_collected {s : Sides} (h : s.hasVariable = true) :
    s.collected.hasVariable = true := by
  have hkept {side : List Node} (hkeeps : keepsVariable side = true) (otherVariables : Bool) :
      Sequence.hasVariable (Sequence.withoutZeros otherVariables side) = true := by
    obtain ⟨part, hpart, hcase⟩ := List.any_eq_true.1 hkeeps
    rw [Bool.and_eq_true, Option.isNone_iff_eq_none] at hcase
    refine Sequence.hasVariable_join (List.mem_filter.2 ⟨hpart, ?_⟩) hcase.1
    exact Sequence.staysBesideOthers_iff.2 fun g hg => by cases hcase.2.symm.trans hg
  have hzero {side : List Node} (hvariable : Sequence.hasVariable side = true)
      (hkeeps : keepsVariable side = false) :
      Sequence.hasVariable (Sequence.withoutZeros false side) = true := by
    obtain ⟨part, hpart, hpartVariable⟩ := Sequence.hasVariable_summands.1 hvariable
    refine Sequence.hasVariable_join (List.mem_filter.2 ⟨hpart, ?_⟩) hpartVariable
    exact Sequence.staysBesideOthers_iff.2 fun g hg =>
      ⟨fun hnone => absurd hnone ((Sequence.hasVariable_of_zeroTerm? hg).1 hpartVariable), fun _ => rfl⟩
  rw [Sides.hasVariable, Bool.or_eq_true] at h ⊢
  rw [Sides.collected]
  dsimp only
  cases hleft : keepsVariable (Sequence.collected s.left) with
  | true => exact .inl (hkept hleft _)
  | false =>
    cases hright : keepsVariable (Sequence.collected s.right) with
    | true => exact .inr (hkept hright _)
    | false =>
      have hcollected {side : List Node} (h : Sequence.hasVariable side = true) :
          Sequence.hasVariable (Sequence.collected side) = true := by
        rw [Sequence.hasVariable_iff_exists_mem] at h ⊢
        exact h.imp fun c => Sequence.mem_mentions_collected.2
      exact h.imp (fun h => hzero (hcollected h) hleft) fun h => hzero (hcollected h) hright

theorem exists_mem_filter_or {α : Type} (p : α → Bool) (P : α → Prop) (l : List α) :
    ((∃ a ∈ l.filter p, P a) ∨ ∃ a ∈ l.filter fun a => !p a, P a) ↔ ∃ a ∈ l, P a := by
  simp only [List.mem_filter, ← exists_or, and_assoc, ← and_or_left, ← or_and_right]
  simp

theorem Sides.mem_mentions_crossed {s t : Sides} {name : Char} (h : s.crossed name = .moved t) :
    c ∈ Sequence.mentions t.toNodes ↔ c ∈ Sequence.mentions s.toNodes := by
  rcases (Sides.crossed_eq_moved h).2 with rfl | rfl
  · rfl
  · rw [Sides.sorted, Sides.mem_mentions_toNodes, Sides.mem_mentions_toNodes,
      Sequence.mem_mentions_summands s.left,
      Sequence.mem_mentions_summands s.right, Sequence.mem_mentions_join,
      Sequence.mem_mentions_join,
      ← exists_mem_filter_or Sequence.hasVariable _ (Sequence.summands s.left),
      ← exists_mem_filter_or Sequence.hasVariable _ (Sequence.summands s.right)]
    simp only [List.mem_append, or_and_right, exists_or, List.mem_map, exists_exists_and_eq_and,
      Sequence.mentions_negatedSummand, Function.comp_def]
    simp only [or_assoc, or_left_comm, or_comm]

/-! ## Removing parentheses -/

theorem mem_mentions_productOf {start product : Group} {groups : List Group}
    (h : productOf start groups = .ok (some product)) :
    c ∈ product.toNode.mentions ↔
      c ∈ start.toNode.mentions ∨ ∃ g ∈ groups, c ∈ g.toNode.mentions := by
  replace h := GroupsMultiplied.of_productOf h
  induction h with
  | nil => simp
  | cons hmultiply _ ih =>
    refine ih.trans ?_
    rw [Group.mem_mentions_multiply hmultiply, or_assoc]
    simp only [List.mem_cons, exists_eq_or_imp]

theorem mem_mentions_distributed {multiplier : Group} {part out : List Node}
    (h : distributed multiplier part = .ok out) :
    c ∈ Sequence.mentions out ↔ c ∈ multiplier.toNode.mentions ∨ c ∈ Sequence.mentions part := by
  rcases distributed_cases h with ⟨node, product, rfl, hmultiply, rfl⟩ | ⟨hconstant, -, rfl⟩ | rfl
  · simp [Node.mem_mentions_multiply hmultiply]
  · obtain ⟨hletter, hpower⟩ : multiplier.letter = none ∧ multiplier.power = [] := by
      simpa [Group.isConstant] using hconstant
    simp [hletter, hpower]
  · simp

/-- A parenthesis that can be removed has a summand: it mentions a variable if it has no power. -/
def Node.ParenMentions (node : Node) : Prop :=
  ∀ body negative, node = .paren body [] negative → Sequence.hasVariable body = true

theorem mem_mentions_of_parts {factors : List (List Node)}
    (hparts : ∀ factor ∈ factors, IsParenOrGroup factor) :
    (∃ factor ∈ factors, c ∈ Sequence.mentions factor) ↔
      (∃ g ∈ groupsOf factors, c ∈ g.toNode.mentions) ∨
        ∃ paren ∈ parensOf factors, c ∈ (Node.paren paren.1 paren.2.1 paren.2.2).mentions := by
  induction factors with
  | nil => simp [groupsOf, parensOf]
  | cons factor rest ih =>
    have ih := ih fun f hf => hparts f (.tail _ hf)
    rcases hparts factor (.head _) with ⟨b, p, negative, rfl⟩ | ⟨g, rfl⟩
    · have hparens : parensOf ([.paren b p negative] :: rest) = (b, p, negative) :: parensOf rest :=
        rfl
      have hgroups : groupsOf ([.paren b p negative] :: rest) = groupsOf rest := rfl
      simp only [hparens, hgroups, List.mem_cons, exists_eq_or_imp, ih, Sequence.mem_mentions_cons,
        Sequence.mentions_nil, List.not_mem_nil, or_false]
      exact or_left_comm
    · have hparens : parensOf ([g.toNode] :: rest) = parensOf rest := rfl
      have hgroups : groupsOf ([g.toNode] :: rest) = g :: groupsOf rest := rfl
      simp only [hparens, hgroups, List.mem_cons, exists_eq_or_imp, ih, Sequence.mem_mentions_cons,
        Sequence.mentions_nil, List.not_mem_nil, or_false]
      exact or_assoc.symm

/-- The summands that take the place of a product mention what it mentions. -/
theorem mem_mentions_expandedSummand {part : List Node} {parts : List (List Node)}
    (hparens : ∀ node ∈ part, node.ParenMentions) (h : expandedSummand part = .ok parts) :
    (∃ new ∈ parts, c ∈ Sequence.mentions new) ↔ c ∈ Sequence.mentions part := by
  rcases expandedSummand_cases h with ⟨body, negative, rfl, rfl⟩ | rfl |
    ⟨body, negative, groups, multiplier, hlone, hmultiplier, hparts⟩
  · rw [Sequence.mem_mentions_cons, Node.mem_mentions_paren,
      Sequence.mem_mentions_summands body]
    split <;> simp
  · simp
  · obtain ⟨hlist, rfl, hfactors⟩ := loneParen?_eq_some hlone
    have hsigned : c ∈ (if negative then multiplier.negated else multiplier).toNode.mentions ↔
        ∃ g ∈ groupsOf (Sequence.factors part), c ∈ g.toNode.mentions := by
      have hletters := mem_mentions_productOf (c := c) hmultiplier
      rw [Group.mem_mentions_toNode] at hletters
      split <;> simp [hletters, Group.negated, Group.constant]
    rw [Sequence.mem_mentions_factors, mem_mentions_of_parts hfactors, hlist,
      Except.exists_mem_mapM_iff (fun _ _ _ => mem_mentions_distributed) hparts, hsigned]
    -- The multiplier stays in the equation, because there is a summand that it multiplies.
    obtain ⟨inner, hinner⟩ : ∃ inner, inner ∈ Sequence.summands body := by
      have hmem : (body, [], negative) ∈ parensOf (Sequence.factors part) := by simp [hlist]
      obtain ⟨factor, hfactor, hparen⟩ := List.mem_filterMap.1 hmem
      split at hparen
      · obtain ⟨rfl, rfl, rfl⟩ := by simpa using hparen
        have hnode := (Sequence.mem_of_mem_splitOnP _ hfactor (.head _)).1
        obtain ⟨inner, hinner, -⟩ := Sequence.hasVariable_summands.1 (hparens _ hnode _ _ rfl)
        exact ⟨inner, hinner⟩
      · cases hparen
    constructor
    · rintro ⟨inner, hinner, hc | hc⟩
      · exact .inl hc
      · exact .inr (by simpa using (Sequence.mem_mentions_summands _).2 ⟨inner, hinner, hc⟩)
    · rintro (hc | hc)
      · exact ⟨inner, hinner, .inl hc⟩
      · obtain ⟨inner, hinner, hc⟩ := (Sequence.mem_mentions_summands _).1 (by simpa using hc)
        exact ⟨inner, hinner, .inr hc⟩

/-- A simplification of nodes up to a depth that keeps their letters. -/
def KeepsLetters (depth : Nat) (simplify : Node → Except SolveError Node) : Prop :=
  ∀ node node', node.depth ≤ depth → simplify node = .ok node' →
    node'.ParenMentions ∧ ∀ c, c ∈ node'.mentions ↔ c ∈ node.mentions

theorem Sequence.depth_le_iff {nodes : List Node} {depth : Nat} :
    Sequence.depth nodes ≤ depth ↔ ∀ node ∈ nodes, node.depth ≤ depth := by
  induction nodes with
  | nil => simp [Sequence.depth]
  | cons node rest ih => simp [Sequence.depth, ih]

theorem ProductsFolded.depth_le {held : Node} {rest out : List Node} {depth : Nat}
    (h : ProductsFolded held rest out) (hheld : held.depth ≤ depth)
    (hrest : ∀ node ∈ rest, node.depth ≤ depth) : ∀ node ∈ out, node.depth ≤ depth := by
  induction h with
  | nil => simpa using hheld
  | fold hproduct _ ih =>
    obtain ⟨-, -, g, -, -, -, rfl⟩ := Node.multiply_eq_some hproduct
    exact ih (Nat.zero_le _) fun node hnode => hrest node (.tail _ (.tail _ hnode))
  | next _ _ ih =>
    exact List.forall_mem_cons.2 ⟨hheld,
      ih (hrest _ (.head _)) fun node hnode => hrest node (.tail _ hnode)⟩

theorem Sequence.depth_multiplied_le {nodes out : List Node} {depth : Nat}
    (h : Sequence.multiplied nodes = .ok out) (hdepth : Sequence.depth nodes ≤ depth) :
    Sequence.depth out ≤ depth := by
  rw [Sequence.depth_le_iff] at hdepth ⊢
  cases nodes with
  | nil =>
    obtain rfl := Except.ok.inj h
    exact hdepth
  | cons node rest =>
    exact (ProductsFolded.of_multipliedAfter h).depth_le (hdepth node (.head _))
      fun n hn => hdepth n (.tail _ hn)

namespace KeepsLetters

variable {depth : Nat} {simplify : Node → Except SolveError Node}

theorem expandWith (hkeeps : KeepsLetters depth simplify) {side out : List Node}
    (hdepth : Sequence.depth side ≤ depth) (h : expandWith simplify side = .ok out) :
    c ∈ Sequence.mentions out ↔ c ∈ Sequence.mentions side := by
  obtain ⟨sums, hsums, h⟩ := Except.bind_eq_ok.1 h
  obtain rfl := Except.pure_eq_ok.1 h
  rw [Sequence.depth_le_iff] at hdepth
  rw [Sequence.mem_mentions_join, Sequence.mem_mentions_summands]
  have hflatten : (∃ part ∈ sums.flatten, c ∈ Sequence.mentions part) ↔
      ∃ sum ∈ sums, ∃ part ∈ sum, c ∈ Sequence.mentions part := by
    simp only [List.mem_flatten]
    tauto
  rw [hflatten]
  refine Except.exists_mem_mapM_iff (fun part hpart sum hsum => ?_) hsums
  obtain ⟨part', hpart', hexpand⟩ := Except.bind_eq_ok.1 hsum
  have hnode {node node' : Node} (hnode : node ∈ part) (hsimplify : simplify node = .ok node') :=
    hkeeps node node' (hdepth node (Sequence.mem_of_mem_summands hpart hnode).1) hsimplify
  rw [mem_mentions_expandedSummand (fun node' hmem => ?_) hexpand, Sequence.mem_mentions,
    Sequence.mem_mentions]
  · exact Except.exists_mem_mapM_iff
      (fun node hmem node' hsimplify => (hnode hmem hsimplify).2 c) hpart'
  · obtain ⟨node, hmem, hsimplify⟩ := Except.exists_of_mem_mapM hpart' hmem
    exact (hnode hmem hsimplify).1

theorem simplifyWith (hkeeps : KeepsLetters depth simplify) {nodes out : List Node}
    (hdepth : Sequence.depth nodes ≤ depth) (h : simplifyWith simplify nodes = .ok out) :
    c ∈ Sequence.mentions out ↔ c ∈ Sequence.mentions nodes := by
  rcases simplifyWith_cases h with ⟨-, multiplied, expanded, hmultiplied, hexpanded, rfl⟩ |
    ⟨-, value, hvalue, rfl⟩
  · rw [Sequence.mem_mentions_collected,
      hkeeps.expandWith (Sequence.depth_multiplied_le hmultiplied hdepth) hexpanded,
      Sequence.mem_mentions_multiplied hmultiplied]
  · simp [Sequence.mentions_eq_nil_of_evaluate hvalue]

end KeepsLetters

/-- A group is raised to a power only if neither power mentions a variable. -/
theorem Group.mentions_of_raised {g raised : Group} {power : List Node}
    (h : g.raised power = .ok raised) :
    raised.letter = g.letter ∧ Sequence.mentions power = [] ∧ Sequence.mentions g.power = [] ∧
      Sequence.mentions raised.power = [] := by
  obtain ⟨exponent, own, hexponent, hown, rfl⟩ := Group.raised_eq_ok h
  exact ⟨rfl, mentions_eq_nil_of_positiveIntegerPower? hexponent,
    mentions_eq_nil_of_wholePower hown, Group.mentions_powerOf _⟩

theorem mem_mentions_simplifiedParen {body power : List Node} {negative : Bool} {node : Node}
    (h : simplifiedParen body power negative = .ok node) :
    node.ParenMentions ∧
      ∀ c, c ∈ node.mentions ↔ c ∈ Sequence.mentions body ∨ c ∈ Sequence.mentions power := by
  cases ParenSimplified.of_simplifiedParen h with
  | evaluated hbody hpower =>
    refine ⟨fun _ _ heq => (by cases heq), fun c => ?_⟩
    simp [Sequence.mentions_eq_nil.2 hbody, Sequence.mentions_eq_nil.2 hpower]
  | kept hbody =>
    refine ⟨?_, fun c => Node.mem_mentions_paren⟩
    rintro b n heq
    obtain ⟨rfl, -⟩ := Node.paren.inj heq
    exact hbody
  | @opened single hbody =>
    rw [Sequence.hasVariable_singleton] at hbody
    constructor
    · rintro b n heq
      have hparen : (if negative then single.negated else single).hasVariable = true := by
        split
        · rw [Node.hasVariable_negated, hbody]
        · exact hbody
      rw [heq] at hparen
      simpa using hparen
    · intro c
      split <;> simp
  | raised _ _ hraised =>
    obtain ⟨hletter, hpower, hg, hraisedPower⟩ := Group.mentions_of_raised hraised
    constructor
    · split <;> rintro _ _ heq <;> cases heq
    · intro c
      split <;> simp [Group.negated, hletter, hpower, hg, hraisedPower]

/-- Simplifying keeps the letters, by induction on the depth. -/
theorem keepsLetters_simplified (depth : Nat) : KeepsLetters depth (Node.simplified depth) := by
  induction depth with
  | zero =>
    intro node node' hdepth h
    rw [Node.simplified_zero] at h
    obtain rfl := Except.ok.inj h
    refine ⟨?_, fun _ => Iff.rfl⟩
    rintro b n rfl
    cases hdepth
  | succ depth ih =>
    intro node node' hdepth h
    cases node with
    | paren b p negative =>
      obtain ⟨body, hbody, h⟩ := Except.bind_eq_ok.1 h
      obtain ⟨hmentions, hletters⟩ := mem_mentions_simplifiedParen h
      refine ⟨hmentions, fun c => ?_⟩
      rw [hletters, ih.simplifyWith (Nat.le_of_succ_le_succ hdepth) hbody,
        Node.mem_mentions_paren]
    | fraction t b =>
      obtain ⟨top, bottom, htop, hbottom, -, rfl⟩ := Node.eq_fraction_of_simplified h
      obtain ⟨ht, hb⟩ := Nat.max_le.1 (Nat.le_of_succ_le_succ hdepth)
      refine ⟨fun _ _ heq => (by cases heq), fun c => ?_⟩
      rw [Node.mem_mentions_fraction, ih.simplifyWith ht htop, ih.simplifyWith hb hbottom,
        Node.mem_mentions_fraction]
    | _ =>
      obtain rfl := Except.ok.inj h
      exact ⟨fun _ _ heq => (by cases heq), fun _ => Iff.rfl⟩

theorem Sequence.mem_mentions_expanded {side out : List Node}
    (h : Sequence.expanded side = .ok out) :
    c ∈ Sequence.mentions out ↔ c ∈ Sequence.mentions side :=
  (keepsLetters_simplified _).expandWith le_rfl h

/-! ## Cleaning -/

theorem Sequence.mentions_cleanedFrom {nested afterTerm negate : Bool} {nodes out : List Node}
    (hnodes : ∀ node ∈ nodes, ∀ node', node.cleaned = .ok node' → node'.mentions = node.mentions)
    (h : Sequence.cleanedFrom nested afterTerm negate nodes = .ok out) :
    Sequence.mentions out = Sequence.mentions nodes := by
  have hwritten := OperatorsWritten.of_cleanedFrom h
  clear h
  induction hwritten with
  | nil => rfl
  | relation _ _ ih | subtract _ ih | operator _ _ ih =>
    simp [Sequence.mentions, Node.mentions, ih fun node hnode => hnodes node (.tail _ hnode)]
  | @term afterTerm negate first term rest out hterm hclean _ ih =>
    have hrest := ih fun node hnode => hnodes node (.tail _ hnode)
    have hsigned : (if negate then term.negated else term).mentions = first.mentions := by
      rw [← hnodes first (.head _) term hclean]
      split
      · exact term.mentions_negated
      · rfl
    rw [placeTerm]
    split <;> simp [Sequence.mentions, hsigned, hrest]

theorem Node.mentions_cleaned {node node' : Node} (h : node.cleaned = .ok node') :
    node'.mentions = node.mentions := by
  induction node using Node.nested_induction generalizing node' with
  | group letter n p ihp =>
    obtain ⟨power, hpower, rfl⟩ := Node.cleaned_group_eq_ok.1 h
    rw [Node.mentions, Node.mentions,
      Sequence.mentions_cleanedFrom (fun n hn _ => ihp n hn) hpower]
  | paren b p negative ihb ihp =>
    obtain ⟨body, power, hbody, hpower, rfl⟩ := Node.cleaned_paren_eq_ok.1 h
    rw [Node.mentions, Node.mentions,
      Sequence.mentions_cleanedFrom (fun n hn _ => ihb n hn) hbody,
      Sequence.mentions_cleanedFrom (fun n hn _ => ihp n hn) hpower]
  | fraction t b iht ihb =>
    obtain ⟨top, bottom, htop, hbottom, -, rfl⟩ := Node.cleaned_fraction_eq_ok.1 h
    rw [Node.mentions, Node.mentions,
      Sequence.mentions_cleanedFrom (fun n hn _ => iht n hn) htop,
      Sequence.mentions_cleanedFrom (fun n hn _ => ihb n hn) hbottom]
  | operator op =>
    obtain rfl := Except.ok.inj h
    rfl
  | relation r =>
    obtain rfl := Except.ok.inj h
    rfl

/-- Cleaning keeps every mention of a variable. -/
theorem Sequence.mentions_cleaned {nodes out : List Node} (h : Sequence.cleaned nodes = .ok out) :
    Sequence.mentions out = Sequence.mentions nodes :=
  Sequence.mentions_cleanedFrom (fun _ _ _ => Node.mentions_cleaned) h

/-! ## Unknowns -/

theorem pairwise_insertAscending {d : Char} {l : List Char} (h : l.Pairwise (· < ·)) :
    (insertAscending d l).Pairwise (· < ·) := by
  induction l with
  | nil => simp [insertAscending]
  | cons e rest ih =>
    obtain ⟨hfirst, hrest⟩ := List.pairwise_cons.1 h
    rw [insertAscending]
    split
    · rename_i hlt
      refine List.pairwise_cons.2 ⟨?_, h⟩
      rintro a (_ | ⟨_, ha⟩)
      · exact hlt
      · exact Char.lt_trans hlt (hfirst a ha)
    · split
      · exact h
      · rename_i hnotlt hne
        refine List.pairwise_cons.2 ⟨fun a ha => ?_, ih hrest⟩
        rcases mem_insertAscending.1 ha with rfl | ha
        · grind
        · exact hfirst a ha

/-- The unknowns are determined by which variables are mentioned. -/
theorem Sequence.unknowns_congr {nodes nodes' : List Node}
    (h : ∀ c, c ∈ Sequence.mentions nodes ↔ c ∈ Sequence.mentions nodes') :
    Sequence.unknowns nodes = Sequence.unknowns nodes' := by
  have hascends (l : List Char) : (l.foldr insertAscending []).Pairwise (· < ·) := by
    induction l with
    | nil => exact .nil
    | cons d rest ih => exact pairwise_insertAscending ih
  refine (hascends _).eq_of_mem_iff (hascends _) fun c => ?_
  exact Sequence.mem_unknowns.trans ((h c).trans Sequence.mem_unknowns.symm)

/-- The one unknown of a sequence is the only variable that is mentioned. -/
theorem Sequence.unknowns_eq_singleton {nodes : List Node} {x : Char} :
    Sequence.unknowns nodes = [x] ↔
      Sequence.hasVariable nodes = true ∧ ∀ c ∈ Sequence.mentions nodes, c = x := by
  constructor
  · intro h
    have hmem (c : Char) : c ∈ Sequence.mentions nodes ↔ c = x := by
      rw [← Sequence.mem_unknowns, h, List.mem_singleton]
    exact ⟨Sequence.hasVariable_iff_exists_mem.2 ⟨x, (hmem x).2 rfl⟩, fun c => (hmem c).1⟩
  · rintro ⟨hvariable, hall⟩
    obtain ⟨c, hc⟩ := Sequence.hasVariable_iff_exists_mem.1 hvariable
    obtain rfl := hall c hc
    have hgroup : Sequence.unknowns [.group (some c) (Number.ofNat 1) []] = [c] := rfl
    rw [← hgroup]
    refine Sequence.unknowns_congr fun d => ?_
    simp only [mem_mentions_cons, Node.mem_mentions_group, mentions_nil, List.not_mem_nil, or_false,
      Option.some.injEq]
    exact ⟨fun hd => (hall d hd).symm, fun hd => hd ▸ hc⟩

end OneUnknown
