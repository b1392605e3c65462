import OneUnknown.Equation.Quotient
import OneUnknown.Proofs.Evaluation
import OneUnknown.Proofs.Plain
/-!
# Dividing a side

`Sequence.dividedBy` divides every summand by changing one of its factors, down to the contents of
parentheses and numerators.

* `Sequence.valueAt_asFactor`: a sequence as one factor;
* `scaledQuotient_cases`, `powerQuotient_cases`, `parenQuotient_cases`: what is written for the
  quotient of a term;
* `valueAt_powerQuotient`, `valueAt_parenQuotient`: the quotient of a power;
* `valueAt_sumQuotient`: the quotient of a sum whose terms have theirs;
* `Sequence.isPlain_dividedBy`: the quotient of a plain side is plain.
-/

namespace OneUnknown

/-! ## Parts that carry something along -/

theorem splitOnP_map {α β : Type} (f : α → β) (p : β → Bool) (l : List α) :
    (l.map f).splitOnP p = (l.splitOnP fun a => p (f a)).map (List.map f) := by
  induction l using splitOnP_induction fun a => p (f a) with
  | single part hpart =>
    rw [List.splitOnP_eq_singleton hpart, List.splitOnP_eq_singleton (by simpa using hpart)]
    rfl
  | cons part separator rest hpart hseparator ih =>
    rw [List.splitOnP_append_cons_of_forall_mem hpart _ hseparator, List.map_append,
      List.map_cons, List.splitOnP_append_cons_of_forall_mem (by simpa using hpart) _ hseparator,
      ih, List.map_cons]

/-- The summands of nodes that carry something along are the summands of the nodes. -/
theorem Sequence.summandsWith_map {α : Type} (f : Node → α) (nodes : List Node) :
    Sequence.summandsWith (nodes.map fun node => (node, f node)) =
      (Sequence.summands nodes).map fun part => part.map fun node => (node, f node) := by
  simp [Sequence.summandsWith, Sequence.summands, splitOnP_map, List.filter_map,
    Function.comp_def]

theorem Sequence.quotients_eq_map (divisor : Rat) (nodes : List Node) :
    Sequence.quotients divisor nodes = nodes.map fun node => (node, node.quotient divisor) := by
  induction nodes with
  | nil => rfl
  | cons node rest ih => rw [Sequence.quotients, ih, List.map_cons]

/-- The first node with the property is replaced by its quotient. -/
theorem replaceFirst?_map_eq_some {property : Node → Bool} {f : Node → List Node}
    {part replaced : List Node}
    (h : replaceFirst? property (part.map fun node => (node, f node)) = some replaced) :
    ∃ pre node post, part = pre ++ node :: post ∧ property node = true ∧
      replaced = pre ++ f node ++ post := by
  induction part generalizing replaced with
  | nil => cases h
  | cons node rest ih =>
    rw [List.map_cons, replaceFirst?] at h
    split at h
    · rename_i hnode
      refine ⟨[], node, rest, rfl, hnode, ?_⟩
      simpa [Function.comp_def] using h.symm
    · obtain ⟨replaced', hrest, rfl⟩ := Option.map_eq_some_iff.1 h
      obtain ⟨pre, found, post, rfl, hfound, rfl⟩ := ih hrest
      exact ⟨node :: pre, found, post, rfl, hfound, rfl⟩

theorem replaceFirst?_map_eq_none {property : Node → Bool} {f : Node → List Node}
    {part : List Node}
    (h : replaceFirst? property (part.map fun node => (node, f node)) = none) :
    ∀ node ∈ part, property node = false := by
  induction part with
  | nil => simp
  | cons node rest ih =>
    rw [List.map_cons, replaceFirst?] at h
    split at h
    · cases h
    · rename_i hnode
      have := ih (by simpa using h)
      simpa [hnode] using this

/-- The quotient of a product is the product with the quotient of one of its terms. -/
theorem productQuotient_cases (divisor : Rat) (part : List Node) :
    (∃ pre node post, part = pre ++ node :: post ∧ node.isTerm = true ∧
      productQuotient divisor (part.map fun node => (node, node.quotient divisor)) =
        pre ++ node.quotient divisor ++ post) ∨
    (∀ node ∈ part, node.isTerm = false) ∧
      productQuotient divisor (part.map fun node => (node, node.quotient divisor)) = part := by
  rw [productQuotient]
  split
  · rename_i replaced hreplaced
    obtain ⟨pre, node, post, hpart, hnode, rfl⟩ := replaceFirst?_map_eq_some hreplaced
    rw [Bool.and_eq_true] at hnode
    exact .inl ⟨pre, node, post, hpart, hnode.1, rfl⟩
  · split
    · rename_i replaced hreplaced
      obtain ⟨pre, node, post, hpart, hnode, rfl⟩ := replaceFirst?_map_eq_some hreplaced
      exact .inl ⟨pre, node, post, hpart, hnode, rfl⟩
    · rename_i hnone
      refine .inr ⟨replaceFirst?_map_eq_none hnone, ?_⟩
      simp [Function.comp_def]

/-! ## Factors -/

section

variable (point : Char → Rat) {x : Char}

theorem Sequence.valueAt_pair {first second : Node} {a b : Rat}
    (hfirst : first.valueAt point = some a) (hsecond : second.valueAt point = some b) :
    Sequence.valueAt point [first, .operator .multiply, second] = some (a * b) := by
  simp [Sequence.valueAt, Sequence.valueAfter, hfirst, hsecond]

theorem Sequence.valueAt_asFactor {nodes : List Node} {value : Rat}
    (h : Sequence.valueAt point nodes = some value) :
    (Sequence.asFactor nodes).valueAt point = some value := by
  unfold Sequence.asFactor
  split
  · simpa using h
  · rw [Node.valueAt_paren point .one, h]
    simp

theorem Sequence.isPlain_asFactor {nodes : List Node} (h : Sequence.IsPlain x false nodes) :
    (Sequence.asFactor nodes).IsPlain x false := by
  unfold Sequence.asFactor
  split
  · exact h.1
  · exact ⟨h, 1, .one⟩

theorem remainingPower_wholePower (exponent : Nat) (h : 0 < exponent) :
    WholePower (remainingPower exponent) exponent := by
  rw [remainingPower]
  split
  · rename_i heq
    rw [heq]
    exact .one
  · exact .constant h

/-- The sign of a number with an exponent is the one that is written, except that of a zero. -/
theorem Number.signedPower_eq (n : Number) {exponent : Nat} (h : 0 < exponent) :
    n.signedPower exponent =
      if n.negative then -(|n.value| ^ exponent) else |n.value| ^ exponent := by
  have hmagnitude := n.magnitude_nonneg
  rw [Number.signedPower]
  cases hn : n.negative with
  | false =>
    have hvalue : ¬ n.value < 0 := by simpa [Number.value, hn] using hmagnitude
    simp [hvalue]
  | true =>
    rcases hmagnitude.eq_or_lt with hzero | hpos
    · have hvalue : n.value = 0 := by simp [Number.value, hn, ← hzero]
      simp [hvalue, h.ne']
    · have hvalue : n.value < 0 := by simpa [Number.value, hn] using hpos
      simp [hvalue]

theorem Sequence.isProduct_singleton {node : Node} (h : node.isTerm = true) :
    Sequence.IsProduct [node] := by
  intro op hop
  obtain rfl := List.mem_singleton.1 hop
  cases h

theorem Sequence.isProduct_pair {first second : Node} (hfirst : first.isTerm = true)
    (hsecond : second.isTerm = true) :
    Sequence.IsProduct [first, .operator .multiply, second] := by
  intro op hop
  simp only [List.mem_cons, Node.operator.injEq, List.not_mem_nil, or_false] at hop
  rcases hop with rfl | rfl | rfl
  · cases hfirst
  · rfl
  · cases hsecond

/-! ## Terms -/

variable {divisor : Rat}

/-- The quotient of a term that cannot be divided itself is a number, or a product. -/
theorem scaledQuotient_cases (divisor : Rat) (node : Node) :
    (∃ g value, g.toNode = node ∧ Group.value g = .ok value ∧
      scaledQuotient divisor node = [Node.constant (value / divisor)]) ∨
    scaledQuotient divisor node = [Node.constant divisor⁻¹, .operator .multiply, node] := by
  rw [scaledQuotient]
  split
  · rename_i value hvalue
    obtain ⟨g, hg, hvalue⟩ := Option.map_eq_some_iff.1 hvalue
    exact .inl ⟨g, value, Group.toNode_of_asGroup? hg, hvalue, rfl⟩
  · exact .inr rfl

theorem valueAt_scaledQuotient {node : Node} {value : Rat}
    (h : node.valueAt point = some value) :
    Sequence.valueAt point (scaledQuotient divisor node) = some (divisor⁻¹ * value) := by
  rcases scaledQuotient_cases divisor node with ⟨g, v, rfl, hvalue, heq⟩ | heq
  · obtain rfl : v = value := by simpa [Group.valueAt_of_value point hvalue] using h
    simp [heq, div_eq_inv_mul]
  · rw [heq]
    exact Sequence.valueAt_pair point (Node.valueAt_constant point _) h

theorem isPlain_scaledQuotient {node : Node} (h : node.IsPlain x false) :
    Sequence.IsPlain x false (scaledQuotient divisor node) := by
  rcases scaledQuotient_cases divisor node with ⟨g, value, -, -, heq⟩ | heq <;> rw [heq]
  · exact ⟨Node.isPlain_constant _, trivial⟩
  · exact ⟨Node.isPlain_constant _, by simp [Node.IsPlain], h, trivial⟩

/-- An exponent that is read off is a positive integer, and evaluation gives it. -/
theorem positiveIntegerPower?_eq_some {p : List Node} {exponent : Nat}
    (h : positiveIntegerPower? p = some exponent) :
    p ≠ [] ∧ 0 < exponent ∧ Sequence.evaluate p = .ok (exponent : Rat) := by
  unfold positiveIntegerPower? at h
  split at h
  · cases h
  · rename_i hp
    rw [Bool.or_eq_true, not_or, List.isEmpty_iff] at hp
    split at h
    · rename_i value hvalue
      split at h
      · rename_i hwhole
        obtain ⟨hden, hpos, -⟩ := hwhole
        obtain rfl := Option.some.inj h
        refine ⟨hp.1, Int.natAbs_pos.2 hpos.ne', hvalue.trans (congrArg _ ?_)⟩
        rw [← Int.cast_natCast, Int.natAbs_of_nonneg hpos.le, Rat.coe_int_num_of_den_eq_one hden]
      · cases h
    · cases h

theorem exponentAt_of_positiveIntegerPower? {p : List Node} {exponent : Nat}
    (h : positiveIntegerPower? p = some exponent) :
    Sequence.exponentAt point p = some (exponent : Rat) := by
  obtain ⟨hp, -, hvalue⟩ := positiveIntegerPower?_eq_some h
  rw [Sequence.exponentAt, if_neg (by simpa using hp), Sequence.valueAt_of_evaluate point hvalue]

/-- The parts into which the power of a number is divided, its sign aside. -/
theorem powerQuotient_cases (divisor : Rat) (n : Number) (p : List Node) :
    powerQuotient divisor n p = scaledQuotient divisor (.group none n p) ∨
    (positiveIntegerPower? p = some 1 ∧
      powerQuotient divisor n p = [Node.constant (n.value / divisor)]) ∨
    ∃ exponent divided, 1 < exponent ∧ positiveIntegerPower? p = some exponent ∧
      (divided = [.group none (Number.ofRat |n.value|) (remainingPower (exponent - 1))] ∧
        |n.value| / divisor = 1 ∨
      divided = [Node.constant (|n.value| / divisor), .operator .multiply,
        .group none (Number.ofRat |n.value|) (remainingPower (exponent - 1))]) ∧
      powerQuotient divisor n p =
        if n.negative then Sequence.negatedSummand divided else divided := by
  rw [powerQuotient, Rational.magnitude_eq_abs]
  split
  · exact .inl rfl
  · rename_i he
    exact .inr (.inl ⟨he, rfl⟩)
  · rename_i e hone he
    have hlt : 1 < e :=
      Nat.lt_of_le_of_ne (positiveIntegerPower?_eq_some he).2.1 fun heq => hone heq.symm
    refine .inr (.inr ⟨e, _, hlt, he, ?_, rfl⟩)
    by_cases hquotient : |n.value| / divisor = 1
    · exact .inl ⟨by simp [hquotient], hquotient⟩
    · exact .inr (by simp [hquotient])

theorem Number.signedPower_ofRat_abs (value : Rat) {exponent : Nat} :
    (Number.ofRat |value|).signedPower exponent = |value| ^ exponent := by
  simp [Number.signedPower, not_lt.2 (abs_nonneg value)]

theorem valueAt_powerQuotient {n : Number} {p : List Node} {value : Rat}
    (h : (Node.group none n p).valueAt point = some value) :
    Sequence.valueAt point (powerQuotient divisor n p) = some (divisor⁻¹ * value) := by
  have hvalue {exponent : Nat} (he : positiveIntegerPower? p = some exponent) :
      n.signedPower exponent = value := by
    have hexponent := exponentAt_of_positiveIntegerPower? point he
    exact Option.some.inj ((Node.valueAt_number_of_exponent point hexponent n).symm.trans h)
  rcases powerQuotient_cases divisor n p with
    heq | ⟨he, heq⟩ | ⟨exponent, divided, hone, he, hdivided, heq⟩
  · rw [heq]
    exact valueAt_scaledQuotient point h
  · simp [heq, ← hvalue he, div_eq_inv_mul]
  · have hremaining := remainingPower_wholePower (exponent - 1) (by omega)
    have hrest := Node.valueAt_number point hremaining (Number.ofRat |n.value|)
    rw [Number.signedPower_ofRat_abs] at hrest
    have hpow : |n.value| * |n.value| ^ (exponent - 1) = |n.value| ^ exponent := by
      rw [← pow_succ', Nat.sub_add_cancel hone.le]
    have hdividedValue :
        Sequence.valueAt point divided = some (divisor⁻¹ * |n.value| ^ exponent) := by
      rcases hdivided with ⟨rfl, hquotient⟩ | rfl
      · rw [Sequence.valueAt_singleton, hrest, ← hpow, ← mul_assoc, ← div_eq_inv_mul, hquotient,
          one_mul]
      · rw [Sequence.valueAt_pair point (Node.valueAt_constant point _) hrest, ← hpow,
          div_eq_inv_mul, mul_assoc]
    rw [heq, ← hvalue he, Number.signedPower_eq n (by omega)]
    cases n.negative with
    | false => simpa using hdividedValue
    | true =>
      -- A number that is not zero, or has no exponent, begins the product.
      have hproduct : Sequence.IsProduct divided := by
        rcases hdivided with ⟨rfl, -⟩ | rfl
        · exact Sequence.isProduct_singleton rfl
        · exact Sequence.isProduct_pair rfl rfl
      have hturns : ∀ first ∈ divided.head?, first.Turns point := by
        rcases hdivided with ⟨rfl, hquotient⟩ | rfl <;> rintro first ⟨⟩
        · refine Node.turns_number point (.inr fun hzero => ?_)
          rw [Number.value_ofRat] at hzero
          simp [hzero] at hquotient
        · exact Node.turns_number point (.inl rfl)
      simpa using Sequence.valueAt_negatedSummand_of_turns point hproduct hturns hdividedValue

/-- The parts into which the power of a parenthesis is divided. -/
theorem parenQuotient_cases (divisor : Rat) (divided body p : List Node) (negative : Bool) :
    parenQuotient divisor divided body p negative =
      scaledQuotient divisor (.paren body p negative) ∨
    ((p = [] ∨ positiveIntegerPower? p = some 1) ∧
      parenQuotient divisor divided body p negative = [.paren divided [] negative]) ∨
    ∃ exponent remaining, 1 < exponent ∧ positiveIntegerPower? p = some exponent ∧
      (exponent = 2 ∧ remaining = Sequence.asFactor body ∨
        remaining = .paren body (remainingPower (exponent - 1)) false) ∧
      parenQuotient divisor divided body p negative =
        [if negative then (Sequence.asFactor divided).negated else Sequence.asFactor divided,
          .operator .multiply, remaining] := by
  have hexponent {e : Nat} (he : (if p.isEmpty then some 1 else positiveIntegerPower? p) = some e) :
      p = [] ∧ e = 1 ∨ positiveIntegerPower? p = some e := by
    split at he
    · rename_i hp
      exact .inl ⟨List.isEmpty_iff.1 hp, (Option.some.inj he).symm⟩
    · exact .inr he
  rw [parenQuotient]
  split
  · exact .inl rfl
  · rename_i he
    exact .inr (.inl ⟨(hexponent he).imp_left And.left, rfl⟩)
  · rename_i e hone he
    have hpower := (hexponent he).resolve_left fun hp => hone hp.2
    have hlt : 1 < e :=
      Nat.lt_of_le_of_ne (positiveIntegerPower?_eq_some hpower).2.1 fun heq => hone heq.symm
    refine .inr (.inr ⟨e, _, hlt, hpower, ?_, rfl⟩)
    by_cases htwo : e = 2
    · exact .inl ⟨htwo, if_pos htwo⟩
    · exact .inr (if_neg htwo)

/-- The quotient of a parenthesis, if a minus sign in front can be given to the factor that is
divided. -/
theorem valueAt_parenQuotient {divided body p : List Node} {negative : Bool} {content value : Rat}
    (hbody : Sequence.valueAt point body = some content)
    (hdivided : Sequence.valueAt point divided = some (divisor⁻¹ * content))
    (hturns : negative = true → ∀ exponent, 1 < exponent → positiveIntegerPower? p = some exponent →
      (Sequence.asFactor divided).Turns point)
    (h : (Node.paren body p negative).valueAt point = some value) :
    Sequence.valueAt point (parenQuotient divisor divided body p negative) =
      some (divisor⁻¹ * value) := by
  have hvalue {exponent : Nat} (he : Sequence.exponentAt point p = some (exponent : Rat)) :
      (if negative then -(content ^ exponent) else content ^ exponent) = value := by
    simpa [Node.valueAt_paren_of_exponent point he, hbody] using h
  rcases parenQuotient_cases divisor divided body p negative with
    heq | ⟨he, heq⟩ | ⟨exponent, remaining, hone, he, hremaining, heq⟩
  · rw [heq]
    exact valueAt_scaledQuotient point h
  · have hexponent : Sequence.exponentAt point p = some ((1 : Nat) : Rat) := by
      rcases he with rfl | he
      · simp [Sequence.exponentAt]
      · exact exponentAt_of_positiveIntegerPower? point he
    rw [heq, Sequence.valueAt_singleton, Node.valueAt_paren point .one, hdivided, ← hvalue hexponent]
    cases negative <;> simp
  · have hrest : remaining.valueAt point = some (content ^ (exponent - 1)) := by
      rcases hremaining with ⟨rfl, rfl⟩ | rfl
      · simpa using Sequence.valueAt_asFactor point hbody
      · rw [Node.valueAt_paren point (remainingPower_wholePower _ (by omega)), hbody]
        simp
    have hfirst := Sequence.valueAt_asFactor point hdivided
    have hpow : content * content ^ (exponent - 1) = content ^ exponent := by
      rw [← pow_succ', Nat.sub_add_cancel hone.le]
    rw [heq, ← hvalue (exponentAt_of_positiveIntegerPower? point he)]
    cases negative with
    | false =>
      rw [if_neg (by simp), Sequence.valueAt_pair point hfirst hrest, mul_assoc, hpow]
      simp
    | true =>
      have hnegated := hturns rfl exponent hone he _ hfirst
      rw [if_pos rfl, Sequence.valueAt_pair point hnegated hrest, neg_mul, mul_assoc, hpow,
        if_pos rfl, mul_neg]

theorem isPlain_powerQuotient {n : Number} {p : List Node} {exponent : Nat}
    (hp : WholePower p exponent) : Sequence.IsPlain x false (powerQuotient divisor n p) := by
  rcases powerQuotient_cases divisor n p with
    heq | ⟨-, heq⟩ | ⟨exponent, divided, hone, -, hdivided, heq⟩
  · rw [heq]
    exact isPlain_scaledQuotient (Node.isPlain_number hp n)
  · rw [heq]
    exact ⟨Node.isPlain_constant _, trivial⟩
  · have hremaining := remainingPower_wholePower (exponent - 1) (by omega)
    have hplain : Sequence.IsPlain x false divided := by
      rcases hdivided with ⟨rfl, -⟩ | rfl
      · exact ⟨Node.isPlain_number hremaining _, trivial⟩
      · exact ⟨Node.isPlain_constant _, by simp [Node.IsPlain],
          Node.isPlain_number hremaining _, trivial⟩
    rw [heq]
    split
    · exact Sequence.isPlain_negatedSummand hplain
    · exact hplain

theorem isPlain_parenQuotient {divided body p : List Node} {negative : Bool} {exponent : Nat}
    (hp : WholePower p exponent) (hdivided : Sequence.IsPlain x false divided)
    (hbody : Sequence.IsPlain x false body) :
    Sequence.IsPlain x false (parenQuotient divisor divided body p negative) := by
  rcases parenQuotient_cases divisor divided body p negative with
    heq | ⟨-, heq⟩ | ⟨exponent, remaining, hone, -, hremaining, heq⟩
  · rw [heq]
    exact isPlain_scaledQuotient ⟨hbody, _, hp⟩
  · rw [heq]
    exact ⟨⟨hdivided, 1, .one⟩, trivial⟩
  · have hfactor := Sequence.isPlain_asFactor hdivided
    rw [heq]
    refine ⟨?_, by simp [Node.IsPlain], ?_, trivial⟩
    · split
      · exact Node.isPlain_negated hfactor
      · exact hfactor
    · rcases hremaining with ⟨-, rfl⟩ | rfl
      · exact Sequence.isPlain_asFactor hbody
      · exact ⟨hbody, _, remainingPower_wholePower _ (by omega)⟩

/-! ## Sums -/

theorem isPlain_sumQuotient {nodes : List Node} (h : Sequence.IsPlain x false nodes)
    (hquotient : ∀ node ∈ nodes, Sequence.IsPlain x false (node.quotient divisor)) :
    Sequence.IsPlain x false (sumQuotient divisor (Sequence.quotients divisor nodes)) := by
  rw [sumQuotient, Sequence.quotients_eq_map, Sequence.summandsWith_map, List.map_map]
  refine Sequence.isPlain_join fun _ hdivided => ?_
  obtain ⟨part, hpart, rfl⟩ := List.mem_map.1 hdivided
  have hplain := Sequence.isPlain_of_mem_summands h hpart
  rcases productQuotient_cases divisor part with ⟨pre, node, post, rfl, -, heq⟩ | ⟨-, heq⟩
  · have hmem : node ∈ nodes := (Sequence.mem_of_mem_summands hpart (by simp)).1
    obtain ⟨hpre, -, hpost⟩ := Sequence.isPlain_append.1 hplain
    rw [Function.comp_apply, heq, Sequence.isPlain_append, Sequence.isPlain_append]
    exact ⟨⟨hpre, hquotient node hmem⟩, hpost⟩
  · rw [Function.comp_apply, heq]
    exact hplain

theorem Node.isPlain_quotient {node : Node} (h : node.IsPlain x false) :
    Sequence.IsPlain x false (node.quotient divisor) := by
  induction node using Node.nested_induction with
  | group letter n p =>
    obtain ⟨hletter, exponent, hp⟩ := h
    rw [Node.quotient]
    split
    · exact ⟨⟨hletter, exponent, hp⟩, trivial⟩
    · exact isPlain_powerQuotient hp
  | paren b p negative ihb =>
    obtain ⟨hb, exponent, hp⟩ := h
    refine isPlain_parenQuotient hp (isPlain_sumQuotient hb fun node hnode => ?_) hb
    exact ihb node hnode (Sequence.isPlain_iff.1 hb node hnode)
  | fraction t b iht =>
    refine ⟨⟨isPlain_sumQuotient h.1 fun node hnode => ?_, h.2⟩, trivial⟩
    exact iht node hnode (Sequence.isPlain_iff.1 h.1 node hnode)
  | operator op => exact ⟨h, trivial⟩
  | relation r => exact ⟨h, trivial⟩

theorem Sequence.isPlain_dividedBy {nodes : List Node} (h : Sequence.IsPlain x false nodes) :
    Sequence.IsPlain x false (Sequence.dividedBy divisor nodes) :=
  isPlain_sumQuotient h fun node hnode =>
    Node.isPlain_quotient (Sequence.isPlain_iff.1 h node hnode)

/-! ## Values of quotients -/

theorem Node.isTerm_of_valueAt {node : Node} {value : Rat} (h : node.valueAt point = some value) :
    node.isTerm = true := by
  cases node <;> simp_all [Node.valueAt, Node.isTerm]

theorem isProduct_scaledQuotient {node : Node} (h : node.isTerm = true) :
    Sequence.IsProduct (scaledQuotient divisor node) := by
  rw [scaledQuotient]
  split
  · exact Sequence.isProduct_singleton rfl
  · exact Sequence.isProduct_pair rfl h

theorem isProduct_powerQuotient (n : Number) (p : List Node) :
    Sequence.IsProduct (powerQuotient divisor n p) := by
  rcases powerQuotient_cases divisor n p with
    heq | ⟨-, heq⟩ | ⟨_, divided, -, -, hdivided, heq⟩
  · rw [heq]
    exact isProduct_scaledQuotient rfl
  · rw [heq]
    exact Sequence.isProduct_singleton rfl
  · rw [heq]
    rcases hdivided with ⟨rfl, -⟩ | rfl
    · split <;> exact Sequence.isProduct_singleton rfl
    · split <;> exact Sequence.isProduct_pair rfl rfl

theorem isProduct_parenQuotient {divided body p : List Node} {negative : Bool}
    (hdivided : (Sequence.asFactor divided).isTerm = true)
    (hbody : (Sequence.asFactor body).isTerm = true) :
    Sequence.IsProduct (parenQuotient divisor divided body p negative) := by
  rcases parenQuotient_cases divisor divided body p negative with
    heq | ⟨-, heq⟩ | ⟨_, remaining, -, -, hremaining, heq⟩
  · rw [heq]
    exact isProduct_scaledQuotient rfl
  · rw [heq]
    exact Sequence.isProduct_singleton rfl
  · rw [heq]
    refine Sequence.isProduct_pair ?_ ?_
    · split
      · rwa [Node.isTerm_negated]
      · exact hdivided
    · rcases hremaining with ⟨-, rfl⟩ | rfl
      · exact hbody
      · rfl

/-- Additions and multiplications are the only operators. -/
def Sequence.OnlyAddsAndMultiplies (nodes : List Node) : Prop :=
  ∀ op, .operator op ∈ nodes → op = .add ∨ op = .multiply

theorem Sequence.OnlyAddsAndMultiplies.of_mem_summands {nodes part : List Node}
    (h : Sequence.OnlyAddsAndMultiplies nodes) (hpart : part ∈ Sequence.summands nodes) :
    Sequence.IsProduct part ∧ .operator .divide ∉ part := by
  have hmultiply {op : Operator} (hop : .operator op ∈ part) : op = .multiply := by
    obtain ⟨hmem, hadd⟩ := Sequence.mem_of_mem_summands hpart hop
    exact (h op hmem).resolve_left fun heq => hadd (congrArg Node.operator heq)
  exact ⟨fun op hop => hmultiply hop ▸ rfl, fun hop => by cases hmultiply hop⟩

theorem valueAt_productQuotient {part : List Node} {value : Rat}
    (hproduct : Sequence.IsProduct part) (hdivide : .operator .divide ∉ part)
    (hquotient : ∀ node ∈ part, ∀ v, node.valueAt point = some v →
      Sequence.valueAt point (node.quotient divisor) = some (divisor⁻¹ * v) ∧
        Sequence.IsProduct (node.quotient divisor))
    (h : Sequence.valueAt point part = some value) :
    Sequence.valueAt point
        (productQuotient divisor (part.map fun node => (node, node.quotient divisor))) =
      some (divisor⁻¹ * value) := by
  rcases productQuotient_cases divisor part with ⟨pre, node, post, rfl, hterm, heq⟩ | ⟨hnone, -⟩
  · have hmem : node ∈ pre ++ node :: post := by simp
    rcases Sequence.valueAt_of_mem point h hmem with ⟨v, hv⟩ | ⟨op, rfl⟩
    · obtain ⟨hvalue, hfactors⟩ := hquotient node hmem v hv
      rw [heq]
      exact Sequence.valueAt_exchange point pre divisor⁻¹ hproduct hfactors
        (fun hop => hdivide (List.mem_append_left _ hop)) hv hvalue h
    · cases hterm
  · cases part with
    | nil => simp [Sequence.valueAt] at h
    | cons node rest =>
      have hnode := hnone node (.head _)
      cases node <;> simp_all [Node.isTerm, Sequence.valueAt, Node.valueAt]

theorem valueAt_sumQuotient (divisor : Rat) {nodes : List Node} {value : Rat}
    (hoperators : Sequence.OnlyAddsAndMultiplies nodes)
    (hquotient : ∀ node ∈ nodes, ∀ v, node.valueAt point = some v →
      Sequence.valueAt point (node.quotient divisor) = some (divisor⁻¹ * v) ∧
        Sequence.IsProduct (node.quotient divisor))
    (h : Sequence.valueAt point nodes = some value) :
    Sequence.valueAt point (sumQuotient divisor (Sequence.quotients divisor nodes)) =
      some (divisor⁻¹ * value) := by
  rw [sumQuotient, Sequence.quotients_eq_map, Sequence.summandsWith_map, List.map_map]
  refine Sequence.valueAt_join point
    (Sequence.sumAt_map point _ divisor⁻¹ ?_ (Sequence.sumAt_summands point h))
  intro part hpart v hv
  obtain ⟨hproduct, hdivide⟩ := hoperators.of_mem_summands hpart
  exact valueAt_productQuotient point hproduct hdivide
    (fun node hnode => hquotient node (Sequence.mem_of_mem_summands hpart hnode).1) hv

end

end OneUnknown
