import OneUnknown.Proofs.Reading
import OneUnknown.Proofs.Outcome
import OneUnknown.Evaluation
/-!
# Evaluation agrees with the meaning

`Sequence.evaluate` replaces terms by numbers and applies operators in place, one precedence after
the other.  Where it gives a value, that is the value of the sequence.

* `Rational.exactPower?_of_power`: powers;
* `OperatorsApplied`: how the operators of one precedence are applied;
* `Sequence.read_applied`: applying products and quotients first changes nothing in reading;
* `Node.CollapsesTo`: how a term becomes a plain number;
* `Sequence.valueAt_of_evaluate`: the value of a sequence.
-/

namespace OneUnknown

/-! ## Powers -/

theorem Rational.integerPower_eq_ok {base value : Rat} {exponent : Int}
    (h : Rational.integerPower base exponent = .ok value) :
    ¬(base = 0 ∧ exponent < 0) ∧ value = base ^ exponent := by
  rw [Rational.integerPower] at h
  split at h
  · cases h
  · by_cases hneg : exponent < 0
    · rw [if_pos hneg] at h
      split at h
      · cases h
      · rename_i hbase
        refine ⟨fun hzero => hbase hzero.1, ?_⟩
        obtain rfl : base⁻¹ ^ exponent.natAbs = value := by simpa using h
        rw [inv_pow, ← zpow_natCast, ← zpow_neg, Int.ofNat_natAbs_of_nonpos hneg.le, neg_neg]
    · rw [if_neg hneg] at h
      refine ⟨fun hzero => hneg hzero.2, ?_⟩
      obtain rfl : base ^ exponent.natAbs = value := by simpa using h
      rw [← zpow_natCast, Int.natAbs_of_nonneg (not_lt.1 hneg)]

theorem Rational.exactPower?_of_power {base exponent value : Rat}
    (h : Rational.power base exponent = .ok value) :
    Rational.exactPower? base exponent = some value := by
  rw [Rational.power] at h
  rw [Rational.exactPower?]
  split at h
  · rename_i hden
    obtain ⟨hzero, rfl⟩ := Rational.integerPower_eq_ok h
    rw [Rat.num_neg] at hzero
    rw [if_pos hden, if_neg hzero]
  · rename_i hden
    rw [if_neg hden]
    split at h
    · cases h
    · cases hroot : Rational.exactRoot base exponent.den with
      | none =>
        rw [hroot] at h
        cases h
      | some root =>
        rw [hroot] at h
        obtain ⟨hzero, rfl⟩ := Rational.integerPower_eq_ok h
        rw [Rat.num_neg] at hzero
        exact if_neg hzero

theorem Number.powerValue?_of_signedPower {n : Number} {exponent value : Rat}
    (h : Rational.signedPower n.value exponent = .ok value) :
    n.powerValue? exponent = some value := by
  cases hpower : Rational.power (Rational.magnitude n.value) exponent with
  | error e => simp [Rational.signedPower, hpower, bind, Except.bind] at h
  | ok power =>
    have hvalue : (if n.value < 0 then -power else power) = value := by
      simpa [Rational.signedPower, hpower, bind, Except.bind, pure, Except.pure] using h
    simp [Number.powerValue?, Rational.exactPower?_of_power hpower, hvalue]

theorem exactly_eq_ok {α : Type} {result : Except EvaluationError α} {value : α}
    (h : exactly result = .ok value) : result = .ok value := by
  cases result with
  | ok v => simpa [exactly, Except.mapError] using h
  | error e => cases h

theorem Rational.quotient?_of_divide {left right value : Rat}
    (h : Rational.divide left right = .ok value) : Rational.quotient? left right = some value := by
  rw [Rational.divide] at h
  rw [Rational.quotient?]
  split at h
  · cases h
  · rename_i hzero
    simpa [hzero] using h

/-! ## Operators -/

/-- How the operators of one precedence are applied: a number that is held is replaced by the result
if such an operator follows, and goes on a stack otherwise. -/
inductive OperatorsApplied (tighter : Bool) :
    (before : List Node) → (held : Node) → (rest out : List Node) → Prop where
  | nil (before held) : OperatorsApplied tighter before held [] (before.reverse ++ [held])
  | apply {before held op next rest out left right value} (hop : op.bindsTighter = tighter)
      (hleft : held.operand = .ok left) (hright : next.operand = .ok right)
      (hvalue : op.apply left right = .ok value)
      (tail : OperatorsApplied tighter before (Node.constant value) rest out) :
      OperatorsApplied tighter before held (.operator op :: next :: rest) out
  | next {before held node rest out}
      (hnode : ∀ op, node = .operator op → op.bindsTighter ≠ tighter)
      (tail : OperatorsApplied tighter (held :: before) node rest out) :
      OperatorsApplied tighter before held (node :: rest) out

theorem OperatorsApplied.of_appliedFrom {tighter : Bool} {before : List Node} {held : Node}
    {rest out : List Node} (h : Sequence.appliedFrom tighter before held rest = .ok out) :
    OperatorsApplied tighter before held rest out := by
  fun_induction Sequence.appliedFrom tighter before held rest with
  | case1 before held =>
    obtain rfl := Except.ok.inj h
    exact .nil before held
  | case2 => cases h
  | case3 before held op hop next rest ih =>
    obtain ⟨left, hleft, h⟩ := Except.bind_eq_ok.1 h
    obtain ⟨right, hright, h⟩ := Except.bind_eq_ok.1 h
    obtain ⟨value, hvalue, h⟩ := Except.bind_eq_ok.1 h
    exact .apply hop hleft hright hvalue (ih value h)
  | case4 before held op rest hop ih =>
    refine .next ?_ (ih h)
    rintro _ ⟨rfl⟩
    exact hop
  | case5 before held node rest hnode ih =>
    exact .next (fun op hop => (hnode op hop).elim) (ih h)

theorem OperatorsApplied.of_applied {tighter : Bool} {nodes out : List Node}
    (h : Sequence.applied tighter nodes = .ok out) :
    nodes = [] ∧ out = [] ∨
    ∃ first rest, nodes = first :: rest ∧
      (∀ op, first = .operator op → op.bindsTighter ≠ tighter) ∧
      OperatorsApplied tighter [] first rest out := by
  cases nodes with
  | nil => exact .inl ⟨rfl, (Except.ok.inj h).symm⟩
  | cons first rest =>
    refine .inr ⟨first, rest, rfl, ?_⟩
    cases first with
    | operator op =>
      rw [Sequence.applied] at h
      split at h
      · cases h
      · rename_i hop
        refine ⟨?_, of_appliedFrom h⟩
        rintro _ ⟨rfl⟩
        exact hop
    | _ =>
      refine ⟨?_, of_appliedFrom h⟩
      rintro _ ⟨⟩

section

variable (point : Char → Rat)

theorem Node.operand_eq_ok {node : Node} {value : Rat} (h : node.operand = .ok value) :
    node.valueAt point = some value := by
  unfold Node.operand at h
  split at h
  · simpa [Node.valueAt] using h
  · cases h

/-- Applying an operator that binds tighter than what stands before it. -/
theorem Reading.accept_applied {s : Reading} {op : Operator} {left right value : Rat}
    (hs : ∀ total product op, s = .expecting total product op → op.bindsTighter = false)
    (hop : op.bindsTighter = true) (h : op.apply left right = .ok value) :
    ((s.accept left).next point (.operator op)).accept right = s.accept value := by
  rcases s with ⟨total, product, before⟩ | _ | _
  · have hbefore := hs total product before rfl
    cases op with
    | add | subtract => cases hop
    | multiply =>
      obtain rfl : left * right = value := by simpa [Operator.apply] using h
      cases before <;> simp_all [Reading.accept, Operator.bindsTighter]
    | divide =>
      have hquotient := Rational.quotient?_of_divide (exactly_eq_ok h)
      have hneg : Rational.quotient? (-left) right = some (-value) := by
        rw [Rational.quotient?] at hquotient ⊢
        split at hquotient
        · cases hquotient
        · rename_i hright
          obtain rfl : left / right = value := by simpa using hquotient
          rw [if_neg hright, neg_div]
      cases before <;> simp_all [Reading.accept, Operator.bindsTighter]
  · rfl
  · rfl

/-- Products and quotients that have been applied are read as before. -/
theorem OperatorsApplied.read_eq {before : List Node} {held : Node} {rest out : List Node}
    (h : OperatorsApplied true before held rest out)
    (hbefore : ∀ op, .operator op ∈ held :: before → op.bindsTighter = false) :
    Sequence.read point .start out =
      Sequence.read point .start (before.reverse ++ held :: rest) := by
  induction h with
  | nil before held => rfl
  | apply hop hleft hright hvalue tail ih =>
    rename_i before held op next rest out left right value
    have hpushed : ∀ op, .operator op ∈ before → op.bindsTighter = false :=
      fun op hmem => hbefore op (.tail _ hmem)
    rw [ih (by simpa [Node.constant, Group.toNode] using hpushed)]
    simp only [Sequence.read_append, Sequence.read_cons]
    rw [Reading.next_of_valueAt point (Node.valueAt_constant point value),
      Reading.next_of_valueAt point (Node.operand_eq_ok point hleft),
      Reading.next_of_valueAt point (Node.operand_eq_ok point hright),
      Reading.accept_applied point _ hop hvalue]
    intro total product op' hs
    by_cases hnil : before = []
    · subst hnil
      cases hs
      rfl
    · have hmem := Sequence.operator_of_read point hs (by simpa using hnil)
      exact hpushed op' (List.mem_reverse.1 hmem)
  | next hnode tail ih =>
    rw [ih]
    · simp
    · intro op hop
      rcases List.mem_cons.1 hop with heq | hop
      · simpa using hnode op heq.symm
      · exact hbefore op hop

theorem Sequence.read_applied {nodes out : List Node}
    (h : Sequence.applied true nodes = .ok out) :
    Sequence.read point .start out = Sequence.read point .start nodes := by
  obtain ⟨rfl, rfl⟩ | ⟨first, rest, rfl, hfirst, happlied⟩ := OperatorsApplied.of_applied h
  · rfl
  · refine happlied.read_eq point fun op hop => ?_
    simpa using hfirst op (List.mem_singleton.1 hop).symm

theorem OperatorsApplied.length_lt {tighter : Bool} {before : List Node} {held : Node}
    {rest out : List Node} (h : OperatorsApplied tighter before held rest out) :
    before.length < out.length := by
  induction h with
  | nil before held => simp
  | apply hop hleft hright hvalue tail ih => exact ih
  | next hnode tail ih => exact Nat.lt_of_succ_lt ih

/-- If one number is left of sums and differences, they are worth that number. -/
theorem OperatorsApplied.valueAfter_eq {before : List Node} {held : Node} {rest out : List Node}
    {node : Node} {value : Rat} (h : OperatorsApplied false before held rest out)
    (hout : out = [node]) (hnode : node.operand = .ok value) :
    ∃ first, held.operand = .ok first ∧ ∀ total product, total + product = first →
      Sequence.valueAfter point total product rest = some value := by
  induction h with
  | nil before held =>
    obtain rfl : held = node := by simpa using congrArg List.getLast? hout
    exact ⟨value, hnode, by simp [Sequence.valueAfter]⟩
  | apply hop hleft hright hvalue tail ih =>
    rename_i before held op next rest out left right first
    obtain ⟨_, hconstant, hrest⟩ := ih hout
    obtain rfl : first = _ := by
      simpa [Node.constant, Group.constant, Group.toNode, Node.operand] using hconstant
    refine ⟨left, hleft, fun total product hsum => ?_⟩
    cases op with
    | multiply | divide => cases hop
    | add =>
      obtain rfl : left + right = first := by simpa [Operator.apply] using hvalue
      simpa [Sequence.valueAfter, Node.operand_eq_ok point hright] using
        hrest (total + product) right (by rw [hsum])
    | subtract =>
      obtain rfl : left - right = first := by simpa [Operator.apply] using hvalue
      simpa [Sequence.valueAfter, Node.operand_eq_ok point hright] using
        hrest (total + product) (-right) (by rw [hsum, sub_eq_add_neg])
  | next hkept tail ih =>
    -- The stack never gets shorter, so more than one node would be left.
    have hlength := tail.length_lt
    simp [hout] at hlength

theorem Sequence.valueAt_of_applied {nodes : List Node} {node : Node} {value : Rat}
    (h : Sequence.applied false nodes = .ok [node]) (hnode : node.operand = .ok value) :
    Sequence.valueAt point nodes = some value := by
  obtain ⟨-, hnil⟩ | ⟨first, rest, rfl, -, happlied⟩ := OperatorsApplied.of_applied h
  · cases hnil
  · obtain ⟨value', hfirst, hrest⟩ := happlied.valueAfter_eq point rfl hnode
    rw [Sequence.valueAt, Node.operand_eq_ok point hfirst]
    exact hrest 0 value' (zero_add value')

/-! ## Terms -/

theorem Sequence.collapsed_eq_map (nodes : List Node) :
    Sequence.collapsed nodes = nodes.map fun node => (node, node.collapse) := by
  induction nodes with
  | nil => rfl
  | cons node rest ih => rw [Sequence.collapsed, ih, List.map_cons]

/-- A sequence with a value collapses to operators and numbers, of which first the products and then
the sums leave a number behind. -/
theorem Sequence.exists_applied_of_combined {nodes : List Node} {value : Rat}
    (h : combined (Sequence.collapsed nodes) = .ok value) :
    ∃ terms products last,
      (nodes.map fun node => (node, node.collapse)).mapM (fun term => term.2) = .ok terms ∧
      Sequence.applied true terms = .ok products ∧ Sequence.applied false products = .ok [last] ∧
      last.operand = .ok value := by
  rw [combined, Sequence.collapsed_eq_map] at h
  obtain ⟨-, -, h⟩ := Except.bind_eq_ok.1 h
  obtain ⟨-, -, h⟩ := Except.bind_eq_ok.1 h
  obtain ⟨terms, hterms, h⟩ := Except.bind_eq_ok.1 h
  obtain ⟨products, hproducts, h⟩ := Except.bind_eq_ok.1 h
  obtain ⟨sums, hsums, h⟩ := Except.bind_eq_ok.1 h
  split at h
  · rename_i last
    exact ⟨terms, products, last, hterms, hproducts, hsums, h⟩
  · cases h

/-- Terms that are replaced by numbers of the same value are read in the same way. -/
theorem Sequence.valueAt_of_combined {nodes : List Node} {value : Rat}
    (hcollapse : ∀ node ∈ nodes, ∀ node', node.collapse = .ok node' →
      node' = node ∨ ∃ v, node.valueAt point = some v ∧ node'.valueAt point = some v)
    (h : combined (Sequence.collapsed nodes) = .ok value) :
    Sequence.valueAt point nodes = some value := by
  obtain ⟨terms, products, last, hterms, hproducts, hlast, h⟩ :=
    Sequence.exists_applied_of_combined h
  have hread : Sequence.read point .start terms = Sequence.read point .start nodes := by
    refine Sequence.read_congr point
      ((List.forall₂_map_left_iff.1 (Except.forall₂_of_mapM hterms)).imp ?_) _
    rintro node node' ⟨hmem, hnode⟩ s
    replace hmem : node ∈ nodes := by simpa using hmem
    rcases hcollapse node hmem node' hnode with rfl | ⟨v, hv, hv'⟩
    · rfl
    · rw [Reading.next_of_valueAt point hv, Reading.next_of_valueAt point hv']
  have hvalue := Sequence.valueAt_of_applied point hlast h
  rwa [Sequence.valueAt_eq, Sequence.read_applied point hproducts, hread,
    ← Sequence.valueAt_eq] at hvalue

/-- What a term becomes: a plain number, unless it is one or has a letter. -/
inductive Node.CollapsesTo : Node → Node → Prop where
  | operator (op) : CollapsesTo (.operator op) (.operator op)
  | relation (r) : CollapsesTo (.relation r) (.relation r)
  | group (letter n) : CollapsesTo (.group letter n []) (.group letter n [])
  | power {n p exponent v} (hp : p ≠ [])
      (hexponent : combined (Sequence.collapsed p) = .ok exponent)
      (hv : Rational.signedPower n.value exponent = .ok v) :
      CollapsesTo (.group none n p) (.constant v)
  | paren {b content} (negative) (hcontent : combined (Sequence.collapsed b) = .ok content) :
      CollapsesTo (.paren b [] negative) (.constant (if negative then -content else content))
  | parenPower {b p content exponent v} (negative) (hp : p ≠ [])
      (hcontent : combined (Sequence.collapsed b) = .ok content)
      (hexponent : combined (Sequence.collapsed p) = .ok exponent)
      (hv : Rational.power content exponent = .ok v) :
      CollapsesTo (.paren b p negative) (.constant (if negative then -v else v))
  | fraction {t b top bottom v} (htop : combined (Sequence.collapsed t) = .ok top)
      (hbottom : combined (Sequence.collapsed b) = .ok bottom)
      (hv : Rational.divide top bottom = .ok v) : CollapsesTo (.fraction t b) (.constant v)

theorem Node.CollapsesTo.of_collapse {node node' : Node} (h : node.collapse = .ok node') :
    node.CollapsesTo node' := by
  cases node with
  | operator op =>
    rw [Node.collapse] at h
    exact Except.ok.inj h ▸ .operator op
  | relation r =>
    rw [Node.collapse] at h
    exact Except.ok.inj h ▸ .relation r
  | group letter n p =>
    rw [Node.collapse] at h
    split at h
    · rename_i hp
      obtain rfl := List.isEmpty_iff.1 hp
      exact Except.ok.inj h ▸ .group letter n
    · rename_i hp
      split at h
      · cases h
      · rename_i hletter
        obtain ⟨exponent, hexponent, h⟩ := Except.bind_eq_ok.1 h
        obtain ⟨v, hv, h⟩ := Except.bind_eq_ok.1 h
        obtain rfl : letter = none := by simpa using hletter
        exact Except.pure_eq_ok.1 h ▸ .power (by simpa using hp) hexponent (exactly_eq_ok hv)
  | paren b p negative =>
    rw [Node.collapse] at h
    obtain ⟨content, hcontent, h⟩ := Except.bind_eq_ok.1 h
    dsimp only at h
    split at h
    · rename_i hp
      obtain rfl := Except.pure_eq_ok.1 h
      obtain rfl := List.isEmpty_iff.1 hp
      exact .paren negative hcontent
    · rename_i hp
      obtain ⟨exponent, hexponent, h⟩ := Except.bind_eq_ok.1 h
      obtain ⟨v, hv, h⟩ := Except.bind_eq_ok.1 h
      obtain rfl := Except.pure_eq_ok.1 h
      exact .parenPower negative (by simpa using hp) hcontent hexponent (exactly_eq_ok hv)
  | fraction t b =>
    rw [Node.collapse] at h
    obtain ⟨top, htop, h⟩ := Except.bind_eq_ok.1 h
    obtain ⟨bottom, hbottom, h⟩ := Except.bind_eq_ok.1 h
    obtain ⟨v, hv, h⟩ := Except.bind_eq_ok.1 h
    exact Except.pure_eq_ok.1 h ▸ .fraction htop hbottom (exactly_eq_ok hv)

theorem Node.valueAt_of_collapse {node node' : Node} (h : node.collapse = .ok node') :
    node' = node ∨ ∃ v, node.valueAt point = some v ∧ node'.valueAt point = some v := by
  induction node using Node.nested_induction generalizing node' with
  | operator | relation =>
    cases Node.CollapsesTo.of_collapse h
    exact .inl rfl
  | group letter n p ihp =>
    cases Node.CollapsesTo.of_collapse h with
    | group => exact .inl rfl
    | power hp hexponent hv =>
      have hpower := Sequence.valueAt_of_combined point (fun n hn n' => ihp n hn) hexponent
      refine .inr ⟨_, ?_, Node.valueAt_constant point _⟩
      simpa [Node.valueAt, hp, hpower] using Number.powerValue?_of_signedPower hv
  | paren b p negative ihb ihp =>
    cases Node.CollapsesTo.of_collapse h with
    | paren _ hcontent =>
      have hb := Sequence.valueAt_of_combined point (fun n hn n' => ihb n hn) hcontent
      refine .inr ⟨_, ?_, Node.valueAt_constant point _⟩
      simp [Node.valueAt, hb]
    | parenPower _ hp hcontent hexponent hv =>
      have hb := Sequence.valueAt_of_combined point (fun n hn n' => ihb n hn) hcontent
      have hpower := Sequence.valueAt_of_combined point (fun n hn n' => ihp n hn) hexponent
      refine .inr ⟨_, ?_, Node.valueAt_constant point _⟩
      simp [Node.valueAt, hb, hp, hpower, Rational.exactPower?_of_power hv]
  | fraction t b iht ihb =>
    cases Node.CollapsesTo.of_collapse h with
    | fraction htop hbottom hv =>
      have ht := Sequence.valueAt_of_combined point (fun n hn n' => iht n hn) htop
      have hb := Sequence.valueAt_of_combined point (fun n hn n' => ihb n hn) hbottom
      refine .inr ⟨_, ?_, Node.valueAt_constant point _⟩
      simp [Node.valueAt, ht, hb, Rational.quotient?_of_divide hv]

/-- Evaluation gives the value of the sequence, whatever its variables are worth. -/
theorem Sequence.valueAt_of_evaluate {nodes : List Node} {value : Rat}
    (h : Sequence.evaluate nodes = .ok value) : Sequence.valueAt point nodes = some value :=
  Sequence.valueAt_of_combined point (fun _ _ _ => Node.valueAt_of_collapse point) h

theorem Group.toNode_of_asGroup? {node : Node} {g : Group} (h : node.asGroup? = some g) :
    g.toNode = node := by
  cases node <;> cases h
  rfl

theorem Group.valueAt_of_value {g : Group} {value : Rat} (h : g.value = .ok value) :
    g.toNode.valueAt point = some value := by
  rw [Group.value] at h
  split at h
  · cases h
  · rename_i hletter
    obtain ⟨letter, n, p⟩ := g
    obtain rfl : letter = none := by simpa using hletter
    split at h
    · rename_i hp
      obtain rfl : n.value = value := by simpa [Group.coefficient] using h
      obtain rfl : p = [] := by simpa using hp
      simp [Group.toNode, Node.valueAt]
    · rename_i hp
      obtain ⟨exponent, hexponent, h⟩ := Except.bind_eq_ok.1 h
      have hpower := Sequence.valueAt_of_evaluate point hexponent
      simpa [Group.toNode, Node.valueAt, hp, hpower] using
        Number.powerValue?_of_signedPower (exactly_eq_ok h)

end

end OneUnknown
