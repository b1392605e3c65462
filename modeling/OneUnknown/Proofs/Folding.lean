import OneUnknown.Proofs.Product
/-!
# Products are multiplied out once

A product that is refused stays refused when its second factor is multiplied with what follows it,
so nothing is left to be multiplied out after one pass.

* `Group.multiply_eq_none`: which products are refused;
* `Node.multiply_refused`: they stay refused;
* `ProductsFolded.again`, `ProductsFolded.refused_within`: the pass changes nothing a second time,
  since all products that it leaves are refused;
* `Sequence.multiplied_leaves_refused`: and it keeps the value of a sequence without divisions,
  whatever the exponents of its variables are.
-/

namespace OneUnknown

/-! ## Refused products -/

namespace Group

theorem resolved?_of_letter {g : Group} {name : Char} (h : g.letter = some name) :
    g.resolved? = some g := by
  rw [Group.resolved?, if_neg (by simp [h])]

/-- A product of two groups is refused if one of them is a number whose power cannot be written out,
or if one of two powers of a variable has no exponent. -/
theorem multiply_eq_none {left right : Group} :
    left.multiply right = .ok none ↔ left.resolved? = none ∨ right.resolved? = none ∨
      ∃ l r name, left.resolved? = some l ∧ right.resolved? = some r ∧ l.letter = some name ∧
        r.letter = some name ∧ (l.exponent? = none ∨ r.exponent? = none) := by
  rw [Group.multiply]
  rcases left.resolved? with _ | ⟨_ | a, n, p⟩
  · simp
  · rcases right.resolved? with _ | ⟨_ | b, m, q⟩ <;> simp
  · rcases right.resolved? with _ | ⟨_ | b, m, q⟩
    · simp
    · simp
    · by_cases hab : a = b
      · subst hab
        rcases hp : Group.exponent? ⟨some a, n, p⟩ with _ | e <;>
          rcases hq : Group.exponent? ⟨some a, m, q⟩ with _ | f <;> simp [hp, hq]
      · simp [hab]

theorem multiply_refused {held next third product : Group} (hrefused : held.multiply next = .ok none)
    (hproduct : next.multiply third = .ok (some product)) : held.multiply product = .ok none := by
  obtain ⟨l, r, hl, -, hcases⟩ := multiply_cases hproduct
  rcases multiply_eq_none.1 hrefused with hheld | hnext |
    ⟨h, l', name, hh, hl', hhl, hll, hexponent⟩
  · exact multiply_eq_none.2 (.inl hheld)
  · cases hl.symm.trans hnext
  · obtain rfl := Option.some.inj (hl.symm.trans hl')
    refine multiply_eq_none.2 (.inr (.inr ⟨h, product, name, hh, ?_⟩))
    -- The product is a power of the same variable, and it has an exponent only if `next` has one.
    rcases hcases with ⟨hnone, -, -⟩ | ⟨-, -, rfl⟩ | ⟨hnone, -, -⟩ |
      ⟨other, p, q, hother, -, hp, -, rfl⟩
    · cases hll.symm.trans hnone
    · exact ⟨resolved?_of_letter hll, hhl, hll, hexponent⟩
    · cases hll.symm.trans hnone
    · obtain rfl := Option.some.inj (hll.symm.trans hother)
      refine ⟨resolved?_of_letter rfl, hhl, rfl, .inl (hexponent.resolve_right ?_)⟩
      simp [hp]

end Group

theorem Node.multiply_refused {held next third product : Node}
    (hrefused : held.multiply next = .ok none)
    (hproduct : next.multiply third = .ok (some product)) : held.multiply product = .ok none := by
  obtain ⟨l, r, g, hl, -, hg, rfl⟩ := Node.multiply_eq_some hproduct
  rw [Node.multiply, hl] at hrefused
  rw [Node.multiply]
  cases hheld : held.asGroup? with
  | none => rfl
  | some h =>
    rw [hheld] at hrefused
    obtain ⟨result, hresult, hnone⟩ := Except.bind_eq_ok.1 hrefused
    obtain rfl : result = none := by simpa using Except.pure_eq_ok.1 hnone
    simp only [Group.toNode, Node.asGroup?]
    rw [Group.multiply_refused hresult hg]
    rfl

/-! ## Sequences -/

/-- A product that is refused is refused after its second factor has been multiplied out. -/
theorem ProductsFolded.refused {held next : Node} {rest out : List Node}
    (h : ProductsFolded next rest out) (hrefused : held.multiply next = .ok none) :
    ∃ first tail, out = first :: tail ∧ held.multiply first = .ok none := by
  induction h with
  | nil next => exact ⟨next, [], rfl, hrefused⟩
  | fold hproduct _ ih => exact ih (Node.multiply_refused hrefused hproduct)
  | @next next _ _ out => exact ⟨next, out, rfl, hrefused⟩

theorem ProductsFolded.of_operator {op : Operator} {rest out : List Node}
    (h : ProductsFolded (.operator op) rest out) :
    out = [.operator op] ∧ rest = [] ∨ ∃ node rest' out', rest = node :: rest' ∧
      out = .operator op :: out' ∧ ProductsFolded node rest' out' := by
  cases h with
  | nil => exact .inl ⟨rfl, rfl⟩
  | fold hproduct => cases hproduct
  | next _ tail => exact .inr ⟨_, _, _, rfl, rfl, tail⟩

/-- What comes out first is the node that was held, or else a product. -/
theorem ProductsFolded.eq_of_operator {held : Node} {op : Operator} {rest tail : List Node}
    (h : ProductsFolded held rest (.operator op :: tail)) : held = .operator op := by
  generalize hout : Node.operator op :: tail = out at h
  induction h with
  | nil => exact (List.cons.inj hout).1.symm
  | fold hproduct _ ih =>
    obtain ⟨-, -, g, -, -, -, rfl⟩ := Node.multiply_eq_some hproduct
    cases ih hout
  | next => exact (List.cons.inj hout).1.symm

/-- Where an operator `*` comes out behind a node that was held, the operator stood there before, and
what follows it was refused. -/
theorem ProductsFolded.refused_of_multiply {held node second : Node} {rest tail : List Node}
    (h : ProductsFolded node rest (.operator .multiply :: second :: tail))
    (hrefused : ∀ next rest', node = .operator .multiply → rest = next :: rest' →
      held.multiply next = .ok none) : held.multiply second = .ok none := by
  obtain rfl := h.eq_of_operator
  rcases h.of_operator with ⟨hout, -⟩ | ⟨next, rest', out', rfl, hout, hnext⟩
  · cases hout
  · obtain ⟨first, tail', rfl, hfirst⟩ := hnext.refused (hrefused next rest' rfl rfl)
    cases hout
    exact hfirst

/-- What has been multiplied out is multiplied out to itself. -/
theorem ProductsFolded.again {held : Node} {rest out : List Node} (h : ProductsFolded held rest out) :
    ∃ first tail, out = first :: tail ∧ ProductsFolded first tail out := by
  induction h with
  | nil held => exact ⟨held, [], rfl, .nil held⟩
  | fold _ _ ih => exact ih
  | @next held node rest out hrefused tail ih =>
    obtain ⟨first, tail', rfl, hfirst⟩ := ih
    refine ⟨held, _, rfl, .next ?_ hfirst⟩
    rintro second tail'' rfl rfl
    exact tail.refused_of_multiply hrefused

/-- All products that are left are refused. -/
theorem ProductsFolded.refused_within {held left right : Node} {rest out : List Node}
    (h : ProductsFolded held rest out) (hproduct : [left, .operator .multiply, right] <:+: out) :
    left.multiply right = .ok none := by
  induction h with
  | nil => simpa using hproduct.length_le
  | fold _ _ ih => exact ih hproduct
  | @next held node rest out hrefused tail ih =>
    rcases List.infix_cons_iff.1 hproduct with ⟨after, hout⟩ | hlater
    · obtain ⟨rfl, rfl⟩ := List.cons.inj hout
      exact tail.refused_of_multiply hrefused
    · exact ih hlater

/-- Multiplying out groups once leaves only products that are refused, so that nothing is left to do,
and it keeps every value of a sequence without divisions, whatever rational exponents the variables
have. -/
theorem Sequence.multiplied_leaves_refused {nodes out : List Node}
    (h : Sequence.multiplied nodes = .ok out) :
    Sequence.multiplied out = .ok out ∧
      (∀ left right, [left, .operator .multiply, right] <:+: out →
        left.multiply right = .ok none) ∧
      (.operator .divide ∉ nodes → ∀ (point : Char → Rat) (v : Rat),
        Sequence.valueAt point nodes = some v → Sequence.valueAt point out = some v) := by
  refine ⟨?_, fun left right hproduct => ?_, fun hdivide point v =>
    Sequence.valueAt_multiplied point h hdivide⟩
  · cases nodes with
    | nil => exact Except.ok.inj h ▸ h
    | cons node rest =>
      obtain ⟨first, tail, rfl, hagain⟩ := (ProductsFolded.of_multipliedAfter h).again
      exact hagain.multipliedAfter_eq
  · cases nodes with
    | nil =>
      obtain rfl := Except.ok.inj h
      simpa using hproduct.length_le
    | cons node rest => exact (ProductsFolded.of_multipliedAfter h).refused_within hproduct

/-- Where `x` is `-32768`, `x ^ (0x) * x ^ (1 / 3) * 2x ^ (1 / 5) + 7` is worth `519`.  Its first
product is refused, before and after the second one has become `2x ^ (8 / 15)`. -/
theorem Sequence.multiplied_leaves_refused_roots :
    ∃ refused product out, Sequence.multiplied out = .ok out ∧
      [refused, .operator .multiply, product] <:+: out ∧ refused.multiply product = .ok none ∧
      ∃ nodes, Sequence.multiplied nodes = .ok out ∧ .operator .divide ∉ nodes ∧
        Sequence.valueAt (everywhere (-32768)) nodes = some 519 ∧
        Sequence.valueAt (everywhere (-32768)) out = some 519 := by
  let refused : Node := .group (some 'x') (Number.ofNat 1) [.group (some 'x') Number.zero []]
  let product : Node := .group (some 'x') (Number.ofNat 2) [Node.constant (8 / 15)]
  let nodes : List Node := [refused, .operator .multiply,
    .group (some 'x') (Number.ofNat 1) [.fraction [Node.constant 1] [Node.constant 3]],
    .operator .multiply,
    .group (some 'x') (Number.ofNat 2) [.fraction [Node.constant 1] [Node.constant 5]],
    .operator .add, Node.constant 7]
  let out : List Node := [refused, .operator .multiply, product, .operator .add, Node.constant 7]
  have hmultiplied : Sequence.multiplied nodes = .ok out := by decide +kernel
  have hdivide : .operator .divide ∉ nodes := by decide +kernel
  have hvalue : Sequence.valueAt (everywhere (-32768)) nodes = some 519 := by decide +kernel
  have hproduct : [refused, .operator .multiply, product] <:+: out :=
    ⟨[], [.operator .add, Node.constant 7], rfl⟩
  have h := Sequence.multiplied_leaves_refused hmultiplied
  exact ⟨refused, product, out, h.1, hproduct, h.2.1 _ _ hproduct, nodes, hmultiplied, hdivide,
    hvalue, h.2.2 hdivide _ _ hvalue⟩

end OneUnknown
