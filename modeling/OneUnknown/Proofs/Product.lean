import OneUnknown.Product
import OneUnknown.Proofs.Evaluation
import OneUnknown.Proofs.ExactPowers
import OneUnknown.Proofs.Plain
/-!
# Multiplying groups

* `Group.resolved?_cases`, `Group.multiply_cases`: how two groups are multiplied;
* `Group.valueAt_multiply`: the product of two groups is worth the product of their values;
* `ProductsFolded`: how the products of groups in a sequence are multiplied out, which
  `Sequence.multipliedAfter` does (`ProductsFolded.of_multipliedAfter`,
  `ProductsFolded.multipliedAfter_eq`);
* `Sequence.valueAt_multiplied` and `Sequence.isPlain_multiplied`: the pass keeps the value of a
  sequence without divisions, and a plain sequence plain.
-/

namespace OneUnknown

/-! ## Groups -/

namespace Group

variable {x : Char}

/-- A group with a whole power and no variable other than `x`. -/
def IsPlain (x : Char) (g : Group) : Prop := g.toNode.IsPlain x false

theorem isPlain_constant (x : Char) (value : Rat) : (Group.constant value).IsPlain x :=
  Node.isPlain_constant value

theorem isPlain_of_asGroup? {node : Node} {g : Group} (h : node.asGroup? = some g)
    (hnode : node.IsPlain x false) : g.IsPlain x := by
  cases node <;> cases h
  exact hnode

section

variable (point : Char → Rat)

/-- The value of a plain group. -/
def valueOf (g : Group) (exponent : Nat) : Rat :=
  match g.letter with
  | some name => g.number.value * point name ^ exponent
  | none => g.number.signedPower exponent

theorem valueAt_toNode {g : Group} {exponent : Nat} (h : WholePower g.power exponent) :
    g.toNode.valueAt point = some (g.valueOf point exponent) := by
  obtain ⟨letter, n, p⟩ := g
  cases letter with
  | some name => exact Node.valueAt_group point h name n
  | none => exact Node.valueAt_number point h n

/-- What the number in a group with this key is multiplied by. -/
def unitOf (key : TermKey) : Option Rat :=
  match key.letter with
  | some name =>
    (Sequence.exponentAt point key.power).bind fun e => Rational.exactPower? (point name) e
  | none => some 1

/-- A group that is no number with a power is worth its number times its unit. -/
theorem valueAt_eq_some_iff {g : Group} (hpower : g.letter = none → g.power = []) {v : Rat} :
    g.toNode.valueAt point = some v ↔ ∃ u, unitOf point g.key = some u ∧ g.coefficient * u = v := by
  obtain ⟨letter, n, p⟩ := g
  cases letter with
  | none =>
    obtain rfl : p = [] := hpower rfl
    simp [Group.toNode, Node.valueAt, unitOf, Group.key, Group.coefficient]
  | some name =>
    rw [Group.toNode, Node.valueAt_variable_eq_some]
    simp only [unitOf, Group.key, Group.coefficient, Option.bind_eq_some_iff]
    tauto

/-- A number with a power becomes a plain number, and every other group stays as it is. -/
theorem resolved?_cases {g resolved : Group} (h : g.resolved? = some resolved) :
    (g.letter = none ∧ ∃ value, g.value = .ok value ∧ resolved = Group.constant value) ∨
      (g.letter = none → g.power = []) ∧ resolved = g := by
  rw [Group.resolved?] at h
  split at h
  · rename_i hcase
    split at h
    · rename_i value hvalue
      exact .inl ⟨hcase.1, value, hvalue, (Option.some.inj h).symm⟩
    · cases h
  · rename_i hcase
    refine .inr ⟨fun hletter => ?_, (Option.some.inj h).symm⟩
    by_contra hpower
    exact hcase ⟨hletter, hpower⟩

/-- A number with a power that has been evaluated is the same number. -/
theorem resolved?_spec {g resolved : Group} (h : g.resolved? = some resolved) :
    resolved.toNode.valueAt point = g.toNode.valueAt point ∧
      (resolved.letter = none → resolved.power = []) := by
  rcases resolved?_cases h with ⟨-, value, hvalue, rfl⟩ | ⟨hpower, rfl⟩
  · refine ⟨?_, fun _ => rfl⟩
    rw [Group.valueAt_of_value point hvalue]
    exact Node.valueAt_constant point value
  · exact ⟨rfl, hpower⟩

theorem isPlain_resolved? {g resolved : Group} (hg : g.IsPlain x)
    (h : g.resolved? = some resolved) : resolved.IsPlain x := by
  rcases resolved?_cases h with ⟨-, value, -, rfl⟩ | ⟨-, rfl⟩
  · exact isPlain_constant x value
  · exact hg

/-- The exponent that is read off is what the power is worth. -/
theorem exponentAt_of_exponent? {g : Group} {e : Rat} (h : g.exponent? = some e) :
    Sequence.exponentAt point g.power = some e := by
  rw [Group.exponent?] at h
  rw [Sequence.exponentAt]
  split at h
  · rename_i hp
    rw [if_pos hp, Option.some.inj h]
  · rename_i hp
    rw [if_neg hp]
    split at h
    · cases h
    · split at h
      · rename_i value hvalue
        rw [Sequence.valueAt_of_evaluate point hvalue, Option.some.inj h]
      · cases h

theorem exponentAt_powerOf (exponent : Rat) :
    Sequence.exponentAt point (powerOf exponent) = some exponent := by
  rw [powerOf]
  split
  · rename_i hone
    exact hone ▸ rfl
  · exact Node.valueAt_constant point exponent ▸ Sequence.valueAt_singleton point _

/-- How two groups are multiplied: what becomes of numbers with a power first, and then the product
of two numbers, of a number and a variable, or of two powers of one variable. -/
theorem multiply_cases {left right product : Group}
    (h : left.multiply right = .ok (some product)) :
    ∃ l r, left.resolved? = some l ∧ right.resolved? = some r ∧
      (l.letter = none ∧ r.letter = none ∧ product = Group.constant (l.coefficient * r.coefficient) ∨
      r.letter = none ∧ l.letter ≠ none ∧ product = l.withCoefficient (l.coefficient * r.coefficient) ∨
      l.letter = none ∧ r.letter ≠ none ∧ product = r.withCoefficient (l.coefficient * r.coefficient) ∨
      ∃ name p q, l.letter = some name ∧ r.letter = some name ∧ l.exponent? = some p ∧
        r.exponent? = some q ∧
          product = ⟨some name, Number.ofRat (l.coefficient * r.coefficient), powerOf (p + q)⟩) := by
  rw [Group.multiply] at h
  split at h
  · rename_i l r hl hr
    refine ⟨l, r, hl, hr, ?_⟩
    split at h
    · rename_i hll hrl
      exact .inl ⟨hll, hrl, (Option.some.inj (Except.ok.inj h)).symm⟩
    · rename_i name hll hrl
      exact .inr (.inl ⟨hrl, by simp [hll], (Option.some.inj (Except.ok.inj h)).symm⟩)
    · rename_i name hll hrl
      exact .inr (.inr (.inl ⟨hll, by simp [hrl], (Option.some.inj (Except.ok.inj h)).symm⟩))
    · rename_i lname rname hll hrl
      dsimp only at h
      split at h
      · cases h
      · rename_i hsame
        obtain rfl : lname = rname := by simpa using hsame
        split at h
        · rename_i p q hp hq
          exact .inr (.inr (.inr ⟨lname, p, q, hll, hrl, hp, hq,
            (Option.some.inj (Except.ok.inj h)).symm⟩))
        · cases h
  · cases h

/-- The product of two groups is worth the product of their values. -/
theorem valueAt_multiply {left right product : Group} {a b : Rat}
    (h : left.multiply right = .ok (some product)) (ha : left.toNode.valueAt point = some a)
    (hb : right.toNode.valueAt point = some b) :
    product.toNode.valueAt point = some (a * b) := by
  obtain ⟨l, r, hl, hr, hcases⟩ := multiply_cases h
  obtain ⟨hlvalue, hlpower⟩ := resolved?_spec point hl
  obtain ⟨hrvalue, hrpower⟩ := resolved?_spec point hr
  obtain ⟨u, hu, rfl⟩ := (valueAt_eq_some_iff point hlpower).1 (hlvalue.trans ha)
  obtain ⟨w, hw, rfl⟩ := (valueAt_eq_some_iff point hrpower).1 (hrvalue.trans hb)
  have hnumber {key : TermKey} {u : Rat} (hletter : key.letter = none)
      (hu : unitOf point key = some u) : u = 1 := by
    rw [unitOf, hletter] at hu
    exact (Option.some.inj hu).symm
  rcases hcases with ⟨hll, hrl, rfl⟩ | ⟨hrl, -, rfl⟩ | ⟨hll, -, rfl⟩ |
    ⟨name, p, q, hll, hrl, hp, hq, rfl⟩
  · rw [hnumber hll hu, hnumber hrl hw, mul_one, mul_one]
    exact Node.valueAt_constant point _
  · refine (valueAt_eq_some_iff point (g := l.withCoefficient _) hlpower).2 ⟨u, hu, ?_⟩
    simp [hnumber hrl hw, withCoefficient, coefficient, mul_right_comm]
  · refine (valueAt_eq_some_iff point (g := r.withCoefficient _) hrpower).2 ⟨w, hw, ?_⟩
    simp [hnumber hll hu, withCoefficient, coefficient, mul_assoc]
  · have hunit {g : Group} {e v : Rat} (hletter : g.letter = some name) (he : g.exponent? = some e)
        (hv : unitOf point g.key = some v) : Rational.exactPower? (point name) e = some v := by
      simpa [unitOf, key, hletter, exponentAt_of_exponent? point he] using hv
    refine (Node.valueAt_variable_eq_some point).2 ⟨_, _, exponentAt_powerOf point _,
      Rational.exactPower?_add (hunit hll hp hu) (hunit hrl hq hw), ?_⟩
    rw [Number.value_ofRat, mul_mul_mul_comm]

theorem exponent?_eq {g : Group} {exponent : Nat} (hg : WholePower g.power exponent) {e : Rat}
    (h : g.exponent? = some e) : e = exponent :=
  Option.some.inj ((exponentAt_of_exponent? (everywhere 0) h).symm.trans (hg.valueAt (everywhere 0)))

theorem wholePower_powerOf {exponent : Nat} (h : 0 < exponent) :
    WholePower (Group.powerOf (exponent : Rat)) exponent := by
  rw [Group.powerOf]
  split
  · rename_i hone
    obtain rfl : exponent = 1 := by exact_mod_cast hone
    exact .one
  · exact .constant h

theorem isPlain_multiply {left right product : Group} (hleft : left.IsPlain x)
    (hright : right.IsPlain x) (h : left.multiply right = .ok (some product)) :
    product.IsPlain x := by
  obtain ⟨l, r, hl, hr, hcases⟩ := multiply_cases h
  have hlplain := isPlain_resolved? hleft hl
  have hrplain := isPlain_resolved? hright hr
  rcases hcases with ⟨-, -, rfl⟩ | ⟨-, -, rfl⟩ | ⟨-, -, rfl⟩ | ⟨name, p, q, hll, -, hp, hq, rfl⟩
  · exact isPlain_constant x _
  · exact hlplain
  · exact hrplain
  · obtain ⟨hlx, e, he⟩ := hlplain
    obtain ⟨-, f, hf⟩ := hrplain
    obtain rfl := exponent?_eq he hp
    obtain rfl := exponent?_eq hf hq
    rw [← Nat.cast_add]
    exact ⟨hll ▸ hlx, e + f, wholePower_powerOf (Nat.add_pos_left he.pos f)⟩

/-- The product of two plain groups is a plain group that is worth the product. -/
theorem multiply_spec {left right product : Group} (hleft : left.IsPlain x)
    (hright : right.IsPlain x) (h : left.multiply right = .ok (some product)) :
    product.IsPlain x ∧ ∃ a b, left.toNode.valueAt point = some a ∧
      right.toNode.valueAt point = some b ∧ product.toNode.valueAt point = some (a * b) := by
  obtain ⟨e, he⟩ := hleft.2
  obtain ⟨f, hf⟩ := hright.2
  have ha := valueAt_toNode point he
  have hb := valueAt_toNode point hf
  exact ⟨isPlain_multiply hleft hright h, _, _, ha, hb, valueAt_multiply point h ha hb⟩

end

end Group

/-! ## Sequences -/

/-- How the products of groups are multiplied out: a node that is held is multiplied with what
follows it, if that gives one group, and stays otherwise. -/
inductive ProductsFolded : (held : Node) → (rest out : List Node) → Prop where
  | nil (held) : ProductsFolded held [] [held]
  | fold {held next product rest out} (hproduct : held.multiply next = .ok (some product))
      (tail : ProductsFolded product rest out) :
      ProductsFolded held (.operator .multiply :: next :: rest) out
  | next {held node rest out}
      (hrefused : ∀ second rest', node = .operator .multiply → rest = second :: rest' →
        held.multiply second = .ok none)
      (tail : ProductsFolded node rest out) : ProductsFolded held (node :: rest) (held :: out)

theorem ProductsFolded.of_multipliedAfter {held : Node} {rest out : List Node}
    (h : Sequence.multipliedAfter held rest = .ok out) : ProductsFolded held rest out := by
  match rest with
  | [] =>
    obtain rfl : [held] = out := by simpa [Sequence.multipliedAfter] using h
    exact .nil held
  | node :: rest =>
    by_cases hmultiply : ∃ second rest', node = .operator .multiply ∧ rest = second :: rest'
    · obtain ⟨second, rest', rfl, rfl⟩ := hmultiply
      rw [Sequence.multipliedAfter] at h
      obtain ⟨product, hproduct, h⟩ := Except.bind_eq_ok.1 h
      cases product with
      | some product => exact .fold hproduct (of_multipliedAfter h)
      | none =>
        obtain ⟨out', hout, h⟩ := Except.bind_eq_ok.1 h
        obtain rfl := Except.pure_eq_ok.1 h
        refine .next (fun _ _ _ hrest => ?_) (of_multipliedAfter hout)
        exact (List.cons.inj hrest).1 ▸ hproduct
    · have hother second rest' (hnode : node = .operator .multiply) (hrest : rest = second :: rest') :
          False := hmultiply ⟨second, rest', hnode, hrest⟩
      rw [Sequence.multipliedAfter] at h
      · obtain ⟨out', hout, h⟩ := Except.bind_eq_ok.1 h
        obtain rfl := Except.pure_eq_ok.1 h
        exact .next (fun _ _ hnode hrest => (hother _ _ hnode hrest).elim) (of_multipliedAfter hout)
      · exact hother

/-- Multiplying out finds what is multiplied out. -/
theorem ProductsFolded.multipliedAfter_eq {held : Node} {rest out : List Node}
    (h : ProductsFolded held rest out) : Sequence.multipliedAfter held rest = .ok out := by
  induction h with
  | nil => rw [Sequence.multipliedAfter]
  | fold hproduct _ ih =>
    rw [Sequence.multipliedAfter, hproduct]
    exact ih
  | @next held node rest out hrefused _ ih =>
    by_cases hmultiply : ∃ second rest', node = .operator .multiply ∧ rest = second :: rest'
    · obtain ⟨second, rest', rfl, rfl⟩ := hmultiply
      rw [Sequence.multipliedAfter, hrefused second rest' rfl rfl, ih]
      rfl
    · rw [Sequence.multipliedAfter]
      · rw [ih]
        rfl
      · exact fun second rest' hnode hrest => hmultiply ⟨second, rest', hnode, hrest⟩

theorem Node.multiply_eq_some {left right product : Node}
    (h : left.multiply right = .ok (some product)) :
    ∃ l r g, left.asGroup? = some l ∧ right.asGroup? = some r ∧
      l.multiply r = .ok (some g) ∧ product = g.toNode := by
  rw [Node.multiply] at h
  split at h
  · rename_i l r hl hr
    obtain ⟨result, hresult, h⟩ := Except.bind_eq_ok.1 h
    obtain ⟨g, rfl, rfl⟩ := Option.map_eq_some_iff.1 (Except.pure_eq_ok.1 h)
    exact ⟨l, r, g, hl, hr, hresult, rfl⟩
  · cases h

section

variable (point : Char → Rat) {x : Char}

theorem Node.multiply_spec {left right product : Node} (hleft : left.IsPlain x false)
    (hright : right.IsPlain x false) (h : left.multiply right = .ok (some product)) :
    product.IsPlain x false ∧ ∃ a b, left.valueAt point = some a ∧
      right.valueAt point = some b ∧ product.valueAt point = some (a * b) := by
  obtain ⟨l, r, g, hl, hr, hproduct, rfl⟩ := Node.multiply_eq_some h
  rw [← Group.toNode_of_asGroup? hl, ← Group.toNode_of_asGroup? hr]
  exact Group.multiply_spec point (Group.isPlain_of_asGroup? hl hleft)
    (Group.isPlain_of_asGroup? hr hright) hproduct

theorem Node.valueAt_multiply {left right product : Node} {a b : Rat}
    (h : left.multiply right = .ok (some product)) (ha : left.valueAt point = some a)
    (hb : right.valueAt point = some b) : product.valueAt point = some (a * b) := by
  obtain ⟨l, r, g, hl, hr, hproduct, rfl⟩ := Node.multiply_eq_some h
  rw [← Group.toNode_of_asGroup? hl] at ha
  rw [← Group.toNode_of_asGroup? hr] at hb
  exact Group.valueAt_multiply point hproduct ha hb

/-- Only a group that has a value is read. -/
theorem Reading.exists_valueAt_of_next {s : Reading} {node : Node} {g : Group}
    (hg : node.asGroup? = some g) (h : s.next point node ≠ .stuck) :
    ∃ v, node.valueAt point = some v := by
  cases hvalue : node.valueAt point with
  | some v => exact ⟨v, rfl⟩
  | none =>
    refine absurd ?_ h
    cases s <;> cases node <;> simp_all [Reading.next, Node.asGroup?]

/-- A product is read like one term, except behind a division. -/
theorem Reading.accept_product {s : Reading} {left right : Rat}
    (hs : ∀ total product, s ≠ .expecting total product .divide) :
    ((s.accept left).next point (.operator .multiply)).accept right = s.accept (left * right) := by
  rcases s with ⟨total, product, op⟩ | _ | _
  · cases op with
    | divide => exact absurd rfl (hs total product)
    | _ => simp [Reading.accept, mul_assoc]
  · rfl
  · rfl

theorem ProductsFolded.isPlain {held : Node} {rest out : List Node}
    (h : ProductsFolded held rest out) (hheld : held.IsPlain x false)
    (hrest : Sequence.IsPlain x false rest) : Sequence.IsPlain x false out := by
  induction h with
  | nil => exact ⟨hheld, trivial⟩
  | fold hproduct _ ih =>
    exact ih (Node.multiply_spec (everywhere 0) hheld hrest.2.1 hproduct).1 hrest.2.2
  | next _ _ ih => exact ⟨hheld, ih hrest.1 hrest.2⟩

/-- What can be read without divisions is read in the same way once its products are multiplied
out. -/
theorem ProductsFolded.read_eq {held : Node} {rest out : List Node}
    (h : ProductsFolded held rest out) (hdivide : .operator .divide ∉ held :: rest) {s : Reading}
    (hs : ∀ total product, s ≠ .expecting total product .divide)
    (hread : Sequence.read point s (held :: rest) ≠ .stuck) :
    Sequence.read point s out = Sequence.read point s (held :: rest) := by
  induction h generalizing s with
  | nil => rfl
  | @fold held next product rest out hproduct _ ih =>
    obtain ⟨l, r, g, hl, hr, -, hg⟩ := Node.multiply_eq_some hproduct
    simp only [Sequence.read_cons] at hread
    have hheld : s.next point held ≠ .stuck := fun h => hread (by simp [h])
    have hnext : ((s.next point held).next point (.operator .multiply)).next point next ≠ .stuck :=
      fun h => hread (by simp [h])
    obtain ⟨a, ha⟩ := Reading.exists_valueAt_of_next point hl hheld
    obtain ⟨b, hb⟩ := Reading.exists_valueAt_of_next point hr hnext
    have hstate : s.next point product =
        ((s.next point held).next point (.operator .multiply)).next point next := by
      rw [Reading.next_of_valueAt point ha, Reading.next_of_valueAt point hb,
        Reading.next_of_valueAt point (Node.valueAt_multiply point hproduct ha hb),
        Reading.accept_product point hs]
    have hrest : .operator .divide ∉ product :: rest := by
      simp only [List.mem_cons, not_or] at hdivide ⊢
      exact ⟨by simp [hg, Group.toNode], hdivide.2.2.2⟩
    rw [ih hrest hs (by rwa [Sequence.read_cons, hstate])]
    simp only [Sequence.read_cons, hstate]
  | @next held node rest out _ _ ih =>
    rw [Sequence.read_cons] at hread ⊢
    refine ih (fun hmem => hdivide (.tail _ hmem)) (fun total product hnext => ?_) hread
    exact hdivide (Reading.eq_operator_of_next point hnext ▸ .head _)

/-- Multiplying out products of groups keeps the value of a sequence without divisions. -/
theorem Sequence.valueAt_multiplied {nodes out : List Node} {v : Rat}
    (h : Sequence.multiplied nodes = .ok out) (hdivide : .operator .divide ∉ nodes)
    (hv : Sequence.valueAt point nodes = some v) : Sequence.valueAt point out = some v := by
  cases nodes with
  | nil => cases hv
  | cons node rest =>
    obtain ⟨total, product, hread, -⟩ := (Sequence.valueAt_eq_some_iff point _ _).1 hv
    rw [Sequence.valueAt_eq, (ProductsFolded.of_multipliedAfter h).read_eq point hdivide
      (by simp [Reading.start]) (by simp [hread]), ← Sequence.valueAt_eq, hv]

theorem Sequence.isPlain_multiplied {nodes out : List Node}
    (h : Sequence.multiplied nodes = .ok out) (hplain : Sequence.IsPlain x false nodes) :
    Sequence.IsPlain x false out := by
  cases nodes with
  | nil =>
    cases h
    trivial
  | cons node rest =>
    exact (ProductsFolded.of_multipliedAfter h).isPlain hplain.1 hplain.2

end

end OneUnknown
