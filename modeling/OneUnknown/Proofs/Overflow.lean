import OneUnknown.Proofs.FractionClearing
import OneUnknown.Proofs.TrialDivision
/-!
# Overflow

Only the search for divisors can overflow, and only with a limit beyond `Rational.wordSearchEnd` does
it come to a square that does not fit into a machine word.  So a pass that halts does so for a reason
that can be told, or because of such a limit.

* `Sequence.divisors_ne_none`: up to the end of the search no limit lets it overflow;
* `Halt.IsPossible`, `HaltsWithin`: how a pass can halt;
* `Sides.withoutFraction_eq_overflow`: a fraction with which it does overflow;
* `Sides.haltsWithin_cancelled`, `Sides.haltsWithin_withoutFraction`: the passes that search.
-/

namespace OneUnknown

variable {α β : Type} {limit : Nat}

/-! ## Searches -/

theorem Sequence.factorDivisors_ne_none {nodes : List Node}
    (hnodes : ∀ node ∈ nodes, node.divisors limit ≠ none) :
    Sequence.factorDivisors limit nodes ≠ none := by
  induction nodes with
  | nil => exact Option.some_ne_none _
  | cons node rest ih =>
    obtain ⟨found, hfound⟩ := Option.ne_none_iff_exists'.1 (hnodes node (.head _))
    obtain ⟨others, hothers⟩ :=
      Option.ne_none_iff_exists'.1 (ih fun node hnode => hnodes node (.tail _ hnode))
    rw [Sequence.factorDivisors, hfound, hothers]
    exact Option.some_ne_none _

theorem Node.divisors_ne_none (hlimit : limit ≤ Rational.wordSearchEnd) (node : Node) :
    node.divisors limit ≠ none := by
  induction node using Node.nested_induction with
  | group letter n p =>
    rw [Node.divisors]
    split
    · exact Rational.wordDivisors_ne_none hlimit n.value
    · exact Option.some_ne_none _
  | paren b p negative ihb =>
    rw [Node.divisors]
    split
    · exact mt Option.map_eq_none_iff.1 (Sequence.factorDivisors_ne_none ihb)
    · exact Option.some_ne_none _
  | fraction t b iht => exact mt Option.map_eq_none_iff.1 (Sequence.factorDivisors_ne_none iht)
  | operator | relation => exact Option.some_ne_none _

/-- Up to the end of the search no limit lets it overflow. -/
theorem Sequence.divisors_ne_none (hlimit : limit ≤ Rational.wordSearchEnd) (nodes : List Node) :
    Sequence.divisors limit nodes ≠ none :=
  mt Option.map_eq_none_iff.1
    (Sequence.factorDivisors_ne_none fun node _ => node.divisors_ne_none hlimit)

/-- One node with which the search overflows is enough. -/
theorem Sequence.divisors_eq_none {node : Node} {nodes : List Node} (hmem : node ∈ nodes)
    (h : node.divisors limit = none) : Sequence.divisors limit nodes = none := by
  refine Option.map_eq_none_iff.2 ?_
  induction nodes with
  | nil => cases hmem
  | cons first rest ih =>
    rw [Sequence.factorDivisors]
    rcases List.mem_cons.1 hmem with rfl | hmem
    · rw [h]
      rfl
    · rw [ih hmem]
      cases first.divisors limit <;> rfl

/-! ## Passes -/

/-- How a pass can halt: it fails, or the limit lets a search overflow. -/
inductive Halt.IsPossible (limit : Nat) : Halt → Prop where
  | failed (reason : SolveError) : IsPossible limit (.failed reason)
  | overflow (hlimit : Rational.wordSearchEnd < limit) : IsPossible limit .overflow

theorem Halt.IsPossible.ne_tooDeep {halt : Halt} (h : halt.IsPossible limit) : halt ≠ .tooDeep := by
  rintro rfl
  cases h

/-- A computation that has a result or halts in one of these ways. -/
def HaltsWithin (limit : Nat) (x : Except Halt α) : Prop :=
  ∀ halt, x = .error halt → halt.IsPossible limit

namespace HaltsWithin

theorem of_pure (value : α) : HaltsWithin limit (pure value) := fun _ heq => by cases heq

theorem of_failed (reason : SolveError) :
    HaltsWithin limit (.error (.failed reason) : Except Halt α) :=
  fun _ heq => Except.error.inj heq ▸ .failed reason

theorem of_mapError (x : Except SolveError α) : HaltsWithin limit (x.mapError .failed) := by
  cases x with
  | ok value => exact of_pure value
  | error reason => exact of_failed reason

theorem of_searched {x : Option α} (h : limit ≤ Rational.wordSearchEnd → x ≠ none) :
    HaltsWithin limit (searched x) := by
  cases x with
  | some found => exact of_pure found
  | none =>
    intro halt heq
    exact Except.error.inj heq ▸ .overflow (not_le.1 fun hlimit => h hlimit rfl)

theorem bind {x : Except Halt α} {next : α → Except Halt β} (h : HaltsWithin limit x)
    (hnext : ∀ value, HaltsWithin limit (next value)) : HaltsWithin limit (x >>= next) := by
  cases x with
  | ok value => exact hnext value
  | error halt => exact fun _ heq => h _ (congrArg Except.error (Except.error.inj heq))

end HaltsWithin

theorem haltsWithin_reduceFraction (limit : Nat) (top bottom : List Node) :
    HaltsWithin limit (reduceFraction limit top bottom) := by
  refine .bind (.of_mapError _) fun (numerator, denominator) =>
    .bind (.of_searched fun hlimit => Sequence.divisors_ne_none hlimit numerator) fun _ =>
      .bind (.of_searched fun hlimit => Rational.wordDivisors_ne_none hlimit denominator)
        fun _ => ?_
  dsimp only
  split <;> exact .of_pure _

/-- A denominator from the end of the search on overflows, if the limit lies beyond it. -/
theorem reduceFraction_eq_overflow {top : List Node} {n : Nat}
    (htop : Sequence.hasVariable top = true) (hend : Rational.wordSearchEnd ≤ n)
    (hlimit : n < limit) : reduceFraction limit top [Node.constant n] = .error .overflow := by
  have hpos : 0 < n := Nat.lt_of_lt_of_le (by decide) hend
  have hzero : (n : Rat) ≠ 0 := Nat.cast_ne_zero.2 hpos.ne'
  have hsigned : signedFraction top [Node.constant n] = .ok (top, (n : Rat)) := by
    have hbottom : Sequence.hasVariable [Node.constant (n : Rat)] = false := rfl
    rw [signedFraction, if_neg (by simp [hbottom]), if_pos htop, Sequence.evaluate_constant]
    show (if (n : Rat) = 0 then _ else _) = _
    rw [if_neg hzero, if_neg (not_lt.2 n.cast_nonneg)]
    rfl
  rw [reduceFraction, hsigned]
  dsimp only [Except.mapError, bind, Except.bind]
  rw [Rational.wordDivisors_natCast_eq_none hend hlimit]
  cases Sequence.divisors limit top <;> rfl

theorem FractionSpot.haltsWithin_cleared (limit : Nat) (spot : FractionSpot)
    (other : List (List Node)) : HaltsWithin limit (spot.cleared limit other) := by
  refine .bind (haltsWithin_reduceFraction limit _ _) fun reduced => ?_
  split
  · exact .of_pure _
  · split
    · split
      · exact .of_pure _
      · exact .of_failed _
    · exact .of_pure _

namespace Sides

/-- A side that is a fraction with such a denominator. -/
theorem withoutFraction_eq_overflow {top right : List Node} {relation : Relation} {n : Nat}
    (htop : Sequence.hasVariable top = true) (hend : Rational.wordSearchEnd ≤ n)
    (hlimit : n < limit) :
    withoutFraction limit ⟨[.fraction top [Node.constant n]], relation, right⟩ =
      .error .overflow := by
  have hspot : FractionSpot.inSummands? (Sequence.summands [.fraction top [Node.constant n]]) =
      some ⟨[], [], top, [Node.constant n], [], []⟩ := rfl
  simp only [withoutFraction, hspot, FractionSpot.cleared,
    reduceFraction_eq_overflow htop hend hlimit]
  rfl

theorem haltsWithin_withoutFraction (limit : Nat) (s : Sides) :
    HaltsWithin limit (s.withoutFraction limit) := by
  unfold withoutFraction
  dsimp only
  split
  · exact .bind (FractionSpot.haltsWithin_cleared limit _ _) fun _ => .of_pure _
  · split
    · exact .bind (FractionSpot.haltsWithin_cleared limit _ _) fun _ => .of_pure _
    · exact .of_pure _

theorem cancelled_eq_overflow {s : Sides} (h : Sequence.divisors limit s.left = none) :
    s.cancelled limit = .error .overflow := by
  rw [cancelled, h]
  rfl

/-- Nothing else keeps a common factor from being cancelled. -/
theorem eq_overflow_of_cancelled {s : Sides} {halt : Halt} (h : s.cancelled limit = .error halt) :
    halt = .overflow := by
  rw [cancelled] at h
  cases hleft : Sequence.divisors limit s.left with
  | none =>
    rw [hleft] at h
    exact (Except.error.inj h).symm
  | some left =>
    cases hright : Sequence.divisors limit s.right with
    | none =>
      rw [hleft, hright] at h
      exact (Except.error.inj h).symm
    | some right =>
      rw [hleft, hright] at h
      simp only [searched, bind, Except.bind] at h
      split at h <;> cases h

theorem haltsWithin_cancelled (limit : Nat) (s : Sides) : HaltsWithin limit (s.cancelled limit) := by
  refine .bind (.of_searched fun hlimit => Sequence.divisors_ne_none hlimit s.left) fun _ =>
    .bind (.of_searched fun hlimit => Sequence.divisors_ne_none hlimit s.right) fun _ => ?_
  dsimp only
  split <;> exact .of_pure _

end Sides

end OneUnknown
