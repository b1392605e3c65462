import OneUnknown.Proofs.Outcome
import OneUnknown.Proofs.Quotient
import OneUnknown.Proofs.TrialDivision
/-!
# Common divisors divide evenly

A common divisor of a side that is cancelled divides one factor of every summand evenly, down to the
contents of parentheses and numerators.

* `Divisors.Allows`: the numbers of a set of divisors, and what `shared`, `pooled` and `greatest`
  make of them;
* `Rational.den_div_of_allows`: a divisor of a coefficient divides it evenly;
* `Sequence.DividesEvenly`: one factor of every summand divides evenly;
* `Sequence.dividesEvenly_of_allows`: common divisors divide evenly;
* `Sides.cancelled_cases`: what cancelling does with an equation.
-/

namespace OneUnknown

/-! ## Sets of divisors -/

namespace Divisors

/-- The numbers that may be cancelled. -/
def Allows (d : Nat) : Divisors → Prop
  | .unconstrained => True
  | .known found => d ∈ found
  | .tooLarge => False

variable {d : Nat} {left right : Divisors}

theorem allows_onlyOne : onlyOne.Allows d ↔ d = 1 := List.mem_singleton

theorem allows_shared : (left.shared right).Allows d ↔ left.Allows d ∧ right.Allows d := by
  cases left <;> cases right <;> simp [shared, Allows]

theorem Allows.of_pooled (h : (left.pooled right).Allows d) : left.Allows d ∨ right.Allows d := by
  cases left <;> cases right <;> simp_all [pooled, Allows]
  tauto

/-- The largest divisor is one of them, unless it is trivial. -/
theorem allows_greatest {divisors : Divisors} (h : 1 < divisors.greatest) :
    divisors.Allows divisors.greatest := by
  cases divisors with
  | known found =>
    have hmem (l : List Nat) (start : Nat) : l.foldl max start ∈ start :: l := by
      induction l generalizing start with
      | nil => simp
      | cons d rest ih =>
        rw [List.foldl_cons]
        rcases List.mem_cons.1 (ih (max start d)) with heq | hrest
        · rw [heq]
          rcases max_choice start d with hmax | hmax <;> simp [hmax]
        · simp [hrest]
    rcases List.mem_cons.1 (hmem found 1) with heq | hfound
    · exact absurd heq (Nat.ne_of_gt h)
    · exact hfound
  | _ => exact absurd h (Nat.lt_irrefl 1)

theorem allows_foldl_shared {l : List Divisors} {start : Divisors}
    (h : (l.foldl shared start).Allows d) : start.Allows d ∧ ∀ divisors ∈ l, divisors.Allows d := by
  induction l generalizing start with
  | nil => exact ⟨h, by simp⟩
  | cons first rest ih =>
    obtain ⟨hstart, hrest⟩ := ih h
    obtain ⟨hstart, hfirst⟩ := allows_shared.1 hstart
    exact ⟨hstart, List.forall_mem_cons.2 ⟨hfirst, hrest⟩⟩

theorem allows_foldl_pooled {α : Type} {f : α → Divisors} {l : List α} {start : Divisors}
    (h : (l.foldl (fun found a => found.pooled (f a)) start).Allows d) :
    start.Allows d ∨ ∃ a ∈ l, (f a).Allows d := by
  induction l generalizing start with
  | nil => exact .inl h
  | cons first rest ih =>
    rcases ih h with hstart | ⟨a, ha, hallows⟩
    · exact hstart.of_pooled.imp_right fun hfirst => ⟨first, .head _, hfirst⟩
    · exact .inr ⟨a, .tail _ ha, hallows⟩

end Divisors

namespace Rational

/-- A divisor of a coefficient divides it evenly. -/
theorem den_div_of_allows {value : Rat} {limit d : Nat} (hd : 1 < d)
    (h : (divisors value limit).Allows d) : (value / (d : Rat)).den = 1 := by
  unfold divisors at h
  split at h
  · rename_i hzero
    simp [hzero]
  · rename_i hzero
    split at h
    · exact absurd (Divisors.allows_onlyOne.1 h) (Nat.ne_of_gt hd)
    · rename_i hden
      split at h
      · exact h.elim
      · obtain ⟨quotient, hquotient⟩ := Nat.dvd_of_mem_divisors
          ((mem_natDivisors (Int.natAbs_ne_zero.2 (Rat.num_ne_zero.2 hzero))).1 h)
        have hint : (d : Int) ∣ value.num := Int.natCast_dvd.2 ⟨quotient, hquotient⟩
        obtain ⟨k, hk⟩ := hint
        have hvalue : value = (d : Rat) * (k : Rat) := by
          rw [← Rat.num_div_den value, hk, not_not.1 hden]
          push_cast
          rw [div_one]
        have hne : (d : Rat) ≠ 0 := by exact_mod_cast (Nat.ne_of_gt (Nat.lt_trans Nat.one_pos hd))
        rw [hvalue, mul_div_cancel_left₀ _ hne]
        exact Rat.den_intCast k

end Rational

/-! ## Even division -/

/-- One factor of every summand divides evenly. -/
def Sequence.DividesEvenly (divisor : Rat) (nodes : List Node) : Prop :=
  ∀ part ∈ Sequence.summands nodes, ∃ node ∈ part, node.dividesEvenly divisor = true

theorem Sequence.evenFactors_eq_map (divisor : Rat) (nodes : List Node) :
    Sequence.evenFactors divisor nodes =
      nodes.map fun node => (node, node.dividesEvenly divisor) := by
  induction nodes with
  | nil => rfl
  | cons node rest ih => rw [Sequence.evenFactors, ih, List.map_cons]

/-- The divisors of the nodes of a sequence, if no search overflows. -/
theorem Sequence.exists_of_factorDivisors {limit : Nat} {nodes : List Node}
    {found : List (Node × Divisors)} (h : Sequence.factorDivisors limit nodes = some found) :
    ∃ divisors : Node → Divisors, found = (nodes.map fun node => (node, divisors node)) ∧
      ∀ node ∈ nodes, node.divisors limit = some (divisors node) := by
  refine ⟨fun node => (node.divisors limit).getD .onlyOne, ?_⟩
  induction nodes generalizing found with
  | nil => simpa [Sequence.factorDivisors] using h.symm
  | cons node rest ih =>
    obtain ⟨first, hfirst, h⟩ := Option.bind_eq_some_iff.1 h
    obtain ⟨others, hothers, h⟩ := Option.bind_eq_some_iff.1 h
    obtain rfl := Option.some.inj h
    obtain ⟨rfl, hrest⟩ := ih hothers
    simpa [hfirst] using hrest

theorem Sequence.sumDividesEvenly_eq_true {divisor : Rat} {nodes : List Node} :
    sumDividesEvenly (Sequence.evenFactors divisor nodes) = true ↔
      Sequence.DividesEvenly divisor nodes := by
  simp [sumDividesEvenly, Sequence.evenFactors_eq_map, Sequence.summandsWith_map,
    Sequence.DividesEvenly]

theorem Node.dividesEvenly_paren {divisor : Rat} {b p : List Node} {negative : Bool} :
    (Node.paren b p negative).dividesEvenly divisor = true ↔ Sequence.DividesEvenly divisor b := by
  rw [Node.dividesEvenly, Sequence.sumDividesEvenly_eq_true]

theorem Node.dividesEvenly_fraction {divisor : Rat} {t b : List Node} :
    (Node.fraction t b).dividesEvenly divisor = true ↔ Sequence.DividesEvenly divisor t := by
  rw [Node.dividesEvenly, Sequence.sumDividesEvenly_eq_true]

/-- Only terms divide evenly. -/
theorem Node.isTerm_of_dividesEvenly {divisor : Rat} {node : Node}
    (h : node.dividesEvenly divisor = true) : node.isTerm = true := by
  cases node <;> first | rfl | simp [Node.dividesEvenly] at h

section

variable {limit d : Nat} {nodes : List Node}

theorem Sequence.dividesEvenly_of_nodes (hd : 1 < d)
    (hnodes : ∀ node ∈ nodes, ∀ divisors, node.divisors limit = some divisors →
      divisors.Allows d → node.dividesEvenly (d : Rat) = true)
    {divisors : Divisors} (hdivisors : Sequence.divisors limit nodes = some divisors)
    (h : divisors.Allows d) : Sequence.DividesEvenly (d : Rat) nodes := by
  have hne : d ≠ 1 := Nat.ne_of_gt hd
  obtain ⟨found, hfound, rfl⟩ := Option.map_eq_some_iff.1 hdivisors
  obtain ⟨divisors, rfl, hall⟩ := Sequence.exists_of_factorDivisors hfound
  have hparts : ∀ part ∈ Sequence.summands nodes,
      (productDivisors (part.map fun node => (node, divisors node))).Allows d := by
    rw [sumDivisors, Sequence.summandsWith_map, List.map_map] at h
    intro part hpart
    cases hsummands : Sequence.summands nodes with
    | nil => simp [hsummands] at hpart
    | cons first rest =>
      rw [hsummands] at h hpart
      obtain ⟨hfirst, hrest⟩ := Divisors.allows_foldl_shared h
      rcases List.mem_cons.1 hpart with rfl | hpart
      · exact hfirst
      · exact hrest _ (List.mem_map.2 ⟨part, hpart, rfl⟩)
  intro part hpart
  rcases Divisors.allows_foldl_pooled (hparts part hpart) with hone | ⟨factor, hfactor, hallows⟩
  · exact absurd (Divisors.allows_onlyOne.1 hone) hne
  · obtain ⟨node, hnode, rfl⟩ := List.mem_map.1 (List.mem_filter.1 hfactor).1
    have hmem := (Sequence.mem_of_mem_summands hpart hnode).1
    exact ⟨node, hnode, hnodes node hmem _ (hall node hmem) hallows⟩

/-- A divisor of a term divides it evenly. -/
theorem Node.dividesEvenly_of_allows (hd : 1 < d) {node : Node} {divisors : Divisors}
    (hdivisors : node.divisors limit = some divisors) (h : divisors.Allows d) :
    node.dividesEvenly (d : Rat) = true := by
  have hne {divisors : Divisors} (heq : some .onlyOne = some divisors)
      (h : divisors.Allows d) : False :=
    Nat.ne_of_gt hd (Divisors.allows_onlyOne.1 (Option.some.inj heq ▸ h))
  induction node using Node.nested_induction generalizing divisors with
  | group letter n p =>
    rw [Node.divisors] at hdivisors
    split at hdivisors
    · rw [← Rational.divisors_of_wordDivisors hdivisors] at h
      simpa [Node.dividesEvenly] using Rational.den_div_of_allows hd h
    · exact (hne hdivisors h).elim
  | paren b p negative ihb =>
    rw [Node.divisors] at hdivisors
    split at hdivisors
    · exact Node.dividesEvenly_paren.2 (Sequence.dividesEvenly_of_nodes hd
        (fun node hnode _ => ihb node hnode) hdivisors h)
    · exact (hne hdivisors h).elim
  | fraction t b iht =>
    exact Node.dividesEvenly_fraction.2 (Sequence.dividesEvenly_of_nodes hd
      (fun node hnode _ => iht node hnode) hdivisors h)
  | operator | relation => exact (hne hdivisors h).elim

/-- A common divisor of a side divides one factor of each of its summands evenly. -/
theorem Sequence.dividesEvenly_of_allows (hd : 1 < d) {divisors : Divisors}
    (hdivisors : Sequence.divisors limit nodes = some divisors) (h : divisors.Allows d) :
    Sequence.DividesEvenly (d : Rat) nodes :=
  Sequence.dividesEvenly_of_nodes hd (fun _ _ _ => Node.dividesEvenly_of_allows hd) hdivisors h

/-- The same for the largest divisor that is shared with others. -/
theorem Sequence.dividesEvenly_greatest {divisors others : Divisors}
    (hdivisors : Sequence.divisors limit nodes = some divisors)
    (hd : d = (divisors.shared others).greatest) (h : 1 < d) :
    Sequence.DividesEvenly (d : Rat) nodes :=
  Sequence.dividesEvenly_of_allows h hdivisors
    (Divisors.allows_shared.1 (hd ▸ Divisors.allows_greatest (hd ▸ h))).1

end

/-- Both sides of an equation are divided evenly by a positive number, or nothing is cancelled. -/
theorem Sides.cancelled_cases {limit : Nat} {s t : Sides} (h : s.cancelled limit = .ok t) :
    t = s ∨ ∃ common : Nat, 0 < common ∧ Sequence.DividesEvenly (common : Rat) s.left ∧
      Sequence.DividesEvenly (common : Rat) s.right ∧
      t = ⟨Sequence.dividedBy (common : Rat) s.left, s.relation,
        Sequence.dividedBy (common : Rat) s.right⟩ := by
  obtain ⟨left, hleft, h⟩ := Except.bind_eq_ok.1 h
  obtain ⟨right, hright, h⟩ := Except.bind_eq_ok.1 h
  dsimp only at h
  split at h
  · exact .inl (Except.pure_eq_ok.1 h).symm
  · rename_i hcommon
    have hone := not_le.1 hcommon
    obtain ⟨hallows, hallows'⟩ := Divisors.allows_shared.1 (Divisors.allows_greatest hone)
    exact .inr ⟨_, Nat.lt_trans Nat.one_pos hone,
      Sequence.dividesEvenly_of_allows hone (searched_eq_ok.1 hleft) hallows,
      Sequence.dividesEvenly_of_allows hone (searched_eq_ok.1 hright) hallows',
      (Except.pure_eq_ok.1 h).symm⟩

end OneUnknown
