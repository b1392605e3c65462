import OneUnknown.Equation.LikeTerms
import OneUnknown.Proofs.Division
import OneUnknown.Proofs.EvenDivision
import OneUnknown.Proofs.ExactQuotient
import OneUnknown.Proofs.Product
/-!
# Like terms, common factors, and terms that change sides

The three passes that work on the summands of both sides.

* `Sequence.sumAt_collectLike`: adding up like terms keeps the sum;
* `Sequence.valueAt_withoutZeros`: so does dropping zeros;
* `Sides.sorted`: what becomes of an equation whose terms change sides;
* `Sides.scaled_mapM`: a pass that works on each side alone;
* `Sides.scaled_collected`, `Sides.scaled_cancelled`, `Sides.scaled_multiplied`,
  `Sides.scaled_crossed`: the passes on an equation.
-/

namespace OneUnknown

/-! ## Like terms -/

theorem loneTerm?_eq_some {part : List Node} {g : Group} (h : loneTerm? part = some g) :
    part = [g.toNode] ∧ (g.letter = none → g.power = []) := by
  unfold loneTerm? at h
  split at h
  · rename_i letter n p
    split at h
    · rename_i hcase
      obtain rfl := Option.some.inj h
      refine ⟨rfl, ?_⟩
      rintro ⟨rfl⟩
      simpa using hcase
    · cases h
  · cases h

section

variable (point : Char → Rat) {x : Char}

namespace Sequence

/-- Adding a group to some summands adds its value to their sum. -/
theorem sumAt_addLike {g : Group} (hpower : g.letter = none → g.power = []) {v : Rat}
    (hv : g.toNode.valueAt point = some v) {parts : List (List Node)} {value : Rat}
    (h : sumAt point parts = some value) : sumAt point (addLike g parts) = some (v + value) := by
  induction parts generalizing value with
  | nil => exact (sumAt_cons_eq_some point).2 ⟨v, value, by rwa [valueAt_singleton], h, rfl⟩
  | cons part rest ih =>
    obtain ⟨a, b, hpart, hb, rfl⟩ := (sumAt_cons_eq_some point).1 h
    have hlater : sumAt point (part :: addLike g rest) = some (v + (a + b)) :=
      (sumAt_cons_eq_some point).2 ⟨a, _, hpart, ih hb, add_left_comm a _ b⟩
    rw [addLike]
    split
    · rename_i first hfirst
      obtain ⟨rfl, hfirstPower⟩ := loneTerm?_eq_some hfirst
      split
      · rename_i hkey
        -- The two are multiples of the same unit.
        obtain ⟨u, hu, rfl⟩ := (Group.valueAt_eq_some_iff point hpower).1 hv
        rw [valueAt_singleton, Group.valueAt_eq_some_iff point hfirstPower, hkey] at hpart
        obtain ⟨u', hu', rfl⟩ := hpart
        obtain rfl := Option.some.inj (hu.symm.trans hu')
        have hsum : (g.withCoefficient (first.coefficient + g.coefficient)).toNode.valueAt point =
            some ((first.coefficient + g.coefficient) * u) :=
          (Group.valueAt_eq_some_iff point (g := g.withCoefficient _) hpower).2
            ⟨u, hu, by simp [Group.withCoefficient, Group.coefficient]⟩
        exact (sumAt_cons_eq_some point).2
          ⟨_, b, (valueAt_singleton point _).trans hsum, hb, by ring⟩
      · exact hlater
    · exact hlater

/-- What holds of a group and of its multiples holds behind it of all summands. -/
theorem forall_mem_addLike {motive : List Node → Prop} {g : Group} (hg : motive [g.toNode])
    (hsum : ∀ value, motive [(g.withCoefficient value).toNode]) {parts : List (List Node)}
    (h : ∀ part ∈ parts, motive part) : ∀ part ∈ addLike g parts, motive part := by
  induction parts with
  | nil => exact List.forall_mem_singleton.2 hg
  | cons first rest ih =>
    obtain ⟨hfirst, hrest⟩ := List.forall_mem_cons.1 h
    have hlater := List.forall_mem_cons.2 ⟨hfirst, ih hrest⟩
    rw [addLike]
    split
    · split
      · exact List.forall_mem_cons.2 ⟨hsum _, hrest⟩
      · exact hlater
    · exact hlater

/-- What one summand does to those collected before it. -/
def collectStep (collected : List (List Node)) (summand : List Node) : List (List Node) :=
  match loneTerm? summand with
  | some g => addLike g collected
  | none => collected ++ [summand]

theorem collectLike_eq (parts : List (List Node)) :
    collectLike parts = parts.foldl collectStep [] := rfl

theorem sumAt_collectStep {collected : List (List Node)} {part : List Node} {a b : Rat}
    (ha : sumAt point collected = some a) (hb : valueAt point part = some b) :
    sumAt point (collectStep collected part) = some (a + b) := by
  rw [collectStep]
  split
  · rename_i g hg
    obtain ⟨rfl, hpower⟩ := loneTerm?_eq_some hg
    rw [valueAt_singleton] at hb
    rw [sumAt_addLike point hpower hb ha, add_comm]
  · refine (sumAt_append_eq_some point).2 ⟨a, b, ha, ?_, rfl⟩
    exact (sumAt_cons_eq_some point).2 ⟨b, 0, hb, rfl, add_zero b⟩

/-- What holds of the summands, and of every multiple of a group if it holds of the group, holds
once like terms are added up. -/
theorem forall_mem_collectLike {motive : List Node → Prop}
    (hsum : ∀ (g : Group) (value : Rat), motive [g.toNode] →
      motive [(g.withCoefficient value).toNode])
    {parts : List (List Node)} (h : ∀ part ∈ parts, motive part) :
    ∀ part ∈ collectLike parts, motive part := by
  rw [collectLike_eq]
  refine List.foldlRecOn (motive := fun collected => ∀ part ∈ collected, motive part) parts _
    (by simp) fun collected hcollected part hpart => ?_
  rw [collectStep]
  split
  · rename_i g hg
    obtain ⟨rfl, -⟩ := loneTerm?_eq_some hg
    exact forall_mem_addLike (h _ hpart) (fun value => hsum g value (h _ hpart)) hcollected
  · exact List.forall_mem_append.2 ⟨hcollected, List.forall_mem_singleton.2 (h part hpart)⟩

/-- Adding up like terms keeps the sum. -/
theorem sumAt_collectLike {parts : List (List Node)} {value : Rat}
    (h : sumAt point parts = some value) : sumAt point (collectLike parts) = some value := by
  suffices hfold : ∀ collected a, sumAt point collected = some a →
      sumAt point (parts.foldl collectStep collected) = some (a + value) by
    simpa [collectLike_eq] using hfold [] 0 rfl
  induction parts generalizing value with
  | nil =>
    intro collected a ha
    obtain rfl : 0 = value := by simpa using h
    simpa using ha
  | cons part rest ih =>
    intro collected a ha
    obtain ⟨b, c, hb, hc, rfl⟩ := (sumAt_cons_eq_some point).1 h
    rw [List.foldl_cons, ih hc _ (a + b) (sumAt_collectStep point ha hb), add_assoc]

/-! ## Zeros -/

/-- Summands that are worth nothing can be dropped. -/
theorem sumAt_filter_of_zero {parts : List (List Node)} (p : List Node → Bool)
    (hzero : ∀ part ∈ parts, p part = false → ∀ v, valueAt point part = some v → v = 0)
    {value : Rat} (h : sumAt point parts = some value) :
    sumAt point (parts.filter p) = some value := by
  induction parts generalizing value with
  | nil => exact h
  | cons part rest ih =>
    obtain ⟨a, b, ha, hb, rfl⟩ := (sumAt_cons_eq_some point).1 h
    have hrest := ih (fun part hpart => hzero part (.tail _ hpart)) hb
    by_cases hp : p part = true
    · rw [List.filter_cons_of_pos hp]
      exact (sumAt_cons_eq_some point).2 ⟨a, b, ha, hrest, rfl⟩
    · rw [List.filter_cons_of_neg hp,
        hzero part (.head _) (by simpa using hp) a ha, zero_add]
      exact hrest

theorem zeroTerm?_eq_some {part : List Node} {g : Group} (h : zeroTerm? part = some g) :
    loneTerm? part = some g ∧ g.coefficient = 0 := by
  obtain ⟨hg, hzero⟩ := Option.filter_eq_some_iff.1 h
  exact ⟨hg, by simpa using hzero⟩

/-- A plain zero stays if it is the only summand, and one with a variable if there are no others. -/
theorem staysBesideOthers_iff {several otherVariables : Bool} {part : List Node} :
    staysBesideOthers several otherVariables part = true ↔ ∀ g, zeroTerm? part = some g →
      (g.letter = none → several = false) ∧ (g.letter ≠ none → otherVariables = false) := by
  rw [staysBesideOthers]
  cases zeroTerm? part with
  | none => simp
  | some g => cases hletter : g.letter <;> simp [hletter]

theorem valueAt_zeroTerm {part : List Node} {g : Group} (h : zeroTerm? part = some g)
    {value : Rat} (hvalue : valueAt point part = some value) : value = 0 := by
  obtain ⟨hg, hzero⟩ := zeroTerm?_eq_some h
  obtain ⟨rfl, hpower⟩ := loneTerm?_eq_some hg
  rw [valueAt_singleton, Group.valueAt_eq_some_iff point hpower, hzero] at hvalue
  obtain ⟨u, -, rfl⟩ := hvalue
  exact zero_mul u

theorem valueAt_withoutZeros (otherVariables : Bool) {side : List Node} {value : Rat}
    (h : valueAt point side = some value) :
    valueAt point (withoutZeros otherVariables side) = some value := by
  refine valueAt_join point (sumAt_filter_of_zero point _ ?_ (sumAt_summands point h))
  intro part hpart hdropped v hv
  rw [staysBesideOthers] at hdropped
  split at hdropped
  · rename_i g hg
    exact valueAt_zeroTerm point hg hv
  · cases hdropped

theorem isPlain_withoutZeros {side : List Node} (h : IsPlain x false side)
    (otherVariables : Bool) : IsPlain x false (withoutZeros otherVariables side) :=
  isPlain_join fun _ hpart => isPlain_of_mem_summands h (List.mem_filter.1 hpart).1

theorem valueAt_collected {side : List Node} {value : Rat} (h : valueAt point side = some value) :
    valueAt point (collected side) = some value :=
  valueAt_join point (sumAt_collectLike point (sumAt_summands point h))

theorem isPlain_collected {side : List Node} (h : IsPlain x false side) :
    IsPlain x false (collected side) :=
  isPlain_join (forall_mem_collectLike (fun _ _ hg => hg)
    fun _ hpart => isPlain_of_mem_summands h hpart)

end Sequence

end

/-! ## The passes on an equation -/

namespace Sides

variable {x : Char} {s : Sides}

theorem isPlain_collected (hs : s.IsPlain x false) : s.collected.IsPlain x false :=
  ⟨Sequence.isPlain_withoutZeros (Sequence.isPlain_collected hs.1) _,
    Sequence.isPlain_withoutZeros (Sequence.isPlain_collected hs.2) _⟩

/-- Adding up like terms and dropping zeros keeps the values of both sides. -/
theorem scaled_collected (s : Sides) : Scaled 1 s s.collected where
  pos := one_pos
  relation := rfl
  values := by
    intro point left right hleft hright
    refine ⟨left, right, ?_, ?_, (one_mul _).symm⟩
    · exact Sequence.valueAt_withoutZeros point _ (Sequence.valueAt_collected point hleft)
    · exact Sequence.valueAt_withoutZeros point _ (Sequence.valueAt_collected point hright)

/-- Cancelling a common factor divides both sides by a positive number. -/
theorem scaled_cancelled {limit : Nat} {t : Sides} (h : s.cancelled limit = .ok t)
    (hs : s.IsPlain x false) : t.IsPlain x false ∧ ∃ scale, Scaled scale s t := by
  rcases cancelled_cases h with rfl | ⟨common, hcommon, -, -, rfl⟩
  · exact ⟨hs, 1, .refl t⟩
  · have hpos : (0 : Rat) < (common : Rat) := Nat.cast_pos.2 hcommon
    refine ⟨⟨Sequence.isPlain_dividedBy hs.1, Sequence.isPlain_dividedBy hs.2⟩, _,
      inv_pos.2 hpos, rfl, fun point left right hleft hright => ?_⟩
    exact ⟨_, _, Sequence.valueAt_dividedBy point hs.1 hleft,
      Sequence.valueAt_dividedBy point hs.2 hright, (mul_sub _ left right).symm⟩

/-- Rewriting both sides keeps their values, if rewriting one does. -/
theorem scaled_mapM {rewrite : List Node → Except SolveError (List Node)} {t : Sides}
    (hrewrite : ∀ side out, Sequence.IsPlain x false side → rewrite side = .ok out →
      Sequence.IsPlain x false out ∧ ∀ point value, Sequence.valueAt point side = some value →
        Sequence.valueAt point out = some value)
    (h : s.mapM rewrite = .ok t) (hs : s.IsPlain x false) :
    t.IsPlain x false ∧ Scaled 1 s t := by
  obtain ⟨left, right, hleft, hright, rfl⟩ := mapM_eq_ok h
  have hleft := hrewrite _ _ hs.1 hleft
  have hright := hrewrite _ _ hs.2 hright
  exact ⟨⟨hleft.1, hright.1⟩, one_pos, rfl, fun point l r hl hr =>
    ⟨l, r, hleft.2 point l hl, hright.2 point r hr, (one_mul _).symm⟩⟩

/-- Multiplying out products keeps the values of both sides. -/
theorem scaled_multiplied {t : Sides} (h : s.mapM Sequence.multiplied = .ok t)
    (hs : s.IsPlain x false) : t.IsPlain x false ∧ Scaled 1 s t :=
  scaled_mapM (fun _ _ hside hout => ⟨Sequence.isPlain_multiplied hout hside, fun point _ =>
    Sequence.valueAt_multiplied point hout (Sequence.divide_not_mem hside)⟩) h hs

/-- The equation with the terms that have a variable on its left, and all others on its right.  A term
that changes sides changes its sign. -/
def sorted (s : Sides) : Sides :=
  ⟨Sequence.join ((Sequence.summands s.left).filter Sequence.hasVariable ++
      ((Sequence.summands s.right).filter Sequence.hasVariable).map Sequence.negatedSummand),
    s.relation,
    Sequence.join ((Sequence.summands s.right).filter (not ∘ Sequence.hasVariable) ++
      ((Sequence.summands s.left).filter (not ∘ Sequence.hasVariable)).map
        Sequence.negatedSummand)⟩

/-- Where the sides differ, the equation is sorted, or stays as it is. -/
theorem crossed_eq_moved {t : Sides} {name : Char} (h : s.crossed name = .moved t) :
    s.left ≠ s.right ∧ (t = s ∨ t = s.sorted) := by
  rw [crossed] at h
  split at h
  · cases h
  · rename_i hne
    refine ⟨hne, ?_⟩
    simp only [List.partition_eq_filter_filter] at h
    split at h
    · exact .inl (Crossing.moved.inj h).symm
    · exact .inr (Crossing.moved.inj h).symm

/-- Terms that change sides change their sign, and the difference of the sides stays. -/
theorem scaled_crossed {t : Sides} {name : Char} (h : s.crossed name = .moved t)
    (hs : s.IsPlain x false) : t.IsPlain x false ∧ Scaled 1 s t := by
  rcases (crossed_eq_moved h).2 with rfl | rfl
  · exact ⟨hs, .refl t⟩
  · have hplain {side part : List Node} {p : List Node → Bool} (hside : Sequence.IsPlain x false side)
        (hpart : part ∈ (Sequence.summands side).filter p) :
        Sequence.IsPlain x false part ∧ Sequence.IsProduct part :=
      have hmem := (List.mem_filter.1 hpart).1
      ⟨Sequence.isPlain_of_mem_summands hside hmem, Sequence.isProduct_of_mem_summands hside hmem⟩
    have hjoin {side other : List Node} {p q : List Node → Bool}
        (hside : Sequence.IsPlain x false side) (hother : Sequence.IsPlain x false other) :
        Sequence.IsPlain x false (Sequence.join ((Sequence.summands side).filter p ++
          ((Sequence.summands other).filter q).map Sequence.negatedSummand)) := by
      refine Sequence.isPlain_join fun part hpart => ?_
      rcases List.mem_append.1 hpart with hpart | hpart
      · exact (hplain hside hpart).1
      · obtain ⟨old, hold, rfl⟩ := List.mem_map.1 hpart
        exact Sequence.isPlain_negatedSummand (hplain hother hold).1
    refine ⟨⟨hjoin hs.1 hs.2, hjoin hs.2 hs.1⟩, one_pos, rfl, ?_⟩
    intro point left right hleft hright
    obtain ⟨ls, lm, hls, hlm, rfl⟩ := Sequence.sumAt_filter point Sequence.hasVariable
      (Sequence.sumAt_summands point hleft)
    obtain ⟨rm, rs, hrm, hrs, rfl⟩ := Sequence.sumAt_filter point Sequence.hasVariable
      (Sequence.sumAt_summands point hright)
    have hnegated {side : List Node} {p : List Node → Bool} {v : Rat}
        (hside : Sequence.IsPlain x false side)
        (hv : Sequence.sumAt point ((Sequence.summands side).filter p) = some v) :
        Sequence.sumAt point (((Sequence.summands side).filter p).map Sequence.negatedSummand) =
          some (-1 * v) :=
      Sequence.sumAt_map point _ (-1) (fun part hpart w hw => by
        rw [neg_one_mul]
        exact Sequence.valueAt_negatedSummand point (hplain hside hpart).1
          (hplain hside hpart).2 hw) hv
    refine ⟨ls + -1 * rm, rs + -1 * lm, ?_, ?_, by ring⟩
    · exact Sequence.valueAt_join point ((Sequence.sumAt_append_eq_some point).2
        ⟨ls, _, hls, hnegated hs.2 hrm, rfl⟩)
    · exact Sequence.valueAt_join point ((Sequence.sumAt_append_eq_some point).2
        ⟨rs, _, hrs, hnegated hs.1 hlm, rfl⟩)

end Sides

end OneUnknown
