import OneUnknown.Proofs.Letters
/-!
# Like terms once added up

Adding up like terms and dropping zeros brings an equation into a form that the pass does not
change.  Sums may be zeros themselves, and whether a zero with a variable is dropped depends on both
sides, so what is left over is described for both sides together.

* `loneTerm?_eq_some_iff`, `zeroTerm?_eq_some_iff`: which groups the pass looks at;
* `collectLike_eq_self`: terms with different keys are not touched;
* `Sides.IsCollected`: like terms are added up, and no zero could be dropped;
* `Sides.IsCollected.collected_eq_self`: such an equation is kept as it is;
* `Sides.isCollected_collected`: one pass is enough;
* `Sides.collected_reaches_normal_form`: all of this with the values of both sides.
-/

namespace OneUnknown

/-! ## Lone terms -/

/-- A group that can be added up if it stands on its own: it has a variable, or is a plain number. -/
def Group.IsAddable (g : Group) : Prop := g.letter = none → g.power = []

theorem loneTerm?_eq_some_iff {part : List Node} {g : Group} :
    loneTerm? part = some g ↔ part = [g.toNode] ∧ g.IsAddable := by
  refine ⟨loneTerm?_eq_some, ?_⟩
  rintro ⟨rfl, hpower⟩
  obtain ⟨_ | name, n, p⟩ := g
  · obtain rfl : p = [] := hpower rfl
    rfl
  · rfl

theorem zeroTerm?_eq_some_iff {part : List Node} {g : Group} :
    zeroTerm? part = some g ↔ part = [g.toNode] ∧ g.IsAddable ∧ g.coefficient = 0 := by
  rw [zeroTerm?, Option.filter_eq_some_iff, loneTerm?_eq_some_iff, decide_eq_true_iff, and_assoc]

/-! ## Keys -/

/-- The keys of the summands that are groups which can be added up. -/
def loneKeys (parts : List (List Node)) : List TermKey :=
  parts.filterMap fun part => (loneTerm? part).map Group.key

section

variable {g : Group} {parts : List (List Node)}

/-- Different keys are those of any two groups that can be added up. -/
theorem nodup_loneKeys_iff : (loneKeys parts).Nodup ↔ parts.Pairwise fun first second =>
    ∀ g h : Group, first = [g.toNode] → g.IsAddable → second = [h.toNode] → h.IsAddable →
      g.key ≠ h.key := by
  simp only [loneKeys, List.Nodup, List.pairwise_filterMap, Option.map_eq_some_iff,
    loneTerm?_eq_some_iff]
  refine List.Pairwise.iff fun first second => ⟨?_, ?_⟩
  · intro hne g h hfirst hg hsecond hh
    exact hne _ ⟨g, ⟨hfirst, hg⟩, rfl⟩ _ ⟨h, ⟨hsecond, hh⟩, rfl⟩
  · rintro hne _ ⟨g, ⟨hfirst, hg⟩, rfl⟩ _ ⟨h, ⟨hsecond, hh⟩, rfl⟩
    exact hne g h hfirst hg hsecond hh

theorem loneKeys_cons_of_some {part : List Node} (h : loneTerm? part = some g) :
    loneKeys (part :: parts) = g.key :: loneKeys parts :=
  List.filterMap_cons_some (by rw [h]; rfl)

theorem loneKeys_cons_of_none {part : List Node} (h : loneTerm? part = none) :
    loneKeys (part :: parts) = loneKeys parts :=
  List.filterMap_cons_none (by rw [h]; rfl)

/-- A group with a new key is put behind the others. -/
theorem addLike_of_not_mem (h : g.key ∉ loneKeys parts) :
    addLike g parts = parts ++ [[g.toNode]] := by
  induction parts with
  | nil => rfl
  | cons part rest ih =>
    rw [addLike]
    cases hpart : loneTerm? part with
    | none =>
      rw [loneKeys_cons_of_none hpart] at h
      exact congrArg (part :: ·) (ih h)
    | some first =>
      rw [loneKeys_cons_of_some hpart, List.mem_cons, not_or] at h
      dsimp only
      rw [if_neg (Ne.symm h.1), ih h.2]
      rfl

/-- A group with an old key brings no new one. -/
theorem loneKeys_addLike_of_mem (hpower : g.IsAddable)
    (h : g.key ∈ loneKeys parts) : loneKeys (addLike g parts) = loneKeys parts := by
  induction parts with
  | nil => cases h
  | cons part rest ih =>
    rw [addLike]
    cases hpart : loneTerm? part with
    | none =>
      rw [loneKeys_cons_of_none hpart] at h
      rw [loneKeys_cons_of_none hpart, loneKeys_cons_of_none hpart, ih h]
    | some first =>
      rw [loneKeys_cons_of_some hpart] at h ⊢
      dsimp only
      split
      · rename_i hkey
        have hsum (value : Rat) : loneTerm? [(g.withCoefficient value).toNode] = _ :=
          loneTerm?_eq_some_iff.2 ⟨rfl, hpower⟩
        rw [loneKeys_cons_of_some (hsum _), hkey]
        rfl
      · rename_i hkey
        rw [loneKeys_cons_of_some hpart,
          ih ((List.mem_cons.1 h).resolve_left fun heq => hkey heq.symm)]

theorem loneKeys_append_singleton (part : List Node) :
    loneKeys (parts ++ [part]) =
      loneKeys parts ++ ((loneTerm? part).map Group.key).toList := by
  rw [loneKeys, List.filterMap_append]
  cases h : (loneTerm? part).map Group.key <;> simp [loneKeys, h]

/-- A summand with a new key, or without one, is put behind the others. -/
theorem collectStep_of_not_mem {part : List Node}
    (h : ∀ g, loneTerm? part = some g → g.key ∉ loneKeys parts) :
    Sequence.collectStep parts part = parts ++ [part] := by
  rw [Sequence.collectStep]
  split
  · rename_i g hg
    obtain ⟨rfl, -⟩ := loneTerm?_eq_some hg
    exact addLike_of_not_mem (h g hg)
  · rfl

theorem nodup_loneKeys_append_singleton {part : List Node} :
    (loneKeys (parts ++ [part])).Nodup ↔
      (loneKeys parts).Nodup ∧ ∀ g, loneTerm? part = some g → g.key ∉ loneKeys parts := by
  rw [loneKeys_append_singleton]
  cases loneTerm? part <;> simp [List.nodup_append, List.forall_mem_ne']

theorem nodup_loneKeys_collectStep {part : List Node} (h : (loneKeys parts).Nodup) :
    (loneKeys (Sequence.collectStep parts part)).Nodup := by
  by_cases hnew : ∀ g, loneTerm? part = some g → g.key ∉ loneKeys parts
  · rw [collectStep_of_not_mem hnew]
    exact nodup_loneKeys_append_singleton.2 ⟨h, hnew⟩
  · obtain ⟨g, hg, hkey⟩ : ∃ g, loneTerm? part = some g ∧ g.key ∈ loneKeys parts := by
      simpa using hnew
    simp only [Sequence.collectStep, hg]
    rwa [loneKeys_addLike_of_mem (loneTerm?_eq_some hg).2 hkey]

/-- Like terms that have been added up have different keys. -/
theorem nodup_loneKeys_collectLike (parts : List (List Node)) :
    (loneKeys (collectLike parts)).Nodup := by
  rw [Sequence.collectLike_eq]
  exact List.foldlRecOn (motive := fun collected => (loneKeys collected).Nodup) parts _
    List.nodup_nil fun _ h _ _ => nodup_loneKeys_collectStep h

/-- Terms with different keys stay as they are. -/
theorem collectLike_eq_self (h : (loneKeys parts).Nodup) : collectLike parts = parts := by
  suffices hfold : ∀ collected, (loneKeys (collected ++ parts)).Nodup →
      parts.foldl Sequence.collectStep collected = collected ++ parts from hfold [] h
  clear h
  induction parts with
  | nil => simp
  | cons part rest ih =>
    intro collected h
    rw [List.append_cons] at h ⊢
    have hfirst : (loneKeys (collected ++ [part])).Nodup :=
      h.sublist ((List.sublist_append_left _ rest).filterMap _)
    rw [List.foldl_cons, collectStep_of_not_mem (nodup_loneKeys_append_singleton.1 hfirst).2, ih _ h]

end

/-! ## Sides -/

namespace Sequence

variable {side part : List Node} {otherVariables : Bool}

theorem nodup_loneKeys_collected (side : List Node) :
    (loneKeys (summands (collected side))).Nodup := by
  rw [collected, summands_join (forall_mem_collectLike
    (fun _ _ _ => ⟨by simp, by simp [Group.toNode]⟩) fun _ => isSummand_of_mem_summands)]
  split
  · exact List.nodup_singleton _
  · exact nodup_loneKeys_collectLike _

/-- A side without like terms that is joined from its summands stays as it is. -/
theorem collected_eq_self (hjoined : join (summands side) = side)
    (hnodup : (loneKeys (summands side)).Nodup) : collected side = side := by
  rw [collected, collectLike_eq_self hnodup, hjoined]

theorem join_summands_join {parts : List (List Node)} (h : ∀ part ∈ parts, IsSummand part) :
    join (summands (join parts)) = join parts := by
  rw [summands_join h]
  split
  · rename_i hnil
    rw [hnil]
    rfl
  · rfl

theorem isSummand_of_stays {several : Bool} (hpart : part ∈ (summands side).filter
    (staysBesideOthers several otherVariables)) : IsSummand part :=
  isSummand_of_mem_summands (List.mem_filter.1 hpart).1

/-- What is left when zeros are dropped, or else the zero that is put in. -/
theorem summands_withoutZeros (otherVariables : Bool) (side : List Node) :
    summands (withoutZeros otherVariables side) = [[Node.constant 0]] ∨
      summands (withoutZeros otherVariables side) =
        (summands side).filter (staysBesideOthers (1 < (summands side).length) otherVariables) := by
  rw [withoutZeros, summands_join fun _ => isSummand_of_stays]
  split
  · exact .inl rfl
  · exact .inr rfl

theorem nodup_loneKeys_withoutZeros (h : (loneKeys (summands side)).Nodup) :
    (loneKeys (summands (withoutZeros otherVariables side))).Nodup := by
  rcases summands_withoutZeros otherVariables side with heq | heq
  · rw [heq]
    exact List.nodup_singleton _
  · rw [heq]
    exact h.sublist (List.filter_sublist.filterMap _)

/-- A plain zero stays only where it is all there is. -/
theorem summands_withoutZeros_of_number {g : Group} (hletter : g.letter = none)
    (hpower : g.power = []) (hzero : g.coefficient = 0)
    (hmem : [g.toNode] ∈ summands (withoutZeros otherVariables side)) :
    summands (withoutZeros otherVariables side) = [[g.toNode]] := by
  rcases summands_withoutZeros otherVariables side with heq | heq
  · rw [heq] at hmem ⊢
    rw [List.mem_singleton.1 hmem]
  · rw [heq] at hmem ⊢
    obtain ⟨hmem, hstays⟩ := List.mem_filter.1 hmem
    have hfew : (summands side).length ≤ 1 := by
      simpa using (staysBesideOthers_iff.1 hstays g
        (zeroTerm?_eq_some_iff.2 ⟨rfl, fun _ => hpower, hzero⟩)).1 hletter
    obtain ⟨first, hfirst⟩ :=
      List.length_eq_one_iff.1 (hfew.antisymm (List.length_pos_of_mem hmem))
    rw [hfirst] at hmem hstays ⊢
    rw [← List.mem_singleton.1 hmem] at hstays ⊢
    exact List.filter_eq_self.2 (List.forall_mem_singleton.2 hstays)

theorem mem_summands_withoutZeros (hpart : part ∈ summands (withoutZeros otherVariables side)) :
    part = [Node.constant 0] ∨ part ∈ summands side ∧
      staysBesideOthers (1 < (summands side).length) otherVariables part = true := by
  rcases summands_withoutZeros otherVariables side with heq | heq
  · rw [heq] at hpart
    exact .inl (List.mem_singleton.1 hpart)
  · rw [heq] at hpart
    exact .inr (List.mem_filter.1 hpart)

/-- A zero with a variable stays only where no other summand mentions one. -/
theorem otherVariables_eq_false {g : Group} (hletter : g.letter ≠ none) (hzero : g.coefficient = 0)
    (hmem : [g.toNode] ∈ summands (withoutZeros otherVariables side)) :
    otherVariables = false := by
  have hg : zeroTerm? [g.toNode] = some g :=
    zeroTerm?_eq_some_iff.2 ⟨rfl, fun hnone => absurd hnone hletter, hzero⟩
  rcases mem_summands_withoutZeros hmem with heq | ⟨-, hstays⟩
  · cases (heq ▸ hasVariable_of_zeroTerm? hg).2 hletter
  · exact (staysBesideOthers_iff.1 hstays g hg).2 hletter

theorem withoutZeros_eq_self_of_stays (hjoined : join (summands side) = side)
    (h : ∀ part ∈ summands side,
      staysBesideOthers (1 < (summands side).length) otherVariables part = true) :
    withoutZeros otherVariables side = side := by
  rw [withoutZeros, List.filter_eq_self.2 h, hjoined]

theorem keepsVariable_eq_false : keepsVariable side = false ↔ ∀ part ∈ summands side,
    hasVariable part = true →
      ∃ g : Group, part = [g.toNode] ∧ g.letter ≠ none ∧ g.coefficient = 0 := by
  rw [keepsVariable, List.any_eq_false]
  refine forall₂_congr fun part _ => ⟨fun h hvariable => ?_, fun h hkeeps => ?_⟩
  · obtain ⟨g, hg⟩ : ∃ g, zeroTerm? part = some g := by
      simpa [hvariable, Option.ne_none_iff_exists'] using h
    have hletter := (hasVariable_of_zeroTerm? hg).1 hvariable
    obtain ⟨rfl, -, hzero⟩ := zeroTerm?_eq_some_iff.1 hg
    exact ⟨g, rfl, hletter, hzero⟩
  · obtain ⟨hvariable, hnone⟩ := Bool.and_eq_true_iff.1 hkeeps
    obtain ⟨g, rfl, hletter, hzero⟩ := h hvariable
    rw [zeroTerm?_eq_some_iff.2 ⟨rfl, fun hnone => absurd hnone hletter, hzero⟩] at hnone
    cases hnone

end Sequence

/-! ## Equations -/

namespace Sides

/-- The summands of both sides. -/
def summands (s : Sides) : List (List Node) := Sequence.summands s.left ++ Sequence.summands s.right

/-- No like terms are left to be added up, and no zeros to be dropped. -/
structure IsCollected (s : Sides) : Prop where
  /-- Each side is the sum of its summands. -/
  joined : ∀ side ∈ [s.left, s.right], Sequence.join (Sequence.summands side) = side
  /-- No two terms of a side that stand on their own agree in variable and power. -/
  nodup : ∀ side ∈ [s.left, s.right], (Sequence.summands side).Pairwise fun first second =>
    ∀ g h : Group, first = [g.toNode] → g.IsAddable → second = [h.toNode] → h.IsAddable →
      g.key ≠ h.key
  /-- A plain zero is the only summand of its side. -/
  alone : ∀ side ∈ [s.left, s.right], ∀ g : Group, g.letter = none → g.power = [] →
    g.coefficient = 0 → [g.toNode] ∈ Sequence.summands side →
      Sequence.summands side = [[g.toNode]]
  /-- Beside a variable with the coefficient zero, only such zeros mention a variable. -/
  last : ∀ g : Group, g.letter ≠ none → g.coefficient = 0 → [g.toNode] ∈ s.summands →
    ∀ other ∈ s.summands, Sequence.hasVariable other = true →
      ∃ h : Group, other = [h.toNode] ∧ h.letter ≠ none ∧ h.coefficient = 0

variable {s : Sides}

/-- Nothing is left to do for an equation in this form. -/
theorem IsCollected.collected_eq_self (h : s.IsCollected) : s.collected = s := by
  have hleft : s.left ∈ [s.left, s.right] := .head _
  have hright : s.right ∈ [s.left, s.right] := .tail _ (.head _)
  have hkept {side : List Node} (hside : side ∈ [s.left, s.right]) :
      Sequence.withoutZeros (keepsVariable s.left || keepsVariable s.right) side = side := by
    refine Sequence.withoutZeros_eq_self_of_stays (h.joined side hside) fun part hpart =>
      Sequence.staysBesideOthers_iff.2 fun g hg => ?_
    obtain ⟨rfl, haddable, hzero⟩ := zeroTerm?_eq_some_iff.1 hg
    refine ⟨fun hletter => ?_, fun hletter => ?_⟩
    · simp [h.alone side hside g hletter (haddable hletter) hzero hpart]
    · have hmem : [g.toNode] ∈ s.summands := by
        rcases List.mem_pair.1 hside with rfl | rfl
        · exact List.mem_append_left _ hpart
        · exact List.mem_append_right _ hpart
      have hother := h.last g hletter hzero hmem
      rw [Bool.or_eq_false_iff, Sequence.keepsVariable_eq_false, Sequence.keepsVariable_eq_false]
      exact List.forall_mem_append.1 hother
  have hadded {side : List Node} (hside : side ∈ [s.left, s.right]) :
      Sequence.collected side = side :=
    Sequence.collected_eq_self (h.joined side hside) (nodup_loneKeys_iff.2 (h.nodup side hside))
  rw [Sides.collected, hadded hleft, hadded hright, hkept hleft, hkept hright]

theorem mem_summands {part : List Node} :
    part ∈ s.summands ↔ ∃ side ∈ [s.left, s.right], part ∈ Sequence.summands side := by
  simp [summands]

/-- Adding up like terms once, and then dropping zeros once, leaves nothing to do. -/
theorem isCollected_collected (s : Sides) : s.collected.IsCollected := by
  generalize hother : (keepsVariable (Sequence.collected s.left) ||
    keepsVariable (Sequence.collected s.right)) = otherVariables
  have hsides : ∀ side ∈ [s.collected.left, s.collected.right], ∃ old ∈ [s.left, s.right],
      side = Sequence.withoutZeros otherVariables (Sequence.collected old) := by
    simp [Sides.collected, hother]
  constructor
  · intro side hside
    obtain ⟨old, -, rfl⟩ := hsides side hside
    exact Sequence.join_summands_join fun _ => Sequence.isSummand_of_stays
  · intro side hside
    obtain ⟨old, -, rfl⟩ := hsides side hside
    exact nodup_loneKeys_iff.1
      (Sequence.nodup_loneKeys_withoutZeros (Sequence.nodup_loneKeys_collected old))
  · intro side hside g hletter hpower hzero hmem
    obtain ⟨old, -, rfl⟩ := hsides side hside
    exact Sequence.summands_withoutZeros_of_number hletter hpower hzero hmem
  · intro g hletter hzero hpart other hmem hvariable
    obtain ⟨side, hside, hpart⟩ := mem_summands.1 hpart
    obtain ⟨old, -, rfl⟩ := hsides side hside
    -- A zero with a variable has stayed, so what was collected mentions no other variables.
    obtain rfl := Sequence.otherVariables_eq_false hletter hzero hpart
    have hkeeps : ∀ old ∈ [s.left, s.right], keepsVariable (Sequence.collected old) = false := by
      simpa using hother
    obtain ⟨side', hside', hmem⟩ := mem_summands.1 hmem
    obtain ⟨old', hold', rfl⟩ := hsides side' hside'
    rcases Sequence.mem_summands_withoutZeros hmem with rfl | ⟨hmem, -⟩
    · cases hvariable
    · exact Sequence.keepsVariable_eq_false.1 (hkeeps old' hold') other hmem hvariable

/-- One pass brings an equation into a form that a second pass does not change.  A variable that is
mentioned stays, and every value that a side has. -/
theorem collected_reaches_normal_form (s : Sides) :
    s.collected.collected = s.collected ∧ s.collected.IsCollected ∧
      (s.hasVariable = true → s.collected.hasVariable = true) ∧
      ∀ (point : Char → Rat) (v : Rat),
        (Sequence.valueAt point s.left = some v →
          Sequence.valueAt point s.collected.left = some v) ∧
        (Sequence.valueAt point s.right = some v →
          Sequence.valueAt point s.collected.right = some v) :=
  have hvalue (point : Char → Rat) (otherVariables : Bool) {side : List Node} {v : Rat}
      (h : Sequence.valueAt point side = some v) : Sequence.valueAt point
        (Sequence.withoutZeros otherVariables (Sequence.collected side)) = some v :=
    Sequence.valueAt_withoutZeros point otherVariables (Sequence.valueAt_collected point h)
  ⟨s.isCollected_collected.collected_eq_self, s.isCollected_collected, Sides.hasVariable_collected,
    fun point _ => ⟨hvalue point _, hvalue point _⟩⟩

/-- `x - x + 3 - 3 = 2x * 3 + 0x ^ 2 + 5` becomes `0 = 2x * 3 + 5`. -/
theorem collected_reaches_normal_form_zeros :
    ∃ s : Sides, s.hasVariable = true ∧ s.collected.hasVariable = true ∧ s.collected ≠ s ∧
      s.collected.collected = s.collected ∧ s.collected.IsCollected ∧
      Sequence.valueAt (everywhere 2) s.left = some 0 ∧
      Sequence.valueAt (everywhere 2) s.collected.left = some 0 ∧
      Sequence.valueAt (everywhere 2) s.right = some 17 ∧
      Sequence.valueAt (everywhere 2) s.collected.right = some 17 := by
  let s : Sides := ⟨[.group (some 'x') (Number.ofNat 1) [], .operator .add,
      .group (some 'x') (Number.ofNat 1).negated [], .operator .add, Node.constant 3,
      .operator .add, Node.constant (-3)], .equal,
    [.group (some 'x') (Number.ofNat 2) [], .operator .multiply, Node.constant 3, .operator .add,
      .group (some 'x') Number.zero [Node.constant 2], .operator .add, Node.constant 5]⟩
  have hvariable : s.hasVariable = true := by decide +kernel
  have hleft : Sequence.valueAt (everywhere 2) s.left = some 0 := by decide +kernel
  have hright : Sequence.valueAt (everywhere 2) s.right = some 17 := by decide +kernel
  obtain ⟨hagain, hcollected, hmentions, hvalue⟩ := collected_reaches_normal_form s
  exact ⟨s, hvariable, hmentions hvariable, by decide +kernel, hagain, hcollected, hleft,
    (hvalue _ _).1 hleft, hright, (hvalue _ _).2 hright⟩

end Sides

end OneUnknown
