import OneUnknown.Proofs.Kinds
import OneUnknown.Proofs.LikeTerms
/-!
# Flat sums

Sums of numbers and of multiples of the unknown, without products, powers and parentheses.  They
are written as lists of terms here, and every pass as a function on such lists.

* `FlatTerm`, `flatSum`: a term, and the side that adds up some of them;
* `Sequence.summands_flatSum`, `Sequence.join_map_toNode`: cutting and joining;
* `valueAt_flatSum`, `evaluate_flatSum`: the value of a flat sum;
* `exists_collectLike`: like terms are added up to one term of each kind.
-/

namespace OneUnknown

/-- A term of a flat sum: a number, in front of the unknown or on its own. -/
structure FlatTerm where
  hasUnknown : Bool
  number : Number
  deriving DecidableEq, Repr

namespace FlatTerm

/-- The term as an element of a sequence. -/
def toNode (x : Char) (t : FlatTerm) : Node :=
  .group (if t.hasUnknown then some x else none) t.number []

/-- How often the unknown is added. -/
def coefficient (t : FlatTerm) : Rat := if t.hasUnknown then t.number.value else 0

/-- What is added without the unknown. -/
def constant (t : FlatTerm) : Rat := if t.hasUnknown then 0 else t.number.value

/-- The term with another number. -/
def withNumber (t : FlatTerm) (n : Number) : FlatTerm := { t with number := n }

/-- The number zero. -/
def zero : FlatTerm := ⟨false, Number.ofRat 0⟩

end FlatTerm

/-- The side that adds up some terms. -/
def flatSum (x : Char) : List FlatTerm → List Node
  | [] => []
  | first :: rest => first.toNode x :: rest.flatMap fun t => [.operator .add, t.toNode x]

/-- How often the unknown is added by some terms. -/
def coefficientOf (terms : List FlatTerm) : Rat := (terms.map FlatTerm.coefficient).sum

/-- What some terms add without the unknown. -/
def constantOf (terms : List FlatTerm) : Rat := (terms.map FlatTerm.constant).sum

section

variable {x : Char} {t : FlatTerm} {terms : List FlatTerm}

/-! ## Terms -/

@[simp] theorem FlatTerm.hasVariable_toNode : (t.toNode x).hasVariable = t.hasUnknown := by
  cases h : t.hasUnknown <;> simp [FlatTerm.toNode, h]

@[simp] theorem FlatTerm.hasVariable_singleton :
    Sequence.hasVariable [t.toNode x] = t.hasUnknown := by
  rw [Sequence.hasVariable_singleton, FlatTerm.hasVariable_toNode]

theorem FlatTerm.isPlain_toNode (division : Bool) : (t.toNode x).IsPlain x division := by
  refine ⟨fun name hname => ?_, 1, .one⟩
  split at hname
  · exact (Option.some.inj hname).symm
  · cases hname

theorem FlatTerm.valueAt_toNode (point : Char → Rat) :
    (t.toNode x).valueAt point = some (t.coefficient * point x + t.constant) := by
  cases h : t.hasUnknown with
  | true =>
    rw [FlatTerm.toNode, h, if_pos rfl, Node.valueAt_group point .one]
    simp [FlatTerm.coefficient, FlatTerm.constant, h]
  | false =>
    simp [FlatTerm.toNode, FlatTerm.coefficient, FlatTerm.constant, h, Node.valueAt]

theorem FlatTerm.loneTerm?_toNode :
    loneTerm? [t.toNode x] = some ⟨if t.hasUnknown then some x else none, t.number, []⟩ := by
  simp [FlatTerm.toNode, loneTerm?]

/-! ## Cutting and joining -/

theorem flatSum_cons_cons (x : Char) (first second : FlatTerm) (rest : List FlatTerm) :
    flatSum x (first :: second :: rest) =
      first.toNode x :: .operator .add :: flatSum x (second :: rest) := rfl

theorem intercalate_map_toNode (x : Char) (terms : List FlatTerm) :
    [Node.operator .add].intercalate (terms.map fun t => [t.toNode x]) = flatSum x terms := by
  induction terms with
  | nil => rfl
  | cons first rest ih =>
    cases rest with
    | nil => rfl
    | cons second rest =>
      rw [flatSum_cons_cons, ← ih, List.map_cons, List.intercalate_cons_of_ne_nil (by simp)]
      rfl

/-- Some terms, or a zero where there is none. -/
def orZero (terms : List FlatTerm) : List FlatTerm := if terms.isEmpty then [.zero] else terms

theorem orZero_ne_nil : orZero terms ≠ [] := by
  cases terms <;> simp [orZero]

theorem orZero_of_ne_nil (hne : terms ≠ []) : orZero terms = terms := if_neg (by simpa using hne)

/-- Joined terms are a flat sum. -/
theorem Sequence.join_map_toNode (x : Char) (terms : List FlatTerm) :
    Sequence.join (terms.map fun t => [t.toNode x]) = flatSum x (orZero terms) := by
  have hkept : (terms.map fun t => [t.toNode x]).filter (fun part => !part.isEmpty) =
      terms.map fun t => [t.toNode x] :=
    List.filter_eq_self.2 (by simp)
  rw [Sequence.join, hkept, List.isEmpty_map, orZero]
  split
  · rfl
  · exact intercalate_map_toNode x terms

/-- The terms of a flat sum are its summands. -/
@[simp] theorem Sequence.summands_flatSum (x : Char) (terms : List FlatTerm) :
    Sequence.summands (flatSum x terms) = terms.map fun t => [t.toNode x] := by
  by_cases hne : terms = []
  · subst hne
    rfl
  · rw [← orZero_of_ne_nil hne, ← Sequence.join_map_toNode, orZero_of_ne_nil hne,
      Sequence.summands_join, if_neg (by simpa using hne)]
    intro part hpart
    obtain ⟨t, -, rfl⟩ := List.mem_map.1 hpart
    exact ⟨by simp, by simp [FlatTerm.toNode]⟩

/-- A node of a flat sum is a `+` operator or a term. -/
theorem mem_flatSum {node : Node} (h : node ∈ flatSum x terms) :
    node = .operator .add ∨ ∃ t ∈ terms, node = t.toNode x := by
  cases terms with
  | nil => cases h
  | cons first rest =>
    rcases List.mem_cons.1 h with rfl | h
    · exact .inr ⟨first, .head _, rfl⟩
    · obtain ⟨t, ht, h⟩ := List.mem_flatMap.1 h
      rcases List.mem_cons.1 h with rfl | h
      · exact .inl rfl
      · exact .inr ⟨t, .tail _ ht, List.mem_singleton.1 h⟩

theorem isPlain_flatSum (division : Bool) : Sequence.IsPlain x division (flatSum x terms) := by
  refine Sequence.isPlain_iff.2 fun node hnode => ?_
  rcases mem_flatSum hnode with rfl | ⟨t, -, rfl⟩
  · simp [Node.IsPlain]
  · exact FlatTerm.isPlain_toNode division

theorem hasVariable_flatSum :
    Sequence.hasVariable (flatSum x terms) = terms.any FlatTerm.hasUnknown := by
  rw [Bool.eq_iff_iff, Sequence.hasVariable_summands]
  simp

/-- A flat sum that is one term with a variable. -/
theorem variableTerm?_flatSum_eq_some {g : Group}
    (h : Sequence.variableTerm? (flatSum x terms) = some g) :
    ∃ n, terms = [⟨true, n⟩] ∧ g = ⟨some x, n, []⟩ := by
  match terms with
  | [] => cases h
  | [⟨true, n⟩] => exact ⟨n, rfl, (Option.some.inj h).symm⟩
  | [⟨false, n⟩] => cases h
  | first :: second :: rest =>
    rw [flatSum_cons_cons] at h
    simp [Sequence.variableTerm?] at h

/-! ## Values -/

theorem valueAt_flatSum (point : Char → Rat) (hne : terms ≠ []) :
    Sequence.valueAt point (flatSum x terms) =
      some (coefficientOf terms * point x + constantOf terms) := by
  rw [← intercalate_map_toNode]
  refine Sequence.valueAt_intercalate point (by simpa using hne) ?_
  clear hne
  induction terms with
  | nil => simp [coefficientOf, constantOf]
  | cons first rest ih =>
    refine (Sequence.sumAt_cons_eq_some point).2 ⟨_, _,
      (Sequence.valueAt_singleton point _).trans (first.valueAt_toNode point), ih, ?_⟩
    simp only [coefficientOf, constantOf, List.map_cons, List.sum_cons]
    ring

theorem coefficientOf_eq_zero (hterms : terms.any FlatTerm.hasUnknown = false) :
    coefficientOf terms = 0 := by
  induction terms with
  | nil => rfl
  | cons t rest ih =>
    rw [List.any_cons, Bool.or_eq_false_iff] at hterms
    rw [coefficientOf, List.map_cons, List.sum_cons, ← coefficientOf, ih hterms.2,
      FlatTerm.coefficient, hterms.1, if_neg Bool.false_ne_true, add_zero]

theorem applied_of_forall {tighter : Bool} {nodes : List Node}
    (h : ∀ op, .operator op ∈ nodes → op.bindsTighter ≠ tighter) :
    Sequence.applied tighter nodes = .ok nodes := by
  have hfrom (before : List Node) (held : Node) (rest : List Node)
      (hrest : ∀ op, .operator op ∈ rest → op.bindsTighter ≠ tighter) :
      Sequence.appliedFrom tighter before held rest = .ok (before.reverse ++ held :: rest) := by
    induction rest generalizing before held with
    | nil => rfl
    | cons node rest ih =>
      have ih := ih (held :: before) node fun op hop => hrest op (.tail _ hop)
      rw [List.reverse_cons, List.append_assoc] at ih
      cases node with
      | operator op =>
        cases rest <;> rw [Sequence.appliedFrom, if_neg (hrest op (.head _)), ih] <;> simp
      | _ => exact ih
  cases nodes with
  | nil => rfl
  | cons node rest =>
    have hrest := hfrom [] node rest fun op hop => h op (.tail _ hop)
    cases node with
    | operator op =>
      rw [Sequence.applied, if_neg (h op (.head _))]
      exact hrest
    | _ => exact hrest

/-- Numbers are added up from left to right. -/
theorem appliedFrom_flatSum (held : Node) (value : Rat) {rest : List FlatTerm}
    (hrest : ∀ t ∈ rest, t.hasUnknown = false)
    (hheld : held.operand = .ok value) :
    ∃ node, Sequence.appliedFrom false [] held
        (rest.flatMap fun t => [.operator .add, t.toNode x]) = .ok [node] ∧
      node.operand = .ok (value + constantOf rest) := by
  induction rest generalizing held value with
  | nil => exact ⟨held, rfl, by simpa [constantOf] using hheld⟩
  | cons t rest ih =>
    have ht := hrest t (.head _)
    obtain ⟨node, hnode, hvalue⟩ := ih (Node.constant (value + t.number.value))
      (value + t.number.value) (fun t ht => hrest t (.tail _ ht))
      (by simp [Node.constant, Group.constant, Group.toNode, Node.operand])
    refine ⟨node, ?_, ?_⟩
    · rw [List.flatMap_cons, List.cons_append, List.cons_append, Sequence.appliedFrom.eq_3,
        if_pos (show Operator.add.bindsTighter = false from rfl), hheld]
      simp only [FlatTerm.toNode, ht, Node.operand]
      exact hnode
    · rw [hvalue]
      simp [constantOf, FlatTerm.constant, ht, add_assoc]

/-- A sequence in which no term is to be evaluated on its own. -/
theorem evaluate_of_applied {nodes : List Node} {node : Node} {value : Rat}
    (hcollapse : ∀ node ∈ nodes, node.collapse = .ok node)
    (htighter : Sequence.applied true nodes = .ok nodes)
    (happlied : Sequence.applied false nodes = .ok [node]) (hvalue : node.operand = .ok value) :
    Sequence.evaluate nodes = .ok value := by
  have hcollapsed : Sequence.collapsed nodes = nodes.map fun node => (node, .ok node) := by
    rw [Sequence.collapsed_eq_map]
    exact List.map_congr_left fun node hnode => by rw [hcollapse node hnode]
  have hmapM (nodes : List Node) :
      (nodes.map fun node => (node, (Except.ok node : Except SolveError Node))).mapM
        (fun term => term.2) = .ok nodes := by
    induction nodes with
    | nil => rfl
    | cons node rest ih => rw [List.map_cons, List.mapM_cons, ih]; rfl
  have hfailure (kind : Node → Bool) (nodes : List Node) :
      firstFailure kind (nodes.map fun node => (node, .ok node)) = .ok () := by
    induction nodes with
    | nil => rfl
    | cons node rest ih =>
      rw [List.map_cons, firstFailure]
      · exact ih
      · simp
  rw [Sequence.evaluate, combined, hcollapsed, hfailure, hfailure, hmapM]
  simp only [bind, Except.bind, htighter, happlied, hvalue]

/-- A sum of numbers has a value. -/
theorem evaluate_flatSum (hne : terms ≠ []) (hterms : terms.any FlatTerm.hasUnknown = false) :
    Sequence.evaluate (flatSum x terms) = .ok (constantOf terms) := by
  have hterms (t : FlatTerm) (ht : t ∈ terms) : t.hasUnknown = false := by
    simpa using List.any_eq_false.1 hterms t ht
  have hadds (op : Operator) (hop : .operator op ∈ flatSum x terms) : op = .add := by
    rcases mem_flatSum hop with heq | ⟨t, -, heq⟩
    · exact Node.operator.inj heq
    · cases heq
  obtain ⟨node, hnode, hvalue⟩ : ∃ node,
      Sequence.applied false (flatSum x terms) = .ok [node] ∧
        node.operand = .ok (constantOf terms) := by
    cases terms with
    | nil => exact absurd rfl hne
    | cons first rest =>
      have hfirst : (first.toNode x).operand = .ok first.constant := by
        simp [FlatTerm.toNode, FlatTerm.constant, hterms first (.head _), Node.operand]
      obtain ⟨node, hnode, hvalue⟩ :=
        appliedFrom_flatSum (x := x) _ _ (fun t ht => hterms t (.tail _ ht)) hfirst
      exact ⟨node, hnode, by simpa [constantOf] using hvalue⟩
  refine evaluate_of_applied (fun node hmem => ?_) ?_ hnode hvalue
  · rcases mem_flatSum hmem with rfl | ⟨t, -, rfl⟩ <;> rfl
  · exact applied_of_forall fun op hop => by simp [hadds op hop, Operator.bindsTighter]

/-! ## Passes that have nothing to do -/

theorem Sequence.multiplied_of_forall {nodes : List Node}
    (h : ∀ node ∈ nodes, node ≠ .operator .multiply) : Sequence.multiplied nodes = .ok nodes := by
  have hafter (held : Node) (rest : List Node) (hrest : ∀ node ∈ rest, node ≠ .operator .multiply) :
      Sequence.multipliedAfter held rest = .ok (held :: rest) := by
    induction rest generalizing held with
    | nil => rfl
    | cons node rest ih =>
      rw [Sequence.multipliedAfter, ih node fun n hn => hrest n (.tail _ hn)]
      · rfl
      · exact fun _ _ heq => absurd heq (hrest node (.head _))
  cases nodes with
  | nil => rfl
  | cons node rest => exact hafter node rest fun n hn => h n (.tail _ hn)

theorem Sequence.withFractions_of_forall {nodes : List Node}
    (h : ∀ node ∈ nodes, node ≠ .operator .divide ∧ node.withFractions = .ok node) :
    Sequence.withFractions nodes = .ok nodes := by
  have hafter (held : Option Node) :
      Sequence.withFractionsAfter held nodes = .ok (held.toList ++ nodes) := by
    induction nodes generalizing held with
    | nil => simp [Sequence.withFractionsAfter]
    | cons node rest ih =>
      obtain ⟨hne, hnode⟩ := h node (.head _)
      rw [Sequence.withFractionsAfter, hnode]
      · simp only [bind, Except.bind, ih fun n hn => h n (.tail _ hn)]
        rfl
      · exact hne
  exact hafter none

theorem FractionSpot.inSummands?_of_forall {parts : List (List Node)}
    (h : ∀ part ∈ parts, ∀ node ∈ part, node.isFraction = false) :
    FractionSpot.inSummands? parts = none := by
  have hpart (part : List Node) (hnodes : ∀ node ∈ part, node.isFraction = false) :
      FractionSpot.inSummand? part = none := by
    induction part with
    | nil => rfl
    | cons node rest ih =>
      have hnode := hnodes node (.head _)
      rw [FractionSpot.inSummand?, ih fun n hn => hnodes n (.tail _ hn)]
      · rfl
      · rintro top bottom rfl
        cases hnode
  induction parts with
  | nil => rfl
  | cons part rest ih =>
    rw [FractionSpot.inSummands?, hpart part (h part (.head _)), ih fun p hp => h p (.tail _ hp)]
    rfl

/-! ## Division -/

/-- The term with its number divided. -/
def FlatTerm.dividedBy (divisor : Rat) (t : FlatTerm) : FlatTerm :=
  t.withNumber (Number.ofRat (t.number.value / divisor))

theorem productQuotient_toNode (divisor : Rat) :
    productQuotient divisor ([t.toNode x].map fun node => (node, node.quotient divisor)) =
      [(t.dividedBy divisor).toNode x] := by
  have hquotient : (t.toNode x).quotient divisor = [(t.dividedBy divisor).toNode x] := by
    rw [FlatTerm.toNode, Node.quotient, if_pos (by simp)]
    rfl
  rcases productQuotient_cases divisor [t.toNode x] with
    ⟨pre, node, post, hpart, -, heq⟩ | ⟨hterm, -⟩
  · obtain ⟨rfl, rfl, rfl⟩ : pre = [] ∧ node = t.toNode x ∧ post = [] := by
      cases pre with
      | nil => simpa [eq_comm] using hpart
      | cons _ _ => simp at hpart
    rw [heq, hquotient]
    rfl
  · cases hterm _ (.head _)

theorem Sequence.dividedBy_flatSum (divisor : Rat) (hne : terms ≠ []) :
    Sequence.dividedBy divisor (flatSum x terms) =
      flatSum x (terms.map (FlatTerm.dividedBy divisor)) := by
  have hparts : ((Sequence.summands (flatSum x terms)).map fun part =>
      part.map fun node => (node, node.quotient divisor)).map (productQuotient divisor) =
        (terms.map (FlatTerm.dividedBy divisor)).map fun t => [t.toNode x] := by
    simp only [Sequence.summands_flatSum, List.map_map]
    exact List.map_congr_left fun t _ => productQuotient_toNode divisor
  rw [Sequence.dividedBy, sumQuotient, Sequence.quotients_eq_map, Sequence.summandsWith_map, hparts,
    Sequence.join_map_toNode, orZero_of_ne_nil (by simpa using hne)]

/-! ## Like terms -/

/-- Adding a term leaves the kinds of the others as they are, and adds its own if it is new. -/
theorem exists_addLike (t : FlatTerm) (terms : List FlatTerm) :
    ∃ sums : List FlatTerm,
      addLike ⟨if t.hasUnknown then some x else none, t.number, []⟩
        (terms.map fun t => [t.toNode x]) = sums.map (fun t => [t.toNode x]) ∧
      sums.map FlatTerm.hasUnknown =
        if t.hasUnknown ∈ terms.map FlatTerm.hasUnknown then terms.map FlatTerm.hasUnknown
        else terms.map FlatTerm.hasUnknown ++ [t.hasUnknown] := by
  induction terms with
  | nil => exact ⟨[t], rfl, rfl⟩
  | cons first rest ih =>
    rw [List.map_cons, addLike, FlatTerm.loneTerm?_toNode]
    dsimp only
    by_cases hkind : first.hasUnknown = t.hasUnknown
    · rw [if_pos (by simp [Group.key, hkind])]
      refine ⟨t.withNumber (Number.ofRat (first.number.value + t.number.value)) :: rest, rfl, ?_⟩
      simp [FlatTerm.withNumber, hkind]
    · rw [if_neg (by revert hkind; cases first.hasUnknown <;> cases t.hasUnknown <;> simp [Group.key])]
      obtain ⟨sums, hsums, hkinds⟩ := ih
      refine ⟨first :: sums, by rw [hsums]; rfl, ?_⟩
      rw [List.map_cons, hkinds]
      simp only [List.map_cons, List.mem_cons, Ne.symm hkind, false_or]
      split <;> rfl

/-- Like terms are added up to at most one term of each kind. -/
theorem exists_collectLike (terms : List FlatTerm) :
    ∃ sums : List FlatTerm,
      collectLike (terms.map fun t => [t.toNode x]) = sums.map (fun t => [t.toNode x]) ∧
      (sums.map FlatTerm.hasUnknown).Nodup ∧
      ∀ kind, kind ∈ sums.map FlatTerm.hasUnknown ↔ kind ∈ terms.map FlatTerm.hasUnknown := by
  have hfold (collected : List FlatTerm) (hcollected : (collected.map FlatTerm.hasUnknown).Nodup) :
      ∃ sums : List FlatTerm,
        (terms.map fun t => [t.toNode x]).foldl Sequence.collectStep
          (collected.map fun t => [t.toNode x]) = sums.map (fun t => [t.toNode x]) ∧
        (sums.map FlatTerm.hasUnknown).Nodup ∧
        ∀ kind, kind ∈ sums.map FlatTerm.hasUnknown ↔
          kind ∈ collected.map FlatTerm.hasUnknown ∨ kind ∈ terms.map FlatTerm.hasUnknown := by
    induction terms generalizing collected with
    | nil => exact ⟨collected, rfl, hcollected, by simp⟩
    | cons t rest ih =>
      obtain ⟨next, hnext, hkinds⟩ := exists_addLike (x := x) t collected
      have hmem (kind : Bool) : kind ∈ next.map FlatTerm.hasUnknown ↔
          kind ∈ collected.map FlatTerm.hasUnknown ∨ kind = t.hasUnknown := by
        rw [hkinds]
        split
        · rename_i hold
          exact ⟨.inl, fun h => h.elim id fun heq => heq ▸ hold⟩
        · simp
      obtain ⟨sums, hsums, hnodup, hsumKinds⟩ := ih next (by
        rw [hkinds]
        split
        · exact hcollected
        · rename_i hnew
          exact List.nodup_append.2 ⟨hcollected, by simp, by simpa using hnew⟩)
      refine ⟨sums, ?_, hnodup, fun kind => ?_⟩
      · rw [List.map_cons, List.foldl_cons, Sequence.collectStep, FlatTerm.loneTerm?_toNode]
        dsimp only
        rw [hnext, hsums]
      · rw [hsumKinds, hmem, List.map_cons, List.mem_cons, or_assoc]
  obtain ⟨sums, hsums, hnodup, hkinds⟩ := hfold [] (by simp)
  exact ⟨sums, hsums, hnodup, by simpa using hkinds⟩

/-- Like terms of a flat sum, added up. -/
theorem Sequence.exists_collected (hne : terms ≠ []) :
    ∃ sums : List FlatTerm, sums ≠ [] ∧ Sequence.collected (flatSum x terms) = flatSum x sums ∧
      (sums.map FlatTerm.hasUnknown).Nodup ∧
      ∀ kind, kind ∈ sums.map FlatTerm.hasUnknown ↔ kind ∈ terms.map FlatTerm.hasUnknown := by
  obtain ⟨sums, hsums, hnodup, hkinds⟩ := exists_collectLike (x := x) terms
  have hsome : sums ≠ [] := by
    rintro rfl
    obtain ⟨t, ht⟩ := List.exists_mem_of_ne_nil terms hne
    exact absurd ((hkinds _).2 (List.mem_map_of_mem ht)) List.not_mem_nil
  refine ⟨sums, hsome, ?_, hnodup, hkinds⟩
  rw [Sequence.collected, Sequence.summands_flatSum, hsums, Sequence.join_map_toNode,
    orZero_of_ne_nil hsome]

/-- Terms of one kind are added up to one term. -/
theorem Sequence.exists_collected_of_kind {kind : Bool} (hne : terms ≠ [])
    (hkind : ∀ t ∈ terms, t.hasUnknown = kind) :
    ∃ n, Sequence.collected (flatSum x terms) = flatSum x [⟨kind, n⟩] := by
  obtain ⟨sums, hsome, heq, hnodup, hkinds⟩ := Sequence.exists_collected (x := x) hne
  have hsums (t : FlatTerm) (ht : t ∈ sums) : t.hasUnknown = kind := by
    obtain ⟨u, hu, hsame⟩ := List.mem_map.1 ((hkinds _).1 (List.mem_map_of_mem ht))
    rw [← hsame, hkind u hu]
  match sums, hsome with
  | [t], _ => exact ⟨t.number, heq.trans (by rw [← hsums t (.head _)])⟩
  | t :: u :: rest, _ =>
    have := hsums t (.head _)
    have := hsums u (.tail _ (.head _))
    simp_all

theorem Sequence.withoutZeros_flatSum (otherVariables : Bool) (terms : List FlatTerm) :
    Sequence.withoutZeros otherVariables (flatSum x terms) =
      flatSum x (orZero (terms.filter fun t =>
        staysBesideOthers (1 < terms.length) otherVariables [t.toNode x])) := by
  rw [Sequence.withoutZeros, Sequence.summands_flatSum, List.filter_map, Sequence.join_map_toNode,
    List.length_map]
  rfl

/-- A single term stays, unless it is a zero with the unknown and that is mentioned elsewhere. -/
theorem Sequence.withoutZeros_singleton {otherVariables : Bool}
    (h : t.hasUnknown = true → t.number.value = 0 → otherVariables = false) :
    Sequence.withoutZeros otherVariables (flatSum x [t]) = flatSum x [t] := by
  have hstays : staysBesideOthers false otherVariables [t.toNode x] = true := by
    rw [staysBesideOthers]
    split
    · rename_i g hg
      obtain ⟨hlone, hzero⟩ := Sequence.zeroTerm?_eq_some hg
      rw [FlatTerm.loneTerm?_toNode] at hlone
      obtain rfl := Option.some.inj hlone
      cases hkind : t.hasUnknown with
      | true => simp [h hkind hzero]
      | false => rfl
    · rfl
  have hkept : [t].filter (fun t =>
      staysBesideOthers (1 < [t].length) otherVariables [t.toNode x]) = [t] :=
    List.filter_eq_self.2 fun u hu => by
      rw [List.mem_singleton.1 hu]
      exact hstays
  rw [Sequence.withoutZeros_flatSum]
  exact congrArg _ (congrArg orZero hkept)

end

end OneUnknown
