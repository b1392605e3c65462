import OneUnknown.Proofs.CleanForm
import OneUnknown.Proofs.Grammar
/-!
# The other sign and the value

Negating a sequence changes the sign of the first factor of each of its summands.  That gives the
opposite value but for two kinds of first factors: a negative parenthesis directly behind a term,
which without its sign is a factor of the summand before, and a zero with an exponent, which has no
sign that could change.  What is negated in truth is the sequence in which the former are factors
already and the latter have a minus sign in front.

* `Sequence.fused`, `Sequence.cleaned_negated`: cleaning a negated sequence;
* `Sequence.mapFirst`, `SumHasValue.mapFirst_neg`: a sum in which first factors are exchanged for
  others of the opposite value;
* `Sequence.zerosTurned`, `Sequence.evaluate_negated`: the value of a negated sequence;
* `Sequence.worth_negated`: both together, and when nothing stands in the way.
-/

namespace OneUnknown

/-! ## First factors -/

theorem Node.isTerm_of_startsSummand {node : Node} {previous : Option Node}
    (h : node.startsSummand previous = true) : node.isTerm = true := by
  cases node <;> first | rfl | cases h

/-- Whether every term in this place begins a summand: behind nothing, behind a relation, and behind
`+` and `-`. -/
def Node.opensSummand : Option Node → Bool
  | none => true
  | some (.operator op) => !op.bindsTighter
  | some (.relation _) => true
  | some _ => false

theorem Node.startsSummand_of_opensSummand {node : Node} {previous : Option Node}
    (h : Node.opensSummand previous = true) : node.startsSummand previous = node.isTerm := by
  unfold Node.opensSummand at h
  split at h <;> cases node <;> simp_all [Node.startsSummand, Node.isTerm]

theorem Node.any_isTerm_of_opensSummand {previous : Option Node}
    (h : Node.opensSummand previous = true) : previous.any Node.isTerm = false := by
  unfold Node.opensSummand at h
  split at h <;> simp_all [Node.isTerm]

theorem Node.startsSummand_of_bindsTighter {op : Operator} (h : op.bindsTighter = true)
    (node : Node) : node.startsSummand (some (.operator op)) = false := by
  cases node <;> simp [Node.startsSummand, h]

/-- The sequence that follows `previous`, with the first factor of every summand exchanged. -/
def Sequence.mapFirst (f : Node → Node) (previous : Option Node) : List Node → List Node
  | [] => []
  | n :: ns => (if n.startsSummand previous then f n else n) :: Sequence.mapFirst f (some n) ns

theorem Sequence.negatedAfter_eq_mapFirst (previous : Option Node) (nodes : List Node) :
    Sequence.negatedAfter previous nodes = Sequence.mapFirst Node.negated previous nodes := by
  induction nodes generalizing previous with
  | nil => rfl
  | cons node rest ih => rw [Sequence.negatedAfter, Sequence.mapFirst, ih]

namespace Sequence

variable {f g : Node → Node} {previous : Option Node} {nodes left right : List Node}
  {op : Operator} {node : Node}

theorem mapFirst_append_operator :
    mapFirst f previous (left ++ .operator op :: right) =
      mapFirst f previous left ++ .operator op :: mapFirst f (some (.operator op)) right := by
  induction left generalizing previous with
  | nil => simp [mapFirst, Node.startsSummand]
  | cons node rest ih => simp [mapFirst, ih]

/-- Terms are exchanged for terms, so an operator in the result was there before. -/
theorem eq_append_of_mapFirst (hf : ∀ node, (f node).isTerm = node.isTerm)
    (h : mapFirst f previous nodes = left ++ .operator op :: right) :
    ∃ left' right', nodes = left' ++ .operator op :: right' ∧ mapFirst f previous left' = left ∧
      mapFirst f (some (.operator op)) right' = right := by
  induction left generalizing previous nodes with
  | nil =>
    cases nodes with
    | nil => cases h
    | cons node rest =>
      obtain ⟨hnode, hrest⟩ := List.cons.inj h
      have hstarts : ¬ node.startsSummand previous = true := by
        intro hstarts
        have hterm := hf node
        rw [if_pos hstarts] at hnode
        rw [hnode, Node.isTerm_of_startsSummand hstarts] at hterm
        cases hterm
      rw [if_neg hstarts] at hnode
      subst hnode
      exact ⟨[], rest, rfl, rfl, hrest⟩
  | cons first left ih =>
    cases nodes with
    | nil => cases h
    | cons node rest =>
      obtain ⟨hnode, hrest⟩ := List.cons.inj h
      obtain ⟨left', right', rfl, hleft, hright⟩ := ih hrest
      exact ⟨node :: left', right', rfl, by rw [mapFirst, hnode, hleft], hright⟩

theorem eq_singleton_of_mapFirst (h : mapFirst f previous nodes = [node]) :
    ∃ node', nodes = [node'] ∧ (if node'.startsSummand previous then f node' else node') = node := by
  match nodes with
  | [] => cases h
  | [node'] => exact ⟨node', rfl, (List.cons.inj h).1⟩
  | _ :: _ :: _ => cases h

/-- What is joined to a product by `*` or `/` is not exchanged. -/
theorem eq_append_factor_of_mapFirst (hf : ∀ node, (f node).isTerm = node.isTerm)
    (hop : op.bindsTighter = true)
    (h : mapFirst f previous nodes = left ++ [.operator op, node]) :
    ∃ left', nodes = left' ++ [.operator op, node] ∧ mapFirst f previous left' = left ∧
      mapFirst g previous nodes = mapFirst g previous left' ++ [.operator op, node] := by
  obtain ⟨left', right', rfl, hleft, hright⟩ := eq_append_of_mapFirst hf h
  obtain ⟨factor, rfl, hfactor⟩ := eq_singleton_of_mapFirst hright
  have hinner := Node.startsSummand_of_bindsTighter hop
  obtain rfl : factor = node := by simpa [hinner] using hfactor
  exact ⟨left', rfl, hleft, by simp [mapFirst_append_operator, mapFirst, hinner]⟩

end Sequence

/-! ## The opposite value -/

section

variable {f g : Node → Node} {previous : Option Node} {nodes : List Node} {v : Rat}

/-- A product changes its sign with its first factor. -/
theorem ProductHasValue.mapFirst_neg (hopens : Node.opensSummand previous = true)
    (hf : ∀ node, (f node).isTerm = node.isTerm)
    (hfg : ∀ node ∈ nodes, ∀ w, (f node).HasValue w → (g node).HasValue (-w))
    (h : ProductHasValue Node.HasValue (Sequence.mapFirst f previous nodes) v) :
    ProductHasValue Node.HasValue (Sequence.mapFirst g previous nodes) (-v) := by
  generalize hout : Sequence.mapFirst f previous nodes = out at h
  induction h generalizing nodes with
  | term hnode =>
    obtain ⟨node, rfl, hfirst⟩ := Sequence.eq_singleton_of_mapFirst hout
    have hstarts : node.startsSummand previous = true := by
      have hterm := hnode.isTerm
      rw [← hfirst] at hterm
      rw [Node.startsSummand_of_opensSummand hopens]
      split at hterm
      · exact hf node ▸ hterm
      · exact hterm
    rw [if_pos hstarts] at hfirst
    rw [Sequence.mapFirst, if_pos hstarts]
    exact .term (hfg node (.head _) _ (hfirst ▸ hnode))
  | multiply _ hnode ih =>
    obtain ⟨left, rfl, hleft, hright⟩ := Sequence.eq_append_factor_of_mapFirst hf rfl hout
    rw [hright, ← neg_mul]
    exact .multiply (ih (fun n hn => hfg n (List.mem_append_left _ hn)) hleft) hnode
  | divide _ hnode hv ih =>
    obtain ⟨left, rfl, hleft, hright⟩ := Sequence.eq_append_factor_of_mapFirst hf rfl hout
    rw [hright]
    exact .divide (ih (fun n hn => hfg n (List.mem_append_left _ hn)) hleft) hnode
      (Rational.divide_neg.2 hv)

/-- A sum changes its sign with the first factors of its summands. -/
theorem SumHasValue.mapFirst_neg (hopens : Node.opensSummand previous = true)
    (hf : ∀ node, (f node).isTerm = node.isTerm)
    (hfg : ∀ node ∈ nodes, ∀ w, (f node).HasValue w → (g node).HasValue (-w))
    (h : SumHasValue Node.HasValue (Sequence.mapFirst f previous nodes) v) :
    SumHasValue Node.HasValue (Sequence.mapFirst g previous nodes) (-v) := by
  generalize hout : Sequence.mapFirst f previous nodes = out at h
  induction h generalizing nodes with
  | product hproduct => exact .product (.mapFirst_neg hopens hf hfg (hout ▸ hproduct))
  | add _ hproduct ih =>
    obtain ⟨left, right, rfl, hleft, rfl⟩ := Sequence.eq_append_of_mapFirst hf hout
    rw [Sequence.mapFirst_append_operator, neg_add]
    exact .add (ih (fun n hn => hfg n (List.mem_append_left _ hn)) hleft)
      (.mapFirst_neg rfl hf (fun n hn => hfg n (List.mem_append_right _ (.tail _ hn))) hproduct)
  | subtract _ hproduct ih =>
    obtain ⟨left, right, rfl, hleft, rfl⟩ := Sequence.eq_append_of_mapFirst hf hout
    rw [Sequence.mapFirst_append_operator, neg_sub']
    exact .subtract (ih (fun n hn => hfg n (List.mem_append_left _ hn)) hleft)
      (.mapFirst_neg rfl hf (fun n hn => hfg n (List.mem_append_right _ (.tail _ hn))) hproduct)

end

/-! ## Zeros with an exponent -/

mutual
/-- A first factor whose value is the opposite of the one with the other sign.  A zero does not
change with its sign, so a minus sign is put in front of it and its exponent. -/
def Node.zeroTurned : Node → Node
  | .group v n p =>
    if v = none ∧ n.isZero ∧ p ≠ [] then .paren [.group v n p] [] true else .group v n p
  | .paren b p negative => .paren b p negative
  | .fraction t b => .fraction (Sequence.zerosTurnedAfter none t) b
  | .operator op => .operator op
  | .relation r => .relation r

/-- The sequence that follows `previous`, with the first factor of every summand turned. -/
def Sequence.zerosTurnedAfter (previous : Option Node) : List Node → List Node
  | [] => []
  | n :: ns =>
    (if n.startsSummand previous then n.zeroTurned else n) ::
      Sequence.zerosTurnedAfter (some n) ns
end

/-- A sequence in which every zero with an exponent that begins a summand has a minus sign in
front. -/
def Sequence.zerosTurned (nodes : List Node) : List Node := Sequence.zerosTurnedAfter none nodes

theorem Sequence.zerosTurnedAfter_eq_mapFirst (previous : Option Node) (nodes : List Node) :
    Sequence.zerosTurnedAfter previous nodes = Sequence.mapFirst Node.zeroTurned previous nodes := by
  induction nodes generalizing previous with
  | nil => rfl
  | cons node rest ih => rw [Sequence.zerosTurnedAfter, Sequence.mapFirst, ih]

theorem Node.isTerm_zeroTurned (node : Node) : node.zeroTurned.isTerm = node.isTerm := by
  cases node with
  | group v n p =>
    rw [Node.zeroTurned]
    split <;> rfl
  | _ => rfl

theorem Rational.signedPower_neg {base exponent v : Rat} (hbase : base ≠ 0) :
    Rational.signedPower (-base) exponent = .ok (-v) ↔
      Rational.signedPower base exponent = .ok v := by
  rw [Rational.signedPower, Rational.signedPower, Rational.magnitude_eq_abs,
    Rational.magnitude_eq_abs, abs_neg]
  cases Rational.power |base| exponent with
  | error e => simp [bind, Except.bind]
  | ok w =>
    rcases lt_or_gt_of_ne hbase with h | h <;>
      simp [bind, Except.bind, pure, Except.pure, h, h.not_gt, neg_eq_iff_eq_neg]

/-- A negated sequence has the opposite value of the one with its first factors turned, if that is so
for the nodes of the sequence. -/
theorem SumHasValue.negated_iff {nodes : List Node} {v : Rat}
    (hnodes : ∀ node ∈ nodes, ∀ w, node.negated.HasValue (-w) ↔ node.zeroTurned.HasValue w) :
    SumHasValue Node.HasValue (Sequence.negated nodes) (-v) ↔
      SumHasValue Node.HasValue (Sequence.zerosTurned nodes) v := by
  rw [Sequence.negated, Sequence.zerosTurned, Sequence.negatedAfter_eq_mapFirst,
    Sequence.zerosTurnedAfter_eq_mapFirst]
  constructor
  · intro h
    rw [← neg_neg v]
    refine h.mapFirst_neg rfl Node.isTerm_negated fun node hnode w hw => ?_
    exact (hnodes node hnode (-w)).1 (by rwa [neg_neg])
  · exact .mapFirst_neg rfl Node.isTerm_zeroTurned fun node hnode w => (hnodes node hnode w).2

theorem Node.HasValue.paren_neg {b p : List Node} {negative : Bool} {v : Rat}
    (h : (Node.paren b p negative).HasValue v) : (Node.paren b p (!negative)).HasValue (-v) := by
  cases h with
  | paren _ hb =>
    have := Node.HasValue.paren (!negative) hb
    cases negative <;> simpa using this
  | parenPower _ hp hb hexponent hv =>
    have := Node.HasValue.parenPower (!negative) hp hb hexponent hv
    cases negative <;> simpa using this

theorem Node.hasValue_paren_singleton {node : Node} {v : Rat} :
    (Node.paren [node] [] true).HasValue v ↔ node.HasValue (-v) := by
  constructor
  · intro h
    cases h with
    | paren _ hb => simpa using SumHasValue.singleton_iff.1 hb
    | parenPower _ hp => exact absurd rfl hp
  · intro h
    simpa using Node.HasValue.paren true (SumHasValue.singleton_iff.2 h)

/-- A negated term has the opposite value of the term turned. -/
theorem Node.hasValue_negated_iff {node : Node} {v : Rat} :
    node.negated.HasValue (-v) ↔ node.zeroTurned.HasValue v := by
  induction node using Node.nested_induction generalizing v with
  | group letter n p =>
    rw [Node.negated, Node.zeroTurned]
    cases letter with
    | some name =>
      rw [if_neg fun h => Option.some_ne_none name h.1]
      constructor <;>
      · intro h
        cases h.hasVariable_eq_false
    | none =>
      by_cases hp : p = []
      · subst hp
        rw [if_neg fun h => h.2.2 rfl, Node.hasValue_number_iff, Node.hasValue_number_iff,
          Number.value_negated, neg_inj]
      · rw [Node.hasValue_power_iff hp, Number.value_negated]
        by_cases hzero : n.isZero = true
        · rw [if_pos ⟨rfl, hzero, hp⟩, Node.hasValue_paren_singleton, Node.hasValue_power_iff hp,
            Number.isZero_iff.1 hzero, neg_zero]
        · rw [if_neg fun h => hzero h.2.1, Node.hasValue_power_iff hp]
          simp only [Rational.signedPower_neg fun h => hzero (Number.isZero_iff.2 h)]
  | paren b p negative =>
    refine ⟨fun h => ?_, .paren_neg⟩
    simpa [Node.zeroTurned] using h.paren_neg
  | fraction t b iht =>
    have htop (top : Rat) := SumHasValue.negated_iff (v := top) fun node hnode w => iht node hnode
    rw [Node.negated, Node.zeroTurned, Node.hasValue_fraction_iff, Node.hasValue_fraction_iff]
    constructor
    · rintro ⟨top, bottom, ht, hb, hv⟩
      rw [← neg_neg top] at ht hv
      exact ⟨-top, bottom, (htop _).1 ht, hb, Rational.divide_neg.1 hv⟩
    · rintro ⟨top, bottom, ht, hb, hv⟩
      exact ⟨-top, bottom, (htop _).2 ht, hb, Rational.divide_neg.2 hv⟩
  | operator op => exact ⟨fun h => (by cases h), fun h => (by cases h)⟩
  | relation r => exact ⟨fun h => (by cases h), fun h => (by cases h)⟩

/-- A negated sequence is evaluated to the opposite of what the one with its zeros turned is. -/
theorem Sequence.evaluate_negated {nodes : List Node} {v : Rat} :
    Sequence.evaluate (Sequence.negated nodes) = .ok (-v) ↔
      Sequence.evaluate (Sequence.zerosTurned nodes) = .ok v := by
  rw [Sequence.evaluate_eq_ok, Sequence.evaluate_eq_ok]
  exact SumHasValue.negated_iff fun _ _ _ => Node.hasValue_negated_iff

/-! ## Negative parentheses behind a term -/

mutual
/-- A first factor in which every negative parenthesis behind a term has lost its sign.
`behindTerm` says whether a term stands directly before it. -/
def Node.fused (behindTerm : Bool) : Node → Node
  | .group v n p => .group v n p
  | .paren b p negative => .paren b p (negative && !behindTerm)
  | .fraction t b => .fraction (Sequence.fusedAfter none t) b
  | .operator op => .operator op
  | .relation r => .relation r

/-- The sequence that follows `previous`, with every first factor fused. -/
def Sequence.fusedAfter (previous : Option Node) : List Node → List Node
  | [] => []
  | n :: ns =>
    (if n.startsSummand previous then n.fused (previous.any Node.isTerm) else n) ::
      Sequence.fusedAfter (some n) ns
end

/-- A sequence in which every negative parenthesis directly behind a term has lost its sign, and
with it has become a factor of the summand before. -/
def Sequence.fused (nodes : List Node) : List Node := Sequence.fusedAfter none nodes

/-- The same place in a sequence and in what cleaning makes of it: what stands before it begins a
summand in the one if and only if it does in the other, or is a term in both. -/
inductive Sequence.SamePlace : (afterTerm negate : Bool) → (previous previous' : Option Node) → Prop
  | opens {negate previous previous'} (h : Node.opensSummand previous = true)
    (h' : Node.opensSummand previous' = true) : SamePlace false negate previous previous'
  | tight {negate op op'} (h : Operator.bindsTighter op = true)
    (h' : Operator.bindsTighter op' = true) :
    SamePlace false negate (some (.operator op)) (some (.operator op'))
  | term {node node'} (h : node.isTerm = true) (h' : node'.isTerm = true) :
    SamePlace true false (some node) (some node')

theorem Node.isTerm_fused (behindTerm : Bool) (node : Node) :
    (node.fused behindTerm).isTerm = node.isTerm := by
  cases node <;> rfl

/-- Cleaning keeps a term a term, and the operator that is implied in front of it. -/
theorem Node.kind_of_cleaned {node node' : Node} (h : node.cleaned = .ok node') :
    node'.isTerm = node.isTerm ∧ node'.isParen = node.isParen ∧
      node'.impliedOperator = node.impliedOperator := by
  cases node with
  | group letter n p =>
    obtain ⟨power, -, h⟩ := Except.bind_eq_ok.1 h
    exact Except.pure_eq_ok.1 h ▸ ⟨rfl, rfl, rfl⟩
  | paren b p negative =>
    obtain ⟨body, -, h⟩ := Except.bind_eq_ok.1 h
    obtain ⟨power, -, h⟩ := Except.bind_eq_ok.1 h
    obtain rfl := Except.pure_eq_ok.1 h
    cases negative <;> exact ⟨rfl, rfl, rfl⟩
  | fraction t b =>
    obtain ⟨top, -, h⟩ := Except.bind_eq_ok.1 h
    obtain ⟨bottom, -, h⟩ := Except.bind_eq_ok.1 h
    split at h
    · rename_i quotient hquotient
      obtain rfl := Except.pure_eq_ok.1 h
      exact Node.fraction?_eq_some hquotient ▸ ⟨rfl, rfl, rfl⟩
    · cases h
  | operator | relation => exact Except.ok.inj h ▸ ⟨rfl, rfl, rfl⟩

/-- Behind a term, exactly those terms begin a summand that are added to it. -/
theorem Node.startsSummand_behind {previous node : Node} (hprevious : previous.isTerm = true)
    (hterm : node.isTerm = true) :
    node.startsSummand (some previous) = decide (node.impliedOperator = .add) := by
  cases node with
  | paren b p negative =>
    cases previous <;> cases negative <;> first | rfl | cases hprevious
  | group | fraction => cases previous <;> first | rfl | cases hprevious
  | operator | relation => cases hterm

/-- An operator in front of a sequence that is cleaned: only `-` is exchanged for another one, which
binds as it does. -/
theorem Sequence.exists_cleanedFrom_operator (op : Operator) (negate : Bool) :
    ∃ op' negate', op'.bindsTighter = op.bindsTighter ∧ ∀ nested afterTerm rest,
      Sequence.cleanedFrom nested afterTerm negate (.operator op :: rest) =
        (Sequence.cleanedFrom nested false negate' rest).map (.operator op' :: ·) := by
  cases op with
  | subtract => exact ⟨.add, !negate, rfl, fun _ _ _ => rfl⟩
  | _ => exact ⟨_, negate, rfl, fun _ _ _ => rfl⟩

namespace Sequence

variable {nested afterTerm negate : Bool} {previous previous' : Option Node} {nodes rest : List Node}
  {node : Node}

theorem SamePlace.start : SamePlace false negate none none := .opens rfl rfl

theorem SamePlace.relation (r : Relation) :
    SamePlace false negate (some (.relation r)) (some (.relation r)) := .opens rfl rfl

theorem SamePlace.operator {op op' : Operator} (h : op'.bindsTighter = op.bindsTighter) :
    SamePlace false negate (some (.operator op)) (some (.operator op')) := by
  cases hop : op.bindsTighter with
  | true => exact .tight hop (h.trans hop)
  | false => exact .opens (by simp [Node.opensSummand, hop]) (by simp [Node.opensSummand, h, hop])

/-- Behind a term, a term that is no parenthesis is added, with either sign. -/
theorem placeTerm_negated (hterm : node.isTerm = true) (hparen : node.isParen = false) :
    placeTerm true node.negated (negatedAfter (some node) rest) =
      negatedAfter previous (placeTerm true node rest) := by
  cases node with
  | group | fraction =>
    simp [placeTerm, negatedAfter, Node.startsSummand, Node.impliedOperator, Node.negated,
      Operator.bindsTighter]
  | paren => cases hparen
  | operator | relation => cases hterm

/-- Behind a term, what is multiplied to it keeps its sign. -/
theorem placeTerm_factor (hoperator : node.impliedOperator = .multiply) :
    placeTerm true node (negatedAfter (some node) rest) =
      negatedAfter previous (placeTerm true node rest) := by
  have hinner : node.startsSummand (some (.operator .multiply)) = false :=
    Node.startsSummand_of_bindsTighter rfl node
  rw [placeTerm, placeTerm, if_pos rfl, if_pos rfl, hoperator, negatedAfter, negatedAfter, hinner]
  rfl

/-- A term in the same place.  Behind a term, the negative parenthesis whose sign is lost is a factor
before and after; every other first factor changes its sign, whether that is done before it is
cleaned or afterwards. -/
theorem SamePlace.exists_turn (hplace : SamePlace afterTerm negate previous previous')
    (hterm : node.isTerm = true)
    (hnode : node.negated.cleaned = (node.fused false).cleaned.map Node.negated) :
    ∃ turn : Node → Node,
      (if node.startsSummand previous then node.negated else node).cleaned =
        (if node.startsSummand previous then node.fused (previous.any Node.isTerm)
          else node).cleaned.map turn ∧
      ∀ term, (if node.startsSummand previous then node.fused (previous.any Node.isTerm)
          else node).cleaned = .ok term → ∀ rest,
        placeTerm afterTerm (if negate then (turn term).negated else turn term)
            (negatedAfter (some (if negate then term.negated else term)) rest) =
          negatedAfter previous'
            (placeTerm afterTerm (if negate then term.negated else term) rest) := by
  cases hplace with
  | @opens negate _ _ h h' =>
    have hstarts : node.startsSummand previous = true :=
      (Node.startsSummand_of_opensSummand h).trans hterm
    have hprevious := Node.any_isTerm_of_opensSummand h
    rw [if_pos hstarts, if_pos hstarts, hprevious]
    refine ⟨Node.negated, hnode, fun term hclean rest => ?_⟩
    have hsigned : (if negate then term.negated else term).startsSummand previous' = true := by
      rw [Node.startsSummand_of_opensSummand h']
      simpa only [apply_ite Node.isTerm, Node.isTerm_negated, Node.isTerm_fused, ite_self,
        hstarts, hterm, if_true] using (Node.kind_of_cleaned hclean).1
    cases negate <;> simp_all [placeTerm, negatedAfter]
  | @tight negate op op' h h' =>
    rw [if_neg (by simp [Node.startsSummand_of_bindsTighter h]),
      if_neg (by simp [Node.startsSummand_of_bindsTighter h])]
    refine ⟨id, by cases node.cleaned <;> rfl, fun term _ rest => ?_⟩
    simp [placeTerm, negatedAfter, Node.startsSummand_of_bindsTighter h']
  | @term before before' h h' =>
    have hbehind : (some before).any Node.isTerm = true := h
    rw [hbehind, Node.startsSummand_behind h hterm]
    cases node with
    | paren b p negative =>
      refine ⟨id, ?_, fun term hclean rest => ?_⟩
      · cases negative <;> exact (Except.map_id ▸ rfl)
      · refine placeTerm_factor ((Node.kind_of_cleaned hclean).2.2.trans ?_)
        cases negative <;> rfl
    | group | fraction =>
      refine ⟨Node.negated, hnode, fun term hclean rest => ?_⟩
      obtain ⟨hterm, hparen, -⟩ := Node.kind_of_cleaned hclean
      exact placeTerm_negated hterm hparen
    | operator | relation => cases hterm

theorem cleanedFrom_negatedAfter (hplace : SamePlace afterTerm negate previous previous')
    (hnodes : ∀ node ∈ nodes, node.isTerm = true →
      node.negated.cleaned = (node.fused false).cleaned.map Node.negated) :
    cleanedFrom nested afterTerm negate (negatedAfter previous nodes) =
      (cleanedFrom nested afterTerm negate (fusedAfter previous nodes)).map
        (negatedAfter previous') := by
  induction nodes generalizing afterTerm negate previous previous' with
  | nil => rfl
  | cons node rest ih =>
    replace ih {afterTerm negate : Bool} {previous previous' : Option Node}
        (hplace : SamePlace afterTerm negate previous previous') :=
      ih hplace fun n hn => hnodes n (.tail _ hn)
    rw [negatedAfter, fusedAfter]
    by_cases hterm : node.isTerm = true
    · obtain ⟨turn, hturn, hplaced⟩ := hplace.exists_turn hterm (hnodes node (.head _) hterm)
      rw [cleanedFrom_term _ _ _ (by split <;> simp [hterm, Node.isTerm_negated]),
        cleanedFrom_term _ _ _ (by split <;> simp [hterm, Node.isTerm_fused]), hturn]
      cases hclean : (if node.startsSummand previous then node.fused (previous.any Node.isTerm)
          else node).cleaned with
      | error e => rfl
      | ok term =>
        have hsigned : (if negate then term.negated else term).isTerm = true := by
          simpa only [apply_ite Node.isTerm, Node.isTerm_negated, Node.isTerm_fused, ite_self,
            hterm] using (Node.kind_of_cleaned hclean).1
        rw [ih (.term hterm hsigned)]
        cases cleanedFrom nested true false (fusedAfter (some node) rest) with
        | error e => rfl
        | ok out => exact congrArg Except.ok (hplaced term hclean out)
    · cases node with
      | operator op =>
        obtain ⟨op', negate', hop, hclean⟩ := exists_cleanedFrom_operator op negate
        rw [if_neg (by simp [Node.startsSummand]), if_neg (by simp [Node.startsSummand]), hclean,
          hclean, ih (.operator hop)]
        cases cleanedFrom nested false negate' (fusedAfter (some (.operator op)) rest) with
        | error e => rfl
        | ok out => simp [Except.map, negatedAfter, Node.startsSummand]
      | relation r =>
        rw [if_neg (by simp [Node.startsSummand]), if_neg (by simp [Node.startsSummand]),
          cleanedFrom, cleanedFrom, ih (.relation r)]
        cases nested with
        | true => rfl
        | false =>
          cases cleanedFrom false false negate (fusedAfter (some (.relation r)) rest) with
          | error e => rfl
          | ok out => simp [Except.map, bind, Except.bind, pure, Except.pure, negatedAfter,
              Node.startsSummand]
      | _ => exact absurd rfl hterm

end Sequence

theorem Node.fraction?_negated (top bottom : List Node) :
    Node.fraction? (Sequence.negatedAfter none top) bottom =
      (Node.fraction? top bottom).map Node.negated := by
  unfold Node.fraction?
  split
  · split <;> rfl
  · rfl

/-- Cleaning a term with the other sign. -/
theorem Node.cleaned_negated (node : Node) (hterm : node.isTerm = true) :
    node.negated.cleaned = (node.fused false).cleaned.map Node.negated := by
  induction node using Node.nested_induction with
  | group letter n p =>
    rw [Node.negated, Node.fused, Node.cleaned, Node.cleaned]
    cases Sequence.cleanedFrom true false false p <;> rfl
  | paren b p negative =>
    rw [Node.negated, Node.fused, Node.cleaned, Node.cleaned]
    cases Sequence.cleanedFrom true false false b with
    | error e => rfl
    | ok body =>
      cases Sequence.cleanedFrom true false false p with
      | error e => rfl
      | ok power => cases negative <;> rfl
  | fraction t b iht =>
    rw [Node.negated, Node.fused, Node.cleaned, Node.cleaned,
      Sequence.cleanedFrom_negatedAfter .start iht]
    cases Sequence.cleanedFrom true false false (Sequence.fusedAfter none t) with
    | error e => rfl
    | ok top =>
      cases Sequence.cleanedFrom true false false b with
      | error e => rfl
      | ok bottom =>
        simp only [Except.map, bind, Except.bind, Node.fraction?_negated]
        cases Node.fraction? top bottom <;> rfl
  | operator | relation => cases hterm

/-- A negated sequence is cleaned to the negation of what the fused one is cleaned to. -/
theorem Sequence.cleaned_negated (nodes : List Node) :
    Sequence.cleaned (Sequence.negated nodes) =
      (Sequence.cleaned (Sequence.fused nodes)).map Sequence.negated :=
  Sequence.cleanedFrom_negatedAfter .start fun node _ => Node.cleaned_negated node

/-! ## Clean sequences have no such parentheses -/

theorem Sequence.fusedAfter_eq {previous : Option Node} {nodes : List Node}
    (hnodes : ∀ node ∈ nodes, node.fused false = node) (hspaced : Sequence.IsSpaced nodes)
    (hprevious : previous.any Node.isTerm = true → ∀ node ∈ nodes.head?, node.isTerm = false) :
    Sequence.fusedAfter previous nodes = nodes := by
  induction nodes generalizing previous with
  | nil => rfl
  | cons node rest ih =>
    obtain ⟨hnext, hrest⟩ := List.isChain_cons.1 hspaced
    have hfused : Sequence.fusedAfter (some node) rest = rest :=
      ih (fun n hn => hnodes n (.tail _ hn)) hrest fun hterm next hmem => hnext next hmem hterm
    rw [Sequence.fusedAfter, hfused]
    by_cases hstarts : node.startsSummand previous = true
    · have hterm := Node.isTerm_of_startsSummand hstarts
      have halone : previous.any Node.isTerm = false := by
        refine Bool.eq_false_iff.2 fun h => ?_
        rw [hprevious h node rfl] at hterm
        cases hterm
      rw [if_pos hstarts, halone, hnodes node (.head _)]
    · rw [if_neg hstarts]

theorem Node.IsClean.fused_eq {node : Node} (h : node.IsClean) : node.fused false = node := by
  induction node using Node.nested_induction with
  | paren b p negative => rw [Node.fused, Bool.not_false, Bool.and_true]
  | fraction t b iht =>
    obtain ⟨hnodes, hspaced⟩ := Sequence.isClean_iff.1 h.1
    rw [Node.fused, Sequence.fusedAfter_eq (fun n hn => iht n hn (hnodes n hn)) hspaced (by simp)]
  | _ => rfl

/-- No term stands behind another one in what cleaning gives. -/
theorem Sequence.IsCleanProblem.fused_eq {nodes : List Node} (h : Sequence.IsCleanProblem nodes) :
    Sequence.fused nodes = nodes := by
  refine Sequence.fusedAfter_eq (fun node hnode => ?_) h.2 (by simp)
  rcases h.1 node hnode with hrelation | hclean
  · cases node <;> first | rfl | cases hrelation
  · exact hclean.fused_eq

/-! ## What a negated sequence is worth -/

/-- What a sequence is worth: its value after cleaning. -/
def Sequence.worth (nodes : List Node) : Except SolveError Rat := do
  let nodes ← Sequence.cleaned nodes
  Sequence.evaluate nodes

theorem Sequence.worth_eq_ok {nodes : List Node} {v : Rat} :
    Sequence.worth nodes = .ok v ↔
      ∃ out, Sequence.cleaned nodes = .ok out ∧ Sequence.evaluate out = .ok v :=
  Except.bind_eq_ok

theorem Sequence.worth_negated_iff {nodes : List Node} {v : Rat} :
    Sequence.worth (Sequence.negated nodes) = .ok (-v) ↔
      ∃ out, Sequence.cleaned (Sequence.fused nodes) = .ok out ∧
        Sequence.evaluate (Sequence.zerosTurned out) = .ok v := by
  rw [Sequence.worth_eq_ok, Sequence.cleaned_negated]
  simp only [← Sequence.evaluate_negated]
  cases Sequence.cleaned (Sequence.fused nodes) <;> simp [Except.map]

/-- A sequence whose value is `v` is worth `-v` when it is negated, if and only if its value remains
the same when every negative parenthesis directly behind a term becomes a factor and every zero with
an exponent that begins a summand gets a minus sign.  So it does where there are neither; the former
are never there in a clean sequence. -/
theorem Sequence.worth_negated {nodes out : List Node} {v : Rat}
    (hout : Sequence.cleaned nodes = .ok out) (hv : Sequence.evaluate out = .ok v) :
    (Sequence.worth (Sequence.negated nodes) = .ok (-v) ↔
      ∃ out', Sequence.cleaned (Sequence.fused nodes) = .ok out' ∧
        Sequence.evaluate (Sequence.zerosTurned out') = .ok v) ∧
    (Sequence.fused nodes = nodes → Sequence.zerosTurned out = out →
      Sequence.worth (Sequence.negated nodes) = .ok (-v)) ∧
    (Sequence.IsCleanProblem nodes → Sequence.fused nodes = nodes) := by
  refine ⟨Sequence.worth_negated_iff, fun hfused hzeros => ?_, Sequence.IsCleanProblem.fused_eq⟩
  exact Sequence.worth_negated_iff.2 ⟨out, hfused.symm ▸ hout, hzeros.symm ▸ hv⟩

/-- `2 - 3(4 - 6)` is worth `8`, and its negation `-8`. -/
theorem Sequence.worth_negated_product :
    ∃ nodes, parse "2 - 3(4 - 6)".toList = .ok nodes ∧ Sequence.worth nodes = .ok 8 ∧
      Sequence.worth (Sequence.negated nodes) = .ok (-8) := by
  have hcleaned : Sequence.cleaned [.group none (Number.ofNat 2) [],
      .group none (Number.ofNat 3).negated [], .paren [.group none (Number.ofNat 4) [],
        .group none (Number.ofNat 6).negated []] [] false] =
      .ok [.group none (Number.ofNat 2) [], .operator .add, .group none (Number.ofNat 3).negated [],
        .operator .multiply, .paren [.group none (Number.ofNat 4) [], .operator .add,
          .group none (Number.ofNat 6).negated []] [] false] := by decide +kernel
  have hvalue : Sequence.evaluate [.group none (Number.ofNat 2) [], .operator .add,
      .group none (Number.ofNat 3).negated [], .operator .multiply,
      .paren [.group none (Number.ofNat 4) [], .operator .add,
        .group none (Number.ofNat 6).negated []] [] false] = .ok 8 := by decide +kernel
  exact ⟨_, by decide +kernel, Sequence.worth_eq_ok.2 ⟨_, hcleaned, hvalue⟩,
    (Sequence.worth_negated hcleaned hvalue).2.1 (by decide +kernel) (by decide +kernel)⟩

/-- Negating `2 - (3)` makes a product of it: it is worth `-1`, and its negation `-6`. -/
theorem Sequence.worth_negated_parenthesis :
    ∃ nodes, parse "2 - (3)".toList = .ok nodes ∧ Sequence.worth nodes = .ok (-1) ∧
      Sequence.worth (Sequence.negated nodes) = .ok (-6) :=
  ⟨[.group none (Number.ofNat 2) [], .paren [.group none (Number.ofNat 3) []] [] true],
    by decide +kernel, by decide +kernel, by decide +kernel⟩

/-- So does a zero with an exponent: `0 ^ 0` is worth one, with either sign. -/
example : Sequence.worth (Sequence.negated [.group none Number.zero [Node.constant 0]]) = .ok 1 := by
  decide +kernel

end OneUnknown
