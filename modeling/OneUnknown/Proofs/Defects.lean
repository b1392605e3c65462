import OneUnknown.Proofs.Strictness
/-!
# The defects of a problem that is solved

A misplaced operator is noticed wherever a side is evaluated, and a divisor that is zero wherever a
fraction is cleared.  What goes unnoticed while an equation is rewritten is a summand that is missing,
and whatever stands where a short cut is taken.

* `Node.pruned`, `Sequence.pruned`: a sequence without missing summands;
* `Node.dividesByZero`, `Sequence.dividesByZero`: divisors without the unknown that are worth zero;
* `FractionsWritten.fills`: what is fit once divisions are fractions had nothing missing before;
* `Sequence.isWellFormed_pruned`: a side in which nothing is missing is well formed once it is pruned;
* `solve_isWellFormed`, `solve_dividesByZero`: what is solved has neither defect, apart from that.
-/

namespace OneUnknown

/-! ## Missing summands -/

mutual
/-- A node without missing summands, exponents apart. -/
def Node.pruned : Node → Node
  | .paren b p negative =>
    .paren (Sequence.join (Sequence.summands (Sequence.prunedNodes b))) p negative
  | .fraction t b =>
    .fraction (Sequence.join (Sequence.summands (Sequence.prunedNodes t)))
      (Sequence.join (Sequence.summands (Sequence.prunedNodes b)))
  | .group v n p => .group v n p
  | .operator op => .operator op
  | .relation r => .relation r

/-- The nodes of a sequence, each without missing summands. -/
def Sequence.prunedNodes : List Node → List Node
  | [] => []
  | n :: ns => n.pruned :: Sequence.prunedNodes ns
end

/-- A side without missing summands.  If all of them are missing, it is zero. -/
def Sequence.pruned (side : List Node) : List Node :=
  Sequence.join (Sequence.summands (Sequence.prunedNodes side))

theorem Sequence.prunedNodes_eq_map (nodes : List Node) :
    Sequence.prunedNodes nodes = nodes.map Node.pruned := by
  induction nodes with
  | nil => rfl
  | cons node rest ih => rw [Sequence.prunedNodes, ih, List.map_cons]

theorem Node.isTerm_pruned (node : Node) : node.pruned.isTerm = node.isTerm := by
  cases node <;> rfl

/-! ## Zero divisors -/

/-- Whether a sequence without variables is worth zero. -/
def Sequence.evaluatesToZero (nodes : List Node) : Bool :=
  match Sequence.evaluate nodes with
  | .ok value => value = 0
  | .error _ => false

mutual
/-- Whether something in a node is divided by what is worth zero, exponents apart. -/
def Node.dividesByZero : Node → Bool
  | .paren b _ _ => Sequence.dividesByZeroAfter false b
  | .fraction t b =>
    Sequence.dividesByZeroAfter false t || Sequence.dividesByZeroAfter false b ||
      Sequence.evaluatesToZero b
  | .group .. | .operator _ | .relation _ => false

/-- Whether something in a sequence is divided by what is worth zero; after a division, its first
node is a divisor. -/
def Sequence.dividesByZeroAfter (division : Bool) : List Node → Bool
  | [] => false
  | n :: ns =>
    n.dividesByZero || (division && Sequence.evaluatesToZero [n]) ||
      Sequence.dividesByZeroAfter (n.isOperator .divide) ns
end

/-- Whether something in a sequence is divided by what is worth zero, at any depth outside of
exponents. -/
def Sequence.dividesByZero (nodes : List Node) : Bool := Sequence.dividesByZeroAfter false nodes

theorem Sequence.evaluatesToZero_iff {nodes : List Node} :
    Sequence.evaluatesToZero nodes = true ↔ Sequence.evaluate nodes = .ok 0 := by
  unfold evaluatesToZero
  split
  · rename_i value hvalue
    simp [hvalue]
  · rename_i reason hreason
    simp [hreason]

/-- Operators and relations are no divisors. -/
theorem Sequence.dividesByZeroAfter_append {mark : Node} (hmark : mark.isTerm = false)
    (division : Bool) (left right : List Node) :
    Sequence.dividesByZeroAfter division (left ++ mark :: right) =
      (Sequence.dividesByZeroAfter division left ||
        Sequence.dividesByZeroAfter (mark.isOperator .divide) right) := by
  induction left generalizing division with
  | nil =>
    have hzero : Sequence.evaluatesToZero [mark] = false := by
      rw [Bool.eq_false_iff, ne_eq, Sequence.evaluatesToZero_iff]
      intro h
      have hvalue := Sequence.valueAt_of_evaluate (everywhere 0) h
      cases mark with
      | operator | relation => simp [Sequence.valueAt, Node.valueAt] at hvalue
      | _ => cases hmark
    have hnode : mark.dividesByZero = false := by
      cases mark <;> first | rfl | cases hmark
    simp [Sequence.dividesByZeroAfter, hzero, hnode]
  | cons node rest ih =>
    simp only [List.cons_append, Sequence.dividesByZeroAfter, ih, Bool.or_assoc]

/-! ## Behind the fractions -/

/-- A node that is well formed without missing summands, in which nothing is divided by zero. -/
def Node.IsSolvable (node : Node) : Prop :=
  node.pruned.isWellFormed = true ∧ node.dividesByZero = false

theorem Node.isTerm_of_withFractions {node node' : Node} (h : node.withFractions = .ok node')
    (hterm : node.isTerm = true) : node'.isTerm = true := by
  cases node with
  | paren b p negative =>
    obtain ⟨body, -, rfl⟩ := Node.eq_paren_of_withFractions h
    rfl
  | operator | relation => cases hterm
  | group | fraction => exact Except.ok.inj h ▸ rfl

/-- A divisor that is not zero once its own divisions are fractions is not zero. -/
theorem Node.evaluatesToZero_eq_false {node node' : Node} (h : node.withFractions = .ok node')
    (hnonzero : Sequence.hasVariable [node'] = false →
      Sequence.valueAt (everywhere 0) [node'] ≠ some 0) : Sequence.evaluatesToZero [node] = false := by
  rw [Bool.eq_false_iff, ne_eq, Sequence.evaluatesToZero_iff]
  intro hvalue
  have hvariable := (Sequence.evaluate_eq_ok.1 hvalue).hasVariable_eq_false
    fun _ _ _ => Node.HasValue.hasVariable_eq_false
  refine hnonzero ?_ ?_
  · rwa [Sequence.hasVariable_singleton, Node.hasVariable, Node.mentions_withFractions h,
      ← Node.hasVariable, ← Sequence.hasVariable_singleton]
  · rw [Sequence.valueAt_eq, Sequence.read_cons, Node.next_withFractions _ h, ← Sequence.read_cons,
      ← Sequence.valueAt_eq]
    exact Sequence.valueAt_of_evaluate _ hvalue

/-- A node that fills a place once its own divisions are fractions fills it as it stands. -/
theorem Node.fills_of_withFractions {node node' : Node} {before after : Slot}
    (h : node.withFractions = .ok node') (hnode : node'.IsFit → node.IsSolvable)
    (hfills : Sequence.Fills Node.IsFit [node'] before after) :
    node.dividesByZero = false ∧ Sequence.Fills Node.IsSolvable [node] before after := by
  by_cases hterm : node.isTerm = true
  · obtain ⟨rfl, hfit⟩ := hfills.single_cases (Node.isTerm_of_withFractions h hterm)
    exact ⟨(hnode hfit).2, .single hterm (hnode hfit)⟩
  · cases node with
    | operator op =>
      cases h
      refine ⟨rfl, hfills.mono fun node hmem hfit => ?_⟩
      rw [List.mem_singleton.1 hmem] at hfit
      cases hfit
    | relation r =>
      cases h
      cases hfills with
      | term hterm => cases hterm
    | _ => exact absurd rfl hterm

/-- Where nothing is missing once the divisions are fractions, nothing was missing before.  The
nodes behind `held` are solvable if they are fit as they stand in the fractions. -/
theorem FractionsWritten.fills {held : Option Node} {rest out : List Node}
    (h : FractionsWritten held rest out)
    (hrest : ∀ node ∈ rest, ∀ node', node.withFractions = .ok node' → node'.IsFit → node.IsSolvable)
    {before after : Slot} (hout : Sequence.Fills Node.IsFit out before after) :
    Sequence.dividesByZeroAfter false rest = false ∧
      ∃ between, Sequence.Fills Node.IsFit held.toList before between ∧
        Sequence.Fills Node.IsSolvable rest between after := by
  induction h generalizing before with
  | nil => exact ⟨rfl, after, hout, .nil _⟩
  | @divide top bottom bottom' rest out htop hterm hbottom _ _ ih =>
    obtain ⟨hzero, between, hfraction, hbehind⟩ := ih (fun n hn => hrest n (.tail _ (.tail _ hn))) hout
    obtain ⟨rfl, hfit⟩ := hfraction.single_cases rfl
    obtain ⟨⟨htopFills, -⟩, ⟨hbottomFills, -⟩, hnonzero⟩ := Node.isFit_fraction.1 hfit
    obtain ⟨-, htopFit⟩ := htopFills.single_cases htop
    obtain ⟨-, hbottomFit⟩ := hbottomFills.single_cases hterm
    have hsolvable := hrest bottom (.tail _ (.head _)) bottom' hbottom hbottomFit
    have hbottomTerm : bottom.isTerm = true := by
      cases bottom <;> first | rfl | (cases hbottom; cases hterm)
    refine ⟨?_, .taken, .single htop htopFit, .tight rfl (.term hbottomTerm hsolvable hbehind)⟩
    have hdivisor := Node.evaluatesToZero_eq_false hbottom hnonzero
    have hoperator : bottom.isOperator .divide = false := by
      cases bottom <;> first | rfl | cases hbottomTerm
    have hdivide : (Node.operator .divide).dividesByZero = false ∧
        (Node.operator .divide).isOperator .divide = true := ⟨rfl, rfl⟩
    simp [Sequence.dividesByZeroAfter, hdivide, hsolvable.2, hdivisor, hoperator, hzero]
  | @next held node node' rest out hdivide hnode _ ih =>
    obtain ⟨middle, hheld, hout⟩ := Sequence.Fills.append_iff.1 hout
    obtain ⟨hzero, between, hfirst, hbehind⟩ := ih (fun n hn => hrest n (.tail _ hn)) hout
    have hfirstNode := Node.fills_of_withFractions hnode (hrest node (.head _) node' hnode) hfirst
    have hoperator : node.isOperator .divide = false := by
      cases node with
      | operator op => simpa [Node.isOperator] using hdivide
      | _ => rfl
    refine ⟨?_, middle, hheld, hfirstNode.2.append hbehind⟩
    simp [Sequence.dividesByZeroAfter, hfirstNode.1, hoperator, hzero]

/-! ## Pruned sides -/

namespace Sequence

variable {nodes : List Node}

/-- The parts of a sum from which nothing is missing are well formed. -/
theorem Fills.isWellFormed {before after : Slot}
    (h : Fills (fun node => node.isWellFormed = true) nodes before after) (hafter : after ≠ .due)
    (hspaced : IsSpaced nodes) (hsum : ∀ node ∈ nodes, node.isOperator .add = false) :
    match before with
    | .empty => nodes = [] ∨ Sequence.isWellFormed nodes = true
    | .due => Sequence.isWellFormed nodes = true
    | .taken => (∀ node ∈ nodes.head?, node.isTerm = false) → alternates nodes = true := by
  induction h with
  | nil slot =>
    cases slot with
    | empty => exact .inl rfl
    | due => exact absurd rfl hafter
    | taken => exact fun _ => rfl
  | @term node rest before after hterm hfit _ ih =>
    obtain ⟨hhead, hrest⟩ := List.isChain_cons.1 hspaced
    have halternates := ih hafter hrest (fun n hn => hsum n (.tail _ hn))
      fun next hnext => hhead next hnext hterm
    have hwhole : Sequence.isWellFormed (node :: rest) = true := by
      rw [Sequence.isWellFormed, hfit, halternates]
      rfl
    cases before with
    | empty => exact .inr hwhole
    | due => exact hwhole
    | taken => exact fun hhead => absurd hterm (by simp [hhead node rfl])
  | @tight op rest after hop _ ih =>
    intro _
    have hrest := ih hafter (List.isChain_cons.1 hspaced).2 fun n hn => hsum n (.tail _ hn)
    cases rest with
    | nil => cases hrest
    | cons node rest => exact hrest
  | add => exact absurd (hsum _ (.head _)) (by simp [Node.isOperator])

/-- Well-formed summands make a well-formed side. -/
theorem isWellFormed_join {parts : List (List Node)}
    (h : ∀ part ∈ parts, part = [] ∨ Sequence.isWellFormed part = true) :
    Sequence.isWellFormed (join parts) = true := by
  have hkept : ∀ part ∈ parts.filter fun summand => !summand.isEmpty,
      Sequence.isWellFormed part = true := by
    intro part hpart
    obtain ⟨hmem, hne⟩ := List.mem_filter.1 hpart
    exact (h part hmem).resolve_left (by simpa using hne)
  simp only [join]
  split
  · rfl
  · rename_i hne
    generalize parts.filter (fun summand => !summand.isEmpty) = kept at hne hkept
    induction kept with
    | nil => exact absurd rfl hne
    | cons first rest ih =>
      by_cases hrest : rest = []
      · subst hrest
        simpa using hkept first (.head _)
      · rw [List.intercalate_cons_of_ne_nil hrest, List.append_assoc, List.singleton_append]
        exact isWellFormed_append .add (hkept first (.head _))
          (ih (by simpa using hrest) fun part hpart => hkept part (.tail _ hpart))

/-- The summands of a side from which nothing is missing are well formed. -/
theorem IsSum.isWellFormed_of_mem_summands {side : List Node}
    (h : IsSum (fun node => node.isWellFormed = true) side) (hspaced : IsSpaced side) :
    ∀ part ∈ summands side, part = [] ∨ Sequence.isWellFormed part = true := by
  have hpart {part : List Node} (h : IsSum (fun node => node.isWellFormed = true) part)
      (hspaced : IsSpaced part) (hsum : ∀ node ∈ part, node.isOperator .add = false) :
      part = [] ∨ Sequence.isWellFormed part = true := by
    obtain ⟨hfills, hafter⟩ := h
    exact hfills.isWellFormed hafter hspaced hsum
  intro part hmem
  replace hmem := (List.mem_filter.1 hmem).1
  induction side using splitOnP_induction (Node.isOperator .add) with
  | single whole hwhole =>
    rw [List.splitOnP_eq_singleton hwhole, List.mem_singleton] at hmem
    exact hmem ▸ hpart h hspaced hwhole
  | cons first separator rest hfirst hseparator ih =>
    obtain rfl : separator = .operator .add := by
      cases separator <;> simp_all [Node.isOperator]
    obtain ⟨hfirstSum, hrestSum⟩ := IsSum.append_add_iff.1 h
    rw [List.splitOnP_append_cons_of_forall_mem hfirst _ hseparator] at hmem
    rcases List.mem_cons.1 hmem with rfl | hmem
    · exact hpart hfirstSum hspaced.left_of_append hfirst
    · exact ih hrestSum hspaced.right_of_append.tail hmem

/-- A side from which nothing is missing but summands is well formed once it is pruned. -/
theorem isWellFormed_pruned {side : List Node} {after : Slot}
    (h : Fills Node.IsSolvable side .empty after) (hafter : after ≠ .due) (hspaced : IsSpaced side) :
    Sequence.isWellFormed (pruned side) = true := by
  have hfills {nodes : List Node} {before after : Slot} (h : Fills Node.IsSolvable nodes before after) :
      Fills (fun node => node.isWellFormed = true) (nodes.map Node.pruned) before after := by
    induction h with
    | nil => exact .nil _
    | @term node _ _ _ hterm hsolvable _ ih =>
      exact .term ((Node.isTerm_pruned node).trans hterm) hsolvable.1 ih
    | tight hop _ ih => exact .tight hop ih
    | add hbefore _ ih => exact .add hbefore ih
  rw [pruned, prunedNodes_eq_map]
  refine isWellFormed_join (IsSum.isWellFormed_of_mem_summands ⟨hfills h, hafter⟩ ?_)
  exact List.isChain_map _ |>.2 (hspaced.imp fun node next hnext => by
    rwa [Node.isTerm_pruned, Node.isTerm_pruned])

end Sequence

/-- A side with a fit equation behind it. -/
theorem FractionsWritten.isSolvable {side out : List Node} (h : FractionsWritten none side out)
    (hnodes : ∀ node ∈ side, ∀ node', node.withFractions = .ok node' → node'.IsFit → node.IsSolvable)
    (hspaced : Sequence.IsSpaced side) (hout : Sequence.IsSum Node.IsFit out) :
    Sequence.isWellFormed (Sequence.pruned side) = true ∧ Sequence.dividesByZero side = false := by
  obtain ⟨hfills, hafter⟩ := hout
  obtain ⟨hzero, between, hnone, hside⟩ := h.fills hnodes hfills
  cases hnone
  exact ⟨Sequence.isWellFormed_pruned hside hafter hspaced, hzero⟩

theorem IsFitPower.isWellFormed {p : List Node} (h : IsFitPower p) :
    (p.isEmpty || Sequence.isWellFormed p) = true := by
  rcases h with rfl | ⟨value, hvalue⟩
  · rfl
  · rw [(Sequence.evaluate_eq_ok.1 hvalue).isWellFormed fun _ _ _ => Node.HasValue.isWellFormed]
    exact Bool.or_true _

/-- A clean term that is fit once its divisions are fractions has neither defect. -/
theorem Node.isSolvable_of_isFit {node node' : Node} (hexplicit : node.IsExplicit)
    (hpowers : ∀ p ∈ node.variablePowers, IsFitPower p) (h : node.withFractions = .ok node')
    (hfit : node'.IsFit) : node.IsSolvable := by
  induction node using Node.nested_induction generalizing node' with
  | group letter n p =>
    cases h
    refine ⟨IsFitPower.isWellFormed ?_, rfl⟩
    cases letter with
    | none => exact Node.isFit_number.1 hfit
    | some name => exact hpowers p (by simp [Node.variablePowers])
  | paren b p negative ihb =>
    obtain ⟨body, hbody, rfl⟩ := Node.eq_paren_of_withFractions h
    obtain ⟨hsum, hp⟩ := Node.isFit_paren.1 hfit
    obtain ⟨hwellFormed, hzero⟩ := (FractionsWritten.of_withFractionsAfter hbody).isSolvable
      (fun node hnode _ => ihb node hnode (Sequence.isExplicit_iff.1 hexplicit.1 node hnode)
        fun power hpower => hpowers power (Sequence.mem_variablePowers.2 ⟨node, hnode, hpower⟩))
      hexplicit.2.1 hsum
    refine ⟨?_, hzero⟩
    rw [Node.pruned, Node.isWellFormed, hp.isWellFormed]
    exact (Bool.and_true _).trans hwellFormed
  | fraction | relation => exact hexplicit.elim
  | operator op =>
    cases h
    cases hfit

/-! ## Sides without variables -/

theorem Node.HasValue.evaluatesToZero {node : Node} {w : Rat} (h : node.HasValue w) (hne : w ≠ 0) :
    Sequence.evaluatesToZero [node] = false := by
  rw [Bool.eq_false_iff, ne_eq, Sequence.evaluatesToZero_iff,
    Sequence.evaluate_eq_ok.2 (.product (.term h))]
  simpa using hne

theorem SumHasValue.dividesByZero {nodes : List Node} {v : Rat}
    (hnodes : ∀ node ∈ nodes, ∀ w, node.HasValue w → node.dividesByZero = false)
    (h : SumHasValue Node.HasValue nodes v) : Sequence.dividesByZero nodes = false := by
  have hoperator (op : Operator) : (Node.operator op).isTerm = false := rfl
  have hproduct {nodes : List Node} {v : Rat}
      (hnodes : ∀ node ∈ nodes, ∀ w, node.HasValue w → node.dividesByZero = false)
      (h : ProductHasValue Node.HasValue nodes v) :
      Sequence.dividesByZeroAfter false nodes = false := by
    induction h with
    | term hterm => simp [Sequence.dividesByZeroAfter, hnodes _ (.head _) _ hterm]
    | multiply _ hterm ih =>
      rw [Sequence.dividesByZeroAfter_append (hoperator _),
        ih fun n hn => hnodes n (List.mem_append_left _ hn)]
      simp [Sequence.dividesByZeroAfter, Node.isOperator, hnodes _ (by simp) _ hterm]
    | @divide _ _ _ r _ _ hterm hv ih =>
      rw [Sequence.dividesByZeroAfter_append (hoperator _),
        ih fun n hn => hnodes n (List.mem_append_left _ hn)]
      have hne : r ≠ 0 := fun hzero => by simp [Rational.divide, hzero] at hv
      simp [Sequence.dividesByZeroAfter, hterm.evaluatesToZero hne, hnodes _ (by simp) _ hterm]
  induction h with
  | product h => exact hproduct hnodes h
  | add _ h ih | subtract _ h ih =>
    have hleft := ih fun n hn => hnodes n (List.mem_append_left _ hn)
    have hright := hproduct (fun n hn => hnodes n (List.mem_append_right _ (.tail _ hn))) h
    rw [Sequence.dividesByZero] at hleft ⊢
    rw [Sequence.dividesByZeroAfter_append (hoperator _), hleft]
    exact hright

theorem Node.HasValue.dividesByZero {node : Node} {w : Rat} (h : node.HasValue w) :
    node.dividesByZero = false := by
  induction node using Node.nested_induction generalizing w with
  | group letter n p => rfl
  | paren b p negative ihb =>
    cases h with
    | paren _ hb | parenPower _ _ hb => exact hb.dividesByZero fun n hn _ => ihb n hn
  | fraction t b iht ihb =>
    cases h with
    | fraction ht hb hv =>
      have hzero : Sequence.evaluatesToZero b = false := by
        rw [Bool.eq_false_iff, ne_eq, Sequence.evaluatesToZero_iff, Sequence.evaluate_eq_ok.2 hb]
        rintro ⟨⟩
        simp [Rational.divide] at hv
      have htop := ht.dividesByZero fun n hn _ => iht n hn
      have hbottom := hb.dividesByZero fun n hn _ => ihb n hn
      rw [Sequence.dividesByZero] at htop hbottom
      rw [Node.dividesByZero, htop, hbottom, hzero]
      rfl
  | operator op => rfl
  | relation r => rfl

/-- The sides of a chain of relations. -/
theorem Sequence.splitOnP_eq_chain (nodes : List Node) :
    nodes.splitOnP Node.isRelation =
      (Sequence.chain nodes).1 :: (Sequence.chain nodes).2.map Prod.snd := by
  induction nodes with
  | nil => rfl
  | cons node rest ih =>
    rw [List.splitOnP_cons_eq_if_modifyHead, ih]
    cases node <;> rfl

theorem exists_value_of_compareFrom {left : Rat} {others : List (Relation × List Node)} {holds : Bool}
    (h : compareFrom left others = .ok holds) :
    ∀ side ∈ others.map Prod.snd, ∃ value, Sequence.evaluate side = .ok value := by
  induction others generalizing left holds with
  | nil => simp
  | cons other rest ih =>
    obtain ⟨relation, side⟩ := other
    obtain ⟨right, hright, h⟩ := Except.bind_eq_ok.1 h
    obtain ⟨behind, hbehind, -⟩ := Except.bind_eq_ok.1 h
    exact List.forall_mem_cons.2 ⟨⟨right, hright⟩, ih hbehind⟩

/-- All sides of a comparison that is decided have values. -/
theorem Sequence.exists_value_of_compare {nodes : List Node} {holds : Bool}
    (h : Sequence.compare nodes = .ok holds) :
    ∀ side ∈ nodes.splitOnP Node.isRelation, ∃ value, Sequence.evaluate side = .ok value := by
  rw [Sequence.splitOnP_eq_chain]
  obtain ⟨left, hleft, h⟩ := Except.bind_eq_ok.1 h
  exact List.forall_mem_cons.2 ⟨⟨left, hleft⟩, exists_value_of_compareFrom h⟩

/-- A problem without variables is evaluated or compared at once. -/
theorem solveNodes_cases_of_hasVariable {options : Options} {nodes cleaned : List Node}
    {solution : Solution} (hcleaned : Sequence.cleaned nodes = .ok cleaned)
    (hvariable : Sequence.hasVariable cleaned = false)
    (hsolve : solveNodes options nodes = .ok solution) :
    (ProblemKind.of cleaned = .ok .arithmetic ∧
        ∃ value, Sequence.evaluate cleaned = .ok value ∧ solution = Solution.ofRat value) ∨
      (ProblemKind.of cleaned = .ok .comparison ∧
        ∃ holds, Sequence.compare cleaned = .ok holds ∧ solution = .truth holds) := by
  obtain ⟨levels, hrun, -⟩ := solveNodes_cases hcleaned hsolve
  cases hrounds : options.maxSteps with
  | zero =>
    rw [hrounds] at hrun
    cases hrun
  | succ rounds =>
    rw [hrounds] at hrun
    obtain ⟨kind, hkind, hrun⟩ := Traced.bind_eq_ok.1 hrun
    have hkind := Traced.ofExcept_eq_ok.1 hkind
    obtain ⟨-, rfl | rfl⟩ | ⟨x, hx, -⟩ := ProblemKind.of_eq_ok hkind
    · obtain ⟨value, hvalue, hrun⟩ := Traced.bind_eq_ok.1 hrun
      exact .inl ⟨hkind, value, Traced.ofExcept_eq_ok.1 hvalue, (Except.ok.inj hrun).symm⟩
    · obtain ⟨holds, hholds, hrun⟩ := Traced.bind_eq_ok.1 hrun
      exact .inr ⟨hkind, holds, Traced.ofExcept_eq_ok.1 hholds, (Except.ok.inj hrun).symm⟩
    · obtain ⟨hsome, -⟩ := Sequence.unknowns_eq_singleton.1 hx
      rw [hvariable] at hsome
      cases hsome

/-- All sides of a problem without variables that is solved have values. -/
theorem exists_value_of_solve {options : Options} {nodes cleaned : List Node} {solution : Solution}
    (hcleaned : Sequence.cleaned nodes = .ok cleaned) (hvariable : Sequence.hasVariable cleaned = false)
    (hsolve : solveNodes options nodes = .ok solution) :
    ∀ side ∈ cleaned.splitOnP Node.isRelation, ∃ value, Sequence.evaluate side = .ok value := by
  obtain ⟨-, value, hvalue, -⟩ | ⟨-, holds, hholds, -⟩ :=
    solveNodes_cases_of_hasVariable hcleaned hvariable hsolve
  · have hrelation := Sequence.isRelation_of_isWellFormed
      ((Sequence.evaluate_eq_ok.1 hvalue).isWellFormed fun _ _ _ => Node.HasValue.isWellFormed)
    rw [List.splitOnP_eq_singleton hrelation]
    exact List.forall_mem_singleton.2 ⟨value, hvalue⟩
  · exact Sequence.exists_value_of_compare hholds

/-! ## Sides of an equation -/

theorem isChain_of_mem_splitOnP {α : Type} {R : α → α → Prop} {p : α → Bool} {l part : List α}
    (h : l.IsChain R) (hpart : part ∈ l.splitOnP p) : part.IsChain R := by
  induction l using splitOnP_induction p with
  | single whole hwhole =>
    rw [List.splitOnP_eq_singleton hwhole, List.mem_singleton] at hpart
    exact hpart ▸ h
  | cons first separator rest hfirst hseparator ih =>
    rw [List.splitOnP_append_cons_of_forall_mem hfirst _ hseparator] at hpart
    rcases List.mem_cons.1 hpart with rfl | hpart
    · exact h.left_of_append
    · exact ih h.right_of_append.tail hpart

theorem FractionsWritten.isRelation {held : Option Node} {side out : List Node}
    (h : FractionsWritten held side out) (hheld : ∀ node ∈ held, node.isRelation = false)
    (hside : ∀ node ∈ side, node.isRelation = false) : ∀ node ∈ out, node.isRelation = false := by
  refine h.forall_mem (fun _ _ _ _ _ _ => rfl) hheld fun node hnode _ node' hnode' => ?_
  have hrelation := hside node hnode
  cases node with
  | paren b p negative =>
    obtain ⟨body, -, rfl⟩ := Node.eq_paren_of_withFractions hnode'
    rfl
  | relation r => cases hrelation
  | group | fraction | operator => exact Except.ok.inj hnode' ▸ rfl

/-- The sides of an equation that is fit once its divisions are fractions. -/
theorem FractionsWritten.sides {nodes out : List Node} (h : FractionsWritten none nodes out)
    (hout : ∀ side ∈ out.splitOnP Node.isRelation, Sequence.IsSum Node.IsFit side) :
    ∀ side ∈ nodes.splitOnP Node.isRelation, ∃ written, FractionsWritten none side written ∧
      Sequence.IsSum Node.IsFit written := by
  induction nodes using splitOnP_induction Node.isRelation generalizing out with
  | single part hpart =>
    rw [List.splitOnP_eq_singleton hpart]
    rw [List.splitOnP_eq_singleton (h.isRelation (by simp) hpart)] at hout
    exact List.forall_mem_singleton.2 ⟨out, h, hout out (.head _)⟩
  | cons part mark rest hpart hmark ih =>
    obtain ⟨r, rfl⟩ : ∃ r, mark = .relation r := by
      cases mark <;> first | exact ⟨_, rfl⟩ | cases hmark
    obtain ⟨left, right, hleft, hright, rfl⟩ := h.split rfl
    rw [List.splitOnP_append_cons_of_forall_mem hpart _ rfl]
    rw [List.splitOnP_append_cons_of_forall_mem (hleft.isRelation (by simp) hpart) _ rfl] at hout
    exact List.forall_mem_cons.2 ⟨⟨left, hleft, hout left (.head _)⟩,
      ih hright fun side hside => hout side (.tail _ hside)⟩

/-- A division is inside of one side. -/
theorem Sequence.dividesByZero_of_sides {nodes : List Node}
    (h : ∀ side ∈ nodes.splitOnP Node.isRelation, Sequence.dividesByZero side = false) :
    Sequence.dividesByZero nodes = false := by
  induction nodes using splitOnP_induction Node.isRelation with
  | single part hpart =>
    rw [List.splitOnP_eq_singleton hpart] at h
    exact h part (.head _)
  | cons part mark rest hpart hmark ih =>
    obtain ⟨r, rfl⟩ : ∃ r, mark = .relation r := by
      cases mark <;> first | exact ⟨_, rfl⟩ | cases hmark
    rw [List.splitOnP_append_cons_of_forall_mem hpart _ rfl] at h
    have hleft := h part (.head _)
    have hright := ih fun side hside => h side (.tail _ hside)
    rw [Sequence.dividesByZero] at hleft hright ⊢
    rw [Sequence.dividesByZeroAfter_append rfl, hleft]
    exact hright

/-- The sides of an equation that is solved have neither defect but missing summands, unless every
value solves it or a short cut is taken. -/
theorem isSolvable_of_solve {options : Options} {nodes cleaned : List Node} {solution : Solution}
    (hread : ∀ node ∈ nodes, node.IsRead false) (hcleaned : Sequence.cleaned nodes = .ok cleaned)
    (hvariable : Sequence.hasVariable cleaned = true)
    (hsolve : solveNodes options nodes = .ok solution) (hall : solution.isTrueForAll = false)
    (hskips : ∀ stage ∈ (solveTraced options nodes).1, stage.skipsParts = false) :
    ∀ side ∈ cleaned.splitOnP Node.isRelation,
      Sequence.isWellFormed (Sequence.pruned side) = true ∧ Sequence.dividesByZero side = false := by
  obtain ⟨hpowers, fits, -, s, hwritten, hs, hfit⟩ :=
    isFitEquation_of_solve hread hcleaned hvariable hsolve hall hskips
  have hsides : ∀ side ∈ s.toNodes.splitOnP Node.isRelation, Sequence.IsSum Node.IsFit side := by
    rw [Sides.toNodes, List.splitOnP_append_cons_of_forall_mem
      (Sequence.isRelation_of_isPrepared hs.1) _ rfl,
      List.splitOnP_eq_singleton (Sequence.isRelation_of_isPrepared hs.2)]
    exact List.forall_mem_cons.2 ⟨hfit.1, List.forall_mem_singleton.2 hfit.2⟩
  intro side hside
  obtain ⟨written, hsideWritten, hsum⟩ :=
    (FractionsWritten.of_withFractionsAfter hwritten).sides hsides side hside
  refine hsideWritten.isSolvable (fun node hnode node' hnode' hnodeFit => ?_)
    (isChain_of_mem_splitOnP (OperatorsWritten.of_cleanedFrom hcleaned).isSpaced.1 hside) hsum
  obtain ⟨hmem, hrelation⟩ := Sequence.mem_of_mem_splitOnP _ hside hnode
  exact Node.isSolvable_of_isFit (Sequence.isExplicit_of_cleaned hread hcleaned hmem hrelation)
    (fun p hp => hpowers p (Sequence.mem_variablePowers.2 ⟨node, hmem, hp⟩)) hnode' hnodeFit

/-! ## Well-formed problems -/

/-- Which misplaced operators of a text are noticed before it is solved.  Without variables all of
them are.  In an equation all of them are but those around a missing summand, unless every value
solves it or a short cut is taken. -/
theorem solve_isWellFormed {text : List Char} {nodes cleaned : List Node} {solution : Solution}
    (hparse : parse text = .ok nodes) (hcleaned : Sequence.cleaned nodes = .ok cleaned)
    (hsolve : solve text = .ok solution) :
    (Sequence.hasVariable cleaned = false →
      ∀ side ∈ cleaned.splitOnP Node.isRelation, Sequence.isWellFormed side = true) ∧
    (Sequence.hasVariable cleaned = true → solution.isTrueForAll = false →
      (∀ stage ∈ (solveTraced Options.standard nodes).1, stage.skipsParts = false) →
        ∀ side ∈ cleaned.splitOnP Node.isRelation,
          Sequence.isWellFormed (Sequence.pruned side) = true) := by
  obtain ⟨nodes', hparse', hsolve⟩ := solveNodes_of_solve hsolve
  obtain rfl : nodes' = nodes := Except.ok.inj (hparse'.symm.trans hparse)
  refine ⟨fun hvariable side hside => ?_, fun hvariable hall hskips side hside => ?_⟩
  · obtain ⟨value, hvalue⟩ := exists_value_of_solve hcleaned hvariable hsolve side hside
    exact (Sequence.evaluate_eq_ok.1 hvalue).isWellFormed fun _ _ _ => Node.HasValue.isWellFormed
  · exact (isSolvable_of_solve (isRead_of_parse hparse) hcleaned hvariable hsolve hall hskips
      side hside).1

/-- The missing summand of `x + + 1 = 3` is all that goes unnoticed in it. -/
theorem solve_isWellFormed_missing_summand :
    ∃ nodes cleaned, parse "x + + 1 = 3".toList = .ok nodes ∧ Sequence.cleaned nodes = .ok cleaned ∧
      ∀ side ∈ cleaned.splitOnP Node.isRelation,
        Sequence.isWellFormed (Sequence.pruned side) = true := by
  have hparse : parse "x + + 1 = 3".toList = .ok [.group (some 'x') (Number.ofNat 1) [],
      .operator .add, .operator .add, .group none (Number.ofNat 1) [], .relation .equal,
      .group none (Number.ofNat 3) []] := by decide +kernel
  have hcleaned : Sequence.cleaned [.group (some 'x') (Number.ofNat 1) [], .operator .add,
      .operator .add, .group none (Number.ofNat 1) [], .relation .equal,
      .group none (Number.ofNat 3) []] = .ok [.group (some 'x') (Number.ofNat 1) [],
      .operator .add, .operator .add, .group none (Number.ofNat 1) [], .relation .equal,
      .group none (Number.ofNat 3) []] := by decide +kernel
  have hsolve : solve "x + + 1 = 3".toList =
      .ok (.unknowns [('x', .single (.number (Number.ofNat 2)))]) := by decide +kernel
  exact ⟨_, _, hparse, hcleaned, (solve_isWellFormed hparse hcleaned hsolve).2
    (by decide +kernel) (by decide +kernel) (by decide +kernel)⟩

/-- `x + + 1 = 3` is solved, although its left side is not well formed. -/
theorem solve_missing_summand :
    ∃ nodes cleaned solution side, parse "x + + 1 = 3".toList = .ok nodes ∧
      Sequence.cleaned nodes = .ok cleaned ∧ solve "x + + 1 = 3".toList = .ok solution ∧
      side ∈ cleaned.splitOnP Node.isRelation ∧ Sequence.isWellFormed side = false :=
  ⟨[.group (some 'x') (Number.ofNat 1) [], .operator .add, .operator .add,
      .group none (Number.ofNat 1) [], .relation .equal, .group none (Number.ofNat 3) []],
    [.group (some 'x') (Number.ofNat 1) [], .operator .add, .operator .add,
      .group none (Number.ofNat 1) [], .relation .equal, .group none (Number.ofNat 3) []],
    .unknowns [('x', .single (.number (Number.ofNat 2)))],
    [.group (some 'x') (Number.ofNat 1) [], .operator .add, .operator .add,
      .group none (Number.ofNat 1) []],
    by decide +kernel, by decide +kernel, by decide +kernel, by decide +kernel, by decide +kernel⟩

/-! ## Zero divisors -/

/-- Where a divisor that is worth zero is noticed.  Without variables it always is, and in an
equation unless every value solves it or a short cut is taken. -/
theorem solve_dividesByZero {text : List Char} {nodes cleaned : List Node} {solution : Solution}
    (hparse : parse text = .ok nodes) (hcleaned : Sequence.cleaned nodes = .ok cleaned)
    (hsolve : solve text = .ok solution)
    (hnoticed : Sequence.hasVariable cleaned = true → solution.isTrueForAll = false ∧
      ∀ stage ∈ (solveTraced Options.standard nodes).1, stage.skipsParts = false) :
    Sequence.dividesByZero cleaned = false := by
  obtain ⟨nodes', hparse', hsolve⟩ := solveNodes_of_solve hsolve
  obtain rfl : nodes' = nodes := Except.ok.inj (hparse'.symm.trans hparse)
  refine Sequence.dividesByZero_of_sides fun side hside => ?_
  cases hvariable : Sequence.hasVariable cleaned with
  | false =>
    obtain ⟨value, hvalue⟩ := exists_value_of_solve hcleaned hvariable hsolve side hside
    exact (Sequence.evaluate_eq_ok.1 hvalue).dividesByZero fun _ _ _ => Node.HasValue.dividesByZero
  | true =>
    obtain ⟨hall, hskips⟩ := hnoticed hvariable
    exact (isSolvable_of_solve (isRead_of_parse hparse) hcleaned hvariable hsolve hall hskips
      side hside).2

/-- Both divisors in `x/2 + 1/(2 - 3) = 0` have been looked at. -/
theorem solve_dividesByZero_two_divisors :
    ∃ nodes cleaned, parse "x/2 + 1/(2 - 3) = 0".toList = .ok nodes ∧
      Sequence.cleaned nodes = .ok cleaned ∧ Sequence.dividesByZero cleaned = false := by
  have hparse : parse "x/2 + 1/(2 - 3) = 0".toList = .ok [.group (some 'x') (Number.ofNat 1) [],
      .operator .divide, .group none (Number.ofNat 2) [], .operator .add,
      .group none (Number.ofNat 1) [], .operator .divide, .paren [.group none (Number.ofNat 2) [],
        .group none (Number.ofNat 3).negated []] [] false, .relation .equal,
      .group none (Number.ofNat 0) []] := by decide +kernel
  have hcleaned : Sequence.cleaned [.group (some 'x') (Number.ofNat 1) [],
      .operator .divide, .group none (Number.ofNat 2) [], .operator .add,
      .group none (Number.ofNat 1) [], .operator .divide, .paren [.group none (Number.ofNat 2) [],
        .group none (Number.ofNat 3).negated []] [] false, .relation .equal,
      .group none (Number.ofNat 0) []] = .ok [.group (some 'x') (Number.ofNat 1) [],
      .operator .divide, .group none (Number.ofNat 2) [], .operator .add,
      .group none (Number.ofNat 1) [], .operator .divide, .paren [.group none (Number.ofNat 2) [],
        .operator .add, .group none (Number.ofNat 3).negated []] [] false, .relation .equal,
      .group none (Number.ofNat 0) []] := by decide +kernel
  have hsolve : solve "x/2 + 1/(2 - 3) = 0".toList =
      .ok (.unknowns [('x', .single (.number (Number.ofNat 2)))]) := by decide +kernel
  exact ⟨_, _, hparse, hcleaned, solve_dividesByZero hparse hcleaned hsolve
    fun _ => ⟨by decide +kernel, by decide +kernel⟩⟩

/-- Both sides of `(x + 1/(2 - 2)) = (x + 1/(2 - 2))` are the same, which settles it before any
divisor is looked at. -/
theorem solve_zero_divisor_same_sides :
    ∃ nodes cleaned solution, parse "(x + 1/(2 - 2)) = (x + 1/(2 - 2))".toList = .ok nodes ∧
      Sequence.cleaned nodes = .ok cleaned ∧ Sequence.dividesByZero cleaned = true ∧
      solve "(x + 1/(2 - 2)) = (x + 1/(2 - 2))".toList = .ok solution := by
  have hparse : parse "(x + 1/(2 - 2)) = (x + 1/(2 - 2))".toList = .ok
      [.paren [.group (some 'x') (Number.ofNat 1) [], .operator .add,
          .group none (Number.ofNat 1) [], .operator .divide, .paren [.group none (Number.ofNat 2) [],
            .group none (Number.ofNat 2).negated []] [] false] [] false, .relation .equal,
        .paren [.group (some 'x') (Number.ofNat 1) [], .operator .add,
          .group none (Number.ofNat 1) [], .operator .divide, .paren [.group none (Number.ofNat 2) [],
            .group none (Number.ofNat 2).negated []] [] false] [] false] := by decide +kernel
  refine ⟨_, [.paren [.group (some 'x') (Number.ofNat 1) [], .operator .add,
          .group none (Number.ofNat 1) [], .operator .divide, .paren [.group none (Number.ofNat 2) [],
            .operator .add, .group none (Number.ofNat 2).negated []] [] false] [] false,
        .relation .equal, .paren [.group (some 'x') (Number.ofNat 1) [], .operator .add,
          .group none (Number.ofNat 1) [], .operator .divide, .paren [.group none (Number.ofNat 2) [],
            .operator .add, .group none (Number.ofNat 2).negated []] [] false] [] false],
    .unknowns [('x', .single (.trueForAll 'x'))], hparse, ?_, ?_, ?_⟩ <;>
  decide +kernel

end OneUnknown
