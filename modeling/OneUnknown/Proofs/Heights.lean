import OneUnknown.Proofs.CleanForm
import OneUnknown.Solver
/-!
# Heights

The height of a sequence is that of its highest summand: the number of its divisions and the height
of its tallest node.

* `Sequence.heightFrom_mono`, `Sequence.heightFrom_append_low`: nodes that are read;
* `Sequence.height_le_in_context`: what is lower wherever it begins is lower in any context;
* `Sequence.height_add`, `Sequence.height_join_le`, `Sequence.height_le_of_mem_summands`: sums;
* `Node.height_negated`, `Sequence.heightFrom_negatedAfter`: the other sign;
* `Sequence.height_cleaned_le`: cleaning.
-/

namespace OneUnknown

namespace Sequence

variable {divisions divisions' tallest tallest' bound : Nat} {nodes post out : List Node}
  {node : Node}

/-! ## Reading on -/

theorem heightFrom_nil (divisions tallest : Nat) : heightFrom divisions tallest [] =
    divisions + tallest := by rw [heightFrom]

theorem heightFrom_divide (divisions tallest : Nat) (rest : List Node) :
    heightFrom divisions tallest (.operator .divide :: rest) =
      heightFrom (divisions + 1) tallest rest := by rw [heightFrom]

theorem heightFrom_multiply (divisions tallest : Nat) (rest : List Node) :
    heightFrom divisions tallest (.operator .multiply :: rest) =
      heightFrom divisions tallest rest := by rw [heightFrom]

theorem heightFrom_add (divisions tallest : Nat) (rest : List Node) :
    heightFrom divisions tallest (.operator .add :: rest) =
      max (divisions + tallest) (heightFrom 0 0 rest) := by rw [heightFrom] <;> simp

theorem heightFrom_subtract (divisions tallest : Nat) (rest : List Node) :
    heightFrom divisions tallest (.operator .subtract :: rest) =
      max (divisions + tallest) (heightFrom 0 0 rest) := by rw [heightFrom] <;> simp

theorem heightFrom_relation (divisions tallest : Nat) (r : Relation) (rest : List Node) :
    heightFrom divisions tallest (.relation r :: rest) =
      max (divisions + tallest) (heightFrom 0 0 rest) := by rw [heightFrom]

theorem heightFrom_term (divisions tallest : Nat) (hterm : node.isTerm = true) (rest : List Node) :
    heightFrom divisions tallest (node :: rest) =
      heightFrom divisions (max tallest node.height) rest := by
  cases node with
  | operator | relation => cases hterm
  | _ => rw [heightFrom] <;> simp

/-- What a node does to the height of what follows: a division counts, a sum or a relation begins
anew, and everything else may be the tallest node. -/
theorem heightFrom_cons_cases (node : Node) :
    node = .operator .divide ∨
    (node ≠ .operator .divide ∧ node.height = 0 ∧ ∀ divisions tallest rest,
      heightFrom divisions tallest (node :: rest) =
        max (divisions + tallest) (heightFrom 0 0 rest)) ∨
    (node ≠ .operator .divide ∧ ∀ divisions tallest rest,
      heightFrom divisions tallest (node :: rest) =
        heightFrom divisions (max tallest node.height) rest) := by
  cases node with
  | operator op =>
    cases op with
    | divide => exact .inl rfl
    | multiply =>
      refine .inr (.inr ⟨by simp, fun d t rest => ?_⟩)
      rw [heightFrom_multiply, Node.height, Nat.max_zero]
    | add => exact .inr (.inl ⟨by simp, by rw [Node.height], heightFrom_add⟩)
    | subtract => exact .inr (.inl ⟨by simp, by rw [Node.height], heightFrom_subtract⟩)
  | relation r =>
    exact .inr (.inl ⟨by simp, by rw [Node.height], fun d t => heightFrom_relation d t r⟩)
  | _ => exact .inr (.inr ⟨by simp, fun d t => heightFrom_term d t rfl⟩)

theorem heightFrom_mono (hdivisions : divisions ≤ divisions') (htallest : tallest ≤ tallest') :
    heightFrom divisions tallest nodes ≤ heightFrom divisions' tallest' nodes := by
  induction nodes generalizing divisions divisions' tallest tallest' with
  | nil =>
    rw [heightFrom_nil, heightFrom_nil]
    omega
  | cons node rest ih =>
    rcases heightFrom_cons_cases node with rfl | ⟨-, -, heq⟩ | ⟨-, heq⟩
    · rw [heightFrom_divide, heightFrom_divide]
      exact ih (by omega) htallest
    · rw [heq, heq]
      omega
    · rw [heq, heq]
      exact ih hdivisions (by omega)

theorem add_le_heightFrom (divisions tallest : Nat) (nodes : List Node) :
    divisions + tallest ≤ heightFrom divisions tallest nodes := by
  induction nodes generalizing divisions tallest with
  | nil => rw [heightFrom_nil]
  | cons node rest ih =>
    rcases heightFrom_cons_cases node with rfl | ⟨-, -, heq⟩ | ⟨-, heq⟩
    · have := ih (divisions + 1) tallest
      rw [heightFrom_divide]
      omega
    · rw [heq]
      omega
    · have := ih divisions (max tallest node.height)
      rw [heq]
      omega

/-- A division counts as much as one more level of the tallest node. -/
theorem heightFrom_succ_tallest (divisions tallest : Nat) (nodes : List Node) :
    heightFrom divisions (tallest + 1) nodes ≤ heightFrom (divisions + 1) tallest nodes := by
  induction nodes generalizing divisions tallest with
  | nil =>
    rw [heightFrom_nil, heightFrom_nil]
    omega
  | cons node rest ih =>
    rcases heightFrom_cons_cases node with rfl | ⟨-, -, heq⟩ | ⟨-, heq⟩
    · rw [heightFrom_divide, heightFrom_divide]
      exact ih _ _
    · rw [heq, heq]
      omega
    · rw [heq, heq]
      exact (heightFrom_mono (Nat.le_refl _) (by omega)).trans (ih divisions _)

/-- Nodes that are no higher than `bound` and do not divide. -/
def AreLow (bound : Nat) (nodes : List Node) : Prop :=
  ∀ node ∈ nodes, node ≠ .operator .divide ∧ node.height ≤ bound

theorem heightFrom_append_low (h : AreLow bound out) :
    heightFrom divisions tallest (out ++ post) ≤ heightFrom divisions (max tallest bound) post := by
  induction out generalizing divisions tallest with
  | nil => exact heightFrom_mono (Nat.le_refl _) (Nat.le_max_left _ _)
  | cons node rest ih =>
    obtain ⟨⟨hdivide, hnode⟩, hrest⟩ := List.forall_mem_cons.1 h
    rw [List.cons_append]
    rcases heightFrom_cons_cases node with rfl | ⟨-, -, heq⟩ | ⟨-, heq⟩
    · exact absurd rfl hdivide
    · have hhere := add_le_heightFrom divisions (max tallest bound) post
      have hnext : heightFrom 0 0 (rest ++ post) ≤ heightFrom divisions (max tallest bound) post :=
        (ih hrest).trans (heightFrom_mono (Nat.zero_le _) (by omega))
      rw [heq]
      omega
    · rw [heq]
      exact (ih hrest).trans (heightFrom_mono (Nat.le_refl _) (by omega))

/-- Every node of a sequence is at most as high as the sequence. -/
theorem height_le_of_mem (h : node ∈ nodes) (divisions tallest : Nat) :
    node.height ≤ heightFrom divisions tallest nodes := by
  induction nodes generalizing divisions tallest with
  | nil => cases h
  | cons first rest ih =>
    rcases heightFrom_cons_cases first with rfl | ⟨-, hzero, heq⟩ | ⟨-, heq⟩
    · rw [heightFrom_divide]
      rcases List.mem_cons.1 h with rfl | h
      · rw [Node.height]
        omega
      · exact ih h _ _
    · rw [heq]
      rcases List.mem_cons.1 h with rfl | h
      · omega
      · exact (ih h 0 0).trans (Nat.le_max_right _ _)
    · rw [heq]
      rcases List.mem_cons.1 h with rfl | h
      · have := add_le_heightFrom divisions (max tallest node.height) rest
        omega
      · exact ih h _ _

@[simp] theorem height_singleton (hterm : node.isTerm = true) : height [node] = node.height := by
  rw [height, heightFrom_term _ _ hterm, heightFrom_nil]
  omega

/-- What is lower wherever it begins is lower in any context. -/
theorem height_le_in_context
    (h : ∀ divisions tallest post, heightFrom divisions tallest (out ++ post) ≤
      heightFrom divisions tallest (nodes ++ post)) (pre post : List Node) :
    height (pre ++ (out ++ post)) ≤ height (pre ++ (nodes ++ post)) := by
  suffices hpre : ∀ divisions tallest, heightFrom divisions tallest (pre ++ (out ++ post)) ≤
      heightFrom divisions tallest (pre ++ (nodes ++ post)) from hpre 0 0
  induction pre with
  | nil => exact fun divisions tallest => h divisions tallest post
  | cons node rest ih =>
    intro divisions tallest
    rw [List.cons_append, List.cons_append]
    rcases heightFrom_cons_cases node with rfl | ⟨-, -, heq⟩ | ⟨-, heq⟩
    · rw [heightFrom_divide, heightFrom_divide]
      exact ih _ _
    · rw [heq, heq]
      exact max_le_max_left _ (ih 0 0)
    · rw [heq, heq]
      exact ih _ _

/-! ## Sums -/

/-- Behind a node that begins anew, what was before it no longer counts. -/
theorem heightFrom_append_separator (hnode : ∀ divisions tallest rest,
      heightFrom divisions tallest (node :: rest) = max (divisions + tallest) (heightFrom 0 0 rest))
    (divisions tallest : Nat) (left right : List Node) :
    heightFrom divisions tallest (left ++ node :: right) =
      max (heightFrom divisions tallest left) (height right) := by
  induction left generalizing divisions tallest with
  | nil => rw [List.nil_append, hnode, heightFrom_nil, height]
  | cons first rest ih =>
    rw [List.cons_append]
    rcases heightFrom_cons_cases first with rfl | ⟨-, -, heq⟩ | ⟨-, heq⟩
    · rw [heightFrom_divide, heightFrom_divide, ih]
    · rw [heq, heq, ih, max_assoc]
    · rw [heq, heq, ih]

theorem height_add (left right : List Node) :
    height (left ++ .operator .add :: right) = max (height left) (height right) :=
  heightFrom_append_separator heightFrom_add 0 0 left right

theorem height_relation (left : List Node) (r : Relation) (right : List Node) :
    height (left ++ .relation r :: right) = max (height left) (height right) :=
  heightFrom_append_separator (heightFrom_relation · · r) 0 0 left right

theorem height_constant (value : Rat) : height [Node.constant value] = 0 := rfl

theorem height_join_le {parts : List (List Node)} (h : ∀ part ∈ parts, height part ≤ bound) :
    height (join parts) ≤ bound :=
  join_induction (motive := fun nodes => height nodes ≤ bound) (Nat.zero_le _)
    (fun left right hleft hright => height_add left right ▸ max_le hleft hright) h

theorem height_le_of_mem_summands {side part : List Node} (h : part ∈ summands side) :
    height part ≤ height side :=
  forall_mem_summands (motive := fun nodes => height nodes ≤ height side)
    (fun left right hsum => max_le_iff.1 (height_add left right ▸ hsum)) (Nat.le_refl _) part h

end Sequence

/-! ## The other sign -/

theorem Sequence.heightFrom_negatedAfter {nodes : List Node}
    (hnodes : ∀ node ∈ nodes, node.negated.height = node.height) (previous : Option Node)
    (divisions tallest : Nat) : Sequence.heightFrom divisions tallest
      (Sequence.negatedAfter previous nodes) = Sequence.heightFrom divisions tallest nodes := by
  induction nodes generalizing previous divisions tallest with
  | nil => rfl
  | cons node rest ih =>
    have hrest := ih (fun n hn => hnodes n (.tail _ hn)) (some node)
    rw [Sequence.negatedAfter]
    by_cases hterm : node.isTerm = true
    · have hsigned : (if node.startsSummand previous then node.negated else node).isTerm = true ∧
          (if node.startsSummand previous then node.negated else node).height = node.height := by
        split
        · exact ⟨(Node.isTerm_negated node).trans hterm, hnodes node (.head _)⟩
        · exact ⟨hterm, rfl⟩
      rw [Sequence.heightFrom_term _ _ hsigned.1, Sequence.heightFrom_term _ _ hterm, hsigned.2,
        hrest]
    · have hsame : node.startsSummand previous = false := by
        cases node <;> first | rfl | exact absurd rfl hterm
      rw [hsame, if_neg Bool.false_ne_true]
      rcases Sequence.heightFrom_cons_cases node with rfl | ⟨-, -, heq⟩ | ⟨-, heq⟩
      · rw [Sequence.heightFrom_divide, Sequence.heightFrom_divide, hrest]
      · rw [heq, heq, hrest]
      · rw [heq, heq, hrest]

@[simp] theorem Node.height_negated (node : Node) : node.negated.height = node.height := by
  induction node using Node.nested_induction with
  | fraction t b iht =>
    rw [Node.negated, Node.height, Node.height, Sequence.heightFrom_negatedAfter iht]
  | _ => rw [Node.negated] <;> simp only [Node.height]

theorem Sequence.height_negated (nodes : List Node) :
    Sequence.height (Sequence.negated nodes) = Sequence.height nodes :=
  Sequence.heightFrom_negatedAfter (fun _ _ => Node.height_negated _) none 0 0

/-! ## Cleaning -/

/-- The operator that is put in before a term begins a new summand, or is a `*` that changes
nothing. -/
theorem Sequence.heightFrom_placeTerm_le {term : Node} {out rest : List Node} {height : Nat}
    (hterm : term.isTerm = true) (hheight : term.height ≤ height)
    (hrest : ∀ divisions tallest,
      Sequence.heightFrom divisions tallest out ≤ Sequence.heightFrom divisions tallest rest)
    (afterTerm : Bool) (divisions tallest : Nat) :
    Sequence.heightFrom divisions tallest (placeTerm afterTerm term out) ≤
      Sequence.heightFrom divisions (max tallest height) rest := by
  have hplaced {divisions' tallest' : Nat} (hdivisions : divisions' ≤ divisions)
      (htallest : tallest' ≤ tallest) : Sequence.heightFrom divisions' tallest' (term :: out) ≤
        Sequence.heightFrom divisions (max tallest height) rest := by
    rw [Sequence.heightFrom_term _ _ hterm]
    exact (Sequence.heightFrom_mono hdivisions (max_le_max htallest hheight)).trans (hrest _ _)
  rw [placeTerm]
  split
  · have hbefore := Sequence.add_le_heightFrom divisions (max tallest height) rest
    unfold Node.impliedOperator
    split
    · rw [Sequence.heightFrom_multiply]
      exact hplaced (Nat.le_refl _) (Nat.le_refl _)
    · rw [Sequence.heightFrom_add]
      exact max_le (by omega) (hplaced (Nat.zero_le _) (Nat.zero_le _))
  · exact hplaced (Nat.le_refl _) (Nat.le_refl _)

theorem OperatorsWritten.heightFrom_le {nested afterTerm negate : Bool} {nodes out : List Node}
    (h : OperatorsWritten nested afterTerm negate nodes out)
    (hnodes : ∀ node ∈ nodes, node.isTerm = true → ∀ term, node.cleaned = .ok term →
      term.isTerm = true ∧ term.height ≤ node.height) (divisions tallest : Nat) :
    Sequence.heightFrom divisions tallest out ≤ Sequence.heightFrom divisions tallest nodes := by
  induction h generalizing divisions tallest with
  | nil => exact Nat.le_refl _
  | relation _ _ ih =>
    rw [Sequence.heightFrom_relation, Sequence.heightFrom_relation]
    exact max_le_max_left _ (ih (fun n hn => hnodes n (.tail _ hn)) 0 0)
  | subtract _ ih =>
    rw [Sequence.heightFrom_add, Sequence.heightFrom_subtract]
    exact max_le_max_left _ (ih (fun n hn => hnodes n (.tail _ hn)) 0 0)
  | @operator _ _ op _ _ _ _ ih =>
    have hrest := ih fun n hn => hnodes n (.tail _ hn)
    rcases Sequence.heightFrom_cons_cases (.operator op) with heq | ⟨-, -, heq⟩ | ⟨-, heq⟩
    · obtain rfl := Node.operator.inj heq
      rw [Sequence.heightFrom_divide, Sequence.heightFrom_divide]
      exact hrest _ _
    · rw [heq, heq]
      exact max_le_max_left _ (hrest 0 0)
    · rw [heq, heq]
      exact hrest _ _
  | @term afterTerm negate node term rest out hterm hclean _ ih =>
    have hrest := ih fun n hn => hnodes n (.tail _ hn)
    obtain ⟨hisTerm, hheight⟩ := hnodes node (.head _) hterm term hclean
    obtain ⟨hsignedTerm, hsigned⟩ :
        (if negate then term.negated else term).isTerm = true ∧
          (if negate then term.negated else term).height ≤ node.height := by
      split
      · exact ⟨(Node.isTerm_negated term).trans hisTerm,
          (Node.height_negated term).le.trans hheight⟩
      · exact ⟨hisTerm, hheight⟩
    rw [Sequence.heightFrom_term _ _ hterm]
    exact Sequence.heightFrom_placeTerm_le hsignedTerm hsigned hrest afterTerm divisions tallest

/-- Cleaning makes no term higher. -/
theorem Node.height_cleaned_le {node node' : Node} (hterm : node.isTerm = true)
    (h : node.cleaned = .ok node') : node'.isTerm = true ∧ node'.height ≤ node.height := by
  have hside {nodes out : List Node}
      (ih : ∀ node ∈ nodes, ∀ {node' : Node}, node.isTerm = true → node.cleaned = .ok node' →
        node'.isTerm = true ∧ node'.height ≤ node.height)
      (h : Sequence.cleanedFrom true false false nodes = .ok out) :
      Sequence.heightFrom 0 0 out ≤ Sequence.heightFrom 0 0 nodes :=
    (OperatorsWritten.of_cleanedFrom h).heightFrom_le
      (fun n hn hterm _ hclean => ih n hn hterm hclean) 0 0
  induction node using Node.nested_induction generalizing node' with
  | group letter n p =>
    obtain ⟨power, -, rfl⟩ := Node.cleaned_group_eq_ok.1 h
    exact ⟨rfl, Nat.le_refl _⟩
  | paren b p negative ihb =>
    obtain ⟨body, power, hbody, -, rfl⟩ := Node.cleaned_paren_eq_ok.1 h
    rw [Node.height, Node.height]
    exact ⟨rfl, Nat.succ_le_succ (hside ihb hbody)⟩
  | fraction t b iht ihb =>
    obtain ⟨top, bottom, htop, hbottom, -, rfl⟩ := Node.cleaned_fraction_eq_ok.1 h
    rw [Node.height, Node.height]
    exact ⟨rfl, Nat.succ_le_succ (max_le_max (hside iht htop) (hside ihb hbottom))⟩
  | operator | relation => cases hterm

/-- Cleaning makes no sequence higher. -/
theorem Sequence.height_cleaned_le {nodes out : List Node}
    (h : Sequence.cleaned nodes = .ok out) : Sequence.height out ≤ Sequence.height nodes :=
  (OperatorsWritten.of_cleanedFrom h).heightFrom_le
    (fun _ _ hterm _ => Node.height_cleaned_le hterm) 0 0

end OneUnknown
