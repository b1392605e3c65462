import OneUnknown.Proofs.Division
import OneUnknown.Proofs.Grammar
import OneUnknown.Text.Reader
/-!
# Evaluation before and after divisions become fractions

A chain such as `a / b / c` is worked out from left to right, and written as fractions it nests:
`a / b` is the numerator over `c`.  Evaluation takes either form to the same number, and refuses
either form of the same sequences.

* `WrittenTo`: what has been written of a sequence when its last term is held back;
* `Node.HasValue.withFractions`: a term with a value is written, and keeps the value;
* `Node.hasValue_of_withFractions`: a value of what was written comes from the term itself;
* `Sequence.IsUndivided`: a sequence without divisions;
* `Sequence.evaluate_withFractions`: both forms evaluate alike, and no division is left.
-/

namespace OneUnknown

/-! ## Writing from left to right -/

/-- The nodes are written as `before` and a last term, which is held back: it is the numerator if a
division follows. -/
def WrittenTo (nodes before : List Node) (held : Node) : Prop :=
  ∀ first rest out, Sequence.withFractionsAfter (some held) rest = .ok out →
    Sequence.withFractionsAfter first (nodes ++ rest) = .ok (first.toList ++ (before ++ out))

namespace WrittenTo

variable {nodes before : List Node} {held node node' : Node}

theorem single (hdivide : node ≠ .operator .divide) (hnode : node.withFractions = .ok node') :
    WrittenTo [node] [] node' := by
  intro first rest out hrest
  rw [List.cons_append, List.nil_append, Sequence.withFractionsAfter]
  · exact Except.bind_eq_ok.2 ⟨node', hnode, Except.bind_eq_ok.2 ⟨out, hrest, rfl⟩⟩
  · exact hdivide

theorem append {nodes' before' : List Node} {held' : Node} (h : WrittenTo nodes before held)
    (h' : WrittenTo nodes' before' held') :
    WrittenTo (nodes ++ nodes') (before ++ held :: before') held' := by
  intro first rest out hrest
  simpa using h first (nodes' ++ rest) _ (h' (some held) rest out hrest)

theorem join {op : Operator} {nodes' before' : List Node} {held' : Node} (hop : op ≠ .divide)
    (h : WrittenTo nodes before held) (h' : WrittenTo nodes' before' held') :
    WrittenTo (nodes ++ .operator op :: nodes') (before ++ held :: .operator op :: before') held' := by
  have hoperator : WrittenTo [.operator op] [] (.operator op) := .single (by simpa using hop) rfl
  exact h.append (hoperator.append h')

/-- A divisor takes what is held back as its numerator. -/
theorem divide {fraction : Node} (h : WrittenTo nodes before held) (hheld : held.isTerm = true)
    (hnode : node.withFractions = .ok node') (hnode' : node'.isTerm = true)
    (hover : held.over node' = .ok fraction) :
    WrittenTo (nodes ++ [.operator .divide, node]) before fraction := by
  intro first rest out hrest
  rw [List.append_assoc]
  refine h first _ out ?_
  rw [List.cons_append, List.cons_append, List.nil_append, Sequence.withFractionsAfter,
    if_pos hheld]
  refine Except.bind_eq_ok.2 ⟨node', hnode, ?_⟩
  rw [if_pos hnode']
  exact Except.bind_eq_ok.2 ⟨fraction, hover, hrest⟩

theorem withFractions_eq (h : WrittenTo nodes before held) :
    Sequence.withFractions nodes = .ok (before ++ [held]) := by
  simpa [Sequence.withFractions] using h none [] [held] rfl

end WrittenTo

/-! ## What has a value is written -/

/-- A denominator that is worth something is not written as zero. -/
theorem SumHasValue.fraction?_eq {top bottom : List Node} {w : Rat}
    (h : SumHasValue Node.HasValue bottom w) (hw : w ≠ 0) :
    Node.fraction? top bottom = some (.fraction top bottom) := by
  unfold Node.fraction?
  split
  · rename_i letter n p
    rw [if_neg]
    intro hzero
    obtain ⟨rfl, rfl, hnumber⟩ : letter = none ∧ p = [] ∧ n.isZero = true := by
      simpa [Group.isPlaceholder] using hzero
    exact hw ((Node.hasValue_number_iff.1 (SumHasValue.singleton_iff.1 h)).symm.trans
      (Number.isZero_iff.1 hnumber))
  · rfl

theorem Node.over_eq_ok_of_hasValue {top bottom : Node} {w : Rat} (h : bottom.HasValue w)
    (hw : w ≠ 0) : top.over bottom = .ok (.fraction [top] [bottom]) := by
  rw [Node.over, (SumHasValue.singleton_iff.2 h).fraction?_eq hw]

theorem Rational.divide_eq_ok {left right value : Rat} :
    Rational.divide left right = .ok value ↔ right ≠ 0 ∧ value = left / right := by
  rw [Rational.divide]
  split <;> simp_all [eq_comm]

theorem Node.HasValue.ne_divide {node : Node} {w : Rat} (h : node.HasValue w) :
    node ≠ .operator .divide := by
  rintro rfl
  cases h

/-- A product is written with its last term held back.  What stands before that term multiplies
it, and would multiply any other term in its place. -/
theorem ProductHasValue.writtenTo {nodes : List Node} {v : Rat}
    (hnode : ∀ node ∈ nodes, ∀ w, node.HasValue w →
      ∃ node', node.withFractions = .ok node' ∧ node'.HasValue w)
    (h : ProductHasValue Node.HasValue nodes v) :
    ∃ before held factor w, WrittenTo nodes before held ∧ held.HasValue w ∧ factor * w = v ∧
      ∀ node u, node.HasValue u →
        ProductHasValue Node.HasValue (before ++ [node]) (factor * u) := by
  induction h with
  | @term node v hterm =>
    obtain ⟨node', hwritten, hvalue⟩ := hnode node (.head _) v hterm
    refine ⟨[], node', 1, v, .single hterm.ne_divide hwritten, hvalue, one_mul v, ?_⟩
    intro n u hn
    simpa using ProductHasValue.term hn
  | @multiply product node l r hproduct hterm ih =>
    obtain ⟨before, held, factor, w, hwritten, hheld, rfl, hbefore⟩ :=
      ih fun n hn => hnode n (List.mem_append_left _ hn)
    obtain ⟨node', hwritten', hvalue⟩ := hnode node (by simp) r hterm
    refine ⟨before ++ [held, .operator .multiply], node', factor * w, r,
      hwritten.join (by decide) (.single hterm.ne_divide hwritten'), hvalue, rfl, ?_⟩
    intro n u hn
    simpa using (hbefore held w hheld).multiply hn
  | @divide product node l r v hproduct hterm hv ih =>
    obtain ⟨before, held, factor, w, hwritten, hheld, rfl, hbefore⟩ :=
      ih fun n hn => hnode n (List.mem_append_left _ hn)
    obtain ⟨node', hwritten', hvalue⟩ := hnode node (by simp) r hterm
    obtain ⟨hr, rfl⟩ := Rational.divide_eq_ok.1 hv
    refine ⟨before, .fraction [held] [node'], factor, w / r, ?_, ?_, by ring, hbefore⟩
    · exact hwritten.divide hheld.isTerm hwritten' hvalue.isTerm
        (Node.over_eq_ok_of_hasValue hvalue hr)
    · exact .fraction (SumHasValue.singleton_iff.2 hheld) (SumHasValue.singleton_iff.2 hvalue)
        (Rational.divide_eq_ok.2 ⟨hr, rfl⟩)

theorem SumHasValue.writtenTo {nodes : List Node} {v : Rat}
    (hnode : ∀ node ∈ nodes, ∀ w, node.HasValue w →
      ∃ node', node.withFractions = .ok node' ∧ node'.HasValue w)
    (h : SumHasValue Node.HasValue nodes v) :
    ∃ before held, WrittenTo nodes before held ∧
      SumHasValue Node.HasValue (before ++ [held]) v := by
  induction h with
  | product hproduct =>
    obtain ⟨before, held, factor, w, hwritten, hheld, rfl, hbefore⟩ := hproduct.writtenTo hnode
    exact ⟨before, held, hwritten, .product (hbefore held w hheld)⟩
  | add _ hproduct ih =>
    obtain ⟨sum, last, hsum, hsumValue⟩ := ih fun n hn => hnode n (List.mem_append_left _ hn)
    obtain ⟨before, held, factor, w, hwritten, hheld, rfl, hbefore⟩ :=
      hproduct.writtenTo fun n hn => hnode n (List.mem_append_right _ (.tail _ hn))
    refine ⟨_, held, hsum.join (by decide) hwritten, ?_⟩
    simpa using hsumValue.add (hbefore held w hheld)
  | subtract _ hproduct ih =>
    obtain ⟨sum, last, hsum, hsumValue⟩ := ih fun n hn => hnode n (List.mem_append_left _ hn)
    obtain ⟨before, held, factor, w, hwritten, hheld, rfl, hbefore⟩ :=
      hproduct.writtenTo fun n hn => hnode n (List.mem_append_right _ (.tail _ hn))
    refine ⟨_, held, hsum.join (by decide) hwritten, ?_⟩
    simpa using hsumValue.subtract (hbefore held w hheld)

theorem Sequence.exists_withFractions {nodes : List Node} {v : Rat}
    (hnode : ∀ node ∈ nodes, ∀ w, node.HasValue w →
      ∃ node', node.withFractions = .ok node' ∧ node'.HasValue w)
    (h : SumHasValue Node.HasValue nodes v) :
    ∃ out, Sequence.withFractions nodes = .ok out ∧ SumHasValue Node.HasValue out v := by
  obtain ⟨before, held, hwritten, hvalue⟩ := h.writtenTo hnode
  exact ⟨_, hwritten.withFractions_eq, hvalue⟩

/-- A term with a value is written, and keeps its value. -/
theorem Node.HasValue.withFractions {node : Node} {w : Rat} (h : node.HasValue w) :
    ∃ node', node.withFractions = .ok node' ∧ node'.HasValue w := by
  induction node using Node.nested_induction generalizing w with
  | group letter n p => exact ⟨_, rfl, h⟩
  | fraction t b => exact ⟨_, rfl, h⟩
  | paren b p negative ihb =>
    -- The exponent is not written anew.
    cases h with
    | paren _ hb =>
      obtain ⟨body, hbody, hvalue⟩ := Sequence.exists_withFractions (fun n hn _ => ihb n hn) hb
      exact ⟨_, Except.bind_eq_ok.2 ⟨body, hbody, rfl⟩, .paren negative hvalue⟩
    | parenPower _ hp hb hexponent hv =>
      obtain ⟨body, hbody, hvalue⟩ := Sequence.exists_withFractions (fun n hn _ => ihb n hn) hb
      exact ⟨_, Except.bind_eq_ok.2 ⟨body, hbody, rfl⟩,
        .parenPower negative hp hvalue hexponent hv⟩
  | operator | relation => cases h

/-! ## What was written has no other value -/

theorem Node.HasValue.valueAt {node : Node} {w : Rat} (h : node.HasValue w) (point : Char → Rat) :
    node.valueAt point = some w := by
  rw [← Sequence.valueAt_singleton]
  exact Sequence.valueAt_of_evaluate point
    (Sequence.evaluate_eq_ok.2 (SumHasValue.singleton_iff.2 h))

/-- If all that was written has a value, but for the operators, so had everything before. -/
theorem FractionsWritten.operator_or_value {held : Option Node} {rest out : List Node}
    (h : FractionsWritten held rest out)
    (hrest : ∀ node ∈ rest, ∀ node' w, node.withFractions = .ok node' → node'.HasValue w →
      node.HasValue w)
    (hout : ∀ node ∈ out, (∃ op, node = .operator op) ∨ ∃ w, node.HasValue w) :
    ∀ node ∈ held.toList ++ rest, (∃ op, node = .operator op) ∨ ∃ w, node.HasValue w := by
  induction h with
  | nil held => simpa using hout
  | @divide top bottom bottom' rest out _ _ hbottom _ _ ih =>
    have hrest' := ih (fun n hn => hrest n (.tail _ (.tail _ hn))) hout
    obtain ⟨op, hop⟩ | ⟨w, hw⟩ := hrest' (.fraction [top] [bottom']) (.head _)
    · cases hop
    · obtain ⟨t, b, ht, hb, -⟩ := Node.hasValue_fraction_iff.1 hw
      intro node hnode
      simp only [Option.toList_some, List.cons_append, List.nil_append, List.mem_cons] at hnode
      obtain rfl | rfl | rfl | hnode := hnode
      · exact .inr ⟨t, SumHasValue.singleton_iff.1 ht⟩
      · exact .inl ⟨_, rfl⟩
      · exact .inr ⟨b, hrest node (.tail _ (.head _)) bottom' b hbottom
          (SumHasValue.singleton_iff.1 hb)⟩
      · exact hrest' node (.tail _ hnode)
  | @next held node node' rest out _ hnode _ ih =>
    have hrest' := ih (fun n hn => hrest n (.tail _ hn))
      fun n hn => hout n (List.mem_append_right _ hn)
    intro n hn
    obtain hn | hn := List.mem_append.1 hn
    · exact hout n (List.mem_append_left _ hn)
    · obtain rfl | hn := List.mem_cons.1 hn
      · obtain ⟨op, rfl⟩ | ⟨w, hw⟩ := hrest' node' (.head _)
        · exact .inl ⟨op, Node.eq_operator_of_withFractions hnode⟩
        · exact .inr ⟨w, hrest n (.head _) node' w hnode hw⟩
      · exact hrest' n (.tail _ hn)

theorem Sequence.sumHasValue_of_withFractions {nodes out : List Node} {v : Rat}
    (hnode : ∀ node ∈ nodes, ∀ node' w, node.withFractions = .ok node' → node'.HasValue w →
      node.HasValue w)
    (h : Sequence.withFractions nodes = .ok out) (hv : SumHasValue Node.HasValue out v) :
    SumHasValue Node.HasValue nodes v := by
  have hread : Sequence.valueAt (everywhere 0) nodes = some v := by
    rw [← Sequence.valueAt_withFractions _ h]
    exact Sequence.valueAt_of_evaluate _ (Sequence.evaluate_eq_ok.2 hv)
  refine .of_valueAt (fun node hmem w hw => ?_) hread
  obtain ⟨op, rfl⟩ | ⟨u, hu⟩ := (FractionsWritten.of_withFractionsAfter h).operator_or_value hnode
    (fun n hn => hv.operator_or_value hn) node (by simpa using hmem)
  · cases hw
  · exact Option.some.inj ((hu.valueAt _).symm.trans hw) ▸ hu

/-- A value of what was written is the value of the term itself. -/
theorem Node.hasValue_of_withFractions {node node' : Node} {w : Rat}
    (h : node.withFractions = .ok node') (hw : node'.HasValue w) : node.HasValue w := by
  induction node using Node.nested_induction generalizing node' w with
  | group | fraction | operator | relation => exact Except.ok.inj h ▸ hw
  | paren b p negative ihb =>
    obtain ⟨body, hbody, rfl⟩ := Node.eq_paren_of_withFractions h
    have hwritten {content : Rat} : SumHasValue Node.HasValue body content →
        SumHasValue Node.HasValue b content :=
      Sequence.sumHasValue_of_withFractions (fun n hn _ _ => ihb n hn) hbody
    cases hw with
    | paren _ hb => exact .paren negative (hwritten hb)
    | parenPower _ hp hb hexponent hv => exact .parenPower negative hp (hwritten hb) hexponent hv

/-! ## Sequences without divisions -/

mutual
/-- The fractions at the top level and inside of parentheses. -/
def Node.fractions : Node → List Node
  | .paren b _ _ => Sequence.fractions b
  | .fraction t b => [.fraction t b]
  | .group .. | .operator _ | .relation _ => []

/-- The fractions at the top level of a sequence and inside of parentheses. -/
def Sequence.fractions : List Node → List Node
  | [] => []
  | node :: rest => node.fractions ++ Sequence.fractions rest
end

mutual
/-- No division at any depth, but for exponents and what is in a fraction that is spared. -/
def Node.IsUndivided (spared : List Node) : Node → Prop
  | .group .. | .relation _ => True
  | .operator op => op ≠ .divide
  | .paren b _ _ => Sequence.IsUndivided spared b
  | .fraction t b =>
    .fraction t b ∈ spared ∨ Sequence.IsUndivided spared t ∧ Sequence.IsUndivided spared b

/-- No division in any of the nodes. -/
def Sequence.IsUndivided (spared : List Node) : List Node → Prop
  | [] => True
  | node :: rest => node.IsUndivided spared ∧ Sequence.IsUndivided spared rest
end

theorem Sequence.isUndivided_iff {spared nodes : List Node} :
    Sequence.IsUndivided spared nodes ↔ ∀ node ∈ nodes, node.IsUndivided spared := by
  induction nodes with
  | nil => simp [Sequence.IsUndivided]
  | cons node rest ih => simp [Sequence.IsUndivided, ih]

theorem Sequence.mem_fractions {node : Node} {nodes : List Node} :
    node ∈ Sequence.fractions nodes ↔ ∃ n ∈ nodes, node ∈ n.fractions := by
  induction nodes with
  | nil => simp [Sequence.fractions]
  | cons n rest ih => simp [Sequence.fractions, ih]

theorem FractionsWritten.isUndivided {spared : List Node} {rest out : List Node}
    (h : FractionsWritten none rest out)
    (hrest : ∀ node ∈ rest, node ≠ .operator .divide → ∀ node', node.withFractions = .ok node' →
      node'.IsUndivided spared) : Sequence.IsUndivided spared out :=
  Sequence.isUndivided_iff.2 (h.forall_mem
    (fun _ _ _ _ htop hbottom => .inr ⟨⟨htop, trivial⟩, hbottom, trivial⟩) (by simp) hrest)

theorem Node.isUndivided_withFractions {spared : List Node} {node node' : Node}
    (hspared : ∀ f ∈ node.fractions, f ∈ spared) (hdivide : node ≠ .operator .divide)
    (h : node.withFractions = .ok node') : node'.IsUndivided spared := by
  induction node using Node.nested_induction generalizing node' with
  | group | relation =>
    obtain rfl := Except.ok.inj h
    trivial
  | operator op =>
    obtain rfl := Except.ok.inj h
    exact fun hop => hdivide (congrArg Node.operator hop)
  | fraction t b =>
    obtain rfl := Except.ok.inj h
    exact .inl (hspared _ (.head _))
  | paren b p negative ihb =>
    obtain ⟨body, hbody, rfl⟩ := Node.eq_paren_of_withFractions h
    refine (FractionsWritten.of_withFractionsAfter hbody).isUndivided fun n hn hne _ hn' => ?_
    exact ihb n hn (fun f hf => hspared f (Sequence.mem_fractions.2 ⟨n, hn, hf⟩)) hne hn'

theorem Sequence.isUndivided_withFractions {nodes out : List Node}
    (h : Sequence.withFractions nodes = .ok out) :
    Sequence.IsUndivided (Sequence.fractions nodes) out :=
  (FractionsWritten.of_withFractionsAfter h).isUndivided fun n hn hne _ hn' =>
    Node.isUndivided_withFractions (fun _ hf => Sequence.mem_fractions.2 ⟨n, hn, hf⟩) hne hn'

/-! ## Evaluation -/

/-- A sequence evaluates to a value exactly if its divisions can be written as fractions and the
result evaluates to this value.  Whatever is written has no division left at the top level and
inside of parentheses, the new fractions included: one can only stand in an exponent or in a
fraction that was there before. -/
theorem Sequence.evaluate_withFractions (nodes : List Node) :
    (∀ v, Sequence.evaluate nodes = .ok v ↔
      ∃ out, Sequence.withFractions nodes = .ok out ∧ Sequence.evaluate out = .ok v) ∧
    ∀ out, Sequence.withFractions nodes = .ok out →
      Sequence.IsUndivided (Sequence.fractions nodes) out := by
  refine ⟨fun v => ?_, fun out => Sequence.isUndivided_withFractions⟩
  simp only [Sequence.evaluate_eq_ok]
  constructor
  · exact Sequence.exists_withFractions fun _ _ _ => Node.HasValue.withFractions
  · rintro ⟨out, hout, hv⟩
    exact Sequence.sumHasValue_of_withFractions
      (fun _ _ _ _ => Node.hasValue_of_withFractions) hout hv

/-- `12 / 2 / (6 / 3) ^ 2 / 3` nests to the left, and the divisor keeps its power. -/
theorem Sequence.evaluate_withFractions_chain :
    ∃ nodes, parse "12 / 2 / (6 / 3) ^ 2 / 3".toList = .ok nodes ∧
      Sequence.withFractions nodes = .ok [.fraction [.fraction
        [.fraction [Node.constant 12] [Node.constant 2]]
        [.paren [.fraction [Node.constant 6] [Node.constant 3]] [Node.constant 2] false]]
        [Node.constant 3]] ∧
      (∃ out, Sequence.withFractions nodes = .ok out ∧ Sequence.evaluate out = .ok (1 / 2)) ∧
      ∀ out, Sequence.withFractions nodes = .ok out →
        Sequence.IsUndivided (Sequence.fractions nodes) out := by
  have h := Sequence.evaluate_withFractions [Node.constant 12, .operator .divide, Node.constant 2,
    .operator .divide, .paren [Node.constant 6, .operator .divide, Node.constant 3]
      [Node.constant 2] false, .operator .divide, Node.constant 3]
  exact ⟨_, by decide +kernel, by decide +kernel, (h.1 (1 / 2)).1 (by decide +kernel), h.2⟩

end OneUnknown
