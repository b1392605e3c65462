import OneUnknown.Proofs.Quotient
/-!
# Division is exact where signs are kept

The quotient of a negative power `-(a) ^ n` is the quotient of `a`, negated, times `a ^ (n - 1)`.
Where the quotient of `a` is a fraction, the minus sign goes into its numerator, to the first factor
of every summand there, and a zero loses it: `-0 ^ 0` is worth what `0 ^ 0` is.  Everywhere else the
quotient of a term is worth the quotient of its value.

* `Node.reached`: the nodes that division goes down to;
* `Node.KeepsSign`: a first factor that has not lost its sign;
* `Node.KeepsSign.turns`: the value of such a factor changes with its sign;
* `DividesExactly`, `IsQuotient`, `Node.isQuotient`: the quotient of one term;
* `Sequence.valueAt_dividedBy_of_signs`: the quotient of a sequence;
* `Sequence.valueAt_dividedBy`: the quotient of a plain side.
-/

namespace OneUnknown

section

variable (point : Char → Rat) {x : Char} {divisor : Rat}

/-! ## Signs -/

mutual
/-- The nodes that division goes down to: a node, and what is in parentheses and numerators. -/
def Node.reached : Node → List Node
  | .group letter n p => [.group letter n p]
  | .paren b p negative => .paren b p negative :: Sequence.reached b
  | .fraction t b => .fraction t b :: Sequence.reached t
  | .operator op => [.operator op]
  | .relation r => [.relation r]

/-- The nodes of a sequence that division goes down to. -/
def Sequence.reached : List Node → List Node
  | [] => []
  | node :: rest => node.reached ++ Sequence.reached rest
end

theorem Sequence.mem_reached {node : Node} {nodes : List Node} :
    node ∈ Sequence.reached nodes ↔ ∃ n ∈ nodes, node ∈ n.reached := by
  induction nodes with
  | nil => simp [Sequence.reached]
  | cons n rest ih => simp [Sequence.reached, ih]

theorem Node.mem_reached_self (node : Node) : node ∈ node.reached := by
  cases node <;> simp [Node.reached]

theorem Sequence.reached_subset {node : Node} {nodes : List Node} (h : node ∈ nodes) :
    node.reached ⊆ Sequence.reached nodes := fun _ hn => Sequence.mem_reached.2 ⟨node, h, hn⟩

theorem Sequence.subset_reached (nodes : List Node) : nodes ⊆ Sequence.reached nodes :=
  fun node h => Sequence.reached_subset h node.mem_reached_self

mutual
/-- A first factor that has not lost its sign.  Only a zero can: where `0 ^ 0` stands for one, so
does `-0 ^ 0`. -/
def Node.KeepsSign : Node → Prop
  | .group none n p =>
    p ≠ [] → n.isZero = true → ∀ v, (Node.group none n p).valueAt point = some v → v = 0
  | .fraction t _ => Sequence.FirstsKeepSign true t
  | .group (some _) _ _ | .paren .. | .operator _ | .relation _ => True

/-- The first factors of the summands of a sequence, none of which has lost its sign; `first` says
whether a summand begins. -/
def Sequence.FirstsKeepSign (first : Bool) : List Node → Prop
  | [] => True
  | .operator op :: rest => Sequence.FirstsKeepSign (!op.bindsTighter) rest
  | node :: rest => (first = true → node.KeepsSign) ∧ Sequence.FirstsKeepSign false rest
end

theorem Sequence.firstsKeepSign_iff {first : Bool} {nodes : List Node} :
    Sequence.FirstsKeepSign point first nodes ↔
      Sequence.Firsts (Node.KeepsSign point) first nodes := by
  induction nodes generalizing first with
  | nil => rfl
  | cons node rest ih =>
    cases node with
    | operator op => exact ih
    | _ => exact and_congr_right fun _ => ih

/-- What holds of the first factors holds of those of both parts of a sum. -/
theorem Sequence.firsts_add {P : Node → Prop} {first : Bool} {left right : List Node} :
    Sequence.Firsts P first (left ++ .operator .add :: right) ↔
      Sequence.Firsts P first left ∧ Sequence.Firsts P true right := by
  induction left generalizing first with
  | nil => simp [Sequence.Firsts, Operator.bindsTighter]
  | cons node rest ih =>
    cases node with
    | operator op => exact ih
    | _ => simp only [List.cons_append, Sequence.Firsts, ih, and_assoc]

/-- Within a product no summand begins. -/
theorem Sequence.IsProduct.firsts {P : Node → Prop} {nodes : List Node}
    (h : Sequence.IsProduct nodes) : Sequence.Firsts P false nodes := by
  induction nodes with
  | nil => trivial
  | cons node rest ih =>
    have hrest := ih fun op hop => h op (.tail _ hop)
    cases node with
    | operator op =>
      rw [Sequence.Firsts, h op (.head _)]
      exact hrest
    | _ => exact ⟨by simp, hrest⟩

theorem Sequence.isProduct_cons {node : Node} {rest : List Node} (hterm : node.isTerm = true)
    (hrest : Sequence.IsProduct rest) : Sequence.IsProduct (node :: rest) := by
  intro op hop
  rcases List.mem_cons.1 hop with rfl | hop
  · cases hterm
  · exact hrest op hop

theorem Sequence.IsProduct.firsts_cons {P : Node → Prop} {node : Node} {rest : List Node}
    (h : Sequence.IsProduct (node :: rest)) (hterm : node.isTerm = true) :
    Sequence.Firsts P true (node :: rest) ↔ P node := by
  have hrest : Sequence.IsProduct rest := fun op hop => h op (.tail _ hop)
  cases node with
  | operator | relation => cases hterm
  | _ => simp [Sequence.Firsts, hrest.firsts]

/-- The first factor of a product is that of any part it begins with. -/
theorem Sequence.IsProduct.firsts_append {P : Node → Prop} {first : Bool} {left right : List Node}
    (h : Sequence.IsProduct (left ++ right)) (hne : left ≠ []) :
    Sequence.Firsts P first (left ++ right) ↔ Sequence.Firsts P first left := by
  cases left with
  | nil => exact absurd rfl hne
  | cons node rest =>
    have hrest : Sequence.IsProduct (rest ++ right) := fun op hop => h op (.tail _ hop)
    have hleft : Sequence.IsProduct rest := fun op hop => hrest op (List.mem_append_left _ hop)
    cases node with
    | operator op =>
      rw [List.cons_append, Sequence.Firsts, Sequence.Firsts, h op (.head _)]
      exact iff_of_true hrest.firsts hleft.firsts
    | _ => exact and_congr_right fun _ => iff_of_true hrest.firsts hleft.firsts

theorem Sequence.Firsts.imp {P Q : Node → Prop} {first : Bool} {nodes : List Node}
    (hPQ : ∀ node ∈ nodes, P node → Q node) (h : Sequence.Firsts P first nodes) :
    Sequence.Firsts Q first nodes := by
  induction nodes generalizing first with
  | nil => trivial
  | cons node rest ih =>
    have hrest := fun n hn => hPQ n (.tail _ hn)
    cases node with
    | operator op => exact ih hrest h
    | _ => exact ⟨fun hfirst => hPQ _ (.head _) (h.1 hfirst), ih hrest h.2⟩

theorem Sequence.Firsts.negatedAfter {P : Node → Prop} {first : Bool} {nodes : List Node}
    (hP : ∀ node ∈ nodes, P node → P node.negated) (h : Sequence.Firsts P first nodes)
    (previous : Option Node) : Sequence.Firsts P first (Sequence.negatedAfter previous nodes) := by
  induction nodes generalizing first previous with
  | nil => trivial
  | cons node rest ih =>
    have hrest := fun n hn => hP n (.tail _ hn)
    rw [Sequence.negatedAfter]
    cases node with
    | operator op => exact ih hrest h _
    | group | paren | fraction | relation =>
      split
      · exact ⟨fun hfirst => hP _ (.head _) (h.1 hfirst), ih hrest h.2 _⟩
      · exact ⟨h.1, ih hrest h.2 _⟩

theorem Node.KeepsSign.negated {node : Node} (h : node.KeepsSign point) :
    node.negated.KeepsSign point := by
  induction node using Node.nested_induction with
  | group letter n p =>
    cases letter with
    | some name => trivial
    | none =>
      intro hp hzero v hv
      have hn : n.isZero = true := hzero
      refine h hp hn v ?_
      rw [Node.valueAt_number_eq_some] at hv ⊢
      simpa [Number.powerValue?, Number.isZero_iff.1 hn] using hv
  | fraction t b iht =>
    have ht := (Sequence.firstsKeepSign_iff point).1 h
    exact (Sequence.firstsKeepSign_iff point).2 (ht.negatedAfter (fun n hn => iht n hn) none)
  | paren | operator | relation => trivial

/-- A term that keeps its sign changes its value with it. -/
theorem Node.KeepsSign.turns {node : Node} (h : node.KeepsSign point) : node.Turns point := by
  induction node using Node.nested_induction with
  | group letter n p =>
    cases letter with
    | some name => exact Node.turns_variable point name n p
    | none =>
      by_cases hzero : p ≠ [] ∧ n.isZero = true
      · intro v hv
        obtain rfl := h hzero.1 hzero.2 v hv
        rw [Node.negated, Node.valueAt_number_eq_some]
        rw [Node.valueAt_number_eq_some] at hv
        simpa [Number.powerValue?, Number.isZero_iff.1 hzero.2] using hv
      · refine Node.turns_number point (or_iff_not_imp_left.2 fun hp hn => hzero ⟨hp, ?_⟩)
        exact Number.isZero_iff.2 hn
  | paren b p negative => exact Node.turns_paren point b p negative
  | fraction t b iht =>
    have ht := (Sequence.firstsKeepSign_iff point).1 h
    exact Node.turns_fraction point (ht.imp fun n hn => iht n hn)
  | operator | relation => exact fun v hv => by simp [Node.valueAt] at hv

theorem scaledQuotient_ne_nil (node : Node) : scaledQuotient divisor node ≠ [] := by
  rcases scaledQuotient_cases divisor node with ⟨g, value, -, -, heq⟩ | heq <;> simp [heq]

theorem Node.quotient_ne_nil (node : Node) : node.quotient divisor ≠ [] := by
  cases node with
  | group letter n p =>
    rw [Node.quotient]
    split
    · simp
    · rcases powerQuotient_cases divisor n p with
        heq | ⟨-, heq⟩ | ⟨_, divided, -, -, ⟨rfl, -⟩ | rfl, heq⟩ <;> rw [heq]
      · exact scaledQuotient_ne_nil _
      · simp
      · split <;> simp [Sequence.negatedSummand]
      · split <;> simp [Sequence.negatedSummand]
  | paren b p negative =>
    rw [Node.quotient]
    rcases parenQuotient_cases divisor (sumQuotient divisor (Sequence.quotients divisor b)) b p
      negative with heq | ⟨-, heq⟩ | ⟨_, _, -, -, -, heq⟩ <;> rw [heq]
    · exact scaledQuotient_ne_nil _
    · simp
    · simp
  | _ => simp [Node.quotient]

theorem productQuotient_ne_nil (divisor : Rat) {part : List Node} (hne : part ≠ []) :
    productQuotient divisor (part.map fun node => (node, node.quotient divisor)) ≠ [] := by
  rcases productQuotient_cases divisor part with ⟨pre, node, post, rfl, hterm, heq⟩ | ⟨-, heq⟩
  · rw [heq]
    simp [node.quotient_ne_nil]
  · rwa [heq]

/-! ## The first factors of a quotient -/

theorem Sequence.firstsKeepSign_singleton {node : Node} :
    Sequence.FirstsKeepSign point true [node] ↔ node.KeepsSign point := by
  rw [Sequence.firstsKeepSign_iff]
  cases node with
  | operator op => exact iff_of_true trivial trivial
  | _ => simp [Sequence.Firsts]

theorem Node.keepsSign_constant (value : Rat) : (Node.constant value).KeepsSign point :=
  fun hp => absurd rfl hp

theorem firstsKeepSign_scaledQuotient {node : Node} (h : node.isTerm = true) :
    Sequence.FirstsKeepSign point true (scaledQuotient divisor node) := by
  rw [Sequence.firstsKeepSign_iff, scaledQuotient]
  have hconstant (value : Rat) := Node.keepsSign_constant point value
  split
  · exact ((Sequence.isProduct_singleton rfl).firsts_cons rfl).2 (hconstant _)
  · exact ((Sequence.isProduct_pair rfl h).firsts_cons rfl).2 (hconstant _)

theorem firstsKeepSign_powerQuotient (n : Number) (p : List Node) :
    Sequence.FirstsKeepSign point true (powerQuotient divisor n p) := by
  rcases powerQuotient_cases divisor n p with
    heq | ⟨-, heq⟩ | ⟨_, divided, -, -, hdivided, heq⟩
  · rw [heq]
    exact firstsKeepSign_scaledQuotient point rfl
  · rw [heq]
    exact (Sequence.firstsKeepSign_singleton point).2 (Node.keepsSign_constant point _)
  · -- The base that is left is no zero, since its quotient is one.
    have hfirst : ∃ first rest, divided = first :: rest ∧ first.isTerm = true ∧
        Sequence.IsProduct divided ∧ first.KeepsSign point := by
      rcases hdivided with ⟨rfl, hquotient⟩ | rfl
      · refine ⟨_, _, rfl, rfl, Sequence.isProduct_singleton rfl, fun _ hzero => ?_⟩
        rw [Number.isZero_iff, Number.value_ofRat] at hzero
        simp [hzero] at hquotient
      · exact ⟨_, _, rfl, rfl, Sequence.isProduct_pair rfl rfl, Node.keepsSign_constant point _⟩
    obtain ⟨first, rest, rfl, hterm, hproduct, hkeeps⟩ := hfirst
    rw [heq, Sequence.firstsKeepSign_iff]
    split
    · have hnegated : first.negated.isTerm = true := by rwa [Node.isTerm_negated]
      have hproduct' := Sequence.isProduct_cons hnegated fun op hop => hproduct op (.tail _ hop)
      exact (hproduct'.firsts_cons hnegated).2 (hkeeps.negated point)
    · exact (hproduct.firsts_cons hterm).2 hkeeps

theorem firstsKeepSign_parenQuotient {divided body p : List Node} {negative : Bool}
    (hproduct : Sequence.IsProduct (parenQuotient divisor divided body p negative))
    (hterm : (Sequence.asFactor divided).isTerm = true)
    (hkeeps : (Sequence.asFactor divided).KeepsSign point) :
    Sequence.FirstsKeepSign point true (parenQuotient divisor divided body p negative) := by
  rcases parenQuotient_cases divisor divided body p negative with
    heq | ⟨-, heq⟩ | ⟨_, remaining, -, -, -, heq⟩ <;> rw [heq] at hproduct ⊢
  · exact firstsKeepSign_scaledQuotient point rfl
  · exact (Sequence.firstsKeepSign_singleton point).2 trivial
  · rw [Sequence.firstsKeepSign_iff]
    cases negative with
    | true =>
      rw [if_pos rfl] at hproduct ⊢
      exact (hproduct.firsts_cons (by rwa [Node.isTerm_negated])).2 (hkeeps.negated point)
    | false => exact (hproduct.firsts_cons hterm).2 hkeeps

/-- The factor that is divided gives its place to factors that keep their sign, too. -/
theorem firstsKeepSign_productQuotient {part : List Node} (hproduct : Sequence.IsProduct part)
    (hquotient : ∀ node ∈ part, node.isTerm = true →
      Sequence.IsProduct (node.quotient divisor) ∧
        Sequence.FirstsKeepSign point true (node.quotient divisor))
    (h : Sequence.FirstsKeepSign point true part) :
    Sequence.FirstsKeepSign point true
      (productQuotient divisor (part.map fun node => (node, node.quotient divisor))) := by
  rcases productQuotient_cases divisor part with ⟨pre, node, post, rfl, hterm, heq⟩ | ⟨-, heq⟩
  · obtain ⟨hfactors, hkeeps⟩ := hquotient node (by simp) hterm
    have hreplaced : Sequence.IsProduct (pre ++ (node.quotient divisor ++ post)) := by
      intro op hop
      simp only [List.mem_append] at hop
      rcases hop with hop | hop | hop
      · exact hproduct op (List.mem_append_left _ hop)
      · exact hfactors op hop
      · exact hproduct op (List.mem_append_right _ (.tail _ hop))
    rw [Sequence.firstsKeepSign_iff] at h hkeeps
    rw [heq, List.append_assoc, Sequence.firstsKeepSign_iff]
    by_cases hpre : pre = []
    · subst hpre
      have hreplaced : Sequence.IsProduct (node.quotient divisor ++ post) := hreplaced
      exact (hreplaced.firsts_append node.quotient_ne_nil).2 hkeeps
    · exact (hreplaced.firsts_append hpre).2 ((hproduct.firsts_append hpre).1 h)
  · rwa [heq]

theorem firstsKeepSign_sumQuotient {nodes : List Node}
    (hoperators : Sequence.OnlyAddsAndMultiplies nodes)
    (hquotient : ∀ node ∈ nodes, node.isTerm = true →
      Sequence.IsProduct (node.quotient divisor) ∧
        Sequence.FirstsKeepSign point true (node.quotient divisor))
    (h : Sequence.FirstsKeepSign point true nodes) :
    Sequence.FirstsKeepSign point true
      (sumQuotient divisor (Sequence.quotients divisor nodes)) := by
  have hparts : ∀ part ∈ Sequence.summands nodes, Sequence.FirstsKeepSign point true part := by
    refine Sequence.forall_mem_summands (fun left right hsum => ?_) h
    simpa only [Sequence.firstsKeepSign_iff, Sequence.firsts_add] using hsum
  rw [sumQuotient, Sequence.quotients_eq_map, Sequence.summandsWith_map, List.map_map]
  refine Sequence.join_induction ?_ (fun left right hleft hright => ?_) fun _ hdivided => ?_
  · exact (Sequence.firstsKeepSign_singleton point).2 (Node.keepsSign_constant point 0)
  · rw [Sequence.firstsKeepSign_iff] at hleft hright ⊢
    exact Sequence.firsts_add.2 ⟨hleft, hright⟩
  · obtain ⟨part, hpart, rfl⟩ := List.mem_map.1 hdivided
    exact firstsKeepSign_productQuotient point (hoperators.of_mem_summands hpart).1
      (fun node hnode => hquotient node (Sequence.mem_of_mem_summands hpart hnode).1)
      (hparts part hpart)

/-! ## Lone quotients -/

theorem Sequence.add_mem_join {left right : List Node} {parts : List (List Node)}
    (hleft : left ≠ []) (hright : right ∈ parts) (hne : right ≠ []) :
    .operator .add ∈ Sequence.join (left :: parts) := by
  have hkept : (parts.filter fun part => !part.isEmpty) ≠ [] := by
    exact List.ne_nil_of_mem (List.mem_filter.2 ⟨hright, by simpa using hne⟩)
  simp only [Sequence.join]
  rw [List.filter_cons_of_pos (by simpa using hleft), if_neg (by simp),
    List.intercalate_cons_of_ne_nil hkept]
  simp

theorem Sequence.summands_ne_nil {nodes : List Node} {value : Rat}
    (h : Sequence.valueAt point nodes = some value) : Sequence.summands nodes ≠ [] := by
  cases nodes with
  | nil => cases h
  | cons node rest =>
    obtain ⟨v, hv, -⟩ := Option.bind_eq_some_iff.1 h
    have hadd : node.isOperator .add = false := by
      cases node <;> simp_all [Node.valueAt, Node.isOperator]
    obtain ⟨part, hpart, hnode⟩ := exists_mem_splitOnP (Node.isOperator .add) (.head rest) hadd
    exact List.ne_nil_of_mem (List.mem_filter.2 ⟨hpart, by simpa using List.ne_nil_of_mem hnode⟩)

/-- Where the quotient of a sum is a lone term, the sum is one, too. -/
theorem eq_singleton_of_sumQuotient {nodes : List Node} {q : Node} {value : Rat}
    (hvalue : Sequence.valueAt point nodes = some value) (hq : q.isTerm = true)
    (h : sumQuotient divisor (Sequence.quotients divisor nodes) = [q]) :
    ∃ node, nodes = [node] ∧ node.quotient divisor = [q] := by
  rw [sumQuotient, Sequence.quotients_eq_map, Sequence.summandsWith_map, List.map_map] at h
  induction nodes using splitOnP_induction (Node.isOperator .add) with
  | single part hpart =>
    have hne := Sequence.ne_nil_of_valueAt point hvalue
    have hdivided := productQuotient_ne_nil divisor hne
    rw [Sequence.summands, List.splitOnP_eq_singleton hpart, List.filter_cons_of_pos (by simpa using hne),
      List.filter_nil, List.map_singleton, Function.comp_apply] at h
    replace h : productQuotient divisor (part.map fun node => (node, node.quotient divisor)) = [q] := by
      simpa [Sequence.join, hdivided] using h
    rcases productQuotient_cases divisor part with ⟨pre, node, post, rfl, hterm, heq⟩ | ⟨hnone, heq⟩
    · have hnode : 0 < (node.quotient divisor).length := List.length_pos_iff.2 node.quotient_ne_nil
      rw [heq] at h
      have hlength : pre.length + ((node.quotient divisor).length + post.length) = 1 := by
        simpa using congrArg List.length h
      obtain rfl : pre = [] := List.length_eq_zero_iff.1 (by omega)
      obtain rfl : post = [] := List.length_eq_zero_iff.1 (by omega)
      exact ⟨node, rfl, by simpa using h⟩
    · rw [heq] at h
      rw [hnone q (h ▸ .head _)] at hq
      cases hq
  | cons part separator rest hpart hseparator =>
    -- Two summands have two quotients with a `+` between them.
    obtain rfl := Sequence.eq_operator_of_isOperator hseparator
    rw [Sequence.valueAt_add] at hvalue
    obtain ⟨a, ha, hsum⟩ := Option.bind_eq_some_iff.1 hvalue
    obtain ⟨b, hb, -⟩ := Option.map_eq_some_iff.1 hsum
    have hne := Sequence.ne_nil_of_valueAt point ha
    obtain ⟨second, hsecond⟩ := List.exists_mem_of_ne_nil _ (Sequence.summands_ne_nil point hb)
    rw [Sequence.summands, List.splitOnP_append_cons_of_forall_mem hpart _ hseparator,
      List.filter_cons_of_pos (by simpa using hne), List.map_cons] at h
    have hne' : second ≠ [] := by simpa using (List.mem_filter.1 hsecond).2
    have hadd := Sequence.add_mem_join (productQuotient_ne_nil divisor hne)
      (List.mem_map_of_mem (f := fun part =>
        productQuotient divisor (part.map fun node => (node, node.quotient divisor))) hsecond)
      (productQuotient_ne_nil divisor hne')
    have hmem : .operator .add ∈ [q] := by
      rw [← h]
      exact hadd
    rw [← List.mem_singleton.1 hmem] at hq
    cases hq

/-! ## Exact quotients -/

/-- The numerators among some nodes have no first factor that has lost its sign. -/
def NumeratorsKeepSign (nodes : List Node) : Prop :=
  ∀ t b, .fraction t b ∈ nodes → Sequence.FirstsKeepSign point true t

/-- The minus sign in front of the power of a lone fraction is not lost in a numerator. -/
def KeepsSigns (nodes : List Node) : Prop :=
  ∀ t b p exponent, .paren [.fraction t b] p true ∈ nodes →
    positiveIntegerPower? p = some exponent → 1 < exponent →
      NumeratorsKeepSign point (Node.fraction t b).reached

/-- What division needs of the nodes that it goes down to. -/
structure DividesExactly (nodes : List Node) : Prop where
  operators : Sequence.OnlyAddsAndMultiplies nodes
  signs : KeepsSigns point nodes

theorem DividesExactly.mono {nodes nodes' : List Node} (h : DividesExactly point nodes)
    (hsubset : nodes' ⊆ nodes) : DividesExactly point nodes' where
  operators := fun op hop => h.operators op (hsubset hop)
  signs := fun t b p exponent hmem => h.signs t b p exponent (hsubset hmem)

/-- A lone quotient of anything but a fraction is no zero with an exponent. -/
theorem Node.keepsSign_of_quotient_eq_singleton {node q : Node}
    (hfraction : ∀ t b, node ≠ .fraction t b) (h : node.quotient divisor = [q]) :
    q.KeepsSign point := by
  cases node with
  | group letter n p =>
    rw [Node.quotient] at h
    split at h
    · rename_i hplain
      obtain rfl := List.singleton_inj.1 h
      cases letter with
      | some name => trivial
      | none => exact fun hp => absurd (by simpa using hplain) hp
    · rw [← Sequence.firstsKeepSign_singleton, ← h]
      exact firstsKeepSign_powerQuotient point n p
  | paren b p negative =>
    rw [Node.quotient] at h
    rcases parenQuotient_cases divisor (sumQuotient divisor (Sequence.quotients divisor b)) b p
      negative with heq | ⟨-, heq⟩ | ⟨_, _, -, -, -, heq⟩ <;> rw [heq] at h
    · rw [← Sequence.firstsKeepSign_singleton, ← h]
      exact firstsKeepSign_scaledQuotient point rfl
    · obtain rfl := List.singleton_inj.1 h
      trivial
    · cases h
  | fraction t b => exact absurd rfl (hfraction t b)
  | operator | relation =>
    obtain rfl := List.singleton_inj.1 h
    trivial

/-- The quotient of a term with this value is a product that is worth the quotient of the value, and
its first factor has not lost its sign if no numerator in the term has one that did. -/
structure IsQuotient (divisor : Rat) (node : Node) (value : Rat) : Prop where
  valueAt : Sequence.valueAt point (node.quotient divisor) = some (divisor⁻¹ * value)
  isProduct : Sequence.IsProduct (node.quotient divisor)
  keepsSign : NumeratorsKeepSign point node.reached →
    Sequence.FirstsKeepSign point true (node.quotient divisor)

theorem isQuotient_group {letter : Option Char} {n : Number} {p : List Node} {value : Rat}
    (hvalue : (Node.group letter n p).valueAt point = some value) :
    IsQuotient point divisor (.group letter n p) value := by
  by_cases hplain : (letter.isSome || p.isEmpty) = true
  · have hquotient : (Node.group letter n p).quotient divisor =
        [.group letter (Number.ofRat (n.value / divisor)) p] := by
      rw [Node.quotient, if_pos hplain]
    have hpower : letter = none → p = [] := by
      rintro rfl
      simpa using hplain
    refine ⟨?_, hquotient ▸ Sequence.isProduct_singleton rfl, fun _ => ?_⟩
    · rw [hquotient, Sequence.valueAt_singleton]
      cases letter with
      | some name =>
        obtain ⟨e, power, he, hpower, rfl⟩ := (Node.valueAt_variable_eq_some point).1 hvalue
        refine (Node.valueAt_variable_eq_some point).2 ⟨e, power, he, hpower, ?_⟩
        rw [Number.value_ofRat, div_eq_inv_mul, mul_assoc]
      | none =>
        obtain rfl := hpower rfl
        obtain rfl : n.value = value := by simpa [Node.valueAt] using hvalue
        simp [Node.valueAt, div_eq_inv_mul]
    · rw [hquotient, Sequence.firstsKeepSign_singleton]
      cases letter with
      | some name => trivial
      | none => exact fun hp => absurd (hpower rfl) hp
  · obtain rfl : letter = none := by simp_all
    have hquotient : (Node.group none n p).quotient divisor = powerQuotient divisor n p := by
      rw [Node.quotient, if_neg hplain]
    exact ⟨hquotient ▸ valueAt_powerQuotient point hvalue, hquotient ▸ isProduct_powerQuotient n p,
      fun _ => hquotient ▸ firstsKeepSign_powerQuotient point n p⟩

/-- The quotient of what is in parentheses, as a factor, has not lost its sign: anything but a lone
fraction is put in parentheses or was a lone term before. -/
theorem keepsSign_asFactor {b : List Node} {content : Rat}
    (hcontent : Sequence.valueAt point b = some content)
    (hterm : (Sequence.asFactor (sumQuotient divisor (Sequence.quotients divisor b))).isTerm = true)
    (hfraction : ∀ t d, b = [.fraction t d] →
      Sequence.FirstsKeepSign point true ((Node.fraction t d).quotient divisor)) :
    (Sequence.asFactor (sumQuotient divisor (Sequence.quotients divisor b))).KeepsSign point := by
  generalize hout : sumQuotient divisor (Sequence.quotients divisor b) = divided at hterm
  unfold Sequence.asFactor at hterm ⊢
  split at hterm
  · rename_i q
    obtain ⟨node, rfl, hquotient⟩ := eq_singleton_of_sumQuotient point hcontent hterm hout
    cases node with
    | fraction t d =>
      have hfirst := hfraction t d rfl
      rwa [hquotient, Sequence.firstsKeepSign_singleton] at hfirst
    | _ => exact Node.keepsSign_of_quotient_eq_singleton point (by simp) hquotient
  · trivial

theorem isQuotient_paren {b p : List Node} {negative : Bool} {value : Rat}
    (h : DividesExactly point (Node.paren b p negative).reached)
    (hnodes : ∀ node ∈ b, ∀ v, node.valueAt point = some v → IsQuotient point divisor node v)
    (hvalue : (Node.paren b p negative).valueAt point = some value) :
    IsQuotient point divisor (.paren b p negative) value := by
  obtain ⟨content, _, _, hcontent, -⟩ := (Node.valueAt_paren_eq_some point).1 hvalue
  have hbody : Sequence.reached b ⊆ (Node.paren b p negative).reached := by simp [Node.reached]
  have hdivided := valueAt_sumQuotient point divisor
    (fun op hop => h.operators op (hbody (Sequence.subset_reached b hop)))
    (fun node hnode v hv => ⟨(hnodes node hnode v hv).valueAt, (hnodes node hnode v hv).isProduct⟩)
    hcontent
  have hterm := Node.isTerm_of_valueAt point (Sequence.valueAt_asFactor point hdivided)
  have hkeeps (hsigns : ∀ t d, b = [.fraction t d] →
      NumeratorsKeepSign point (Node.fraction t d).reached) :=
    keepsSign_asFactor point hcontent hterm fun t d hb => by
      subst hb
      rw [Sequence.valueAt_singleton] at hcontent
      exact (hnodes _ (.head _) _ hcontent).keepsSign (hsigns t d rfl)
  have hproduct : Sequence.IsProduct ((Node.paren b p negative).quotient divisor) :=
    isProduct_parenQuotient hterm
      (Node.isTerm_of_valueAt point (Sequence.valueAt_asFactor point hcontent))
  refine ⟨?_, hproduct, fun hsigns => ?_⟩
  · refine valueAt_parenQuotient point hcontent hdivided (fun hnegative exponent hone hp => ?_) hvalue
    subst hnegative
    refine (hkeeps fun t d hb => ?_).turns point
    exact h.signs t d p exponent (by simp [Node.reached, hb]) hp hone
  · refine firstsKeepSign_parenQuotient point hproduct hterm (hkeeps fun t d hb t' b' hmem => ?_)
    refine hsigns t' b' (hbody (Sequence.reached_subset ?_ hmem))
    simp [hb]

theorem isQuotient_fraction {t b : List Node} {value : Rat}
    (h : DividesExactly point (Node.fraction t b).reached)
    (hnodes : ∀ node ∈ t, ∀ v, node.valueAt point = some v → IsQuotient point divisor node v)
    (hvalue : (Node.fraction t b).valueAt point = some value) :
    IsQuotient point divisor (.fraction t b) value := by
  obtain ⟨top, bottom, ht, hb, hne, rfl⟩ := (Node.valueAt_fraction_eq_some point).1 hvalue
  have htop : Sequence.reached t ⊆ (Node.fraction t b).reached := by simp [Node.reached]
  have hoperators : Sequence.OnlyAddsAndMultiplies t := fun op hop =>
    h.operators op (htop (Sequence.subset_reached t hop))
  have hdivided := valueAt_sumQuotient point divisor hoperators
    (fun node hnode v hv => ⟨(hnodes node hnode v hv).valueAt, (hnodes node hnode v hv).isProduct⟩) ht
  refine ⟨?_, Sequence.isProduct_singleton rfl, fun hsigns => ?_⟩
  · rw [Node.quotient, Sequence.valueAt_singleton, Node.valueAt_fraction_eq_some]
    exact ⟨_, bottom, hdivided, hb, hne, mul_div_assoc _ _ _⟩
  · refine (Sequence.firstsKeepSign_singleton point).2 (firstsKeepSign_sumQuotient point hoperators
      (fun node hnode hterm => ?_) (hsigns t b (Node.mem_reached_self _)))
    rcases Sequence.valueAt_of_mem point ht hnode with ⟨v, hv⟩ | ⟨op, rfl⟩
    · exact ⟨(hnodes node hnode v hv).isProduct, (hnodes node hnode v hv).keepsSign
        fun t' b' hmem => hsigns t' b' (htop (Sequence.reached_subset hnode hmem))⟩
    · cases hterm

/-- Every term is divided exactly where its signs are kept. -/
theorem Node.isQuotient {node : Node} {value : Rat} (h : DividesExactly point node.reached)
    (hvalue : node.valueAt point = some value) : IsQuotient point divisor node value := by
  induction node using Node.nested_induction generalizing value with
  | group => exact isQuotient_group point hvalue
  | paren b p negative ihb =>
    have hbody : Sequence.reached b ⊆ (Node.paren b p negative).reached := by simp [Node.reached]
    exact isQuotient_paren point h (fun node hnode v hv => ihb node hnode
      (h.mono point fun n hn => hbody (Sequence.reached_subset hnode hn)) hv) hvalue
  | fraction t b iht =>
    have htop : Sequence.reached t ⊆ (Node.fraction t b).reached := by simp [Node.reached]
    exact isQuotient_fraction point h (fun node hnode v hv => iht node hnode
      (h.mono point fun n hn => htop (Sequence.reached_subset hnode hn)) hv) hvalue
  | operator op => simp [Node.valueAt] at hvalue
  | relation r => simp [Node.valueAt] at hvalue

/-- Dividing a sequence divides its value. -/
theorem Sequence.valueAt_dividedBy_of_signs {nodes : List Node} {value : Rat}
    (h : DividesExactly point (Sequence.reached nodes))
    (hvalue : Sequence.valueAt point nodes = some value) :
    Sequence.valueAt point (Sequence.dividedBy divisor nodes) = some (divisor⁻¹ * value) := by
  refine valueAt_sumQuotient point divisor
    (fun op hop => h.operators op (Sequence.subset_reached nodes hop)) (fun node hnode v hv => ?_)
    hvalue
  have hquotient : IsQuotient point divisor node v :=
    Node.isQuotient point (h.mono point (Sequence.reached_subset hnode)) hv
  exact ⟨hquotient.valueAt, hquotient.isProduct⟩

/-! ## Plain sides -/

theorem Node.isPlain_of_mem_reached {node n : Node} (h : node.IsPlain x false)
    (hn : n ∈ node.reached) : n.IsPlain x false := by
  induction node using Node.nested_induction with
  | paren b p negative ihb =>
    rcases List.mem_cons.1 hn with rfl | hn
    · exact h
    · obtain ⟨node, hnode, hn⟩ := Sequence.mem_reached.1 hn
      exact ihb node hnode (Sequence.isPlain_iff.1 h.1 node hnode) hn
  | fraction t b iht =>
    rcases List.mem_cons.1 hn with rfl | hn
    · exact h
    · obtain ⟨node, hnode, hn⟩ := Sequence.mem_reached.1 hn
      exact iht node hnode (Sequence.isPlain_iff.1 h.1 node hnode) hn
  | _ => exact List.mem_singleton.1 hn ▸ h

/-- A positive power of zero is zero. -/
theorem Node.keepsSign_of_isPlain {node : Node} (h : node.IsPlain x false) :
    node.KeepsSign point := by
  induction node using Node.nested_induction with
  | group letter n p =>
    cases letter with
    | some name => trivial
    | none =>
      obtain ⟨-, exponent, hp⟩ := h
      intro _ hzero v hv
      rw [Node.valueAt_number point hp] at hv
      simpa [Number.signedPower, Number.isZero_iff.1 hzero, hp.pos.ne', eq_comm] using hv
  | fraction t b iht =>
    exact (Sequence.firstsKeepSign_iff point).2 (.of_forall true fun node hnode =>
      iht node hnode (Sequence.isPlain_iff.1 h.1 node hnode))
  | _ => trivial

/-- Dividing a plain side divides its value. -/
theorem Sequence.valueAt_dividedBy {nodes : List Node} {value : Rat}
    (hplain : Sequence.IsPlain x false nodes) (h : Sequence.valueAt point nodes = some value) :
    Sequence.valueAt point (Sequence.dividedBy divisor nodes) = some (divisor⁻¹ * value) := by
  have hreached {node : Node} (hmem : node ∈ Sequence.reached nodes) : node.IsPlain x false := by
    obtain ⟨n, hn, hmem⟩ := Sequence.mem_reached.1 hmem
    exact Node.isPlain_of_mem_reached (Sequence.isPlain_iff.1 hplain n hn) hmem
  refine Sequence.valueAt_dividedBy_of_signs point ⟨fun op hop => ?_, ?_⟩ h
  · obtain ⟨hsubtract, hdivide⟩ := hreached hop
    cases op <;> simp_all
  · intro t b p _ hmem _ _ t' b' hfraction
    have hlone := (hreached hmem).1.1
    have htop := (Node.isPlain_of_mem_reached hlone hfraction).1
    exact (Sequence.firstsKeepSign_iff point).2 (.of_forall true fun node hnode =>
      Node.keepsSign_of_isPlain point (Sequence.isPlain_iff.1 htop node hnode))

end

end OneUnknown
