import OneUnknown.Proofs.EvenDivision
import OneUnknown.Proofs.Heights
import OneUnknown.Proofs.Retracing
/-!
# Clean nodes in place of others

Where a pass puts nodes in the place of others, they are as clean as those, and no higher.  This is
so for any sequence that it is given, whether it has a value or not.

* `Sequence.Yields`: some nodes in place of others, wherever they stand;
* `Sequence.SideYields`: a side in place of another one;
* `FractionsWritten.yields`, `Node.yields_withFractions`: divisions that become fractions;
* `Node.yields_quotient`, `Sequence.sideYields_dividedBy`: division by a common divisor;
* `FractionSpot.yields_cleared`: a fraction that is cleared;
* `Sequence.yields_multiplied`: products of groups;
* `Sequence.sideYields_collected`, `Sequence.sideYields_withoutZeros`: like terms.
-/

namespace OneUnknown

/-- Nodes that may take the place of others: what was clean stays so, and nothing gets higher. -/
structure Sequence.Yields (nodes out : List Node) : Prop where
  clean : ∀ pre post, Sequence.IsClean (pre ++ (nodes ++ post)) →
    Sequence.IsClean (pre ++ (out ++ post))
  height : ∀ pre post, Sequence.height (pre ++ (out ++ post)) ≤
    Sequence.height (pre ++ (nodes ++ post))

/-- The same for whole sides. -/
structure Sequence.SideYields (side out : List Node) : Prop where
  clean : Sequence.IsClean side → Sequence.IsClean out
  height : Sequence.height out ≤ Sequence.height side

namespace Sequence

variable {nodes out side : List Node} {node : Node}

namespace Yields

theorem refl (nodes : List Node) : Yields nodes nodes :=
  ⟨fun _ _ h => h, fun _ _ => Nat.le_refl _⟩

theorem trans {out' : List Node} (h : Yields nodes out) (h' : Yields out out') :
    Yields nodes out' :=
  ⟨fun pre post hclean => h'.clean pre post (h.clean pre post hclean),
    fun pre post => (h'.height pre post).trans (h.height pre post)⟩

theorem append {left left' right right' : List Node} (hleft : Yields left left')
    (hright : Yields right right') : Yields (left ++ right) (left' ++ right') where
  clean := by
    intro pre post h
    have hfirst := hleft.clean pre (right ++ post) (by simpa using h)
    simpa using hright.clean (pre ++ left') post (by simpa using hfirst)
  height := by
    intro pre post
    have hfirst := hleft.height pre (right ++ post)
    have hsecond := hright.height (pre ++ left') post
    simp only [List.append_assoc] at hfirst hsecond ⊢
    exact hsecond.trans hfirst

theorem cons {rest rest' : List Node} {node' : Node} (hnode : Yields [node] [node'])
    (hrest : Yields rest rest') : Yields (node :: rest) (node' :: rest') :=
  hnode.append hrest

/-- Anything clean can take the place of a term, if it does not divide and is no higher. -/
theorem of_term (hterm : node.isTerm = true) (hclean : node.IsClean → IsClean out)
    (hlow : AreLow node.height out) : Yields [node] out where
  clean := fun _ _ h => h.replace hterm (hclean (h.of_mem (by simp)))
  height := height_le_in_context fun divisions tallest post => by
    rw [List.singleton_append, heightFrom_term _ _ hterm]
    exact heightFrom_append_low hlow

/-- One term in place of another. -/
theorem single {node' : Node} (hterm : node.isTerm = true) (hterm' : node'.isTerm = true)
    (hclean : node.IsClean → node'.IsClean) (hheight : node'.height ≤ node.height) :
    Yields [node] [node'] := by
  refine .of_term hterm (fun h => isClean_singleton.2 (hclean h))
    (List.forall_mem_singleton.2 ⟨?_, hheight⟩)
  rintro rfl
  cases hterm'

/-- One term in place of two with an operator between them. -/
theorem fold {first last folded : Node} {op : Operator} (hfirst : first.isTerm = true)
    (hlast : last.isTerm = true) (hclean : first.IsClean → last.IsClean → folded.IsClean)
    (hheight : ∀ divisions tallest post, heightFrom divisions tallest (folded :: post) ≤
      heightFrom divisions tallest (first :: .operator op :: last :: post)) :
    Yields [first, .operator op, last] [folded] where
  clean := by
    intro pre post h
    obtain ⟨hpre, ⟨hfirstClean, -, -, -, hlastClean, hafter, hpost⟩, hbefore⟩ := isClean_append.1 h
    refine isClean_append.2 ⟨hpre, ⟨hclean hfirstClean hlastClean, fun _ => hafter hlast, hpost⟩,
      fun before hmem _ _ hterm => ?_⟩
    have hnone := hbefore before hmem first rfl hterm
    rw [hfirst] at hnone
    cases hnone
  height := height_le_in_context hheight

theorem sideYields (h : Yields nodes out) : SideYields nodes out where
  clean := by simpa using h.clean [] []
  height := by simpa using h.height [] []

end Yields

namespace SideYields

theorem refl (side : List Node) : SideYields side side := ⟨id, Nat.le_refl _⟩

theorem trans {out' : List Node} (h : SideYields side out) (h' : SideYields out out') :
    SideYields side out' :=
  ⟨fun hclean => h'.clean (h.clean hclean), h'.height.trans h.height⟩

/-- A summand in place of its side. -/
theorem of_mem_summands {part : List Node} (h : part ∈ summands side) : SideYields side part :=
  ⟨fun hclean => hclean.of_mem_summands h, height_le_of_mem_summands h⟩

/-- A number in place of anything. -/
theorem constant (side : List Node) (value : Rat) : SideYields side [Node.constant value] :=
  ⟨fun _ => isClean_constant value, Nat.zero_le _⟩

/-- A side that is put together from parts. -/
theorem of_parts {parts : List (List Node)} (h : ∀ part ∈ parts, SideYields side part) :
    SideYields side (join parts) :=
  ⟨fun hclean => isClean_join fun part hpart => (h part hpart).clean hclean,
    height_join_le fun part hpart => (h part hpart).height⟩

/-- A side whose summands are changed one by one. -/
theorem of_forall₂ {parts : List (List Node)}
    (h : List.Forall₂ SideYields (summands side) parts) : SideYields side (join parts) := by
  refine .of_parts fun part hpart => ?_
  obtain ⟨old, hold, hyields⟩ := exists_right_of_forall₂ h.flip hpart
  exact (of_mem_summands hold).trans hyields

theorem of_map {change : List Node → List Node} (h : ∀ part, SideYields part (change part)) :
    SideYields side (join ((summands side).map change)) :=
  .of_forall₂ (List.forall₂_map_right_iff.2 (List.forall₂_same.2 fun part _ => h part))

end SideYields

end Sequence

/-! ## The other sign -/

theorem Sequence.yields_negated_node (node : Node) : Sequence.Yields [node] [node.negated] := by
  by_cases hterm : node.isTerm = true
  · exact .single hterm ((Node.isTerm_negated node).trans hterm) Node.isClean_negated
      (Node.height_negated node).le
  · cases node with
    | operator | relation => exact .refl _
    | _ => exact absurd rfl hterm

theorem Sequence.yields_negatedSummand (part : List Node) :
    Sequence.Yields part (Sequence.negatedSummand part) := by
  cases part with
  | nil => exact .refl _
  | cons node rest => exact .cons (Sequence.yields_negated_node node) (.refl rest)

theorem Sequence.sideYields_negated (side : List Node) :
    Sequence.SideYields side (Sequence.negated side) :=
  ⟨Sequence.isClean_negated, (Sequence.height_negated side).le⟩

/-! ## Divisions as fractions -/

theorem Sequence.heightFrom_fraction {top bottom : Node} (htop : top.isTerm = true)
    (hbottom : bottom.isTerm = true) (divisions tallest : Nat) (post : List Node) :
    Sequence.heightFrom divisions tallest (.fraction [top] [bottom] :: post) ≤
      Sequence.heightFrom divisions tallest (top :: .operator .divide :: bottom :: post) := by
  rw [Sequence.heightFrom_term _ _ rfl, Sequence.heightFrom_term _ _ htop,
    Sequence.heightFrom_divide, Sequence.heightFrom_term _ _ hbottom, Node.height]
  have htopHeight := Sequence.height_singleton htop
  have hbottomHeight := Sequence.height_singleton hbottom
  rw [Sequence.height] at htopHeight hbottomHeight
  rw [htopHeight, hbottomHeight]
  exact (Sequence.heightFrom_mono (Nat.le_refl _) (by omega)).trans
    (Sequence.heightFrom_succ_tallest _ _ _)

/-- A fraction in place of a division. -/
theorem Sequence.yields_fraction {top bottom : Node} (htop : top.isTerm = true)
    (hbottom : bottom.isTerm = true) (hover : top.over bottom = .ok (.fraction [top] [bottom])) :
    Sequence.Yields [top, .operator .divide, bottom] [.fraction [top] [bottom]] := by
  have hsome : (Node.fraction? [top] [bottom]).isSome = true := by
    unfold Node.over at hover
    split at hover
    · rename_i heq
      rw [heq]
      rfl
    · cases hover
  exact .fold htop hbottom
    (fun ht hb => ⟨Sequence.isClean_singleton.2 ht, Sequence.isClean_singleton.2 hb, hsome⟩)
    (Sequence.heightFrom_fraction htop hbottom)

theorem FractionsWritten.yields {held : Option Node} {rest out : List Node}
    (h : FractionsWritten held rest out)
    (hrest : ∀ node ∈ rest, ∀ node', node.withFractions = .ok node' →
      Sequence.Yields [node] [node']) : Sequence.Yields (held.toList ++ rest) out := by
  induction h with
  | nil held => simpa using .refl held.toList
  | @divide top bottom bottom' rest out htop hterm hbottom hover _ ih =>
    have hdenominator : Sequence.Yields ([top, .operator .divide] ++ ([bottom] ++ rest))
        ([top, .operator .divide] ++ ([bottom'] ++ rest)) :=
      (Sequence.Yields.refl _).append
        ((hrest bottom (.tail _ (.head _)) bottom' hbottom).append (.refl rest))
    have hwritten : Sequence.Yields ([top, .operator .divide, bottom'] ++ rest)
        ([.fraction [top] [bottom']] ++ rest) :=
      (Sequence.yields_fraction htop hterm hover).append (.refl rest)
    exact (hdenominator.trans hwritten).trans (ih fun n hn => hrest n (.tail _ (.tail _ hn)))
  | @next held node node' rest out hdivide hnode _ ih =>
    have hfirst : Sequence.Yields (node :: rest) (node' :: rest) :=
      .cons (hrest node (.head _) node' hnode) (.refl rest)
    exact (Sequence.Yields.refl _).append (hfirst.trans (ih fun n hn => hrest n (.tail _ hn)))

theorem Node.yields_withFractions {node node' : Node} (h : node.withFractions = .ok node') :
    Sequence.Yields [node] [node'] := by
  induction node using Node.nested_induction generalizing node' with
  | paren b p negative ihb =>
    obtain ⟨body, hbody, rfl⟩ := Node.eq_paren_of_withFractions h
    have hinner : Sequence.SideYields b body :=
      ((FractionsWritten.of_withFractionsAfter hbody).yields fun n hn _ => ihb n hn).sideYields
    refine .single rfl rfl (fun hclean => ⟨hinner.clean hclean.1, hclean.2⟩) ?_
    rw [Node.height, Node.height]
    exact Nat.succ_le_succ hinner.height
  | _ => exact Except.ok.inj h ▸ .refl _

/-! ## Factors -/

theorem Node.height_paren (b p : List Node) (negative : Bool) :
    (Node.paren b p negative).height = Sequence.height b + 1 := by rw [Node.height, Sequence.height]

theorem Node.height_fraction (t b : List Node) :
    (Node.fraction t b).height = max (Sequence.height t) (Sequence.height b) + 1 := by
  rw [Node.height, Sequence.height, Sequence.height]

theorem Sequence.isClean_asFactor {nodes : List Node} (h : Sequence.IsClean nodes) :
    (Sequence.asFactor nodes).IsClean := by
  unfold Sequence.asFactor
  split
  · exact h.1
  · exact ⟨h, trivial⟩

/-- A sequence as one factor is as high as a parenthesis around it, or lower. -/
theorem Sequence.height_asFactor_le (nodes : List Node) :
    (Sequence.asFactor nodes).height ≤ Sequence.height nodes + 1 := by
  unfold Sequence.asFactor
  split
  · exact (Sequence.height_le_of_mem (.head _) 0 0).trans (Nat.le_succ _)
  · exact (Node.height_paren _ _ _).le

theorem Sequence.areLow_asFactor {nodes : List Node} (h : nodes ≠ [.operator .divide]) :
    Sequence.AreLow (Sequence.height nodes + 1) [Sequence.asFactor nodes] := by
  refine List.forall_mem_singleton.2 ⟨?_, Sequence.height_asFactor_le nodes⟩
  unfold Sequence.asFactor
  split
  · exact fun heq => h (by rw [heq])
  · simp

theorem isClean_remainingPower (exponent : Nat) : Sequence.IsClean (remainingPower exponent) := by
  rw [remainingPower]
  split
  · trivial
  · exact Sequence.isClean_constant _

theorem Group.isClean_powerOf (exponent : Rat) : Sequence.IsClean (Group.powerOf exponent) := by
  rw [Group.powerOf]
  split
  · trivial
  · exact Sequence.isClean_constant _

theorem Sequence.isClean_product {first second : Node} (hfirst : first.IsClean)
    (hsecond : second.IsClean) : Sequence.IsClean [first, .operator .multiply, second] :=
  (Sequence.isClean_append_operator (by decide)).2
    ⟨Sequence.isClean_singleton.2 hfirst, Sequence.isClean_singleton.2 hsecond⟩

theorem Sequence.AreLow.product {bound : Nat} {first second : Node}
    (hfirst : Sequence.AreLow bound [first]) (hsecond : Sequence.AreLow bound [second]) :
    Sequence.AreLow bound [first, .operator .multiply, second] :=
  List.forall_mem_cons.2 ⟨hfirst _ (.head _), List.forall_mem_cons.2
    ⟨⟨by simp, by simp [Node.height]⟩, hsecond⟩⟩

theorem Sequence.areLow_group (bound : Nat) (letter : Option Char) (n : Number) (p : List Node) :
    Sequence.AreLow bound [.group letter n p] :=
  List.forall_mem_singleton.2 ⟨by simp, by simp [Node.height]⟩

theorem Sequence.AreLow.negated {bound : Nat} {node : Node} (h : Sequence.AreLow bound [node]) :
    Sequence.AreLow bound [node.negated] := by
  refine List.forall_mem_singleton.2 ⟨fun heq => ?_, ?_⟩
  · cases node <;> cases heq
    exact (h _ (.head _)).1 rfl
  · rw [Node.height_negated]
    exact (h _ (.head _)).2

/-! ## Quotients -/

section

variable {divisor : Rat}

/-- In a summand with a factor that divides evenly, such a factor is divided. -/
theorem productQuotient_even {part : List Node}
    (h : ∃ node ∈ part, node.dividesEvenly divisor = true) :
    ∃ pre node post, part = pre ++ ([node] ++ post) ∧ node.dividesEvenly divisor = true ∧
      productQuotient divisor (part.map fun node => (node, node.quotient divisor)) =
        pre ++ (node.quotient divisor ++ post) := by
  rw [productQuotient]
  split
  · rename_i replaced hreplaced
    obtain ⟨pre, node, post, hpart, hnode, rfl⟩ := replaceFirst?_map_eq_some hreplaced
    exact ⟨pre, node, post, hpart, (Bool.and_eq_true_iff.1 hnode).2, List.append_assoc ..⟩
  · rename_i hnone
    obtain ⟨node, hnode, heven⟩ := h
    have hfalse := replaceFirst?_map_eq_none hnone node hnode
    simp [heven, Node.isTerm_of_dividesEvenly heven] at hfalse

theorem Sequence.yields_scaledQuotient {node : Node} (hterm : node.isTerm = true) :
    Sequence.Yields [node] (scaledQuotient divisor node) := by
  rcases scaledQuotient_cases divisor node with ⟨g, value, -, -, heq⟩ | heq <;> rw [heq]
  · exact .of_term hterm (fun _ => Sequence.isClean_constant _) (Sequence.areLow_group _ _ _ _)
  · refine .of_term hterm (Sequence.isClean_product trivial)
      ((Sequence.areLow_group _ _ _ _).product (List.forall_mem_singleton.2 ⟨?_, Nat.le_refl _⟩))
    rintro rfl
    cases hterm

theorem Sequence.yields_powerQuotient {n : Number} {p : List Node} :
    Sequence.Yields [.group none n p] (powerQuotient divisor n p) := by
  rcases powerQuotient_cases divisor n p with
    heq | ⟨-, heq⟩ | ⟨exponent, divided, -, -, hdivided, heq⟩ <;> rw [heq]
  · exact Sequence.yields_scaledQuotient rfl
  · exact .single rfl rfl (fun _ => trivial) (Nat.zero_le _)
  · have hyields : Sequence.Yields [.group none n p] divided := by
      rcases hdivided with ⟨rfl, -⟩ | rfl
      · exact .single rfl rfl (fun _ => isClean_remainingPower _) (Nat.zero_le _)
      · exact .of_term rfl
          (fun _ => Sequence.isClean_product trivial (isClean_remainingPower _))
          ((Sequence.areLow_group _ _ _ _).product (Sequence.areLow_group _ _ _ _))
    split
    · exact hyields.trans (Sequence.yields_negatedSummand divided)
    · exact hyields

theorem Sequence.yields_parenQuotient {divided body p : List Node} {negative : Bool}
    (hdivided : Sequence.SideYields body divided) (hbody : body ≠ [.operator .divide])
    (hquotient : divided ≠ [.operator .divide]) :
    Sequence.Yields [.paren body p negative]
      (parenQuotient divisor divided body p negative) := by
  have hlow {nodes : List Node} (hyields : Sequence.SideYields body nodes)
      (hne : nodes ≠ [.operator .divide]) :
      Sequence.AreLow (Node.paren body p negative).height [Sequence.asFactor nodes] := by
    rw [Node.height_paren]
    exact fun node hnode => ((Sequence.areLow_asFactor hne) node hnode).imp_right
      fun h => h.trans (Nat.succ_le_succ hyields.height)
  rcases parenQuotient_cases divisor divided body p negative with
    heq | ⟨-, heq⟩ | ⟨exponent, remaining, -, -, hremaining, heq⟩ <;> rw [heq]
  · exact Sequence.yields_scaledQuotient rfl
  · refine .single rfl rfl (fun h => ⟨hdivided.clean h.1, trivial⟩) ?_
    rw [Node.height_paren, Node.height_paren]
    exact Nat.succ_le_succ hdivided.height
  · refine .of_term rfl (fun h => Sequence.isClean_product ?_ ?_) (.product ?_ ?_)
    · have hfactor := Sequence.isClean_asFactor (hdivided.clean h.1)
      split
      · exact Node.isClean_negated hfactor
      · exact hfactor
    · rcases hremaining with ⟨-, rfl⟩ | rfl
      · exact Sequence.isClean_asFactor h.1
      · exact ⟨h.1, isClean_remainingPower _⟩
    · split
      · exact (hlow hdivided hquotient).negated
      · exact hlow hdivided hquotient
    · rcases hremaining with ⟨-, rfl⟩ | rfl
      · exact hlow (.refl body) hbody
      · exact List.forall_mem_singleton.2 ⟨by simp, by rw [Node.height_paren, Node.height_paren]⟩

theorem scaledQuotient_ne_divide (node : Node) :
    ∃ n ∈ scaledQuotient divisor node, n ≠ .operator .divide := by
  rcases scaledQuotient_cases divisor node with ⟨g, value, -, -, heq⟩ | heq <;> rw [heq] <;>
    exact ⟨_, .head _, by simp [Node.constant, Group.toNode]⟩

/-- A quotient is no lone division. -/
theorem Node.quotient_ne_divide {node : Node} (hterm : node.isTerm = true) :
    ∃ n ∈ node.quotient divisor, n ≠ .operator .divide := by
  cases node with
  | group letter n p =>
    rw [Node.quotient]
    split
    · exact ⟨_, .head _, by simp⟩
    · rcases powerQuotient_cases divisor n p with
        heq | ⟨-, heq⟩ | ⟨_, divided, -, -, hdivided, heq⟩ <;> rw [heq]
      · exact scaledQuotient_ne_divide _
      · exact ⟨_, .head _, by simp [Node.constant, Group.toNode]⟩
      · rcases hdivided with ⟨rfl, -⟩ | rfl <;> split <;>
          exact ⟨_, .head _, by simp [Node.constant, Group.toNode, Node.negated]⟩
  | paren b p negative =>
    rw [Node.quotient]
    rcases parenQuotient_cases divisor (sumQuotient divisor (Sequence.quotients divisor b)) b p
      negative with heq | ⟨-, heq⟩ | ⟨_, _, -, -, -, heq⟩ <;> rw [heq]
    · exact scaledQuotient_ne_divide _
    · exact ⟨_, .head _, by simp⟩
    · exact ⟨.operator .multiply, by simp, by simp⟩
  | fraction t b => exact ⟨_, .head _, by simp⟩
  | operator | relation => cases hterm

theorem Sequence.DividesEvenly.sumQuotient_ne {nodes : List Node}
    (heven : Sequence.DividesEvenly divisor nodes) :
    sumQuotient divisor (Sequence.quotients divisor nodes) ≠ [.operator .divide] := by
  rw [sumQuotient, Sequence.quotients_eq_map, Sequence.summandsWith_map, List.map_map]
  refine Sequence.join_induction (motive := fun nodes => nodes ≠ [.operator .divide])
    (by simp [Node.constant, Group.toNode]) (fun left right _ _ heq => ?_) fun part hpart heq => ?_
  · have hmem : Node.operator .add ∈ [Node.operator .divide] := heq ▸ by simp
    simp at hmem
  · obtain ⟨old, hold, rfl⟩ := List.mem_map.1 hpart
    obtain ⟨pre, node, post, -, hnode, hquotient⟩ := productQuotient_even (heven old hold)
    obtain ⟨n, hn, hne⟩ : ∃ n ∈ node.quotient divisor, n ≠ .operator .divide :=
      Node.quotient_ne_divide (Node.isTerm_of_dividesEvenly hnode)
    rw [Function.comp_apply, hquotient] at heq
    have hmem : n ∈ pre ++ (node.quotient divisor ++ post) := by simp [hn]
    rw [heq] at hmem
    exact hne (List.mem_singleton.1 hmem)

theorem Sequence.sideYields_sumQuotient {nodes : List Node}
    (heven : Sequence.DividesEvenly divisor nodes)
    (h : ∀ node ∈ nodes, node.dividesEvenly divisor = true →
      Sequence.Yields [node] (node.quotient divisor)) :
    Sequence.SideYields nodes (sumQuotient divisor (Sequence.quotients divisor nodes)) := by
  rw [sumQuotient, Sequence.quotients_eq_map, Sequence.summandsWith_map, List.map_map]
  refine .of_forall₂ (List.forall₂_map_right_iff.2 (List.forall₂_same.2 fun part hpart => ?_))
  obtain ⟨pre, node, post, rfl, hnode, hquotient⟩ := productQuotient_even (heven part hpart)
  have hmem : node ∈ nodes := (Sequence.mem_of_mem_summands hpart (by simp)).1
  rw [Function.comp_apply, hquotient]
  exact ((Sequence.Yields.refl pre).append ((h node hmem hnode).append (.refl post))).sideYields

/-- The quotient of a term that divides evenly. -/
theorem Node.yields_quotient {node : Node} (heven : node.dividesEvenly divisor = true) :
    Sequence.Yields [node] (node.quotient divisor) := by
  induction node using Node.nested_induction with
  | group letter n p =>
    rw [Node.quotient]
    split
    · exact .single rfl rfl id (Nat.le_refl _)
    · rename_i hcase
      obtain ⟨rfl, -⟩ : letter = none ∧ p ≠ [] := by simpa using hcase
      exact Sequence.yields_powerQuotient
  | paren b p negative ihb =>
    have hbody := Node.dividesEvenly_paren.1 heven
    refine Sequence.yields_parenQuotient (Sequence.sideYields_sumQuotient hbody ihb) ?_
      hbody.sumQuotient_ne
    rintro rfl
    -- A lone division has no factor.
    obtain ⟨node, hnode, hdivides⟩ := hbody [.operator .divide] (by decide)
    obtain rfl := List.mem_singleton.1 hnode
    cases hdivides
  | fraction t b iht =>
    have htop := Sequence.sideYields_sumQuotient (Node.dividesEvenly_fraction.1 heven) iht
    refine .single rfl rfl (fun h => ⟨htop.clean h.1, h.2.1, ?_⟩) ?_
    · exact Node.fraction?_isSome_congr ▸ h.2.2
    · rw [Node.height_fraction, Node.height_fraction]
      exact Nat.succ_le_succ (max_le_max htop.height (Nat.le_refl _))
  | operator | relation => cases heven

theorem Sequence.sideYields_dividedBy {side : List Node}
    (heven : Sequence.DividesEvenly divisor side) :
    Sequence.SideYields side (Sequence.dividedBy divisor side) :=
  Sequence.sideYields_sumQuotient heven fun _ _ => Node.yields_quotient

end

/-! ## Fractions -/

theorem Sequence.sideYields_scaledSummand (factor : Rat) (part : List Node) :
    Sequence.SideYields part (scaledSummand factor part) := by
  cases part with
  | nil => exact .refl _
  | cons node rest =>
    rcases scaledSummand_cons factor node rest with ⟨letter, n, p, rfl, -, heq⟩ | heq
    · rw [heq]
      have hfirst : Sequence.Yields [.group letter n p]
          [.group letter (Number.ofRat (n.value * factor)) p] :=
        .single rfl rfl id (Nat.le_refl _)
      exact (hfirst.append (.refl rest)).sideYields
    · rw [heq]
      refine ⟨fun h => (Sequence.isClean_append_operator (by decide)).2
        ⟨Sequence.isClean_constant factor, h⟩, ?_⟩
      show Sequence.heightFrom 0 0 (Node.constant factor :: .operator .multiply :: node :: rest) ≤ _
      rw [Sequence.heightFrom_term _ _ rfl, Sequence.heightFrom_multiply]
      exact Nat.le_refl _

/-- What is left of a numerator. -/
theorem reduceFraction_yields {limit : Nat} {top bottom : List Node} {reduced : ReducedFraction}
    (h : reduceFraction limit top bottom = .ok reduced) :
    Sequence.SideYields top reduced.numerator := by
  obtain ⟨signed, positive, hsigned, hreduced⟩ := reduceFraction_cases h
  have hside : Sequence.SideYields top signed :=
    signedFraction_induction hsigned (.refl _) (fun value _ => .constant top value)
      fun nodes hnodes => hnodes.trans (Sequence.sideYields_negated nodes)
  rcases hreduced with rfl | ⟨common, ⟨hcommon, divisors, hdivisors, hgreatest⟩, rfl⟩
  · exact hside
  · exact hside.trans (Sequence.sideYields_dividedBy
      (Sequence.dividesEvenly_greatest hdivisors hgreatest hcommon))

namespace FractionSpot

variable {spot : FractionSpot}

/-- A node in place of another one in its summand, while the other summands are changed. -/
theorem forall₂_sideYields_fill (change : List Node → List Node) {old new : Node}
    (hchange : ∀ part, Sequence.SideYields part (change part))
    (hnode : Sequence.Yields [old] [new]) :
    List.Forall₂ Sequence.SideYields (spot.fill old)
      (spot.before.map change ++ (spot.leading ++ new :: spot.trailing) ::
        spot.after.map change) := by
  have hmap (parts : List (List Node)) :
      List.Forall₂ Sequence.SideYields parts (parts.map change) :=
    List.forall₂_map_right_iff.2 (List.forall₂_same.2 fun part _ => hchange part)
  have hown : Sequence.Yields (spot.leading ++ old :: spot.trailing)
      (spot.leading ++ new :: spot.trailing) :=
    (Sequence.Yields.refl _).append (.cons hnode (.refl _))
  exact List.rel_append (hmap _) (.cons hown.sideYields (hmap _))

/-- One step on a fraction. -/
theorem yields_cleared {limit : Nat} {side other out otherOut : List Node}
    (h : spot.cleared limit (Sequence.summands other) = .ok (out, otherOut))
    (hspot : Sequence.summands side = spot.fill (.fraction spot.top spot.bottom)) :
    Sequence.SideYields side out ∧ Sequence.SideYields other otherOut := by
  obtain ⟨reduced, hreduced, hcases⟩ := cleared_cases h
  have hnumerator := reduceFraction_yields hreduced
  have hfactor : Sequence.Yields [.fraction spot.top spot.bottom]
      [Sequence.asFactor reduced.numerator] := by
    have hterm := isTerm_asFactor_of_reduceFraction hreduced
    refine .single rfl hterm
      (fun hclean => Sequence.isClean_asFactor (hnumerator.clean hclean.1)) ?_
    have hlow := Sequence.height_asFactor_le reduced.numerator
    have hheight := hnumerator.height
    rw [Node.height_fraction]
    omega
  rcases hcases with ⟨node, hnode, rfl, rfl⟩ | ⟨rfl, rfl⟩
  · have hnew : Sequence.Yields [.fraction spot.top spot.bottom] [node] := by
      rcases hnode with ⟨-, rfl⟩ | ⟨⟨-, hsome⟩, rfl⟩
      · exact hfactor
      · refine .single rfl rfl
          (fun hclean => ⟨hnumerator.clean hclean.1, Sequence.isClean_constant _, hsome⟩) ?_
        rw [Node.height_fraction, Node.height_fraction, Sequence.height_constant]
        have := hnumerator.height
        omega
    refine ⟨.of_forall₂ (hspot ▸ ?_), .of_parts fun part hpart => .of_mem_summands hpart⟩
    simpa [fill] using forall₂_sideYields_fill id (fun _ => .refl _) hnew
  · exact ⟨.of_forall₂
        (hspot ▸ forall₂_sideYields_fill _ (Sequence.sideYields_scaledSummand _) hfactor),
      .of_map (Sequence.sideYields_scaledSummand _)⟩

end FractionSpot

/-! ## Products -/

theorem Group.isClean_resolved? {g resolved : Group} (h : g.resolved? = some resolved)
    (hg : Sequence.IsClean g.power) : Sequence.IsClean resolved.power := by
  rcases Group.resolved?_cases h with ⟨-, value, -, rfl⟩ | ⟨-, rfl⟩
  · trivial
  · exact hg

theorem Group.isClean_multiply {left right product : Group}
    (h : left.multiply right = .ok (some product)) (hleft : Sequence.IsClean left.power)
    (hright : Sequence.IsClean right.power) : Sequence.IsClean product.power := by
  obtain ⟨l, r, hl, hr, hcases⟩ := Group.multiply_cases h
  have hlclean := Group.isClean_resolved? hl hleft
  have hrclean := Group.isClean_resolved? hr hright
  rcases hcases with ⟨-, -, rfl⟩ | ⟨-, -, rfl⟩ | ⟨-, -, rfl⟩ | ⟨name, p, q, -, -, -, -, rfl⟩
  · trivial
  · exact hlclean
  · exact hrclean
  · exact Group.isClean_powerOf (p + q)

/-- The product of two groups in place of both. -/
theorem Sequence.yields_multiply {left right product : Node}
    (h : left.multiply right = .ok (some product)) :
    Sequence.Yields [left, .operator .multiply, right] [product] := by
  obtain ⟨l, r, g, hl, hr, hproduct, rfl⟩ := Node.multiply_eq_some h
  rw [← Group.toNode_of_asGroup? hl, ← Group.toNode_of_asGroup? hr]
  refine .fold rfl rfl (Group.isClean_multiply hproduct) fun divisions tallest post => ?_
  rw [Sequence.heightFrom_term _ _ rfl, Sequence.heightFrom_term _ _ rfl,
    Sequence.heightFrom_multiply, Sequence.heightFrom_term _ _ rfl]
  exact Sequence.heightFrom_mono (Nat.le_refl _) (by simp [Group.toNode, Node.height])

theorem ProductsFolded.yields {held : Node} {rest out : List Node}
    (h : ProductsFolded held rest out) : Sequence.Yields (held :: rest) out := by
  induction h with
  | nil => exact .refl _
  | fold hproduct _ ih =>
    exact ((Sequence.yields_multiply hproduct).append (.refl _)).trans ih
  | next _ _ ih => exact .cons (.refl _) ih

theorem Sequence.yields_multiplied {nodes out : List Node}
    (h : Sequence.multiplied nodes = .ok out) : Sequence.Yields nodes out := by
  cases nodes with
  | nil => exact Except.ok.inj h ▸ .refl _
  | cons node rest => exact (ProductsFolded.of_multipliedAfter h).yields

/-! ## Like terms -/

theorem Sequence.sideYields_collected (side : List Node) :
    Sequence.SideYields side (Sequence.collected side) := by
  refine .of_parts (Sequence.forall_mem_collectLike (fun g _ hg => ⟨fun hclean => ?_, Nat.zero_le _⟩)
    fun _ => .of_mem_summands)
  exact Sequence.isClean_singleton.2 (Sequence.isClean_singleton.1 (hg.clean hclean))

theorem Sequence.sideYields_withoutZeros (otherVariables : Bool) (side : List Node) :
    Sequence.SideYields side (Sequence.withoutZeros otherVariables side) :=
  .of_parts fun _ hpart => .of_mem_summands (List.mem_filter.1 hpart).1

end OneUnknown
