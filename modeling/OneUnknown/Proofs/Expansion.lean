import OneUnknown.Equation.Expansion
import OneUnknown.Proofs.Division
import OneUnknown.Proofs.LikeTerms
/-!
# Removing parentheses

* `GroupsMultiplied`, `distributed_cases`, `expandedSummand_cases`, `Group.raised_eq_ok`,
  `ParenSimplified`: what the functions do, said once;
* `loneParen?_spec`: a product with one parenthesis is the product of its groups with the content;
* `summandsOfParen_spec`, `distributedSummands_spec`, `expandedSummand_spec`: the summands that take
  the place of one summand;
* `Node.simplifies_simplified`: nodes whose contents are simplified, by induction on their depth;
* `Sides.scaled_expanded`: the pass on an equation.
-/

namespace OneUnknown

section

variable (point : Char → Rat) {x : Char}

/-! ## Products with one parenthesis -/

/-- The parentheses among some factors. -/
def parensOf (factors : List (List Node)) : List (List Node × List Node × Bool) :=
  factors.filterMap fun factor => match factor with
    | [.paren b p negative] => some (b, p, negative)
    | _ => none

/-- The groups among some factors. -/
def groupsOf (factors : List (List Node)) : List Group :=
  factors.filterMap fun factor => factor.head?.bind Node.asGroup?

/-- Whether a factor is a parenthesis or a group. -/
def IsParenOrGroup (factor : List Node) : Prop :=
  (∃ b p negative, factor = [.paren b p negative]) ∨ ∃ g : Group, factor = [g.toNode]

/-- A factor that is neither a parenthesis nor a group is missing from both lists. -/
theorem isParenOrGroup_of_length {factors : List (List Node)}
    (hsingle : ∀ factor ∈ factors, factor.length = 1) :
    (parensOf factors).length + (groupsOf factors).length ≤ factors.length ∧
      ((parensOf factors).length + (groupsOf factors).length = factors.length →
        ∀ factor ∈ factors, IsParenOrGroup factor) := by
  induction factors with
  | nil => exact ⟨le_rfl, fun _ factor hfactor => absurd hfactor List.not_mem_nil⟩
  | cons factor rest ih =>
    obtain ⟨hle, hparts⟩ := ih fun f hf => hsingle f (.tail _ hf)
    obtain ⟨node, rfl⟩ := List.length_eq_one_iff.1 (hsingle factor (.head _))
    have hcons (hnode : IsParenOrGroup [node])
        (hlength : (parensOf rest).length + (groupsOf rest).length = rest.length) :
        ∀ factor ∈ [node] :: rest, IsParenOrGroup factor := by
      intro factor hfactor
      rcases List.mem_cons.1 hfactor with rfl | hfactor
      · exact hnode
      · exact hparts hlength factor hfactor
    cases node with
    | group letter n p =>
      have hparens : parensOf ([.group letter n p] :: rest) = parensOf rest := rfl
      have hgroups : groupsOf ([.group letter n p] :: rest) = ⟨letter, n, p⟩ :: groupsOf rest := rfl
      rw [hparens, hgroups, List.length_cons, List.length_cons]
      exact ⟨by omega, fun hlength => hcons (.inr ⟨⟨letter, n, p⟩, rfl⟩) (by omega)⟩
    | paren body p negative =>
      have hparens : parensOf ([.paren body p negative] :: rest) =
        (body, p, negative) :: parensOf rest := rfl
      have hgroups : groupsOf ([.paren body p negative] :: rest) = groupsOf rest := rfl
      rw [hparens, hgroups, List.length_cons, List.length_cons]
      exact ⟨by omega, fun hlength => hcons (.inl ⟨body, p, negative, rfl⟩) (by omega)⟩
    | fraction t b =>
      have hparens : parensOf ([.fraction t b] :: rest) = parensOf rest := rfl
      have hgroups : groupsOf ([.fraction t b] :: rest) = groupsOf rest := rfl
      rw [hparens, hgroups, List.length_cons]
      exact ⟨by omega, fun hlength => by omega⟩
    | operator op =>
      have hparens : parensOf ([.operator op] :: rest) = parensOf rest := rfl
      have hgroups : groupsOf ([.operator op] :: rest) = groupsOf rest := rfl
      rw [hparens, hgroups, List.length_cons]
      exact ⟨by omega, fun hlength => by omega⟩
    | relation r =>
      have hparens : parensOf ([.relation r] :: rest) = parensOf rest := rfl
      have hgroups : groupsOf ([.relation r] :: rest) = groupsOf rest := rfl
      rw [hparens, hgroups, List.length_cons]
      exact ⟨by omega, fun hlength => by omega⟩

/-- A product of parentheses and groups is the product of the ones times the product of the
others. -/
theorem productAt_of_parts {factors : List (List Node)}
    (hparts : ∀ factor ∈ factors, IsParenOrGroup factor) {value : Rat}
    (h : Sequence.productAt point factors = some value) :
    ∃ a b, Sequence.productAt point ((groupsOf factors).map fun g => [g.toNode]) = some a ∧
      Sequence.productAt point
        ((parensOf factors).map fun (b, p, negative) => [.paren b p negative]) = some b ∧
      a * b = value := by
  induction factors generalizing value with
  | nil => exact ⟨1, 1, rfl, rfl, by simpa [Sequence.productAt] using h⟩
  | cons factor rest ih =>
    obtain ⟨v, w, hv, hw, rfl⟩ := (Sequence.productAt_cons_eq_some point).1 h
    obtain ⟨a, b, ha, hb, rfl⟩ := ih (fun f hf => hparts f (.tail _ hf)) hw
    rcases hparts factor (.head _) with ⟨body, p, negative, rfl⟩ | ⟨g, rfl⟩
    · exact ⟨a, v * b, ha, (Sequence.productAt_cons_eq_some point).2 ⟨v, b, hv, hb, rfl⟩,
        mul_left_comm a v b⟩
    · exact ⟨v * a, b, (Sequence.productAt_cons_eq_some point).2 ⟨v, a, hv, ha, rfl⟩, hb,
        mul_assoc v a b⟩

theorem loneParen?_eq_some {factors : List (List Node)} {body : List Node} {negative : Bool}
    {groups : List Group} (h : loneParen? factors = some (body, negative, groups)) :
    parensOf factors = [(body, [], negative)] ∧ groups = groupsOf factors ∧
      ∀ factor ∈ factors, IsParenOrGroup factor := by
  rw [loneParen?] at h
  split at h
  · rename_i b n hparens
    dsimp only at h
    split at h
    · rename_i hcase
      obtain ⟨rfl, rfl, rfl⟩ : b = body ∧ n = negative ∧ groupsOf factors = groups := by
        simpa [groupsOf] using h
      rw [Bool.and_eq_true, decide_eq_true_eq, List.all_eq_true] at hcase
      have hlength : (parensOf factors).length + (groupsOf factors).length = factors.length := by
        rw [show parensOf factors = [(b, [], n)] from hparens, ← hcase.2, Nat.add_comm]
        rfl
      exact ⟨hparens, rfl, (isParenOrGroup_of_length fun factor hfactor => by
        simpa using hcase.1 factor hfactor).2 hlength⟩
    · cases h
  · cases h

/-- A product with one parenthesis is worth the product of its groups with the content. -/
theorem loneParen?_spec {factors : List (List Node)} {body : List Node} {negative : Bool}
    {groups : List Group} (h : loneParen? factors = some (body, negative, groups))
    {value : Rat} (hvalue : Sequence.productAt point factors = some value) :
    ∃ a content, Sequence.productAt point (groups.map fun g => [g.toNode]) = some a ∧
      Sequence.valueAt point body = some content ∧
      (a * if negative then -content else content) = value := by
  obtain ⟨hparens, rfl, hparts⟩ := loneParen?_eq_some h
  obtain ⟨a, b, ha, hb, rfl⟩ := productAt_of_parts point hparts hvalue
  rw [hparens] at hb
  obtain ⟨v, w, hv, hw, rfl⟩ := (Sequence.productAt_cons_eq_some point).1 hb
  obtain rfl : 1 = w := by simpa [Sequence.productAt] using hw
  rw [Sequence.valueAt_singleton, Node.valueAt_paren point .one] at hv
  obtain ⟨content, hcontent, rfl⟩ := Option.map_eq_some_iff.1 hv
  refine ⟨a, content, ha, hcontent, ?_⟩
  simp

/-- The product of a group with others, one after the other. -/
inductive GroupsMultiplied : Group → List Group → Group → Prop where
  | nil (g : Group) : GroupsMultiplied g [] g
  | cons {start g first product : Group} {rest : List Group}
      (hfirst : start.multiply g = .ok (some first)) (tail : GroupsMultiplied first rest product) :
      GroupsMultiplied start (g :: rest) product

theorem GroupsMultiplied.of_productOf {start product : Group} {groups : List Group}
    (h : productOf start groups = .ok (some product)) : GroupsMultiplied start groups product := by
  induction groups generalizing start with
  | nil =>
    obtain rfl := Option.some.inj (Except.ok.inj h)
    exact .nil start
  | cons g rest ih =>
    obtain ⟨result, hresult, h⟩ := Except.bind_eq_ok.1 h
    cases result with
    | none => cases Except.pure_eq_ok.1 h
    | some first => exact .cons hresult (ih h)

theorem productOf_spec {start product : Group} {groups : List Group} (hstart : start.IsPlain x)
    (hgroups : ∀ g ∈ groups, g.IsPlain x) (h : productOf start groups = .ok (some product)) :
    product.IsPlain x ∧ ∃ a b, start.toNode.valueAt point = some a ∧
      Sequence.productAt point (groups.map fun g => [g.toNode]) = some b ∧
      product.toNode.valueAt point = some (a * b) := by
  replace h := GroupsMultiplied.of_productOf h
  induction h with
  | nil =>
    obtain ⟨-, exponent, hp⟩ := id hstart
    exact ⟨hstart, _, 1, Group.valueAt_toNode point hp, rfl, by
      rw [mul_one]; exact Group.valueAt_toNode point hp⟩
  | cons hmultiply _ ih =>
    obtain ⟨hg, hrest⟩ := List.forall_mem_cons.1 hgroups
    obtain ⟨hfirst, a, b, ha, hb, hab⟩ := Group.multiply_spec point hstart hg hmultiply
    obtain ⟨hplain, c, d, hc, hd, hcd⟩ := ih hfirst hrest
    obtain rfl : a * b = c := by simpa [hab] using hc
    refine ⟨hplain, a, b * d, ha, ?_, by rw [hcd, mul_assoc]⟩
    exact (Sequence.productAt_cons_eq_some point).2
      ⟨b, d, by rw [Sequence.valueAt_singleton, hb], hd, rfl⟩

theorem distributed_cases {multiplier : Group} {part out : List Node}
    (h : distributed multiplier part = .ok out) :
    (∃ node product, part = [node] ∧ multiplier.toNode.multiply node = .ok (some product) ∧
      out = [product]) ∨
    (multiplier.isConstant = true ∧ multiplier.coefficient = 1 ∧ out = part) ∨
    out = multiplier.toNode :: .operator .multiply :: part := by
  have hkept (h : (if multiplier.isConstant && multiplier.coefficient = 1 then pure part
      else pure (multiplier.toNode :: .operator .multiply :: part)) =
        (.ok out : Except SolveError (List Node))) :
      (multiplier.isConstant = true ∧ multiplier.coefficient = 1 ∧ out = part) ∨
        out = multiplier.toNode :: .operator .multiply :: part := by
    split at h
    · rename_i hone
      rw [Bool.and_eq_true, decide_eq_true_eq] at hone
      exact .inl ⟨hone.1, hone.2, (Except.pure_eq_ok.1 h).symm⟩
    · exact .inr (Except.pure_eq_ok.1 h).symm
  unfold distributed at h
  extract_lets continued at h
  split at h
  · rename_i node
    obtain ⟨result, hresult, h⟩ := Except.bind_eq_ok.1 h
    cases result with
    | none => exact .inr (hkept h)
    | some product =>
      exact .inl ⟨node, product, rfl, hresult, (Except.pure_eq_ok.1 h).symm⟩
  · exact .inr (hkept h)

/-- A group is distributed over a product. -/
theorem distributed_spec {multiplier : Group} {part out : List Node}
    (hmultiplier : multiplier.IsPlain x) (hplain : Sequence.IsPlain x false part)
    (hproduct : Sequence.IsProduct part) (h : distributed multiplier part = .ok out) :
    Sequence.IsPlain x false out ∧ ∀ point m v, multiplier.toNode.valueAt point = some m →
      Sequence.valueAt point part = some v → Sequence.valueAt point out = some (m * v) := by
  rcases distributed_cases h with ⟨node, product, rfl, hmultiply, rfl⟩ |
    ⟨hconstant, hone, rfl⟩ | rfl
  · refine ⟨⟨(Node.multiply_spec (everywhere 0) hmultiplier hplain.1 hmultiply).1, trivial⟩, ?_⟩
    intro point m v hm hv
    obtain ⟨-, a, b, ha, hb, hab⟩ := Node.multiply_spec point hmultiplier hplain.1 hmultiply
    rw [Sequence.valueAt_singleton] at hv ⊢
    obtain rfl : a = m := by simpa [ha] using hm
    obtain rfl : b = v := by simpa [hb] using hv
    exact hab
  · refine ⟨hplain, fun point m v hm hv => ?_⟩
    obtain ⟨hletter, hpower⟩ : multiplier.letter = none ∧ multiplier.power = [] := by
      simpa [Group.isConstant] using hconstant
    obtain ⟨u, hu, rfl⟩ := (Group.valueAt_eq_some_iff point fun _ => hpower).1 hm
    obtain rfl : 1 = u := by simpa [Group.unitOf, Group.key, hletter] using hu
    rw [hv, hone, one_mul, one_mul]
  · refine ⟨⟨hmultiplier, by simp [Node.IsPlain], hplain⟩, fun point m v hm hv => ?_⟩
    cases part with
    | nil => simp [Sequence.valueAt] at hv
    | cons node rest =>
      rcases Sequence.valueAt_of_mem point hv (.head _) with ⟨w, hw⟩ | ⟨op, rfl⟩
      · have hpair : Sequence.IsProduct [multiplier.toNode, .operator .multiply, node] :=
          Sequence.isProduct_pair rfl (Node.isTerm_of_valueAt point hw)
        exact Sequence.valueAt_exchange point [] m hproduct hpair (by simp) hw
          (Sequence.valueAt_pair point hm hw) hv
      · simp [Sequence.valueAt, Node.valueAt] at hv

/-! ## Summands -/

theorem expandedSummand_cases {part : List Node} {parts : List (List Node)}
    (h : expandedSummand part = .ok parts) :
    (∃ body negative, part = [.paren body [] negative] ∧ parts =
      if negative then (Sequence.summands body).map Sequence.negatedSummand
      else Sequence.summands body) ∨
    parts = [part] ∨
    ∃ body negative groups multiplier,
      loneParen? (Sequence.factors part) = some (body, negative, groups) ∧
        productOf (Group.constant 1) groups = .ok (some multiplier) ∧
        (Sequence.summands body).mapM
          (distributed (if negative then multiplier.negated else multiplier)) = .ok parts := by
  unfold expandedSummand at h
  split at h
  · rename_i body negative
    exact .inl ⟨body, negative, rfl, (Except.ok.inj h).symm⟩
  · split at h
    · exact .inr (.inl (Except.ok.inj h).symm)
    · rename_i body negative groups hlone
      obtain ⟨multiplier, hmultiplier, h⟩ := Except.bind_eq_ok.1 h
      cases multiplier with
      | none => exact .inr (.inl (Except.pure_eq_ok.1 h).symm)
      | some multiplier => exact .inr (.inr ⟨body, negative, groups, multiplier, hlone, hmultiplier, h⟩)

/-- A product of groups with one parenthesis: where its parts stand. -/
theorem mem_of_loneParen? {part body : List Node} {negative : Bool} {groups : List Group}
    (h : loneParen? (Sequence.factors part) = some (body, negative, groups)) :
    .paren body [] negative ∈ part ∧ ∀ g ∈ groups, g.toNode ∈ part := by
  obtain ⟨hparens, rfl, -⟩ := loneParen?_eq_some h
  constructor
  · have hmem : (body, [], negative) ∈ parensOf (Sequence.factors part) := by simp [hparens]
    obtain ⟨factor, hfactor, heq⟩ := List.mem_filterMap.1 hmem
    split at heq
    · obtain ⟨rfl, rfl, rfl⟩ := by simpa using heq
      exact (Sequence.mem_of_mem_splitOnP _ hfactor (.head _)).1
    · cases heq
  · intro g hg
    obtain ⟨factor, hfactor, heq⟩ := List.mem_filterMap.1 hg
    obtain ⟨node, hnode, hgroup⟩ := Option.bind_eq_some_iff.1 heq
    rw [Group.toNode_of_asGroup? hgroup]
    exact (Sequence.mem_of_mem_splitOnP _ hfactor (List.mem_of_mem_head? hnode)).1

/-- The content of a lone parenthesis and the groups beside it are plain. -/
theorem isPlain_of_loneParen? {part body : List Node} {negative : Bool} {groups : List Group}
    (hplain : Sequence.IsPlain x false part)
    (h : loneParen? (Sequence.factors part) = some (body, negative, groups)) :
    Sequence.IsPlain x false body ∧ ∀ g ∈ groups, g.IsPlain x := by
  obtain ⟨hparen, hgroups⟩ := mem_of_loneParen? h
  exact ⟨(Sequence.isPlain_iff.1 hplain _ hparen).1,
    fun g hg => Sequence.isPlain_iff.1 hplain _ (hgroups g hg)⟩

/-- The summands of a parenthesis, with the other sign if it is negative. -/
theorem summandsOfParen_spec {body : List Node} (hbody : Sequence.IsPlain x false body)
    (negative : Bool) {parts : List (List Node)}
    (hparts : parts = if negative then (Sequence.summands body).map Sequence.negatedSummand
      else Sequence.summands body) :
    (∀ part ∈ parts, Sequence.IsPlain x false part) ∧ ∀ point v,
      (Node.paren body [] negative).valueAt point = some v →
        Sequence.sumAt point parts = some v := by
  subst hparts
  refine ⟨fun part hpart => ?_, fun point v hv => ?_⟩
  · split at hpart
    · obtain ⟨old, hold, rfl⟩ := List.mem_map.1 hpart
      exact Sequence.isPlain_negatedSummand (Sequence.isPlain_of_mem_summands hbody hold)
    · exact Sequence.isPlain_of_mem_summands hbody hpart
  · rw [Node.valueAt_paren point .one] at hv
    obtain ⟨content, hcontent, rfl⟩ := Option.map_eq_some_iff.1 hv
    have hsum := Sequence.sumAt_summands point hcontent
    cases negative with
    | false => simpa using hsum
    | true =>
      rw [if_pos rfl, if_pos rfl, pow_one, ← neg_one_mul]
      refine Sequence.sumAt_map point _ (-1) (fun part hpart w hw => ?_) hsum
      rw [neg_one_mul]
      exact Sequence.valueAt_negatedSummand point
        (Sequence.isPlain_of_mem_summands hbody hpart)
        (Sequence.isProduct_of_mem_summands hbody hpart) hw

/-- A group with the other sign, if a parenthesis beside it is negative. -/
theorem Group.signed_spec {g : Group} (hg : g.IsPlain x) (negative : Bool) :
    (if negative then g.negated else g).IsPlain x ∧ ∀ point v,
      g.toNode.valueAt point = some v →
        (if negative then g.negated else g).toNode.valueAt point =
          some (if negative then -v else v) := by
  cases negative with
  | false => exact ⟨hg, fun _ _ hv => hv⟩
  | true => exact ⟨Node.isPlain_negated hg, fun point _ hv => Node.valueAt_negated point hg hv⟩

/-- Groups that are distributed over the summands of a parenthesis beside them. -/
theorem distributedSummands_spec {part body : List Node} {negative : Bool} {groups : List Group}
    {multiplier : Group} {parts : List (List Node)} (hplain : Sequence.IsPlain x false part)
    (hlone : loneParen? (Sequence.factors part) = some (body, negative, groups))
    (hmultiplier : productOf (Group.constant 1) groups = .ok (some multiplier))
    (hparts : (Sequence.summands body).mapM
      (distributed (if negative then multiplier.negated else multiplier)) = .ok parts) :
    (∀ part ∈ parts, Sequence.IsPlain x false part) ∧ ∀ point v, Sequence.IsProduct part →
      Sequence.valueAt point part = some v → Sequence.sumAt point parts = some v := by
  obtain ⟨hbody, hgroups⟩ := isPlain_of_loneParen? hplain hlone
  have hspec (point : Char → Rat) :=
    productOf_spec point (Group.isPlain_constant x 1) hgroups hmultiplier
  have hsigned := Group.signed_spec (hspec (everywhere 0)).1 negative
  have hdistributed {old new : List Node} (hmem : old ∈ Sequence.summands body)
      (hnew : distributed _ old = .ok new) :=
    distributed_spec hsigned.1 (Sequence.isPlain_of_mem_summands hbody hmem)
      (Sequence.isProduct_of_mem_summands hbody hmem) hnew
  refine ⟨fun new hnew => ?_, fun point v hproduct hv => ?_⟩
  · obtain ⟨old, hmem, hold⟩ := Except.exists_of_mem_mapM hparts hnew
    exact (hdistributed hmem hold).1
  · obtain ⟨a, content, ha, hcontent, rfl⟩ :=
      loneParen?_spec point hlone (Sequence.productAt_factors point hproduct hv)
    obtain ⟨-, one, b, hone, hb, hm⟩ := hspec point
    obtain rfl : b = a := by simpa [hb] using ha
    obtain rfl : one = 1 := by
      simpa [show (Group.constant 1).toNode = Node.constant 1 from rfl] using hone.symm
    rw [one_mul] at hm
    have := Sequence.sumAt_forall₂ point _
      ((Except.forall₂_of_mapM hparts).imp fun old new hnew w hw =>
        (hdistributed hnew.1 hnew.2).2 point _ w (hsigned.2 point b hm) hw)
      (Sequence.sumAt_summands point hcontent)
    cases negative <;> simpa using this

/-- The summands that take the place of a product have its value as their sum. -/
theorem expandedSummand_spec {part : List Node} {parts : List (List Node)}
    (hplain : Sequence.IsPlain x false part) (h : expandedSummand part = .ok parts) :
    (∀ part ∈ parts, Sequence.IsPlain x false part) ∧ ∀ point v, Sequence.IsProduct part →
      Sequence.valueAt point part = some v → Sequence.sumAt point parts = some v := by
  rcases expandedSummand_cases h with ⟨body, negative, rfl, hparts⟩ | rfl |
    ⟨body, negative, groups, multiplier, hlone, hmultiplier, hparts⟩
  · obtain ⟨hplainParts, hvalue⟩ := summandsOfParen_spec hplain.1.1 negative hparts
    refine ⟨hplainParts, fun point v _ hv => hvalue point v ?_⟩
    rwa [Sequence.valueAt_singleton] at hv
  · refine ⟨fun part hpart => List.mem_singleton.1 hpart ▸ hplain, fun point v _ hv => ?_⟩
    exact (Sequence.sumAt_cons_eq_some point).2 ⟨v, 0, hv, rfl, add_zero v⟩
  · exact distributedSummands_spec hplain hlone hmultiplier hparts

end

/-! ## Simplifying -/

/-- A sequence with variables is multiplied out and collected, and any other one is a number. -/
theorem simplifyWith_cases {simplify : Node → Except SolveError Node} {nodes out : List Node}
    (h : simplifyWith simplify nodes = .ok out) :
    (Sequence.hasVariable nodes = true ∧ ∃ multiplied expanded,
      Sequence.multiplied nodes = .ok multiplied ∧ expandWith simplify multiplied = .ok expanded ∧
      out = Sequence.collected expanded) ∨
    (Sequence.hasVariable nodes = false ∧ ∃ value, Sequence.evaluate nodes = .ok value ∧
      out = [Node.constant value]) := by
  unfold simplifyWith at h
  split at h
  · rename_i hvariable
    obtain ⟨multiplied, hmultiplied, h⟩ := Except.bind_eq_ok.1 h
    obtain ⟨expanded, hexpanded, h⟩ := Except.bind_eq_ok.1 h
    exact .inl ⟨hvariable, multiplied, expanded, hmultiplied, hexpanded,
      (Except.pure_eq_ok.1 h).symm⟩
  · rename_i hvariable
    obtain ⟨value, hvalue, h⟩ := Except.bind_eq_ok.1 h
    exact .inr ⟨by simpa using hvariable, value, hvalue, (Except.pure_eq_ok.1 h).symm⟩

/-- A simplification of nodes that keeps plain nodes plain, and their values. -/
structure Simplifies (x : Char) (simplify : Node → Except SolveError Node) : Prop where
  isPlain : ∀ node node', node.IsPlain x false → simplify node = .ok node' →
    node'.IsPlain x false
  valueAt : ∀ point node node' v, node.IsPlain x false → simplify node = .ok node' →
    node.valueAt point = some v → node'.valueAt point = some v
  operator : ∀ op node', simplify (.operator op) = .ok node' → node' = .operator op

namespace Simplifies

variable {x : Char} {simplify : Node → Except SolveError Node}

theorem isPlain_of_mapM (h : Simplifies x simplify) {part part' : List Node}
    (hplain : Sequence.IsPlain x false part) (hpart : part.mapM simplify = .ok part') :
    Sequence.IsPlain x false part' := by
  refine Sequence.isPlain_iff.2 fun node' hnode' => ?_
  obtain ⟨node, hnode, hsimplify⟩ := Except.exists_of_mem_mapM hpart hnode'
  exact h.isPlain node node' (Sequence.isPlain_iff.1 hplain node hnode) hsimplify

/-- A product with simplified factors is a product of the same value. -/
theorem valueAt_of_mapM (h : Simplifies x simplify) {part part' : List Node}
    (hplain : Sequence.IsPlain x false part) (hproduct : Sequence.IsProduct part)
    (hpart : part.mapM simplify = .ok part') {point : Char → Rat} {value : Rat}
    (hvalue : Sequence.valueAt point part = some value) :
    Sequence.valueAt point part' = some value ∧ Sequence.IsProduct part' := by
  have hnode {node node' : Node} (hmem : node ∈ part) (hsimplify : simplify node = .ok node') :
      (∃ op, node = .operator op ∧ node' = .operator op) ∨
        ∃ v, node.valueAt point = some v ∧ node'.valueAt point = some v := by
    rcases Sequence.valueAt_of_mem point hvalue hmem with ⟨v, hv⟩ | ⟨op, rfl⟩
    · exact .inr ⟨v, hv, h.valueAt point node node' v
        (Sequence.isPlain_iff.1 hplain node hmem) hsimplify hv⟩
    · exact .inl ⟨op, rfl, h.operator op node' hsimplify⟩
  constructor
  · rw [Sequence.valueAt_eq, Sequence.read_congr point
      ((Except.forall₂_of_mapM hpart).imp fun node node' hmem s => ?_), ← Sequence.valueAt_eq]
    · exact hvalue
    · rcases hnode hmem.1 hmem.2 with ⟨op, rfl, rfl⟩ | ⟨v, hv, hv'⟩
      · rfl
      · rw [Reading.next_of_valueAt point hv, Reading.next_of_valueAt point hv']
  · intro op hop
    obtain ⟨node, hmem, hsimplify⟩ := Except.exists_of_mem_mapM hpart hop
    rcases hnode hmem hsimplify with ⟨op', rfl, heq⟩ | ⟨v, -, hv⟩
    · obtain rfl := Node.operator.inj heq
      exact hproduct op hmem
    · simp [Node.valueAt] at hv

theorem expandWith_spec (h : Simplifies x simplify) {side out : List Node}
    (hside : Sequence.IsPlain x false side) (hout : expandWith simplify side = .ok out) :
    Sequence.IsPlain x false out ∧ ∀ point v, Sequence.valueAt point side = some v →
      Sequence.valueAt point out = some v := by
  obtain ⟨sums, hsums, hout⟩ := Except.bind_eq_ok.1 hout
  obtain rfl := Except.pure_eq_ok.1 hout
  constructor
  · refine Sequence.isPlain_join fun new hnew => ?_
    obtain ⟨sum, hsum, hmem⟩ := List.mem_flatten.1 hnew
    obtain ⟨part, hpart, hstep⟩ := Except.exists_of_mem_mapM hsums hsum
    obtain ⟨part', hpart', hexpand⟩ := Except.bind_eq_ok.1 hstep
    have hplain := h.isPlain_of_mapM (Sequence.isPlain_of_mem_summands hside hpart) hpart'
    exact (expandedSummand_spec hplain hexpand).1 new hmem
  · intro point v hv
    refine Sequence.valueAt_join point (Sequence.sumAt_flatten point
      ((Except.forall₂_of_mapM hsums).imp fun part sum hstep w hw => ?_)
      (Sequence.sumAt_summands point hv))
    obtain ⟨hpart, hstep⟩ := hstep
    obtain ⟨part', hpart', hexpand⟩ := Except.bind_eq_ok.1 hstep
    have hplain := Sequence.isPlain_of_mem_summands hside hpart
    obtain ⟨hvalue, hproduct⟩ := h.valueAt_of_mapM hplain
      (Sequence.isProduct_of_mem_summands hside hpart) hpart' hw
    exact (expandedSummand_spec (h.isPlain_of_mapM hplain hpart') hexpand).2 point w hproduct hvalue

theorem simplifyWith_spec (h : Simplifies x simplify) {nodes out : List Node}
    (hnodes : Sequence.IsPlain x false nodes) (hout : simplifyWith simplify nodes = .ok out) :
    Sequence.IsPlain x false out ∧ ∀ point v, Sequence.valueAt point nodes = some v →
      Sequence.valueAt point out = some v := by
  rcases simplifyWith_cases hout with ⟨-, multiplied, expanded, hmultiplied, hexpanded, rfl⟩ |
    ⟨-, value, hvalue, rfl⟩
  · have hplain := Sequence.isPlain_multiplied hmultiplied hnodes
    obtain ⟨hplain', hvalue⟩ := h.expandWith_spec hplain hexpanded
    refine ⟨Sequence.isPlain_collected hplain', fun point v hv => ?_⟩
    exact Sequence.valueAt_collected point (hvalue point v
      (Sequence.valueAt_multiplied point hmultiplied (Sequence.divide_not_mem hnodes) hv))
  · refine ⟨Sequence.isPlain_constant x false value, fun point v hv => ?_⟩
    rw [Sequence.valueAt_singleton, Node.valueAt_constant, ← hv,
      Sequence.valueAt_of_evaluate point hvalue]

end Simplifies

section

variable {x : Char}

/-- A group is raised if both exponents are positive whole numbers: the one it is raised to, and its
own. -/
theorem Group.raised_eq_ok {g raised : Group} {power : List Node} (h : g.raised power = .ok raised) :
    ∃ exponent own, positiveIntegerPower? power = some exponent ∧
      (if g.power.isEmpty then some 1 else positiveIntegerPower? g.power) = some own ∧
      raised = ⟨g.letter, Number.ofRat (Rational.wholePower g.coefficient exponent),
        Group.powerOf ((own : Rat) * (exponent : Rat))⟩ := by
  rw [Group.raised] at h
  split at h
  · rename_i exponent own hexponent hown
    exact ⟨exponent, own, hexponent, hown, (Except.ok.inj h).symm⟩
  · cases h

/-- A power of a group: `(c · x ^ e) ^ n` is `c ^ n · x ^ (e · n)`. -/
theorem Group.raised_spec {g raised : Group} {power : List Node} {exponent : Nat}
    (hg : g.IsPlain x) (hletter : g.letter.isSome = true) (hpower : WholePower power exponent)
    (hne : power ≠ []) (h : g.raised power = .ok raised) :
    raised.IsPlain x ∧ ∀ point v, g.toNode.valueAt point = some v →
      raised.toNode.valueAt point = some (v ^ exponent) := by
  obtain ⟨hname, e, he⟩ := hg
  obtain ⟨n, own, hn, hown, rfl⟩ := Group.raised_eq_ok h
  obtain rfl := hpower.positiveIntegerPower?_eq (by simpa [hne] using hn)
  obtain rfl := he.positiveIntegerPower?_eq hown
  have hwhole := Group.wholePower_powerOf (Nat.mul_pos he.pos hpower.pos)
  rw [Nat.cast_mul] at hwhole
  refine ⟨⟨hname, _, hwhole⟩, fun point v hv => ?_⟩
  rw [Group.valueAt_toNode point he] at hv
  obtain rfl := Option.some.inj hv
  obtain ⟨letter, m, p⟩ := g
  cases letter with
  | none => cases hletter
  | some name =>
    refine (Group.valueAt_toNode point (g := ⟨some name, _, _⟩) hwhole).trans ?_
    simp [Group.valueOf, Group.coefficient, mul_pow, pow_mul, Rational.wholePower_eq]

theorem Sequence.variableTerm?_eq_some {nodes : List Node} {g : Group}
    (h : Sequence.variableTerm? nodes = some g) :
    nodes = [g.toNode] ∧ g.letter.isSome = true := by
  unfold Sequence.variableTerm? at h
  split at h
  · obtain rfl := Option.some.inj h
    exact ⟨rfl, rfl⟩
  · cases h

/-- What becomes of a parenthesis whose content has been simplified: it is evaluated, kept, opened
around its only term, or multiplied out as the power of its only group. -/
inductive ParenSimplified (negative : Bool) : List Node → List Node → Node → Prop where
  | evaluated {body power : List Node} {value : Rat} (hbody : Sequence.hasVariable body = false)
      (hpower : Sequence.hasVariable power = false)
      (hvalue : Sequence.evaluate [.paren body power negative] = .ok value) :
      ParenSimplified negative body power (Node.constant value)
  | kept {body : List Node} (hbody : Sequence.hasVariable body = true) :
      ParenSimplified negative body [] (.paren body [] negative)
  | opened {single : Node} (hbody : Sequence.hasVariable [single] = true) (hterm : single.isTerm = true) :
      ParenSimplified negative [single] [] (if negative then single.negated else single)
  | raised {g raised : Group} {power : List Node} (hletter : g.letter.isSome = true)
      (hpower : power ≠ []) (hraised : g.raised power = .ok raised) :
      ParenSimplified negative [g.toNode] power
        (if negative then raised.negated else raised).toNode

theorem ParenSimplified.of_simplifiedParen {body power : List Node} {negative : Bool} {node : Node}
    (h : simplifiedParen body power negative = .ok node) :
    ParenSimplified negative body power node := by
  unfold simplifiedParen at h
  split at h
  · rename_i hnone
    obtain ⟨value, hvalue, h⟩ := Except.bind_eq_ok.1 h
    obtain rfl := Except.pure_eq_ok.1 h
    rw [Bool.and_eq_true, Bool.not_eq_true', Bool.not_eq_true'] at hnone
    exact .evaluated hnone.1 hnone.2 hvalue
  · rename_i hsome
    split at h
    · rename_i hempty
      obtain rfl := List.isEmpty_iff.1 hempty
      have hnone : Sequence.hasVariable [] = false := rfl
      have hbody : Sequence.hasVariable body = true := by simpa [hnone] using hsome
      split at h
      · rename_i single
        split at h
        · rename_i hterm
          obtain rfl := Except.ok.inj h
          exact .opened hbody hterm
        · exact Except.ok.inj h ▸ .kept hbody
      · exact Except.ok.inj h ▸ .kept hbody
    · rename_i hempty
      split at h
      · rename_i g hg
        obtain ⟨raised, hraised, h⟩ := Except.bind_eq_ok.1 h
        obtain rfl := Except.pure_eq_ok.1 h
        obtain ⟨rfl, hletter⟩ := Sequence.variableTerm?_eq_some hg
        exact .raised hletter (fun hpower => hempty (List.isEmpty_iff.2 hpower)) hraised
      · cases h

/-- A parenthesis that is simplified keeps its value. -/
theorem simplifiedParen_spec {body power : List Node} {negative : Bool} {node : Node}
    (hplain : (Node.paren body power negative).IsPlain x false)
    (h : simplifiedParen body power negative = .ok node) :
    node.IsPlain x false ∧ ∀ point v, (Node.paren body power negative).valueAt point = some v →
      node.valueAt point = some v := by
  obtain ⟨hbody, exponent, hpower⟩ := id hplain
  cases ParenSimplified.of_simplifiedParen h with
  | @evaluated _ _ value _ _ hvalue =>
    refine ⟨(Sequence.isPlain_constant x false value).1, fun point v hv => ?_⟩
    have := Sequence.valueAt_of_evaluate point hvalue
    rw [Sequence.valueAt_singleton] at this
    rw [Node.valueAt_constant, ← hv, this]
  | kept => exact ⟨hplain, fun _ _ hv => hv⟩
  | opened =>
    refine ⟨?_, fun point v hv => ?_⟩
    · split
      · exact Node.isPlain_negated hbody.1
      · exact hbody.1
    · rw [Node.valueAt_paren point .one, Sequence.valueAt_singleton] at hv
      obtain ⟨content, hcontent, rfl⟩ := Option.map_eq_some_iff.1 hv
      cases negative with
      | false => simpa using hcontent
      | true => simpa using Node.valueAt_negated point hbody.1 hcontent
  | raised hletter hne hraised =>
    obtain ⟨hraisedPlain, hraisedValue⟩ := Group.raised_spec hbody.1 hletter hpower hne hraised
    refine ⟨?_, fun point v hv => ?_⟩
    · split
      · exact Node.isPlain_negated hraisedPlain
      · exact hraisedPlain
    · rw [Node.valueAt_paren point hpower, Sequence.valueAt_singleton] at hv
      obtain ⟨content, hcontent, rfl⟩ := Option.map_eq_some_iff.1 hv
      have hvalue := hraisedValue point content hcontent
      cases negative with
      | false => exact hvalue
      | true => exact Node.valueAt_negated point hraisedPlain hvalue

theorem Node.simplified_zero (node : Node) : Node.simplified 0 node = .ok node := by
  cases node <;> rfl

theorem Node.simplified_operator (depth : Nat) (op : Operator) :
    Node.simplified depth (.operator op) = .ok (.operator op) := by
  cases depth <;> rfl

/-- A fraction is simplified to the fraction of its simplified parts. -/
theorem Node.eq_fraction_of_simplified {depth : Nat} {t b : List Node} {node : Node}
    (h : Node.simplified (depth + 1) (.fraction t b) = .ok node) :
    ∃ top bottom, simplifyWith (Node.simplified depth) t = .ok top ∧
      simplifyWith (Node.simplified depth) b = .ok bottom ∧
      (Node.fraction? top bottom).isSome = true ∧ node = .fraction top bottom := by
  rw [Node.simplified] at h
  obtain ⟨top, htop, h⟩ := Except.bind_eq_ok.1 h
  obtain ⟨bottom, hbottom, h⟩ := Except.bind_eq_ok.1 h
  split at h
  · rename_i quotient hquotient
    obtain rfl := Except.pure_eq_ok.1 h
    exact ⟨top, bottom, htop, hbottom, hquotient ▸ rfl, Node.fraction?_eq_some hquotient⟩
  · cases h

/-- Simplifying keeps the value of every plain node, by induction on the depth. -/
theorem Node.simplifies_simplified (x : Char) (depth : Nat) :
    Simplifies x (Node.simplified depth) := by
  have hsame {node node' : Node} (h : (Except.ok node : Except SolveError Node) = .ok node') :
      node' = node := (Except.ok.inj h).symm
  induction depth with
  | zero =>
    refine ⟨fun node node' hplain h => ?_, fun point node node' v hplain h hv => ?_,
      fun op node' h => ?_⟩
    · rw [Node.simplified_zero] at h
      exact hsame h ▸ hplain
    · rw [Node.simplified_zero] at h
      exact hsame h ▸ hv
    · rw [Node.simplified_zero] at h
      exact hsame h
  | succ depth ih =>
    have hspec : ∀ node node', node.IsPlain x false → Node.simplified (depth + 1) node = .ok node' →
        node'.IsPlain x false ∧ ∀ point v, node.valueAt point = some v →
          node'.valueAt point = some v := by
      intro node node' hplain h
      cases node with
      | paren b p negative =>
        rw [Node.simplified] at h
        obtain ⟨body, hbody, h⟩ := Except.bind_eq_ok.1 h
        obtain ⟨hbodyPlain, hbodyValue⟩ := ih.simplifyWith_spec hplain.1 hbody
        obtain ⟨exponent, hpower⟩ := hplain.2
        obtain ⟨hnode, hvalue⟩ := simplifiedParen_spec ⟨hbodyPlain, hplain.2⟩ h
        refine ⟨hnode, fun point v hv => hvalue point v ?_⟩
        rw [Node.valueAt_paren point hpower] at hv ⊢
        obtain ⟨content, hcontent, rfl⟩ := Option.map_eq_some_iff.1 hv
        rw [hbodyValue point content hcontent, Option.map_some]
      | fraction t b =>
        obtain ⟨top, bottom, htop, hbottom, -, rfl⟩ := Node.eq_fraction_of_simplified h
        obtain ⟨htopPlain, htopValue⟩ := ih.simplifyWith_spec hplain.1 htop
        obtain ⟨hbottomPlain, hbottomValue⟩ := ih.simplifyWith_spec hplain.2 hbottom
        refine ⟨⟨htopPlain, hbottomPlain⟩, fun point v hv => ?_⟩
        obtain ⟨t', b', ht, hb, hne, rfl⟩ := (Node.valueAt_fraction_eq_some point).1 hv
        exact (Node.valueAt_fraction_eq_some point).2
          ⟨t', b', htopValue point t' ht, hbottomValue point b' hb, hne, rfl⟩
      | _ =>
        obtain rfl := hsame h
        exact ⟨hplain, fun _ _ hv => hv⟩
    refine ⟨fun node node' hplain h => (hspec node node' hplain h).1,
      fun point node node' v hplain h hv => (hspec node node' hplain h).2 point v hv,
      fun op node' h => ?_⟩
    rw [Node.simplified_operator] at h
    exact hsame h

/-- Removing parentheses keeps the values of both sides. -/
theorem Sides.scaled_expanded {s t : Sides} (h : s.mapM Sequence.expanded = .ok t)
    (hs : s.IsPlain x false) : t.IsPlain x false ∧ Sides.Scaled 1 s t :=
  Sides.scaled_mapM (fun _ _ => (Node.simplifies_simplified x _).expandWith_spec) h hs

end

end OneUnknown
