import OneUnknown.Proofs.Cleaning
import OneUnknown.Proofs.Retracing
/-!
# Back through the passes on an equation

The passes that change an equation as a whole, and the removal of parentheses, give fit sides only
for fit sides.

* `Sides.Retraced`: an equation in place of another one;
* `Sides.retraced_withoutFraction`, `Sides.retraced_cancelled`, `Sides.retraced_collected`,
  `Sides.retraced_crossed`: one lemma for each pass;
* `retraces_simplified`, `Sides.retraced_expanded`: parentheses that are removed;
* `Sequence.retraced_cleanedFrom`: cleaning, which only puts operators in.
-/

namespace OneUnknown

variable {fits : Prop}

/-! ## Like terms -/

namespace Sequence

/-- A term that can be added up is fit as it is. -/
theorem isSum_of_loneTerm? {part : List Node} {g : Group} (h : loneTerm? part = some g) :
    IsSum Node.IsFit part := by
  obtain ⟨rfl, hpower⟩ := loneTerm?_eq_some h
  obtain ⟨letter, n, p⟩ := g
  refine .single rfl ?_
  cases letter with
  | none => exact .number (.inl (hpower rfl))
  | some name => exact .variable name n p

/-- Summands that cannot be added up stay as they are. -/
theorem mem_addLike {g : Group} {parts : List (List Node)} {part : List Node}
    (hpart : part ∈ parts) (hlone : loneTerm? part = none) : part ∈ addLike g parts := by
  induction parts with
  | nil => cases hpart
  | cons first rest ih =>
    rw [addLike]
    rcases List.mem_cons.1 hpart with rfl | hpart
    · rw [hlone]
      exact .head _
    · split
      · split
        · exact .tail _ hpart
        · exact .tail _ (ih hpart)
      · exact .tail _ (ih hpart)

theorem mem_foldl_collectStep {parts collected : List (List Node)} {part : List Node}
    (hpart : part ∈ collected ∨ part ∈ parts) (hlone : loneTerm? part = none) :
    part ∈ parts.foldl collectStep collected := by
  induction parts generalizing collected with
  | nil => simpa using hpart
  | cons first rest ih =>
    refine ih ?_
    unfold collectStep
    rcases hpart with hpart | hpart
    · split
      · exact .inl (mem_addLike hpart hlone)
      · exact .inl (List.mem_append_left _ hpart)
    · rcases List.mem_cons.1 hpart with rfl | hpart
      · rw [hlone]
        exact .inl (by simp)
      · exact .inr hpart

theorem sideRetraced_collected {side : List Node} (h : IsPrepared fits side) :
    SideRetraced fits side (collected side) := by
  have hprepared := forall_mem_collectLike (motive := IsPrepared fits)
    (fun _ _ hg => ⟨⟨hg.1.1, hg.1.2⟩, trivial⟩) fun part hpart => h.of_mem_summands hpart
  rw [collectLike_eq] at hprepared
  rw [collected, collectLike_eq]
  refine .of_parts hprepared fun hparts part hpart => ?_
  cases hlone : loneTerm? part with
  | some g => exact isSum_of_loneTerm? hlone
  | none => exact hparts part (mem_foldl_collectStep (.inr hpart) hlone)

/-- Only terms that can be added up are dropped as zeros. -/
theorem sideRetraced_withoutZeros {otherVariables : Bool} {side : List Node}
    (h : IsPrepared fits side) : SideRetraced fits side (withoutZeros otherVariables side) := by
  refine .of_parts (fun part hpart => h.of_mem_summands (List.mem_filter.1 hpart).1)
    fun hparts part hpart => ?_
  by_cases hstays : staysBesideOthers (1 < (summands side).length) otherVariables part = true
  · exact hparts part (List.mem_filter.2 ⟨hpart, hstays⟩)
  · unfold staysBesideOthers at hstays
    split at hstays
    · rename_i g hzero
      exact isSum_of_loneTerm? (zeroTerm?_eq_some hzero).1
    · exact absurd rfl hstays

end Sequence

/-! ## Equations -/

namespace Sides

/-- Both sides are prepared. -/
def IsPrepared (fits : Prop) (s : Sides) : Prop :=
  Sequence.IsPrepared fits s.left ∧ Sequence.IsPrepared fits s.right

/-- Both sides are fit. -/
def IsFit (s : Sides) : Prop :=
  Sequence.IsSum Node.IsFit s.left ∧ Sequence.IsSum Node.IsFit s.right

/-- An equation that may take the place of another one. -/
structure Retraced (fits : Prop) (s t : Sides) : Prop where
  prepared : t.IsPrepared fits
  fit : t.IsFit → s.IsFit

namespace Retraced

variable {s t u : Sides}

theorem refl (h : s.IsPrepared fits) : Retraced fits s s := ⟨h, id⟩

theorem trans (h : Retraced fits s t) (h' : Retraced fits t u) : Retraced fits s u :=
  ⟨h'.prepared, fun hfit => h.fit (h'.fit hfit)⟩

theorem of_sides (hleft : Sequence.SideRetraced fits s.left t.left)
    (hright : Sequence.SideRetraced fits s.right t.right) : Retraced fits s t :=
  ⟨⟨hleft.prepared, hright.prepared⟩, fun h => ⟨hleft.isSum h.1, hright.isSum h.2⟩⟩

end Retraced

variable {s t : Sides}

theorem retraced_mapM {rewrite : List Node → Except SolveError (List Node)}
    (hrewrite : ∀ side out, Sequence.IsPrepared fits side → rewrite side = .ok out →
      Sequence.SideRetraced fits side out)
    (hs : s.IsPrepared fits) (h : s.mapM rewrite = .ok t) : s.Retraced fits t := by
  obtain ⟨left, right, hleft, hright, rfl⟩ := Sides.mapM_eq_ok h
  exact .of_sides (hrewrite _ _ hs.1 hleft) (hrewrite _ _ hs.2 hright)

theorem retraced_withoutFraction {limit : Nat} (hs : s.IsPrepared fits)
    (h : s.withoutFraction limit = .ok t) : s.Retraced fits t := by
  cases FractionCleared.of_withoutFraction h with
  | left hspot hcleared =>
    obtain ⟨hleft, hright⟩ := FractionSpot.retraced_cleared hcleared
      (FractionSpot.inSummands?_eq_some hspot) hs.1 hs.2
    exact .of_sides hleft hright
  | right _ hspot hcleared =>
    obtain ⟨hright, hleft⟩ := FractionSpot.retraced_cleared hcleared
      (FractionSpot.inSummands?_eq_some hspot) hs.2 hs.1
    exact .of_sides hleft hright
  | none => exact .refl hs

theorem retraced_cancelled {limit : Nat} (hs : s.IsPrepared fits)
    (h : s.cancelled limit = .ok t) : s.Retraced fits t := by
  rcases cancelled_cases h with rfl | ⟨common, -, -, -, rfl⟩
  · exact .refl hs
  · exact .of_sides (Sequence.sideRetraced_dividedBy hs.1) (Sequence.sideRetraced_dividedBy hs.2)

theorem retraced_multiplied (hs : s.IsPrepared fits) (h : s.mapM Sequence.multiplied = .ok t) :
    s.Retraced fits t :=
  retraced_mapM (fun _ _ hside hout => (Sequence.retraced_multiplied hout hside).side) hs h

theorem retraced_collected (hs : s.IsPrepared fits) : s.Retraced fits s.collected := by
  have hleft := Sequence.sideRetraced_collected hs.1
  have hright := Sequence.sideRetraced_collected hs.2
  exact .of_sides (hleft.trans (Sequence.sideRetraced_withoutZeros hleft.prepared))
    (hright.trans (Sequence.sideRetraced_withoutZeros hright.prepared))

/-- A summand that changes sides changes its sign only. -/
theorem retraced_crossed {name : Char} (hs : s.IsPrepared fits) (h : s.crossed name = .moved t) :
    s.Retraced fits t := by
  rcases (crossed_eq_moved h).2 with rfl | rfl
  · exact .refl hs
  · have hnegated {side : List Node} {p : List Node → Bool} (hside : Sequence.IsPrepared fits side)
        {part : List Node} (hpart : part ∈ (Sequence.summands side).filter p) :
        Sequence.Retraced fits part (Sequence.negatedSummand part) :=
      Sequence.retraced_negatedSummand (hside.of_mem_summands (List.mem_filter.1 hpart).1)
    have hprepared {side other : List Node} {p q : List Node → Bool}
        (hside : Sequence.IsPrepared fits side) (hother : Sequence.IsPrepared fits other) :
        Sequence.IsPrepared fits (Sequence.join ((Sequence.summands side).filter p ++
          ((Sequence.summands other).filter q).map Sequence.negatedSummand)) := by
      refine Sequence.isPrepared_join (List.forall_mem_append.2
        ⟨fun part hpart => hside.of_mem_summands (List.mem_filter.1 hpart).1, fun part hpart => ?_⟩)
      obtain ⟨old, hold, rfl⟩ := List.mem_map.1 hpart
      exact (hnegated hother hold).prepared
    refine ⟨⟨hprepared hs.1 hs.2, hprepared hs.2 hs.1⟩, fun hfit => ?_⟩
    constructor
    · refine .of_summands fun part hpart => ?_
      by_cases hvariable : Sequence.hasVariable part = true
      · exact hfit.1.of_join (List.mem_append_left _ (List.mem_filter.2 ⟨hpart, hvariable⟩))
      · have hmem : part ∈ (Sequence.summands s.left).filter (not ∘ Sequence.hasVariable) :=
          List.mem_filter.2 ⟨hpart, by simpa using hvariable⟩
        exact (hnegated hs.1 hmem).side.isSum
          (hfit.2.of_join (List.mem_append_right _ (List.mem_map.2 ⟨part, hmem, rfl⟩)))
    · refine .of_summands fun part hpart => ?_
      by_cases hvariable : Sequence.hasVariable part = true
      · have hmem : part ∈ (Sequence.summands s.right).filter Sequence.hasVariable :=
          List.mem_filter.2 ⟨hpart, hvariable⟩
        exact (hnegated hs.2 hmem).side.isSum
          (hfit.1.of_join (List.mem_append_right _ (List.mem_map.2 ⟨part, hmem, rfl⟩)))
      · exact hfit.2.of_join (List.mem_append_left _
          (List.mem_filter.2 ⟨hpart, by simpa using hvariable⟩))

end Sides

/-! ## Parentheses -/

/-- Groups that have been multiplied are fit. -/
theorem productOf_retraced {start product : Group} {groups : List Group}
    (hstart : start.toNode.IsPrepared fits) (hgroups : ∀ g ∈ groups, g.toNode.IsPrepared fits)
    (h : productOf start groups = .ok (some product)) :
    product.toNode.IsPrepared fits ∧ ∀ g ∈ groups, g.toNode.IsFit := by
  replace h := GroupsMultiplied.of_productOf h
  induction h with
  | nil => exact ⟨hstart, by simp⟩
  | cons hmultiply _ ih =>
    obtain ⟨hg, hrest⟩ := List.forall_mem_cons.1 hgroups
    obtain ⟨-, hfit, hfirst⟩ := Group.multiply_retraced hmultiply hstart hg
    obtain ⟨hprepared, hrestFit⟩ := ih hfirst hrest
    exact ⟨hprepared, List.forall_mem_cons.2 ⟨hfit, hrestFit⟩⟩

/-- A summand that has been multiplied by a group. -/
theorem distributed_retraced {multiplier : Group} {part out : List Node}
    (hmultiplier : multiplier.toNode.IsPrepared fits) (hpart : Sequence.IsPrepared fits part)
    (h : distributed multiplier part = .ok out) : Sequence.SideRetraced fits part out := by
  rcases distributed_cases h with ⟨node, product, rfl, hproduct, rfl⟩ | ⟨-, -, rfl⟩ | rfl
  · obtain ⟨l, r, g, hl, hr, hmultiply, rfl⟩ := Node.multiply_eq_some hproduct
    have hnode := hpart.1
    rw [← Group.toNode_of_asGroup? hl] at hmultiplier
    rw [← Group.toNode_of_asGroup? hr] at hnode ⊢
    obtain ⟨-, hfit, hprepared⟩ := Group.multiply_retraced hmultiply hmultiplier hnode
    exact ⟨⟨hprepared, trivial⟩, fun _ => .single rfl hfit⟩
  · exact .refl hpart
  · refine ⟨⟨hmultiplier, .inr rfl, hpart⟩, fun ⟨hout, hafter⟩ => ⟨?_, hafter⟩⟩
    exact (hout.of_multiply [multiplier.toNode]).empty_of_due hafter

/-- A product of groups with one parenthesis: its parts. -/
theorem isPrepared_of_loneParen? {part body : List Node} {negative : Bool} {groups : List Group}
    (hprepared : Sequence.IsPrepared fits part)
    (h : loneParen? (Sequence.factors part) = some (body, negative, groups)) :
    Sequence.IsPrepared fits body ∧ ∀ g ∈ groups, g.toNode.IsPrepared fits := by
  obtain ⟨hparen, hgroups⟩ := mem_of_loneParen? h
  exact ⟨(Sequence.isPrepared_iff.1 hprepared _ hparen).1,
    fun g hg => Sequence.isPrepared_iff.1 hprepared _ (hgroups g hg)⟩

/-- A product of groups with one parenthesis is fit if they are. -/
theorem isSum_of_loneParen? {part body : List Node} {negative : Bool} {groups : List Group}
    (h : loneParen? (Sequence.factors part) = some (body, negative, groups))
    (hbody : Sequence.IsSum Node.IsFit body) (hgroups : ∀ g ∈ groups, g.toNode.IsFit) :
    Sequence.IsSum Node.IsFit part := by
  obtain ⟨hparens, rfl, hfactors⟩ := loneParen?_eq_some h
  refine ⟨Sequence.fills_of_factors (fun factor hfactor before => ?_) _, by decide⟩
  rcases hfactors factor hfactor with ⟨b, p, n, rfl⟩ | ⟨g, rfl⟩
  · have hmem : (b, p, n) ∈ parensOf (Sequence.factors part) :=
      List.mem_filterMap.2 ⟨_, hfactor, rfl⟩
    rw [hparens] at hmem
    obtain ⟨rfl, rfl, rfl⟩ := by simpa using hmem
    exact .single rfl (Node.isFit_paren.2 ⟨hbody, .inl rfl⟩)
  · exact .single rfl (hgroups g (List.mem_filterMap.2 ⟨_, hfactor, rfl⟩))

/-- The summands that take the place of a summand when its parenthesis is removed. -/
theorem expandedSummand_retraced {part : List Node} {parts : List (List Node)}
    (hprepared : Sequence.IsPrepared fits part) (h : expandedSummand part = .ok parts) :
    (∀ p ∈ parts, Sequence.IsPrepared fits p) ∧
      ((∀ p ∈ parts, Sequence.IsSum Node.IsFit p) → Sequence.IsSum Node.IsFit part) := by
  rcases expandedSummand_cases h with ⟨body, negative, rfl, rfl⟩ | rfl |
    ⟨body, negative, groups, multiplier, hlone, hmultiplier, hparts⟩
  · have hbody : Sequence.IsPrepared fits body := hprepared.1.1
    have hinner : ∀ inner ∈ Sequence.summands body, Sequence.Retraced fits inner
        (if negative then Sequence.negatedSummand inner else inner) := by
      intro inner hmem
      split
      · exact Sequence.retraced_negatedSummand (hbody.of_mem_summands hmem)
      · exact .refl (hbody.of_mem_summands hmem)
    have hmap : (if negative then (Sequence.summands body).map Sequence.negatedSummand
        else Sequence.summands body) = (Sequence.summands body).map
          fun inner => if negative then Sequence.negatedSummand inner else inner := by
      cases negative <;> simp
    rw [hmap, List.forall_mem_map, List.forall_mem_map]
    refine ⟨fun inner hmem => (hinner inner hmem).prepared, fun hsums => ?_⟩
    refine .single rfl (Node.isFit_paren.2 ⟨.of_summands fun inner hmem => ?_, .inl rfl⟩)
    exact (hinner inner hmem).side.isSum (hsums inner hmem)
  · simpa using hprepared
  · obtain ⟨hbody, hgroups⟩ := isPrepared_of_loneParen? hprepared hlone
    obtain ⟨hproduct, hgroupsFit⟩ :=
      productOf_retraced (Node.isPrepared_constant 1) hgroups hmultiplier
    have hsigned : (if negative then multiplier.negated else multiplier).toNode.IsPrepared fits := by
      split <;> exact ⟨hproduct.1, hproduct.2⟩
    have hinner := (Except.forall₂_of_mapM hparts).imp fun inner out hmem =>
      distributed_retraced hsigned (hbody.of_mem_summands hmem.1) hmem.2
    refine ⟨fun p hp => (exists_of_forall₂ hinner hp).elim fun _ h => h.prepared, fun hsums => ?_⟩
    refine isSum_of_loneParen? hlone (.of_summands fun inner hmem => ?_) hgroupsFit
    obtain ⟨out, hout, hretraced⟩ := exists_right_of_forall₂ hinner hmem
    exact hretraced.isSum (hsums out hout)

/-- A way of simplifying nodes that leaves nothing out. -/
def Retraces (fits : Prop) (simplify : Node → Except SolveError Node) : Prop :=
  ∀ node node', node.IsPrepared fits → simplify node = .ok node' →
    Sequence.Retraced fits [node] [node']

namespace Retraces

variable {simplify : Node → Except SolveError Node}

theorem mapM (hsimplify : Retraces fits simplify) {part part' : List Node}
    (hprepared : Sequence.IsPrepared fits part) (h : part.mapM simplify = .ok part') :
    Sequence.Retraced fits part part' := by
  have hnodes := (Except.forall₂_of_mapM h).imp fun node node' hnode =>
    hsimplify node node' (Sequence.isPrepared_iff.1 hprepared node hnode.1) hnode.2
  clear h hprepared
  induction hnodes with
  | nil => exact .refl trivial
  | cons hnode _ ih => exact .cons hnode ih

theorem expandWith (hsimplify : Retraces fits simplify) {side out : List Node}
    (hprepared : Sequence.IsPrepared fits side) (h : expandWith simplify side = .ok out) :
    Sequence.SideRetraced fits side out := by
  obtain ⟨sums, hsums, h⟩ := Except.bind_eq_ok.1 h
  obtain rfl := Except.pure_eq_ok.1 h
  have hparts := (Except.forall₂_of_mapM hsums).imp fun part parts hpart => by
    obtain ⟨part', hpart', hexpanded⟩ := Except.bind_eq_ok.1 hpart.2
    have hsimplified := hsimplify.mapM (hprepared.of_mem_summands hpart.1) hpart'
    obtain ⟨hpartsPrepared, hsum⟩ := expandedSummand_retraced hsimplified.prepared hexpanded
    exact (⟨hpartsPrepared, fun h => hsimplified.side.isSum (hsum h)⟩ :
      (∀ p ∈ parts, Sequence.IsPrepared fits p) ∧
        ((∀ p ∈ parts, Sequence.IsSum Node.IsFit p) → Sequence.IsSum Node.IsFit part))
  refine .of_parts (fun p hp => ?_) fun hall part hpart => ?_
  · obtain ⟨parts, hmem, hp⟩ := List.mem_flatten.1 hp
    obtain ⟨part, hpart⟩ := exists_of_forall₂ hparts hmem
    exact hpart.1 p hp
  · obtain ⟨parts, hmem, hpart⟩ := exists_right_of_forall₂ hparts hpart
    exact hpart.2 fun p hp => hall p (List.mem_flatten.2 ⟨parts, hmem, hp⟩)

theorem simplifyWith (hsimplify : Retraces fits simplify) {nodes out : List Node}
    (hprepared : Sequence.IsPrepared fits nodes) (h : simplifyWith simplify nodes = .ok out) :
    Sequence.SideRetraced fits nodes out := by
  rcases simplifyWith_cases h with ⟨-, multiplied, expanded, hmultiplied, hexpanded, rfl⟩ |
    ⟨-, value, hvalue, rfl⟩
  · have h₁ := (Sequence.retraced_multiplied hmultiplied hprepared).side
    have h₂ := hsimplify.expandWith h₁.prepared hexpanded
    exact (h₁.trans h₂).trans (Sequence.sideRetraced_collected h₂.prepared)
  · exact ⟨⟨Node.isPrepared_constant value, trivial⟩,
      fun _ => Sequence.isSum_of_evaluate hprepared hvalue⟩

end Retraces

/-- The power of a group has an exponent of its own, which has a value. -/
theorem Group.raised_retraced {g raised : Group} {power : List Node}
    (h : g.raised power = .ok raised) (hg : g.toNode.IsPrepared fits) :
    IsFitPower power ∧ raised.toNode.IsPrepared fits := by
  obtain ⟨exponent, own, hexponent, hown, rfl⟩ := Group.raised_eq_ok h
  refine ⟨.of_positiveIntegerPower? hexponent, isCleanPower_powerOf _, fun hletter => ?_⟩
  exact iff_of_true (isFitPower_powerOf _) ((hg.2 hletter).1 (.of_wholePower hown))

/-- A parenthesis whose content has been simplified. -/
theorem simplifiedParen_retraced {body content power : List Node} {negative : Bool} {node : Node}
    (hcontent : Sequence.SideRetraced fits content body) (hpower : IsCleanPower power)
    (h : simplifiedParen body power negative = .ok node) :
    Sequence.Retraced fits [.paren content power negative] [node] := by
  have hbody := hcontent.prepared
  cases ParenSimplified.of_simplifiedParen h with
  | @evaluated _ _ value _ _ hvalue =>
    have hparen : Sequence.IsPrepared fits [.paren body power negative] := ⟨⟨hbody, hpower⟩, trivial⟩
    obtain ⟨-, hfit⟩ := (Sequence.fills_of_evaluate hparen hvalue .empty).single_cases rfl
    obtain ⟨hsum, hpowerFit⟩ := Node.isFit_paren.1 hfit
    exact .single rfl rfl (Node.isPrepared_constant value)
      fun _ => Node.isFit_paren.2 ⟨hcontent.isSum hsum, hpowerFit⟩
  | kept =>
    exact .single rfl rfl ⟨hbody, hpower⟩ fun hfit =>
      Node.isFit_paren.2 ⟨hcontent.isSum (Node.isFit_paren.1 hfit).1, .inl rfl⟩
  | @opened single _ hterm =>
    have hsingle : Sequence.Retraced fits [single]
        [if negative then single.negated else single] := by
      split
      · exact Sequence.retraced_negated_node hbody.1
      · exact .refl hbody
    refine .of_term rfl hsingle.prepared fun before after hout => ?_
    obtain ⟨rfl, hfit⟩ := (hsingle.fills _ _ hout).single_cases hterm
    exact ⟨rfl, Node.isFit_paren.2 ⟨hcontent.isSum (.single hterm hfit), .inl rfl⟩⟩
  | @raised g _ _ hletter _ hraised =>
    obtain ⟨hpowerFit, hprepared⟩ := Group.raised_retraced hraised hbody.1
    have hsum : Sequence.IsSum Node.IsFit [g.toNode] := by
      obtain ⟨letter, n, p⟩ := g
      obtain ⟨name, rfl⟩ := Option.isSome_iff_exists.1 hletter
      exact .single rfl (.variable name n p)
    refine .single rfl rfl ?_ fun _ => Node.isFit_paren.2 ⟨hcontent.isSum hsum, hpowerFit⟩
    split <;> exact ⟨hprepared.1, hprepared.2⟩

/-- Simplifying leaves nothing out, by induction on the depth. -/
theorem retraces_simplified (depth : Nat) : Retraces fits (Node.simplified depth) := by
  induction depth with
  | zero =>
    intro node node' hprepared h
    rw [Node.simplified_zero] at h
    exact Except.ok.inj h ▸ .refl ⟨hprepared, trivial⟩
  | succ depth ih =>
    intro node node' hprepared h
    cases node with
    | paren b p negative =>
      obtain ⟨body, hbody, h⟩ := Except.bind_eq_ok.1 h
      exact simplifiedParen_retraced (ih.simplifyWith hprepared.1 hbody) hprepared.2 h
    | fraction t b =>
      obtain ⟨top, bottom, htop, hbottom, -, rfl⟩ := Node.eq_fraction_of_simplified h
      have ht := ih.simplifyWith hprepared.1 htop
      have hb := ih.simplifyWith hprepared.2 hbottom
      refine .single rfl rfl ⟨ht.prepared, hb.prepared⟩ fun hfit => ?_
      obtain ⟨htopFit, hbottomFit, hnonzero⟩ := Node.isFit_fraction.1 hfit
      refine Node.isFit_fraction.2 ⟨ht.isSum htopFit, hb.isSum hbottomFit, fun hvariable => ?_⟩
      -- A denominator without variables has been evaluated.
      rcases simplifyWith_cases hbottom with ⟨hhas, -⟩ | ⟨-, value, hvalue, rfl⟩
      · simp [hvariable] at hhas
      · rw [Sequence.valueAt_of_evaluate _ hvalue]
        simpa using hnonzero rfl
    | _ => exact Except.ok.inj h ▸ .refl ⟨hprepared, trivial⟩

theorem Sides.retraced_expanded {s t : Sides} (hs : s.IsPrepared fits)
    (h : s.mapM Sequence.expanded = .ok t) : s.Retraced fits t :=
  Sides.retraced_mapM (fun _ _ hside hout => (retraces_simplified _).expandWith hside hout) hs h

/-! ## Cleaning -/

theorem Sequence.cleanedFrom_eq_of_nodes {nodes out : List Node} {v : Rat}
    (hclean : ∀ node ∈ nodes, ∀ {value : Rat}, node.valueAt (everywhere 0) = some value →
      ∀ {node' : Node}, node.cleaned = .ok node' → node' = node)
    (hprepared : Sequence.IsPrepared fits nodes)
    (hvalue : Sequence.valueAt (everywhere 0) nodes = some v)
    (h : Sequence.cleanedFrom true false false nodes = .ok out) : out = nodes := by
  rw [Sequence.isPrepared_iff] at hprepared
  obtain ⟨out', hout', rfl⟩ := Sequence.cleanedFrom_of_nodes (everywhere 0) [] hvalue
    (fun op hop => by rintro rfl; simpa [Node.IsPrepared] using hprepared _ hop)
    (fun node hnode _ hv _ => hclean node hnode hv) (by simpa using h)
  obtain rfl : [] = out' := by simpa [Sequence.cleanedFrom] using hout'
  exact List.append_nil nodes

/-- A prepared term with a value is clean. -/
theorem Node.cleaned_eq_of_isPrepared {node node' : Node} (hprepared : node.IsPrepared fits)
    {value : Rat} (hvalue : node.valueAt (everywhere 0) = some value) (h : node.cleaned = .ok node') :
    node' = node := by
  induction node using Node.nested_induction generalizing node' value with
  | group letter n p =>
    obtain ⟨power, hpower, rfl⟩ := Node.cleaned_group_eq_ok.1 h
    rw [Except.ok.inj (hpower.symm.trans hprepared.1)]
  | paren b p negative ihb =>
    obtain ⟨body, power, hbody, hpower, rfl⟩ := Node.cleaned_paren_eq_ok.1 h
    obtain ⟨content, hcontent, -⟩ := Option.bind_eq_some_iff.1 hvalue
    rw [Except.ok.inj (hpower.symm.trans hprepared.2), Sequence.cleanedFrom_eq_of_nodes
      (fun n hn _ hv _ => ihb n hn (Sequence.isPrepared_iff.1 hprepared.1 n hn) hv)
      hprepared.1 hcontent hbody]
  | fraction t b iht ihb =>
    obtain ⟨top, bottom, htop, hbottom, -, rfl⟩ := Node.cleaned_fraction_eq_ok.1 h
    obtain ⟨t', b', ht, hb, -, -⟩ := (Node.valueAt_fraction_eq_some _).1 hvalue
    rw [Sequence.cleanedFrom_eq_of_nodes
        (fun n hn _ hv _ => iht n hn (Sequence.isPrepared_iff.1 hprepared.1 n hn) hv)
        hprepared.1 ht htop,
      Sequence.cleanedFrom_eq_of_nodes
        (fun n hn _ hv _ => ihb n hn (Sequence.isPrepared_iff.1 hprepared.2 n hn) hv)
        hprepared.2 hb hbottom]
  | operator op => cases hvalue
  | relation r => cases hvalue

theorem Sequence.cleanedFrom_eq_of_isPrepared {nodes out : List Node} {v : Rat}
    (hprepared : Sequence.IsPrepared fits nodes)
    (hvalue : Sequence.valueAt (everywhere 0) nodes = some v)
    (h : Sequence.cleanedFrom true false false nodes = .ok out) : out = nodes :=
  Sequence.cleanedFrom_eq_of_nodes (fun n hn _ hv _ =>
    Node.cleaned_eq_of_isPrepared (Sequence.isPrepared_iff.1 hprepared n hn) hv) hprepared hvalue h

/-- Cleaning prepared nodes puts operators between terms and does nothing else. -/
theorem Sequence.retraced_cleanedFrom_of_nodes {nested afterTerm : Bool} {nodes out : List Node}
    (hnodes : ∀ node ∈ nodes, ∀ node', node.cleaned = .ok node' → Sequence.Retraced fits [node] [node'])
    (hprepared : Sequence.IsPrepared fits nodes)
    (h : Sequence.cleanedFrom nested afterTerm false nodes = .ok out) :
    Sequence.Retraced fits nodes out := by
  have hwritten := OperatorsWritten.of_cleanedFrom h
  clear h
  generalize hnegate : false = negate at hwritten
  induction hwritten with
  | nil => exact .refl trivial
  | relation => exact hprepared.1.elim
  | subtract => simpa [Node.IsPrepared] using hprepared.1
  | operator _ _ ih =>
    exact .cons (.refl ⟨hprepared.1, trivial⟩)
      (ih (fun n hn => hnodes n (.tail _ hn)) hprepared.2 hnegate)
  | @term afterTerm _ node term _ _ hterm hclean _ ih =>
    subst hnegate
    have hwhole := (hnodes node (.head _) term hclean).cons
      (ih (fun n hn => hnodes n (.tail _ hn)) hprepared.2 rfl)
    rw [placeTerm]
    split
    · refine ⟨⟨?_, hwhole.prepared⟩, fun before after hfills => ?_⟩
      · unfold Node.impliedOperator
        split
        · exact .inr rfl
        · exact .inl rfl
      · obtain ⟨between, -, hfills⟩ := Sequence.Fills.append_iff.1
          (show Sequence.Fills Node.IsFit ([_] ++ _) before after from hfills)
        exact (hwhole.fills _ _ hfills).of_term hterm before
    · exact hwhole

/-- Cleaning a prepared node. -/
theorem Node.retraced_cleaned {node node' : Node} (hprepared : node.IsPrepared fits)
    (h : node.cleaned = .ok node') : Sequence.Retraced fits [node] [node'] := by
  have hside {nodes out : List Node}
      (ih : ∀ node ∈ nodes, ∀ {node' : Node}, node.IsPrepared fits → node.cleaned = .ok node' →
        Sequence.Retraced fits [node] [node'])
      (hnodes : Sequence.IsPrepared fits nodes)
      (h : Sequence.cleanedFrom true false false nodes = .ok out) :
      Sequence.Retraced fits nodes out :=
    Sequence.retraced_cleanedFrom_of_nodes
      (fun n hn _ => ih n hn (Sequence.isPrepared_iff.1 hnodes n hn)) hnodes h
  induction node using Node.nested_induction generalizing node' with
  | group letter n p =>
    obtain ⟨power, hpower, rfl⟩ := Node.cleaned_group_eq_ok.1 h
    obtain rfl := Except.ok.inj (hpower.symm.trans hprepared.1)
    exact .refl ⟨hprepared, trivial⟩
  | paren b p negative ihb =>
    obtain ⟨body, power, hbody, hpower, rfl⟩ := Node.cleaned_paren_eq_ok.1 h
    obtain rfl := Except.ok.inj (hpower.symm.trans hprepared.2)
    have hb := hside (fun n hn _ => ihb n hn) hprepared.1 hbody
    refine .single rfl rfl ⟨hb.prepared, hprepared.2⟩ fun hfit => ?_
    obtain ⟨hsum, hp⟩ := Node.isFit_paren.1 hfit
    exact Node.isFit_paren.2 ⟨hb.side.isSum hsum, hp⟩
  | fraction t b iht ihb =>
    obtain ⟨top, bottom, htop, hbottom, -, rfl⟩ := Node.cleaned_fraction_eq_ok.1 h
    have ht := hside (fun n hn _ => iht n hn) hprepared.1 htop
    have hb := hside (fun n hn _ => ihb n hn) hprepared.2 hbottom
    refine .single rfl rfl ⟨ht.prepared, hb.prepared⟩ fun hfit => ?_
    obtain ⟨htopFit, hbottomFit, hnonzero⟩ := Node.isFit_fraction.1 hfit
    refine Node.isFit_fraction.2
      ⟨ht.side.isSum htopFit, hb.side.isSum hbottomFit, fun hvariable hzero => ?_⟩
    -- A denominator with a value is clean already.
    have hsame : bottom = b := Sequence.cleanedFrom_eq_of_isPrepared hprepared.2 hzero hbottom
    exact hnonzero (hsame ▸ hvariable) (hsame ▸ hzero)
  | operator op =>
    obtain rfl := Except.ok.inj h
    exact .refl ⟨hprepared, trivial⟩
  | relation r => exact hprepared.elim

theorem Sequence.retraced_cleanedFrom {nested afterTerm : Bool} {nodes out : List Node}
    (hprepared : Sequence.IsPrepared fits nodes)
    (h : Sequence.cleanedFrom nested afterTerm false nodes = .ok out) :
    Sequence.Retraced fits nodes out :=
  Sequence.retraced_cleanedFrom_of_nodes (fun n hn _ =>
    Node.retraced_cleaned (Sequence.isPrepared_iff.1 hprepared n hn)) hprepared h

/-- The sides of an equation are cleaned one by one. -/
theorem Sequence.cleanedFrom_split {afterTerm : Bool} {left right out : List Node} {r : Relation}
    (hleft : Sequence.IsPrepared fits left)
    (h : Sequence.cleanedFrom false afterTerm false (left ++ .relation r :: right) = .ok out) :
    ∃ left' right', Sequence.cleanedFrom false afterTerm false left = .ok left' ∧
      Sequence.cleanedFrom false false false right = .ok right' ∧
      out = left' ++ .relation r :: right' := by
  induction left generalizing afterTerm out with
  | nil =>
    obtain ⟨right', hright, h⟩ := Except.bind_eq_ok.1 h
    exact ⟨[], right', by simp [Sequence.cleanedFrom], hright, (Except.pure_eq_ok.1 h).symm⟩
  | cons node rest ih =>
    by_cases hterm : node.isTerm = true
    · rw [List.cons_append, Sequence.cleanedFrom_term false afterTerm false hterm] at h
      obtain ⟨term, hclean, h⟩ := Except.bind_eq_ok.1 h
      obtain ⟨out', hout, h⟩ := Except.bind_eq_ok.1 h
      obtain rfl := Except.pure_eq_ok.1 h
      obtain ⟨left', right', hleft', hright', rfl⟩ := ih hleft.2 hout
      refine ⟨placeTerm afterTerm term left', right', ?_, hright', ?_⟩
      · rw [Sequence.cleanedFrom_term false afterTerm false hterm, hclean, hleft']
        rfl
      · simp only [placeTerm]
        split <;> rfl
    · cases node with
      | operator op =>
        obtain ⟨out', hout, rfl⟩ : ∃ out', Sequence.cleanedFrom false false false
            (rest ++ .relation r :: right) = .ok out' ∧ out = .operator op :: out' := by
          rcases hleft.1 with rfl | rfl <;>
          · obtain ⟨out', hout, h⟩ := Except.bind_eq_ok.1 h
            exact ⟨out', hout, (Except.pure_eq_ok.1 h).symm⟩
        obtain ⟨left', right', hleft', hright', rfl⟩ := ih hleft.2 hout
        refine ⟨.operator op :: left', right', ?_, hright', rfl⟩
        rcases hleft.1 with rfl | rfl <;>
          simp [Sequence.cleanedFrom, hleft', bind, Except.bind, pure, Except.pure]
      | relation r => exact hleft.1.elim
      | _ => exact absurd rfl hterm

end OneUnknown
