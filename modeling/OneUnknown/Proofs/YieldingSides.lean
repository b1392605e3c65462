import OneUnknown.Proofs.Passes
import OneUnknown.Proofs.Yielding
/-!
# Steps on clean equations

Every pass leaves a clean equation clean, and makes it no higher.

* `simplifiedParen_yields`, `yielding_simplified`: parentheses that are removed;
* `Sides.Yields`: an equation in place of another one;
* `Sides.Pass.yields`: one pass;
* `step_keeps_clean`: one step.
-/

namespace OneUnknown

/-! ## Multiplying out -/

theorem Group.isClean_productOf {start product : Group} {groups : List Group}
    (h : productOf start groups = .ok (some product)) (hstart : Sequence.IsClean start.power)
    (hgroups : ∀ g ∈ groups, Sequence.IsClean g.power) : Sequence.IsClean product.power := by
  replace h := GroupsMultiplied.of_productOf h
  induction h with
  | nil => exact hstart
  | cons hmultiply _ ih =>
    obtain ⟨hg, hrest⟩ := List.forall_mem_cons.1 hgroups
    exact ih (Group.isClean_multiply hmultiply hstart hg) hrest

/-- The content of a parenthesis in place of what it stands in. -/
theorem Sequence.SideYields.of_paren {nodes b p : List Node} {negative : Bool}
    (h : .paren b p negative ∈ nodes) : Sequence.SideYields nodes b where
  clean := fun hclean => (hclean.of_mem h).1
  height := by
    have hle := Sequence.height_le_of_mem h 0 0
    rw [Node.height_paren] at hle
    exact (Nat.le_succ _).trans hle

/-- A summand that has been multiplied by a group. -/
theorem distributed_yields {whole part out : List Node} {multiplier : Group}
    (hpart : Sequence.SideYields whole part)
    (hmultiplier : Sequence.IsClean whole → Sequence.IsClean multiplier.power)
    (h : distributed multiplier part = .ok out) : Sequence.SideYields whole out := by
  rcases distributed_cases h with ⟨node, product, rfl, hproduct, rfl⟩ | ⟨-, -, rfl⟩ | rfl
  · obtain ⟨l, r, g, hl, hr, hmultiply, rfl⟩ := Node.multiply_eq_some hproduct
    refine ⟨fun hclean => Sequence.isClean_singleton.2 (Group.isClean_multiply hmultiply ?_ ?_),
      Nat.zero_le _⟩
    · obtain rfl := Option.some.inj hl
      exact hmultiplier hclean
    · have hnode := Sequence.isClean_singleton.1 (hpart.clean hclean)
      rw [← Group.toNode_of_asGroup? hr] at hnode
      exact hnode
  · exact hpart
  · refine ⟨fun hclean => ?_, ?_⟩
    · show Sequence.IsClean ([multiplier.toNode] ++ .operator .multiply :: part)
      exact (Sequence.isClean_append_operator (by decide)).2
        ⟨Sequence.isClean_singleton.2 (hmultiplier hclean), hpart.clean hclean⟩
    rw [Sequence.height, Sequence.heightFrom_term _ _ rfl, Sequence.heightFrom_multiply]
    exact hpart.height

/-- The summands that take the place of a summand when its parenthesis is removed. -/
theorem expandedSummand_yields {part : List Node} {parts : List (List Node)}
    (h : expandedSummand part = .ok parts) : ∀ out ∈ parts, Sequence.SideYields part out := by
  rcases expandedSummand_cases h with ⟨body, negative, rfl, rfl⟩ | rfl |
    ⟨body, negative, groups, multiplier, hlone, hmultiplier, hparts⟩
  · have hbody : Sequence.SideYields [.paren body [] negative] body := .of_paren (.head _)
    intro out hout
    split at hout
    · obtain ⟨inner, hinner, rfl⟩ := List.mem_map.1 hout
      exact (hbody.trans (.of_mem_summands hinner)).trans
        (Sequence.yields_negatedSummand inner).sideYields
    · exact hbody.trans (.of_mem_summands hout)
  · exact List.forall_mem_singleton.2 (.refl part)
  · obtain ⟨hparen, hgroups⟩ := mem_of_loneParen? hlone
    have hclean (h : Sequence.IsClean part) :
        Sequence.IsClean (if negative then multiplier.negated else multiplier).power := by
      have hproduct := Group.isClean_productOf hmultiplier trivial fun g hg =>
        h.of_mem (hgroups g hg)
      split <;> exact hproduct
    intro out hout
    obtain ⟨inner, hinner, hdistributed⟩ := Except.exists_of_mem_mapM hparts hout
    exact distributed_yields ((Sequence.SideYields.of_paren hparen).trans (.of_mem_summands hinner))
      hclean hdistributed

/-! ## Simplifying -/

/-- A way of simplifying nodes that keeps them clean and makes none higher. -/
def Yielding (simplify : Node → Except SolveError Node) : Prop :=
  ∀ node node', simplify node = .ok node' → Sequence.Yields [node] [node']

namespace Yielding

variable {simplify : Node → Except SolveError Node}

theorem mapM (hsimplify : Yielding simplify) {part part' : List Node}
    (h : part.mapM simplify = .ok part') : Sequence.Yields part part' := by
  have hnodes := (Except.forall₂_of_mapM h).imp fun node node' hnode =>
    hsimplify node node' hnode.2
  clear h
  induction hnodes with
  | nil => exact .refl _
  | cons hnode _ ih => exact .cons hnode ih

theorem expandWith (hsimplify : Yielding simplify) {side out : List Node}
    (h : expandWith simplify side = .ok out) : Sequence.SideYields side out := by
  obtain ⟨sums, hsums, h⟩ := Except.bind_eq_ok.1 h
  obtain rfl := Except.pure_eq_ok.1 h
  refine .of_parts fun part hpart => ?_
  obtain ⟨parts, hparts, hpart⟩ := List.mem_flatten.1 hpart
  obtain ⟨old, hold, hexpanded⟩ := Except.exists_of_mem_mapM hsums hparts
  obtain ⟨simplified, hsimplified, hexpanded⟩ := Except.bind_eq_ok.1 hexpanded
  exact ((Sequence.SideYields.of_mem_summands hold).trans
    (hsimplify.mapM hsimplified).sideYields).trans (expandedSummand_yields hexpanded part hpart)

theorem simplifyWith (hsimplify : Yielding simplify) {nodes out : List Node}
    (h : simplifyWith simplify nodes = .ok out) : Sequence.SideYields nodes out := by
  rcases simplifyWith_cases h with ⟨-, multiplied, expanded, hmultiplied, hexpanded, rfl⟩ |
    ⟨-, value, -, rfl⟩
  · exact ((Sequence.yields_multiplied hmultiplied).sideYields.trans
      (hsimplify.expandWith hexpanded)).trans (Sequence.sideYields_collected expanded)
  · exact .constant nodes value

end Yielding

theorem Group.isClean_raised {g raised : Group} {power : List Node}
    (h : g.raised power = .ok raised) : Sequence.IsClean raised.power := by
  obtain ⟨exponent, own, -, -, rfl⟩ := Group.raised_eq_ok h
  exact Group.isClean_powerOf _

/-- A parenthesis whose content has been simplified. -/
theorem simplifiedParen_yields {body content power : List Node} {negative : Bool} {node : Node}
    (hcontent : Sequence.SideYields content body)
    (h : simplifiedParen body power negative = .ok node) :
    Sequence.Yields [.paren content power negative] [node] := by
  cases ParenSimplified.of_simplifiedParen h with
  | evaluated => exact .single rfl rfl (fun _ => trivial) (Nat.zero_le _)
  | kept =>
    refine .single rfl rfl (fun hclean => ⟨hcontent.clean hclean.1, hclean.2⟩) ?_
    rw [Node.height_paren, Node.height_paren]
    exact Nat.succ_le_succ hcontent.height
  | @opened single _ hterm =>
    have hsingle : Sequence.Yields [.paren content [] negative] [single] := by
      refine .single rfl hterm
        (fun hclean => Sequence.isClean_singleton.1 (hcontent.clean hclean.1)) ?_
      have hheight := hcontent.height
      rw [Sequence.height_singleton hterm] at hheight
      rw [Node.height_paren]
      exact hheight.trans (Nat.le_succ _)
    split
    · exact hsingle.trans (Sequence.yields_negated_node single)
    · exact hsingle
  | raised _ _ hraised =>
    have hclean := Group.isClean_raised hraised
    refine .single rfl rfl (fun _ => ?_) (Nat.zero_le _)
    split <;> exact hclean

/-- Simplifying keeps nodes clean and makes none higher, by induction on the depth. -/
theorem yielding_simplified (depth : Nat) : Yielding (Node.simplified depth) := by
  induction depth with
  | zero =>
    intro node node' h
    rw [Node.simplified_zero] at h
    exact Except.ok.inj h ▸ .refl _
  | succ depth ih =>
    intro node node' h
    cases node with
    | paren b p negative =>
      obtain ⟨body, hbody, h⟩ := Except.bind_eq_ok.1 h
      exact simplifiedParen_yields (ih.simplifyWith hbody) h
    | fraction t b =>
      obtain ⟨top, bottom, htop, hbottom, hfraction, rfl⟩ := Node.eq_fraction_of_simplified h
      have ht := ih.simplifyWith htop
      have hb := ih.simplifyWith hbottom
      refine .single rfl rfl
        (fun hclean => ⟨ht.clean hclean.1, hb.clean hclean.2.1, hfraction⟩) ?_
      rw [Node.height_fraction, Node.height_fraction]
      exact Nat.succ_le_succ (max_le_max ht.height hb.height)
    | _ => exact Except.ok.inj h ▸ .refl _

theorem Sequence.sideYields_expanded {side out : List Node}
    (h : Sequence.expanded side = .ok out) : Sequence.SideYields side out :=
  (yielding_simplified _).expandWith h

/-! ## Equations -/

namespace Sides

/-- Both sides are clean. -/
def IsClean (s : Sides) : Prop := Sequence.IsClean s.left ∧ Sequence.IsClean s.right

/-- The height of the higher side. -/
def height (s : Sides) : Nat := max (Sequence.height s.left) (Sequence.height s.right)

/-- An equation that may take the place of another one. -/
structure Yields (s t : Sides) : Prop where
  clean : s.IsClean → t.IsClean
  height : t.height ≤ s.height

variable {s t u : Sides}

namespace Yields

theorem refl (s : Sides) : Yields s s := ⟨id, Nat.le_refl _⟩

theorem trans (h : Yields s t) (h' : Yields t u) : Yields s u :=
  ⟨fun hclean => h'.clean (h.clean hclean), h'.height.trans h.height⟩

theorem of_sides (hleft : Sequence.SideYields s.left t.left)
    (hright : Sequence.SideYields s.right t.right) : Yields s t :=
  ⟨fun hclean => ⟨hleft.clean hclean.1, hright.clean hclean.2⟩,
    max_le_max hleft.height hright.height⟩

theorem of_mapM {rewrite : List Node → Except SolveError (List Node)}
    (hrewrite : ∀ side out, rewrite side = .ok out → Sequence.SideYields side out)
    (h : s.mapM rewrite = .ok t) : Yields s t := by
  obtain ⟨left, right, hleft, hright, rfl⟩ := Sides.mapM_eq_ok h
  exact .of_sides (hrewrite _ _ hleft) (hrewrite _ _ hright)

end Yields

theorem yields_withoutFraction {limit : Nat} (h : s.withoutFraction limit = .ok t) :
    s.Yields t := by
  cases FractionCleared.of_withoutFraction h with
  | left hspot hcleared =>
    obtain ⟨hleft, hright⟩ := FractionSpot.yields_cleared hcleared
      (FractionSpot.inSummands?_eq_some hspot)
    exact .of_sides hleft hright
  | right _ hspot hcleared =>
    obtain ⟨hright, hleft⟩ := FractionSpot.yields_cleared hcleared
      (FractionSpot.inSummands?_eq_some hspot)
    exact .of_sides hleft hright
  | none => exact .refl s

theorem yields_cancelled {limit : Nat} (h : s.cancelled limit = .ok t) : s.Yields t := by
  rcases cancelled_cases h with rfl | ⟨common, -, hleft, hright, rfl⟩
  · exact .refl t
  · exact .of_sides (Sequence.sideYields_dividedBy hleft) (Sequence.sideYields_dividedBy hright)

theorem yields_collected (s : Sides) : s.Yields s.collected :=
  .of_sides ((Sequence.sideYields_collected s.left).trans (Sequence.sideYields_withoutZeros _ _))
    ((Sequence.sideYields_collected s.right).trans (Sequence.sideYields_withoutZeros _ _))

/-- Summands of both sides that are put together. -/
theorem join_of_sides {parts : List (List Node)}
    (h : ∀ part ∈ parts, Sequence.SideYields s.left part ∨ Sequence.SideYields s.right part) :
    (s.IsClean → Sequence.IsClean (Sequence.join parts)) ∧
      Sequence.height (Sequence.join parts) ≤ s.height := by
  constructor
  · refine fun hclean => Sequence.isClean_join fun part hpart => ?_
    rcases h part hpart with hside | hside
    · exact hside.clean hclean.1
    · exact hside.clean hclean.2
  · refine Sequence.height_join_le fun part hpart => ?_
    rcases h part hpart with hside | hside
    · exact hside.height.trans (Nat.le_max_left _ _)
    · exact hside.height.trans (Nat.le_max_right _ _)

/-- A summand that changes sides changes its sign only. -/
theorem yields_crossed {name : Char} (h : s.crossed name = .moved t) : s.Yields t := by
  rcases (crossed_eq_moved h).2 with rfl | rfl
  · exact .refl t
  · have hkept {side part : List Node} {p : List Node → Bool}
        (hpart : part ∈ (Sequence.summands side).filter p) : Sequence.SideYields side part :=
      .of_mem_summands (List.mem_filter.1 hpart).1
    have hmoved {side part : List Node} {p : List Node → Bool}
        (hpart : part ∈ ((Sequence.summands side).filter p).map Sequence.negatedSummand) :
        Sequence.SideYields side part := by
      obtain ⟨old, hold, rfl⟩ := List.mem_map.1 hpart
      exact (hkept hold).trans (Sequence.yields_negatedSummand old).sideYields
    obtain ⟨hleftClean, hleftHeight⟩ := join_of_sides (s := s) fun part hpart =>
      (List.mem_append.1 hpart).imp hkept hmoved
    obtain ⟨hrightClean, hrightHeight⟩ := join_of_sides (s := s) fun part hpart =>
      ((List.mem_append.1 hpart).imp hkept hmoved).symm
    exact ⟨fun hclean => ⟨hleftClean hclean, hrightClean hclean⟩, max_le hleftHeight hrightHeight⟩

/-- One pass. -/
theorem Pass.yields (h : s.Pass t) : s.Yields t := by
  cases h with
  | fractions hleft hright =>
    exact .of_sides (hleft.yields fun _ _ _ => Node.yields_withFractions).sideYields
      (hright.yields fun _ _ _ => Node.yields_withFractions).sideYields
  | withoutFraction h => exact yields_withoutFraction h
  | cancelled h => exact yields_cancelled h
  | multiplied h =>
    exact .of_mapM (fun _ _ hout => (Sequence.yields_multiplied hout).sideYields) h
  | collected => exact yields_collected s
  | crossed h => exact yields_crossed h
  | expanded h => exact .of_mapM (fun _ _ => Sequence.sideYields_expanded) h

/-- Some passes, one after the other. -/
theorem Passes.yields (h : s.Passes t) : s.Yields t := by
  induction h with
  | refl => exact .refl s
  | tail _ hpass ih => exact ih.trans hpass.yields

/-- An equation is clean if its sides are. -/
theorem isCleanProblem_toNodes (hs : s.HasOneRelation) :
    Sequence.IsCleanProblem s.toNodes ↔ s.IsClean := by
  have hsides {side : List Node} (hside : ∀ node ∈ side, node.isRelation = false) :
      Sequence.IsClean side ↔
        (∀ node ∈ side, node.isRelation = true ∨ node.IsClean) ∧ Sequence.IsSpaced side := by
    refine Sequence.isClean_iff.trans (and_congr_left fun _ => ?_)
    exact forall₂_congr fun node hnode => by simp [hside node hnode]
  rw [IsClean, hsides hs.1, hsides hs.2]
  simp only [Sequence.IsCleanProblem, Sequence.IsSpaced, toNodes, List.forall_mem_append,
    List.forall_mem_cons, List.isChain_append, List.isChain_cons]
  simp [Node.isRelation, Node.isTerm]
  tauto

/-- There is no relation inside of a clean side. -/
theorem IsClean.hasOneRelation (h : s.IsClean) : s.HasOneRelation := by
  have hside {side : List Node} (hside : Sequence.IsClean side) :
      ∀ node ∈ side, node.isRelation = false := by
    intro node hnode
    cases node with
    | relation r => exact (hside.of_mem hnode).elim
    | _ => rfl
  exact ⟨hside h.1, hside h.2⟩

end Sides

/-- A clean equation is clean after every step, so all later steps find one, too: its operators are
written and no two terms stand side by side, there is no `-` and no relation inside of a node, and
no denominator is a written zero, however deep the nodes are nested. -/
theorem step_keeps_clean {nodes next : List Node} (hclean : Sequence.cleaned nodes = .ok nodes)
    (solve : List Node → Traced Solution) (options : Options) (name : Char)
    (hstep : (Sequence.step solve options name nodes).outcome = .ok (.rewritten next)) :
    Sequence.cleaned next = .ok next ∧ ∃ t : Sides, next = t.toNodes ∧ t.IsClean := by
  obtain ⟨s, t, rfl, hone, hpasses, rfl⟩ := Sequence.passes_of_step hstep
  have hs := (Sides.isCleanProblem_toNodes hone).1 (Sequence.cleaned_eq_ok_iff.1 hclean)
  have ht := (Sides.Passes.yields hpasses).clean hs
  exact ⟨Sequence.cleaned_eq_ok_iff.2 ((Sides.isCleanProblem_toNodes ht.hasOneRelation).2 ht), t,
    rfl, ht⟩

/-- The first step on `2(x + 1)/3 = 4 - x` clears the fraction and moves a term to the left. -/
theorem step_keeps_clean_two_thirds :
    ∃ next, (Sequence.step (fun _ => Traced.tooDeep) Options.standard 'x' [Node.constant 2,
        .operator .multiply,
        .paren [.group (some 'x') (Number.ofNat 1) [], .operator .add, Node.constant 1] [] false,
        .operator .divide, Node.constant 3, .relation .equal, Node.constant 4, .operator .add,
        .group (some 'x') (Number.ofRat (-1)) []]).outcome = .ok (.rewritten next) ∧
      Sequence.cleaned next = .ok next ∧ ∃ t : Sides, next = t.toNodes ∧ t.IsClean := by
  have hclean : Sequence.cleaned [Node.constant 2, .operator .multiply,
      .paren [.group (some 'x') (Number.ofNat 1) [], .operator .add, Node.constant 1] [] false,
      .operator .divide, Node.constant 3, .relation .equal, Node.constant 4, .operator .add,
      .group (some 'x') (Number.ofRat (-1)) []] = .ok [Node.constant 2, .operator .multiply,
      .paren [.group (some 'x') (Number.ofNat 1) [], .operator .add, Node.constant 1] [] false,
      .operator .divide, Node.constant 3, .relation .equal, Node.constant 4, .operator .add,
      .group (some 'x') (Number.ofRat (-1)) []] := by decide +kernel
  have hstep : (Sequence.step (fun _ => Traced.tooDeep) Options.standard 'x' [Node.constant 2,
      .operator .multiply,
      .paren [.group (some 'x') (Number.ofNat 1) [], .operator .add, Node.constant 1] [] false,
      .operator .divide, Node.constant 3, .relation .equal, Node.constant 4, .operator .add,
      .group (some 'x') (Number.ofRat (-1)) []]).outcome =
      .ok (.rewritten [Node.constant 2, .operator .multiply,
        .paren [.group (some 'x') (Number.ofNat 1) [], .operator .add, Node.constant 1] [] false,
        .operator .add, .group (some 'x') (Number.ofNat 3) [], .relation .equal,
        Node.constant 12]) := by decide +kernel
  exact ⟨_, hstep, step_keeps_clean hclean _ _ _ hstep⟩

end OneUnknown
