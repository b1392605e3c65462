import OneUnknown.Proofs.Merging
import OneUnknown.Proofs.Preparation
import OneUnknown.Proofs.Unknowns
/-!
# What is solved has nothing missing

A run of the solver is followed from its end.  Its last step has looked at everything in its
equation, so that is fit, and so is every equation before it.  There are two short cuts on which
something is not looked at, and one more where a factor holds everywhere and the factors behind it
are left out.

* `Sides.dropsFactor`, `Stage.skipsParts`: the short cuts;
* `Traced.EnsuresUnless`: what a computation gives unless a short cut is taken;
* `Sides.isFit_of_closedForm`, `Sides.isFit_of_factors`: the ends of a run;
* `Sides.strict_rewritten`, `Sides.strict_step`: one step;
* `strict_rewriteUntilSolved`, `strictly_solveWithin`: runs, by induction on the rounds and on the
  levels;
* `isFitEquation_of_solve`: the equation that was read.
-/

namespace OneUnknown

/-! ## Short cuts -/

/-- Whether a product is taken apart although a factor without the unknown has no value. -/
def Sides.dropsFactor (s : Sides) : Bool :=
  match s.zeroProduct? with
  | .ok (some product) =>
    isFactorable product && (Sequence.factors product).any fun factor =>
      !Sequence.hasVariable factor && !(Sequence.evaluate factor).isOk
  | _ => false

/-- Whether the step that follows a stage ends without having looked at everything: the two sides
are the same when terms are about to change sides, or a factor without the unknown is dropped when a
product is taken apart. -/
def Stage.skipsParts (stage : Stage) : Bool :=
  match Sequence.withFractions stage.nodes >>= Sides.ofNodes with
  | .ok s =>
    match stage.name with
    | .likeTerms => s.left = s.right
    | .cleaning | .crossing | .parentheses => s.dropsFactor
    | .fractions | .commonFactor | .multiplication => false
  | .error _ => false

/-- Whether it is recorded that every value solves the problem. -/
def Solution.isTrueForAll (solution : Solution) : Bool :=
  solution.entries.any fun entry => match entry.2 with
    | .trueForAll _ => true
    | _ => false

theorem Solution.isTrueForAll_iff {solution : Solution} :
    solution.isTrueForAll = true ↔ ∃ name other, (name, .trueForAll other) ∈ solution.entries := by
  rw [isTrueForAll, List.any_eq_true]
  constructor
  · rintro ⟨⟨name, value⟩, hentry, h⟩
    cases value with
    | trueForAll other => exact ⟨name, other, hentry⟩
    | _ => cases h
  · rintro ⟨name, other, hentry⟩
    exact ⟨_, hentry, rfl⟩

/-! ## Results unless a short cut is taken -/

/-- The results of a computation have a property, unless one of its stages has another one. -/
def Traced.EnsuresUnless (escapes : Stage → Bool) (result : α → Prop) (x : Traced α) : Prop :=
  (∀ stage ∈ x.stages, escapes stage = false) → ∀ value, x.outcome = .ok value → result value

namespace Traced.EnsuresUnless

variable {α β : Type} {escapes : Stage → Bool} {result : α → Prop} {result' : β → Prop}

theorem of_ensures {x : Traced α} {recorded : List Node → Prop} (h : x.Ensures recorded result) :
    x.EnsuresUnless escapes result := fun _ => h.outcome

theorem of_pure {value : α} (h : result value) :
    (pure value : Traced α).EnsuresUnless escapes result :=
  fun _ _ houtcome => Except.ok.inj houtcome ▸ h

theorem of_ofExcept {x : Except SolveError α} (h : ∀ value, x = .ok value → result value) :
    (Traced.ofExcept x).EnsuresUnless escapes result :=
  fun _ value houtcome => h value (Traced.ofExcept_eq_ok.1 houtcome)

theorem of_ofHalting {x : Except Halt α} (h : ∀ value, x = .ok value → result value) :
    (Traced.ofHalting x).EnsuresUnless escapes result := fun _ => h

theorem of_fail (reason : SolveError) : (Traced.fail reason : Traced α).EnsuresUnless escapes result :=
  fun _ _ houtcome => by cases houtcome

/-- A stage that is recorded is no short cut. -/
theorem of_stage (name : StageName) (nodes : List Node) :
    (Traced.stage name nodes).EnsuresUnless escapes fun _ => escapes ⟨name, nodes⟩ = false :=
  fun h _ _ => h _ (.head _)

theorem bind {x : Traced α} {next : α → Traced β} (h : x.EnsuresUnless escapes result)
    (hnext : ∀ value, result value → (next value).EnsuresUnless escapes result') :
    (x >>= next).EnsuresUnless escapes result' := by
  intro hstages value houtcome
  obtain ⟨first, hfirst, hvalue, heq⟩ := Traced.bind_cases houtcome
  rw [heq, List.forall_mem_append] at hstages
  exact hnext first (h hstages.1 first hfirst) hstages.2 value hvalue

theorem and {x : Traced α} {other : α → Prop} (h : x.EnsuresUnless escapes result)
    (h' : x.EnsuresUnless escapes other) :
    x.EnsuresUnless escapes fun value => result value ∧ other value :=
  fun hstages value houtcome => ⟨h hstages value houtcome, h' hstages value houtcome⟩

theorem mono {x : Traced α} {other : α → Prop} (h : x.EnsuresUnless escapes result)
    (himp : ∀ value, result value → other value) : x.EnsuresUnless escapes other :=
  fun hstages value houtcome => himp value (h hstages value houtcome)

end Traced.EnsuresUnless

/-- The results of a computation have a property, unless it takes a short cut. -/
abbrev Traced.Strict (result : α → Prop) (x : Traced α) : Prop :=
  x.EnsuresUnless Stage.skipsParts result

section

variable {fits : Prop} {x : Char} {s t : Sides}

theorem Sides.asSides_toNodes (hs : s.IsPrepared fits) :
    Sequence.withFractions s.toNodes >>= Sides.ofNodes = .ok s := by
  rw [Sides.withFractions_toNodes hs]
  exact Sides.ofNodes_of_isPrepared hs

theorem Sides.skipsParts_likeTerms (hs : s.IsPrepared fits)
    (h : Stage.skipsParts ⟨.likeTerms, s.toNodes⟩ = false) : s.left ≠ s.right := by
  simpa [Stage.skipsParts, Sides.asSides_toNodes hs] using h

theorem Sides.skipsParts_crossing (hs : s.IsPrepared fits)
    (h : Stage.skipsParts ⟨.crossing, s.toNodes⟩ = false) : s.dropsFactor = false := by
  simpa [Stage.skipsParts, Sides.asSides_toNodes hs] using h

theorem Sides.skipsParts_parentheses (hs : s.IsPrepared fits)
    (h : Stage.skipsParts ⟨.parentheses, s.toNodes⟩ = false) : s.dropsFactor = false := by
  simpa [Stage.skipsParts, Sides.asSides_toNodes hs] using h

/-! ## The ends of a run -/

/-- A variable with an exponent on one side, and on the other one something that has been
evaluated. -/
theorem Sides.isFit_of_closedForm {solution : Solution} (hs : s.IsPrepared fits)
    (h : s.closedForm? x = .ok (some solution)) : fits ∧ s.IsFit := by
  have hterm {side : List Node} {g : Group} {exponent : Nat} (hside : Sequence.IsPrepared fits side)
      (hg : Sequence.variableTerm? side = some g) (hexponent : g.wholeExponent? = some exponent) :
      fits ∧ Sequence.IsSum Node.IsFit side := by
    obtain ⟨rfl, hletter⟩ := Sequence.variableTerm?_eq_some hg
    refine ⟨(hside.1.2 hletter).1 (.of_wholePower hexponent), .single rfl ?_⟩
    obtain ⟨letter, n, p⟩ := g
    obtain ⟨name, rfl⟩ := Option.isSome_iff_exists.1 hletter
    exact .variable name n p
  obtain ⟨term, exponent, relation, other, constant, values, hform, hexponent, hconstant, -, -⟩ :=
    Sides.closedForm?_eq_some h
  obtain ⟨-, ⟨hleft, rfl, rfl⟩ | ⟨hright, rfl, rfl⟩⟩ := Sides.termAndConstant?_cases hform
  · obtain ⟨hfits, hfit⟩ := hterm hs.1 hleft hexponent
    exact ⟨hfits, hfit, Sequence.isSum_of_evaluate hs.2 hconstant⟩
  · obtain ⟨hfits, hfit⟩ := hterm hs.2 hright hexponent
    exact ⟨hfits, Sequence.isSum_of_evaluate hs.1 hconstant, hfit⟩

/-- A factor of a product that can be taken apart consists of terms. -/
theorem isTerm_of_mem_factors {product factor : List Node} (hproduct : Sequence.IsPrepared fits product)
    (hfactorable : isFactorable product = true) (hfactor : factor ∈ Sequence.factors product) :
    ∀ node ∈ factor, node.isTerm = true := by
  intro node hnode
  obtain ⟨hmem, hne⟩ := Sequence.mem_of_mem_splitOnP _ hfactor hnode
  have hprepared := Sequence.isPrepared_iff.1 hproduct node hmem
  cases node with
  | operator op =>
    rw [operator_of_isFactorable hfactorable hmem] at hne
    cases hne
  | relation r => exact hprepared.elim
  | _ => rfl

/-- A factor is fit if its content is. -/
theorem fills_of_factorContent {product factor : List Node}
    (hproduct : Sequence.IsPrepared fits product)
    (hfactorable : isFactorable product = true) (hfactor : factor ∈ Sequence.factors product)
    (hne : factor ≠ []) (h : Sequence.IsSum Node.IsFit (factorContent factor)) (before : Slot) :
    Sequence.Fills Node.IsFit factor before .taken := by
  by_cases hparen : ∃ b p negative, factor = [.paren b p negative]
  · obtain ⟨b, p, negative, rfl⟩ := hparen
    rw [isFactorable, Bool.and_eq_true, List.all_eq_true] at hfactorable
    refine .single rfl (Node.isFit_paren.2 ⟨h, ?_⟩)
    rcases Bool.or_eq_true_iff.1 (hfactorable.2 _ hfactor) with hempty | hwhole
    · exact .inl (List.isEmpty_iff.1 hempty)
    · obtain ⟨exponent, hexponent⟩ := Option.isSome_iff_exists.1 hwhole
      exact .of_positiveIntegerPower? hexponent
  · have hcontent : factorContent factor = factor := by
      unfold factorContent
      split
      · exact absurd ⟨_, _, _, rfl⟩ hparen
      · rfl
    rw [hcontent] at h
    have hterms := isTerm_of_mem_factors hproduct hfactorable hfactor
    have htaken {nodes : List Node} {between after : Slot} (hterms : ∀ node ∈ nodes, node.isTerm = true)
        (h : Sequence.Fills Node.IsFit nodes between after) :
        after = if nodes = [] then between else .taken := by
      induction h with
      | nil => rfl
      | term _ _ _ ih =>
        rw [ih fun node hnode => hterms node (.tail _ hnode)]
        simp
      | tight | add => cases hterms _ (.head _)
    obtain ⟨hfills, -⟩ := h
    obtain rfl := htaken hterms hfills
    rw [if_neg hne] at hfills
    obtain ⟨node, rest, rfl⟩ := List.exists_cons_of_ne_nil hne
    exact hfills.of_term (hterms node (.head _)) before

/-- A product that is zero is fit if its factors are: those without the unknown have a value if
none of them is dropped. -/
theorem Sides.isFit_of_factors {product : List Node} (hs : s.IsPrepared fits)
    (hproduct : s.zeroProduct? = .ok (some product)) (hfactorable : isFactorable product = true)
    (hdrops : s.dropsFactor = false)
    (hfactors : ∀ factor ∈ Sequence.factors product, Sequence.hasVariable factor = true →
      Sequence.IsSum Node.IsFit (factorContent factor)) : s.IsFit := by
  obtain ⟨-, other, -, hother, hcases⟩ := Sides.zeroProduct?_eq_some hproduct
  have hvalues : ∀ factor ∈ Sequence.factors product, Sequence.hasVariable factor = false →
      ∃ value, Sequence.evaluate factor = .ok value := by
    intro factor hfactor hvariable
    simp only [Sides.dropsFactor, hproduct, hfactorable, Bool.true_and, List.any_eq_false] at hdrops
    have hok := hdrops factor hfactor
    cases hvalue : Sequence.evaluate factor with
    | ok value => exact ⟨value, rfl⟩
    | error reason => simp [hvariable, hvalue, Except.isOk, Except.toBool] at hok
  have hsum (hprepared : Sequence.IsPrepared fits product) : Sequence.IsSum Node.IsFit product := by
    refine ⟨Sequence.fills_of_factors (fun factor hfactor before => ?_) .empty, by decide⟩
    cases hvariable : Sequence.hasVariable factor with
    | false =>
      obtain ⟨value, hvalue⟩ := hvalues factor hfactor hvariable
      exact Sequence.fills_of_evaluate (hprepared.of_mem_factors hfactor) hvalue before
    | true =>
      refine fills_of_factorContent hprepared hfactorable hfactor ?_
        (hfactors factor hfactor hvariable) before
      rintro rfl
      cases hvariable
  obtain ⟨rfl, rfl⟩ | ⟨rfl, rfl⟩ := hcases
  · exact ⟨hsum hs.1, Sequence.isSum_of_evaluate hs.2 hother⟩
  · exact ⟨Sequence.isSum_of_evaluate hs.1 hother, hsum hs.2⟩

/-! ## One step -/

theorem Sides.strict_tidied (options : Options) (hs : s.IsPrepared fits) :
    (s.tidied options x).Strict fun crossing =>
      ∃ next, crossing = .moved next ∧ s.Retraced fits next := by
  refine .bind (.of_ofHalting fun cleared hcleared => Sides.retraced_withoutFraction hs hcleared)
    fun cleared h₁ => .bind (.of_stage _ _) fun _ _ => .bind (.of_ofHalting fun cancelled hcancelled =>
      h₁.trans (Sides.retraced_cancelled h₁.prepared hcancelled)) fun cancelled h₂ =>
        .bind (.of_stage _ _) fun _ _ => ?_
  refine .bind (.of_ofExcept fun multiplied hmultiplied =>
    h₂.trans (Sides.retraced_multiplied h₂.prepared hmultiplied)) fun multiplied h₃ =>
      .bind (.of_stage _ _) fun _ _ => ?_
  have h₄ := h₃.trans (Sides.retraced_collected h₃.prepared)
  refine .bind (.of_stage _ _) fun _ hskips => .of_pure ?_
  cases hcrossed : multiplied.collected.crossed x with
  | moved next => exact ⟨next, rfl, h₄.trans (Sides.retraced_crossed h₄.prepared hcrossed)⟩
  | settled value =>
    have hne := Sides.skipsParts_likeTerms h₄.prepared hskips
    exact absurd (Sides.crossed_eq_settled hcrossed).1 hne

/-- A step either solves an equation in which nothing is missing, or leads to another one that it
may take the place of. -/
def Step.IsStrict (fits : Prop) (s : Sides) : Step → Prop
  | .solved solution => solution.isTrueForAll = true ∨ (fits ∧ s.IsFit)
  | .rewritten next => ∃ t : Sides, next = t.toNodes ∧ s.Retraced fits t ∧ t.dropsFactor = false

theorem Sides.strict_openedUp (hs : s.IsPrepared fits) : s.openedUp.Strict (Step.IsStrict fits s) := by
  refine .bind (.of_ofExcept fun opened hopened => Sides.retraced_expanded hs hopened)
    fun opened h => .bind (.of_stage _ _) fun _ hskips => ?_
  split
  · exact .of_fail _
  · exact .of_pure ⟨opened, rfl, h, Sides.skipsParts_parentheses h.prepared hskips⟩

theorem Sides.strict_rewritten (options : Options) (hs : s.IsPrepared fits) :
    (s.rewritten options x).Strict (Step.IsStrict fits s) := by
  refine .bind (Sides.strict_tidied options hs) fun crossing hcrossing => ?_
  obtain ⟨next, rfl, h⟩ := hcrossing
  refine .bind (.of_stage _ _) fun _ hskips => ?_
  split
  · exact Sides.strict_openedUp hs
  · exact .of_pure ⟨next, rfl, h, Sides.skipsParts_crossing h.prepared hskips⟩

/-- Where a factor holds everywhere, nothing is added up. -/
theorem addEntries_eq_none_of_isTrueForAll {found solution : Solution}
    (h : solution.isTrueForAll = true) : addEntries found solution.entries = none := by
  obtain ⟨name, other, hmem⟩ := Solution.isTrueForAll_iff.1 h
  generalize solution.entries = entries at hmem
  clear h
  induction entries generalizing found with
  | nil => cases hmem
  | cons entry rest ih =>
    obtain ⟨first, value⟩ := entry
    rcases List.mem_cons.1 hmem with heq | hrest
    · cases heq
      rfl
    · cases value with
      | trueForAll => rfl
      | _ => exact ih hrest

theorem Solution.isTrueForAll_only (name other : Char) :
    (Solution.only name (.trueForAll other)).isTrueForAll = true :=
  Solution.isTrueForAll_iff.2 ⟨name, other, .head _⟩

/-- What follows from the equation of each factor being solved follows for all of them, unless one
of them holds everywhere. -/
theorem strict_mergeFactors {P : List Node → Prop} {solve : List Node → Traced Solution}
    {equations : List (List Node)}
    (hequations : ∀ equation ∈ equations,
      (solve equation).Strict fun solution => solution.isTrueForAll = true ∨ P equation)
    (found : Solution) :
    (mergeFactors solve x found equations).Strict fun solution =>
      solution.isTrueForAll = true ∨ ∀ equation ∈ equations, P equation := by
  induction equations generalizing found with
  | nil => exact .of_pure (.inr (by simp))
  | cons equation rest ih =>
    refine .bind (hequations equation (.head _)) fun solution hsolution => ?_
    cases hmerged : addEntries found solution.entries with
    | none => exact .of_pure (.inl (Solution.isTrueForAll_only x x))
    | some merged =>
      have hfirst : P equation := hsolution.resolve_left fun hall => by
        rw [addEntries_eq_none_of_isTrueForAll hall] at hmerged
        cases hmerged
      refine (ih (fun other hother => hequations other (.tail _ hother)) merged).mono
        fun _ hrest => hrest.imp_right fun hrest => List.forall_mem_cons.2 ⟨hfirst, hrest⟩

/-- The equations of factors are solved strictly. -/
def StrictlySolves (fits : Prop) (x : Char) (solve : List Node → Traced Solution) : Prop :=
  ∀ content, Sequence.IsPrepared fits content →
    Sequence.unknowns (content ++ [.relation .equal, Node.constant 0]) = [x] →
      (solve (content ++ [.relation .equal, Node.constant 0])).Strict fun solution =>
        solution.isTrueForAll = true ∨ (fits ∧ Sequence.IsSum Node.IsFit content)

theorem isPrepared_factorContent {factor : List Node} (h : Sequence.IsPrepared fits factor) :
    Sequence.IsPrepared fits (factorContent factor) := by
  unfold factorContent
  split
  · exact h.1.1
  · exact h

variable {solve : List Node → Traced Solution}

theorem Sides.isPrepared_zeroProduct {product : List Node} (hs : s.IsPrepared fits)
    (hproduct : s.zeroProduct? = .ok (some product)) : Sequence.IsPrepared fits product := by
  obtain ⟨-, other, -, -, ⟨rfl, -⟩ | ⟨rfl, -⟩⟩ := Sides.zeroProduct?_eq_some hproduct
  · exact hs.1
  · exact hs.2

theorem mem_factorEquations {product equation : List Node} :
    equation ∈ factorEquations product ↔ ∃ factor ∈ Sequence.factors product,
      Sequence.hasVariable factor = true ∧
        equation = factorContent factor ++ [.relation .equal, Node.constant 0] := by
  simp only [factorEquations, List.mem_map, List.mem_filter, and_assoc]
  exact exists_congr fun factor => and_congr_right fun _ => and_congr_right fun _ => eq_comm

/-- A product that is taken apart. -/
theorem Sides.strict_zeroProduct {product : List Node} (hsolve : StrictlySolves fits x solve)
    (hs : s.IsPrepared fits) (hunknowns : Sequence.unknowns s.toNodes = [x])
    (hproduct : s.zeroProduct? = .ok (some product)) (hfactorable : isFactorable product = true)
    (hdrops : s.dropsFactor = false) :
    (mergeFactors solve x Solution.empty (factorEquations product)).Strict fun solution =>
      solution.isTrueForAll = true ∨ (fits ∧ s.IsFit) := by
  have hprepared := Sides.isPrepared_zeroProduct hs hproduct
  have hproductUnknowns := Sides.unknowns_zeroProduct hunknowns hproduct
  have hequation : ∀ equation ∈ factorEquations product, (solve equation).Strict fun solution =>
      solution.isTrueForAll = true ∨ ∃ content,
        equation = content ++ [.relation .equal, Node.constant 0] ∧ fits ∧
          Sequence.IsSum Node.IsFit content := by
    intro equation hequation
    have hequationUnknowns :=
      unknowns_of_mem_factorEquations hproductUnknowns hfactorable hequation
    obtain ⟨factor, hfactor, -, rfl⟩ := mem_factorEquations.1 hequation
    exact (hsolve _ (isPrepared_factorContent (hprepared.of_mem_factors hfactor))
      hequationUnknowns).mono fun solution h => h.imp_right fun hresult => ⟨_, rfl, hresult⟩
  refine (strict_mergeFactors hequation Solution.empty).mono fun solution h =>
    h.imp_right fun hall => ?_
  have hfit {factor : List Node} (hfactor : factor ∈ Sequence.factors product)
      (hvariable : Sequence.hasVariable factor = true) :
      fits ∧ Sequence.IsSum Node.IsFit (factorContent factor) := by
    obtain ⟨content, heq, hresult⟩ :=
      hall _ (mem_factorEquations.2 ⟨factor, hfactor, hvariable, rfl⟩)
    rwa [List.append_cancel_right heq]
  -- The unknown is in the product, and so in a factor of it.
  obtain ⟨c, hc⟩ := Sequence.hasVariable_iff_exists_mem.1
    (Sequence.unknowns_eq_singleton.1 hproductUnknowns).1
  obtain ⟨factor, hfactor, hc⟩ := Sequence.mem_mentions_factors.1 hc
  exact ⟨(hfit hfactor (Sequence.hasVariable_iff_exists_mem.2 ⟨c, hc⟩)).1,
    Sides.isFit_of_factors hs hproduct hfactorable hdrops
      fun factor hfactor hvariable => (hfit hfactor hvariable).2⟩

theorem Sides.strict_step (hsolve : StrictlySolves fits x solve) (options : Options)
    (hs : s.IsPrepared fits) (hunknowns : Sequence.unknowns s.toNodes = [x])
    (hdrops : s.dropsFactor = false) :
    (s.step solve options x).Strict (Step.IsStrict fits s) := by
  refine .bind (.of_ofExcept fun _ h => h) fun closed hclosed => ?_
  cases closed with
  | some solution => exact .of_pure (.inr (Sides.isFit_of_closedForm hs hclosed))
  | none =>
    refine .bind (.of_ofExcept fun _ h => h) fun product hproduct => ?_
    cases product with
    | none => exact Sides.strict_rewritten options hs
    | some product =>
      dsimp only
      split
      · rename_i hfactorable
        exact .bind (Sides.strict_zeroProduct hsolve hs hunknowns hproduct hfactorable hdrops)
          fun _ hsolution => .of_pure hsolution
      · exact Sides.strict_rewritten options hs

/-! ## Runs -/

/-- A sequence whose divisions can be written as fractions, which makes a fit equation of it. -/
def Sequence.IsFitEquation (fits : Prop) (nodes : List Node) : Prop :=
  fits ∧ ∃ s : Sides, Sequence.withFractions nodes = .ok s.toNodes ∧ s.IsPrepared fits ∧ s.IsFit

theorem Sides.isFitEquation_toNodes (hs : s.IsPrepared fits) :
    Sequence.IsFitEquation fits s.toNodes ↔ fits ∧ s.IsFit := by
  refine and_congr_right fun _ => ⟨?_, fun h => ⟨s, Sides.withFractions_toNodes hs, hs, h⟩⟩
  rintro ⟨t, hwritten, ht, hfit⟩
  obtain rfl : s = t := by
    rw [Sides.withFractions_toNodes hs] at hwritten
    have hsame := Sides.ofNodes_of_isPrepared ht
    rw [← Except.ok.inj hwritten, Sides.ofNodes_of_isPrepared hs] at hsame
    exact Except.ok.inj hsame
  exact hfit

/-- A sequence with one relation, whose other nodes are prepared, is a prepared equation. -/
theorem Sides.isPrepared_of_ofNodes {nodes : List Node}
    (hnodes : ∀ node ∈ nodes, node.isRelation = false → node.IsPrepared fits)
    (hone : (nodes.filter Node.isRelation).length ≤ 1) (h : Sides.ofNodes nodes = .ok s) :
    s.IsPrepared fits := by
  obtain rfl := Sides.toNodes_of_ofNodes h
  have hrelations : (s.left ++ s.right).filter Node.isRelation = [] := by
    rw [Sides.toNodes, List.filter_append, List.filter_cons_of_pos rfl, List.length_append,
      List.length_cons] at hone
    rw [List.filter_append, ← List.length_eq_zero_iff, List.length_append]
    omega
  have hside {node : Node} (hnode : node ∈ s.left ++ s.right) (hmem : node ∈ s.toNodes) :
      node.IsPrepared fits :=
    hnodes node hmem (by simpa using List.filter_eq_nil_iff.1 hrelations node hnode)
  exact ⟨Sequence.isPrepared_iff.2 fun node hnode =>
      hside (List.mem_append_left _ hnode) (List.mem_append_left _ hnode),
    Sequence.isPrepared_iff.2 fun node hnode =>
      hside (List.mem_append_right _ hnode) (List.mem_append_right _ (.tail _ hnode))⟩

/-- The fractions of a prepared equation are written already. -/
theorem Sides.isPrepared_of_withFractions {written : List Node} (hs : s.IsPrepared fits)
    (hwritten : Sequence.withFractions s.toNodes = .ok written) :
    ∀ node ∈ written, node.isRelation = false → node.IsPrepared fits := by
  rw [Sides.withFractions_toNodes hs] at hwritten
  obtain rfl := Except.ok.inj hwritten
  intro node hnode hrelation
  rcases List.mem_append.1 hnode with hnode | hnode
  · exact Sequence.isPrepared_iff.1 hs.1 node hnode
  · rcases List.mem_cons.1 hnode with rfl | hnode
    · cases hrelation
    · exact Sequence.isPrepared_iff.1 hs.2 node hnode

/-- One step on a sequence whose divisions can be written as fractions. -/
theorem Sequence.strict_step (hsolve : StrictlySolves fits x solve) (options : Options)
    {nodes : List Node} (hunknowns : Sequence.unknowns nodes = [x])
    (hprepared : ∀ written, Sequence.withFractions nodes = .ok written →
      ∀ node ∈ written, node.isRelation = false → node.IsPrepared fits)
    (hdrops : ∀ s, Sequence.withFractions nodes >>= Sides.ofNodes = .ok s → s.dropsFactor = false) :
    (Sequence.step solve options x nodes).Strict fun step => ∃ s : Sides,
      Sequence.withFractions nodes = .ok s.toNodes ∧ s.IsPrepared fits ∧ step.IsStrict fits s := by
  refine .bind (.of_ofExcept fun _ h => h) fun written hwritten => ?_
  split
  · exact .of_fail _
  · rename_i hone
    refine .bind (.of_ofExcept fun _ h => h) fun s hs => ?_
    have hsides := Sides.isPrepared_of_ofNodes (hprepared written hwritten) (by omega) hs
    have hnodes := Sides.toNodes_of_ofNodes hs
    refine (Sides.strict_step hsolve options hsides ?_ (hdrops s ?_)).mono fun _ h =>
      ⟨s, hnodes ▸ hwritten, hsides, h⟩
    · rw [hnodes, Sequence.unknowns, Sequence.mentions_withFractions hwritten]
      exact hunknowns
    · rw [hwritten]
      exact hs

/-- A run, by induction on its rounds. -/
theorem strict_rewriteUntilSolved (hsolve : StrictlySolves fits x solve)
    (hkeeps : SolvesUnknown x solve) (options : Options) (rounds : Nat) {nodes : List Node}
    (hunknowns : Sequence.unknowns nodes = [x])
    (hprepared : ∀ written, Sequence.withFractions nodes = .ok written →
      ∀ node ∈ written, node.isRelation = false → node.IsPrepared fits)
    (hdrops : ∀ s, Sequence.withFractions nodes >>= Sides.ofNodes = .ok s → s.dropsFactor = false) :
    (rewriteUntilSolved solve options rounds nodes).Strict fun solution =>
      solution.isTrueForAll = true ∨ Sequence.IsFitEquation fits nodes := by
  induction rounds generalizing nodes with
  | zero => exact .of_fail _
  | succ rounds ih =>
    refine .bind (.of_ofExcept fun _ => ProblemKind.of_eq_ok) fun kind hkind => ?_
    rw [hunknowns] at hkind
    obtain ⟨hnone, -⟩ | ⟨y, hy, rfl⟩ := hkind
    · cases hnone
    · obtain rfl := List.singleton_inj.1 hy
      have hstep := Sequence.strict_step hsolve options hunknowns hprepared hdrops
      refine .bind (hstep.and (.of_ensures (Sequence.ensures_step hkeeps options hunknowns)))
        fun step h => ?_
      obtain ⟨⟨s, hwritten, hs, hstrict⟩, hnext⟩ := h
      cases step with
      | solved solution => exact .of_pure (hstrict.imp_right fun hfit =>
          ⟨hfit.1, s, hwritten, hs, hfit.2⟩)
      | rewritten next =>
        obtain ⟨t, rfl, hretraced, htdrops⟩ := hstrict
        refine (ih hnext (fun _ => Sides.isPrepared_of_withFractions hretraced.prepared)
          fun u hu => ?_).mono fun _ h => h.imp_right fun hfit => ?_
        · rw [Sides.asSides_toNodes hretraced.prepared] at hu
          exact Except.ok.inj hu ▸ htdrops
        · obtain ⟨hfits, htfit⟩ := (Sides.isFitEquation_toNodes hretraced.prepared).1 hfit
          exact ⟨hfits, s, hwritten, hs, hretraced.fit htfit⟩

/-- Only a sequence that has a kind is solved. -/
theorem exists_kind_of_rewriteUntilSolved {options : Options} {rounds : Nat} {nodes : List Node}
    {solution : Solution}
    (h : (rewriteUntilSolved solve options rounds nodes).outcome = .ok solution) :
    ∃ kind, ProblemKind.of nodes = .ok kind := by
  cases rounds with
  | zero => cases h
  | succ rounds =>
    obtain ⟨kind, hkind, -⟩ := Traced.bind_eq_ok.1 h
    exact ⟨kind, Traced.ofExcept_eq_ok.1 hkind⟩

theorem solvesUnknown_solveWithin (levels : Nat) (options : Options) :
    SolvesUnknown x (solveWithin levels options) := by
  intro nodes hnodes
  refine (ensures_solveWithin levels options nodes).mono (fun stage hstage => hstage.trans hnodes)
    fun solution h => ?_
  rw [hnodes] at h
  obtain hnone | ⟨y, hy, hbinds⟩ := h
  · cases hnone
  · exact List.singleton_inj.1 hy ▸ hbinds

/-- Runs within runs: by induction on the levels, the equations of factors are solved strictly. -/
theorem strictly_solveWithin (levels : Nat) (options : Options) :
    StrictlySolves fits x (solveWithin levels options) := by
  induction levels with
  | zero =>
    intro _ _ _ _ solution h
    cases h
  | succ levels ih =>
    intro content hcontent hunknowns
    refine .bind (.of_ofExcept fun _ h => h) fun cleaned hcleaned =>
      .bind (.of_stage _ _) fun _ hskips => ?_
    have hletters : Sequence.unknowns cleaned = [x] := by
      rw [Sequence.unknowns, Sequence.mentions_cleaned hcleaned]
      exact hunknowns
    obtain ⟨left, right, hleft, hright, rfl⟩ := Sequence.cleanedFrom_split hcontent hcleaned
    have hleftRetraced := (Sequence.retraced_cleanedFrom hcontent hleft).side
    have hzero : Sequence.IsPrepared fits [Node.constant 0] := ⟨Node.isPrepared_constant 0, trivial⟩
    have hs : Sides.IsPrepared fits ⟨left, .equal, right⟩ :=
      ⟨hleftRetraced.prepared, (Sequence.retraced_cleanedFrom hzero hright).prepared⟩
    have hnodes : left ++ .relation .equal :: right = Sides.toNodes ⟨left, .equal, right⟩ := rfl
    rw [hnodes] at hskips hletters ⊢
    refine (strict_rewriteUntilSolved ih (solvesUnknown_solveWithin levels options) options _
      hletters (fun _ => Sides.isPrepared_of_withFractions hs) fun u hu => ?_).mono
        fun _ h => h.imp_right fun hfit => ?_
    · rw [Sides.asSides_toNodes hs] at hu
      obtain rfl := Except.ok.inj hu
      simpa [Stage.skipsParts, Sides.asSides_toNodes hs] using hskips
    · obtain ⟨hfits, hfit⟩ := (Sides.isFitEquation_toNodes hs).1 hfit
      exact ⟨hfits, hleftRetraced.isSum hfit.1⟩

/-- What was read from a text and is solved as an equation is fit, and so are the exponents of the
unknown, unless every value solves it or a short cut is taken. -/
theorem isFitEquation_of_solve {options : Options} {nodes cleaned : List Node} {solution : Solution}
    (hread : ∀ node ∈ nodes, node.IsRead false) (hcleaned : Sequence.cleaned nodes = .ok cleaned)
    (hvariable : Sequence.hasVariable cleaned = true)
    (hsolve : solveNodes options nodes = .ok solution) (hall : solution.isTrueForAll = false)
    (hskips : ∀ stage ∈ (solveTraced options nodes).1, stage.skipsParts = false) :
    (∀ p ∈ Sequence.variablePowers cleaned, IsFitPower p) ∧
      ∃ fits, Sequence.IsFitEquation fits cleaned := by
  obtain ⟨levels, hrun, hstages⟩ := solveNodes_cases hcleaned hsolve
  rw [hstages, List.forall_mem_cons] at hskips
  obtain ⟨kind, hkind⟩ := exists_kind_of_rewriteUntilSolved hrun
  obtain ⟨hnone, -⟩ | ⟨x, hx, rfl⟩ := ProblemKind.of_eq_ok hkind
  · obtain ⟨c, hc⟩ := Sequence.hasVariable_iff_exists_mem.1 hvariable
    rw [← Sequence.mem_unknowns, hnone] at hc
    cases hc
  · obtain ⟨fits, hfits⟩ := exists_fits_of_kind hkind
    have hfit : Sequence.IsFitEquation fits cleaned := by
      refine (strict_rewriteUntilSolved (strictly_solveWithin _ options)
        (solvesUnknown_solveWithin _ options) options _ hx (fun written hwritten => ?_)
        (fun s hs => ?_) hskips.2 solution hrun).resolve_left (by simp [hall])
      · exact Sequence.isPrepared_withFractions
          (fun node hnode => Sequence.isExplicit_of_cleaned hread hcleaned hnode) hfits hwritten
      · simpa [Stage.skipsParts, hs] using hskips.1
    exact ⟨fun p hp => (hfits p hp).2 hfit.1, fits, hfit⟩

end

end OneUnknown
