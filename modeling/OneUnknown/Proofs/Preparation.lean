import OneUnknown.Proofs.CleanForm
import OneUnknown.Proofs.Flat
import OneUnknown.Proofs.RetracingSides
/-!
# From a text to a prepared equation

What has been read from a text is prepared once it is clean, its divisions are fractions, and all
its terms with the unknown share one key.

* `Node.IsExplicit`, `Sequence.isExplicit_of_cleaned`: clean nodes;
* `Node.variablePowers`, `exists_fits_of_kind`: the exponents of the unknown have a value, or none has;
* `Node.isPrepared_withFractions`: the divisions of clean nodes as fractions;
* `Sides.withFractions_toNodes`: there are no divisions in what is prepared.
-/

namespace OneUnknown

/-! ## Clean nodes -/

mutual
/-- A node in which every operator is written, without differences, fractions and relations inside,
whose exponents are clean. -/
def Node.IsExplicit : Node → Prop
  | .group _ _ p => IsCleanPower p
  | .paren b p _ => Sequence.IsExplicit b ∧ Sequence.IsSpaced b ∧ IsCleanPower p
  | .fraction .. | .relation _ => False
  | .operator op => op ≠ .subtract

/-- A sequence of such nodes. -/
def Sequence.IsExplicit : List Node → Prop
  | [] => True
  | n :: ns => n.IsExplicit ∧ Sequence.IsExplicit ns
end

theorem Sequence.isExplicit_iff {nodes : List Node} :
    Sequence.IsExplicit nodes ↔ ∀ node ∈ nodes, node.IsExplicit := by
  induction nodes with
  | nil => simp [Sequence.IsExplicit]
  | cons node rest ih => simp [Sequence.IsExplicit, ih]

theorem Node.isExplicit_negated {node : Node} (h : node.IsExplicit) : node.negated.IsExplicit := by
  cases node <;> exact h

theorem Node.isExplicit_of_cleaned {node node' : Node} {nested : Bool} (hread : node.IsRead nested)
    (hterm : node.isTerm = true) (h : node.cleaned = .ok node') : node'.IsExplicit := by
  have hclean := Node.isClean_of_cleaned hterm h
  induction node using Node.nested_induction generalizing node' nested with
  | group letter n p =>
    obtain ⟨power, -, h⟩ := Except.bind_eq_ok.1 h
    obtain rfl := Except.pure_eq_ok.1 h
    exact Sequence.cleanedFrom_eq_ok_iff.2 hclean
  | paren b p negative ihb =>
    obtain ⟨body, hbody, h⟩ := Except.bind_eq_ok.1 h
    obtain ⟨power, -, h⟩ := Except.bind_eq_ok.1 h
    obtain rfl := Except.pure_eq_ok.1 h
    cases hread with
    | paren _ _ hb _ =>
      refine ⟨Sequence.isExplicit_iff.2 fun inner hinner => ?_, (Sequence.isClean_iff.1 hclean.1).2,
        Sequence.cleanedFrom_eq_ok_iff.2 hclean.2⟩
      exact (OperatorsWritten.of_cleanedFrom hbody).forall_mem (P := Node.IsExplicit) (fun _ => id)
        (fun _ => Node.isExplicit_negated) (fun old hold holdTerm _ hterm =>
          ihb old hold (hb old hold) holdTerm hterm (Node.isClean_of_cleaned holdTerm hterm))
        inner hinner (.inl rfl)
  | fraction t b => cases hread
  | operator op => cases hterm
  | relation r => cases hterm

/-- What was read from a text has every operator written after cleaning. -/
theorem Sequence.isExplicit_of_cleaned {nodes out : List Node} {nested : Bool}
    (hread : ∀ node ∈ nodes, node.IsRead nested) (h : Sequence.cleaned nodes = .ok out) {node : Node}
    (hnode : node ∈ out) (hrelation : node.isRelation = false) : node.IsExplicit :=
  (OperatorsWritten.of_cleanedFrom h).forall_mem (P := Node.IsExplicit) (fun _ => id)
    (fun _ => Node.isExplicit_negated) (fun old hold holdTerm _ =>
      Node.isExplicit_of_cleaned (hread old hold) holdTerm) node hnode (.inr hrelation)

/-! ## Exponents of the unknown -/

mutual
/-- The exponents of the variables in a node, those inside of exponents apart. -/
def Node.variablePowers : Node → List (List Node)
  | .group letter _ p => if letter.isSome then [p] else []
  | .paren b _ _ => Sequence.variablePowers b
  | .fraction t b => Sequence.variablePowers t ++ Sequence.variablePowers b
  | .operator _ | .relation _ => []

/-- The exponents of the variables in a sequence. -/
def Sequence.variablePowers : List Node → List (List Node)
  | [] => []
  | n :: ns => n.variablePowers ++ Sequence.variablePowers ns
end

theorem Sequence.mem_variablePowers {p : List Node} {nodes : List Node} :
    p ∈ Sequence.variablePowers nodes ↔ ∃ node ∈ nodes, p ∈ node.variablePowers := by
  induction nodes with
  | nil => simp [Sequence.variablePowers]
  | cons node rest ih => simp [Sequence.variablePowers, ih]

/-- The keys that were seen before stay, and every exponent of a variable is that of a key. -/
theorem Sequence.mem_variableKeys_of_nodes {nodes : List Node}
    (hnodes : ∀ node ∈ nodes, ∀ seen : List TermKey, seen ⊆ node.variableKeys seen ∧
      ∀ p ∈ node.variablePowers, ∃ letter, ⟨letter, p⟩ ∈ node.variableKeys seen)
    (seen : List TermKey) : seen ⊆ Sequence.variableKeys seen nodes ∧
      ∀ p ∈ Sequence.variablePowers nodes,
        ∃ letter, ⟨letter, p⟩ ∈ Sequence.variableKeys seen nodes := by
  induction nodes generalizing seen with
  | nil => exact ⟨List.Subset.refl _, fun _ hp => by cases hp⟩
  | cons node rest ih =>
    obtain ⟨hkept, hpowers⟩ := hnodes node (.head _) seen
    obtain ⟨hkept', hpowers'⟩ := ih (fun n hn => hnodes n (.tail _ hn)) (node.variableKeys seen)
    refine ⟨List.Subset.trans hkept hkept', fun p hp => ?_⟩
    rcases List.mem_append.1 hp with hp | hp
    · exact (hpowers p hp).imp fun _ hkey => hkept' hkey
    · exact hpowers' p hp

theorem Node.mem_variableKeys (node : Node) (seen : List TermKey) :
    seen ⊆ node.variableKeys seen ∧
      ∀ p ∈ node.variablePowers, ∃ letter, ⟨letter, p⟩ ∈ node.variableKeys seen := by
  induction node using Node.nested_induction generalizing seen with
  | group letter n p ihp =>
    obtain ⟨hkept, -⟩ := Sequence.mem_variableKeys_of_nodes ihp
      (if letter = none ∨ ⟨letter, p⟩ ∈ seen then seen else seen ++ [⟨letter, p⟩])
    refine ⟨List.Subset.trans ?_ hkept, fun power hpower => ⟨letter, hkept ?_⟩⟩
    · split
      · exact List.Subset.refl _
      · exact List.subset_append_left _ _
    · cases letter with
      | none => cases hpower
      | some name =>
        obtain rfl : power = p := by simpa [Node.variablePowers] using hpower
        by_cases hseen : ⟨some name, power⟩ ∈ seen <;> simp [hseen]
  | paren b p negative ihb ihp =>
    obtain ⟨hkept, hpowers⟩ := Sequence.mem_variableKeys_of_nodes ihb seen
    obtain ⟨hkept', -⟩ := Sequence.mem_variableKeys_of_nodes ihp (Sequence.variableKeys seen b)
    exact ⟨List.Subset.trans hkept hkept',
      fun power hpower => (hpowers power hpower).imp fun _ hkey => hkept' hkey⟩
  | fraction t b iht ihb =>
    obtain ⟨hkept, hpowers⟩ := Sequence.mem_variableKeys_of_nodes iht seen
    obtain ⟨hkept', hpowers'⟩ := Sequence.mem_variableKeys_of_nodes ihb (Sequence.variableKeys seen t)
    refine ⟨List.Subset.trans hkept hkept', fun power hpower => ?_⟩
    rcases List.mem_append.1 hpower with hpower | hpower
    · exact (hpowers power hpower).imp fun _ hkey => hkept' hkey
    · exact hpowers' power hpower
  | operator | relation => exact ⟨List.Subset.refl _, fun _ hp => by cases hp⟩

section

variable {fits : Prop}

/-- The exponents of two groups that are multiplied have values if that of their product has. -/
theorem Group.isFitPower_of_multiply {left right product : Group}
    (h : left.multiply right = .ok (some product))
    (hproduct : ∀ p ∈ product.toNode.variablePowers, IsFitPower p ↔ fits) :
    ∀ p ∈ left.toNode.variablePowers ++ right.toNode.variablePowers, IsFitPower p ↔ fits := by
  have hnone {g : Group} (hletter : g.letter = none) : g.toNode.variablePowers = [] := by
    simp [Group.toNode, Node.variablePowers, hletter]
  have hsome {g : Group} {name : Char} (hletter : g.letter = some name) :
      g.toNode.variablePowers = [g.power] := by
    simp [Group.toNode, Node.variablePowers, hletter]
  have hresolved {g resolved : Group} (h : g.resolved? = some resolved) :
      g.toNode.variablePowers = resolved.toNode.variablePowers := by
    rcases Group.resolved?_cases h with ⟨hletter, value, -, rfl⟩ | ⟨-, rfl⟩
    · rw [hnone hletter, hnone rfl]
    · rfl
  obtain ⟨l, r, hl, hr, hcases⟩ := Group.multiply_cases h
  rw [hresolved hl, hresolved hr]
  rcases hcases with ⟨hll, hrl, rfl⟩ | ⟨hrl, -, rfl⟩ | ⟨hll, -, rfl⟩ |
    ⟨name, p, q, hll, hrl, hp, hq, rfl⟩
  · simp [hnone hll, hnone hrl]
  · rw [hnone hrl, List.append_nil]
    exact hproduct
  · rw [hnone hll, List.nil_append]
    exact hproduct
  · have hfits : fits := (hproduct _ (by simp [Group.toNode, Node.variablePowers])).1
      (isFitPower_powerOf (p + q))
    rw [hsome hll, hsome hrl]
    simp [hfits, Group.isFitPower_of_exponent? hp, Group.isFitPower_of_exponent? hq]

theorem ProductsFolded.isFitPower {held : Node} {rest out : List Node}
    (h : ProductsFolded held rest out)
    (hout : ∀ p ∈ Sequence.variablePowers out, IsFitPower p ↔ fits) :
    ∀ p ∈ Sequence.variablePowers (held :: rest), IsFitPower p ↔ fits := by
  induction h with
  | nil => exact hout
  | fold hproduct _ ih =>
    obtain ⟨l, r, g, hl, hr, hmultiply, rfl⟩ := Node.multiply_eq_some hproduct
    obtain ⟨hg, hrest⟩ := List.forall_mem_append.1 (ih hout)
    have hboth := Group.isFitPower_of_multiply hmultiply hg
    rw [Group.toNode_of_asGroup? hl, Group.toNode_of_asGroup? hr] at hboth
    obtain ⟨hheld, hnext⟩ := List.forall_mem_append.1 hboth
    simp only [Sequence.variablePowers, Node.variablePowers, List.nil_append, List.forall_mem_append]
    exact ⟨hheld, hnext, hrest⟩
  | next _ _ ih =>
    obtain ⟨hheld, hrest⟩ := List.forall_mem_append.1 hout
    exact List.forall_mem_append.2 ⟨hheld, ih hrest⟩

/-- All terms with the unknown share one key, so all its exponents have a value or none of them. -/
theorem exists_fits_of_kind {nodes : List Node} {x : Char}
    (h : ProblemKind.of nodes = .ok (.equation x)) :
    ∃ fits : Prop, ∀ p ∈ Sequence.variablePowers nodes, IsFitPower p ↔ fits := by
  obtain ⟨multiplied, hmultiplied, hkeys⟩ : ∃ multiplied,
      Sequence.multiplied nodes = .ok multiplied ∧
        (Sequence.variableKeys [] multiplied).length = 1 := by
    unfold ProblemKind.of at h
    split at h
    · cases h
    · split at h
      · cases h
      · cases h
      · cases h
      · cases h
      · obtain ⟨multiplied, hmultiplied, h⟩ := Except.bind_eq_ok.1 h
        split at h
        · exact ⟨multiplied, hmultiplied, ‹_›⟩
        · cases h
  obtain ⟨key, hkey⟩ := List.length_eq_one_iff.1 hkeys
  have hout : ∀ p ∈ Sequence.variablePowers multiplied, IsFitPower p ↔ IsFitPower key.power := by
    intro p hp
    obtain ⟨letter, hmem⟩ := (Sequence.mem_variableKeys_of_nodes
      (fun node _ => node.mem_variableKeys) []).2 p hp
    rw [hkey, List.mem_singleton] at hmem
    rw [← hmem]
  refine ⟨IsFitPower key.power, ?_⟩
  cases nodes with
  | nil =>
    intro p hp
    cases hp
  | cons node rest => exact (ProductsFolded.of_multipliedAfter hmultiplied).isFitPower hout

/-! ## Fractions -/

/-- Clean nodes are prepared once their divisions are fractions. -/
theorem Node.isPrepared_withFractions {node node' : Node} (hexplicit : node.IsExplicit)
    (hpowers : ∀ p ∈ node.variablePowers, IsFitPower p ↔ fits) (hdivide : node ≠ .operator .divide)
    (h : node.withFractions = .ok node') : node'.IsPrepared fits := by
  induction node using Node.nested_induction generalizing node' with
  | group letter n p =>
    cases h
    refine ⟨hexplicit, fun hletter => hpowers p ?_⟩
    simp [Node.variablePowers, hletter]
  | paren b p negative ihb =>
    obtain ⟨body, hbody, rfl⟩ := Node.eq_paren_of_withFractions h
    refine ⟨Sequence.isPrepared_iff.2 ((FractionsWritten.of_withFractionsAfter hbody).forall_mem
      (fun _ _ _ _ htop hbottom => ⟨⟨htop, trivial⟩, hbottom, trivial⟩) (by simp) ?_), hexplicit.2.2⟩
    exact fun n hn hne n' hn' => ihb n hn (Sequence.isExplicit_iff.1 hexplicit.1 n hn)
      (fun p hp => hpowers p (Sequence.mem_variablePowers.2 ⟨n, hn, hp⟩)) hne hn'
  | fraction | relation => exact hexplicit.elim
  | operator op =>
    cases h
    cases op with
    | add => exact .inl rfl
    | multiply => exact .inr rfl
    | subtract => exact absurd rfl hexplicit
    | divide => exact absurd rfl hdivide

/-- An equation of clean nodes is prepared, relations apart, once its divisions are fractions. -/
theorem Sequence.isPrepared_withFractions {nodes out : List Node}
    (hexplicit : ∀ node ∈ nodes, node.isRelation = false → node.IsExplicit)
    (hpowers : ∀ p ∈ Sequence.variablePowers nodes, IsFitPower p ↔ fits)
    (h : Sequence.withFractions nodes = .ok out) :
    ∀ node ∈ out, node.isRelation = false → node.IsPrepared fits := by
  refine (FractionsWritten.of_withFractionsAfter h).forall_mem
    (fun top bottom htop hbottom hptop hpbottom _ => ?_) (by simp)
    fun node hnode hdivide node' hnode' hrelation => ?_
  · exact ⟨⟨hptop (by cases top <;> first | rfl | cases htop), trivial⟩,
      hpbottom (by cases bottom <;> first | rfl | cases hbottom), trivial⟩
  · refine Node.isPrepared_withFractions (hexplicit node hnode ?_)
      (fun p hp => hpowers p (Sequence.mem_variablePowers.2 ⟨node, hnode, hp⟩)) hdivide hnode'
    cases node with
    | relation r =>
      cases hnode'
      cases hrelation
    | _ => rfl

theorem Node.withFractions_of_isPrepared {node : Node} (h : node.IsPrepared fits) :
    node.withFractions = .ok node := by
  induction node using Node.nested_induction with
  | paren b p negative ihb =>
    have hbody : Sequence.withFractions b = .ok b := by
      refine Sequence.withFractions_of_forall fun node hnode => ?_
      have hprepared := Sequence.isPrepared_iff.1 h.1 node hnode
      refine ⟨?_, ihb node hnode hprepared⟩
      rintro rfl
      simp [Node.IsPrepared] at hprepared
    rw [Node.withFractions, show Sequence.withFractionsAfter none b = .ok b from hbody]
    rfl
  | _ => rfl

theorem Sequence.isRelation_of_isPrepared {nodes : List Node} (h : Sequence.IsPrepared fits nodes) :
    ∀ node ∈ nodes, node.isRelation = false := by
  intro node hnode
  have hprepared := Sequence.isPrepared_iff.1 h node hnode
  cases node <;> first | rfl | exact hprepared.elim

/-- A prepared equation stays as it is. -/
theorem Sides.withFractions_toNodes {s : Sides} (h : s.IsPrepared fits) :
    Sequence.withFractions s.toNodes = .ok s.toNodes := by
  refine Sequence.withFractions_of_forall fun node hnode => ?_
  have hprepared {node : Node} (h : node.IsPrepared fits) :
      node ≠ .operator .divide ∧ node.withFractions = .ok node := by
    refine ⟨?_, Node.withFractions_of_isPrepared h⟩
    rintro rfl
    simp [Node.IsPrepared] at h
  rcases List.mem_append.1 hnode with hnode | hnode
  · exact hprepared (Sequence.isPrepared_iff.1 h.1 node hnode)
  · rcases List.mem_cons.1 hnode with rfl | hnode
    · exact ⟨by simp, rfl⟩
    · exact hprepared (Sequence.isPrepared_iff.1 h.2 node hnode)

theorem Sides.ofNodes_of_isPrepared {s : Sides} (h : s.IsPrepared fits) :
    Sides.ofNodes s.toNodes = .ok s :=
  Sides.ofNodes_toNodes (Sequence.isRelation_of_isPrepared h.1)

end

end OneUnknown
