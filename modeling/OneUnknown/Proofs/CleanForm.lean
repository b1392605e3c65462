import OneUnknown.Proofs.Cleaning
/-!
# Clean sequences

In a clean sequence every operator is written: there is no `-` and no two terms stand side by side.
The same holds inside of its nodes, where there are no relations either, and no denominator is a
written zero.  These are exactly the sequences that cleaning leaves as they are.

* `Node.IsClean`, `Sequence.IsClean`: clean nodes and clean sequences;
* `Sequence.isClean_of_cleanedFrom`: cleaning makes a sequence clean;
* `Sequence.cleanedFrom_eq_ok_iff`, `Sequence.cleaned_eq_ok_iff`: what cleaning leaves as it is;
* `Sequence.IsClean.replace`: a term of a clean sequence is replaced by a clean sequence;
* `Node.isClean_negated`: the other sign.
-/

namespace OneUnknown

/-- No two terms stand side by side. -/
abbrev Sequence.IsSpaced (nodes : List Node) : Prop :=
  nodes.IsChain fun node next => node.isTerm = true → next.isTerm = false

mutual
/-- A node in which every sequence is clean, and no denominator is a written zero. -/
def Node.IsClean : Node → Prop
  | .group _ _ p => Sequence.IsClean p
  | .paren b p _ => Sequence.IsClean b ∧ Sequence.IsClean p
  | .fraction t b =>
    Sequence.IsClean t ∧ Sequence.IsClean b ∧ (Node.fraction? t b).isSome = true
  | .operator op => op ≠ .subtract
  | .relation _ => False

/-- Clean nodes, of which no two terms stand side by side. -/
def Sequence.IsClean : List Node → Prop
  | [] => True
  | node :: rest =>
    node.IsClean ∧ (node.isTerm = true → ∀ next ∈ rest.head?, next.isTerm = false) ∧
      Sequence.IsClean rest
end

namespace Sequence

variable {nodes left right pre post out : List Node} {node : Node}

theorem isClean_iff : IsClean nodes ↔ (∀ node ∈ nodes, node.IsClean) ∧ IsSpaced nodes := by
  induction nodes with
  | nil => simp [IsClean]
  | cons node rest ih =>
    simp only [IsClean, ih, IsSpaced, List.isChain_cons, List.forall_mem_cons]
    constructor
    · rintro ⟨hnode, hnext, hrest, hspaced⟩
      exact ⟨⟨hnode, hrest⟩, fun next hmem hterm => hnext hterm next hmem, hspaced⟩
    · rintro ⟨⟨hnode, hrest⟩, hnext, hspaced⟩
      exact ⟨hnode, fun hterm next hmem => hnext next hmem hterm, hrest, hspaced⟩

theorem IsClean.of_mem (h : IsClean nodes) (hnode : node ∈ nodes) : node.IsClean :=
  (isClean_iff.1 h).1 node hnode

@[simp] theorem isClean_singleton : IsClean [node] ↔ node.IsClean := by simp [IsClean]

theorem isClean_append : IsClean (left ++ right) ↔ IsClean left ∧ IsClean right ∧
    ∀ last ∈ left.getLast?, ∀ first ∈ right.head?, last.isTerm = true → first.isTerm = false := by
  simp only [isClean_iff, IsSpaced, List.isChain_append, List.forall_mem_append]
  tauto

/-- Around a term there are no terms, so anything clean can take its place. -/
theorem IsClean.replace (h : IsClean (pre ++ ([node] ++ post))) (hterm : node.isTerm = true)
    (hout : IsClean out) : IsClean (pre ++ (out ++ post)) := by
  obtain ⟨hpre, hrest, hbefore⟩ := isClean_append.1 h
  obtain ⟨-, hafter, hpost⟩ := hrest
  refine isClean_append.2 ⟨hpre, isClean_append.2 ⟨hout, hpost, fun _ _ first hfirst _ =>
    hafter hterm first hfirst⟩, fun last hlast _ _ hlastTerm => ?_⟩
  have hnode := hbefore last hlast node rfl hlastTerm
  rw [hterm] at hnode
  cases hnode

/-- Clean sequences with an operator between them. -/
theorem isClean_append_operator {op : Operator} (hop : op ≠ .subtract) :
    IsClean (left ++ .operator op :: right) ↔ IsClean left ∧ IsClean right := by
  rw [isClean_append]
  simp [IsClean, Node.IsClean, hop, Node.isTerm]

/-! ## Sums -/

theorem isClean_constant (value : Rat) : IsClean [Node.constant value] :=
  isClean_singleton.2 trivial

theorem isClean_join {parts : List (List Node)} (h : ∀ part ∈ parts, IsClean part) :
    IsClean (join parts) :=
  join_induction (isClean_constant 0)
    (fun _ _ hleft hright => (isClean_append_operator (by decide)).2 ⟨hleft, hright⟩) h

theorem IsClean.of_mem_summands {side part : List Node} (h : IsClean side)
    (hpart : part ∈ summands side) : IsClean part :=
  forall_mem_summands (fun _ _ => (isClean_append_operator (by decide)).1) h part hpart

theorem IsClean.of_mem_factors {product factor : List Node} (h : IsClean product)
    (hfactor : factor ∈ factors product) : IsClean factor :=
  forall_mem_splitOnP (fun _ _ _ hseparator =>
    eq_operator_of_isOperator hseparator ▸ (isClean_append_operator (by decide)).1) h factor hfactor

/-- Without operators there is at most one node in a clean sequence. -/
theorem IsClean.eq_singleton (h : IsClean nodes) (hne : nodes ≠ [])
    (hoperator : ∀ op, .operator op ∉ nodes) : ∃ node, nodes = [node] := by
  have hterm : ∀ node ∈ nodes, node.isTerm = true := by
    intro node hnode
    cases node with
    | operator op => exact absurd hnode (hoperator op)
    | relation r => exact (h.of_mem hnode).elim
    | _ => rfl
  obtain ⟨node, rest, rfl⟩ := List.exists_cons_of_ne_nil hne
  cases rest with
  | nil => exact ⟨node, rfl⟩
  | cons second rest =>
    have hsecond := h.2.1 (hterm node (.head _)) second rfl
    rw [hterm second (.tail _ (.head _))] at hsecond
    cases hsecond

end Sequence

/-! ## The other sign -/

theorem Sequence.isClean_negatedAfter {nodes : List Node} (previous : Option Node)
    (hnegated : ∀ node ∈ nodes, node.IsClean → node.negated.IsClean) (h : Sequence.IsClean nodes) :
    Sequence.IsClean (Sequence.negatedAfter previous nodes) := by
  induction nodes generalizing previous with
  | nil => trivial
  | cons node rest ih =>
    obtain ⟨hnode, hnext, hrest⟩ := h
    have hhead (previous : Option Node) :
        ∀ next ∈ (Sequence.negatedAfter previous rest).head?, ∃ old ∈ rest.head?,
          next.isTerm = old.isTerm := by
      cases rest with
      | nil => simp [Sequence.negatedAfter]
      | cons first _ =>
        rintro next ⟨rfl⟩
        refine ⟨first, rfl, ?_⟩
        split
        · exact Node.isTerm_negated first
        · rfl
    have hsigned : (if node.startsSummand previous then node.negated else node).IsClean := by
      split
      · exact hnegated node (.head _) hnode
      · exact hnode
    have hterm : (if node.startsSummand previous then node.negated else node).isTerm =
        node.isTerm := by
      split
      · exact Node.isTerm_negated node
      · rfl
    refine ⟨hsigned, fun hsignedTerm next hmem => ?_,
      ih (some node) (fun n hn => hnegated n (.tail _ hn)) hrest⟩
    obtain ⟨old, hold, heq⟩ := hhead _ next hmem
    rw [heq]
    exact hnext (hterm ▸ hsignedTerm) old hold

theorem Node.fraction?_isSome_congr {top top' bottom : List Node} :
    (Node.fraction? top bottom).isSome = (Node.fraction? top' bottom).isSome := by
  unfold Node.fraction?
  split
  · split <;> rfl
  · rfl

theorem Node.isClean_negated {node : Node} (h : node.IsClean) : node.negated.IsClean := by
  induction node using Node.nested_induction with
  | fraction t b iht =>
    obtain ⟨ht, hb, hfraction⟩ := h
    exact ⟨Sequence.isClean_negatedAfter none (fun n hn => iht n hn) ht, hb,
      Node.fraction?_isSome_congr ▸ hfraction⟩
  | _ => exact h

theorem Sequence.isClean_negated {nodes : List Node} (h : Sequence.IsClean nodes) :
    Sequence.IsClean (Sequence.negated nodes) :=
  Sequence.isClean_negatedAfter none (fun _ _ => Node.isClean_negated) h

/-! ## What cleaning leaves as it is -/

/-- Cleaning puts an operator between any two terms. -/
theorem OperatorsWritten.isSpaced {nested afterTerm negate : Bool} {nodes out : List Node}
    (h : OperatorsWritten nested afterTerm negate nodes out) :
    Sequence.IsSpaced out ∧ (afterTerm = true → ∀ node ∈ out.head?, node.isTerm = false) := by
  have hcons {node : Node} {rest : List Node} (hrest : Sequence.IsSpaced rest)
      (hhead : node.isTerm = true → ∀ next ∈ rest.head?, next.isTerm = false) :
      Sequence.IsSpaced (node :: rest) :=
    List.isChain_cons.2 ⟨fun next hnext hterm => hhead hterm next hnext, hrest⟩
  induction h with
  | nil => exact ⟨.nil, by simp⟩
  | relation _ _ ih | subtract _ ih | operator _ _ ih =>
    exact ⟨hcons ih.1 (by simp [Node.isTerm]), fun _ _ hnode => Option.some.inj hnode ▸ rfl⟩
  | @term afterTerm negate _ term _ out _ _ _ ih =>
    have hplaced : Sequence.IsSpaced ((if negate then term.negated else term) :: out) :=
      hcons ih.1 fun _ => ih.2 rfl
    cases afterTerm with
    | false => exact ⟨hplaced, by simp⟩
    | true => exact ⟨hcons hplaced (by simp [Node.isTerm]), fun _ _ hnode =>
        Option.some.inj hnode ▸ rfl⟩

/-- A clean sequence, or an equation with clean sides. -/
def Sequence.IsCleanProblem (nodes : List Node) : Prop :=
  (∀ node ∈ nodes, node.isRelation = true ∨ node.IsClean) ∧ Sequence.IsSpaced nodes

theorem Sequence.IsClean.isCleanProblem {nodes : List Node} (h : Sequence.IsClean nodes) :
    Sequence.IsCleanProblem nodes :=
  (Sequence.isClean_iff.1 h).imp_left fun hnodes node hnode => .inr (hnodes node hnode)

/-- The nodes and the gaps between them are as cleaning leaves them. -/
theorem Sequence.cleanedFrom_of_forall {nested afterTerm : Bool} {nodes : List Node}
    (hnodes : ∀ node ∈ nodes, node.isTerm = true → node.cleaned = .ok node)
    (hsubtract : Node.operator .subtract ∉ nodes)
    (hrelation : nested = true → ∀ node ∈ nodes, node.isRelation = false)
    (hspaced : Sequence.IsSpaced nodes)
    (hafter : afterTerm = true → ∀ node ∈ nodes.head?, node.isTerm = false) :
    Sequence.cleanedFrom nested afterTerm false nodes = .ok nodes := by
  induction nodes generalizing afterTerm with
  | nil => simp [Sequence.cleanedFrom]
  | cons node rest ih =>
    obtain ⟨hnext, hrestSpaced⟩ := List.isChain_cons.1 hspaced
    have hrest {afterTerm : Bool}
        (hafter : afterTerm = true → ∀ node ∈ rest.head?, node.isTerm = false) :
        Sequence.cleanedFrom nested afterTerm false rest = .ok rest :=
      ih (fun n hn => hnodes n (.tail _ hn)) (fun h => hsubtract (.tail _ h))
        (fun h n hn => hrelation h n (.tail _ hn)) hrestSpaced hafter
    by_cases hterm : node.isTerm = true
    · obtain rfl : afterTerm = false := by
        cases afterTerm with
        | false => rfl
        | true => simp [hafter rfl node rfl] at hterm
      rw [Sequence.cleanedFrom_term _ _ _ hterm, hnodes node (.head _) hterm,
        hrest fun _ next hmem => hnext next hmem hterm]
      rfl
    · have hplain : Sequence.cleanedFrom nested false false rest = .ok rest :=
        hrest fun h => by cases h
      cases node with
      | operator op =>
        cases op with
        | subtract => exact absurd (.head _) hsubtract
        | _ =>
          rw [Sequence.cleanedFrom, hplain] <;>
            simp [bind, Except.bind, pure, Except.pure]
      | relation r =>
        cases nested with
        | true => cases hrelation rfl _ (.head _)
        | false =>
          rw [Sequence.cleanedFrom, hplain]
          rfl
      | _ => exact absurd rfl hterm

theorem Sequence.subtract_not_mem {nodes : List Node}
    (h : ∀ node ∈ nodes, node.isRelation = true ∨ node.IsClean) :
    Node.operator .subtract ∉ nodes := by
  intro hmem
  rcases h _ hmem with hrelation | hclean
  · cases hrelation
  · exact hclean rfl

theorem Sequence.IsClean.cleanedFrom_eq {nodes : List Node} (h : Sequence.IsClean nodes)
    (hnodes : ∀ node ∈ nodes, node.IsClean → node.cleaned = .ok node) :
    Sequence.cleanedFrom true false false nodes = .ok nodes := by
  refine Sequence.cleanedFrom_of_forall (fun node hnode _ => hnodes node hnode (h.of_mem hnode))
    (Sequence.subtract_not_mem h.isCleanProblem.1) (fun _ node hnode => ?_)
    (Sequence.isClean_iff.1 h).2 (fun hfalse => by cases hfalse)
  cases node with
  | relation r => exact (h.of_mem hnode).elim
  | _ => rfl

/-- A clean node stays as it is. -/
theorem Node.IsClean.cleaned_eq {node : Node} (h : node.IsClean) : node.cleaned = .ok node := by
  induction node using Node.nested_induction with
  | group letter n p ihp =>
    exact Node.cleaned_group_eq_ok.2 ⟨p, h.cleanedFrom_eq ihp, rfl⟩
  | paren b p negative ihb ihp =>
    exact Node.cleaned_paren_eq_ok.2 ⟨b, p, h.1.cleanedFrom_eq ihb, h.2.cleanedFrom_eq ihp, rfl⟩
  | fraction t b iht ihb =>
    obtain ⟨ht, hb, hfraction⟩ := h
    exact Node.cleaned_fraction_eq_ok.2
      ⟨t, b, ht.cleanedFrom_eq iht, hb.cleanedFrom_eq ihb, hfraction, rfl⟩
  | operator op => rfl
  | relation r => rfl

/-- What holds of the nodes that are cleaned holds of the sequence. -/
theorem Sequence.isClean_of_cleanedFrom {nodes out : List Node}
    (hnodes : ∀ node ∈ nodes, node.isTerm = true → ∀ term, node.cleaned = .ok term → term.IsClean)
    (h : Sequence.cleanedFrom true false false nodes = .ok out) : Sequence.IsClean out := by
  have hwritten := OperatorsWritten.of_cleanedFrom h
  refine Sequence.isClean_iff.2 ⟨fun node hnode => ?_, hwritten.isSpaced.1⟩
  exact hwritten.forall_mem (P := Node.IsClean) (fun _ => id) (fun _ => Node.isClean_negated)
    hnodes node hnode (.inl rfl)

/-- Cleaning makes terms clean. -/
theorem Node.isClean_of_cleaned {node node' : Node} (hterm : node.isTerm = true)
    (h : node.cleaned = .ok node') : node'.IsClean := by
  induction node using Node.nested_induction generalizing node' with
  | group letter n p ihp =>
    obtain ⟨power, hpower, rfl⟩ := Node.cleaned_group_eq_ok.1 h
    exact Sequence.isClean_of_cleanedFrom (fun n hn hterm _ => ihp n hn hterm) hpower
  | paren b p negative ihb ihp =>
    obtain ⟨body, power, hbody, hpower, rfl⟩ := Node.cleaned_paren_eq_ok.1 h
    exact ⟨Sequence.isClean_of_cleanedFrom (fun n hn hterm _ => ihb n hn hterm) hbody,
      Sequence.isClean_of_cleanedFrom (fun n hn hterm _ => ihp n hn hterm) hpower⟩
  | fraction t b iht ihb =>
    obtain ⟨top, bottom, htop, hbottom, hfraction, rfl⟩ := Node.cleaned_fraction_eq_ok.1 h
    exact ⟨Sequence.isClean_of_cleanedFrom (fun n hn hterm _ => iht n hn hterm) htop,
      Sequence.isClean_of_cleanedFrom (fun n hn hterm _ => ihb n hn hterm) hbottom, hfraction⟩
  | operator op => cases hterm
  | relation r => cases hterm

/-- Inside of a node, cleaning leaves exactly the clean sequences as they are. -/
theorem Sequence.cleanedFrom_eq_ok_iff {nodes : List Node} :
    Sequence.cleanedFrom true false false nodes = .ok nodes ↔ Sequence.IsClean nodes :=
  ⟨Sequence.isClean_of_cleanedFrom fun _ _ hterm _ => Node.isClean_of_cleaned hterm,
    fun h => h.cleanedFrom_eq fun _ _ => Node.IsClean.cleaned_eq⟩

/-- Cleaning makes a sequence clean, whatever it is given. -/
theorem Sequence.isCleanProblem_of_cleaned {nodes out : List Node}
    (h : Sequence.cleaned nodes = .ok out) : Sequence.IsCleanProblem out := by
  have hwritten := OperatorsWritten.of_cleanedFrom h
  refine ⟨fun node hnode => ?_, hwritten.isSpaced.1⟩
  cases hrelation : node.isRelation with
  | true => exact .inl rfl
  | false =>
    exact .inr (hwritten.forall_mem (P := Node.IsClean) (fun _ => id)
      (fun _ => Node.isClean_negated) (fun _ _ hterm _ => Node.isClean_of_cleaned hterm) node hnode
      (.inr hrelation))

/-- Cleaning leaves exactly the clean sequences as they are, and the equations between them. -/
theorem Sequence.cleaned_eq_ok_iff {nodes : List Node} :
    Sequence.cleaned nodes = .ok nodes ↔ Sequence.IsCleanProblem nodes := by
  refine ⟨Sequence.isCleanProblem_of_cleaned, fun h => ?_⟩
  refine Sequence.cleanedFrom_of_forall (fun node hnode hterm => ?_)
    (Sequence.subtract_not_mem h.1) (fun hnested => by cases hnested) h.2
    (fun hfalse => by cases hfalse)
  rcases h.1 node hnode with hrelation | hclean
  · cases node <;> simp_all [Node.isTerm, Node.isRelation]
  · exact hclean.cleaned_eq

end OneUnknown
