import OneUnknown.ProblemKind
import OneUnknown.Proofs.Problem
import OneUnknown.Proofs.Variables
/-!
# The kind of a plain equation

* `Node.eq_of_mem_mentions`: a plain node mentions no other variable;
* `Sides.unknowns_toNodes`: the one unknown of a plain equation that mentions any;
* `Sides.kind_eq_equation`: such an equation is to be solved for it, if for anything.
-/

namespace OneUnknown

section

variable {x c : Char} {division : Bool}

theorem WholePower.mentions {p : List Node} {exponent : Nat} (h : WholePower p exponent) :
    Sequence.mentions p = [] := by
  cases h <;> rfl

/-- A plain node mentions no variable but `x`. -/
theorem Node.eq_of_mem_mentions {node : Node} (h : node.IsPlain x division)
    (hc : c ∈ node.mentions) : c = x := by
  induction node using Node.nested_induction generalizing division with
  | group letter n p =>
    obtain ⟨hletter, exponent, hpower⟩ := h
    rw [Node.mentions, hpower.mentions, List.append_nil, Option.mem_toList] at hc
    exact hletter c hc
  | paren b p negative ihb =>
    obtain ⟨hb, exponent, hpower⟩ := h
    rw [Node.mentions, hpower.mentions, List.append_nil] at hc
    obtain ⟨node, hnode, hc⟩ := Sequence.mem_mentions.1 hc
    exact ihb node hnode (Sequence.isPlain_iff.1 hb node hnode) hc
  | fraction t b iht ihb =>
    rcases List.mem_append.1 hc with hc | hc
    · obtain ⟨node, hnode, hc⟩ := Sequence.mem_mentions.1 hc
      exact iht node hnode (Sequence.isPlain_iff.1 h.1 node hnode) hc
    · obtain ⟨node, hnode, hc⟩ := Sequence.mem_mentions.1 hc
      exact ihb node hnode (Sequence.isPlain_iff.1 h.2 node hnode) hc
  | operator op => cases hc
  | relation r => cases hc

theorem Sides.eq_of_mem_mentions {s : Sides} (hs : s.IsPlain x division)
    (hc : c ∈ Sequence.mentions s.toNodes) : c = x := by
  obtain ⟨node, hnode, hc⟩ := Sequence.mem_mentions.1 hc
  rcases List.mem_append.1 hnode with hnode | hnode
  · exact Node.eq_of_mem_mentions (Sequence.isPlain_iff.1 hs.1 node hnode) hc
  · rcases List.mem_cons.1 hnode with rfl | hnode
    · cases hc
    · exact Node.eq_of_mem_mentions (Sequence.isPlain_iff.1 hs.2 node hnode) hc

theorem foldr_insertAscending_of_forall_eq {l : List Char} (h : ∀ c ∈ l, c = x) :
    l.foldr insertAscending [] = if l.isEmpty then [] else [x] := by
  induction l with
  | nil => rfl
  | cons d rest ih =>
    obtain rfl := h d (.head _)
    rw [List.foldr_cons, ih fun c hc => h c (.tail _ hc)]
    split <;> simp [insertAscending]

/-- The unknown of a plain equation that has one. -/
theorem Sides.unknowns_toNodes {s : Sides} (hs : s.IsPlain x division)
    (hvariable : s.hasVariable = true) : Sequence.unknowns s.toNodes = [x] := by
  rw [Sequence.unknowns, foldr_insertAscending_of_forall_eq fun c => Sides.eq_of_mem_mentions hs,
    if_neg]
  rw [← Sides.hasVariable_toNodes, Sequence.hasVariable] at hvariable
  simpa using hvariable

theorem Sides.any_isRelation_toNodes (s : Sides) : s.toNodes.any Node.isRelation = true := by
  simp [Sides.toNodes, Node.isRelation]

/-- A plain equation with the unknown is an equation to solve, if all terms with the unknown share
one key. -/
theorem Sides.kind_toNodes {s : Sides} (hs : s.IsPlain x division)
    (hvariable : s.hasVariable = true) :
    ProblemKind.of s.toNodes = (do
      let multiplied ← Sequence.multiplied s.toNodes
      if (Sequence.variableKeys [] multiplied).length = 1 then return .equation x
      else .error .unsupportedProblem) := by
  rw [ProblemKind.of, if_neg (by simp [Sides.toNodes]), Sides.unknowns_toNodes hs hvariable,
    s.any_isRelation_toNodes]

theorem Sides.kind_eq_equation {s : Sides} {kind : ProblemKind} (hs : s.IsPlain x division)
    (hvariable : s.hasVariable = true) (h : ProblemKind.of s.toNodes = .ok kind) :
    kind = .equation x := by
  rw [Sides.kind_toNodes hs hvariable] at h
  obtain ⟨multiplied, -, h⟩ := Except.bind_eq_ok.1 h
  split at h
  · exact (Except.pure_eq_ok.1 h).symm
  · cases h

end

end OneUnknown
