import OneUnknown.Proofs.Expansion
import OneUnknown.Proofs.FractionClearing
/-!
# The variables that are mentioned

Which variables a sequence mentions is the sum of what its parts mention, however it is cut and
joined, and the signs in it do not matter.

* `Node.hasVariable`, `Sides.hasVariable`: whether a node or an equation mentions a variable;
* `Sequence.mem_mentions_cons` and the lemmas after it: the mentions of a node by its parts;
* `Node.mentions_negated`: the other sign;
* `Sequence.mem_mentions_summands` and `Sequence.mem_mentions_join`: cutting and joining.
-/

namespace OneUnknown

/-- Whether a node mentions a variable. -/
def Node.hasVariable (node : Node) : Bool := !node.mentions.isEmpty

/-- Whether an equation mentions a variable. -/
def Sides.hasVariable (s : Sides) : Bool :=
  Sequence.hasVariable s.left || Sequence.hasVariable s.right

/-! ## Nodes and sequences -/

theorem not_isEmpty_append {α : Type} (left right : List α) :
    (!(left ++ right).isEmpty) = (!left.isEmpty || !right.isEmpty) := by
  cases left <;> rfl

theorem Sequence.hasVariable_append (left right : List Node) :
    Sequence.hasVariable (left ++ right) =
      (Sequence.hasVariable left || Sequence.hasVariable right) := by
  rw [Sequence.hasVariable, Sequence.mentions_append]
  exact not_isEmpty_append _ _

theorem Sequence.hasVariable_cons (node : Node) (rest : List Node) :
    Sequence.hasVariable (node :: rest) = (node.hasVariable || Sequence.hasVariable rest) := by
  rw [Sequence.hasVariable, Sequence.mentions]
  exact not_isEmpty_append _ _

@[simp] theorem Sequence.hasVariable_nil : Sequence.hasVariable [] = false := rfl

theorem Sequence.hasVariable_singleton (node : Node) :
    Sequence.hasVariable [node] = node.hasVariable := by
  rw [Sequence.hasVariable_cons, Sequence.hasVariable_nil, Bool.or_false]

theorem Sequence.hasVariable_iff {nodes : List Node} :
    Sequence.hasVariable nodes = true ↔ ∃ node ∈ nodes, node.hasVariable = true := by
  induction nodes with
  | nil => simp
  | cons node rest ih => simp [Sequence.hasVariable_cons, ih]

@[simp] theorem Node.hasVariable_group (letter : Option Char) (n : Number) (p : List Node) :
    (Node.group letter n p).hasVariable = (letter.isSome || Sequence.hasVariable p) := by
  cases letter <;> rfl

@[simp] theorem Node.hasVariable_paren (b p : List Node) (negative : Bool) :
    (Node.paren b p negative).hasVariable =
      (Sequence.hasVariable b || Sequence.hasVariable p) := by
  rw [Node.hasVariable, Node.mentions]
  exact not_isEmpty_append _ _

@[simp] theorem Node.hasVariable_fraction (t b : List Node) :
    (Node.fraction t b).hasVariable = (Sequence.hasVariable t || Sequence.hasVariable b) := by
  rw [Node.hasVariable, Node.mentions]
  exact not_isEmpty_append _ _

@[simp] theorem Node.hasVariable_constant (value : Rat) :
    (Node.constant value).hasVariable = false := rfl

theorem WholePower.hasVariable {p : List Node} {exponent : Nat} (h : WholePower p exponent) :
    Sequence.hasVariable p = false := by
  cases h <;> rfl

theorem Sides.hasVariable_toNodes (s : Sides) :
    Sequence.hasVariable s.toNodes = s.hasVariable := by
  rw [Sides.toNodes, Sequence.hasVariable_append, Sequence.hasVariable_cons]
  rfl

section

variable {c : Char}

/-! ## Single mentions -/

@[simp] theorem Sequence.mentions_nil : Sequence.mentions [] = [] := rfl

@[simp] theorem Node.mentions_constant (value : Rat) : (Node.constant value).mentions = [] := rfl

@[simp] theorem Node.mentions_operator (op : Operator) : (Node.operator op).mentions = [] := rfl

@[simp] theorem Sequence.mem_mentions_cons {node : Node} {rest : List Node} :
    c ∈ Sequence.mentions (node :: rest) ↔ c ∈ node.mentions ∨ c ∈ Sequence.mentions rest := by
  rw [Sequence.mentions, List.mem_append]

@[simp] theorem Sequence.mem_mentions_append {left right : List Node} :
    c ∈ Sequence.mentions (left ++ right) ↔
      c ∈ Sequence.mentions left ∨ c ∈ Sequence.mentions right := by
  rw [Sequence.mentions_append, List.mem_append]

@[simp] theorem Node.mem_mentions_group {letter : Option Char} {n : Number} {p : List Node} :
    c ∈ (Node.group letter n p).mentions ↔ letter = some c ∨ c ∈ Sequence.mentions p := by
  rw [Node.mentions, List.mem_append, Option.mem_toList]

@[simp] theorem Group.mem_mentions_toNode {g : Group} :
    c ∈ g.toNode.mentions ↔ g.letter = some c ∨ c ∈ Sequence.mentions g.power :=
  Node.mem_mentions_group

@[simp] theorem Node.mem_mentions_paren {b p : List Node} {negative : Bool} :
    c ∈ (Node.paren b p negative).mentions ↔ c ∈ Sequence.mentions b ∨ c ∈ Sequence.mentions p := by
  rw [Node.mentions, List.mem_append]

@[simp] theorem Node.mem_mentions_fraction {t b : List Node} :
    c ∈ (Node.fraction t b).mentions ↔ c ∈ Sequence.mentions t ∨ c ∈ Sequence.mentions b := by
  rw [Node.mentions, List.mem_append]

theorem Sequence.mentions_eq_nil {nodes : List Node} :
    Sequence.mentions nodes = [] ↔ Sequence.hasVariable nodes = false := by
  simp [Sequence.hasVariable]

theorem Sequence.hasVariable_iff_exists_mem {nodes : List Node} :
    Sequence.hasVariable nodes = true ↔ ∃ c, c ∈ Sequence.mentions nodes := by
  rw [Sequence.hasVariable, Bool.not_eq_true', List.isEmpty_eq_false_iff, ne_eq,
    List.eq_nil_iff_forall_not_mem, not_forall_not]

@[simp] theorem Sides.mem_mentions_toNodes {s : Sides} :
    c ∈ Sequence.mentions s.toNodes ↔
      c ∈ Sequence.mentions s.left ∨ c ∈ Sequence.mentions s.right := by
  rw [toNodes, Sequence.mem_mentions_append, Sequence.mem_mentions_cons]
  simp [Node.mentions]

theorem Node.isTerm_of_mem_mentions {node : Node} (h : c ∈ node.mentions) : node.isTerm = true := by
  cases node <;> first | rfl | cases h

/-! ## The other sign -/

theorem Sequence.mentions_negatedAfter {nodes : List Node}
    (h : ∀ node ∈ nodes, node.negated.mentions = node.mentions) (previous : Option Node) :
    Sequence.mentions (Sequence.negatedAfter previous nodes) = Sequence.mentions nodes := by
  induction nodes generalizing previous with
  | nil => rfl
  | cons node rest ih =>
    rw [Sequence.negatedAfter, Sequence.mentions, Sequence.mentions,
      ih fun n hn => h n (.tail _ hn)]
    split
    · rw [h node (.head _)]
    · rfl

@[simp] theorem Node.mentions_negated (node : Node) : node.negated.mentions = node.mentions := by
  induction node using Node.nested_induction with
  | fraction t b iht =>
    rw [Node.negated, Node.mentions, Node.mentions, Sequence.mentions_negatedAfter iht]
  | _ => rfl

@[simp] theorem Sequence.mentions_negated (nodes : List Node) :
    Sequence.mentions (Sequence.negated nodes) = Sequence.mentions nodes :=
  Sequence.mentions_negatedAfter (fun node _ => node.mentions_negated) none

@[simp] theorem Sequence.mentions_negatedSummand (part : List Node) :
    Sequence.mentions (Sequence.negatedSummand part) = Sequence.mentions part := by
  cases part with
  | nil => rfl
  | cons node rest =>
    rw [Sequence.negatedSummand, Sequence.mentions, Sequence.mentions, Node.mentions_negated]

@[simp] theorem Sequence.mem_mentions_asFactor {nodes : List Node} :
    c ∈ (Sequence.asFactor nodes).mentions ↔ c ∈ Sequence.mentions nodes := by
  unfold Sequence.asFactor
  split <;> simp

theorem Node.hasVariable_negated (node : Node) : node.negated.hasVariable = node.hasVariable := by
  rw [Node.hasVariable, Node.mentions_negated, Node.hasVariable]

/-! ## Cutting and joining -/

namespace Sequence

theorem mem_intercalate_of_mem {α : Type} {separator : List α} {parts : List (List α)}
    {part : List α} (hpart : part ∈ parts) {a : α} (ha : a ∈ part) :
    a ∈ separator.intercalate parts := by
  induction parts with
  | nil => cases hpart
  | cons first rest ih =>
    by_cases hrest : rest = []
    · subst hrest
      rw [List.mem_singleton.1 hpart] at ha
      simpa using ha
    · rw [List.intercalate_cons_of_ne_nil hrest]
      rcases List.mem_cons.1 hpart with rfl | hpart
      · exact List.mem_append_left _ (List.mem_append_left _ ha)
      · exact List.mem_append_right _ (ih hpart)

theorem mem_join_of_mem {parts : List (List Node)} {part : List Node} (hpart : part ∈ parts)
    {node : Node} (hnode : node ∈ part) : node ∈ join parts := by
  have hkept : part ∈ parts.filter fun summand => !summand.isEmpty := by
    refine List.mem_filter.2 ⟨hpart, ?_⟩
    cases part with
    | nil => cases hnode
    | cons _ _ => rfl
  simp only [join]
  split
  · rename_i hempty
    rw [List.isEmpty_iff.1 hempty] at hkept
    cases hkept
  · exact mem_intercalate_of_mem hkept hnode

/-- Cutting at operators loses no mention. -/
theorem mem_mentions_splitOnP (op : Operator) {nodes : List Node} :
    c ∈ mentions nodes ↔ ∃ part ∈ nodes.splitOnP (Node.isOperator op), c ∈ mentions part := by
  rw [mem_mentions]
  constructor
  · rintro ⟨node, hnode, hc⟩
    have hterm := Node.isTerm_of_mem_mentions hc
    obtain ⟨part, hpart, hmem⟩ := exists_mem_splitOnP (Node.isOperator op) hnode
      (by cases node <;> first | rfl | cases hterm)
    exact ⟨part, hpart, mem_mentions.2 ⟨node, hmem, hc⟩⟩
  · rintro ⟨part, hpart, hc⟩
    obtain ⟨node, hnode, hc⟩ := mem_mentions.1 hc
    exact ⟨node, (mem_of_mem_splitOnP _ hpart hnode).1, hc⟩

theorem mem_mentions_summands (side : List Node) :
    c ∈ mentions side ↔ ∃ part ∈ summands side, c ∈ mentions part := by
  rw [mem_mentions_splitOnP .add]
  constructor
  · rintro ⟨part, hpart, hc⟩
    refine ⟨part, List.mem_filter.2 ⟨hpart, ?_⟩, hc⟩
    cases part with
    | nil => cases hc
    | cons _ _ => rfl
  · rintro ⟨part, hpart, hc⟩
    exact ⟨part, (List.mem_filter.1 hpart).1, hc⟩

theorem mem_mentions_factors {product : List Node} :
    c ∈ mentions product ↔ ∃ factor ∈ factors product, c ∈ mentions factor :=
  mem_mentions_splitOnP .multiply

theorem mem_mentions_join {parts : List (List Node)} :
    c ∈ mentions (join parts) ↔ ∃ part ∈ parts, c ∈ mentions part := by
  constructor
  · intro h
    obtain ⟨node, hnode, hc⟩ := mem_mentions.1 h
    rcases mem_join hnode with ⟨part, hpart, hmem⟩ | rfl | rfl
    · exact ⟨part, hpart, mem_mentions.2 ⟨node, hmem, hc⟩⟩
    · cases hc
    · cases hc
  · rintro ⟨part, hpart, hc⟩
    obtain ⟨node, hnode, hc⟩ := mem_mentions.1 hc
    exact mem_mentions.2 ⟨node, mem_join_of_mem hpart hnode, hc⟩

/-- A side mentions a variable if and only if one of its summands does. -/
theorem hasVariable_summands {side : List Node} :
    hasVariable side = true ↔ ∃ part ∈ summands side, hasVariable part = true := by
  simp only [hasVariable_iff_exists_mem, mem_mentions_summands side]
  tauto

theorem hasVariable_join {parts : List (List Node)} {part : List Node} (hpart : part ∈ parts)
    (h : hasVariable part = true) : hasVariable (join parts) = true := by
  obtain ⟨c, hc⟩ := hasVariable_iff_exists_mem.1 h
  exact hasVariable_iff_exists_mem.2 ⟨c, mem_mentions_join.2 ⟨part, hpart, hc⟩⟩

end Sequence

end

end OneUnknown
