import OneUnknown.Cleaning
import OneUnknown.Proofs.Division
import OneUnknown.Proofs.Text
/-!
# What cleaning does

* `Node.cleaned_group_eq_ok`, `Node.cleaned_paren_eq_ok`, `Node.cleaned_fraction_eq_ok`: the parts
  of a cleaned node are the cleaned parts of the node;
* `OperatorsWritten`: how cleaning goes through a sequence;
* `Sequence.isTidy_of_cleaned`: what was read from a text has neither differences nor nested
  relations after cleaning;
* `Node.cleaned_eq`, `Sequence.cleaned_equation`: what is plain and has a value is clean already.
-/

namespace OneUnknown

/-! ## What a cleaned node was -/

theorem Node.cleaned_group_eq_ok {v : Option Char} {n : Number} {p : List Node} {node : Node} :
    (Node.group v n p).cleaned = .ok node ↔
      ∃ power, Sequence.cleanedFrom true false false p = .ok power ∧ node = .group v n power := by
  rw [Node.cleaned, Except.bind_eq_ok]
  exact exists_congr fun power => and_congr_right fun _ => Except.pure_eq_ok.trans eq_comm

theorem Node.cleaned_paren_eq_ok {b p : List Node} {negative : Bool} {node : Node} :
    (Node.paren b p negative).cleaned = .ok node ↔
      ∃ body power, Sequence.cleanedFrom true false false b = .ok body ∧
        Sequence.cleanedFrom true false false p = .ok power ∧
        node = .paren body power negative := by
  rw [Node.cleaned]
  constructor
  · intro h
    obtain ⟨body, hbody, h⟩ := Except.bind_eq_ok.1 h
    obtain ⟨power, hpower, h⟩ := Except.bind_eq_ok.1 h
    exact ⟨body, power, hbody, hpower, (Except.pure_eq_ok.1 h).symm⟩
  · rintro ⟨body, power, hbody, hpower, rfl⟩
    exact Except.bind_eq_ok.2 ⟨body, hbody, Except.bind_eq_ok.2 ⟨power, hpower, rfl⟩⟩

theorem Node.cleaned_fraction_eq_ok {t b : List Node} {node : Node} :
    (Node.fraction t b).cleaned = .ok node ↔
      ∃ top bottom, Sequence.cleanedFrom true false false t = .ok top ∧
        Sequence.cleanedFrom true false false b = .ok bottom ∧
        (Node.fraction? top bottom).isSome = true ∧ node = .fraction top bottom := by
  rw [Node.cleaned]
  constructor
  · intro h
    obtain ⟨top, htop, h⟩ := Except.bind_eq_ok.1 h
    obtain ⟨bottom, hbottom, h⟩ := Except.bind_eq_ok.1 h
    split at h
    · rename_i quotient hquotient
      obtain rfl := Except.pure_eq_ok.1 h
      exact ⟨top, bottom, htop, hbottom, hquotient ▸ rfl, Node.fraction?_eq_some hquotient⟩
    · cases h
  · rintro ⟨top, bottom, htop, hbottom, hsome, rfl⟩
    obtain ⟨quotient, hquotient⟩ := Option.isSome_iff_exists.1 hsome
    refine Except.bind_eq_ok.2 ⟨top, htop, Except.bind_eq_ok.2 ⟨bottom, hbottom, ?_⟩⟩
    rw [hquotient, Node.fraction?_eq_some hquotient]
    rfl

/-! ## Cleaning a text -/

mutual
/-- A node without differences, fractions and relations inside, powers apart. -/
def Node.IsTidy : Node → Prop
  | .group .. => True
  | .paren b _ _ => Sequence.IsTidy b
  | .fraction .. | .relation _ => False
  | .operator op => op ≠ .subtract

/-- A sequence of tidy nodes. -/
def Sequence.IsTidy : List Node → Prop
  | [] => True
  | n :: ns => n.IsTidy ∧ Sequence.IsTidy ns
end

theorem Sequence.isTidy_iff {nodes : List Node} :
    Sequence.IsTidy nodes ↔ ∀ node ∈ nodes, node.IsTidy := by
  induction nodes with
  | nil => simp [Sequence.IsTidy]
  | cons node rest ih => simp [Sequence.IsTidy, ih]

theorem Sequence.cleanedFrom_term (nested afterTerm negate : Bool) {node : Node}
    (h : node.isTerm = true) (rest : List Node) :
    Sequence.cleanedFrom nested afterTerm negate (node :: rest) = (do
      let term ← node.cleaned
      let rest ← Sequence.cleanedFrom nested true false rest
      return placeTerm afterTerm (if negate then term.negated else term) rest) := by
  cases node <;> first | rfl | cases h

/-- The operator that cleaning writes for one: differences become sums. -/
def Operator.cleaned : Operator → Operator
  | .subtract => .add
  | op => op

theorem Operator.cleaned_eq {op : Operator} (h : op ≠ .subtract) : op.cleaned = op := by
  cases op <;> first | rfl | exact absurd rfl h

theorem Sequence.cleanedFrom_operator (nested afterTerm negate : Bool) (op : Operator)
    (rest : List Node) :
    Sequence.cleanedFrom nested afterTerm negate (.operator op :: rest) = (do
      let rest ← Sequence.cleanedFrom nested false (if op = .subtract then !negate else negate) rest
      return .operator op.cleaned :: rest) := by
  cases op <;> rfl

/-- How the operators of a sequence are written out: every term is cleaned and changes its sign
behind a `-`, and behind a term it has an operator put in front of it. -/
inductive OperatorsWritten (nested : Bool) :
    (afterTerm negate : Bool) → (nodes out : List Node) → Prop where
  | nil (afterTerm negate) : OperatorsWritten nested afterTerm negate [] []
  | relation {afterTerm negate r rest out} (hnested : nested = false)
      (tail : OperatorsWritten nested false negate rest out) :
      OperatorsWritten nested afterTerm negate (.relation r :: rest) (.relation r :: out)
  | subtract {afterTerm negate rest out} (tail : OperatorsWritten nested false (!negate) rest out) :
      OperatorsWritten nested afterTerm negate (.operator .subtract :: rest) (.operator .add :: out)
  | operator {afterTerm negate op rest out} (hop : op ≠ .subtract)
      (tail : OperatorsWritten nested false negate rest out) :
      OperatorsWritten nested afterTerm negate (.operator op :: rest) (.operator op :: out)
  | term {afterTerm negate node term rest out} (hterm : node.isTerm = true)
      (hclean : node.cleaned = .ok term) (tail : OperatorsWritten nested true false rest out) :
      OperatorsWritten nested afterTerm negate (node :: rest)
        (placeTerm afterTerm (if negate then term.negated else term) out)

theorem OperatorsWritten.of_cleanedFrom {nested afterTerm negate : Bool} {nodes out : List Node}
    (h : Sequence.cleanedFrom nested afterTerm negate nodes = .ok out) :
    OperatorsWritten nested afterTerm negate nodes out := by
  induction nodes generalizing afterTerm negate out with
  | nil =>
    obtain rfl : [] = out := by simpa [Sequence.cleanedFrom] using h
    exact .nil _ _
  | cons first rest ih =>
    by_cases hterm : first.isTerm = true
    · rw [Sequence.cleanedFrom_term nested afterTerm negate hterm] at h
      obtain ⟨term, hclean, h⟩ := Except.bind_eq_ok.1 h
      obtain ⟨out', hout, h⟩ := Except.bind_eq_ok.1 h
      obtain rfl := Except.pure_eq_ok.1 h
      exact .term hterm hclean (ih hout)
    · cases first with
      | operator op =>
        cases op <;>
        · obtain ⟨out', hout, h⟩ := Except.bind_eq_ok.1 h
          obtain rfl := Except.pure_eq_ok.1 h
          first
          | exact .subtract (ih hout)
          | exact .operator (by decide) (ih hout)
      | relation r =>
        rw [Sequence.cleanedFrom] at h
        split at h
        · cases h
        · rename_i hnested
          obtain ⟨out', hout, h⟩ := Except.bind_eq_ok.1 h
          obtain rfl := Except.pure_eq_ok.1 h
          exact .relation (by simpa using hnested) (ih hout)
      | _ => exact absurd rfl hterm

/-- A term that is placed, with an operator or without. -/
theorem mem_placeTerm {afterTerm : Bool} {term node : Node} {rest : List Node}
    (h : node ∈ placeTerm afterTerm term rest) :
    (∃ op, op ≠ .subtract ∧ node = .operator op) ∨ node = term ∨ node ∈ rest := by
  rw [placeTerm] at h
  split at h
  · rcases List.mem_cons.1 h with rfl | h
    · refine .inl ⟨_, ?_, rfl⟩
      unfold Node.impliedOperator
      split <;> simp
    · exact .inr (List.mem_cons.1 h)
  · exact .inr (List.mem_cons.1 h)

/-- What holds of the cleaned terms with either sign, and of the operators other than `-`, holds of
all that cleaning puts into a sequence, but for relations at the top level. -/
theorem OperatorsWritten.forall_mem {P : Node → Prop} {nested afterTerm negate : Bool}
    {nodes out : List Node} (h : OperatorsWritten nested afterTerm negate nodes out)
    (hoperator : ∀ op, op ≠ .subtract → P (.operator op))
    (hnegated : ∀ node, P node → P node.negated)
    (hterms : ∀ node ∈ nodes, node.isTerm = true → ∀ term, node.cleaned = .ok term → P term) :
    ∀ node ∈ out, nested = true ∨ node.isRelation = false → P node := by
  induction h with
  | nil => simp
  | relation hnested _ ih =>
    refine List.forall_mem_cons.2 ⟨?_, ih fun n hn => hterms n (.tail _ hn)⟩
    simp [hnested, Node.isRelation]
  | subtract _ ih =>
    exact List.forall_mem_cons.2
      ⟨fun _ => hoperator .add (by decide), ih fun n hn => hterms n (.tail _ hn)⟩
  | operator hop _ ih =>
    exact List.forall_mem_cons.2 ⟨fun _ => hoperator _ hop, ih fun n hn => hterms n (.tail _ hn)⟩
  | @term _ negate first term _ _ hterm hclean _ ih =>
    intro node hnode
    have hfirst : P term := hterms first (.head _) hterm term hclean
    rcases mem_placeTerm hnode with ⟨op, hop, rfl⟩ | rfl | hnode
    · exact fun _ => hoperator op hop
    · split
      · exact fun _ => hnegated term hfirst
      · exact fun _ => hfirst
    · exact ih (fun n hn => hterms n (.tail _ hn)) node hnode

theorem Node.isTidy_negated {node : Node} (h : node.IsTidy) : node.negated.IsTidy := by
  cases node <;> exact h

theorem Node.isTidy_of_cleaned {node node' : Node} {nested : Bool} (hread : node.IsRead nested)
    (hterm : node.isTerm = true) (h : node.cleaned = .ok node') : node'.IsTidy := by
  induction node using Node.nested_induction generalizing node' nested with
  | group letter n p =>
    obtain ⟨power, -, rfl⟩ := Node.cleaned_group_eq_ok.1 h
    trivial
  | paren b p negative ihb =>
    obtain ⟨body, power, hbody, -, rfl⟩ := Node.cleaned_paren_eq_ok.1 h
    cases hread with
    | paren _ _ hb _ =>
      exact Sequence.isTidy_iff.2 fun inner hinner =>
        (OperatorsWritten.of_cleanedFrom hbody).forall_mem (P := Node.IsTidy) (fun _ => id)
          (fun _ => Node.isTidy_negated)
          (fun old hold holdTerm _ => ihb old hold (hb old hold) holdTerm) inner hinner (.inl rfl)
  | fraction t b => cases hread
  | operator op => cases hterm
  | relation r => cases hterm

/-- What was read from a text is tidy after cleaning, except for relations at the top level. -/
theorem Sequence.isTidy_of_cleaned {nodes out : List Node} {nested : Bool}
    (hread : ∀ node ∈ nodes, node.IsRead nested)
    (h : Sequence.cleaned nodes = .ok out) {node : Node} (hnode : node ∈ out)
    (hrelation : node.isRelation = false) : node.IsTidy :=
  (OperatorsWritten.of_cleanedFrom h).forall_mem (P := Node.IsTidy) (fun _ => id)
    (fun _ => Node.isTidy_negated) (fun old hold holdTerm _ =>
      Node.isTidy_of_cleaned (hread old hold) holdTerm) node hnode (.inr hrelation)

/-! ## Clean sequences -/

section

variable (point : Char → Rat) {x : Char}

theorem Sequence.cleanedFrom_of_wholePower {p out : List Node} {exponent : Nat}
    (hp : WholePower p exponent) (h : Sequence.cleanedFrom true false false p = .ok out) :
    out = p := by
  cases hp with
  | one => simpa [Sequence.cleanedFrom] using h.symm
  | written n =>
    simpa [Sequence.cleanedFrom, Node.cleaned, placeTerm, bind, Except.bind, pure,
      Except.pure] using h.symm

/-- The rest of a sequence with a value, after a term, is clean if its terms are. -/
theorem Sequence.cleanedFrom_rest {nested : Bool} {rest tail out : List Node}
    {total product value : Rat}
    (hvalue : Sequence.valueAfter point total product rest = some value)
    (hplain : ∀ op, .operator op ∈ rest → op ≠ .subtract)
    (hclean : ∀ node ∈ rest, ∀ v, node.valueAt point = some v → ∀ node',
      node.cleaned = .ok node' → node' = node)
    (h : Sequence.cleanedFrom nested true false (rest ++ tail) = .ok out) :
    ∃ out', Sequence.cleanedFrom nested true false tail = .ok out' ∧ out = rest ++ out' := by
  match rest with
  | [] => exact ⟨out, h, rfl⟩
  | [.operator op] => simp [Sequence.valueAfter] at hvalue
  | .operator op :: node :: rest =>
    obtain ⟨v, hv, hvalue⟩ := Option.bind_eq_some_iff.1 hvalue
    have hop : op ≠ .subtract := hplain op (.head _)
    have hnext : ∃ total product, Sequence.valueAfter point total product rest = some value := by
      cases op with
      | divide =>
        obtain ⟨quotient, -, hvalue⟩ := Option.bind_eq_some_iff.1 hvalue
        exact ⟨_, _, hvalue⟩
      | _ => exact ⟨_, _, hvalue⟩
    obtain ⟨total', product', hrest⟩ := hnext
    have hterm : node.isTerm = true := by cases node <;> simp_all [Node.valueAt, Node.isTerm]
    obtain ⟨out', hout', rfl⟩ : ∃ out', Sequence.cleanedFrom nested false false
        (node :: (rest ++ tail)) = .ok out' ∧ out = .operator op :: out' := by
      cases op with
      | subtract => exact absurd rfl hop
      | _ =>
        obtain ⟨out', hout', h⟩ := Except.bind_eq_ok.1 h
        exact ⟨out', hout', (Except.pure_eq_ok.1 h).symm⟩
    rw [Sequence.cleanedFrom_term nested false false hterm] at hout'
    obtain ⟨term, hnode, hout'⟩ := Except.bind_eq_ok.1 hout'
    obtain ⟨out'', hout'', hout'⟩ := Except.bind_eq_ok.1 hout'
    obtain rfl := Except.pure_eq_ok.1 hout'
    obtain rfl := hclean node (.tail _ (.head _)) v hv term hnode
    obtain ⟨out', htail, rfl⟩ := Sequence.cleanedFrom_rest hrest
      (fun op hop => hplain op (.tail _ (.tail _ hop)))
      (fun n hn => hclean n (.tail _ (.tail _ hn))) hout''
    exact ⟨out', htail, rfl⟩
  | .group .. :: _ | .paren .. :: _ | .fraction .. :: _ | .relation _ :: _ =>
    simp [Sequence.valueAfter] at hvalue

/-- A sequence with a value is clean if its terms are. -/
theorem Sequence.cleanedFrom_of_nodes (tail : List Node) {nested : Bool} {nodes out : List Node}
    {value : Rat}
    (hvalue : Sequence.valueAt point nodes = some value)
    (hplain : ∀ op, .operator op ∈ nodes → op ≠ .subtract)
    (hclean : ∀ node ∈ nodes, ∀ v, node.valueAt point = some v → ∀ node',
      node.cleaned = .ok node' → node' = node)
    (h : Sequence.cleanedFrom nested false false (nodes ++ tail) = .ok out) :
    ∃ out', Sequence.cleanedFrom nested true false tail = .ok out' ∧ out = nodes ++ out' := by
  cases nodes with
  | nil => simp [Sequence.valueAt] at hvalue
  | cons node rest =>
    obtain ⟨v, hv, hrest⟩ := Option.bind_eq_some_iff.1 hvalue
    have hterm : node.isTerm = true := by cases node <;> simp_all [Node.valueAt, Node.isTerm]
    rw [List.cons_append, Sequence.cleanedFrom_term nested false false hterm] at h
    obtain ⟨term, hnode, h⟩ := Except.bind_eq_ok.1 h
    obtain ⟨out', hout', h⟩ := Except.bind_eq_ok.1 h
    obtain rfl := Except.pure_eq_ok.1 h
    obtain rfl := hclean node (.head _) v hv term hnode
    obtain ⟨out'', htail, rfl⟩ := Sequence.cleanedFrom_rest point hrest
      (fun op hop => hplain op (.tail _ hop)) (fun n hn => hclean n (.tail _ hn)) hout'
    exact ⟨out'', htail, rfl⟩

theorem Sequence.ne_subtract_of_isPlain {nodes : List Node} {division : Bool}
    (h : Sequence.IsPlain x division nodes) (op : Operator) (hop : .operator op ∈ nodes) :
    op ≠ .subtract := (Sequence.isPlain_iff.1 h _ hop).1

/-- A plain term with a value is clean. -/
theorem Node.cleaned_eq {node node' : Node} {division : Bool} (hplain : node.IsPlain x division)
    {value : Rat} (hvalue : node.valueAt point = some value) (h : node.cleaned = .ok node') :
    node' = node := by
  have hbody {b out : List Node} {v : Rat} {division : Bool}
      (ih : ∀ node ∈ b, ∀ {node' : Node} {division : Bool}, node.IsPlain x division →
        ∀ {value : Rat}, node.valueAt point = some value → node.cleaned = .ok node' → node' = node)
      (hb : Sequence.IsPlain x division b) (hv : Sequence.valueAt point b = some v)
      (h : Sequence.cleanedFrom true false false b = .ok out) : out = b := by
    obtain ⟨out', hout', rfl⟩ := Sequence.cleanedFrom_of_nodes point [] hv
      (Sequence.ne_subtract_of_isPlain hb)
      (fun node hnode _ hv _ => ih node hnode (Sequence.isPlain_iff.1 hb node hnode) hv)
      (by simpa using h)
    obtain rfl : [] = out' := by simpa [Sequence.cleanedFrom] using hout'
    exact List.append_nil b
  induction node using Node.nested_induction generalizing node' division value with
  | group letter n p =>
    obtain ⟨-, exponent, hp⟩ := hplain
    obtain ⟨power, hpower, rfl⟩ := Node.cleaned_group_eq_ok.1 h
    rw [Sequence.cleanedFrom_of_wholePower hp hpower]
  | paren b p negative ihb =>
    obtain ⟨hb, exponent, hp⟩ := hplain
    obtain ⟨body, power, hclean, hpower, rfl⟩ := Node.cleaned_paren_eq_ok.1 h
    rw [Node.valueAt_paren point hp] at hvalue
    obtain ⟨content, hcontent, -⟩ := Option.map_eq_some_iff.1 hvalue
    rw [Sequence.cleanedFrom_of_wholePower hp hpower,
      hbody (fun node hnode _ _ => ihb node hnode) hb hcontent hclean]
  | fraction t b iht ihb =>
    obtain ⟨top, bottom, htop, hbottom, -, rfl⟩ := Node.cleaned_fraction_eq_ok.1 h
    obtain ⟨t', b', ht, hb, -, -⟩ := (Node.valueAt_fraction_eq_some point).1 hvalue
    rw [hbody (fun node hnode _ _ => iht node hnode) hplain.1 ht htop,
      hbody (fun node hnode _ _ => ihb node hnode) hplain.2 hb hbottom]
  | operator op => simp [Node.valueAt] at hvalue
  | relation r => simp [Node.valueAt] at hvalue

/-- An equation between a plain side with a value and zero is clean. -/
theorem Sequence.cleaned_equation {content out : List Node} {division : Bool}
    (hplain : Sequence.IsPlain x division content) {value : Rat}
    (hvalue : Sequence.valueAt point content = some value)
    (h : Sequence.cleaned (content ++ [.relation .equal, Node.constant 0]) = .ok out) :
    out = content ++ [.relation .equal, Node.constant 0] := by
  obtain ⟨out', hout', rfl⟩ := Sequence.cleanedFrom_of_nodes point _ hvalue
    (Sequence.ne_subtract_of_isPlain hplain)
    (fun node hnode _ hv _ =>
      Node.cleaned_eq point (Sequence.isPlain_iff.1 hplain node hnode) hv) h
  obtain rfl : [.relation .equal, Node.constant 0] = out' := by
    simpa [Sequence.cleanedFrom, Node.cleaned, placeTerm, Node.constant, Group.constant,
      Group.toNode, bind, Except.bind, pure, Except.pure] using hout'
  rfl

end

end OneUnknown
