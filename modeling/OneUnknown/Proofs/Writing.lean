import OneUnknown.Proofs.Meaning
import OneUnknown.Proofs.Text
/-!
# How a sequence is written

The printer goes over a sequence once.  The only place where it looks ahead is a `+` in front of a
negative term, which is hidden: the minus sign of the term stands for both.

* `hidesPlus`, and the equations for `Sequence.textAfter` in the cases that it tells apart;
* `Sequence.Written`: these cases, as they follow each other;
* `Number.exists_spells`: the digits of a coefficient;
* `Sequence.isTidyText_text`: what is written reaches the reader as it is.
-/

namespace OneUnknown

/-! ## Sequences -/

/-- Whether an operator is a `+` that the minus sign of the next term stands for. -/
def hidesPlus (op : Operator) (rest : List Node) : Bool :=
  op = .add && rest.head?.any Node.isNegative

theorem exists_of_hidesPlus {op : Operator} {rest : List Node} (h : hidesPlus op rest = true) :
    op = .add ∧ ∃ next later, rest = next :: later ∧ next.isNegative = true := by
  rw [hidesPlus, Bool.and_eq_true, decide_eq_true_eq] at h
  cases rest with
  | nil => cases h.2
  | cons next later => exact ⟨h.1, next, later, rfl, h.2⟩

theorem Node.isTerm_of_isNegative {node : Node} (h : node.isNegative = true) :
    node.isTerm = true := by
  cases node <;> first | rfl | cases h

namespace Sequence

@[simp] theorem textAfter_nil (previous : Option Node) : textAfter previous [] = [] := rfl

theorem textAfter_relation (previous : Option Node) (r : Relation) (rest : List Node) :
    textAfter previous (.relation r :: rest) =
      [' ', r.symbol, ' '] ++ textAfter (some (.relation r)) rest := rfl

theorem textAfter_operator (previous : Option Node) {op : Operator} {rest : List Node}
    (h : hidesPlus op rest = false) :
    textAfter previous (.operator op :: rest) =
      [' ', op.symbol, ' '] ++ textAfter (some (.operator op)) rest := by
  rw [textAfter, if_neg (by simpa [hidesPlus] using h)]

theorem textAfter_term (previous : Option Node) {term : Node} (h : term.isTerm = true)
    (rest : List Node) :
    textAfter previous (term :: rest) =
      separator previous term ++ (term.body ++ textAfter (some term) rest) := by
  cases term with
  | operator | relation => cases h
  | group | paren | fraction => exact List.append_assoc _ _ _

theorem text_singleton {term : Node} (h : term.isTerm = true) :
    text [term] = separator none term ++ term.body := by
  rw [text, textAfter_term none h, textAfter_nil, List.append_nil]

/-- A minus sign stands for the plus before it, too. -/
theorem textAfter_hidden (previous : Option Node) {term : Node} (h : term.isNegative = true)
    (rest : List Node) :
    textAfter previous (.operator .add :: term :: rest) =
      [' ', '-', ' '] ++ (term.body ++ textAfter (some term) rest) := by
  rw [textAfter, if_pos (by simp [h]), textAfter_term _ (Node.isTerm_of_isNegative h), separator,
    if_pos h, if_pos (by simp)]
  rfl

/-- How the printer goes over a sequence that stands after `previous`: a hidden plus goes with the
term behind it. -/
inductive Written : (previous : Option Node) → List Node → Prop where
  | nil (previous : Option Node) : Written previous []
  | hidden (previous : Option Node) {term : Node} {rest : List Node}
    (hnegative : term.isNegative = true) (hrest : Written (some term) rest) :
    Written previous (.operator .add :: term :: rest)
  | operator (previous : Option Node) {op : Operator} {rest : List Node}
    (hhides : hidesPlus op rest = false) (hrest : Written (some (.operator op)) rest) :
    Written previous (.operator op :: rest)
  | relation (previous : Option Node) (r : Relation) {rest : List Node}
    (hrest : Written (some (.relation r)) rest) : Written previous (.relation r :: rest)
  | term {previous : Option Node} {term : Node} {rest : List Node} (hterm : term.isTerm = true)
    (hprevious : term.isNegative = true → previous ≠ some (.operator .add))
    (hrest : Written (some term) rest) : Written previous (term :: rest)

/-- Every sequence is written in this way, unless its first term is the one behind a hidden plus. -/
theorem written (nodes : List Node) {previous : Option Node}
    (h : nodes.head?.any Node.isNegative = true → previous ≠ some (.operator .add)) :
    Written previous nodes := by
  match nodes with
  | [] => exact .nil previous
  | .relation r :: rest => exact .relation previous r (written rest (by simp))
  | .operator op :: rest =>
    cases hhides : hidesPlus op rest with
    | false =>
      refine .operator previous hhides (written rest ?_)
      rintro hnegative ⟨rfl⟩
      simp [hidesPlus, hnegative] at hhides
    | true =>
      obtain ⟨rfl, next, rest, rfl, hnegative⟩ := exists_of_hidesPlus hhides
      refine .hidden previous hnegative (written rest ?_)
      rintro - ⟨rfl⟩
      cases hnegative
  | .group v n p :: rest => exact .term rfl h (written rest (by simp))
  | .paren b p negative :: rest => exact .term rfl h (written rest (by simp))
  | .fraction t b :: rest => exact .term rfl h (written rest (by simp))

end Sequence

/-! ## Terms -/

/-- An exponent, with the caret in front of it. -/
def powerText (power : List Node) : List Char :=
  if isUnitPower power then []
  else if power.length = 1 then '^' :: Sequence.text power
  else '^' :: parenthesized (Sequence.text power)

theorem Node.body_group (v : Option Char) (n : Number) (p : List Node) :
    (Node.group v n p).body = coefficientText v n ++ powerText p := rfl

theorem Node.body_paren (b p : List Node) (negative : Bool) :
    (Node.paren b p negative).body = parenthesized (Sequence.text b) ++ powerText p := rfl

/-- A magnitude is written without a sign. -/
theorem Number.plain_magnitude (n : Number) :
    Rational.plain n.magnitude = Rational.plainMagnitude n.magnitude := by
  have hneg : ¬ n.magnitude < 0 := not_lt.2 n.magnitude_nonneg
  rw [Rational.plain, Rational.signText, if_neg hneg, Rational.magnitude, if_neg hneg,
    List.nil_append]

/-- The digits of a coefficient. -/
theorem Number.exists_spells {n : Number} (h : Rational.IsDecimal n.magnitude) :
    ∃ whole part, Rational.Spells whole part n.magnitude ∧
      Rational.plain n.magnitude = whole ++ (if part = [] then [] else '.' :: part) := by
  rw [n.plain_magnitude]
  exact Rational.exists_spells_of_isDecimal n.magnitude_nonneg h

/-! ## What is written reaches the reader as it is -/

theorem isTidyText_coefficientText {v : Option Char} {n : Number}
    (hletter : ∀ name, v = some name → isAlphabetic name = true)
    (hn : Rational.IsDecimal n.magnitude) : IsTidyText (coefficientText v n) := by
  have hplain : IsTidyText (Rational.plain n.magnitude) := by
    obtain ⟨whole, part, hspells, heq⟩ := Number.exists_spells hn
    have hdigits := fun c hc => isPlainChar_of_isDigit (hspells.digits c hc)
    have hpart : IsTidyText part := .of_forall fun c hc => hdigits c (List.mem_append_right _ hc)
    rw [heq]
    refine .append (.of_forall fun c hc => hdigits c (List.mem_append_left _ hc)) ?_
    split
    · exact .nil
    · exact .append (.char (c := '.') (by decide)) hpart
  cases v with
  | none => exact hplain
  | some name =>
    have hname : IsTidyText [name] := .char (isPlainChar_of_isAlphabetic (hletter name rfl))
    rw [coefficientText]
    split
    · exact hname
    · exact .append hplain hname

theorem isTidyText_separator (previous : Option Node) (term : Node) :
    IsTidyText (separator previous term) := by
  rw [separator]
  split
  · split <;> exact .of_all (by decide)
  · split <;> exact .of_all (by decide)

theorem Operator.isTidyText_symbol (op : Operator) : IsTidyText [' ', op.symbol, ' '] := by
  cases op <;> exact .of_all (by decide)

theorem Sequence.isTidyText_textAfter {nodes : List Node}
    (h : ∀ node ∈ nodes, IsTidyText node.body) (previous : Option Node) :
    IsTidyText (Sequence.textAfter previous nodes) := by
  induction nodes generalizing previous with
  | nil => exact .nil
  | cons node rest ih =>
    have hrest := ih fun other hother => h other (.tail _ hother)
    cases node with
    | operator op =>
      rw [textAfter]
      refine .append ?_ (hrest _)
      split
      · exact .nil
      · exact op.isTidyText_symbol
    | relation r => exact .append (.relation r) (hrest _)
    | group | paren | fraction =>
      rw [textAfter_term previous rfl]
      exact .append (isTidyText_separator _ _) (.append (h _ (.head _)) (hrest _))

theorem isTidyText_powerText {power : List Node} (h : ∀ node ∈ power, IsTidyText node.body) :
    IsTidyText (powerText power) := by
  have hcaret : IsTidyText ['^'] := .char (by decide)
  have htext : IsTidyText (Sequence.text power) := Sequence.isTidyText_textAfter h none
  rw [powerText]
  split
  · exact .nil
  · split
    · exact hcaret.append htext
    · exact hcaret.append (.brackets htext)

theorem Node.isTidyText_body {node : Node} {nested : Bool} (h : node.IsRead nested) :
    IsTidyText node.body := by
  induction node using Node.nested_induction generalizing nested with
  | group letter n p ih =>
    cases h with
    | group hletter hn hp =>
      rw [Node.body_group]
      exact .append (isTidyText_coefficientText (fun name hname => (hletter name hname).1) hn)
        (isTidyText_powerText fun node hnode => ih node hnode (hp node hnode))
  | paren b p negative ihb ihp =>
    cases h with
    | paren _ _ hb hp =>
      rw [Node.body_paren]
      exact .append (.brackets (Sequence.isTidyText_textAfter (fun node hnode =>
        ihb node hnode (hb node hnode)) none))
        (isTidyText_powerText fun node hnode => ihp node hnode (hp node hnode))
  | fraction => cases h
  | operator => exact .nil
  | relation => exact .nil

/-- The text of what can be read has matching brackets, and none of its relations can be read
together with the character before it. -/
theorem Sequence.isTidyText_text {nodes : List Node} {nested : Bool}
    (h : ∀ node ∈ nodes, node.IsRead nested) : IsTidyText (Sequence.text nodes) :=
  Sequence.isTidyText_textAfter (fun node hnode => Node.isTidyText_body (h node hnode)) none

end OneUnknown
