import OneUnknown.Proofs.Problem
import OneUnknown.Proofs.Rereading
import OneUnknown.Proofs.Sums
/-!
# Writing and reading again

A cleaned sequence is what its own text is cleaned to: reading drops a `+` in front of a negative
term, and cleaning puts it back.

* `Number.IsCanonical` and `Node.IsCanonical`: numbers as they come from values, and exponents that
  keep their text;
* `Sequence.Alternates`: terms and operators in turn, from some point on;
* `Sequence.cleanedFrom_rereadAfter`: cleaning what is read from the text of a sequence;
* `Sequence.cleaned_parse_text`: the text of a whole cleaned sequence.
-/

namespace OneUnknown

/-! ## What a sequence has to be like -/

/-- A decimal the way a value is turned into a number, except that zero may have a minus sign. -/
def Number.IsCanonical (n : Number) : Prop :=
  ∃ value, Rational.IsDecimal value ∧ n = (Number.ofRat value).withSign n.negative

/-- Whether an exponent is neither the number one nor a lone parenthesis without a minus sign. -/
def isKeptPower : List Node → Bool
  | [.group none n []] => n.value ≠ 1
  | [.paren _ _ false] => false
  | _ => true

/-- A node without fractions and differences inside, whose letters can name variables, whose numbers
are canonical and whose exponents are written as they are. -/
inductive Node.IsCanonical : Node → Prop where
  | group {letter : Option Char} {n : Number} {p : List Node}
    (hletter : ∀ name, letter = some name → isAlphabetic name = true ∧ name ≠ 'E')
    (hn : n.IsCanonical) (hkept : isKeptPower p = true) (hp : ∀ node ∈ p, node.IsCanonical) :
    IsCanonical (.group letter n p)
  | paren (negative : Bool) {b p : List Node} (hb : ∀ node ∈ b, node.IsCanonical)
    (hkept : isKeptPower p = true) (hp : ∀ node ∈ p, node.IsCanonical) :
    IsCanonical (.paren b p negative)
  | operator {op : Operator} (hop : op ≠ .subtract) : IsCanonical (.operator op)
  | relation (r : Relation) : IsCanonical (.relation r)

/-! ## Numbers -/

theorem Rational.IsDecimal.magnitude {value : Rat} (h : Rational.IsDecimal value) :
    Rational.IsDecimal (Rational.magnitude value) := by
  obtain ⟨digits, places, heq⟩ := h
  rw [Rational.magnitude]
  split
  · exact ⟨-digits, places, by rw [neg_mul, heq, Int.cast_neg]⟩
  · exact ⟨digits, places, heq⟩

theorem Number.magnitude_withSign (n : Number) (negative : Bool) :
    (n.withSign negative).magnitude = n.magnitude := rfl

theorem Number.IsCanonical.isDecimal {n : Number} (h : n.IsCanonical) :
    Rational.IsDecimal n.magnitude := by
  obtain ⟨value, hvalue, heq⟩ := h
  rw [heq, Number.magnitude_withSign, Number.magnitude_ofRat]
  exact hvalue.magnitude

/-- Values that differ in their sign only give numbers that do. -/
theorem Number.ofRat_withSign_congr {value value' : Rat}
    (h : Rational.magnitude value = Rational.magnitude value') (negative : Bool) :
    (Number.ofRat value).withSign negative = (Number.ofRat value').withSign negative :=
  Number.ext (by simp only [Number.withSign, Number.ofRat, h])
    (by simp only [Number.withSign, Number.ofRat, h]) rfl

/-- A canonical number is read back from its digits. -/
theorem Number.IsCanonical.reread_eq {n : Number} (h : n.IsCanonical) : n.reread = n := by
  obtain ⟨value, -, heq⟩ := h
  have hmagnitude : Rational.magnitude n.magnitude = Rational.magnitude value := by
    rw [heq, Number.magnitude_withSign, Number.magnitude_ofRat, Rational.magnitude_eq_abs,
      Rational.magnitude_eq_abs, abs_abs]
  calc n.reread = (Number.ofRat n.magnitude).withSign n.negative := rfl
    _ = (Number.ofRat value).withSign n.negative := Number.ofRat_withSign_congr hmagnitude _
    _ = n := heq.symm

/-! ## Terms and operators in turn -/

/-- What is left of a sequence of terms and operators in turn, where `afterTerm` says whether a term
stands in front of it.  Only at the top level there are relations. -/
inductive Sequence.Alternates (nested : Bool) : (afterTerm : Bool) → List Node → Prop where
  | nil {afterTerm : Bool} : Alternates nested afterTerm []
  | operator {op : Operator} {rest : List Node} (hop : op ≠ .subtract)
    (hrest : Alternates nested false rest) : Alternates nested true (.operator op :: rest)
  | relation {afterTerm : Bool} (hnested : nested = false) (r : Relation) {rest : List Node}
    (hrest : Alternates nested false rest) : Alternates nested afterTerm (.relation r :: rest)
  | term {term : Node} {rest : List Node} (hterm : term.isTerm = true)
    (hrest : Alternates nested true rest) : Alternates nested false (term :: rest)

theorem Node.isTerm_of_isWellFormed {node : Node} (h : node.isWellFormed = true) :
    node.isTerm = true := by
  cases node <;> simp_all [Node.isWellFormed, Node.isTerm]

namespace Sequence

variable {nested : Bool}

theorem Alternates.of_alternates {rest tail : List Node} (h : alternates rest = true)
    (hoperators : ∀ op, .operator op ∈ rest → op ≠ .subtract)
    (htail : Alternates nested true tail) : Alternates nested true (rest ++ tail) := by
  match rest with
  | [] => exact htail
  | .operator op :: next :: rest =>
    rw [alternates, Bool.and_eq_true] at h
    exact .operator (hoperators op (.head _)) (.term (Node.isTerm_of_isWellFormed h.1)
      (.of_alternates h.2 (fun op hop => hoperators op (.tail _ (.tail _ hop))) htail))
  | [.operator _] => simp [alternates] at h
  | .group .. :: _ | .paren .. :: _ | .fraction .. :: _ | .relation _ :: _ =>
    simp [alternates] at h

theorem Alternates.of_isWellFormed {nodes tail : List Node} (h : isWellFormed nodes = true)
    (hoperators : ∀ op, .operator op ∈ nodes → op ≠ .subtract)
    (htail : Alternates nested true tail) : Alternates nested false (nodes ++ tail) := by
  cases nodes with
  | nil => simp [isWellFormed] at h
  | cons first rest =>
    rw [isWellFormed, Bool.and_eq_true] at h
    exact .term (Node.isTerm_of_isWellFormed h.1)
      (.of_alternates h.2 (fun op hop => hoperators op (.tail _ hop)) htail)

/-- The sides of an equation, between which the relations stand. -/
theorem Alternates.of_sides {nodes : List Node}
    (hsides : ∀ side ∈ nodes.splitOnP Node.isRelation, side = [] ∨ isWellFormed side = true)
    (hoperators : ∀ op, .operator op ∈ nodes → op ≠ .subtract) : Alternates false false nodes := by
  have hside {side tail : List Node} (h : side = [] ∨ isWellFormed side = true)
      (hoperators : ∀ op, .operator op ∈ side → op ≠ .subtract)
      (htail : ∀ afterTerm, Alternates false afterTerm tail) :
      Alternates false false (side ++ tail) := by
    rcases h with rfl | h
    · exact htail false
    · exact .of_isWellFormed h hoperators (htail true)
  induction nodes using splitOnP_induction Node.isRelation with
  | single part hpart =>
    rw [List.splitOnP_eq_singleton hpart] at hsides
    rw [← List.append_nil part]
    exact hside (hsides part (.head _)) hoperators fun _ => .nil
  | cons part separator rest hpart hseparator ih =>
    rw [List.splitOnP_append_cons_of_forall_mem hpart _ hseparator] at hsides
    have hrest := ih (fun side hmem => hsides side (.tail _ hmem))
      fun op hop => hoperators op (List.mem_append_right _ (.tail _ hop))
    refine hside (hsides part (.head _))
      (fun op hop => hoperators op (List.mem_append_left _ hop)) fun _ => ?_
    cases separator with
    | relation r => exact .relation rfl r hrest
    | _ => cases hseparator

/-! ## Cleaning what is read -/

theorem impliedOperator_of_isNegative {node : Node} (h : node.isNegative = true) :
    node.impliedOperator = .add := by
  cases node <;> simp_all [Node.impliedOperator, Node.isNegative]

/-- Cleaning puts back what reading has dropped. -/
theorem cleanedFrom_rereadAfter {previous : Option Node} {afterTerm : Bool} {nodes : List Node}
    (hwritten : Written previous nodes) (hprevious : previous.any Node.isTerm = afterTerm)
    (halternates : Alternates nested afterTerm nodes)
    (hterms : ∀ node ∈ nodes, node.isTerm = true → node.reread.cleaned = .ok node) :
    cleanedFrom nested afterTerm false (rereadAfter previous nodes) = .ok nodes := by
  have hterm {afterTerm : Bool} {node : Node} (hnode : node.isTerm = true)
      (hclean : node.reread.cleaned = .ok node) {rest : List Node}
      (ih : cleanedFrom nested true false (rereadAfter (some node) rest) = .ok rest) :
      cleanedFrom nested afterTerm false (node.reread :: rereadAfter (some node) rest) =
        .ok (placeTerm afterTerm node rest) := by
    rw [cleanedFrom_term nested afterTerm false (by simpa using hnode), hclean]
    simp [ih, bind, Except.bind, pure, Except.pure]
  induction hwritten generalizing afterTerm with
  | nil => simp [cleanedFrom]
  | @hidden previous node rest hnegative hrest ih =>
    have hnode := Node.isTerm_of_isNegative hnegative
    cases halternates with
    | operator _ halternates =>
      cases halternates with
      | term _ halternates =>
        rw [rereadAfter_hidden previous hnegative,
          hterm hnode (hterms node (.tail _ (.head _)) hnode)
          (ih hnode halternates fun other hother => hterms other (.tail _ (.tail _ hother))),
          placeTerm, if_pos rfl, impliedOperator_of_isNegative hnegative]
      | relation => cases hnegative
    | term hfalse => cases hfalse
  | @operator previous op rest hhides hrest ih =>
    cases halternates with
    | operator hop halternates =>
      rw [rereadAfter_operator previous hhides]
      have hrest : cleanedFrom nested false false (rereadAfter (some (.operator op)) rest) =
          .ok rest := ih rfl halternates fun other hother => hterms other (.tail _ hother)
      rw [cleanedFrom_operator, if_neg hop, hrest, Operator.cleaned_eq hop]
      rfl
    | term hfalse => cases hfalse
  | @relation previous r rest hrest ih =>
    cases halternates with
    | relation hnested _ halternates =>
      subst hnested
      have hrest :
          cleanedFrom false false false (rereadAfter (some (.relation r)) rest) = .ok rest :=
        ih rfl halternates fun other hother => hterms other (.tail _ hother)
      simp [rereadAfter_relation, cleanedFrom, hrest, bind, Except.bind, pure, Except.pure]
    | term hfalse => cases hfalse
  | @term previous node rest hnode _ hrest ih =>
    cases halternates with
    | term _ halternates =>
      rw [rereadAfter_term previous hnode, needsPlus, hprevious, Bool.false_and, Bool.false_and,
        if_neg (by simp), List.nil_append, hterm hnode (hterms node (.head _) hnode)
          (ih hnode halternates fun other hother => hterms other (.tail _ hother))]
      rfl
    | operator | relation => cases hnode

end Sequence

/-! ## Canonical nodes -/

theorem isUnitPower_of_isKept {p : List Node} (hne : p ≠ []) (hkept : isKeptPower p = true) :
    isUnitPower p = false := by
  unfold isUnitPower
  split
  · exact absurd rfl hne
  · simpa [isKeptPower] using hkept
  · rfl

theorem isLegiblePower_of_isKept {p : List Node} (hkept : isKeptPower p = true)
    (hwellFormed : Sequence.isWellFormed p = true) : isLegiblePower p = true := by
  unfold isLegiblePower
  split
  · simp [Sequence.isWellFormed, Node.isWellFormed] at hwellFormed
  · cases hkept
  · rfl

/-- An exponent that is kept is read as its own text. -/
theorem rereadPower_of_isKept {p : List Node} (hread : ∀ node ∈ p, node.IsRead true)
    (hunit : isUnitPower p = false) (hkept : isKeptPower p = true) :
    rereadPower p = Sequence.reread p := by
  cases IsWrittenPower.of_isRead hread hunit with
  | lone hterm hparen =>
    rw [rereadPower_lone hterm hparen hunit, Sequence.reread_singleton hterm]
  | parenthesis => cases hkept
  | operator => exact rereadPower_operator _
  | several => exact rereadPower_several _ _ _

/-- A node inside of another one that comes back from its text. -/
structure Node.Restored (node : Node) : Prop where
  isRead : node.IsRead true
  isLegible : node.isLegible = true
  cleaned : node.isTerm = true → node.reread.cleaned = .ok node

/-- The content of a term comes back if its nodes do. -/
theorem Sequence.cleanedFrom_reread {nodes : List Node} (h : Sequence.isWellFormed nodes = true)
    (hnodes : ∀ node ∈ nodes, node.Restored) :
    Sequence.cleanedFrom true false false (Sequence.reread nodes) = .ok nodes := by
  have hoperators : ∀ op, .operator op ∈ nodes → op ≠ .subtract := fun op hop => by
    cases (hnodes _ hop).isRead with
    | operator hop => exact hop
  have halternates : Sequence.Alternates true false nodes := by
    simpa using Sequence.Alternates.of_isWellFormed h hoperators .nil
  exact Sequence.cleanedFrom_rereadAfter (Sequence.written nodes (by simp)) rfl halternates
    fun node hnode => (hnodes node hnode).cleaned

theorem Sequence.isLegible_of_restored {nodes : List Node} (h : ∀ node ∈ nodes, node.Restored) :
    Sequence.isLegible nodes = true :=
  Sequence.isLegible_iff.2 fun node hnode => (h node hnode).isLegible

/-- An exponent that is kept comes back, too. -/
theorem cleanedFrom_rereadPower {p : List Node} (hkept : isKeptPower p = true)
    (hwellFormed : (p.isEmpty || Sequence.isWellFormed p) = true)
    (hnodes : ∀ node ∈ p, node.Restored) :
    (isUnitPower p || isLegiblePower p && Sequence.isLegible p) = true ∧
      Sequence.cleanedFrom true false false (rereadPower p) = .ok p := by
  by_cases hempty : p = []
  · subst hempty
    exact ⟨rfl, rfl⟩
  · have hwellFormed : Sequence.isWellFormed p = true := by simpa [hempty] using hwellFormed
    have hunit := isUnitPower_of_isKept hempty hkept
    refine ⟨?_, ?_⟩
    · rw [hunit, isLegiblePower_of_isKept hkept hwellFormed, Sequence.isLegible_of_restored hnodes]
      rfl
    · rw [rereadPower_of_isKept (fun node hnode => (hnodes node hnode).isRead) hunit hkept]
      exact Sequence.cleanedFrom_reread hwellFormed hnodes

/-- A canonical term comes back from its text. -/
theorem Node.IsCanonical.restored {node : Node} (h : node.IsCanonical)
    (hwellFormed : node.isWellFormed = true) : node.Restored := by
  have hinner {nodes : List Node} (hcanonical : ∀ node ∈ nodes, node.IsCanonical)
      (hnodes : Sequence.isWellFormed nodes = true)
      (ih : ∀ node ∈ nodes, node.IsCanonical → node.isWellFormed = true → node.Restored)
      (node : Node) (hnode : node ∈ nodes) : node.Restored := by
    rcases Sequence.mem_of_isWellFormed hnodes node hnode with hnodeWellFormed | ⟨op, rfl⟩
    · exact ih node hnode (hcanonical node hnode) hnodeWellFormed
    · cases hcanonical _ hnode with
      | operator hop => exact ⟨.operator hop, rfl, fun hterm => by cases hterm⟩
  have hpower {p : List Node} (hcanonical : ∀ node ∈ p, node.IsCanonical)
      (hp : (p.isEmpty || Sequence.isWellFormed p) = true)
      (ih : ∀ node ∈ p, node.IsCanonical → node.isWellFormed = true → node.Restored)
      (node : Node) (hnode : node ∈ p) : node.Restored := by
    refine hinner hcanonical ?_ ih node hnode
    simpa [List.ne_nil_of_mem hnode] using hp
  induction node using Node.nested_induction with
  | group letter n p ih =>
    rw [Node.isWellFormed] at hwellFormed
    cases h with
    | group hletter hn hkept hp =>
      have hp := hpower hp hwellFormed ih
      obtain ⟨hlegible, hclean⟩ := cleanedFrom_rereadPower hkept hwellFormed hp
      refine ⟨.group hletter hn.isDecimal fun node hnode => (hp node hnode).isRead, hlegible,
        fun _ => ?_⟩
      rw [Node.reread_group, hn.reread_eq, Node.cleaned, hclean]
      rfl
  | paren b p negative ihb ihp =>
    rw [Node.isWellFormed, Bool.and_eq_true] at hwellFormed
    cases h with
    | paren _ hb hkept hp =>
      have hb := hinner hb hwellFormed.1 ihb
      have hp := hpower hp hwellFormed.2 ihp
      obtain ⟨hlegible, hclean⟩ := cleanedFrom_rereadPower hkept hwellFormed.2 hp
      have hne : b ≠ [] := by
        rintro rfl
        simp [Sequence.isWellFormed] at hwellFormed
      refine ⟨.paren negative hne (fun node hnode => (hb node hnode).isRead)
        fun node hnode => (hp node hnode).isRead, ?_, fun _ => ?_⟩
      · rw [Node.isLegible, Sequence.isLegible_of_restored hb, hlegible]
        rfl
      · rw [Node.reread_paren, Node.cleaned, Sequence.cleanedFrom_reread hwellFormed.1 hb, hclean]
        rfl
  | fraction => cases h
  | operator | relation => cases hwellFormed

/-! ## Whole sequences -/

theorem Node.IsRead.mono {node : Node} {nested : Bool} (h : node.IsRead true) :
    node.IsRead nested := by
  cases h with
  | group hletter hn hp => exact .group hletter hn hp
  | paren negative hne hb hp => exact .paren negative hne hb hp
  | operator hop => exact .operator hop

/-- The text of a cleaned sequence can be read, and cleaning what is read gives the sequence. -/
theorem Sequence.cleaned_parse_text {nodes : List Node}
    (hsides : ∀ side ∈ nodes.splitOnP Node.isRelation,
      side = [] ∨ Sequence.isWellFormed side = true)
    (hcanonical : ∀ node ∈ nodes, node.IsCanonical) :
    ∃ read, parse (Sequence.text nodes) = .ok read ∧ Sequence.cleaned read = .ok nodes := by
  have hoperators (op : Operator) (hop : .operator op ∈ nodes) : op ≠ .subtract := by
    cases hcanonical _ hop with
    | operator hop => exact hop
  have hterms (node : Node) (hnode : node ∈ nodes) (hterm : node.isTerm = true) :
      node.Restored := by
    obtain ⟨side, hside, hmem⟩ := exists_mem_splitOnP Node.isRelation hnode
      (by cases node <;> first | rfl | cases hterm)
    rcases hsides side hside with rfl | hwellFormed
    · cases hmem
    · rcases Sequence.mem_of_isWellFormed hwellFormed node hmem with hnodeWellFormed | ⟨op, rfl⟩
      · exact (hcanonical node hnode).restored hnodeWellFormed
      · cases hterm
  have hread (node : Node) (hnode : node ∈ nodes) : node.IsRead false := by
    cases node with
    | group | paren | fraction => exact (hterms _ hnode rfl).isRead.mono
    | operator op => exact .operator (hoperators op hnode)
    | relation r => exact .relation r
  have hlegible : Sequence.isLegible nodes = true := Sequence.isLegible_iff.2 fun node hnode => by
    cases node with
    | group | paren | fraction => exact (hterms _ hnode rfl).isLegible
    | operator | relation => rfl
  have halternates := Sequence.Alternates.of_sides hsides hoperators
  exact ⟨_, Sequence.parse_text hread hlegible,
    Sequence.cleanedFrom_rereadAfter (Sequence.written nodes (by simp)) rfl halternates
      fun node hnode hterm => (hterms node hnode hterm).cleaned hterm⟩

/-- The text of this sequence is `-2x^-3 - (0.5)^2 = -0`. -/
theorem Sequence.cleaned_parse_text_negative_terms :
    ∃ read, parse (Sequence.text
        [.group (some 'x') ((Number.ofRat 2).withSign true)
            [.group none ((Number.ofRat 3).withSign true) []],
          .operator .add,
          .paren [.group none (Number.ofRat (1 / 2)) []] [.group none (Number.ofRat 2) []] true,
          .relation .equal, .group none ((Number.ofRat 0).withSign true) []]) = .ok read ∧
      Sequence.cleaned read = .ok
        [.group (some 'x') ((Number.ofRat 2).withSign true)
            [.group none ((Number.ofRat 3).withSign true) []],
          .operator .add,
          .paren [.group none (Number.ofRat (1 / 2)) []] [.group none (Number.ofRat 2) []] true,
          .relation .equal, .group none ((Number.ofRat 0).withSign true) []] := by
  have hconstant {n : Number} (h : n.IsCanonical) :
      ∀ node ∈ [Node.group none n []], node.IsCanonical := by
    simpa using Node.IsCanonical.group (by simp) h rfl (by simp)
  have htwo := Rational.isDecimal_natCast 2
  refine Sequence.cleaned_parse_text (by decide +kernel) ?_
  simp only [List.mem_cons, List.not_mem_nil, or_false]
  rintro node (rfl | rfl | rfl | rfl | rfl)
  · refine .group ?_ ⟨2, htwo, rfl⟩ (by decide +kernel)
      (hconstant ⟨3, Rational.isDecimal_natCast 3, rfl⟩)
    rintro _ ⟨⟩
    decide +kernel
  · exact .operator (by simp)
  · exact .paren true (hconstant ⟨1 / 2, ⟨5, 1, by norm_num⟩, rfl⟩) (by decide +kernel)
      (hconstant ⟨2, htwo, rfl⟩)
  · exact .relation .equal
  · exact .group (by simp) ⟨0, Rational.isDecimal_natCast 0, rfl⟩ rfl (by simp)

end OneUnknown
