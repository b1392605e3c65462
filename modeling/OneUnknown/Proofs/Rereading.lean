import OneUnknown.Proofs.Following
/-!
# Reading what was written

The text of what can be read is read again.  What comes out is the sequence itself but for some
plus signs, brackets and exponents, and `Node.reread` says which.

* `Node.reread`, `Sequence.rereadAfter`: what is read from the text of a term and of a sequence;
* `IsWrittenPower`: the exponents that are written, and what is read from each;
* `Node.isLegible`: whether the exponents of a term can be read at all from what is written;
* `Node.Rereads`, `Sequence.Rereads`: the text of a term, and of a sequence, leads to what is read;
* `Sequence.parse_text`: reading the text of a legible sequence.
-/

namespace OneUnknown

/-! ## What is read -/

/-- Whether a `+` is written in front of a term that is not written in the sequence. -/
def needsPlus (previous : Option Node) (term : Node) : Bool :=
  previous.any Node.isTerm && !term.isNegative && !term.isParen

/-- An exponent that is a parenthesis without an exponent of its own loses its brackets: they are
read as those that hold the exponent together. -/
def spliced : List Node → List Node
  | [.paren b [] false] => b
  | power => power

mutual
/-- What is read from the text of a node. -/
def Node.reread : Node → Node
  | .group v n p =>
    .group v n.reread (if isUnitPower p then [] else spliced (Sequence.rereadAfter none p))
  | .paren b p negative =>
    .paren (Sequence.rereadAfter none b)
      (if isUnitPower p then [] else spliced (Sequence.rereadAfter none p)) negative
  | .fraction t b => .fraction t b
  | .operator op => .operator op
  | .relation r => .relation r

/-- What is read from the text of a sequence that stands after `previous`. -/
def Sequence.rereadAfter (previous : Option Node) : List Node → List Node
  | [] => []
  | n :: ns =>
    (match n with
      | .operator op => if hidesPlus op ns then [] else [.operator op]
      | .relation r => [.relation r]
      | term => (if needsPlus previous term then [.operator .add] else []) ++ [term.reread])
      ++ Sequence.rereadAfter (some n) ns
end

/-- What is read from the text of a sequence. -/
def Sequence.reread (nodes : List Node) : List Node := Sequence.rereadAfter none nodes

/-- What is read from the text of an exponent. -/
def rereadPower (power : List Node) : List Node :=
  if isUnitPower power then [] else spliced (Sequence.reread power)

/-- Whether the text of an exponent can be an exponent.  An operator alone cannot, and a
parenthesis takes no second exponent when its brackets are those of the exponent. -/
def isLegiblePower : List Node → Bool
  | [.operator _] => false
  | [.paren _ p false] => isUnitPower p
  | _ => true

mutual
/-- Whether every exponent in a node can be read from its text. -/
def Node.isLegible : Node → Bool
  | .group _ _ p => isUnitPower p || isLegiblePower p && Sequence.isLegible p
  | .paren b p _ => Sequence.isLegible b &&
      (isUnitPower p || isLegiblePower p && Sequence.isLegible p)
  | .fraction .. => false
  | .operator _ | .relation _ => true

/-- Whether every exponent in a sequence can be read from its text. -/
def Sequence.isLegible : List Node → Bool
  | [] => true
  | n :: ns => n.isLegible && Sequence.isLegible ns
end

theorem Node.reread_group (v : Option Char) (n : Number) (p : List Node) :
    (Node.group v n p).reread = .group v n.reread (rereadPower p) := rfl

theorem Node.reread_paren (b p : List Node) (negative : Bool) :
    (Node.paren b p negative).reread = .paren (Sequence.reread b) (rereadPower p) negative := rfl

@[simp] theorem Node.isNegative_reread (node : Node) :
    node.reread.isNegative = node.isNegative := by
  cases node <;> rfl

@[simp] theorem Node.isTerm_reread (node : Node) : node.reread.isTerm = node.isTerm := by
  cases node <;> rfl

@[simp] theorem Node.isParen_reread (node : Node) : node.reread.isParen = node.isParen := by
  cases node <;> rfl

namespace Sequence

@[simp] theorem rereadAfter_nil (previous : Option Node) : rereadAfter previous [] = [] := rfl

theorem rereadAfter_relation (previous : Option Node) (r : Relation) (rest : List Node) :
    rereadAfter previous (.relation r :: rest) =
      .relation r :: rereadAfter (some (.relation r)) rest := rfl

theorem rereadAfter_operator (previous : Option Node) {op : Operator} {rest : List Node}
    (h : hidesPlus op rest = false) :
    rereadAfter previous (.operator op :: rest) =
      .operator op :: rereadAfter (some (.operator op)) rest := by
  rw [rereadAfter, h]
  rfl

theorem rereadAfter_term (previous : Option Node) {term : Node} (h : term.isTerm = true)
    (rest : List Node) :
    rereadAfter previous (term :: rest) =
      (if needsPlus previous term then [.operator .add] else []) ++
        term.reread :: rereadAfter (some term) rest := by
  cases term with
  | operator | relation => cases h
  | group | paren | fraction => exact List.append_assoc _ _ _

theorem rereadAfter_hidden (previous : Option Node) {term : Node} (h : term.isNegative = true)
    (rest : List Node) :
    rereadAfter previous (.operator .add :: term :: rest) =
      term.reread :: rereadAfter (some term) rest := by
  rw [rereadAfter, if_pos (by simp [hidesPlus, h]),
    rereadAfter_term _ (Node.isTerm_of_isNegative h)]
  simp [needsPlus, h]

theorem rereadAfter_eq_nil {previous : Option Node} {nodes : List Node}
    (h : rereadAfter previous nodes = []) : nodes = [] := by
  induction nodes generalizing previous with
  | nil => rfl
  | cons node rest ih =>
    cases node with
    | operator op =>
      rw [rereadAfter, List.append_eq_nil_iff] at h
      cases hhides : hidesPlus op rest with
      | false => simp [hhides] at h
      | true =>
        rw [ih h.2] at hhides
        simp [hidesPlus] at hhides
    | relation r => cases h
    | group | paren | fraction =>
      rw [rereadAfter_term previous rfl] at h
      simp at h

/-- Only a lone parenthesis can be read as one. -/
theorem spliced_reread (first second : Node) (rest : List Node) :
    spliced (reread (first :: second :: rest)) = reread (first :: second :: rest) := by
  have hrest (previous : Option Node) : rereadAfter previous (second :: rest) ≠ [] :=
    fun h => by cases rereadAfter_eq_nil h
  unfold spliced
  split
  · rename_i b heq
    exfalso
    cases first with
    | operator op =>
      cases hhides : hidesPlus op (second :: rest) with
      | false => simp [reread, rereadAfter_operator _ hhides] at heq
      | true =>
        obtain ⟨rfl, _, _, ⟨⟩, hnegative⟩ := exists_of_hidesPlus hhides
        rw [reread, rereadAfter_hidden _ hnegative, List.cons.injEq] at heq
        rw [← Node.isNegative_reread, heq.1] at hnegative
        cases hnegative
    | relation r => simp [reread, rereadAfter_relation] at heq
    | group | paren | fraction =>
      rw [reread, rereadAfter_term none rfl] at heq
      simp [needsPlus, hrest] at heq
  · rfl

theorem reread_singleton {term : Node} (h : term.isTerm = true) :
    reread [term] = [term.reread] := by
  rw [reread, rereadAfter_term none h]
  rfl

theorem spliced_reread_singleton {term : Node} (h : term.isTerm = true)
    (hparen : term.isParen = true → term.isNegative = true) :
    spliced (reread [term]) = [term.reread] := by
  rw [reread_singleton h]
  unfold spliced
  split
  · rename_i b heq
    have hterm : term.reread = .paren b [] false := List.singleton_inj.1 heq
    have hnegative := hparen (by rw [← Node.isParen_reread, hterm]; rfl)
    rw [← Node.isNegative_reread, hterm] at hnegative
    cases hnegative
  · rfl

theorem isLegible_iff {nodes : List Node} :
    isLegible nodes = true ↔ ∀ node ∈ nodes, node.isLegible = true := by
  induction nodes with
  | nil => simp [isLegible]
  | cons node rest ih => simp [isLegible, ih]

end Sequence

/-! ## Exponents -/

theorem powerText_of_isUnitPower {p : List Node} (h : isUnitPower p = true) : powerText p = [] :=
  if_pos h

theorem rereadPower_of_isUnitPower {p : List Node} (h : isUnitPower p = true) :
    rereadPower p = [] :=
  if_pos h

/-- The exponents that are written, by what becomes of their brackets: a lone term has none, those
of a lone parenthesis are read as those of the exponent, and several nodes are put in brackets. -/
inductive IsWrittenPower : List Node → Prop where
  | lone {term : Node} (hterm : term.isTerm = true)
    (hparen : term.isParen = true → term.isNegative = true) : IsWrittenPower [term]
  | parenthesis {b : List Node} (hne : b ≠ []) (q : List Node) : IsWrittenPower [.paren b q false]
  | operator {op : Operator} (hop : op ≠ .subtract) : IsWrittenPower [.operator op]
  | several (first second : Node) (rest : List Node) : IsWrittenPower (first :: second :: rest)

theorem IsWrittenPower.of_isRead {p : List Node} (hread : ∀ node ∈ p, node.IsRead true)
    (hunit : isUnitPower p = false) : IsWrittenPower p := by
  rcases p with _ | ⟨first, _ | ⟨second, rest⟩⟩
  · cases hunit
  · cases hread first (.head _) with
    | group => exact .lone rfl fun hfalse => by cases hfalse
    | paren negative hne =>
      cases negative with
      | true => exact .lone rfl fun _ => rfl
      | false => exact .parenthesis hne _
    | operator hop => exact .operator hop
  · exact .several first second rest

theorem isUnitPower_several (first second : Node) (rest : List Node) :
    isUnitPower (first :: second :: rest) = false := by
  simp [isUnitPower]

theorem powerText_lone {term : Node} (hterm : term.isTerm = true)
    (hunit : isUnitPower [term] = false) :
    powerText [term] = '^' :: (separator none term ++ term.body) := by
  rw [powerText, if_neg (by simp [hunit]), if_pos List.length_singleton,
    Sequence.text_singleton hterm]

theorem powerText_parenthesis (b q : List Node) :
    powerText [.paren b q false] = '^' :: (parenthesized (Sequence.text b) ++ powerText q) :=
  powerText_lone rfl rfl

theorem powerText_several (first second : Node) (rest : List Node) :
    powerText (first :: second :: rest) =
      '^' :: parenthesized (Sequence.text (first :: second :: rest)) := by
  rw [powerText, if_neg (by simp [isUnitPower_several]), if_neg (by simp)]

theorem rereadPower_lone {term : Node} (hterm : term.isTerm = true)
    (hparen : term.isParen = true → term.isNegative = true) (hunit : isUnitPower [term] = false) :
    rereadPower [term] = [term.reread] := by
  rw [rereadPower, if_neg (by simp [hunit]), Sequence.spliced_reread_singleton hterm hparen]

theorem rereadPower_parenthesis (b : List Node) {q : List Node} (hq : isUnitPower q = true) :
    rereadPower [.paren b q false] = Sequence.reread b := by
  rw [rereadPower, if_neg (by simp [isUnitPower]), Sequence.reread_singleton rfl, Node.reread_paren,
    rereadPower_of_isUnitPower hq]
  rfl

theorem rereadPower_several (first second : Node) (rest : List Node) :
    rereadPower (first :: second :: rest) = Sequence.reread (first :: second :: rest) := by
  rw [rereadPower, if_neg (by simp [isUnitPower_several]), Sequence.spliced_reread]

theorem rereadPower_operator (op : Operator) :
    rereadPower [.operator op] = Sequence.reread [.operator op] := by
  rw [rereadPower, if_neg (by simp [isUnitPower]), Sequence.reread,
    Sequence.rereadAfter_operator none (by simp [hidesPlus])]
  rfl

theorem isLegiblePower_several (first second : Node) (rest : List Node) :
    isLegiblePower (first :: second :: rest) = true := by
  simp [isLegiblePower]

/-! ## Reading a term -/

open Reader

section

variable {relations nested : Bool} {frames : List Frame} {nodes : List Node} {r : Reader}

/-- The states in which the text of a term can be read, its sign apart. -/
inductive ReadyFor (frames : List Frame) (nodes : List Node) (term : Node) (r : Reader) : Prop where
  | gap (h : r.AtGap frames nodes term.isNegative)
    (hawaits : term.isParen = true → AwaitsTerm frames)
  | adjacent (hparen : term.isParen = true) (hnegative : term.isNegative = false)
    (hsettled : IsSettled frames) (h : r.AtTerm frames nodes)

/-- The text of a term leads to the term that is read from it. -/
def Node.Rereads (relations : Bool) (term : Node) : Prop :=
  ∀ {frames : List Frame} {nodes : List Node} {r : Reader}, ReadyFor frames nodes term r →
    r.Leads relations term.body (AtTerm frames (nodes ++ [term.reread]))

/-- The text of a sequence leads to the sequence that is read from it. -/
def Sequence.Rereads (relations : Bool) (content : List Node) : Prop :=
  ∀ {frames : List Frame} {r : Reader}, IsSettled frames → r.AtGap frames [] false →
    r.Leads relations (Sequence.text content) (AtRest frames (Sequence.reread content))

theorem ReadyFor.leads_opening {term : Node} (h : ReadyFor frames nodes term r)
    (hparen : term.isParen = true) :
    r.Leads relations ['('] (Opened frames nodes term.isNegative) := by
  cases h with
  | gap h hawaits => exact h.leads_opening (hawaits hparen)
  | adjacent _ hnegative hsettled h => exact hnegative ▸ h.leads_opening hsettled

/-- Brackets with something in them. -/
theorem Sequence.Rereads.leads_paren {b p : List Node} {negative : Bool}
    (hb : Sequence.Rereads relations b) (hne : b ≠ [])
    (h : ReadyFor frames nodes (.paren b p negative) r) :
    r.Leads relations (parenthesized (Sequence.text b)) fun r' =>
      r'.frames = continued .complete frames ∧
        r'.level.Raisable nodes fun power => .paren (Sequence.reread b) power negative := by
  show r.Leads relations (['('] ++ (Sequence.text b ++ [')'])) _
  refine (h.leads_opening rfl).append ?_
  rintro _ ⟨place, outer, frames', rfl, hframes, houter⟩
  refine (hb (by trivial) ⟨rfl, Level.gap_blank⟩).append fun r' h' => ?_
  refine (h'.leads_closing (fun hempty => hne (Sequence.rereadAfter_eq_nil hempty)) houter).mono ?_
  exact fun r'' h'' => ⟨h''.1.trans hframes, h''.2⟩

/-! ## Reading a sequence -/

/-- The state in which the text of a sequence that stands after `previous` can be read. -/
structure Follows (frames : List Frame) (nodes : List Node) (previous : Option Node) (r : Reader) :
    Prop where
  atTerm : previous.any Node.isTerm = true → r.AtTerm frames nodes
  atGap : previous.any Node.isTerm = false → r.AtGap frames nodes false

section

variable {previous : Option Node}

theorem Follows.of_atTerm {term : Node} (hterm : term.isTerm = true) (h : r.AtTerm frames nodes) :
    Follows frames nodes (some term) r where
  atTerm _ := h
  atGap hfalse := by simp [hterm] at hfalse

theorem Follows.of_atGap (hprevious : previous.any Node.isTerm = false)
    (h : r.AtGap frames nodes false) : Follows frames nodes previous r where
  atTerm htrue := by simp [hprevious] at htrue
  atGap _ := h

theorem Follows.atRest (hsettled : IsSettled frames) (h : Follows frames nodes previous r) :
    r.AtRest frames nodes := by
  cases hprevious : previous.any Node.isTerm with
  | true => exact (h.atTerm hprevious).atRest hsettled
  | false => exact (h.atGap hprevious).atRest hsettled

theorem Follows.leads_difference (hsettled : IsSettled frames)
    (h : Follows frames nodes previous r) :
    r.Leads relations [' ', '-', ' '] (AtGap frames nodes true) := by
  cases hprevious : previous.any Node.isTerm with
  | true => exact (h.atTerm hprevious).leads_difference hsettled
  | false =>
    show r.Leads relations ([' '] ++ (['-'] ++ [' '])) _
    refine ((h.atGap hprevious).leads_blank hsettled).append fun r' h' => ?_
    refine (h'.leads_minus hsettled.not_complete).append fun r'' h'' => ?_
    rw [hsettled.continued_eq] at h''
    exact h''.leads_blank hsettled

/-- What stands in front of a term prepares for it. -/
theorem Follows.leads_separator {term : Node} (hsettled : IsSettled frames)
    (hprevious : term.isNegative = true → previous ≠ some (.operator .add))
    (h : Follows frames nodes previous r) :
    r.Leads relations (separator previous term)
      (ReadyFor frames (nodes ++ if needsPlus previous term then [.operator .add] else [])
        term) := by
  rw [separator, needsPlus]
  cases hnegative : term.isNegative with
  | true =>
    have hready {r' : Reader} (h' : r'.AtGap frames nodes true) : ReadyFor frames nodes term r' :=
      .gap (hnegative ▸ h') fun _ => hsettled.awaitsTerm
    simp only [if_true, hprevious hnegative, decide_false, Bool.or_false, Bool.not_true,
      Bool.and_false, Bool.false_and, Bool.false_eq_true, if_false, List.append_nil]
    split
    · exact (h.leads_difference hsettled).mono fun _ => hready
    · rename_i hany
      refine ((h.atGap (Bool.eq_false_iff.2 hany)).leads_minus hsettled.not_complete).mono
        fun r' h' => hready ?_
      rwa [hsettled.continued_eq] at h'
  | false =>
    have hready {nodes : List Node} {r' : Reader} (h' : r'.AtGap frames nodes false) :
        ReadyFor frames nodes term r' := .gap (hnegative ▸ h') fun _ => hsettled.awaitsTerm
    cases hany : previous.any Node.isTerm with
    | false => simpa using Leads.nil (hready (h.atGap hany))
    | true =>
      cases hparen : term.isParen with
      | true => simpa using Leads.nil (.adjacent hparen hnegative hsettled (h.atTerm hany))
      | false =>
        exact (((h.atTerm hany).atRest hsettled).leads_operator hsettled
          (show Operator.add ≠ .subtract by simp)).mono fun r' => hready

theorem Sequence.leads_textAfter {content : List Node}
    (hwritten : Sequence.Written previous content) (hsettled : IsSettled frames)
    (hnested : nested = false → relations = true ∧ frames = [])
    (hterms : ∀ node ∈ content, node.isTerm = true → node.Rereads relations)
    (hread : ∀ node ∈ content, node.IsRead nested) (h : Follows frames nodes previous r) :
    r.Leads relations (Sequence.textAfter previous content)
      (AtRest frames (nodes ++ Sequence.rereadAfter previous content)) := by
  induction hwritten generalizing nodes r with
  | nil previous =>
    rw [Sequence.rereadAfter_nil, List.append_nil]
    exact .nil (h.atRest hsettled)
  | @hidden previous term rest hnegative hrest ih =>
    rw [List.forall_mem_cons, List.forall_mem_cons] at hterms hread
    have hterm := Node.isTerm_of_isNegative hnegative
    rw [Sequence.textAfter_hidden previous hnegative,
      Sequence.rereadAfter_hidden previous hnegative, List.append_cons]
    refine (h.leads_difference hsettled).append fun r' h' => ?_
    refine (hterms.2.1 hterm (.gap (hnegative ▸ h') fun _ => hsettled.awaitsTerm)).append ?_
    exact fun r'' h'' => ih hterms.2.2 hread.2.2 (.of_atTerm hterm h'')
  | @operator previous op rest hhides hrest ih =>
    rw [List.forall_mem_cons] at hterms hread
    rw [Sequence.textAfter_operator previous hhides, Sequence.rereadAfter_operator previous hhides,
      List.append_cons]
    refine ((h.atRest hsettled).leads_operator hsettled hread.1.ne_subtract).append ?_
    exact fun r' h' => ih hterms.2 hread.2 (.of_atGap rfl h')
  | @relation previous rel rest hrest ih =>
    rw [List.forall_mem_cons] at hterms hread
    obtain ⟨rfl, rfl⟩ := hnested hread.1.nested_eq_false
    rw [Sequence.textAfter_relation previous, Sequence.rereadAfter_relation previous,
      List.append_cons]
    refine ((h.atRest hsettled).leads_relation rel).append ?_
    exact fun r' h' => ih hterms.2 hread.2 (.of_atGap rfl h')
  | @term previous term rest hterm hprevious hrest ih =>
    rw [List.forall_mem_cons] at hterms hread
    have hnodes (plus later : List Node) :
        nodes ++ (plus ++ term.reread :: later) = nodes ++ plus ++ [term.reread] ++ later := by simp
    rw [Sequence.textAfter_term previous hterm, Sequence.rereadAfter_term previous hterm, hnodes]
    refine (h.leads_separator hsettled hprevious).append fun r' h' => ?_
    refine (hterms.1 hterm h').append ?_
    exact fun r'' h'' => ih hterms.2 hread.2 (.of_atTerm hterm h'')

theorem Sequence.rereads {content : List Node}
    (hterms : ∀ node ∈ content, node.isTerm = true → node.Rereads relations)
    (hread : ∀ node ∈ content, node.IsRead true) : Sequence.Rereads relations content :=
  fun hsettled h => Sequence.leads_textAfter (Sequence.written content (by simp)) hsettled
    (fun hfalse => by cases hfalse) hterms hread (.of_atGap rfl h)

end

/-! ## Reading an exponent -/

/-- The opening bracket of an exponent that holds together by brackets. -/
theorem leads_openExponent (hframes : r.frames = continued .complete frames)
    {term : List Node → Node} (hterm : r.level.Raisable nodes term) :
    r.Leads relations ['^', '('] fun r' => ∃ caret, r' =
      ⟨Level.blank, ⟨.bracketExponent caret, r.level.leaveFraction⟩ ::
        continued .incomplete frames⟩ := by
  obtain ⟨level, _⟩ := r
  obtain rfl : _ = continued .complete frames := hframes
  show Leads relations _ (['^'] ++ ['(']) _
  refine (leads_caret hterm.pastTerm.scientific).append ?_
  rintro _ ⟨caret, rfl⟩
  refine leads_openingExponent.mono ?_
  rintro _ rfl
  exact ⟨caret, by rw [continued_continued]⟩

/-- An exponent that holds together by brackets. -/
theorem Sequence.Rereads.leads_bracketExponent {content : List Node} {term : List Node → Node}
    (hcontent : Sequence.Rereads relations content) (hne : content ≠ [])
    (hframes : r.frames = continued .complete frames) (hterm : r.level.Raisable nodes term) :
    r.Leads relations ('^' :: parenthesized (Sequence.text content)) fun r' =>
      r'.frames = continued .complete frames ∧
        r'.level.PastTerm (nodes ++ [term (Sequence.reread content)]) ∧ r'.level.IsRaised := by
  show r.Leads relations (['^', '('] ++ (Sequence.text content ++ [')'])) _
  refine (leads_openExponent hframes hterm).append ?_
  rintro _ ⟨caret, rfl⟩
  refine (hcontent (by trivial) ⟨rfl, Level.gap_blank⟩).append fun r' h' => ?_
  refine (h'.leads_closingExponent
    (fun hempty => hne (Sequence.rereadAfter_eq_nil hempty)) hterm).mono ?_
  exact fun r'' h'' => ⟨by simpa using h''.1, h''.2⟩

/-- The sign of an exponent that is a lone term.  Behind it the exponent is read at a level of its
own. -/
theorem leads_exponentSign {exponent : Node} {term : List Node → Node}
    (hparen : exponent.isParen = true → exponent.isNegative = true)
    (hframes : r.frames = continued .complete frames) (hterm : r.level.Raisable nodes term) :
    r.Leads relations ('^' :: separator none exponent) fun r' => ∃ caret progress,
      ReadyFor (⟨.exponent caret progress, r.level.leaveFraction⟩ :: continued .incomplete frames)
        [] exponent r' := by
  obtain ⟨level, _⟩ := r
  obtain rfl : _ = continued .complete frames := hframes
  show Leads relations _ (['^'] ++ separator none exponent) _
  refine (leads_caret hterm.pastTerm.scientific).append ?_
  rintro _ ⟨caret, rfl⟩
  rw [continued_continued]
  have hgap := AtGap.mk (r := ⟨Level.blank, ⟨.exponent caret .nothing, level.leaveFraction⟩ ::
    continued .incomplete frames⟩) rfl Level.gap_blank
  cases hnegative : exponent.isNegative with
  | true =>
    rw [separator, if_pos hnegative, if_neg (by simp)]
    refine (hgap.leads_minus ?_).mono fun r' h' =>
      ⟨caret, .incomplete, .gap (hnegative ▸ h') fun _ => rfl⟩
    rintro _ _ _ _ ⟨⟩
    simp
  | false =>
    rw [separator, if_neg (by simp [hnegative])]
    refine .nil ⟨caret, .nothing, .gap (hnegative ▸ hgap) fun hp => ?_⟩
    rw [hparen hp] at hnegative
    cases hnegative

/-- An exponent that is a lone term. -/
theorem Node.Rereads.leads_exponent {exponent : Node} {term : List Node → Node}
    (hexponent : exponent.Rereads relations)
    (hparen : exponent.isParen = true → exponent.isNegative = true)
    (hframes : r.frames = continued .complete frames) (hterm : r.level.Raisable nodes term) :
    r.Leads relations ('^' :: (separator none exponent ++ exponent.body))
      (AtTerm frames (nodes ++ [term [exponent.reread]])) := by
  refine (leads_exponentSign hparen hframes hterm).append ?_
  rintro r' ⟨caret, progress, hready⟩
  refine (hexponent hready).mono fun r'' h'' => ⟨h''.complete, ?_⟩
  -- The end of the exponent is the end of its level.
  obtain ⟨last, hclose, hlast⟩ := h''.closes
  obtain ⟨raised, hraise, hraised, -⟩ := hterm.raise caret [exponent.reread] (by simp)
  refine ⟨raised, hclose.trans ?_, hraised⟩
  simp [closeExponents, hlast.toHolds.finish, hraise, bind, Except.bind]

/-- What has to be known of the terms inside of a term. -/
def Node.ContentRereads (relations : Bool) : Node → Prop
  | .paren b _ _ => Sequence.Rereads relations b
  | _ => True

/-- The exponent of a term. -/
theorem leads_powerText {p : List Node} {term : List Node → Node}
    (hread : ∀ node ∈ p, node.IsRead true)
    (hlegible : (isUnitPower p || isLegiblePower p && Sequence.isLegible p) = true)
    (hinner : ∀ node ∈ p, node.isTerm = true → node.isLegible = true →
      node.Rereads relations ∧ node.ContentRereads relations)
    (hframes : r.frames = continued .complete frames) (hterm : r.level.Raisable nodes term) :
    r.Leads relations (powerText p) (AtTerm frames (nodes ++ [term (rereadPower p)])) := by
  have hdone {r' : Reader} {power : List Node} (h' : r'.frames = continued .complete frames ∧
      r'.level.PastTerm (nodes ++ [term power])) : r'.AtTerm frames (nodes ++ [term power]) :=
    ⟨by rw [h'.1, continued_continued], r'.level, by rw [h'.1, closeExponents_continued], h'.2⟩
  cases hunit : isUnitPower p with
  | true =>
    rw [powerText_of_isUnitPower hunit, rereadPower_of_isUnitPower hunit]
    exact .nil (hdone ⟨hframes, hterm.pastTerm⟩)
  | false =>
    rw [hunit, Bool.false_or, Bool.and_eq_true] at hlegible
    obtain ⟨hshape, hlegible⟩ := hlegible
    have hinner (node : Node) (hnode : node ∈ p) (hisTerm : node.isTerm = true) :=
      hinner node hnode hisTerm (Sequence.isLegible_iff.1 hlegible node hnode)
    cases IsWrittenPower.of_isRead hread hunit with
    | several first second rest =>
      have hcontent : Sequence.Rereads relations (first :: second :: rest) :=
        Sequence.rereads (fun node hnode hisTerm => (hinner node hnode hisTerm).1) hread
      rw [powerText_several, rereadPower_several]
      exact (hcontent.leads_bracketExponent (by simp) hframes hterm).mono fun r' h' =>
        hdone ⟨h'.1, h'.2.1⟩
    | lone hisTerm hparen =>
      rw [powerText_lone hisTerm hunit, rereadPower_lone hisTerm hparen hunit]
      exact Node.Rereads.leads_exponent (hinner _ (.head _) hisTerm).1 hparen hframes hterm
    | @parenthesis b hne q =>
      have hq : isUnitPower q = true := hshape
      have hcontent : Sequence.Rereads relations b := (hinner _ (.head _) rfl).2
      rw [powerText_parenthesis, rereadPower_parenthesis b hq, powerText_of_isUnitPower hq,
        List.append_nil]
      exact (hcontent.leads_bracketExponent hne hframes hterm).mono fun r' h' =>
        hdone ⟨h'.1, h'.2.1⟩
    | operator => cases hshape

/-! ## Reading everything -/

/-- The text of a legible term leads to the term that is read from it. -/
theorem Node.rereads {term : Node} (hread : term.IsRead nested) (hterm : term.isTerm = true)
    (hlegible : term.isLegible = true) :
    term.Rereads relations ∧ term.ContentRereads relations := by
  induction term using Node.nested_induction generalizing nested with
  | operator | relation => cases hterm
  | fraction => cases hread
  | group letter n p ih =>
    cases hread with
    | group hletter hn hp =>
      refine ⟨fun hready => ?_, trivial⟩
      cases hready with
      | adjacent hparen => cases hparen
      | gap h _ =>
        rw [Node.body_group]
        refine (h.leads_coefficient hletter hn).append fun r' h' => ?_
        exact leads_powerText hp hlegible (fun node hnode => ih node hnode (hp node hnode))
          h'.1 h'.2
  | paren b p negative ihb ihp =>
    rw [Node.isLegible, Bool.and_eq_true] at hlegible
    cases hread with
    | paren _ hne hb hp =>
      have hcontent : Sequence.Rereads relations b :=
        Sequence.rereads (fun node hnode hisTerm => (ihb node hnode (hb node hnode) hisTerm
          (Sequence.isLegible_iff.1 hlegible.1 node hnode)).1) hb
      refine ⟨fun hready => ?_, hcontent⟩
      rw [Node.body_paren]
      refine (hcontent.leads_paren hne hready).append fun r' h' => ?_
      exact leads_powerText hp hlegible.2 (fun node hnode => ihp node hnode (hp node hnode))
        h'.1 h'.2

theorem Sequence.rereads_of_isLegible {content : List Node}
    (hread : ∀ node ∈ content, node.IsRead true) (hlegible : Sequence.isLegible content = true) :
    Sequence.Rereads relations content :=
  Sequence.rereads (fun node hnode hterm => (Node.rereads (hread node hnode) hterm
    (Sequence.isLegible_iff.1 hlegible node hnode)).1) hread

theorem follows_start : Follows [] [] none Reader.start := .of_atGap rfl ⟨rfl, Level.gap_blank⟩

theorem Reader.finish_of_atRest (h : r.AtRest [] nodes) : r.finish = .ok nodes := by
  obtain ⟨level, hclose, hholds⟩ := h.closes
  rw [Reader.finish, hclose]
  exact hholds.finish

/-- The text of a legible sequence can be read, and what is read is known. -/
theorem Sequence.parse_text {content : List Node} (hread : ∀ node ∈ content, node.IsRead false)
    (hlegible : Sequence.isLegible content = true) :
    parse (Sequence.text content) = .ok (Sequence.reread content) := by
  have htidy := Sequence.isTidyText_text hread
  have hterms (node : Node) (hnode : node ∈ content) (hterm : node.isTerm = true) :
      node.Rereads true :=
    (Node.rereads (hread node hnode) hterm (Sequence.isLegible_iff.1 hlegible node hnode)).1
  obtain ⟨r, hr, hrest⟩ := Sequence.leads_textAfter (Sequence.written content (by simp))
    (by trivial) (fun _ => ⟨rfl, rfl⟩) hterms hread follows_start 0
  rw [parse, parseWith, htidy.oneCharRelations_eq, htidy.checkBrackets_eq]
  simp only [bind, Except.bind, Sequence.text, hr]
  exact Reader.finish_of_atRest hrest

end

end OneUnknown
