import OneUnknown.Proofs.Refusal
/-!
# Texts that stay the same

What is read from a text is written, read again and written again.  The second writing is never
longer than the first one, and this module says when it is the same.

* `Node.isStable`, `Sequence.isStableAfter`: what a node and a sequence have to be like;
* `Shrinks`: a text and what becomes of it, which is the text itself or a shorter one;
* `Sequence.shrinksAfter` and `shrinks_powerText`: the text of a sequence and of an exponent;
* `Sequence.shrinks_reread`: the text of a legible sequence stays the same if it is stable;
* `parse_text_stable_iff`: so does the text of what has been read, and otherwise it is refused or
  becomes shorter (`length_text_lt_of_parse`).
-/

namespace OneUnknown

/-! ## What keeps a text -/

/-- Whether the text of an exponent, if there is one, keeps its shape.  An operator alone is no
exponent, brackets are only written around several nodes, and a number one is not written. -/
def isStablePower : List Node → Bool
  | [.operator _] => false
  | [.paren b p false] => isUnitPower p && 1 < b.length
  | [.group none n p] => !(n.value = 1 && isUnitPower p)
  | _ => true

mutual
/-- Whether every exponent in a node keeps its text, and every `+` in it. -/
def Node.isStable : Node → Bool
  | .group _ _ p => isUnitPower p || isStablePower p && Sequence.isStableAfter none p
  | .paren b p _ => Sequence.isStableAfter none b &&
      (isUnitPower p || isStablePower p && Sequence.isStableAfter none p)
  | .fraction .. => false
  | .operator _ | .relation _ => true

/-- Whether a sequence that stands after `previous` keeps its text.  A hidden `+` has to stand
behind a term, as it is read nowhere else. -/
def Sequence.isStableAfter (previous : Option Node) : List Node → Bool
  | [] => true
  | n :: ns =>
    (match n with
      | .operator op => !hidesPlus op ns || previous.any Node.isTerm
      | term => term.isStable) && Sequence.isStableAfter (some n) ns
end

/-- Whether a sequence keeps its text. -/
def Sequence.isStable (nodes : List Node) : Bool := Sequence.isStableAfter none nodes

/-! ## Texts that become shorter -/

/-- A text that stays the same under a condition and becomes shorter otherwise. -/
structure Shrinks (before after : List Char) (same : Prop) : Prop where
  kept : same → after = before
  shorter : ¬ same → after.length < before.length

namespace Shrinks

variable {before after before' after' : List Char} {same same' : Prop}

theorem eq_iff (h : Shrinks before after same) : after = before ↔ same := by
  refine ⟨fun heq => ?_, h.kept⟩
  by_contra hsame
  exact (h.shorter hsame).ne (congrArg List.length heq)

theorem length_le (h : Shrinks before after same) : after.length ≤ before.length := by
  by_cases hsame : same
  · exact (congrArg List.length (h.kept hsame)).le
  · exact (h.shorter hsame).le

protected theorem rfl {text : List Char} : Shrinks text text True :=
  ⟨fun _ => rfl, fun hfalse => absurd trivial hfalse⟩

/-- A text is kept if its parts are, as none of them becomes longer. -/
theorem append (h : Shrinks before after same) (h' : Shrinks before' after' same') :
    Shrinks (before ++ before') (after ++ after') (same ∧ same') where
  kept hsame := by rw [h.kept hsame.1, h'.kept hsame.2]
  shorter hsame := by
    rw [List.length_append, List.length_append]
    by_cases hfirst : same
    · exact Nat.add_lt_add_of_le_of_lt h.length_le
        (h'.shorter fun hsecond => hsame ⟨hfirst, hsecond⟩)
    · exact Nat.add_lt_add_of_lt_of_le (h.shorter hfirst) h'.length_le

theorem prepend (text : List Char) (h : Shrinks before after same) :
    Shrinks (text ++ before) (text ++ after) same := by
  simpa using Shrinks.rfl.append h

/-- A text that becomes shorter is not kept. -/
theorem of_lt (h : after.length < before.length) (hsame : ¬ same) : Shrinks before after same :=
  ⟨fun hkept => absurd hkept hsame, fun _ => h⟩

theorem congr (h : Shrinks before after same) (hsame : same ↔ same') : Shrinks before after same' :=
  ⟨fun hkept => h.kept (hsame.2 hkept), fun hlost => h.shorter fun hkept => hlost (hsame.1 hkept)⟩

end Shrinks

/-! ## Sequences -/

/-- Nodes after which the same separators are written. -/
structure Alike (previous previous' : Option Node) : Prop where
  isTerm : previous'.any Node.isTerm = previous.any Node.isTerm
  isAdd : previous' = some (.operator .add) → previous = some (.operator .add)

theorem Alike.refl (previous : Option Node) : Alike previous previous := ⟨rfl, id⟩

theorem Alike.reread {term : Node} (h : term.isTerm = true) :
    Alike (some term) (some term.reread) where
  isTerm := by simp
  isAdd := fun heq => by
    have hterm : term.reread.isTerm = true := by rw [Node.isTerm_reread, h]
    rw [Option.some.inj heq] at hterm
    cases hterm

/-- Whether a sequence begins with a hidden plus. -/
def startsHidden : List Node → Bool
  | .operator op :: rest => hidesPlus op rest
  | _ => false

namespace Sequence

/-- What is read behind a plus begins with a minus sign only if the plus in front of that is
gone. -/
theorem hidesPlus_rereadAfter {op : Operator} {rest : List Node}
    (hhides : hidesPlus op rest = false) :
    hidesPlus op (rereadAfter (some (.operator op)) rest) =
      (decide (op = .add) && startsHidden rest) := by
  by_cases hop : op = .add
  · subst hop
    cases rest with
    | nil => rfl
    | cons node rest =>
      cases node with
      | relation r => rfl
      | operator op' =>
        cases hhides' : hidesPlus op' rest with
        | false =>
          rw [rereadAfter_operator _ hhides', startsHidden, hhides']
          rfl
        | true =>
          obtain ⟨rfl, next, rest, rfl, hnegative⟩ := exists_of_hidesPlus hhides'
          rw [rereadAfter_hidden _ hnegative, startsHidden, hhides']
          simpa [hidesPlus] using hnegative
      | group | paren | fraction =>
        rw [rereadAfter_term _ rfl]
        simpa [hidesPlus, needsPlus, startsHidden, Node.isTerm] using hhides
  · simp [hidesPlus, hop]

theorem textAfter_of_hidesPlus (previous : Option Node) {op : Operator} {rest : List Node}
    (h : hidesPlus op rest = true) :
    textAfter previous (.operator op :: rest) = textAfter (some (.operator op)) rest := by
  rw [textAfter, if_pos (by simpa [hidesPlus] using h), List.nil_append]

theorem isStableAfter_term (previous : Option Node) {term : Node} (h : term.isTerm = true)
    (rest : List Node) : isStableAfter previous (term :: rest) =
      (term.isStable && isStableAfter (some term) rest) := by
  cases term with
  | operator | relation => cases h
  | group | paren | fraction => rfl

theorem isStableAfter_of_startsHidden {op : Operator} {rest : List Node}
    (h : startsHidden rest = true) : isStableAfter (some (.operator op)) rest = false := by
  unfold startsHidden at h
  split at h
  · simp [isStableAfter, h, Node.isTerm]
  · cases h

/-- What becomes of the text of a sequence that is read behind `previous'`.  A plus in front of the
sequence counts when a hidden one follows: then both can be lost. -/
def ShrinksAfter (previous previous' : Option Node) (content : List Node) : Prop :=
  Shrinks (textAfter previous content) (textAfter previous' (rereadAfter previous content))
      (isStableAfter previous content = true) ∨
    (previous = some (.operator .add) ∧ startsHidden content = true) ∧
      (textAfter previous' (rereadAfter previous content)).length ≤
        (textAfter previous content).length

section

variable {previous previous' : Option Node} {content rest : List Node} {term : Node}

theorem ShrinksAfter.length_le (h : ShrinksAfter previous previous' content) :
    (textAfter previous' (rereadAfter previous content)).length ≤
      (textAfter previous content).length :=
  h.elim Shrinks.length_le And.right

theorem ShrinksAfter.shrinks (h : ShrinksAfter previous previous' content)
    (hcontent : previous = some (.operator .add) → startsHidden content = false) :
    Shrinks (textAfter previous content) (textAfter previous' (rereadAfter previous content))
      (isStableAfter previous content = true) := by
  rcases h with h | ⟨⟨hprevious, hhidden⟩, -⟩
  · exact h
  · rw [hcontent hprevious] at hhidden
    cases hhidden

/-- A term together with what stands behind it. -/
theorem ShrinksAfter.behind_term (hterm : term.isTerm = true)
    (hbody : Shrinks term.body term.reread.body (term.isStable = true))
    (h : ShrinksAfter (some term) (some term.reread) rest) :
    Shrinks (term.body ++ textAfter (some term) rest)
      (term.reread.body ++ textAfter (some term.reread) (rereadAfter (some term) rest))
      (term.isStable = true ∧ isStableAfter (some term) rest = true) := by
  refine hbody.append (h.shrinks fun heq => ?_)
  rw [Option.some.inj heq] at hterm
  cases hterm

/-- The separator in front of a term is that of what is read, which begins with a plus, if one has
to be put in. -/
theorem ShrinksAfter.of_term (hterm : term.isTerm = true)
    (halike : Alike previous previous')
    (hprevious : term.isNegative = true → previous ≠ some (.operator .add))
    (h : Shrinks (term.body ++ textAfter (some term) rest)
      (term.reread.body ++ textAfter (some term.reread) (rereadAfter (some term) rest))
      (term.isStable = true ∧ isStableAfter (some term) rest = true)) :
    ShrinksAfter previous previous' (term :: rest) := by
  have hterm' : term.reread.isTerm = true := by rw [Node.isTerm_reread, hterm]
  have hstable : isStableAfter previous (term :: rest) = true ↔
      term.isStable = true ∧ isStableAfter (some term) rest = true := by
    rw [isStableAfter_term _ hterm, Bool.and_eq_true]
  refine .inl (Shrinks.congr ?_ hstable.symm)
  rw [textAfter_term previous hterm, rereadAfter_term previous hterm]
  cases hplus : needsPlus previous term with
  | true =>
    simp only [needsPlus, Bool.and_eq_true, Bool.not_eq_true'] at hplus
    obtain ⟨⟨hany, hnegative⟩, hparen⟩ := hplus
    have hseparator : separator previous term = [' ', '+', ' '] := by
      simp [separator, hany, hnegative, hparen]
    have hnone : separator (some (.operator .add)) term.reread = [] := by
      simp [separator, hnegative, Node.isTerm]
    rw [if_pos rfl, List.singleton_append,
      textAfter_operator previous' (by simp [hidesPlus, hnegative]), textAfter_term _ hterm',
      hseparator, hnone, List.nil_append]
    exact h.prepend _
  | false =>
    have hseparator : separator previous' term.reread = separator previous term := by
      rw [separator, separator, Node.isNegative_reread, Node.isParen_reread, halike.isTerm]
      cases hnegative : term.isNegative with
      | false => rfl
      | true =>
        have hne := hprevious hnegative
        have hne' : previous' ≠ some (.operator .add) := fun heq => hne (halike.isAdd heq)
        simp [hne, hne']
    rw [if_neg (by simp), List.nil_append, textAfter_term _ hterm', hseparator]
    exact h.prepend _

/-- Behind a term the sign of the next one is written as before.  Elsewhere the blanks around it are
lost, or, behind another plus, that plus is. -/
theorem ShrinksAfter.of_hidden (hnegative : term.isNegative = true)
    (halike : Alike previous previous')
    (h : Shrinks (term.body ++ textAfter (some term) rest)
      (term.reread.body ++ textAfter (some term.reread) (rereadAfter (some term) rest))
      (term.isStable = true ∧ isStableAfter (some term) rest = true)) :
    ShrinksAfter previous previous' (.operator .add :: term :: rest) := by
  have hterm := Node.isTerm_of_isNegative hnegative
  have hhides : hidesPlus .add (term :: rest) = true := by simp [hidesPlus, hnegative]
  rw [ShrinksAfter, textAfter_hidden previous hnegative, rereadAfter_hidden previous hnegative,
    textAfter_term previous' (by rw [Node.isTerm_reread, hterm])]
  by_cases hprevious : previous = some (.operator .add)
  · refine .inr ⟨⟨hprevious, hhides⟩, ?_⟩
    have hlength : (separator previous' term.reread).length ≤ 3 := by
      rw [separator, Node.isNegative_reread, if_pos hnegative]
      split <;> simp
    have hle := h.length_le
    simp only [List.length_append, List.length_cons, List.length_nil] at hle ⊢
    omega
  · have hprevious' : previous' ≠ some (.operator .add) := fun heq => hprevious (halike.isAdd heq)
    have hseparator : Shrinks [' ', '-', ' '] (separator previous' term.reread)
        (previous.any Node.isTerm = true) := by
      rw [separator, Node.isNegative_reread, if_pos hnegative, ← halike.isTerm]
      cases previous'.any Node.isTerm with
      | true => exact Shrinks.rfl.congr (by simp)
      | false => exact .of_lt (by simp [hprevious']) (by simp)
    refine .inl ((hseparator.append h).congr ?_)
    rw [isStableAfter, hhides, isStableAfter_term _ hterm]
    simp

theorem ShrinksAfter.of_operator {op : Operator} (hhides : hidesPlus op rest = false)
    (h : ShrinksAfter (some (.operator op)) (some (.operator op)) rest) :
    ShrinksAfter previous previous' (.operator op :: rest) := by
  have hstable : isStableAfter previous (.operator op :: rest) =
      isStableAfter (some (.operator op)) rest := by
    rw [isStableAfter, hhides]
    rfl
  have hhead := hidesPlus_rereadAfter hhides
  rw [ShrinksAfter, textAfter_operator previous hhides, rereadAfter_operator previous hhides,
    hstable]
  refine .inl ?_
  cases hhidden : decide (op = .add) && startsHidden rest with
  | false =>
    rw [textAfter_operator previous' (hhead.trans hhidden)]
    refine (h.shrinks fun heq => ?_).prepend _
    cases heq
    exact hhidden
  | true =>
    -- The plus is hidden now, because the one behind it is gone.
    rw [textAfter_of_hidesPlus previous' (hhead.trans hhidden),
      isStableAfter_of_startsHidden (Bool.and_eq_true _ _ ▸ hhidden).2]
    refine .of_lt ?_ (by simp)
    have hle := h.length_le
    simp only [List.length_append, List.length_cons, List.length_nil]
    omega

/-- The text of a sequence does not become longer if those of its terms do not. -/
theorem shrinksAfter (hwritten : Written previous content) (halike : Alike previous previous')
    (hterms : ∀ node ∈ content, node.isTerm = true →
      Shrinks node.body node.reread.body (node.isStable = true)) :
    ShrinksAfter previous previous' content := by
  induction hwritten generalizing previous' with
  | nil => exact .inl (Shrinks.rfl.congr (by simp [isStableAfter]))
  | @hidden previous term rest hnegative hrest ih =>
    rw [List.forall_mem_cons, List.forall_mem_cons] at hterms
    have hterm := Node.isTerm_of_isNegative hnegative
    have hrest := ih (.reread hterm) hterms.2.2
    exact .of_hidden hnegative halike (hrest.behind_term hterm (hterms.2.1 hterm))
  | operator previous hhides hrest ih =>
    rw [List.forall_mem_cons] at hterms
    exact .of_operator hhides (ih (.refl _) hterms.2)
  | relation previous r hrest ih =>
    rw [List.forall_mem_cons] at hterms
    have hrest := (ih (.refl _) hterms.2).shrinks fun heq => by cases heq
    exact .inl (hrest.prepend [' ', r.symbol, ' '])
  | term hterm hprevious hrest ih =>
    rw [List.forall_mem_cons] at hterms
    have hrest := ih (.reread hterm) hterms.2
    exact .of_term hterm halike hprevious (hrest.behind_term hterm (hterms.1 hterm))

end

end Sequence

/-! ## Numbers -/

theorem Number.magnitude_reread (n : Number) : n.reread.magnitude = n.magnitude := by
  calc n.reread.magnitude = (Number.ofRat n.magnitude).magnitude := rfl
    _ = |n.magnitude| := by rw [Number.magnitude_ofRat, Rational.magnitude_eq_abs]
    _ = n.magnitude := abs_of_nonneg n.magnitude_nonneg

theorem Number.value_reread (n : Number) : n.reread.value = n.value := by
  unfold Number.value
  rw [n.magnitude_reread]
  rfl

theorem coefficientText_reread (v : Option Char) (n : Number) :
    coefficientText v n.reread = coefficientText v n := by
  unfold coefficientText
  rw [n.magnitude_reread]

/-! ## Exponents -/

namespace Sequence

theorem length_reread_singleton (node : Node) : (reread [node]).length = 1 := by
  cases node with
  | operator op => rw [reread, rereadAfter_operator none (by simp [hidesPlus])]; rfl
  | relation r => rfl
  | group | paren | fraction => rw [reread_singleton rfl]; rfl

/-- Several nodes stay several nodes, unless there is a plus in front of them that is hidden. -/
theorem one_lt_length_reread {nodes : List Node} (h : 1 < nodes.length)
    (hstable : isStable nodes = true) : 1 < (reread nodes).length := by
  rcases nodes with _ | ⟨first, _ | ⟨second, rest⟩⟩
  · cases h
  · simp at h
  · have hrest (previous : Option Node) : 0 < (rereadAfter previous (second :: rest)).length :=
      List.length_pos_iff.2 fun hnil => by cases rereadAfter_eq_nil hnil
    cases first with
    | operator op =>
      have hhides : hidesPlus op (second :: rest) = false := by
        rw [isStable, isStableAfter, Bool.and_eq_true] at hstable
        simpa using hstable.1
      rw [reread, rereadAfter_operator none hhides]
      exact Nat.succ_lt_succ (hrest _)
    | relation r => exact Nat.succ_lt_succ (hrest _)
    | group | paren | fraction =>
      rw [reread, rereadAfter_term none rfl]
      exact Nat.succ_lt_succ (hrest _)

theorem shrinks_text {content : List Node}
    (hterms : ∀ node ∈ content, node.isTerm = true →
      Shrinks node.body node.reread.body (node.isStable = true)) :
    Shrinks (text content) (text (reread content)) (isStable content = true) := by
  have h := shrinksAfter (written content (by simp)) (.refl none) hterms
  exact h.shrinks fun hfalse => by cases hfalse

end Sequence

theorem length_le_one_of_isUnitPower {p : List Node} (h : isUnitPower p = true) : p.length ≤ 1 := by
  unfold isUnitPower at h
  split at h
  · exact Nat.zero_le 1
  · exact Nat.le_refl 1
  · cases h

namespace Shrinks

variable {before after : List Char} {same : Prop}

theorem parenthesized (h : Shrinks before after same) :
    Shrinks (parenthesized before) (parenthesized after) same :=
  ((h.append (Shrinks.rfl : Shrinks [')'] [')'] True)).prepend ['(']).congr (by simp)

theorem of_parenthesized
    (h : Shrinks (OneUnknown.parenthesized before) (OneUnknown.parenthesized after) same) :
    Shrinks before after same where
  kept hsame := by simpa [OneUnknown.parenthesized] using h.kept hsame
  shorter hsame := by simpa [OneUnknown.parenthesized] using h.shorter hsame

end Shrinks

/-- The brackets around an exponent are written again if there are several nodes in them. -/
theorem Sequence.shrinks_bracketExponent {content : List Node} (hne : content ≠ [])
    (h : Shrinks (text content) (text (reread content)) (isStable content = true)) :
    Shrinks ('^' :: parenthesized (text content)) (powerText (reread content))
      (1 < content.length ∧ isStable content = true) := by
  have hlone (hlength : (reread content).length ≤ 1) :
      ¬ (1 < content.length ∧ isStable content = true) := fun hsame =>
    Nat.not_lt.2 hlength (one_lt_length_reread hsame.1 hsame.2)
  rw [powerText]
  split
  · rename_i hunit
    exact .of_lt (Nat.succ_pos _) (hlone (length_le_one_of_isUnitPower hunit))
  · split
    · rename_i hlength
      refine .of_lt ?_ (hlone hlength.le)
      have hle := h.length_le
      simp only [parenthesized, List.length_cons, List.length_append, List.length_nil]
      omega
    · rename_i hlength
      have hmany : 1 < content.length := by
        rcases content with _ | ⟨node, _ | ⟨second, rest⟩⟩
        · exact absurd rfl hne
        · exact absurd (length_reread_singleton node) hlength
        · simp
      exact (h.parenthesized.prepend ['^']).congr (by simp [hmany])

/-- An exponent does not disappear. -/
theorem rereadPower_eq_nil_iff {p : List Node} (hread : ∀ node ∈ p, node.IsRead true) :
    rereadPower p = [] ↔ isUnitPower p = true := by
  refine ⟨fun h => ?_, rereadPower_of_isUnitPower⟩
  cases hunit : isUnitPower p with
  | true => rfl
  | false =>
    exfalso
    cases IsWrittenPower.of_isRead hread hunit with
    | lone hterm hparen =>
      rw [rereadPower_lone hterm hparen hunit] at h
      cases h
    | @parenthesis b hne q =>
      rw [rereadPower, hunit, if_neg (by simp), Sequence.reread_singleton rfl,
        Node.reread_paren] at h
      unfold spliced at h
      split at h
      · rename_i heq
        injection (List.singleton_inj.1 heq) with hb
        exact hne (Sequence.rereadAfter_eq_nil (hb.trans h))
      · cases h
    | operator =>
      rw [rereadPower_operator] at h
      cases Sequence.rereadAfter_eq_nil h
    | several first second rest =>
      rw [rereadPower_several] at h
      cases Sequence.rereadAfter_eq_nil h

/-- A lone term keeps the shape of the exponent unless it is a one, now. -/
theorem isStablePower_lone {term : Node} (hread : term.IsRead true) (hterm : term.isTerm = true)
    (hparen : term.isParen = true → term.isNegative = true) :
    isStablePower [term] = !isUnitPower [term.reread] := by
  cases hread with
  | operator => cases hterm
  | paren negative =>
    cases negative with
    | true => rfl
    | false => cases hparen rfl
  | @group _ v n q _ _ hq =>
    have hnil := rereadPower_eq_nil_iff hq
    rw [Node.reread_group, Bool.eq_iff_iff]
    cases v with
    | some name => simp [isStablePower, isUnitPower]
    | none =>
      rw [isStablePower]
      generalize rereadPower q = power at hnil
      generalize isUnitPower q = unit at hnil
      cases power with
      | nil => simp [isUnitPower, n.value_reread, hnil.1 rfl]
      | cons =>
        have hunit : unit = false := by simpa using hnil
        simp [isUnitPower, hunit]

/-- An exponent that is a lone term is written again unless it is a one, now. -/
theorem shrinks_loneExponent {exponent : Node} (hterm : exponent.isTerm = true)
    (hunit : isUnitPower [exponent] = false)
    (h : Shrinks exponent.body exponent.reread.body (exponent.isStable = true)) :
    Shrinks (powerText [exponent]) (powerText [exponent.reread])
      (isUnitPower [exponent.reread] = false ∧ exponent.isStable = true) := by
  rw [powerText_lone hterm hunit]
  cases hunit' : isUnitPower [exponent.reread] with
  | true =>
    rw [powerText_of_isUnitPower hunit']
    exact .of_lt (Nat.succ_pos _) (by simp)
  | false =>
    have hseparator : separator none exponent.reread = separator none exponent := by
      simp [separator]
    rw [powerText_lone (by rw [Node.isTerm_reread, hterm]) hunit', hseparator]
    exact ((h.prepend (separator none exponent)).prepend ['^']).congr (by simp)

theorem shrinks_powerText {p : List Node} (hread : ∀ node ∈ p, node.IsRead true)
    (hlegible : (isUnitPower p || isLegiblePower p && Sequence.isLegible p) = true)
    (hterms : ∀ node ∈ p, node.isTerm = true → node.isLegible = true →
      Shrinks node.body node.reread.body (node.isStable = true)) :
    Shrinks (powerText p) (powerText (rereadPower p))
      ((isUnitPower p || isStablePower p && Sequence.isStableAfter none p) = true) := by
  cases hunit : isUnitPower p with
  | true =>
    rw [powerText_of_isUnitPower hunit, rereadPower_of_isUnitPower hunit]
    exact Shrinks.rfl.congr (by simp)
  | false =>
    rw [hunit, Bool.false_or, Bool.and_eq_true] at hlegible
    obtain ⟨hshape, hlegible⟩ := hlegible
    have hterms (node : Node) (hnode : node ∈ p) (hterm : node.isTerm = true) :=
      hterms node hnode hterm (Sequence.isLegible_iff.1 hlegible node hnode)
    rw [Bool.false_or, Bool.and_eq_true]
    cases IsWrittenPower.of_isRead hread hunit with
    | several first second rest =>
      have hshape : isStablePower (first :: second :: rest) = true := by simp [isStablePower]
      rw [powerText_several, rereadPower_several]
      refine (Sequence.shrinks_bracketExponent (by simp) (Sequence.shrinks_text hterms)).congr ?_
      simp [hshape, Sequence.isStable]
    | lone hterm hparen =>
      rw [rereadPower_lone hterm hparen hunit, isStablePower_lone (hread _ (.head _)) hterm hparen,
        Sequence.isStableAfter_term none hterm]
      refine (shrinks_loneExponent hterm hunit (hterms _ (.head _) hterm)).congr ?_
      simp [Sequence.isStableAfter]
    | @parenthesis b hne q =>
      have hq : isUnitPower q = true := hshape
      have hcontent : Shrinks (Sequence.text b) (Sequence.text (Sequence.reread b))
          (Sequence.isStable b = true) := by
        have hbody := hterms _ (.head _) rfl
        rw [Node.body_paren, Node.reread_paren, Node.body_paren, rereadPower_of_isUnitPower hq,
          powerText_of_isUnitPower hq, powerText_of_isUnitPower (p := []) rfl, List.append_nil,
          List.append_nil] at hbody
        exact hbody.of_parenthesized.congr (by simp [Node.isStable, hq, Sequence.isStable])
      rw [powerText_parenthesis, rereadPower_parenthesis b hq, powerText_of_isUnitPower hq,
        List.append_nil]
      refine (Sequence.shrinks_bracketExponent hne hcontent).congr ?_
      simp [isStablePower, hq, Sequence.isStable, Sequence.isStableAfter, Node.isStable]
    | operator => cases hshape

/-! ## Nodes -/

/-- The text of a term does not become longer. -/
theorem Node.shrinks_body {term : Node} {nested : Bool} (hread : term.IsRead nested)
    (hterm : term.isTerm = true) (hlegible : term.isLegible = true) :
    Shrinks term.body term.reread.body (term.isStable = true) := by
  induction term using Node.nested_induction generalizing nested with
  | operator | relation => cases hterm
  | fraction => cases hread
  | group letter n p ih =>
    cases hread with
    | group _ _ hp =>
      rw [Node.reread_group, Node.body_group, Node.body_group, coefficientText_reread]
      have hpower := shrinks_powerText hp hlegible fun node hnode => ih node hnode (hp node hnode)
      exact hpower.prepend _
  | paren b p negative ihb ihp =>
    rw [Node.isLegible, Bool.and_eq_true] at hlegible
    cases hread with
    | paren _ _ hb hp =>
      have hcontent := Sequence.shrinks_text fun node hnode hisTerm =>
        ihb node hnode (hb node hnode) hisTerm (Sequence.isLegible_iff.1 hlegible.1 node hnode)
      have hpower := shrinks_powerText hp hlegible.2 fun node hnode =>
        ihp node hnode (hp node hnode)
      rw [Node.reread_paren, Node.body_paren, Node.body_paren, Node.isStable, Bool.and_eq_true]
      exact hcontent.parenthesized.append hpower

/-- The text of what is read from a legible sequence is the same text if the sequence is stable, and
a shorter one otherwise. -/
theorem Sequence.shrinks_reread {nodes : List Node} {nested : Bool}
    (hread : ∀ node ∈ nodes, node.IsRead nested) (hlegible : Sequence.isLegible nodes = true) :
    Shrinks (Sequence.text nodes) (Sequence.text (Sequence.reread nodes))
      (Sequence.isStable nodes = true) :=
  Sequence.shrinks_text fun node hnode hterm => Node.shrinks_body (hread node hnode) hterm
    (Sequence.isLegible_iff.1 hlegible node hnode)

theorem isLegiblePower_of_isStablePower {p : List Node} (h : isStablePower p = true) :
    isLegiblePower p = true := by
  unfold isStablePower at h
  split at h
  · cases h
  · rw [Bool.and_eq_true] at h
    exact h.1
  · rfl
  · unfold isLegiblePower
    split <;> simp_all

theorem Sequence.isLegible_of_isStableAfter {previous : Option Node} {nodes : List Node}
    (hnodes : ∀ node ∈ nodes, node.isStable = true → node.isLegible = true)
    (h : Sequence.isStableAfter previous nodes = true) : Sequence.isLegible nodes = true := by
  induction nodes generalizing previous with
  | nil => rfl
  | cons node rest ih =>
    have ih {previous : Option Node} (h : Sequence.isStableAfter previous rest = true) :=
      ih (fun other hother => hnodes other (.tail _ hother)) h
    cases node with
    | operator | relation =>
      simp only [Sequence.isStableAfter, Bool.and_eq_true] at h
      exact ih h.2
    | group | paren | fraction =>
      rw [Sequence.isStableAfter_term previous rfl, Bool.and_eq_true] at h
      rw [Sequence.isLegible, Bool.and_eq_true]
      exact ⟨hnodes _ (.head _) h.1, ih h.2⟩

/-- What keeps its text can be read from it. -/
theorem Node.isLegible_of_isStable {node : Node} (h : node.isStable = true) :
    node.isLegible = true := by
  have hpower {p : List Node} (ih : ∀ node ∈ p, node.isStable = true → node.isLegible = true)
      (h : (isUnitPower p || isStablePower p && Sequence.isStableAfter none p) = true) :
      (isUnitPower p || isLegiblePower p && Sequence.isLegible p) = true := by
    rw [Bool.or_eq_true, Bool.and_eq_true] at h ⊢
    exact h.imp_right fun h =>
      ⟨isLegiblePower_of_isStablePower h.1, Sequence.isLegible_of_isStableAfter ih h.2⟩
  induction node using Node.nested_induction with
  | operator | relation => rfl
  | fraction => cases h
  | group letter n p ih => exact hpower (fun node hnode => ih node hnode) h
  | paren b p negative ihb ihp =>
    rw [Node.isStable, Bool.and_eq_true] at h
    rw [Node.isLegible, Bool.and_eq_true]
    exact ⟨Sequence.isLegible_of_isStableAfter (fun node hnode => ihb node hnode) h.1,
      hpower (fun node hnode => ihp node hnode) h.2⟩

/-! ## Reading, writing and reading again -/

/-- The text of what has been read is read again, and written as the same text, if and only if
nothing in it is lost. -/
theorem parse_text_stable_iff {text : List Char} {nodes : List Node} (h : parse text = .ok nodes) :
    (∃ second, parse (Sequence.text nodes) = .ok second ∧
      Sequence.text second = Sequence.text nodes) ↔ Sequence.isStable nodes = true := by
  have hread := isRead_of_parse h
  constructor
  · rintro ⟨second, hsecond, htext⟩
    obtain ⟨hlegible, rfl⟩ := (Sequence.parse_text_eq_ok_iff hread).1 hsecond
    exact (Sequence.shrinks_reread hread hlegible).eq_iff.1 htext
  · intro hstable
    have hlegible : Sequence.isLegible nodes = true :=
      Sequence.isLegible_of_isStableAfter (fun node _ => Node.isLegible_of_isStable) hstable
    exact ⟨_, Sequence.parse_text hread hlegible,
      (Sequence.shrinks_reread hread hlegible).kept hstable⟩

/-- The text `2x^-3 - (x)^(1 + x)` is kept. -/
theorem parse_text_stable_iff_two_powers :
    parse ['2', 'x', '^', '-', '3', '-', '(', 'x', ')', '^', '(', '1', '+', 'x', ')'] =
      .ok [.group (some 'x') (Number.ofNat 2) [.group none ((Number.ofNat 3).withSign true) []],
        .paren [.group (some 'x') (Number.ofNat 1) []]
          [.group none (Number.ofNat 1) [], .operator .add,
            .group (some 'x') (Number.ofNat 1) []] true] ∧
    ∃ second, parse (Sequence.text
        [.group (some 'x') (Number.ofNat 2) [.group none ((Number.ofNat 3).withSign true) []],
          .paren [.group (some 'x') (Number.ofNat 1) []]
            [.group none (Number.ofNat 1) [], .operator .add,
              .group (some 'x') (Number.ofNat 1) []] true]) = .ok second ∧
      Sequence.text second = Sequence.text
        [.group (some 'x') (Number.ofNat 2) [.group none ((Number.ofNat 3).withSign true) []],
          .paren [.group (some 'x') (Number.ofNat 1) []]
            [.group none (Number.ofNat 1) [], .operator .add,
              .group (some 'x') (Number.ofNat 1) []] true] := by
  have hparse : parse ['2', 'x', '^', '-', '3', '-', '(', 'x', ')', '^', '(', '1', '+', 'x', ')'] =
      .ok [.group (some 'x') (Number.ofNat 2) [.group none ((Number.ofNat 3).withSign true) []],
        .paren [.group (some 'x') (Number.ofNat 1) []]
          [.group none (Number.ofNat 1) [], .operator .add,
            .group (some 'x') (Number.ofNat 1) []] true] := by
    decide +kernel
  exact ⟨hparse, (parse_text_stable_iff hparse).2 (by decide +kernel)⟩

/-- The text `x^((2)^3)` is written as `x^(2)^3`: the parenthesis in the brackets of the exponent
loses them, and its own exponent is refused. -/
theorem parse_text_refused_exponent :
    ¬ ∀ text nodes, parse text = .ok nodes → ∃ second, parse (Sequence.text nodes) = .ok second ∧
      Sequence.text second = Sequence.text nodes := by
  intro h
  obtain ⟨second, hsecond, -⟩ := h ['x', '^', '(', '(', '2', ')', '^', '3', ')']
    [.group (some 'x') (Number.ofNat 1)
      [.paren [.group none (Number.ofNat 2) []] [.group none (Number.ofNat 3) []] false]]
    (by decide +kernel)
  have hrefused : parse (Sequence.text [.group (some 'x') (Number.ofNat 1)
      [.paren [.group none (Number.ofNat 2) []] [.group none (Number.ofNat 3) []] false]]) =
        .error (.danglingExponent 5) := by
    decide +kernel
  rw [hrefused] at hsecond
  cases hsecond

/-- A text that is read again, but not kept, becomes shorter. -/
theorem length_text_lt_of_parse {text : List Char} {nodes second : List Node}
    (h : parse text = .ok nodes) (hsecond : parse (Sequence.text nodes) = .ok second)
    (hne : Sequence.text second ≠ Sequence.text nodes) :
    (Sequence.text second).length < (Sequence.text nodes).length := by
  have hread := isRead_of_parse h
  obtain ⟨hlegible, rfl⟩ := (Sequence.parse_text_eq_ok_iff hread).1 hsecond
  have hshrinks := Sequence.shrinks_reread hread hlegible
  exact hshrinks.shorter fun hstable => hne (hshrinks.kept hstable)

end OneUnknown
