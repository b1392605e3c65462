import OneUnknown.Proofs.SpanReading
/-!
# Errors about brackets

The brackets of a text are checked before it is read.  If they are balanced, no other error of the
reader is about a bracket without a partner, so that error says exactly that they are not.

* `Impasse.IsUnmatched`, `Matched`: a computation that is not stopped by a bracket without a partner;
* `Reader.matched_readAtLevel` and `matched_scanSpan`: one character, and a span;
* `parseWith_brackets`: which bracket an error names, and how the text is read without one.
-/

namespace OneUnknown

/-- Reading ends because a bracket has no partner. -/
def Impasse.IsUnmatched : Impasse → Prop
  | .refused (.unmatchedBracket ..) => True
  | _ => False

/-- A computation that is not stopped by a bracket without a partner. -/
def Matched {α : Type} (x : Except Impasse α) : Prop :=
  ∀ reason, x = .error reason → ¬ reason.IsUnmatched

namespace Matched

variable {α β : Type} {x : Except Impasse α}

theorem ok (a : α) : Matched (.ok a) := fun _ h => by cases h

theorem error {reason : Impasse} (h : ¬ reason.IsUnmatched) :
    Matched (.error reason : Except Impasse α) := fun _ hreason => Except.error.inj hreason ▸ h

theorem bind {next : α → Except Impasse β} (h : Matched x)
    (hnext : ∀ a, x = .ok a → Matched (next a)) : Matched (x >>= next) := by
  cases x with
  | ok a => exact hnext a rfl
  | error reason => exact .error (h reason rfl)

theorem refusing_bind {x : Except ParseError α} {next : α → Except ParseError β}
    (h : Matched (refusing x)) (hnext : ∀ a, Matched (refusing (next a))) :
    Matched (refusing (x >>= next)) := by
  rw [OneUnknown.refusing_bind]
  exact h.bind fun a _ => hnext a

end Matched

/-! ## Levels -/

namespace Level

variable (level : Level) (place : Nat)

theorem matched_finishScientific : Matched (refusing level.finishScientific) := by
  unfold finishScientific
  split
  · exact .ok _
  · split
    · exact .ok _
    · exact .error id

theorem matched_finish : Matched (refusing level.finish) :=
  .refusing_bind level.matched_finishScientific fun _ => .ok _

theorem matched_readDigit (value : Nat) : Matched (refusing (level.readDigit place value)) := by
  unfold readDigit
  split
  · exact .error id
  · split <;> exact .ok _

theorem matched_readPoint : Matched (refusing (level.readPoint place)) := by
  unfold readPoint
  split
  · exact .error id
  · exact .ok _

theorem matched_readLetter (name : Char) : Matched (refusing (level.readLetter place name)) := by
  unfold readLetter
  split
  · dsimp only
    split <;> exact .ok _
  · exact .error id

theorem matched_readScientific : Matched (refusing (level.readScientific place)) := by
  unfold readScientific
  split
  · exact .ok _
  · exact .error id

theorem matched_raise (nodes : List Node) : Matched (refusing (level.raise place nodes)) := by
  unfold raise
  split
  · exact .error id
  · split
    · split
      · exact .ok _
      · exact .error id
    · split
      · exact .error id
      · split
        · exact .ok _
        · exact .ok _
        · exact .error id

theorem matched_enclose (nodes : List Node) (opening : Opening) :
    Matched (refusing (level.enclose nodes opening)) := by
  cases opening with
  | bracket =>
    rw [enclose]
    split
    · exact .error id
    · exact .ok _
  | bracketExponent caret => exact level.matched_raise caret nodes
  | exponent caret => exact level.matched_raise caret nodes

end Level

theorem ScientificDraft.matched_read? (s : ScientificDraft) (place : Nat) (cls : CharClass) :
    Matched (refusing (s.read? place cls)) := by
  cases cls with
  | operator op =>
    rw [read?]
    split
    · exact .ok _
    · split
      · exact .ok _
      · exact .error id
  | _ => exact .ok _

/-! ## Characters -/

namespace Reader

variable {relations : Bool} {place : Nat} {level : Level} {cls : CharClass}

theorem matched_readPlain (hcls : cls ≠ .closing) :
    Matched (refusing (readPlain relations place level [] cls)) := by
  cases cls with
  | closing => exact absurd rfl hcls
  | digit value => exact .refusing_bind (level.matched_readDigit place value) fun _ => .ok _
  | point => exact .refusing_bind (level.matched_readPoint place) fun _ => .ok _
  | letter name =>
    exact .refusing_bind (level.leaveFraction.matched_readLetter place name) fun _ => .ok _
  | scientific => exact .refusing_bind (level.matched_readScientific place) fun _ => .ok _
  | relation rel =>
    rw [readPlain]
    split
    · exact .ok _
    · exact .error id
  | exclamation => exact .error id
  | _ => exact .ok _

/-- Only a bracket that closes can be without a partner. -/
theorem matched_readAtLevel (hcls : cls ≠ .closing) :
    Matched (refusing (readAtLevel relations place level [] cls)) := by
  unfold readAtLevel
  split
  · exact matched_readPlain hcls
  · rename_i s _
    refine .refusing_bind (s.matched_read? place cls) fun next => ?_
    split
    · exact .ok _
    · exact .refusing_bind level.matched_finishScientific fun _ => matched_readPlain hcls

end Reader

/-! ## Spans -/

section

variable {pairs : List (Nat × Nat)} {text : List Char}

theorem matched_cut (place : Nat) (text : List Char) (taken dropped : Nat) :
    Matched (Portion.cut place text taken dropped) := by
  unfold Portion.cut
  split
  · exact .ok _
  · exact .error id

theorem matched_bracketPortion (pairs : List (Nat × Nat)) (place : Nat) (text : List Char) :
    Matched (bracketPortion pairs place text) := by
  unfold bracketPortion
  split
  · exact .error id
  · split
    · exact matched_cut _ _ _ _
    · exact .error id

theorem matched_exponentLength (pairs : List (Nat × Nat)) (place : Nat) (progress : Progress)
    (text : List Char) : Matched (exponentLength pairs place progress text) := by
  fun_induction exponentLength pairs place progress text with
  | case1 => exact .ok _
  | case2 => exact .ok _
  | case3 place _ c text _ _ _ ih =>
    exact .bind (matched_bracketPortion _ _ _) fun p _ => .bind (ih p) fun _ _ => .ok _
  | case4 place _ c text _ _ _ ih => exact .bind ih fun _ _ => .ok _

theorem matched_exponentPortion (pairs : List (Nat × Nat)) (caret place : Nat) (text : List Char) :
    Matched (exponentPortion pairs caret place text) := by
  fun_induction exponentPortion pairs caret place text with
  | case1 => exact .error id
  | case2 place c text _ ih => exact .bind ih fun _ _ => .ok _
  | case3 => exact .bind (matched_bracketPortion _ _ _) fun _ _ => .ok _
  | case4 => exact .bind (matched_exponentLength _ _ _ _) fun _ _ => matched_cut _ _ _ _

theorem Opening.matched_portion (opening : Opening) (place : Nat) :
    Matched (opening.portion pairs place text) := by
  cases opening with
  | bracket => exact matched_bracketPortion _ _ _
  | bracketExponent => exact matched_exponentPortion _ _ _ _
  | exponent => exact matched_exponentPortion _ _ _ _

/-- In a balanced span reading never comes to a bracket that closes: it belongs to a span inside. -/
theorem matched_scanSpan (pairs : List (Nat × Nat)) (relations : Bool) (place : Nat) (level : Level)
    (h : Balanced text) : Matched (scanSpan pairs relations place level text) := by
  fun_induction scanSpan pairs relations place level text with
  | case1 => exact .ok _
  | case2 relations place level c text ihnext ihspan ihrest =>
    have hclosing : CharClass.of c ≠ .closing := fun hclosing => by
      rcases bracket_cases c with ⟨closing, hpair⟩ | hcloses | hnone
      · rw [CharClass.of_eq_opening hpair] at hclosing
        cases hclosing
      · exact Balanced.not_cons_closing hcloses h
      · exact hnone.ne_closing hclosing
    refine .bind (Reader.matched_readAtLevel hclosing) fun r hr => ?_
    split
    · rename_i hframes
      have hopening : CharClass.of c ≠ .opening := by
        rcases Reader.readAtLevel_opens hclosing (refusing_eq_ok.1 hr) with
          ⟨-, _, _, rfl⟩ | ⟨-, _, rfl⟩ | ⟨hopening, -, -⟩
        · cases hframes
        · cases hframes
        · exact hopening
      exact ihnext r (h.of_cons (.of_ne hopening hclosing))
    · rename_i opening outer frames hframes
      exact .bind (opening.matched_portion place) fun p _ =>
        .bind (ihspan p p.span_balanced) fun inner _ =>
          .bind inner.matched_finish fun nodes _ =>
            .bind (outer.matched_enclose nodes opening) fun level _ =>
              ihrest p level p.rest_balanced

end

/-! ## Texts -/

theorem matched_parseBySpans (relations : Bool) {text : List Char} (h : Balanced text) :
    Matched (parseBySpans relations text) := by
  obtain ⟨pairs, hpairs⟩ := balanced_iff_bracketPairs.1 h
  rw [parseBySpans, hpairs]
  exact (matched_scanSpan pairs relations 0 Level.blank h).bind fun level _ => level.matched_finish

/-- The errors about brackets are those of the check. -/
theorem parseWith_eq_unmatched {relations : Bool} {text : List Char} {place : Nat}
    {closing : Bool} :
    parseWith relations text = .error (.unmatchedBracket place closing) ↔
      checkBrackets (oneCharRelations text) = .error (.unmatchedBracket place closing) := by
  have hrefused {reason : ParseError} (h : checkBrackets (oneCharRelations text) = .error reason) :
      parseWith relations text = .error reason := by
    rw [parseWith, h]
    rfl
  refine ⟨fun hparse => ?_, hrefused⟩
  by_cases hbalanced : Balanced (oneCharRelations text)
  · refine absurd trivial (matched_parseBySpans relations hbalanced
      (.refused (.unmatchedBracket place closing)) ?_)
    rw [parseBySpans_eq, hparse, refusing_error]
  · obtain ⟨place', closing', hcheck⟩ := exists_unmatched_of_not_balanced hbalanced
    have hsame := Except.error.inj ((hrefused hcheck).symm.trans hparse)
    rw [hcheck, hsame]

/-- Brackets are refused before anything else, and where they are refused they are not balanced.

An error about a bracket that closes is about the first one that does not close the innermost of
those that are open; an error about one that opens is about the leftmost one that is never closed,
every bracket that closes having a partner.  Where the brackets are balanced, their pairs are
recorded exactly, and the text is read by balanced spans, each of them inside of the one around it
and shorter than that: reading never gets stuck between them, at a partner that is not recorded or
lies outside. -/
theorem parseWith_brackets (relations : Bool) (text : List Char) :
    ((∃ place closing, parseWith relations text = .error (.unmatchedBracket place closing)) ↔
        ¬ Balanced (oneCharRelations text)) ∧
      (∀ place, parseWith relations text = .error (.unmatchedBracket place true) ↔
        ∃ before c after pending, oneCharRelations text = before ++ c :: after ∧
          before.length = place ∧ LeavesOpen before pending ∧ IsStray c pending) ∧
      (∀ place, parseWith relations text = .error (.unmatchedBracket place false) ↔
        ∃ pending closing, LeavesOpen (oneCharRelations text) pending ∧
          pending.getLast? = some (place, closing)) ∧
      (Balanced (oneCharRelations text) ↔
        ∃ pairs, bracketPairs (oneCharRelations text) = .ok pairs ∧
          ∀ opened closed, (opened, closed) ∈ pairs ↔
            IsPair (oneCharRelations text) opened closed) ∧
      parseBySpans relations (oneCharRelations text) = refusing (parseWith relations text) := by
  simp only [parseWith_eq_unmatched]
  refine ⟨⟨?_, exists_unmatched_of_not_balanced⟩, fun _ => checkBrackets_eq_closing,
    fun _ => checkBrackets_eq_opening, ?_, parseBySpans_eq relations text⟩
  · rintro ⟨place, closing, hcheck⟩ hbalanced
    rw [checkBrackets_eq_ok.2 hbalanced] at hcheck
    cases hcheck
  · rw [balanced_iff_bracketPairs]
    exact exists_congr fun pairs => ⟨fun h => ⟨h, fun _ _ => mem_bracketPairs h⟩, And.left⟩

end OneUnknown
