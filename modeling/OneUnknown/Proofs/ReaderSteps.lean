import OneUnknown.Proofs.Outcome
import OneUnknown.Text.Reader
/-!
# What a character does

The cases of one step of the reader, said once.  What is claimed of its states is proved for each of
these cases, and holds of a text because every character keeps it.

* `Level.readDigit_cases`, `Level.readLetter_cases`, `Level.raise_cases`: what becomes of a level;
* `Reader.ExponentsClosed`: how exponents end that have no brackets around them;
* `Reader.PlainRead`: what a character does at its level;
* `Reader.closeBracket_cases`, `Reader.readAtLevel_cases`, `Reader.step_cases`: what it does before
  that, or instead;
* `Reader.step_of_endsTerm`: what one does that ends a term;
* `Reader.readFrom_induction`: what a character keeps is kept by a text;
* `Reader.finish_eq_ok`: the nodes of a text are those of its outermost level.
-/

namespace OneUnknown

/-- No exponent is being read, unless it has brackets around it. -/
def IsSettled : List Frame → Prop
  | ⟨.exponent .., _⟩ :: _ => False
  | _ => True

/-- A character that ends a term. -/
def CharClass.EndsTerm : CharClass → Prop
  | .closing | .operator _ | .relation _ => True
  | _ => False

/-! ## One level -/

namespace Level

variable {l l' : Level} {place caret : Nat} {power : List Node}

/-- Scientific notation that is being read has digits in its exponent when it ends. -/
theorem finishScientific_cases (h : l.finishScientific = .ok l') :
    (l.scientific = none ∧ l' = l) ∨
      ∃ s, l.scientific = some s ∧ s.hasDigits = true ∧
        l' = { l with emitted := s.node :: l.emitted, last := .term, scientific := none } := by
  unfold finishScientific at h
  split at h
  · rename_i hs
    exact .inl ⟨hs, (Except.ok.inj h).symm⟩
  · rename_i s hs
    split at h
    · rename_i hdigits
      exact .inr ⟨s, hs, hdigits, (Except.ok.inj h).symm⟩
    · cases h

/-- A digit belongs to the term that is being put together, or begins one after an exponent. -/
theorem readDigit_cases {value : Nat} (h : l.readDigit place value = .ok l') :
    l.last ≠ .letter ∧
      ((l.draft.power = [] ∧ l' = { l with draft := l.draft.addDigit value, last := .term }) ∨
        l.draft.power ≠ [] ∧
          l' = { l.flush with draft := Draft.blank.addDigit value, last := .term }) := by
  unfold readDigit at h
  split at h
  · cases h
  · rename_i hlast
    refine ⟨hlast, ?_⟩
    obtain rfl := Except.ok.inj h
    by_cases hpower : l.draft.power = []
    · exact .inl ⟨hpower, by rw [if_pos hpower]⟩
    · exact .inr ⟨hpower, by rw [if_neg hpower]; rfl⟩

theorem readPoint_eq_ok (h : l.readPoint place = .ok l') :
    l.last ≠ .letter ∧
      l' = { l with draft := { l.draft with places := some 0, touched := true }, last := .term } := by
  unfold readPoint at h
  split at h
  · cases h
  · rename_i hlast
    exact ⟨hlast, (Except.ok.inj h).symm⟩

/-- A letter belongs to the term that is being put together, or multiplies it. -/
theorem readLetter_cases {name : Char} (h : l.readLetter place name = .ok l') :
    isAlphabetic name = true ∧
      ((l.draft.letter = none ∧ l.draft.power = [] ∧
          l' = { l with draft := l.draft.setLetter name, last := .letter }) ∨
        (l.draft.letter ≠ none ∨ l.draft.power ≠ []) ∧
          l' = { l.flush.emit (.operator .multiply) with
            draft := Draft.blank.setLetter name, last := .letter }) := by
  unfold readLetter at h
  split at h
  · rename_i hname
    refine ⟨hname, ?_⟩
    obtain rfl := Except.ok.inj h
    by_cases hfull : l.draft.letter ≠ none ∨ l.draft.power ≠ []
    · exact .inr ⟨hfull, by rw [if_pos hfull]; rfl⟩
    · rw [if_neg hfull]
      simp only [not_or, not_not] at hfull
      exact .inl ⟨hfull.1, hfull.2, rfl⟩
  · cases h

theorem readScientific_eq_ok (h : l.readScientific place = .ok l') :
    ∃ mantissa, l.draft.group? = some mantissa ∧
      l' = { l with
        draft := Draft.blank
        last := .term
        scientific := some ⟨mantissa, 0, false, false, place⟩ } := by
  unfold readScientific at h
  split at h
  · rename_i mantissa hmantissa
    exact ⟨mantissa, hmantissa, (Except.ok.inj h).symm⟩
  · cases h

/-- An exponent is given to the term that is being put together, or to the latest finished one. -/
theorem raise_cases (h : l.raise caret power = .ok l') :
    power ≠ [] ∧
      ((l.draft.touched = true ∧ l.draft.power = [] ∧
          l' = { l with draft := { l.draft with power }, last := .term }) ∨
        l.draft.touched = false ∧ l.draft.negative = false ∧ l.last = .term ∧ ∃ before,
          ((∃ v n, l.emitted = .group v n [] :: before ∧
              l' = { l with emitted := .group v n power :: before }) ∨
            ∃ body negative, l.emitted = .paren body [] negative :: before ∧
              l' = { l with emitted := .paren body power negative :: before })) := by
  unfold raise at h
  split at h
  · cases h
  · rename_i hpower
    refine ⟨hpower, ?_⟩
    split at h
    · rename_i htouched
      split at h
      · rename_i hfree
        exact .inl ⟨htouched, hfree, (Except.ok.inj h).symm⟩
      · cases h
    · rename_i htouched
      split at h
      · cases h
      · rename_i hterm
        simp only [Bool.or_eq_true, decide_eq_true_eq, not_or, not_not, Bool.not_eq_true] at hterm
        refine .inr ⟨by simpa using htouched, hterm.1, hterm.2, ?_⟩
        split at h
        · rename_i v n before hemitted
          exact ⟨before, .inl ⟨v, n, hemitted, (Except.ok.inj h).symm⟩⟩
        · rename_i body negative before hemitted
          exact ⟨before, .inr ⟨body, negative, hemitted, (Except.ok.inj h).symm⟩⟩
        · cases h

end Level

namespace Reader

variable {relations : Bool} {place : Nat} {level : Level} {frames : List Frame} {cls : CharClass}
  {r r' : Reader}

/-! ## The end of an exponent and of a bracket -/

/-- How the exponents without brackets around them end: the level around each is raised to it, from
the innermost one on. -/
inductive ExponentsClosed : Level → List Frame → Reader → Prop where
  | settled {level : Level} {frames : List Frame} (hsettled : IsSettled frames) :
      ExponentsClosed level frames ⟨level, frames⟩
  | exponent {level outer raised : Level} {caret : Nat} {progress : Progress} {power : List Node}
      {frames : List Frame} {r : Reader} (hpower : level.finish = .ok power)
      (hraised : outer.raise caret power = .ok raised) (tail : ExponentsClosed raised frames r) :
      ExponentsClosed level (⟨.exponent caret progress, outer⟩ :: frames) r

theorem ExponentsClosed.of_closeExponents (h : closeExponents level frames = .ok r) :
    ExponentsClosed level frames r := by
  induction frames generalizing level with
  | nil =>
    obtain rfl := Except.ok.inj h
    exact .settled trivial
  | cons frame rest ih =>
    obtain ⟨opening, outer⟩ := frame
    cases opening with
    | exponent caret progress =>
      obtain ⟨power, hpower, h⟩ := Except.bind_eq_ok.1 h
      obtain ⟨raised, hraised, h⟩ := Except.bind_eq_ok.1 h
      exact .exponent hpower hraised (ih h)
    | bracket | bracketExponent =>
      obtain rfl := Except.ok.inj h
      exact .settled trivial

theorem isSettled_closeExponents (h : closeExponents level frames = .ok r) :
    IsSettled r.frames := by
  replace h := ExponentsClosed.of_closeExponents h
  induction h with
  | settled hsettled => exact hsettled
  | exponent _ _ _ ih => exact ih

theorem step_of_isSettled (h : IsSettled r.frames) :
    r.step relations place cls = readAtLevel relations place r.level r.frames cls := by
  obtain ⟨level, frames⟩ := r
  rcases frames with _ | ⟨⟨_ | _ | _, _⟩, _⟩
  case cons.exponent => cases h
  all_goals rfl

/-- A closing bracket ends a parenthesis, which has something in it, or an exponent. -/
theorem closeBracket_cases (h : closeBracket place level frames = .ok r) :
    (∃ opened negative outer rest body, frames = ⟨.bracket opened negative, outer⟩ :: rest ∧
      level.finish = .ok body ∧ body ≠ [] ∧
      r = ⟨outer.addParen body negative, completeExponent rest⟩) ∨
    ∃ caret outer rest power raised, frames = ⟨.bracketExponent caret, outer⟩ :: rest ∧
      level.finish = .ok power ∧ outer.raise caret power = .ok raised ∧
      r = ⟨raised, completeExponent rest⟩ := by
  unfold closeBracket at h
  split at h
  · rename_i opened negative outer rest
    obtain ⟨body, hbody, h⟩ := Except.bind_eq_ok.1 h
    split at h
    · cases h
    · rename_i hne
      exact .inl ⟨opened, negative, outer, rest, body, rfl, hbody, hne,
        (Except.pure_eq_ok.1 h).symm⟩
  · rename_i caret outer rest
    obtain ⟨power, hpower, h⟩ := Except.bind_eq_ok.1 h
    obtain ⟨raised, hraised, h⟩ := Except.bind_eq_ok.1 h
    exact .inr ⟨caret, outer, rest, power, raised, rfl, hpower, hraised,
      (Except.pure_eq_ok.1 h).symm⟩
  · cases h

/-! ## One character -/

/-- What a character does where no exponent of scientific notation is being read: it changes its
level, or that level is put aside or ends. -/
inductive PlainRead (relations : Bool) (place : Nat) (level : Level) (frames : List Frame) :
    CharClass → Reader → Prop where
  | digit {value : Nat} {level' : Level} (hread : level.readDigit place value = .ok level') :
      PlainRead relations place level frames (.digit value) ⟨level', frames⟩
  | point {level' : Level} (hread : level.readPoint place = .ok level') :
      PlainRead relations place level frames .point ⟨level', frames⟩
  | letter {name : Char} {level' : Level}
      (hread : level.leaveFraction.readLetter place name = .ok level') :
      PlainRead relations place level frames (.letter name) ⟨level', frames⟩
  | scientific {level' : Level} (hread : level.readScientific place = .ok level') :
      PlainRead relations place level frames .scientific ⟨level', frames⟩
  | blank : PlainRead relations place level frames .blank ⟨level.leaveFraction, frames⟩
  | minus : PlainRead relations place level frames .minus ⟨level.leaveFraction.readMinus, frames⟩
  | operator (op : Operator) :
      PlainRead relations place level frames (.operator op) ⟨level.readOperator op, frames⟩
  | relation (rel : Relation) (hallowed : relations = true) (houtermost : frames = []) :
      PlainRead relations place level frames (.relation rel) ⟨level.readRelation rel, frames⟩
  | opening :
      PlainRead relations place level frames .opening
        ⟨Level.blank, ⟨.bracket place level.leaveFraction.beforeParen.2,
          level.leaveFraction.beforeParen.1⟩ :: frames⟩
  | closing {r : Reader} (hclosed : closeBracket place level frames = .ok r) :
      PlainRead relations place level frames .closing r
  | caret :
      PlainRead relations place level frames .caret
        ⟨Level.blank, ⟨.exponent place .nothing, level.leaveFraction⟩ :: frames⟩

theorem PlainRead.of_readPlain (h : readPlain relations place level frames cls = .ok r) :
    PlainRead relations place level frames cls r := by
  cases cls with
  | digit | point | letter | scientific =>
    obtain ⟨level', hread, h⟩ := Except.bind_eq_ok.1 h
    obtain rfl := Except.pure_eq_ok.1 h
    constructor
    exact hread
  | blank | minus | operator | opening | caret =>
    obtain rfl := Except.ok.inj h
    constructor
  | relation rel =>
    rw [readPlain] at h
    split at h
    · rename_i hallowed
      obtain rfl := Except.ok.inj h
      obtain ⟨hallowed, houtermost⟩ := Bool.and_eq_true_iff.1 hallowed
      exact .relation rel hallowed (List.isEmpty_iff.1 houtermost)
    · cases h
  | closing => exact .closing h
  | exclamation => cases h

/-- A character goes into the exponent of scientific notation, or that ends before it. -/
theorem readAtLevel_cases (h : readAtLevel relations place level frames cls = .ok r) :
    (∃ s s', level.scientific = some s ∧ s.read? place cls = .ok (some s') ∧
      r = ⟨{ level with scientific := some s' }, frames⟩) ∨
    ∃ finished, level.finishScientific = .ok finished ∧ finished.scientific = none ∧
      readPlain relations place finished frames cls = .ok r := by
  rw [readAtLevel] at h
  cases hs : level.scientific with
  | none =>
    rw [hs] at h
    exact .inr ⟨level, by rw [Level.finishScientific, hs], hs, h⟩
  | some s =>
    rw [hs] at h
    obtain ⟨next, hnext, h⟩ := Except.bind_eq_ok.1 h
    cases next with
    | some s' =>
      obtain rfl := Except.pure_eq_ok.1 h
      exact .inl ⟨s, s', rfl, hnext, rfl⟩
    | none =>
      obtain ⟨finished, hfinished, h⟩ := Except.bind_eq_ok.1 h
      refine .inr ⟨finished, hfinished, ?_, h⟩
      rcases Level.finishScientific_cases hfinished with ⟨hnone, -⟩ | ⟨_, -, -, rfl⟩
      · simp [hs] at hnone
      · rfl

/-- A bracket makes an exponent that begins with it one in brackets.  Any other character belongs to
the exponent that is being read, or ends all exponents, of which there may be none. -/
theorem step_cases (h : r.step relations place cls = .ok r') :
    (∃ caret outer frames, r.frames = ⟨.exponent caret .nothing, outer⟩ :: frames ∧
      cls = .opening ∧ r' = ⟨r.level, ⟨.bracketExponent caret, outer⟩ :: frames⟩) ∨
    (∃ caret progress next outer frames, r.frames = ⟨.exponent caret progress, outer⟩ :: frames ∧
      progress.extend? cls = some next ∧ ¬ (progress = .nothing ∧ cls = .opening) ∧
      readAtLevel relations place r.level (⟨.exponent caret next, outer⟩ :: frames) cls = .ok r') ∨
    ∃ closed, closeExponents r.level r.frames = .ok closed ∧
      readAtLevel relations place closed.level closed.frames cls = .ok r' := by
  obtain ⟨level, frames⟩ := r
  rcases frames with _ | ⟨⟨_ | _ | ⟨caret, progress⟩, outer⟩, rest⟩
  case cons.exponent =>
    unfold step at h
    dsimp only at h
    split at h
    · rename_i hopening
      obtain ⟨rfl, rfl⟩ := hopening
      exact .inl ⟨caret, outer, rest, rfl, rfl, (Except.ok.inj h).symm⟩
    · rename_i hopening
      split at h
      · rename_i next hnext
        exact .inr (.inl ⟨caret, progress, next, outer, rest, rfl, hnext, hopening, h⟩)
      · obtain ⟨closed, hclosed, h⟩ := Except.bind_eq_ok.1 h
        exact .inr (.inr ⟨closed, hclosed, h⟩)
  all_goals exact .inr (.inr ⟨_, rfl, h⟩)

/-- A character that ends a term ends all exponents that have no brackets, too. -/
theorem step_of_endsTerm (hcls : cls.EndsTerm) :
    r.step relations place cls = (do
      let closed ← closeExponents r.level r.frames
      readAtLevel relations place closed.level closed.frames cls) := by
  obtain ⟨level, frames⟩ := r
  rcases frames with _ | ⟨⟨_ | _ | ⟨caret, progress⟩, outer⟩, rest⟩
  case cons.exponent =>
    cases cls with
    | closing | operator | relation => cases progress <;> rfl
    | _ => cases hcls
  all_goals rfl

/-! ## Texts -/

theorem readFrom_induction {P : Reader → Prop}
    (hstep : ∀ {place : Nat} {r r' : Reader} {c : Char}, P r →
      r.step relations place (CharClass.of c) = .ok r' → P r')
    {text : List Char} (hr : P r) (h : r.readFrom relations place text = .ok r') : P r' := by
  induction text generalizing place r with
  | nil =>
    obtain rfl := Except.ok.inj h
    exact hr
  | cons c rest ih =>
    obtain ⟨next, hnext, h⟩ := Except.bind_eq_ok.1 h
    exact ih (hstep hr hnext) h

/-- At the end of a text only exponents without brackets are left to end. -/
theorem finish_eq_ok {nodes : List Node} :
    r.finish = .ok nodes ↔
      ∃ level, closeExponents r.level r.frames = .ok ⟨level, []⟩ ∧ level.finish = .ok nodes := by
  constructor
  · intro h
    obtain ⟨⟨level, frames⟩, hclosed, h⟩ := Except.bind_eq_ok.1 h
    rcases frames with _ | ⟨⟨_ | _ | _, _⟩, _⟩
    · exact ⟨level, hclosed, h⟩
    all_goals cases h
  · rintro ⟨level, hclosed, h⟩
    exact Except.bind_eq_ok.2 ⟨_, hclosed, h⟩

end Reader

end OneUnknown
