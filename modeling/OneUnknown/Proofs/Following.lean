import OneUnknown.Proofs.Writing
/-!
# Following the reader

What one character does in the states that the reader goes through while it reads a text that was
written, and a judgement about texts that is put together from such steps.

* `Level.Gap`, `Level.PastTerm`: the level between two terms, and behind a term;
* `Level.Raisable`, `Level.IsRaised`: behind a term without an exponent, and behind one with it;
* `AtGap`, `AtTerm`: the reader in these states, any exponent that is being read included;
* `Reader.Leads`: from some state, a text leads to a state with some property;
* `Reader.Leads.append`: the rule for texts that are put together.
-/

namespace OneUnknown

/-! ## Levels -/

namespace Level

/-- A level that holds some nodes, the one that is being put together included. -/
structure Holds (l : Level) (nodes : List Node) : Prop where
  flushed : l.flush.emitted.reverse = nodes
  scientific : l.scientific = none

/-- Between two terms: of the next one nothing has been read but perhaps its sign. -/
structure Gap (l : Level) (nodes : List Node) (negative : Bool) : Prop where
  emitted : l.emitted.reverse = nodes
  draft : l.draft = Draft.blank.withSign negative
  last : l.last.endsTerm = false
  scientific : l.scientific = none

/-- Behind a term. -/
structure PastTerm (l : Level) (nodes : List Node) : Prop extends l.Holds nodes where
  untouched : l.draft.touched = false → l.draft = Draft.blank
  last : l.last.endsTerm = true

/-- Before a parenthesis: there is no term that is being put together. -/
structure Emptied (l : Level) (nodes : List Node) : Prop where
  emitted : l.emitted.reverse = nodes
  draft : l.draft = Draft.blank
  scientific : l.scientific = none

/-- Behind a term that has its exponent already. -/
def IsRaised (l : Level) : Prop :=
  ∀ caret power, ∃ e, l.leaveFraction.raise caret power = .error e

/-- Behind a term that has no exponent yet. -/
structure Raisable (l : Level) (nodes : List Node) (term : List Node → Node) : Prop where
  pastTerm : l.PastTerm (nodes ++ [term []])
  raise : ∀ caret power, power ≠ [] → ∃ raised, l.leaveFraction.raise caret power = .ok raised ∧
    raised.PastTerm (nodes ++ [term power]) ∧ raised.IsRaised

variable {l : Level} {nodes : List Node} {negative : Bool}

theorem gap_blank : blank.Gap [] false := ⟨rfl, rfl, rfl, rfl⟩

theorem Holds.finish (h : l.Holds nodes) : l.finish = .ok nodes := by
  simp [Level.finish, finishScientific, h.scientific, bind, Except.bind, pure, Except.pure,
    h.flushed]

theorem finish_eq (h : l.scientific = none) : l.finish = .ok l.flush.emitted.reverse :=
  Holds.finish ⟨rfl, h⟩

theorem Gap.holds (h : l.Gap nodes negative) : l.Holds nodes where
  flushed := by simp [flush, h.draft, Draft.group?, Draft.withSign, Draft.blank, h.emitted]
  scientific := h.scientific

theorem Gap.leaveFraction (h : l.Gap nodes negative) : l.leaveFraction.Gap nodes negative where
  emitted := h.emitted
  draft := by rw [Level.leaveFraction, h.draft]; rfl
  last := h.last
  scientific := h.scientific

theorem Holds.leaveFraction (h : l.Holds nodes) : l.leaveFraction.Holds nodes :=
  ⟨h.flushed, h.scientific⟩

theorem PastTerm.leaveFraction (h : l.PastTerm nodes) : l.leaveFraction.PastTerm nodes where
  toHolds := h.toHolds.leaveFraction
  untouched := fun ht => by rw [Level.leaveFraction, h.untouched ht]; rfl
  last := h.last

theorem Holds.readOperator (h : l.Holds nodes) (op : Operator) :
    (l.readOperator op).Gap (nodes ++ [.operator op]) false where
  emitted := by simp [Level.readOperator, emit, h.flushed]
  draft := rfl
  last := rfl
  scientific := h.scientific

theorem Holds.readRelation (h : l.Holds nodes) (r : Relation) :
    (l.readRelation r).Gap (nodes ++ [.relation r]) false where
  emitted := by simp [Level.readRelation, emit, h.flushed]
  draft := rfl
  last := rfl
  scientific := h.scientific

/-- Behind a term a minus sign subtracts. -/
theorem PastTerm.readMinus (h : l.PastTerm nodes) : l.readMinus.Gap nodes true := by
  rw [Level.readMinus, if_pos h.last]
  exact ⟨h.flushed, rfl, rfl, h.scientific⟩

/-- Between two terms it is the sign of the next one. -/
theorem Gap.readMinus (h : l.Gap nodes false) : l.readMinus.Gap nodes true := by
  rw [Level.readMinus, if_neg (by simp [h.last])]
  exact ⟨h.emitted, by rw [h.draft]; rfl, rfl, h.scientific⟩

theorem Gap.beforeParen (h : l.Gap nodes negative) :
    l.leaveFraction.beforeParen.1.Emptied nodes ∧ l.leaveFraction.beforeParen.2 = negative := by
  have hdraft := h.leaveFraction.draft
  have htouched : l.leaveFraction.draft.touched = false := by rw [hdraft]; rfl
  rw [Level.beforeParen, htouched]
  exact ⟨⟨h.emitted, by simp only [hdraft]; rfl, h.scientific⟩, by simp only [hdraft]; rfl⟩

theorem PastTerm.beforeParen (h : l.PastTerm nodes) :
    l.leaveFraction.beforeParen.1.Emptied nodes ∧ l.leaveFraction.beforeParen.2 = false := by
  have h := h.leaveFraction
  rw [Level.beforeParen]
  split
  · exact ⟨⟨h.flushed, rfl, h.scientific⟩, rfl⟩
  · rename_i htouched
    have hdraft := h.untouched (Bool.eq_false_iff.2 htouched)
    refine ⟨⟨?_, by simp only [hdraft]; rfl, h.scientific⟩, by simp only [hdraft]; rfl⟩
    have hflushed := h.flushed
    rw [flush, hdraft] at hflushed
    exact hflushed

/-- A group that has just been read. -/
theorem raisable_group {draft : Draft} {last : LastRead} {emitted : List Node}
    (hemitted : emitted.reverse = nodes) (htouched : draft.touched = true)
    (hpower : draft.power = []) (hlast : last.endsTerm = true) :
    Raisable ⟨emitted, draft, last, none⟩ nodes (.group draft.letter draft.number) where
  pastTerm :=
    { flushed := by simp [flush, Draft.group?, htouched, Group.toNode, hemitted, hpower]
      scientific := rfl
      untouched := fun h => by simp [htouched] at h
      last := hlast }
  raise := by
    intro caret power hne
    refine ⟨⟨emitted, { draft with places := none, power := power }, .term, none⟩, ?_, ?_, ?_⟩
    · simp [Level.leaveFraction, Level.raise, hne, htouched, hpower]
    · exact
        { flushed := by simp [flush, Draft.group?, htouched, Group.toNode, hemitted]
          scientific := rfl
          untouched := fun h => by simp [htouched] at h
          last := rfl }
    · intro caret' power'
      refine ⟨.danglingExponent caret', ?_⟩
      simp [Level.leaveFraction, Level.raise, hne, htouched]

/-- A parenthesis that has just been read. -/
theorem Emptied.raisable_addParen (h : l.Emptied nodes) (body : List Node) (negative : Bool) :
    (l.addParen body negative).Raisable nodes fun power => .paren body power negative := by
  obtain ⟨emitted, draft, last, scientific⟩ := l
  obtain ⟨rfl, rfl, rfl⟩ := h
  have hpastTerm (power : List Node) :
      PastTerm ⟨.paren body power negative :: emitted, Draft.blank, .term, none⟩
        (emitted.reverse ++ [.paren body power negative]) :=
    { flushed := by simp [flush, Draft.group?, Draft.blank]
      scientific := rfl
      untouched := fun _ => rfl
      last := rfl }
  refine ⟨hpastTerm [], fun caret power hne => ⟨_, ?_, hpastTerm power, ?_⟩⟩
  · simp [Level.raise, hne, addParen, emit, Level.leaveFraction, Draft.blank, Draft.negative,
      Number.zero, Number.ofNat]
  · intro caret' power'
    refine ⟨.danglingExponent caret', ?_⟩
    simp [Level.raise, hne, Level.leaveFraction, Draft.blank, Draft.negative, Number.zero,
      Number.ofNat]

end Level

/-! ## Exponents that are being read -/

/-- The exponent that is being read, if one is, after a character of it. -/
def continued (progress : Progress) : List Frame → List Frame
  | ⟨.exponent caret _, outer⟩ :: frames => ⟨.exponent caret progress, outer⟩ :: frames
  | frames => frames

theorem completeExponent_eq (frames : List Frame) :
    Reader.completeExponent frames = continued .complete frames := by
  unfold Reader.completeExponent continued
  split <;> simp_all

@[simp] theorem continued_continued (progress progress' : Progress) (frames : List Frame) :
    continued progress (continued progress' frames) = continued progress frames := by
  rcases frames with _ | ⟨⟨_ | _ | _, _⟩, _⟩ <;> rfl

theorem IsSettled.continued_eq {frames : List Frame} (h : IsSettled frames) (progress : Progress) :
    continued progress frames = frames := by
  rcases frames with _ | ⟨⟨_ | _ | _, _⟩, _⟩
  case cons.exponent => cases h
  all_goals rfl

/-- Whether a bracket is that of a parenthesis: it is not the first character of an exponent, nor
does it stand behind a term. -/
def AwaitsTerm : List Frame → Prop
  | ⟨.exponent _ progress, _⟩ :: _ => progress = .incomplete
  | _ => True

theorem IsSettled.not_complete {frames : List Frame} (h : IsSettled frames) (caret : Nat)
    (p : Progress) (outer : Level) (rest : List Frame)
    (hframes : frames = ⟨.exponent caret p, outer⟩ :: rest) : p ≠ .complete := by
  subst hframes
  cases h

theorem IsSettled.awaitsTerm {frames : List Frame} (h : IsSettled frames) : AwaitsTerm frames := by
  rcases frames with _ | ⟨⟨_ | _ | _, _⟩, _⟩
  case cons.exponent => cases h
  all_goals trivial

/-- Behind the opening bracket of a parenthesis. -/
def Opened (frames : List Frame) (nodes : List Node) (negative : Bool) (r : Reader) : Prop :=
  ∃ place outer frames', r = ⟨Level.blank, ⟨.bracket place negative, outer⟩ :: frames'⟩ ∧
    continued .complete frames' = continued .complete frames ∧ outer.Emptied nodes

namespace Reader

@[simp] theorem closeExponents_continued (level : Level) (progress : Progress)
    (frames : List Frame) :
    closeExponents level (continued progress frames) = closeExponents level frames := by
  rcases frames with _ | ⟨⟨_ | _ | _, _⟩, _⟩ <;> rfl

theorem closeExponents_of_isSettled {frames : List Frame} (h : IsSettled frames) (level : Level) :
    closeExponents level frames = .ok ⟨level, frames⟩ := by
  rcases frames with _ | ⟨⟨_ | _ | _, _⟩, _⟩
  case cons.exponent => cases h
  all_goals rfl

/-! ## One character -/

section

variable {relations : Bool} {place : Nat} {level : Level} {frames : List Frame} {cls : CharClass}

theorem readAtLevel_eq (h : level.scientific = none) :
    readAtLevel relations place level frames cls = readPlain relations place level frames cls := by
  rw [readAtLevel, h]

/-- A character that belongs to the exponent that is being read, if one is. -/
theorem step_continued {next : Progress} (hextend : ∀ caret p outer rest,
      frames = ⟨.exponent caret p, outer⟩ :: rest →
        p.extend? cls = some next ∧ ¬ (p = .nothing ∧ cls = .opening)) :
    step relations place ⟨level, frames⟩ cls =
      readAtLevel relations place level (continued next frames) cls := by
  rcases frames with _ | ⟨⟨_ | _ | ⟨caret, p⟩, outer⟩, rest⟩
  case cons.exponent =>
    obtain ⟨hsome, hopening⟩ := hextend caret p outer rest rfl
    simp only [step, if_neg hopening, hsome, continued]
  all_goals rfl

theorem step_extending (progress : Progress) (h : level.scientific = none)
    (hextend : ∀ caret p outer rest, frames = ⟨.exponent caret p, outer⟩ :: rest →
      p.extend? cls = some progress ∧ ¬ (p = .nothing ∧ cls = .opening)) :
    step relations place ⟨level, frames⟩ cls =
      readPlain relations place level (continued progress frames) cls := by
  rw [← readAtLevel_eq h]
  exact step_continued hextend

/-- A character that belongs to no complete exponent ends them all. -/
theorem step_ending (hcomplete : continued .complete frames = frames)
    (hextend : Progress.extend? .complete cls = none) {level' : Level} {frames' : List Frame}
    (hclose : closeExponents level frames = .ok ⟨level', frames'⟩)
    (h : level'.scientific = none) :
    step relations place ⟨level, frames⟩ cls = readPlain relations place level' frames' cls := by
  rw [← readAtLevel_eq h]
  rcases frames with _ | ⟨⟨_ | _ | ⟨caret, p⟩, outer⟩, rest⟩
  case cons.exponent =>
    obtain rfl : p = .complete := by
      simp only [continued, List.cons.injEq, Frame.mk.injEq, Opening.exponent.injEq] at hcomplete
      exact hcomplete.1.1.2.symm
    simp only [step, hextend, hclose, reduceCtorEq, false_and, if_false]
    rfl
  all_goals
    obtain ⟨rfl, rfl⟩ := Reader.mk.inj (Except.ok.inj hclose)
    rfl

theorem step_settled (hsettled : IsSettled frames) (h : level.scientific = none) :
    step relations place ⟨level, frames⟩ cls = readPlain relations place level frames cls := by
  rw [← readAtLevel_eq h]
  rcases frames with _ | ⟨⟨_ | _ | _, _⟩, _⟩
  case cons.exponent => cases hsettled
  all_goals rfl

end

/-! ## Texts -/

/-- From the state `r`, the text is read without an error and leads to a state with a property. -/
def Leads (relations : Bool) (r : Reader) (text : List Char) (post : Reader → Prop) : Prop :=
  ∀ place, ∃ r', readFrom relations place r text = .ok r' ∧ post r'

section

variable {relations : Bool} {r : Reader} {text text' : List Char} {post post' : Reader → Prop}

theorem readFrom_append (place : Nat) :
    readFrom relations place r (text ++ text') = (do
      let r' ← readFrom relations place r text
      readFrom relations (place + text.length) r' text') := by
  induction text generalizing place r with
  | nil => rfl
  | cons c rest ih =>
    simp only [List.cons_append, readFrom, List.length_cons]
    cases step relations place r (CharClass.of c) with
    | error => rfl
    | ok next =>
      refine (ih (place + 1)).trans ?_
      rw [Nat.add_right_comm, Nat.add_assoc]
      rfl

theorem Leads.nil (h : post r) : r.Leads relations [] post := fun _ => ⟨r, rfl, h⟩

theorem Leads.append (h : r.Leads relations text post)
    (h' : ∀ r', post r' → r'.Leads relations text' post') :
    r.Leads relations (text ++ text') post' := by
  intro place
  obtain ⟨r', hr', hpost⟩ := h place
  obtain ⟨r'', hr'', hpost'⟩ := h' r' hpost (place + text.length)
  exact ⟨r'', by rw [readFrom_append, hr']; exact hr'', hpost'⟩

theorem Leads.mono (h : r.Leads relations text post) (hpost : ∀ r', post r' → post' r') :
    r.Leads relations text post' :=
  fun place => (h place).imp fun r' hr' => ⟨hr'.1, hpost r' hr'.2⟩

theorem Leads.char {c : Char}
    (h : ∀ place, ∃ r', r.step relations place (CharClass.of c) = .ok r' ∧ post r') :
    r.Leads relations [c] post := by
  intro place
  obtain ⟨r', hr', hpost⟩ := h place
  exact ⟨r', by rw [readFrom, hr']; rfl, hpost⟩

theorem Leads.cons (post : Reader → Prop) {c : Char}
    (h : ∀ place, ∃ r', r.step relations place (CharClass.of c) = .ok r' ∧ post r')
    (h' : ∀ r', post r' → r'.Leads relations text post') :
    r.Leads relations (c :: text) post' :=
  (Leads.char h).append h'

end

/-! ## Between terms -/

/-- Between two terms of the level that `frames` stand around. -/
structure AtGap (frames : List Frame) (nodes : List Node) (negative : Bool) (r : Reader) :
    Prop where
  frames_eq : r.frames = frames
  gap : r.level.Gap nodes negative

/-- Behind a term of the level that `frames` stand around, perhaps still in its exponent. -/
structure AtTerm (frames : List Frame) (nodes : List Node) (r : Reader) : Prop where
  complete : continued .complete r.frames = r.frames
  closes : ∃ level, closeExponents r.level r.frames = closeExponents level frames ∧
    level.PastTerm nodes

/-- At a place where a level can end. -/
structure AtRest (frames : List Frame) (nodes : List Node) (r : Reader) : Prop where
  complete : continued .complete r.frames = r.frames
  closes : ∃ level, closeExponents r.level r.frames = .ok ⟨level, frames⟩ ∧ level.Holds nodes

section

variable {relations : Bool} {frames : List Frame} {nodes : List Node} {r : Reader}

theorem AtTerm.atRest (hsettled : IsSettled frames) (h : r.AtTerm frames nodes) :
    r.AtRest frames nodes := by
  obtain ⟨level, hclose, hpast⟩ := h.closes
  exact ⟨h.complete, level, hclose.trans (closeExponents_of_isSettled hsettled level),
    hpast.toHolds⟩

theorem AtGap.atRest (hsettled : IsSettled frames) {negative : Bool}
    (h : r.AtGap frames nodes negative) : r.AtRest frames nodes := by
  obtain ⟨level, frames⟩ := r
  obtain ⟨rfl, hgap⟩ := h
  exact ⟨hsettled.continued_eq .complete, level, closeExponents_of_isSettled hsettled level,
    hgap.holds⟩

/-- A blank ends the exponents. -/
theorem AtRest.leads_blank (h : r.AtRest frames nodes) :
    r.Leads relations [' '] fun r' => r'.frames = frames ∧ r'.level.Holds nodes := by
  obtain ⟨level, hclose, hholds⟩ := h.closes
  refine .char fun place => ?_
  rw [CharClass.of_blank]
  exact ⟨_, step_ending h.complete rfl hclose hholds.scientific, rfl, hholds.leaveFraction⟩

theorem AtGap.leads_blank (hsettled : IsSettled frames) {negative : Bool}
    (h : r.AtGap frames nodes negative) :
    r.Leads relations [' '] (AtGap frames nodes negative) := by
  obtain ⟨level, frames⟩ := r
  obtain ⟨rfl, hgap⟩ := h
  refine .char fun place => ?_
  rw [CharClass.of_blank]
  exact ⟨_, step_settled hsettled hgap.scientific, rfl, hgap.leaveFraction⟩

theorem AtRest.leads_operator (hsettled : IsSettled frames) (h : r.AtRest frames nodes)
    {op : Operator} (hop : op ≠ .subtract) :
    r.Leads relations [' ', op.symbol, ' '] (AtGap frames (nodes ++ [.operator op]) false) := by
  show r.Leads relations ([' '] ++ [op.symbol, ' ']) _
  refine h.leads_blank.append ?_
  rintro ⟨level, frames⟩ ⟨rfl, hholds⟩
  refine .cons (AtGap frames (nodes ++ [.operator op]) false) (fun place => ?_)
    fun r' h' => h'.leads_blank hsettled
  rw [Operator.of_symbol hop]
  exact ⟨_, step_settled hsettled hholds.scientific, rfl, hholds.readOperator op⟩

theorem AtRest.leads_relation (h : r.AtRest [] nodes) (rel : Relation) :
    r.Leads true [' ', rel.symbol, ' '] (AtGap [] (nodes ++ [.relation rel]) false) := by
  show r.Leads true ([' '] ++ [rel.symbol, ' ']) _
  refine h.leads_blank.append ?_
  rintro ⟨level, frames⟩ ⟨rfl, hholds⟩
  refine .cons (AtGap [] (nodes ++ [.relation rel]) false) (fun place => ?_)
    fun r' h' => h'.leads_blank (by trivial)
  rw [Relation.of_symbol]
  exact ⟨_, step_settled (by trivial) hholds.scientific, rfl, hholds.readRelation rel⟩

/-- Behind a term a minus sign subtracts the next one. -/
theorem AtTerm.leads_difference (hsettled : IsSettled frames) (h : r.AtTerm frames nodes) :
    r.Leads relations [' ', '-', ' '] (AtGap frames nodes true) := by
  obtain ⟨level, hclose, hpast⟩ := h.closes
  rw [closeExponents_of_isSettled hsettled] at hclose
  refine .cons (fun r' => r' = ⟨level.leaveFraction, frames⟩) (fun place => ?_) ?_
  · rw [CharClass.of_blank, step_ending h.complete rfl hclose hpast.scientific]
    exact ⟨_, rfl, rfl⟩
  · rintro _ rfl
    refine .cons (AtGap frames nodes true) (fun place => ?_)
      fun r' h' => h'.leads_blank hsettled
    rw [CharClass.of_minus, step_settled hsettled hpast.leaveFraction.scientific]
    exact ⟨_, rfl, rfl, hpast.leaveFraction.leaveFraction.readMinus⟩

/-- The sign of a term.  It belongs to the exponent, if that begins with it. -/
theorem AtGap.leads_minus (h : r.AtGap frames nodes false)
    (hincomplete : ∀ caret p outer rest, frames = ⟨.exponent caret p, outer⟩ :: rest →
      p ≠ .complete) :
    r.Leads relations ['-'] (AtGap (continued .incomplete frames) nodes true) := by
  obtain ⟨level, frames⟩ := r
  obtain ⟨rfl, hgap⟩ := h
  refine .char fun place => ?_
  rw [CharClass.of_minus]
  refine ⟨_, step_extending .incomplete hgap.scientific ?_, rfl, hgap.leaveFraction.readMinus⟩
  intro caret p outer rest hframes
  have hp := hincomplete caret p outer rest hframes
  cases p with
  | complete => exact absurd rfl hp
  | nothing | incomplete => exact ⟨rfl, by simp⟩

end

/-! ## Coefficients -/

section

variable {relations : Bool} {frames : List Frame} {nodes : List Node}

theorem readFrom_digits (place : Nat) (level : Level) (hscientific : level.scientific = none)
    (hlast : level.last ≠ .letter) (hpower : level.draft.power = []) {digits : List Char}
    (hne : digits ≠ []) (hdigits : ∀ c ∈ digits, c.isDigit = true) :
    readFrom relations place ⟨level, frames⟩ digits =
      .ok ⟨{ level with draft := level.draft.addDigits digits, last := .term },
        continued .complete frames⟩ := by
  induction digits generalizing place level frames with
  | nil => exact absurd rfl hne
  | cons c rest ih =>
    have hstep : step relations place ⟨level, frames⟩ (CharClass.of c) =
        .ok ⟨{ level with draft := level.draft.addDigit (c.toNat - '0'.toNat), last := .term },
          continued .complete frames⟩ := by
      rw [CharClass.of_digit (hdigits c (.head _)), step_extending .complete hscientific
        fun _ p _ _ _ => ⟨by cases p <;> rfl, by simp⟩]
      simp [readPlain, Level.readDigit, hlast, hpower, bind, Except.bind, pure, Except.pure]
    rw [readFrom, hstep]
    by_cases hrest : rest = []
    · subst hrest
      rfl
    · have hpower' : (level.draft.addDigit (c.toNat - '0'.toNat)).power = [] := by
        rw [Draft.addDigit]
        split <;> exact hpower
      refine (ih (place + 1) { level with
        draft := level.draft.addDigit (c.toNat - '0'.toNat), last := .term } hscientific
        (by simp) hpower' hrest fun d hd => hdigits d (.tail _ hd)).trans ?_
      simp [Draft.addDigits_cons]

/-- A decimal point and the digits behind it, of which there are some. -/
theorem leads_point {emitted : List Node} {n : Number} {touched hasDigits : Bool} {last : LastRead}
    (hlast : last ≠ .letter) {part : List Char} (hdigits : ∀ c ∈ part, c.isDigit = true)
    (hne : part ≠ []) :
    (⟨⟨emitted, ⟨none, n, [], touched, hasDigits, none⟩, last, none⟩, frames⟩ : Reader).Leads
      relations ('.' :: part) fun r' => r'.frames = continued .complete frames ∧
        ∃ places, r'.level = ⟨emitted, ⟨none, n.addDecimal part.length
          (Nat.ofDigitChars 10 part 0), [], true, true, places⟩, .term, none⟩ := by
  have hpoint (place : Nat) : step relations place
      ⟨⟨emitted, ⟨none, n, [], touched, hasDigits, none⟩, last, none⟩, frames⟩ (CharClass.of '.') =
      .ok ⟨⟨emitted, ⟨none, n, [], true, hasDigits, some 0⟩, .term, none⟩,
        continued .complete frames⟩ := by
    rw [CharClass.of_point, step_extending .complete rfl
      fun _ p _ _ _ => ⟨by cases p <;> rfl, by simp⟩]
    simp [readPlain, Level.readPoint, hlast, bind, Except.bind, pure, Except.pure]
  refine Leads.cons _ (fun place => ⟨_, hpoint place, rfl⟩) fun r' hr' place => ?_
  subst hr'
  refine ⟨_, readFrom_digits place _ rfl (by simp) rfl hne hdigits, by simp, ?_⟩
  rw [Draft.addDigits_part rfl hne, Nat.zero_add]
  exact ⟨_, rfl⟩

/-- The level after digits of which some may stand behind a decimal point. -/
theorem AtGap.leads_digits {r : Reader} {negative : Bool} (h : r.AtGap frames nodes negative)
    {whole part : List Char} (hdigits : ∀ c ∈ whole ++ part, c.isDigit = true)
    (hne : whole ≠ [] ∨ part ≠ []) :
    r.Leads relations (whole ++ (if part = [] then [] else '.' :: part)) fun r' =>
      r'.frames = continued .complete frames ∧ ∃ places, r'.level =
        ⟨nodes.reverse, ⟨none, ((Number.zero.withSign negative).addDigits whole).addDecimal
            part.length (Nat.ofDigitChars 10 part 0), [], true, true, places⟩, .term, none⟩ := by
  obtain ⟨⟨emitted, draft, last, scientific⟩, frames⟩ := r
  obtain ⟨rfl, ⟨rfl, rfl, hlast, rfl⟩⟩ := h
  have hletter : last ≠ .letter := by
    rintro rfl
    cases hlast
  rw [List.forall_mem_append] at hdigits
  rw [List.reverse_reverse]
  by_cases hwhole : whole = []
  · subst hwhole
    have hpart := hne.resolve_left (by simp)
    rw [if_neg hpart]
    exact leads_point hletter hdigits.2 hpart
  · have hread (place : Nat) := @readFrom_digits relations frames place
      ⟨emitted, Draft.blank.withSign negative, last, none⟩ rfl hletter rfl _ hwhole hdigits.1
    rw [Draft.addDigits_whole rfl hwhole] at hread
    by_cases hpart : part = []
    · subst hpart
      rw [if_pos rfl, List.append_nil]
      refine fun place => ⟨_, hread place, rfl, none, ?_⟩
      rw [Nat.ofDigitChars_nil, Number.addDecimal_zero]
      rfl
    · rw [if_neg hpart]
      refine Leads.append (fun place => ⟨_, hread place, rfl⟩) fun r' hr' => ?_
      subst hr'
      refine (leads_point (by simp) hdigits.2 hpart).mono fun r' hr' => ?_
      rwa [continued_continued] at hr'

/-- The level after the digits of a decimal. -/
theorem AtGap.leads_spelled {r : Reader} {negative : Bool} (h : r.AtGap frames nodes negative)
    {whole part : List Char} {value : Rat} (hspells : Rational.Spells whole part value) :
    r.Leads relations (whole ++ (if part = [] then [] else '.' :: part)) fun r' =>
      r'.frames = continued .complete frames ∧ ∃ places, r'.level =
        ⟨nodes.reverse, ⟨none, (Number.ofRat value).withSign negative, [], true, true, places⟩,
          .term, none⟩ := by
  rw [← hspells.number_eq negative]
  exact h.leads_digits hspells.digits (.inl hspells.nonempty)

theorem step_letter (place : Nat) {name : Char} (hname : isAlphabetic name = true) (hE : name ≠ 'E')
    {emitted : List Node} {draft : Draft} {last : LastRead} (hletter : draft.letter = none)
    (hpower : draft.power = []) :
    step relations place ⟨⟨emitted, draft, last, none⟩, frames⟩ (CharClass.of name) =
      .ok ⟨⟨emitted, { draft with places := none }.setLetter name, .letter, none⟩,
        continued .complete frames⟩ := by
  rw [CharClass.of_letter hname hE, step_extending .complete rfl
    fun _ p _ _ _ => ⟨by cases p <;> rfl, by simp⟩]
  simp [readPlain, Level.readLetter, Level.leaveFraction, hname, hletter, hpower, bind,
    Except.bind, pure, Except.pure]

/-- A coefficient with its variable.  A coefficient that is not written is one. -/
theorem AtGap.leads_coefficient {r : Reader} {v : Option Char} {n : Number}
    (h : r.AtGap frames nodes n.negative)
    (hletter : ∀ name, v = some name → isAlphabetic name = true ∧ name ≠ 'E')
    (hn : Rational.IsDecimal n.magnitude) :
    r.Leads relations (coefficientText v n) fun r' =>
      r'.frames = continued .complete frames ∧ r'.level.Raisable nodes (.group v n.reread) := by
  obtain ⟨whole, part, hspells, hplain⟩ := Number.exists_spells hn
  have hdigits : r.Leads relations (Rational.plain n.magnitude) _ :=
    hplain ▸ h.leads_spelled hspells
  cases v with
  | none =>
    refine hdigits.mono ?_
    rintro ⟨_, _⟩ ⟨rfl, places, rfl⟩
    exact ⟨rfl, Level.raisable_group (List.reverse_reverse nodes) rfl rfl rfl⟩
  | some name =>
    obtain ⟨hname, hE⟩ := hletter name rfl
    rw [coefficientText]
    split
    · rename_i hone
      obtain ⟨⟨emitted, draft, last, scientific⟩, frames⟩ := r
      obtain ⟨rfl, ⟨rfl, rfl, hlast, rfl⟩⟩ := h
      refine .char fun place => ⟨_, step_letter place hname hE rfl rfl, rfl, ?_⟩
      have hnumber : n.reread = (Number.ofNat 1).withSign n.negative := by
        rw [Number.reread, hone]
        exact congrArg (Number.withSign · n.negative)
          (by decide +kernel : Number.ofRat 1 = Number.ofNat 1)
      rw [hnumber]
      exact Level.raisable_group rfl rfl rfl rfl
    · refine hdigits.append ?_
      rintro ⟨_, _⟩ ⟨rfl, places, rfl⟩
      refine .char fun place => ⟨_, step_letter place hname hE rfl rfl, by simp, ?_⟩
      exact Level.raisable_group (List.reverse_reverse nodes) rfl rfl rfl

end

/-! ## Brackets and exponents -/

section

variable {relations : Bool} {frames : List Frame} {nodes : List Node} {r : Reader}

theorem readPlain_opening (place : Nat) (level : Level) :
    readPlain relations place level frames .opening =
      .ok ⟨Level.blank, ⟨.bracket place level.leaveFraction.beforeParen.2,
        level.leaveFraction.beforeParen.1⟩ :: frames⟩ := rfl

theorem AtGap.leads_opening {negative : Bool} (h : r.AtGap frames nodes negative)
    (hawaits : AwaitsTerm frames) : r.Leads relations ['('] (Opened frames nodes negative) := by
  obtain ⟨level, frames⟩ := r
  obtain ⟨rfl, hgap⟩ := h
  obtain ⟨hemptied, hnegative⟩ := hgap.beforeParen
  refine .char fun place => ?_
  rw [CharClass.of_opening, step_extending .incomplete hgap.scientific ?_,
    readPlain_opening, hnegative]
  · exact ⟨_, rfl, place, _, _, rfl, by simp, hemptied⟩
  · rintro caret p outer rest rfl
    obtain rfl : p = .incomplete := hawaits
    exact ⟨rfl, by simp⟩

/-- A parenthesis without a minus sign directly behind a term. -/
theorem AtTerm.leads_opening (hsettled : IsSettled frames) (h : r.AtTerm frames nodes) :
    r.Leads relations ['('] (Opened frames nodes false) := by
  obtain ⟨level, hclose, hpast⟩ := h.closes
  rw [closeExponents_of_isSettled hsettled] at hclose
  obtain ⟨hemptied, hnegative⟩ := hpast.beforeParen
  refine .char fun place => ?_
  rw [CharClass.of_opening, step_ending h.complete rfl hclose hpast.scientific, readPlain_opening,
    hnegative]
  exact ⟨_, rfl, place, _, _, rfl, rfl, hemptied⟩

theorem AtRest.leads_closing {place : Nat} {negative : Bool} {outer : Level} {body : List Node}
    (h : r.AtRest (⟨.bracket place negative, outer⟩ :: frames) body) (hne : body ≠ [])
    (houter : outer.Emptied nodes) :
    r.Leads relations [')'] fun r' => r'.frames = continued .complete frames ∧
      r'.level.Raisable nodes fun power => .paren body power negative := by
  obtain ⟨level, hclose, hholds⟩ := h.closes
  refine .char fun place' => ?_
  rw [CharClass.of_closing, step_ending h.complete rfl hclose hholds.scientific]
  refine ⟨⟨outer.addParen body negative, completeExponent frames⟩, ?_, completeExponent_eq frames,
    houter.raisable_addParen body negative⟩
  simp [readPlain, closeBracket, hholds.finish, bind, Except.bind, pure, Except.pure, hne]

/-- The closing bracket of an exponent. -/
theorem AtRest.leads_closingExponent {caret : Nat} {outer : Level} {power : List Node}
    {term : List Node → Node}
    (h : r.AtRest (⟨.bracketExponent caret, outer.leaveFraction⟩ :: frames) power)
    (hne : power ≠ []) (houter : outer.Raisable nodes term) :
    r.Leads relations [')'] fun r' => r'.frames = continued .complete frames ∧
      r'.level.PastTerm (nodes ++ [term power]) ∧ r'.level.IsRaised := by
  obtain ⟨level, hclose, hholds⟩ := h.closes
  obtain ⟨raised, hraise, hraised⟩ := houter.raise caret power hne
  refine .char fun place' => ?_
  rw [CharClass.of_closing, step_ending h.complete rfl hclose hholds.scientific]
  refine ⟨⟨raised, completeExponent frames⟩, ?_, completeExponent_eq frames, hraised⟩
  simp [readPlain, closeBracket, hholds.finish, bind, Except.bind, pure, Except.pure, hraise]

/-- A caret begins an exponent, wherever it stands. -/
theorem leads_caret {level : Level} (h : level.scientific = none) :
    (⟨level, frames⟩ : Reader).Leads relations ['^'] fun r' => ∃ caret, r' =
      ⟨Level.blank, ⟨.exponent caret .nothing, level.leaveFraction⟩ ::
        continued .incomplete frames⟩ := by
  refine .char fun place => ?_
  rw [CharClass.of_caret, step_extending .incomplete h
    fun _ p _ _ _ => ⟨by cases p <;> rfl, by simp⟩]
  exact ⟨_, rfl, place, rfl⟩

/-- A bracket right behind the caret holds the exponent together. -/
theorem leads_openingExponent {caret : Nat} {level outer : Level} :
    (⟨level, ⟨.exponent caret .nothing, outer⟩ :: frames⟩ : Reader).Leads relations ['(']
      fun r' => r' = ⟨level, ⟨.bracketExponent caret, outer⟩ :: frames⟩ :=
  .char fun _ => ⟨_, rfl, rfl⟩

end

end Reader

end OneUnknown
