import OneUnknown.Proofs.Following
/-!
# The states that the reader goes through

What always holds while a text is read: as long as nothing of a term has been read there is at most
its sign, and that has just been read; a level that waits for a bracket to end has no term half read,
and none that waits reads scientific notation; and an exponent that may still turn out to have
brackets is blank.

* `Level.IsSound`, `Frame.IsSound`, `Reader.IsSound`: what always holds;
* `Reader.IsSound.step`, `Reader.IsSound.readFrom`: it is kept by a character and by a text.
-/

namespace OneUnknown

/-! ## Levels -/

/-- What always holds of a level. -/
structure Level.IsSound (l : Level) : Prop where
  /-- If nothing of a term has been read, there is at most its sign. -/
  untouched : l.draft.touched = false → l.draft = Draft.blank.withSign l.draft.negative
  /-- That sign has just been read. -/
  signed : l.draft.touched = false → l.draft.negative = true → l.last = .negation
  /-- Behind an operator, a relation or a sign nothing of the next term has been read. -/
  between : l.last.endsTerm = false → l.draft.touched = false
  /-- The mantissa of scientific notation has been set aside. -/
  scientific : l.scientific ≠ none → l.draft = Draft.blank ∧ l.last = .term

namespace Level

variable {l l' : Level} {place caret : Nat} {power : List Node}

theorem isSound_blank : blank.IsSound := ⟨fun _ => rfl, nofun, fun _ => rfl, nofun⟩

/-- Where a level has no sign pending and nothing of the next term, its draft is blank. -/
theorem IsSound.draft_eq_blank (h : l.IsSound) (htouched : l.draft.touched = false)
    (hlast : l.last ≠ .negation) : l.draft = Draft.blank := by
  have hnegative : l.draft.negative = false := by
    by_contra hnegative
    exact hlast (h.signed htouched (by simpa using hnegative))
  rw [h.untouched htouched, hnegative]
  rfl

/-- A level in which there is nothing of the next term. -/
theorem isSound_of_blank (hdraft : l.draft = Draft.blank)
    (hscientific : l.scientific ≠ none → l.last = .term) : l.IsSound where
  untouched := fun _ => hdraft ▸ rfl
  signed := fun _ hnegative => by simp [hdraft, Draft.negative, Draft.blank, Number.zero,
    Number.ofNat] at hnegative
  between := fun _ => hdraft ▸ rfl
  scientific := fun h => ⟨hdraft, hscientific h⟩

/-- A level in which some of a term has been read. -/
theorem isSound_of_touched (htouched : l.draft.touched = true) (hlast : l.last.endsTerm = true)
    (hscientific : l.scientific = none) : l.IsSound where
  untouched := fun h => by simp [htouched] at h
  signed := fun h => by simp [htouched] at h
  between := fun h => by simp [hlast] at h
  scientific := fun h => absurd hscientific h

theorem IsSound.finishScientific (h : l.IsSound) (hl : l.finishScientific = .ok l') :
    l'.IsSound := by
  rcases finishScientific_cases hl with ⟨-, rfl⟩ | ⟨s, hs, -, rfl⟩
  · exact h
  · exact isSound_of_blank (h.scientific (by simp [hs])).1 nofun

theorem IsSound.leaveFraction (h : l.IsSound) : l.leaveFraction.IsSound where
  untouched := fun ht => by
    rw [Level.leaveFraction]
    dsimp only
    rw [h.untouched ht]
    rfl
  signed := h.signed
  between := h.between
  scientific := fun hs => by
    obtain ⟨hdraft, hlast⟩ := h.scientific hs
    exact ⟨by rw [Level.leaveFraction, hdraft]; rfl, hlast⟩

theorem touched_addDigit (d : Draft) (digit : Nat) : (d.addDigit digit).touched = true := by
  unfold Draft.addDigit
  split <;> rfl

theorem touched_setLetter (d : Draft) (name : Char) : (d.setLetter name).touched = true := by
  unfold Draft.setLetter
  split <;> rfl

theorem isSound_readDigit {value : Nat} (hs : l.scientific = none)
    (hl : l.readDigit place value = .ok l') : l'.IsSound ∧ l'.scientific = none := by
  obtain ⟨-, ⟨-, rfl⟩ | ⟨-, rfl⟩⟩ := readDigit_cases hl
  all_goals exact ⟨isSound_of_touched (touched_addDigit _ _) rfl hs, hs⟩

theorem isSound_readPoint (hs : l.scientific = none) (hl : l.readPoint place = .ok l') :
    l'.IsSound ∧ l'.scientific = none := by
  obtain ⟨-, rfl⟩ := readPoint_eq_ok hl
  exact ⟨isSound_of_touched rfl rfl hs, hs⟩

theorem isSound_readLetter {name : Char} (hs : l.scientific = none)
    (hl : l.readLetter place name = .ok l') : l'.IsSound ∧ l'.scientific = none := by
  obtain ⟨-, ⟨-, -, rfl⟩ | ⟨-, rfl⟩⟩ := readLetter_cases hl
  all_goals exact ⟨isSound_of_touched (touched_setLetter _ _) rfl hs, hs⟩

theorem isSound_readScientific (hl : l.readScientific place = .ok l') : l'.IsSound := by
  obtain ⟨mantissa, -, rfl⟩ := readScientific_eq_ok hl
  exact isSound_of_blank rfl fun _ => rfl

/-- Behind a minus sign there is nothing but the sign of the next term. -/
theorem IsSound.readMinus (h : l.IsSound) (hs : l.scientific = none) :
    l.readMinus = ⟨l.flush.emitted, Draft.blank.withSign (l.last.endsTerm || !l.draft.negative),
      .negation, none⟩ := by
  rw [Level.readMinus]
  split
  · rename_i hlast
    simp [hlast, flush, hs]
  · rename_i hlast
    have htouched := h.between (by simpa using hlast)
    simp only [hlast, hs, flush, Draft.group?, htouched]
    rw [h.untouched htouched]
    rfl

theorem isSound_negation (emitted : List Node) (negative : Bool) :
    IsSound ⟨emitted, Draft.blank.withSign negative, .negation, none⟩ :=
  ⟨fun _ => rfl, fun _ _ => rfl, fun _ => rfl, nofun⟩

/-- The level around a parenthesis waits for it with nothing else pending. -/
theorem IsSound.beforeParen (h : l.IsSound) : l.beforeParen.1.draft = Draft.blank := by
  unfold Level.beforeParen
  split
  · rfl
  · rename_i htouched
    dsimp only
    rw [h.untouched (by simpa using htouched)]
    rfl

theorem scientific_beforeParen : l.beforeParen.1.scientific = l.scientific := by
  unfold Level.beforeParen
  split <;> rfl

theorem isSound_raise (h : l.IsSound) (hs : l.scientific = none)
    (hl : l.raise caret power = .ok l') :
    l'.IsSound ∧ l'.scientific = none ∧ l'.last = .term ∧
      (l'.draft.touched = true → l'.draft.power ≠ []) := by
  obtain ⟨hpower, ⟨htouched, -, rfl⟩ | ⟨htouched, -, hlast, before, hraised⟩⟩ := raise_cases hl
  · exact ⟨isSound_of_touched htouched rfl hs, hs, rfl, fun _ => hpower⟩
  · have hkept (emitted : List Node) : IsSound { l with emitted } ∧ l.scientific = none ∧
        l.last = .term ∧ (l.draft.touched = true → l.draft.power ≠ []) :=
      ⟨⟨h.untouched, h.signed, h.between, h.scientific⟩, hs, hlast,
        fun ht => by simp [htouched] at ht⟩
    rcases hraised with ⟨v, n, -, rfl⟩ | ⟨body, negative, -, rfl⟩ <;> exact hkept _

end Level

/-! ## The reader -/

/-- What always holds of a level that waits. -/
structure Frame.IsSound (frame : Frame) : Prop where
  outer : frame.outer.IsSound
  scientific : frame.outer.scientific = none
  bracket : ∀ place negative, frame.opening = .bracket place negative →
    frame.outer.draft = Draft.blank

/-- An exponent goes on, or turns out to have brackets around it. -/
theorem Frame.IsSound.reopened {opening opening' : Opening} {outer : Level}
    (h : Frame.IsSound ⟨opening, outer⟩)
    (hopening : ∀ place negative, opening' ≠ .bracket place negative) :
    Frame.IsSound ⟨opening', outer⟩ :=
  ⟨h.outer, h.scientific, fun place negative heq => absurd heq (hopening place negative)⟩

/-- Of an exponent without brackets that may still turn out to have them, nothing has been read. -/
def IsBegun (level : Level) : List Frame → Prop
  | ⟨.exponent _ .nothing, _⟩ :: _ => level = Level.blank
  | _ => True

theorem IsSettled.isBegun {frames : List Frame} (h : IsSettled frames) (level : Level) :
    IsBegun level frames := by
  rcases frames with _ | ⟨⟨_ | _ | _, _⟩, _⟩
  case cons.exponent => cases h
  all_goals trivial

theorem isBegun_continued {progress : Progress} (h : progress ≠ .nothing) (level : Level)
    (frames : List Frame) : IsBegun level (continued progress frames) := by
  rcases frames with _ | ⟨⟨_ | _ | _, _⟩, _⟩
  case cons.exponent => cases progress <;> trivial
  all_goals trivial

/-- Only blanks leave an exponent as it is that has not begun. -/
theorem Progress.extend?_eq_nothing {progress : Progress} {cls : CharClass}
    (h : progress.extend? cls = some .nothing) : progress = .nothing ∧ cls = .blank := by
  cases progress <;> cases cls <;> first | exact ⟨rfl, rfl⟩ | cases h

/-- What always holds of the reader. -/
structure Reader.IsSound (r : Reader) : Prop where
  level : r.level.IsSound
  frames : ∀ frame ∈ r.frames, frame.IsSound
  begun : IsBegun r.level r.frames

namespace Reader

variable {relations : Bool} {place : Nat} {level : Level} {frames : List Frame} {cls : CharClass}
  {r r' : Reader}

theorem isSound_start : start.IsSound := ⟨Level.isSound_blank, by simp [start], trivial⟩

theorem isSound_continued {progress : Progress} (h : ∀ frame ∈ frames, frame.IsSound) :
    ∀ frame ∈ continued progress frames, frame.IsSound := by
  rcases frames with _ | ⟨⟨_ | _ | _, _⟩, _⟩
  case cons.exponent =>
    rw [List.forall_mem_cons] at h
    exact List.forall_mem_cons.2 ⟨h.1.reopened (by simp), h.2⟩
  all_goals exact h

theorem isSound_closeExponents (hlevel : level.IsSound) (hframes : ∀ frame ∈ frames, frame.IsSound)
    (h : closeExponents level frames = .ok r) : r.IsSound := by
  replace h := ExponentsClosed.of_closeExponents h
  induction h with
  | settled hsettled => exact ⟨hlevel, hframes, hsettled.isBegun _⟩
  | exponent _ hraised _ ih =>
    rw [List.forall_mem_cons] at hframes
    exact ih (Level.isSound_raise hframes.1.outer hframes.1.scientific hraised).1 hframes.2

/-- Behind a closing bracket there is a term: what is being put together has its exponent
already. -/
theorem isSound_closeBracket (hframes : ∀ frame ∈ frames, frame.IsSound)
    (h : closeBracket place level frames = .ok r) :
    r.IsSound ∧ r.level.scientific = none ∧ r.level.last = .term ∧
      (r.level.draft.touched = true → r.level.draft.power ≠ []) := by
  rcases closeBracket_cases h with ⟨opened, negative, outer, rest, body, rfl, -, -, rfl⟩ |
    ⟨caret, outer, rest, power, raised, rfl, -, hraised, rfl⟩
  all_goals rw [completeExponent_eq]
  · rw [List.forall_mem_cons] at hframes
    have hdraft : (outer.addParen body negative).draft = Draft.blank :=
      hframes.1.bracket opened negative rfl
    have hsound := Level.isSound_of_blank hdraft fun _ => rfl
    refine ⟨⟨hsound, isSound_continued hframes.2, isBegun_continued (by simp) _ _⟩,
      hframes.1.scientific, rfl, fun htouched => ?_⟩
    rw [hdraft] at htouched
    cases htouched
  · rw [List.forall_mem_cons] at hframes
    obtain ⟨hsound, hraised⟩ :=
      Level.isSound_raise hframes.1.outer hframes.1.scientific hraised
    exact ⟨⟨hsound, isSound_continued hframes.2, isBegun_continued (by simp) _ _⟩, hraised⟩

/-- A character that is read at a level, of an exponent perhaps, where one that has brackets would
begin with another. -/
theorem isSound_readPlain (hlevel : level.IsSound) (hscientific : level.scientific = none)
    (hframes : ∀ frame ∈ frames, frame.IsSound) (hbegun : IsBegun level frames)
    (hblank : cls ≠ .blank → ∀ level, IsBegun level frames)
    (h : readPlain relations place level frames cls = .ok r) : r.IsSound := by
  have hgap {l : Level} (hdraft : l.draft = Draft.blank) (hl : l.scientific = none) :
      l.IsSound := Level.isSound_of_blank hdraft fun hs => absurd hl hs
  cases PlainRead.of_readPlain h with
  | digit hread =>
    exact ⟨(Level.isSound_readDigit hscientific hread).1, hframes, hblank (by simp) _⟩
  | point hread =>
    exact ⟨(Level.isSound_readPoint hscientific hread).1, hframes, hblank (by simp) _⟩
  | letter hread =>
    have hleft : level.leaveFraction.scientific = none := hscientific
    exact ⟨(Level.isSound_readLetter hleft hread).1, hframes, hblank (by simp) _⟩
  | scientific hread =>
    exact ⟨Level.isSound_readScientific hread, hframes, hblank (by simp) _⟩
  | blank =>
    refine ⟨hlevel.leaveFraction, hframes, ?_⟩
    unfold IsBegun at hbegun ⊢
    split at hbegun
    · rw [hbegun]
      rfl
    · trivial
  | minus =>
    refine ⟨?_, hframes, hblank (by simp) _⟩
    rw [hlevel.leaveFraction.readMinus hscientific]
    exact Level.isSound_negation _ _
  | operator | relation => exact ⟨hgap rfl hscientific, hframes, hblank (by simp) _⟩
  | opening =>
    have hdraft := hlevel.leaveFraction.beforeParen
    have houter : level.leaveFraction.beforeParen.1.scientific = none :=
      Level.scientific_beforeParen.trans hscientific
    exact ⟨Level.isSound_blank, List.forall_mem_cons.2
      ⟨⟨hgap hdraft houter, houter, fun _ _ _ => hdraft⟩, hframes⟩, trivial⟩
  | closing hclosed => exact (isSound_closeBracket hframes hclosed).1
  | caret =>
    exact ⟨Level.isSound_blank, List.forall_mem_cons.2
      ⟨⟨hlevel.leaveFraction, hscientific, by simp⟩, hframes⟩, rfl⟩

theorem isSound_readAtLevel (hlevel : level.IsSound) (hframes : ∀ frame ∈ frames, frame.IsSound)
    (hbegun : IsBegun level frames) (hblank : cls ≠ .blank → ∀ level, IsBegun level frames)
    (h : readAtLevel relations place level frames cls = .ok r) : r.IsSound := by
  have hnothing {l : Level} (hl : level.scientific ≠ none) : IsBegun l frames := by
    unfold IsBegun at hbegun ⊢
    split at hbegun
    · exact absurd (hbegun ▸ rfl) hl
    · trivial
  rcases readAtLevel_cases h with ⟨s, s', hs, -, rfl⟩ | ⟨finished, hfinished, hscientific, h⟩
  · have hlast := hlevel.scientific (by simp [hs])
    exact ⟨Level.isSound_of_blank hlast.1 fun _ => hlast.2, hframes, hnothing (by simp [hs])⟩
  · refine isSound_readPlain (hlevel.finishScientific hfinished) hscientific hframes ?_ hblank h
    cases hs : level.scientific with
    | none =>
      rw [Level.finishScientific, hs] at hfinished
      exact Except.ok.inj hfinished ▸ hbegun
    | some s => exact hnothing (by simp [hs])

theorem IsSound.step (hr : r.IsSound) (h : r.step relations place cls = .ok r') : r'.IsSound := by
  rcases step_cases h with ⟨caret, outer, frames, hr', -, rfl⟩ |
    ⟨caret, progress, next, outer, frames, hr', hnext, hopening, h⟩ | ⟨closed, hclosed, h⟩
  · have hframes := hr.frames
    rw [hr', List.forall_mem_cons] at hframes
    exact ⟨hr.level, List.forall_mem_cons.2 ⟨hframes.1.reopened (by simp), hframes.2⟩, trivial⟩
  · obtain ⟨hlevel, hframes, hbegun⟩ := hr
    rw [hr'] at hframes hbegun
    rw [List.forall_mem_cons] at hframes
    have hframe : Frame.IsSound ⟨.exponent caret next, outer⟩ := hframes.1.reopened (by simp)
    refine isSound_readAtLevel hlevel (List.forall_mem_cons.2 ⟨hframe, hframes.2⟩) ?_ ?_ h
    · cases next with
      | nothing =>
        obtain ⟨rfl, -⟩ := Progress.extend?_eq_nothing hnext
        exact hbegun
      | incomplete | complete => trivial
    · intro hcls
      cases next with
      | nothing => exact absurd (Progress.extend?_eq_nothing hnext).2 hcls
      | incomplete | complete => exact fun _ => trivial
  · have hsettled := isSettled_closeExponents hclosed
    have hclosed := isSound_closeExponents hr.level hr.frames hclosed
    exact isSound_readAtLevel hclosed.level hclosed.frames (hsettled.isBegun _)
      (fun _ => hsettled.isBegun) h

theorem IsSound.readFrom {text : List Char} (hr : r.IsSound)
    (h : r.readFrom relations place text = .ok r') : r'.IsSound :=
  readFrom_induction (P := IsSound) IsSound.step hr h

end Reader

end OneUnknown
