import OneUnknown.Proofs.Following
import OneUnknown.Proofs.ReaderStates
import OneUnknown.Proofs.Spans
/-!
# The reader reads by spans

The reader does what reading by spans does, with the levels that wait on its stack in place of the
spans that are not finished.

One part of the text is compared at a time, for all levels that may wait around it and whatever
follows it (`ReadsBySpans`).  `Fits` says what has to be true of these: behind the part a bracket
closes, or the text ends, or the part is all that is left of the exponent that is being read, which
then ends behind it.

* `Reader.readAtLevel_below`, `Reader.readAtLevel_opens`, `Reader.readAtLevel_closing`: what one
  character does to the levels;
* `Reader.readThrough`: reading a text and ending the exponents behind it;
* `Reader.ReadsBySpans.cons`, `.pair`, `.caret`: the ways in which a balanced text begins;
* `Reader.ReadsExponent`, `Reader.readsExponent`: the exponent of a caret;
* `Reader.readsBySpans`, `parseBySpans_eq`: balanced texts, and the whole text.
-/

namespace OneUnknown

/-! ## Computations of the reader -/

section

variable {α β : Type}

@[simp] theorem refusing_ok (a : α) : refusing (.ok a) = .ok a := rfl

@[simp] theorem refusing_error (reason : ParseError) :
    refusing (.error reason : Except ParseError α) = .error (.refused reason) := rfl

@[simp] theorem refusing_eq_ok {x : Except ParseError α} {a : α} :
    refusing x = .ok a ↔ x = .ok a := by
  cases x <;> simp

theorem refusing_bind (x : Except ParseError α) (f : α → Except ParseError β) :
    refusing (x >>= f) = refusing x >>= fun a => refusing (f a) := by
  cases x <;> rfl

end

/-- Ending scientific notation early makes no difference at the end. -/
theorem Level.finish_of_finishScientific {level finished : Level}
    (h : level.finishScientific = .ok finished) : finished.finish = level.finish := by
  have hnone : finished.finishScientific = .ok finished := by
    rcases finishScientific_cases h with ⟨hscientific, rfl⟩ | ⟨s, -, -, rfl⟩
    · rw [finishScientific, hscientific]
    · rfl
  rw [finish, finish, h, hnone]

namespace Reader

variable {relations : Bool} {place : Nat} {level : Level} {frames : List Frame} {cls : CharClass}

/-! ## One character -/

/-- The levels around the one that is being read are left alone, unless a bracket closes.  They only
matter for relations, which are read at the outermost level. -/
theorem readAtLevel_below (hcls : cls ≠ .closing) :
    readAtLevel relations place level frames cls =
      (readAtLevel (relations && frames.isEmpty) place level [] cls).map fun r =>
        ⟨r.level, r.frames ++ frames⟩ := by
  have hplain (level : Level) : readPlain relations place level frames cls =
      (readPlain (relations && frames.isEmpty) place level [] cls).map fun r =>
        ⟨r.level, r.frames ++ frames⟩ := by
    cases cls with
    | closing => exact absurd rfl hcls
    | digit value => rw [readPlain, readPlain]; cases level.readDigit place value <;> rfl
    | point => rw [readPlain, readPlain]; cases level.readPoint place <;> rfl
    | letter name =>
      rw [readPlain, readPlain]; cases level.leaveFraction.readLetter place name <;> rfl
    | scientific => rw [readPlain, readPlain]; cases level.readScientific place <;> rfl
    | relation rel =>
      rw [readPlain, readPlain]
      cases relations <;> cases frames <;> rfl
    | _ => rfl
  unfold readAtLevel
  split
  · exact hplain level
  · rename_i s hs
    cases s.read? place cls with
    | error reason => rfl
    | ok next =>
      cases next with
      | some s' => rfl
      | none =>
        cases level.finishScientific with
        | error reason => rfl
        | ok finished => exact hplain finished

/-- The level that a character opens, if it does. -/
theorem readAtLevel_opens {r : Reader} (hcls : cls ≠ .closing)
    (h : readAtLevel relations place level [] cls = .ok r) :
    (cls = .opening ∧ ∃ negative outer, r = ⟨Level.blank, [⟨.bracket place negative, outer⟩]⟩) ∨
    (cls = .caret ∧ ∃ outer, r = ⟨Level.blank, [⟨.exponent place .nothing, outer⟩]⟩) ∨
    (cls ≠ .opening ∧ cls ≠ .caret ∧ r.frames = []) := by
  rcases readAtLevel_cases h with ⟨s, s', -, hread, rfl⟩ | ⟨finished, -, -, hplain⟩
  · refine .inr (.inr ⟨?_, ?_, rfl⟩) <;> rintro rfl <;> cases hread
  · cases cls with
    | closing => exact absurd rfl hcls
    | opening =>
      obtain rfl := Except.ok.inj hplain
      exact .inl ⟨rfl, _, _, rfl⟩
    | caret =>
      obtain rfl := Except.ok.inj hplain
      exact .inr (.inl ⟨rfl, _, rfl⟩)
    | digit | point | letter | scientific =>
      obtain ⟨level', -, hplain⟩ := Except.bind_eq_ok.1 hplain
      obtain rfl := Except.pure_eq_ok.1 hplain
      exact .inr (.inr ⟨by simp, by simp, rfl⟩)
    | relation rel =>
      rw [readPlain] at hplain
      split at hplain
      · obtain rfl := Except.ok.inj hplain
        exact .inr (.inr ⟨by simp, by simp, rfl⟩)
      · cases hplain
    | exclamation => cases hplain
    | blank | minus | operator =>
      obtain rfl := Except.ok.inj hplain
      exact .inr (.inr ⟨by simp, by simp, rfl⟩)

theorem closeBracket_eq {frame : Frame} (hframe : frame.opening.isBracket = true) :
    closeBracket place level (frame :: frames) = (do
      let nodes ← level.finish
      let outer ← frame.outer.enclose nodes frame.opening
      return ⟨outer, completeExponent frames⟩) := by
  obtain ⟨opening, outer⟩ := frame
  cases opening with
  | exponent => cases hframe
  | bracketExponent => rfl
  | bracket opened negative =>
    rw [closeBracket]
    cases level.finish with
    | error reason => rfl
    | ok nodes =>
      by_cases hnodes : nodes = []
      · simp [Level.enclose, hnodes, bind, Except.bind]
      · simp [Level.enclose, hnodes, bind, Except.bind]

/-- A bracket that closes gives the nodes that it encloses to the level around it. -/
theorem readAtLevel_closing {frame : Frame} (hframe : frame.opening.isBracket = true) :
    readAtLevel relations place level (frame :: frames) .closing = (do
      let nodes ← level.finish
      let outer ← frame.outer.enclose nodes frame.opening
      return ⟨outer, completeExponent frames⟩) := by
  rw [← closeBracket_eq hframe]
  unfold readAtLevel
  split
  · rfl
  · rename_i s hs
    -- Scientific notation ends first, and has ended when the level does.
    have hfinish : (level.finishScientific >>= fun finished =>
        closeBracket place finished (frame :: frames)) =
          closeBracket place level (frame :: frames) := by
      simp only [closeBracket_eq hframe]
      cases hfinished : level.finishScientific with
      | error reason => rw [Level.finish, hfinished]; rfl
      | ok finished => rw [← Level.finish_of_finishScientific hfinished]; rfl
    exact hfinish

/-- Ending an exponent gives its nodes to the level around it. -/
theorem closeExponents_exponent {caret : Nat} {progress : Progress} {outer : Level} :
    closeExponents level (⟨.exponent caret progress, outer⟩ :: frames) = (do
      let nodes ← level.finish
      let outer ← outer.enclose nodes (.exponent caret progress)
      closeExponents outer frames) := rfl

/-! ## Texts -/

/-- Read a text, and end the exponents that are being read behind it. -/
def readThrough (relations : Bool) (place : Nat) (r : Reader) (text : List Char) :
    Except ParseError Reader := do
  let r ← r.readFrom relations place text
  closeExponents r.level r.frames

theorem readThrough_cons (r : Reader) (c : Char) (text : List Char) :
    readThrough relations place r (c :: text) = (do
      let r ← r.step relations place (CharClass.of c)
      readThrough relations (place + 1) r text) := by
  simp [readThrough, readFrom]

/-- Where nothing more belongs to the exponent that is being read, it ends. -/
theorem readThrough_ended {tail : List Char} (hends : ∀ caret p outer rest,
      frames = ⟨.exponent caret p, outer⟩ :: rest → p.StopsAt tail) :
    readThrough relations place ⟨level, frames⟩ tail = (do
      let r ← closeExponents level frames
      readThrough relations place r tail) := by
  by_cases hsettled : IsSettled frames
  · rw [closeExponents_of_isSettled hsettled]
    rfl
  · rcases frames with _ | ⟨⟨_ | _ | ⟨caret, p⟩, outer⟩, rest⟩
    case cons.exponent =>
      cases tail with
      | nil =>
        show closeExponents level _ = _
        cases hclosed : closeExponents level (⟨.exponent caret p, outer⟩ :: rest) with
        | error reason => rfl
        | ok r => exact (closeExponents_of_isSettled (isSettled_closeExponents hclosed) r.level).symm
      | cons c tail =>
        have hnone := hends caret p outer rest rfl c rfl
        have hopening : ¬ (p = .nothing ∧ CharClass.of c = .opening) := by
          rintro ⟨rfl, hopening⟩
          rw [hopening] at hnone
          cases hnone
        rw [readThrough_cons, step]
        simp only [if_neg hopening, hnone]
        cases hclosed : closeExponents level (⟨.exponent caret p, outer⟩ :: rest) with
        | error reason => rfl
        | ok r =>
          show _ = readThrough relations place r (c :: tail)
          rw [readThrough_cons, step_of_isSettled (isSettled_closeExponents hclosed)]
          rfl
    all_goals exact absurd trivial hsettled

/-- Exponents that have ended already make no difference at the end of the text. -/
theorem finish_readThrough (r : Reader) (text : List Char) :
    (do
      let r ← readThrough relations place r text
      r.finish) = (do
      let r ← r.readFrom relations place text
      r.finish) := by
  rw [readThrough, bind_assoc]
  refine bind_congr fun r => ?_
  cases hclosed : closeExponents r.level r.frames with
  | error reason => rw [finish, hclosed]; rfl
  | ok r' =>
    show r'.finish = r.finish
    rw [finish, finish, hclosed, closeExponents_of_isSettled (isSettled_closeExponents hclosed)]

/-! ## Frames that a text fits -/

/-- A text can be read at these frames as a whole, with something behind it: either the level ends
with a bracket behind the text, or the text is what is left of the exponent that is being read. -/
inductive Fits : List Frame → List Char → List Char → Prop where
  | settled {frames : List Frame} {text tail : List Char} (h : IsSettled frames)
      (htail : ∀ c ∈ tail.head?, CharClass.of c = .closing) : Fits frames text tail
  | exponent {caret : Nat} {p q : Progress} {outer : Level} {frames : List Frame}
      {text tail : List Char} (hp : p ≠ .nothing) (hruns : p.Runs text q)
      (hstops : q.StopsAt tail) : Fits (⟨.exponent caret p, outer⟩ :: frames) text tail

namespace Fits

variable {text tail inner after : List Char} {c opening closing : Char}

theorem readThrough_nil (h : Fits frames [] tail) :
    readThrough relations place ⟨level, frames⟩ tail = (do
      let r ← closeExponents level frames
      readThrough relations place r tail) := by
  refine readThrough_ended fun caret p outer rest hframes => ?_
  cases h with
  | settled h =>
    rw [hframes] at h
    cases h
  | exponent hp hruns hstops =>
    obtain ⟨⟨⟨rfl, rfl⟩, rfl⟩, rfl⟩ : ((_ ∧ _) ∧ _) ∧ _ := by simpa using hframes
    cases hruns
    exact hstops

/-- A character of the text goes to the level, and the rest of the text fits. -/
theorem cons (h : Fits frames (c :: text) tail) (hc : CharClass.of c ≠ .opening) :
    ∃ next, (CharClass.of c = .caret → next = .incomplete) ∧ Fits (continued next frames) text tail ∧
      ∀ relations place level, step relations place ⟨level, frames⟩ (CharClass.of c) =
        readAtLevel relations place level (continued next frames) (CharClass.of c) := by
  cases h with
  | settled h htail =>
    refine ⟨.incomplete, fun _ => rfl, ?_,
      fun _ _ _ => step_continued fun caret p outer rest hframes => ?_⟩
    · rw [h.continued_eq]
      exact .settled h htail
    · rw [hframes] at h
      cases h
  | @exponent caret p q outer frames _ _ hp hruns hstops =>
    cases hruns with
    | @char _ _ _ next _ _ hnext hrest =>
      refine ⟨next, fun hcaret => ?_, .exponent (fun hnothing => hp ?_) hrest hstops,
        fun _ _ _ => step_continued fun caret' p' outer' rest hframes => ?_⟩
      · rw [hcaret] at hnext
        exact (Option.some.inj hnext).symm
      · subst hnothing
        exact (Progress.extend?_eq_nothing hnext).1
      · obtain ⟨⟨⟨rfl, rfl⟩, rfl⟩, rfl⟩ : ((_ ∧ _) ∧ _) ∧ _ := by simpa using hframes
        exact ⟨hnext, fun hboth => hp hboth.1⟩
    | pair hpair => exact absurd (CharClass.of_eq_opening hpair) hc

/-- The opening bracket of a parenthesis, and what follows the parenthesis. -/
theorem pair (hpair : closingBracket? opening = some closing) (hinner : Balanced inner)
    (h : Fits frames (opening :: (inner ++ closing :: after)) tail) :
    Fits (completeExponent frames) after tail ∧
      ∀ relations place level, step relations place ⟨level, frames⟩ .opening =
        readAtLevel relations place level (continued .incomplete frames) .opening := by
  cases h with
  | settled h htail =>
    refine ⟨?_, fun _ _ _ => step_continued fun caret p outer rest hframes => ?_⟩
    · rw [completeExponent_eq, h.continued_eq]
      exact .settled h htail
    · rw [hframes] at h
      cases h
  | @exponent caret p q outer frames _ _ hp hruns hstops =>
    refine ⟨.exponent (by simp) (hruns.of_pair hpair hinner).2 hstops,
      fun _ _ _ => step_continued fun caret' p' outer' rest hframes => ?_⟩
    obtain ⟨⟨⟨rfl, rfl⟩, rfl⟩, rfl⟩ : ((_ ∧ _) ∧ _) ∧ _ := by simpa using hframes
    exact ⟨(hruns.of_pair hpair hinner).1, fun hboth => hp hboth.1⟩

end Fits

/-! ## Spans -/

/-- The text is read as a part of a span, whatever waits for its end and stands behind it. -/
def ReadsBySpans (pairs : List (Nat × Nat)) (text : List Char) : Prop :=
  ∀ relations place level frames tail, Records pairs place text → Fits frames text tail →
    refusing (readThrough relations place ⟨level, frames⟩ (text ++ tail)) = (do
      let level ← scanSpan pairs (relations && frames.isEmpty) place level text
      refusing (do
        let r ← closeExponents level frames
        readThrough relations (place + text.length) r tail))

@[simp] theorem isEmpty_continued (progress : Progress) (frames : List Frame) :
    (continued progress frames).isEmpty = frames.isEmpty := by
  rcases frames with _ | ⟨⟨_ | _ | _, _⟩, _⟩ <;> rfl

section

variable {pairs : List (Nat × Nat)} {text inner after : List Char} {c opening closing : Char}

theorem readsBySpans_nil (pairs : List (Nat × Nat)) : ReadsBySpans pairs [] := by
  intro relations place level frames tail _ hfits
  rw [List.nil_append, hfits.readThrough_nil, scanSpan]
  rfl

/-- A character that opens no level. -/
theorem ReadsBySpans.cons (hc : IsNoBracket c) (hcaret : CharClass.of c ≠ .caret)
    (h : ReadsBySpans pairs text) : ReadsBySpans pairs (c :: text) := by
  intro relations place level frames tail hrecords hfits
  obtain ⟨next, -, hfits, hstep⟩ := hfits.cons hc.ne_opening
  have hrest : Records pairs (place + 1) text := Records.of_append [c] [] (by simpa using hrecords)
  rw [List.cons_append, readThrough_cons, hstep, readAtLevel_below hc.ne_closing, isEmpty_continued,
    scanSpan]
  cases hread : readAtLevel (relations && frames.isEmpty) place level [] (CharClass.of c) with
  | error reason => rfl
  | ok r =>
    obtain ⟨level', frames'⟩ := r
    obtain rfl : frames' = [] := by
      rcases readAtLevel_opens hc.ne_closing hread with ⟨hopening, -⟩ | ⟨hcaret', -⟩ | ⟨-, -, hnone⟩
      · exact absurd hopening hc.ne_opening
      · exact absurd hcaret' hcaret
      · exact hnone
    have := h relations (place + 1) level' (continued next frames) tail hrest hfits
    rw [isEmpty_continued, Nat.add_right_comm] at this
    simp only [closeExponents_continued] at this
    exact this

/-- What stands in brackets is read as a span, and what follows the brackets at the level around
it. -/
theorem ReadsBySpans.readThrough_inside {frame : Frame} (hinner : ReadsBySpans pairs inner)
    (hrecords : Records pairs place inner) (hframe : frame.opening.isBracket = true)
    (hclosing : isClosingBracket closing = true) (after : List Char) :
    refusing (readThrough relations place ⟨Level.blank, frame :: frames⟩
        (inner ++ closing :: after)) = (do
      let level ← scanSpan pairs false place Level.blank inner
      let nodes ← refusing level.finish
      let level ← refusing (frame.outer.enclose nodes frame.opening)
      refusing (readThrough relations (place + inner.length + 1)
        ⟨level, completeExponent frames⟩ after)) := by
  have hsettled : IsSettled (frame :: frames) := by
    obtain ⟨_ | _ | _, _⟩ := frame
    case exponent => cases hframe
    all_goals trivial
  rw [hinner relations place Level.blank (frame :: frames) (closing :: after) hrecords
    (.settled hsettled (by simpa using CharClass.of_eq_closing hclosing))]
  simp only [closeExponents_of_isSettled hsettled, List.isEmpty_cons, Bool.and_false]
  refine bind_congr fun level => ?_
  show refusing (readThrough relations _ ⟨level, frame :: frames⟩ (closing :: after)) = _
  rw [readThrough_cons, step_of_isSettled hsettled, CharClass.of_eq_closing hclosing,
    readAtLevel_closing hframe]
  simp only [refusing_bind, bind_assoc]
  rfl

/-- What follows a parenthesis is read at the level around it. -/
theorem ReadsBySpans.readThrough_behind {tail : List Char} (h : ReadsBySpans pairs after)
    (hrecords : Records pairs place (opening :: (inner ++ closing :: after)))
    (hfits : Fits (completeExponent frames) after tail) (relations : Bool) (level : Level) :
    refusing (readThrough relations (place + 1 + inner.length + 1)
        ⟨level, completeExponent frames⟩ (after ++ tail)) = (do
      let level ← scanSpan pairs (relations && frames.isEmpty) (place + (inner.length + 2)) level after
      refusing (do
        let r ← closeExponents level frames
        readThrough relations (place + (opening :: (inner ++ closing :: after)).length) r tail)) := by
  have hplace : place + 1 + inner.length + 1 = place + (inner.length + 2) := by omega
  have hend : place + (inner.length + 2) + after.length =
      place + (opening :: (inner ++ closing :: after)).length := by
    simp
    omega
  rw [hplace, h relations _ level _ tail hrecords.behind_pair hfits, hend, completeExponent_eq]
  simp only [isEmpty_continued, closeExponents_continued]

/-- A parenthesis. -/
theorem ReadsBySpans.pair (hpair : closingBracket? opening = some closing) (hinner : Balanced inner)
    (hafter : Balanced after) (h : ReadsBySpans pairs inner) (h' : ReadsBySpans pairs after) :
    ReadsBySpans pairs (opening :: (inner ++ closing :: after)) := by
  intro relations place level frames tail hrecords hfits
  obtain ⟨hfits, hstep⟩ := hfits.pair hpair hinner
  rw [List.cons_append, List.append_assoc, List.cons_append, readThrough_cons,
    CharClass.of_eq_opening hpair, hstep, readAtLevel_below (by simp), isEmpty_continued, scanSpan,
    CharClass.of_eq_opening hpair]
  cases hread : readAtLevel (relations && frames.isEmpty) place level [] .opening with
  | error reason => rfl
  | ok r =>
    obtain ⟨negative, outer, rfl⟩ : ∃ negative outer,
        r = ⟨Level.blank, [⟨.bracket place negative, outer⟩]⟩ := by
      rcases readAtLevel_opens (by simp) hread with ⟨-, h⟩ | ⟨hcaret, -⟩ | ⟨hnone, -⟩
      · exact h
      · cases hcaret
      · exact absurd rfl hnone
    show refusing (readThrough relations (place + 1)
        ⟨Level.blank, ⟨.bracket place negative, outer⟩ :: continued .incomplete frames⟩
          (inner ++ closing :: (after ++ tail))) = (do
      let level ← (do
        let p ← bracketPortion pairs place (inner ++ closing :: after)
        let inner ← scanSpan pairs false p.place Level.blank p.span
        let nodes ← refusing inner.finish
        let level ← refusing (outer.enclose nodes (.bracket place negative))
        scanSpan pairs (relations && frames.isEmpty) p.next level p.rest)
      _)
    rw [h.readThrough_inside hrecords.inside_pair rfl (isClosingBracket_of_closes hpair),
      bracketPortion_eq hpair hrecords hinner hafter]
    have hrest := h'.readThrough_behind hrecords hfits relations
    simp only [completeExponent_eq, continued_continued] at hrest ⊢
    simp only [hrest, bind_assoc]
    rfl

/-! ### Exponents -/

/-- A blank in an exponent of which nothing has been read yet. -/
theorem Fits.blank (hawaits : AwaitsTerm frames)
    (hblank : CharClass.of c = .blank) {tail : List Char} (h : Fits frames (c :: text) tail) :
    Fits frames text tail := by
  cases h with
  | settled h htail => exact .settled h htail
  | exponent hp hruns hstops =>
    obtain rfl : _ = Progress.incomplete := hawaits
    cases hruns with
    | char _ hnext hrest =>
      rw [hblank] at hnext
      obtain rfl := Option.some.inj hnext
      exact .exponent hp hrest hstops
    | pair hpair =>
      rw [CharClass.of_eq_opening hpair] at hblank
      cases hblank

/-- What belongs to an exponent that has begun, with the text that fits the levels around it. -/
theorem Fits.exists_runs (hawaits : AwaitsTerm frames)
    (hbalanced : Balanced text) {tail : List Char} (h : Fits frames text tail) :
    ∃ run after q, text = run ++ after ∧ Progress.Runs .incomplete run q ∧ Balanced after ∧
      q.StopsAt (after ++ tail) ∧ (after = [] ∨ IsSettled frames ∧ Fits frames after tail) := by
  cases h with
  | settled h htail =>
    obtain ⟨run, after, q, rfl, hruns, hafter, hstops⟩ := hbalanced.exists_runs .incomplete
    refine ⟨run, after, q, rfl, hruns, hafter, ?_, .inr ⟨h, .settled h htail⟩⟩
    cases after with
    | nil => exact fun c hc => by rw [htail c hc, Progress.extend?_closing]
    | cons => exact hstops
  | @exponent _ p q _ _ _ _ hp hruns hstops =>
    obtain rfl : _ = Progress.incomplete := hawaits
    exact ⟨text, [], q, (List.append_nil text).symm, hruns, .nil, hstops, .inl rfl⟩

/-- Before its first character an exponent goes on as if it had begun. -/
theorem step_nothing {caret : Nat} {outer : Level} (hblank : cls ≠ .blank)
    (hopening : cls ≠ .opening) :
    step relations place ⟨level, ⟨.exponent caret .nothing, outer⟩ :: frames⟩ cls =
      step relations place ⟨level, ⟨.exponent caret .incomplete, outer⟩ :: frames⟩ cls := by
  cases cls with
  | blank => exact absurd rfl hblank
  | opening => exact absurd rfl hopening
  | _ => rfl

/-- The span of an exponent without brackets around it. -/
theorem exponentPortion_run {caret : Nat} {run : List Char} {q : Progress}
    (hblank : CharClass.of c ≠ .blank) (hopening : CharClass.of c ≠ .opening)
    (htext : c :: text = run ++ after) (hruns : Progress.Runs .incomplete run q)
    (hafter : Balanced after) (hstops : q.StopsAt after)
    (hrecords : Records pairs place (run ++ after)) :
    exponentPortion pairs caret place (c :: text) =
      .ok ⟨place, run, place + run.length, after, hruns.balanced, hafter,
        htext ▸ (List.sublist_append_left run after).length_le,
        htext ▸ (List.sublist_append_right run after).length_le⟩ := by
  have hlength : exponentLength pairs place .incomplete (c :: text) = .ok run.length := by
    rw [htext]
    exact exponentLength_eq hruns hafter hstops hrecords
  rw [exponentPortion, if_neg hblank, if_neg hopening, hlength]
  exact Portion.cut_eq (by simp [htext]) (by simp [htext]) hruns.balanced hafter

/-- The text behind a caret is read as the span of an exponent, and what follows that at the level
around it. -/
def ReadsExponent (pairs : List (Nat × Nat)) (text : List Char) : Prop :=
  ∀ relations place caret outer frames tail, AwaitsTerm frames → Records pairs place text →
    Fits frames text tail →
    refusing (readThrough relations place
        ⟨Level.blank, ⟨.exponent caret .nothing, outer⟩ :: frames⟩ (text ++ tail)) = (do
      let p ← exponentPortion pairs caret place text
      let inner ← scanSpan pairs false p.place Level.blank p.span
      let nodes ← refusing inner.finish
      let level ← refusing (outer.raise caret nodes)
      let level ← scanSpan pairs (relations && frames.isEmpty) p.next level p.rest
      refusing (do
        let r ← closeExponents level frames
        readThrough relations (place + text.length) r tail))

/-- An exponent that is missing. -/
theorem readsExponent_nil (pairs : List (Nat × Nat)) : ReadsExponent pairs [] := by
  intro relations place caret outer frames tail hawaits _ hfits
  have hends : Progress.StopsAt .nothing tail := by
    obtain ⟨run, after, q, htext, hruns, -, hstops, -⟩ := hfits.exists_runs hawaits .nil
    obtain ⟨rfl, rfl⟩ := List.append_eq_nil_iff.1 htext.symm
    cases hruns
    intro c hc
    have := hstops c hc
    cases hclass : CharClass.of c <;> rw [hclass] at this <;> first | rfl | cases this
  rw [List.nil_append, readThrough_ended, closeExponents_exponent, exponentPortion]
  · rfl
  · intro caret' p' outer' rest hframes
    obtain ⟨⟨⟨-, rfl⟩, -⟩, -⟩ : ((_ ∧ _) ∧ _) ∧ _ := by simpa using hframes
    exact hends

theorem ReadsExponent.blank (hblank : CharClass.of c = .blank) (h : ReadsExponent pairs text) :
    ReadsExponent pairs (c :: text) := by
  intro relations place caret outer frames tail hawaits hrecords hfits
  have hrest : Records pairs (place + 1) text := Records.of_append [c] [] (by simpa using hrecords)
  have hnext := h relations (place + 1) caret outer frames tail hawaits hrest
    (hfits.blank hawaits hblank)
  rw [Nat.add_right_comm] at hnext
  rw [List.cons_append, readThrough_cons, hblank, exponentPortion, if_pos hblank]
  simp only [bind_assoc]
  exact hnext

/-- An exponent with brackets around it. -/
theorem ReadsExponent.bracket (hpair : closingBracket? opening = some closing)
    (hinner : Balanced inner) (hafter : Balanced after) (h : ReadsBySpans pairs inner)
    (h' : ReadsBySpans pairs after) :
    ReadsExponent pairs (opening :: (inner ++ closing :: after)) := by
  intro relations place caret outer frames tail _ hrecords hfits
  have hopening := CharClass.of_eq_opening hpair
  have hrest := h'.readThrough_behind hrecords (hfits.pair hpair hinner).1 relations
  rw [List.cons_append, List.append_assoc, List.cons_append, readThrough_cons, hopening]
  show refusing (readThrough relations (place + 1)
    ⟨Level.blank, ⟨.bracketExponent caret, outer⟩ :: frames⟩
      (inner ++ closing :: (after ++ tail))) = _
  rw [h.readThrough_inside hrecords.inside_pair rfl (isClosingBracket_of_closes hpair),
    exponentPortion, if_neg (by simp [hopening]), if_pos hopening,
    bracketPortion_eq hpair hrecords hinner hafter]
  simp only [hrest]
  rfl

/-- An exponent without brackets around it. -/
theorem ReadsExponent.run (hblank : CharClass.of c ≠ .blank)
    (hopening : CharClass.of c ≠ .opening) (hbalanced : Balanced (c :: text))
    (ih : ∀ part, Balanced part → part.length ≤ (c :: text).length → ReadsBySpans pairs part) :
    ReadsExponent pairs (c :: text) := by
  intro relations place caret outer frames tail hawaits hrecords hfits
  obtain ⟨run, after, q, htext, hruns, hafter, hstops, hsettled⟩ :=
    hfits.exists_runs hawaits hbalanced
  have hlength : run.length + after.length = (c :: text).length := by
    rw [htext, List.length_append]
  rw [htext] at hrecords
  have hbegun : readThrough relations place
      ⟨Level.blank, ⟨.exponent caret .nothing, outer⟩ :: frames⟩ (c :: text ++ tail) =
        readThrough relations place
          ⟨Level.blank, ⟨.exponent caret .incomplete, outer⟩ :: frames⟩
            (run ++ (after ++ tail)) := by
    rw [← List.append_assoc, ← htext, List.cons_append, readThrough_cons, readThrough_cons,
      step_nothing hblank hopening]
  have hbehind (level : Level) : refusing (do
        let r ← closeExponents level frames
        readThrough relations (place + run.length) r (after ++ tail)) = (do
      let level ← scanSpan pairs (relations && frames.isEmpty) (place + run.length) level after
      refusing (do
        let r ← closeExponents level frames
        readThrough relations (place + (c :: text).length) r tail)) := by
    rcases hsettled with rfl | ⟨hsettled, hfits⟩
    · rw [scanSpan, ← hlength]
      rfl
    · rw [closeExponents_of_isSettled hsettled, ← hlength, ← Nat.add_assoc]
      exact ih after hafter (by omega) relations _ level frames tail
        (Records.of_append run [] (by simpa using hrecords)) hfits
  rw [hbegun, ih run hruns.balanced (by omega) relations place _ _ _
      (Records.of_append [] after hrecords) (.exponent (by simp) hruns hstops),
    exponentPortion_run hblank hopening htext hruns hafter hstops.of_append hrecords]
  simp only [closeExponents_exponent, bind_assoc, refusing_bind, List.isEmpty_cons,
    Bool.and_false] at hbehind ⊢
  simp only [hbehind]
  rfl

/-- Every balanced text is read as an exponent, if no longer one has to be read as a span. -/
theorem readsExponent (hbalanced : Balanced text)
    (ih : ∀ part, Balanced part → part.length ≤ text.length → ReadsBySpans pairs part) :
    ReadsExponent pairs text := by
  induction text with
  | nil => exact readsExponent_nil pairs
  | cons c text ihtext =>
    by_cases hblank : CharClass.of c = .blank
    · have hc : IsNoBracket c := .of_ne (by simp [hblank]) (by simp [hblank])
      exact .blank hblank (ihtext (hbalanced.of_cons hc) fun part hpart hlength =>
        ih part hpart (Nat.le_succ_of_le hlength))
    · rcases bracket_cases c with ⟨closing, hpair⟩ | hcloses | hnone
      · obtain ⟨inner, after, rfl, hinner, hafter⟩ := hbalanced.exists_partner hpair
        exact .bracket hpair hinner hafter (ih inner hinner (by simp; omega))
          (ih after hafter (by simp; omega))
      · exact absurd hbalanced (Balanced.not_cons_closing hcloses)
      · exact .run hblank hnone.ne_opening hbalanced ih

theorem awaitsTerm_continued (frames : List Frame) : AwaitsTerm (continued .incomplete frames) := by
  rcases frames with _ | ⟨⟨_ | _ | _, _⟩, _⟩ <;> trivial

/-- A power. -/
theorem ReadsBySpans.caret (hcaret : CharClass.of c = .caret) (hbalanced : Balanced text)
    (ih : ∀ part, Balanced part → part.length ≤ text.length → ReadsBySpans pairs part) :
    ReadsBySpans pairs (c :: text) := by
  intro relations place level frames tail hrecords hfits
  obtain ⟨next, hnext, hfits, hstep⟩ := hfits.cons (by simp [hcaret])
  obtain rfl := hnext hcaret
  have hrest : Records pairs (place + 1) text := Records.of_append [c] [] (by simpa using hrecords)
  rw [List.cons_append, readThrough_cons, hstep, hcaret, readAtLevel_below (by simp),
    isEmpty_continued, scanSpan, hcaret]
  cases hread : readAtLevel (relations && frames.isEmpty) place level [] .caret with
  | error reason => rfl
  | ok r =>
    obtain ⟨outer, rfl⟩ : ∃ outer, r = ⟨Level.blank, [⟨.exponent place .nothing, outer⟩]⟩ := by
      rcases readAtLevel_opens (by simp) hread with ⟨hopening, -⟩ | ⟨-, h⟩ | ⟨-, hnone, -⟩
      · cases hopening
      · exact h
      · exact absurd rfl hnone
    show refusing (readThrough relations (place + 1)
        ⟨Level.blank, ⟨.exponent place .nothing, outer⟩ :: continued .incomplete frames⟩
          (text ++ tail)) = (do
      let level ← (do
        let p ← exponentPortion pairs place (place + 1) text
        let inner ← scanSpan pairs false p.place Level.blank p.span
        let nodes ← refusing inner.finish
        let level ← refusing (outer.raise place nodes)
        scanSpan pairs (relations && frames.isEmpty) p.next level p.rest)
      _)
    rw [readsExponent hbalanced ih _ _ _ _ _ _ (awaitsTerm_continued frames) hrest hfits,
      isEmpty_continued, Nat.add_right_comm]
    simp only [closeExponents_continued, bind_assoc]
    rfl

/-- Every balanced text is read as a part of a span. -/
theorem readsBySpans (pairs : List (Nat × Nat)) (h : Balanced text) : ReadsBySpans pairs text := by
  -- The spans of a text are not parts of its derivation, so the induction is on how long it is.
  induction hlength : text.length using Nat.strong_induction_on generalizing text with
  | _ length ih =>
    subst hlength
    cases h with
    | nil => exact readsBySpans_nil pairs
    | @cons c text hc hrest =>
      by_cases hcaret : CharClass.of c = .caret
      · exact .caret hcaret hrest fun part hpart hlength =>
          ih _ (Nat.lt_succ_of_le hlength) hpart rfl
      · exact .cons hc hcaret (ih _ (Nat.lt_succ_self _) hrest rfl)
    | @pair opening closing inner after hpair hinner hafter =>
      have hlength : (opening :: (inner ++ closing :: after)).length =
          inner.length + after.length + 2 := by
        simp only [List.length_cons, List.length_append]
        omega
      exact .pair hpair hinner hafter (ih _ (by omega) hinner rfl) (ih _ (by omega) hafter rfl)

end

end Reader

/-- Reading by spans is what the reader does.  It never gets stuck. -/
theorem parseBySpans_eq (relations : Bool) (text : List Char) :
    parseBySpans relations (oneCharRelations text) = refusing (parseWith relations text) := by
  rw [parseBySpans, parseWith, refusing_bind]
  generalize oneCharRelations text = text
  rw [← map_bracketPairs]
  cases hpairs : bracketPairs text with
  | error reason => rfl
  | ok pairs =>
    have hbalanced : Balanced text := balanced_iff_bracketPairs.2 ⟨pairs, hpairs⟩
    have hread := Reader.readsBySpans pairs hbalanced relations 0 Level.blank [] []
      (records_bracketPairs hpairs) (.settled trivial (by simp))
    rw [List.append_nil, List.isEmpty_nil, Bool.and_true] at hread
    show (do
      let level ← scanSpan pairs relations 0 Level.blank text
      refusing level.finish) = refusing (do
        let r ← Reader.start.readFrom relations 0 text
        r.finish)
    rw [← Reader.finish_readThrough, refusing_bind, Reader.start, hread, bind_assoc]
    rfl

end OneUnknown
