import OneUnknown.Proofs.NumberLiterals
import OneUnknown.Proofs.Pending
import OneUnknown.Proofs.Refusal
import OneUnknown.Proofs.Relocation
/-!
# Spaces around symbols

A space beside a symbol changes nothing of what is read, but for one place.  Behind the value of an
exponent without brackets it ends the exponent, and the exponent may go on there: with a caret, as
in `2^3^4`, or, if it ends in a parenthesis, with digits and letters, as in `x^-(2)3`.

* `oneCharRelations_append_eq`, `checkBrackets_space`: what is done before reading;
* `Reader.rested`: the reader behind a blank that ends nothing, which reads the same;
* `Reader.exists_step_blank`: a blank that ends at most what the next character ends;
* `exponentGoesOn`: the place where a space makes a difference;
* `parse_space`: the result.
-/

namespace OneUnknown

/-! ## Before reading -/

theorem replacePair_length_le (first second replacement : Char) (text : List Char) :
    (replacePair first second replacement text).length ≤ text.length := by
  fun_induction replacePair first second replacement text with
  | case1 c d rest hpair ih =>
    simp only [List.length_cons]
    omega
  | case2 c d rest hpair ih =>
    simp only [List.length_cons] at ih ⊢
    omega
  | case3 | case4 => exact le_rfl

/-- A text in which a pair is replaced gets shorter, so one that does not has no such pair. -/
theorem isChain_of_replacePair_length {first second replacement : Char} {text : List Char}
    (h : text.length ≤ (replacePair first second replacement text).length) :
    text.IsChain fun c d => ¬ (c = first ∧ d = second) := by
  fun_induction replacePair first second replacement text with
  | case1 c d rest hpair ih =>
    have hle := replacePair_length_le first second replacement rest
    simp only [List.length_cons] at h
    omega
  | case2 c d rest hpair ih =>
    simp only [List.length_cons] at h ih
    exact List.isChain_cons_cons.2 ⟨hpair, ih (by omega)⟩
  | case3 c => exact .singleton c
  | case4 => exact .nil

theorem replacePair_eq_of_isChain {first second : Char} (replacement : Char) {text : List Char}
    (h : text.IsChain fun c d => ¬ (c = first ∧ d = second)) :
    replacePair first second replacement text = text := by
  fun_induction replacePair first second replacement text with
  | case1 c d rest hpair ih => exact absurd hpair (List.isChain_cons_cons.1 h).1
  | case2 c d rest hpair ih => rw [ih (List.isChain_cons_cons.1 h).2]
  | case3 | case4 => rfl

theorem replacePair_eq_of_length {first second replacement : Char} {text : List Char}
    (h : text.length ≤ (replacePair first second replacement text).length) :
    replacePair first second replacement text = text :=
  replacePair_eq_of_isChain replacement (isChain_of_replacePair_length h)

/-- If nothing is replaced in a text, there is nothing to be replaced in its parts. -/
theorem replacePair_append_eq {first second replacement : Char} {p q : List Char}
    (h : replacePair first second replacement (p ++ q) = p ++ q) :
    replacePair first second replacement p = p ∧ replacePair first second replacement q = q := by
  obtain ⟨hp, hq, -⟩ := List.isChain_append.1 (isChain_of_replacePair_length (congrArg _ h).ge)
  exact ⟨replacePair_eq_of_isChain _ hp, replacePair_eq_of_isChain _ hq⟩

/-- A text is as normalization leaves it if and only if no pass over it replaces anything. -/
theorem oneCharRelations_eq_self_iff {text : List Char} :
    oneCharRelations text = text ↔
      replacePair '>' '=' '≥' text = text ∧ replacePair '<' '=' '≤' text = text ∧
        replacePair '!' '=' '≠' text = text ∧ replacePair '=' '=' '=' text = text := by
  constructor
  · intro h
    rw [oneCharRelations] at h
    have hlength := (congrArg List.length h).ge
    have h₁ := replacePair_length_le '>' '=' '≥' text
    have h₂ := replacePair_length_le '<' '=' '≤' (replacePair '>' '=' '≥' text)
    have h₃ := replacePair_length_le '!' '=' '≠'
      (replacePair '<' '=' '≤' (replacePair '>' '=' '≥' text))
    have h₄ := replacePair_length_le '=' '=' '='
      (replacePair '!' '=' '≠' (replacePair '<' '=' '≤' (replacePair '>' '=' '≥' text)))
    have hgreater : replacePair '>' '=' '≥' text = text := replacePair_eq_of_length (by omega)
    rw [hgreater] at h₂ h₃ h₄ hlength h
    have hless : replacePair '<' '=' '≤' text = text := replacePair_eq_of_length (by omega)
    rw [hless] at h₃ h₄ hlength h
    have hunequal : replacePair '!' '=' '≠' text = text := replacePair_eq_of_length (by omega)
    rw [hunequal] at h
    exact ⟨hgreater, hless, hunequal, h⟩
  · rintro ⟨hgreater, hless, hunequal, hequal⟩
    rw [oneCharRelations, hgreater, hless, hunequal, hequal]

theorem oneCharRelations_append_eq {p q : List Char} (h : oneCharRelations (p ++ q) = p ++ q) :
    oneCharRelations p = p ∧ oneCharRelations q = q := by
  obtain ⟨hgreater, hless, hunequal, hequal⟩ := oneCharRelations_eq_self_iff.1 h
  have h₁ := replacePair_append_eq hgreater
  have h₂ := replacePair_append_eq hless
  have h₃ := replacePair_append_eq hunequal
  have h₄ := replacePair_append_eq hequal
  exact ⟨oneCharRelations_eq_self_iff.2 ⟨h₁.1, h₂.1, h₃.1, h₄.1⟩,
    oneCharRelations_eq_self_iff.2 ⟨h₁.2, h₂.2, h₃.2, h₄.2⟩⟩

theorem checkBracketsFrom_space {place place' : Nat} {pending pending' : List (Nat × Char)}
    {p q : List Char} (h : checkBracketsFrom place pending (p ++ q) = .ok ())
    (hsame : pending'.map Prod.snd = pending.map Prod.snd) :
    checkBracketsFrom place' pending' (p ++ ' ' :: q) = .ok () := by
  induction p generalizing place place' pending pending' with
  | nil =>
    have hrest : checkBracketsFrom (place' + 1) (pending' ++ []) (q ++ []) =
        checkBracketsFrom (place' + 1 + q.length) [] [] :=
      checkBracketsFrom_append_of_ok h hsame
    rw [List.append_nil, List.append_nil] at hrest
    exact hrest
  | cons c p ih =>
    rw [List.cons_append] at h ⊢
    simp only [checkBracketsFrom] at h ⊢
    cases hclosing : closingBracket? c with
    | some closing =>
      rw [hclosing] at h
      exact ih h (by simp [hsame])
    | none =>
      rw [hclosing] at h
      dsimp only at h ⊢
      split at h
      · rename_i hc
        rw [if_pos hc]
        rcases pending with _ | ⟨⟨opened, expected⟩, pending⟩
        · cases h
        · obtain ⟨⟨opened', expected'⟩, pending', rfl, rfl, hsame'⟩ :=
            List.map_eq_cons_iff.1 hsame
          dsimp only at h ⊢
          split at h
          · rename_i heq
            exact (if_pos heq).trans (ih h hsame')
          · cases h
      · rename_i hc
        rw [if_neg hc]
        exact ih h hsame

theorem checkBrackets_space {p q : List Char} (h : checkBrackets (p ++ q) = .ok ()) :
    checkBrackets (p ++ ' ' :: q) = .ok () := checkBracketsFrom_space h rfl

/-! ## Behind a blank -/

/-- A digit would be one of a whole part. -/
def Level.IsWhole (l : Level) : Prop := l.draft.places = none ∨ l.draft.power ≠ []

namespace Level

variable {l : Level}

theorem flush_leaveFraction (l : Level) : l.leaveFraction.flush = l.flush := rfl

theorem finish_leaveFraction (l : Level) : l.leaveFraction.finish = l.finish := by
  obtain ⟨emitted, draft, last, scientific⟩ := l
  cases scientific with
  | none => rfl
  | some s =>
    simp only [finish, finishScientific, leaveFraction]
    split <;> rfl

theorem IsWhole.readDigit_leaveFraction (h : l.IsWhole) (place value : Nat) :
    l.leaveFraction.readDigit place value = l.readDigit place value := by
  by_cases hpower : l.draft.power = []
  · have hplaces : l.draft.places = none := h.resolve_right fun hne => hne hpower
    have hsame : l.leaveFraction = l := by
      obtain ⟨emitted, draft, last, scientific⟩ := l
      dsimp only at hplaces
      rw [leaveFraction, ← hplaces]
    rw [hsame]
  · have hpower' : ¬ l.leaveFraction.draft.power = [] := hpower
    simp only [readDigit, if_neg hpower, if_neg hpower', flush_leaveFraction]
    rfl

end Level

namespace Reader

variable {relations : Bool} {place place' : Nat} {level : Level} {frames : List Frame}
  {cls : CharClass} {r r' : Reader} {nodes : List Node}

theorem closeBracket_leaveFraction (level : Level) :
    closeBracket place level.leaveFraction frames = closeBracket place level frames := by
  unfold closeBracket
  simp only [Level.finish_leaveFraction]

/-- Only a digit can tell that digits are not read behind a point any more. -/
theorem readPlain_leaveFraction (h : (∃ value, cls = .digit value) → level.IsWhole) :
    readPlain relations place level.leaveFraction frames cls =
      readPlain relations place level frames cls := by
  cases cls with
  | digit value =>
    rw [readPlain, readPlain, (h ⟨value, rfl⟩).readDigit_leaveFraction]
  | closing => exact closeBracket_leaveFraction level
  | _ => rfl

/-- The reader behind a blank that ends nothing. -/
def rested (r : Reader) : Reader :=
  match r.level.scientific with
  | none => ⟨r.level.leaveFraction, r.frames⟩
  | some _ => r

theorem rested_of_none (h : r.level.scientific = none) :
    r.rested = ⟨r.level.leaveFraction, r.frames⟩ := by
  rw [rested, h]

/-- Whether an exponent without brackets that has its value is being read. -/
def isComplete (r : Reader) : Bool :=
  match r.frames with
  | ⟨.exponent _ .complete, _⟩ :: _ => true
  | _ => false

theorem isComplete_iff : r.isComplete = true ↔
    ∃ caret outer frames, r.frames = ⟨.exponent caret .complete, outer⟩ :: frames := by
  unfold isComplete
  split
  · rename_i caret outer frames hframes
    exact iff_of_true rfl ⟨caret, outer, frames, hframes⟩
  · rename_i hframes
    refine iff_of_false (by simp) ?_
    rintro ⟨caret, outer, frames, heq⟩
    exact hframes caret outer frames heq

theorem not_isComplete (h : IsSettled r.frames) : ¬ r.isComplete = true := by
  rw [isComplete_iff]
  rintro ⟨caret, outer, frames, hframes⟩
  rw [hframes] at h
  exact h

theorem readAtLevel_blank (r : Reader) :
    readAtLevel relations place r.level r.frames .blank = .ok r.rested := by
  obtain ⟨⟨emitted, draft, last, scientific⟩, frames⟩ := r
  cases scientific <;> rfl

theorem step_blank (h : ¬ r.isComplete = true) : r.step relations place .blank = .ok r.rested := by
  obtain ⟨level, frames⟩ := r
  rcases frames with _ | ⟨⟨_ | _ | ⟨caret, progress⟩, outer⟩, rest⟩
  case cons.exponent =>
    cases progress with
    | complete => exact absurd rfl h
    | nothing | incomplete => exact readAtLevel_blank ⟨level, _⟩
  all_goals exact readAtLevel_blank ⟨level, _⟩

/-- The next character is read the same behind such a blank. -/
theorem step_rested (hr : r.IsSound)
    (hwhole : (∃ value, cls = .digit value) → r.level.scientific = none → r.level.IsWhole) :
    r.rested.step relations place cls = r.step relations place cls := by
  obtain ⟨level, frames⟩ := r
  cases hs : level.scientific with
  | some s => simp only [rested, hs]
  | none =>
    have hs' : level.leaveFraction.scientific = none := hs
    have hread (frames : List Frame) :
        readAtLevel relations place level.leaveFraction frames cls =
          readAtLevel relations place level frames cls := by
      rw [readAtLevel_eq hs, readAtLevel_eq hs', readPlain_leaveFraction fun h => hwhole h hs]
    simp only [rested, hs]
    rcases frames with _ | ⟨⟨_ | _ | ⟨caret, progress⟩, outer⟩, rest⟩
    case cons.exponent =>
      have hbegun : progress = .nothing → level = Level.blank := by
        rintro rfl
        exact hr.begun
      unfold step
      dsimp only
      split
      · rename_i hopening
        rw [hbegun hopening.1]
        rfl
      · simp only [hread, closeExponents, Level.finish_leaveFraction]
    all_goals exact hread _

theorem finish_rested (r : Reader) : r.rested.finish = r.finish := by
  obtain ⟨level, frames⟩ := r
  cases hs : level.scientific with
  | some s => simp only [rested, hs]
  | none =>
    simp only [rested, hs]
    rcases frames with _ | ⟨⟨_ | _ | _, outer⟩, rest⟩
    case nil => exact Level.finish_leaveFraction level
    case cons.exponent =>
      simp only [finish, closeExponents, Level.finish_leaveFraction]
    all_goals rfl

/-- A character with which a complete exponent does not go on is read where all exponents have
ended. -/
theorem step_of_isComplete (h : r.isComplete = true) (hends : Progress.extend? .complete cls = none)
    {closed : Reader} (hclosed : closeExponents r.level r.frames = .ok closed) :
    r.step relations place cls = closed.step relations place cls := by
  rw [step_of_isSettled (isSettled_closeExponents hclosed)]
  obtain ⟨level, frames⟩ := r
  obtain ⟨caret, outer, frames, rfl⟩ := isComplete_iff.1 h
  have hopening : ¬ (Progress.complete = .nothing ∧ cls = .opening) := by simp
  simp only [step, if_neg hopening, hends, hclosed]
  rfl

theorem exists_closed_of_isComplete (h : r.isComplete = true)
    (hends : Progress.extend? .complete cls = none) (hstep : r.step relations place cls = .ok r') :
    ∃ closed, closeExponents r.level r.frames = .ok closed := by
  obtain ⟨_, _, _, hframes⟩ := isComplete_iff.1 h
  rcases step_cases hstep with ⟨caret, outer, frames, hframes', -, -⟩ |
    ⟨caret, progress, next, outer, frames, hframes', hnext, -, -⟩ | ⟨closed, hclosed, -⟩
  · rw [hframes'] at hframes
    simp at hframes
  · rw [hframes'] at hframes
    simp only [List.cons.injEq, Frame.mk.injEq, Opening.exponent.injEq] at hframes
    rw [hframes.1.1.2, hends] at hnext
    cases hnext
  · exact ⟨closed, hclosed⟩

/-- A blank that ends at most what the next character ends, too. -/
theorem exists_step_blank (hr : r.IsSound)
    (hends : r.isComplete = true → Progress.extend? .complete cls = none)
    (hwhole : (∃ value, cls = .digit value) → r.level.scientific = none → r.level.IsWhole)
    (h : r.step relations place cls = .ok r') :
    ∃ paused, r.step relations place' .blank = .ok paused ∧
      paused.step relations place cls = .ok r' := by
  by_cases hcomplete : r.isComplete = true
  · obtain ⟨closed, hclosed⟩ := exists_closed_of_isComplete hcomplete (hends hcomplete) h
    have hsound := isSound_closeExponents hr.level hr.frames hclosed
    have hsettled := isSettled_closeExponents hclosed
    refine ⟨closed.rested, ?_, ?_⟩
    · rw [step_of_isComplete hcomplete rfl hclosed, step_blank (not_isComplete hsettled)]
    · rw [step_rested hsound, ← step_of_isComplete hcomplete (hends hcomplete) hclosed, h]
      rintro ⟨value, rfl⟩
      cases hends hcomplete
  · exact ⟨r.rested, step_blank hcomplete, (step_rested hr hwhole).trans h⟩

theorem exists_step_blank_of_finish (h : r.finish = .ok nodes) :
    ∃ paused, r.step relations place .blank = .ok paused ∧ paused.finish = .ok nodes := by
  by_cases hcomplete : r.isComplete = true
  · obtain ⟨level, hclosed, hlevel⟩ := finish_eq_ok.1 h
    refine ⟨_, (step_of_isComplete hcomplete rfl hclosed).trans
      (step_blank (not_isComplete (isSettled_closeExponents hclosed))), ?_⟩
    rw [finish_rested]
    exact hlevel
  · exact ⟨r.rested, step_blank hcomplete, (finish_rested r).trans h⟩

/-- A blank in front of a text, one place earlier, leaves the nodes as they are. -/
theorem readFrom_space {text : List Char} (hr : r.IsSound)
    (hends : ∀ c ∈ text.head?, r.isComplete = true →
      Progress.extend? .complete (CharClass.of c) = none)
    (hwhole : ∀ c ∈ text.head?, (∃ value, CharClass.of c = .digit value) →
      r.level.scientific = none → r.level.IsWhole)
    (h : r.readFrom relations place text = .ok r') (hfinish : r'.finish = .ok nodes) :
    ∃ r'', r.readFrom relations place (' ' :: text) = .ok r'' ∧ r''.finish = .ok nodes := by
  obtain ⟨paused, hpaused, last, hlast, hnodes⟩ : ∃ paused,
      r.step relations place .blank = .ok paused ∧ ∃ r'',
        paused.readFrom relations place text = .ok r'' ∧ r''.finish = .ok nodes := by
    cases text with
    | nil =>
      obtain rfl := Except.ok.inj h
      obtain ⟨paused, hpaused, hnodes⟩ := exists_step_blank_of_finish hfinish
      exact ⟨paused, hpaused, paused, rfl, hnodes⟩
    | cons c rest =>
      obtain ⟨next, hnext, h⟩ := Except.bind_eq_ok.1 h
      obtain ⟨paused, hpaused, hstep⟩ := exists_step_blank hr (hends c rfl) (hwhole c rfl) hnext
      exact ⟨paused, hpaused, r', Except.bind_eq_ok.2 ⟨next, hstep, h⟩, hfinish⟩
  obtain ⟨r'', hr'', hnodes⟩ := readFrom_elsewhere (place + 1) hlast hnodes
  exact ⟨r'', Except.bind_eq_ok.2 ⟨paused, hpaused, hr''⟩, hnodes⟩

end Reader

/-! ## Behind a symbol -/

/-- An operator, a minus sign, a caret, a bracket or a relation. -/
def CharClass.isSymbol : CharClass → Bool
  | .operator _ | .minus | .caret | .opening | .closing | .relation _ => true
  | _ => false

/-- A caret is the only symbol that goes on with an exponent that has its value. -/
theorem CharClass.eq_caret_of_extend {cls : CharClass} (hcls : cls.isSymbol = true)
    (h : (Progress.extend? .complete cls).isSome = true) : cls = .caret := by
  cases cls with
  | caret => rfl
  | digit | point | letter | scientific | blank | exclamation => cases hcls
  | operator | minus | opening | closing | relation => cases h

/-- A character that is a symbol. -/
def isSymbol (c : Char) : Bool := (CharClass.of c).isSymbol

namespace Reader

variable {relations : Bool} {place : Nat} {level : Level} {frames : List Frame}
  {cls : CharClass} {r r' : Reader}

/-- Behind a symbol no digit belongs to a fraction. -/
theorem isWhole_of_readPlain (hlevel : level.IsSound) (hs : level.scientific = none)
    (hframes : ∀ frame ∈ frames, frame.IsSound) (hcls : cls.isSymbol = true)
    (h : readPlain relations place level frames cls = .ok r) : r.level.IsWhole := by
  cases PlainRead.of_readPlain h with
  | operator | relation | opening | caret => exact .inl rfl
  | minus =>
    refine .inl ?_
    rw [hlevel.leaveFraction.readMinus hs]
    rfl
  | closing hclosed =>
    obtain ⟨hsound, -, hlast, hpower⟩ := isSound_closeBracket hframes hclosed
    by_cases htouched : r.level.draft.touched = true
    · exact .inr (hpower htouched)
    · refine .inl ?_
      rw [hsound.level.draft_eq_blank (by simpa using htouched) (by simp [hlast])]
      rfl
  | _ => cases hcls

theorem isWhole_of_readAtLevel (hlevel : level.IsSound)
    (hframes : ∀ frame ∈ frames, frame.IsSound) (hcls : cls.isSymbol = true)
    (h : readAtLevel relations place level frames cls = .ok r) :
    r.level.scientific = none → r.level.IsWhole := by
  intro hnone
  rcases readAtLevel_cases h with ⟨s, s', -, -, rfl⟩ | ⟨finished, hfinished, hs, h⟩
  · cases hnone
  · exact isWhole_of_readPlain (hlevel.finishScientific hfinished) hs hframes hcls h

theorem isWhole_of_step (hr : r.IsSound) (hcls : cls.isSymbol = true)
    (h : r.step relations place cls = .ok r') : r'.level.scientific = none → r'.level.IsWhole := by
  rcases step_cases h with ⟨caret, outer, frames, hframes, -, rfl⟩ |
    ⟨caret, progress, next, outer, frames, hframes, -, -, h⟩ | ⟨closed, hclosed, h⟩
  · intro _
    have hbegun := hr.begun
    rw [hframes] at hbegun
    exact (show r.level = Level.blank from hbegun) ▸ .inl rfl
  · have hsound := hr.frames
    rw [hframes, List.forall_mem_cons] at hsound
    exact isWhole_of_readAtLevel hr.level
      (List.forall_mem_cons.2 ⟨hsound.1.reopened (by simp), hsound.2⟩) hcls h
  · have hsound := isSound_closeExponents hr.level hr.frames hclosed
    exact isWhole_of_readAtLevel hsound.level hsound.frames hcls h

theorem extend?_ne_complete (hcls : cls.isSymbol = true) (progress : Progress) :
    progress.extend? cls ≠ some .complete := by
  intro h
  cases cls with
  | digit | point | letter | scientific | blank | exclamation => cases hcls
  | operator | minus | caret | opening | closing | relation => cases progress <;> cases h

/-- No other character but a closing bracket leaves an exponent complete that was not. -/
theorem isComplete_of_readAtLevel (hcls : cls ≠ .closing)
    (h : readAtLevel relations place level frames cls = .ok r) (hr : r.isComplete = true) :
    isComplete ⟨level, frames⟩ = true := by
  rcases readAtLevel_cases h with ⟨s, s', -, -, rfl⟩ | ⟨finished, -, -, h⟩
  · exact hr
  · cases cls with
    | digit | point | letter | scientific =>
      obtain ⟨l, -, h⟩ := Except.bind_eq_ok.1 h
      obtain rfl := Except.pure_eq_ok.1 h
      exact hr
    | blank | minus | operator =>
      obtain rfl := Except.ok.inj h
      exact hr
    | relation rel =>
      rw [readPlain] at h
      split at h
      · obtain rfl := Except.ok.inj h
        exact hr
      · cases h
    | opening | caret =>
      obtain rfl := Except.ok.inj h
      cases hr
    | closing => exact absurd rfl hcls
    | exclamation => cases h

/-- A symbol behind which an exponent without brackets has its value is a closing bracket. -/
theorem eq_closing_of_isComplete (hcls : cls.isSymbol = true)
    (h : r.step relations place cls = .ok r') (hr' : r'.isComplete = true) : cls = .closing := by
  by_contra hclosing
  rcases step_cases h with ⟨caret, outer, frames, -, -, rfl⟩ |
    ⟨caret, progress, next, outer, frames, -, hnext, -, h⟩ | ⟨closed, hclosed, h⟩
  · cases hr'
  · obtain ⟨_, _, _, hframes⟩ := isComplete_iff.1 (isComplete_of_readAtLevel hclosing h hr')
    simp only [List.cons.injEq, Frame.mk.injEq, Opening.exponent.injEq] at hframes
    rw [hframes.1.1.2] at hnext
    exact extend?_ne_complete hcls progress hnext
  · exact not_isComplete (isSettled_closeExponents hclosed)
      (isComplete_of_readAtLevel hclosing h hr')

/-! ## Behind an exponent -/

/-- A term takes one exponent only. -/
theorem isRaised_of_raise {outer raised : Level} {caret : Nat} {power : List Node}
    (h : outer.raise caret power = .ok raised) : raised.IsRaised := by
  intro caret' power'
  refine ⟨.danglingExponent caret', ?_⟩
  obtain ⟨hne, ⟨htouched, -, rfl⟩ | ⟨htouched, hnegative, hlast, before, hraised⟩⟩ :=
    Level.raise_cases h
  · simp [Level.raise, Level.leaveFraction, htouched, hne]
  · rcases hraised with ⟨v, n, -, rfl⟩ | ⟨body, negative, -, rfl⟩
    all_goals
      simp only [Level.raise, Level.leaveFraction, htouched, hlast]
      split
      · rfl
      · simp [hne]

theorem isRaised_of_closeExponents (hframes : ¬ IsSettled frames)
    (h : closeExponents level frames = .ok r) : r.level.IsRaised := by
  replace h := ExponentsClosed.of_closeExponents h
  induction h with
  | settled hsettled => exact absurd hsettled hframes
  | @exponent _ _ raised _ _ _ frames _ _ hraised tail ih =>
    by_cases hsettled : IsSettled frames
    · cases tail with
      | settled => exact isRaised_of_raise hraised
      | exponent => cases hsettled
    · exact ih hsettled

/-- Where a blank has ended an exponent, a caret cannot go on with it. -/
theorem areDoomed_caret (hr : r.IsSound) (hcomplete : r.isComplete = true) {rest : List Char}
    (h : r.readFrom relations place (' ' :: '^' :: rest) = .ok r') : AreDoomed r'.frames := by
  obtain ⟨paused, hpaused, h⟩ := Except.bind_eq_ok.1 h
  obtain ⟨next, hnext, h⟩ := Except.bind_eq_ok.1 h
  refine areDoomed_readFrom h ?_
  rw [CharClass.of_blank] at hpaused
  rw [CharClass.of_caret] at hnext
  obtain ⟨closed, hclosed⟩ := exists_closed_of_isComplete hcomplete rfl hpaused
  have hsettled := isSettled_closeExponents hclosed
  have hframes : ¬ IsSettled r.frames := fun h => not_isComplete h hcomplete
  have hscientific : closed.level.scientific = none := by
    rcases closeExponents_cases hr.frames hclosed with rfl | ⟨-, hnone⟩
    · exact absurd hsettled hframes
    · exact hnone
  have hraised := isRaised_of_closeExponents hframes hclosed
  rw [step_of_isComplete hcomplete rfl hclosed, step_blank (not_isComplete hsettled),
    rested_of_none hscientific] at hpaused
  obtain rfl := Except.ok.inj hpaused
  have hleft : closed.level.leaveFraction.scientific = none := hscientific
  rw [step_settled hsettled hleft] at hnext
  obtain rfl := Except.ok.inj hnext
  exact ⟨_, .head _, by simp, hraised⟩

end Reader

/-! ## Texts -/

/-- Whether the exponent goes on that a text ends in: an exponent without brackets that has its
value, and behind it a caret, a digit, a point or a letter. -/
def exponentGoesOn (before after : List Char) : Bool :=
  match Reader.start.readFrom true 0 before with
  | .ok r =>
    r.isComplete && after.head?.any fun c => (Progress.extend? .complete (CharClass.of c)).isSome
  | .error _ => false

/-- A text in which nothing is replaced is read as it is. -/
theorem parse_eq_ok_iff {text : List Char} {nodes : List Node}
    (h : oneCharRelations text = text) :
    parse text = .ok nodes ↔ checkBrackets text = .ok () ∧
      ∃ r, Reader.start.readFrom true 0 text = .ok r ∧ r.finish = .ok nodes := by
  rw [parse, parseWith, h]
  constructor
  · intro h
    obtain ⟨⟨⟩, hbrackets, h⟩ := Except.bind_eq_ok.1 h
    exact ⟨hbrackets, Except.bind_eq_ok.1 h⟩
  · rintro ⟨hbrackets, h⟩
    exact Except.bind_eq_ok.2 ⟨(), hbrackets, Except.bind_eq_ok.2 h⟩

/-- An exponent without brackets has a caret in front of it. -/
theorem caret_mem_of_isComplete {p : List Char} {r : Reader}
    (hr : Reader.start.readFrom true 0 p = .ok r) (h : r.isComplete = true) : '^' ∈ p := by
  have hpoints : Blaming p (Reader.PointsInto p) (Reader.start.readFrom true 0 p) :=
    Reader.blaming_readFrom [] rfl Reader.pointsInto_start
  rw [hr] at hpoints
  obtain ⟨level, frames⟩ := r
  obtain ⟨caret, outer, frames, rfl⟩ := Reader.isComplete_iff.1 h
  exact List.mem_of_getElem? (hpoints.frames _ (.head _)).1

/-- The last character of a text. -/
theorem exists_last_step {p : List Char} {c : Char} {r : Reader}
    (hr : Reader.start.readFrom true 0 p = .ok r) (hc : c ∈ p.getLast?) :
    ∃ (before : Reader) (place : Nat), before.IsSound ∧
      before.step true place (CharClass.of c) = .ok r := by
  rcases List.eq_nil_or_concat p with rfl | ⟨q, d, rfl⟩
  · cases hc
  · rw [List.concat_eq_append] at hr hc
    obtain rfl : d = c := by simpa using hc
    rw [Reader.readFrom_append] at hr
    obtain ⟨before, hbefore, hr⟩ := Except.bind_eq_ok.1 hr
    obtain ⟨_, hstep, hr⟩ := Except.bind_eq_ok.1 hr
    obtain rfl := Except.ok.inj hr
    exact ⟨before, _, Reader.isSound_start.readFrom hbefore, hstep⟩

/-- Behind a symbol that ends a text, no digit belongs to a fraction. -/
theorem isWhole_of_getLast {p : List Char} {c : Char} {r : Reader}
    (hr : Reader.start.readFrom true 0 p = .ok r) (hc : c ∈ p.getLast?)
    (hsymbol : isSymbol c = true) : r.level.scientific = none → r.level.IsWhole := by
  obtain ⟨before, place, hbefore, hstep⟩ := exists_last_step hr hc
  exact Reader.isWhole_of_step hbefore hsymbol hstep

/-- A symbol that ends a text and an exponent's value is a closing bracket. -/
theorem isClosingBracket_of_getLast {p : List Char} {c : Char} {r : Reader}
    (hr : Reader.start.readFrom true 0 p = .ok r) (hcomplete : r.isComplete = true)
    (hc : c ∈ p.getLast?) (hsymbol : isSymbol c = true) : isClosingBracket c = true := by
  obtain ⟨before, place, -, hstep⟩ := exists_last_step hr hc
  have hdescribes := CharClass.describes_of c
  rw [Reader.eq_closing_of_isComplete hsymbol hstep hcomplete] at hdescribes
  simpa [CharClass.Describes, isClosingBracket, or_assoc] using hdescribes

/-- The only symbol that an exponent goes on with is a caret. -/
theorem eq_caret_of_isSymbol {c : Char} (hsymbol : isSymbol c = true)
    (h : (Progress.extend? .complete (CharClass.of c)).isSome = true) : c = '^' := by
  have hdescribes := CharClass.describes_of c
  rw [CharClass.eq_caret_of_extend hsymbol h] at hdescribes
  exact hdescribes

/-- A text is refused in which a caret goes on with an exponent behind a space. -/
theorem parse_space_caret {p rest : List Char} {r : Reader}
    (hspelled : oneCharRelations (p ++ ' ' :: '^' :: rest) = p ++ ' ' :: '^' :: rest)
    (hr : Reader.start.readFrom true 0 p = .ok r) (hcomplete : r.isComplete = true) :
    ∃ reason, parse (p ++ ' ' :: '^' :: rest) = .error reason := by
  cases hresult : parse (p ++ ' ' :: '^' :: rest) with
  | error reason => exact ⟨reason, rfl⟩
  | ok nodes =>
    obtain ⟨-, r', hr', hfinish⟩ := (parse_eq_ok_iff hspelled).1 hresult
    rw [Reader.readFrom_append, hr] at hr'
    have hdoomed := Reader.areDoomed_caret (Reader.isSound_start.readFrom hr) hcomplete hr'
    exact absurd hfinish (Reader.finish_ne_ok_of_areDoomed hdoomed nodes)

/-- A space changes nothing if the next character ends each exponent that the space does, and is no
digit that a fraction goes on with. -/
theorem parse_space_of_ends {p q : List Char} {nodes : List Node} {r r' : Reader}
    (hspaced : oneCharRelations (p ++ ' ' :: q) = p ++ ' ' :: q)
    (hbrackets : checkBrackets (p ++ q) = .ok ()) (hr : Reader.start.readFrom true 0 p = .ok r)
    (hends : ∀ c ∈ q.head?, r.isComplete = true →
      Progress.extend? .complete (CharClass.of c) = none)
    (hwhole : ∀ c ∈ q.head?, (∃ value, CharClass.of c = .digit value) →
      r.level.scientific = none → r.level.IsWhole)
    (hrest : r.readFrom true (0 + p.length) q = .ok r') (hfinish : r'.finish = .ok nodes) :
    parse (p ++ ' ' :: q) = .ok nodes := by
  obtain ⟨r'', hr'', hnodes⟩ :=
    Reader.readFrom_space (Reader.isSound_start.readFrom hr) hends hwhole hrest hfinish
  refine (parse_eq_ok_iff hspaced).2 ⟨checkBrackets_space hbrackets, r'', ?_, hnodes⟩
  rw [Reader.readFrom_append, hr]
  exact hr''

/-- A space beside a symbol leaves the nodes as they are, unless an exponent without brackets goes
on there.  Then the space ends the exponent: before a caret the text is refused, and otherwise the
space stands behind a bracket that closes inside of the exponent. -/
theorem parse_space {p q : List Char} {nodes : List Node}
    (hspelled : oneCharRelations (p ++ q) = p ++ q) (h : parse (p ++ q) = .ok nodes)
    (hsymbol : (∃ c ∈ p.getLast?, isSymbol c = true) ∨ ∃ c ∈ q.head?, isSymbol c = true) :
    (exponentGoesOn p q = false → parse (p ++ ' ' :: q) = .ok nodes) ∧
      (exponentGoesOn p q = true → '^' ∈ p ∧
        (q.head? = some '^' → ∃ reason, parse (p ++ ' ' :: q) = .error reason) ∧
        (q.head? ≠ some '^' → ∃ c ∈ p.getLast?, isClosingBracket c = true)) := by
  obtain ⟨hp, hq⟩ := oneCharRelations_append_eq hspelled
  have hspaced : oneCharRelations (p ++ ' ' :: q) = p ++ ' ' :: q := by
    rw [oneCharRelations_append_cons p q (by decide), hp, hq]
  obtain ⟨hbrackets, r', hr', hfinish⟩ := (parse_eq_ok_iff hspelled).1 h
  rw [Reader.readFrom_append] at hr'
  obtain ⟨r, hr, hrest⟩ := Except.bind_eq_ok.1 hr'
  rw [exponentGoesOn, hr]
  dsimp only
  constructor
  · intro hgoes
    refine parse_space_of_ends hspaced hbrackets hr (fun c hc hcomplete => ?_)
      (fun c hc ⟨value, hvalue⟩ => ?_) hrest hfinish
    · obtain ⟨rest, rfl⟩ := List.head?_eq_some_iff.1 hc
      simpa [hcomplete] using hgoes
    · -- A digit is no symbol, so the symbol is the last character of the text before it.
      rcases hsymbol with ⟨d, hd, hsymbol⟩ | ⟨d, hd, hsymbol⟩
      · exact isWhole_of_getLast hr hd hsymbol
      · obtain rfl := Option.mem_unique hc hd
        rw [isSymbol, hvalue] at hsymbol
        cases hsymbol
  · intro hgoes
    rw [Bool.and_eq_true] at hgoes
    obtain ⟨hcomplete, hextends⟩ := hgoes
    refine ⟨caret_mem_of_isComplete hr hcomplete, fun hcaret => ?_, fun hcaret => ?_⟩
    · obtain ⟨rest, rfl⟩ := List.head?_eq_some_iff.1 hcaret
      exact parse_space_caret hspaced hr hcomplete
    · -- What follows is no symbol, so the symbol stands in front.
      rcases hsymbol with ⟨c, hc, hsymbol⟩ | ⟨c, hc, hsymbol⟩
      · exact ⟨c, hc, isClosingBracket_of_getLast hr hcomplete hc hsymbol⟩
      · obtain ⟨rest, rfl⟩ := List.head?_eq_some_iff.1 hc
        exact absurd (congrArg some (eq_caret_of_isSymbol hsymbol hextends)) hcaret

/-- A space that an exponent ends at anyhow, and one before a caret that goes on with it. -/
theorem parse_space_minus_and_caret :
    parse "x^2 -3".toList =
        .ok [.group (some 'x') (Number.ofNat 1) [.group none (Number.ofNat 2) []],
          .group none (Number.ofNat 3).negated []] ∧
      '^' ∈ "2^3".toList ∧ ∃ reason, parse "2^3 ^4".toList = .error reason := by
  have hminus : parse ("x^2".toList ++ "-3".toList) =
      .ok [.group (some 'x') (Number.ofNat 1) [.group none (Number.ofNat 2) []],
        .group none (Number.ofNat 3).negated []] := by decide +kernel
  have hcaret : parse ("2^3".toList ++ "^4".toList) =
      .ok [.group none (Number.ofNat 2)
        [.group none (Number.ofNat 3) [.group none (Number.ofNat 4) []]]] := by decide +kernel
  have hends : exponentGoesOn "x^2".toList "-3".toList = false := by decide +kernel
  have hgoes : exponentGoesOn "2^3".toList "^4".toList = true := by decide +kernel
  have hspaced := parse_space (by decide +kernel) hminus (.inr ⟨'-', rfl, rfl⟩)
  have hrefused := parse_space (by decide +kernel) hcaret (.inr ⟨'^', rfl, rfl⟩)
  exact ⟨hspaced.1 hends, (hrefused.2 hgoes).1, (hrefused.2 hgoes).2.1 rfl⟩

/-- A space that an exponent goes on at is not always read with the same nodes. -/
theorem not_parse_space :
    ¬ ∀ (p q : List Char) (nodes : List Node), oneCharRelations (p ++ q) = p ++ q →
      parse (p ++ q) = .ok nodes →
        ((∃ c ∈ p.getLast?, isSymbol c = true) ∨ ∃ c ∈ q.head?, isSymbol c = true) →
          parse (p ++ ' ' :: q) = .ok nodes := by
  intro h
  have hinside : parse ("x^-(2)".toList ++ "3".toList) =
      .ok [.group (some 'x') (Number.ofNat 1)
        [.paren [.group none (Number.ofNat 2) []] [] true, .group none (Number.ofNat 3) []]] := by
    decide +kernel
  have hbehind : parse ("x^-(2)".toList ++ ' ' :: "3".toList) =
      .ok [.group (some 'x') (Number.ofNat 1)
        [.paren [.group none (Number.ofNat 2) []] [] true], .group none (Number.ofNat 3) []] := by
    decide +kernel
  have hspaced := h _ _ _ (by decide +kernel) hinside (.inl ⟨')', rfl, rfl⟩)
  rw [hbehind] at hspaced
  exact absurd (congrArg List.length (Except.ok.inj hspaced)) (by decide)

end OneUnknown
