import OneUnknown.Proofs.Growth
import OneUnknown.Proofs.Joining
import OneUnknown.Proofs.Pending
import Mathlib.Data.List.TakeWhile
/-!
# Minus signs

Minus signs that stand together, blanks between them apart, are one sign.  If a term follows, they
are its sign, and it is negative if their number is odd.  If an operator, a relation, a closing
bracket or the end of the text follows, they are dropped: the text is read as with blanks in their
place.  Nothing else can follow.

* `Reader.signed`: the reader behind minus signs, and `Reader.readFrom_signed`: behind some more;
* `Reader.term_of_step_signed`: the term that follows has the sign;
* `Reader.ended`: what the reader has where a term ends, which minus signs do not change;
* `nextPlace`: where the node stands that is read next;
* `parse_minuses`: the result.
-/

namespace OneUnknown

/-- A minus sign or a blank. -/
def IsSignOrBlank (c : Char) : Prop := CharClass.of c = .minus ∨ CharClass.of c = .blank

/-- Minus signs, with blanks between and behind them. -/
structure IsMinusRun (run : List Char) : Prop where
  head : run.head? = some '-'
  signs : ∀ c ∈ run, c = '-' ∨ CharClass.of c = .blank

/-- Whether the number of minus signs is odd. -/
def isOddRun (run : List Char) : Bool := run.count '-' % 2 = 1

theorem isOddRun_minus (run : List Char) : isOddRun ('-' :: run) = !isOddRun run := by
  rw [isOddRun, isOddRun, List.count_cons_self, ← decide_not]
  exact decide_eq_decide.2 (by omega)

theorem isOddRun_cons {c : Char} (hc : c ≠ '-') (run : List Char) :
    isOddRun (c :: run) = isOddRun run := by
  rw [isOddRun, List.count_cons_of_ne hc, isOddRun]

namespace Reader

variable {relations : Bool} {place : Nat} {level level' : Level} {frames : List Frame}
  {cls : CharClass} {r r' : Reader} {emitted nodes : List Node} {negative : Bool}

/-! ## Behind minus signs -/

/-- The reader behind minus signs. -/
def signed (emitted : List Node) (frames : List Frame) (negative : Bool) : Reader :=
  ⟨⟨emitted, Draft.blank.withSign negative, .negation, none⟩, frames⟩

theorem readPlain_minus (hlevel : level.IsSound) (hs : level.scientific = none)
    (hlast : level.last ≠ .negation) (h : readPlain relations place level frames .minus = .ok r) :
    r = signed level.flush.emitted frames true := by
  have hsign : (level.last.endsTerm || !level.leaveFraction.draft.negative) = true := by
    cases hends : level.last.endsTerm with
    | true => rfl
    | false =>
      have hdraft := hlevel.draft_eq_blank (hlevel.between hends) hlast
      rw [Level.leaveFraction, hdraft]
      rfl
  obtain rfl := Except.ok.inj h
  rw [hlevel.leaveFraction.readMinus hs]
  exact congrArg (signed level.flush.emitted frames) hsign

/-- The first minus sign, where no sign is pending. -/
theorem exists_signed_of_step (hr : r.IsSound) (hlast : r.level.last ≠ .negation)
    (hexponent : r.level.HasExponent) (h : r.step relations place .minus = .ok r') :
    ∃ emitted frames, AwaitsTerm frames ∧ r' = signed emitted frames true := by
  have hread {level frames} (hlevel : level.IsSound) (hlast : level.last ≠ .negation)
      (hexponent : level.HasExponent)
      (h : readAtLevel relations place level frames .minus = .ok r') :
      ∃ emitted, r' = signed emitted frames true := by
    rcases readAtLevel_cases h with ⟨s, s', hs, hread, -⟩ | ⟨finished, hfinished, hnone, h⟩
    · simp [ScientificDraft.read?, hexponent s hs] at hread
    · refine ⟨_, readPlain_minus (hlevel.finishScientific hfinished) hnone ?_ h⟩
      rcases Level.last_of_finishScientific hfinished with heq | heq
      · exact heq ▸ hlast
      · simp [heq]
  rcases step_cases h with ⟨_, _, _, -, hcls, -⟩ |
    ⟨caret, progress, next, outer, frames, -, hnext, -, h⟩ | ⟨closed, hclosed, h⟩
  · cases hcls
  · obtain ⟨emitted, rfl⟩ := hread hr.level hlast hexponent h
    refine ⟨emitted, _, ?_, rfl⟩
    cases progress <;> cases hnext <;> rfl
  · have hsound := isSound_closeExponents hr.level hr.frames hclosed
    obtain ⟨emitted, rfl⟩ : ∃ emitted, r' = signed emitted closed.frames true := by
      refine hread hsound.level ?_ (hasExponent_of_closeExponents hr.frames hexponent hclosed) h
      rcases closeExponents_cases hr.frames hclosed with rfl | ⟨hterm, -⟩
      · exact hlast
      · simp [hterm]
    exact ⟨emitted, _, (isSettled_closeExponents hclosed).awaitsTerm, rfl⟩

/-- A character that belongs to an exponent that has begun with a sign, and does not complete it. -/
theorem step_signed (h : AwaitsTerm frames)
    (hextend : Progress.extend? .incomplete cls = some .incomplete) :
    (signed emitted frames negative).step relations place cls =
      readPlain relations place (signed emitted frames negative).level frames cls := by
  rcases frames with _ | ⟨⟨_ | _ | ⟨caret, p⟩, outer⟩, rest⟩
  case cons.exponent =>
    obtain rfl : p = .incomplete := h
    simp only [signed, step, reduceCtorEq, false_and, if_false, hextend]
    rfl
  all_goals rfl

/-- Behind some more of them the sign has changed once for each. -/
theorem readFrom_signed (h : AwaitsTerm frames) {run : List Char}
    (hrun : ∀ c ∈ run, c = '-' ∨ CharClass.of c = .blank) :
    (signed emitted frames negative).readFrom relations place run =
      .ok (signed emitted frames (negative ^^ isOddRun run)) := by
  induction run generalizing place negative with
  | nil => simp [readFrom, isOddRun]
  | cons c rest ih =>
    rw [List.forall_mem_cons] at hrun
    rcases hrun.1 with rfl | hblank
    · rw [readFrom, CharClass.of_minus, step_signed h rfl]
      refine (ih hrun.2).trans ?_
      rw [isOddRun_minus]
      cases negative <;> cases isOddRun rest <;> rfl
    · have hminus : c ≠ '-' := by
        rintro rfl
        cases hblank
      rw [readFrom, hblank, step_signed h rfl, isOddRun_cons hminus]
      exact ih hrun.2

/-- The term that follows minus signs has their sign. -/
theorem term_of_step_signed
    (hcls : (∃ value, cls = .digit value) ∨ cls = .point ∨ ∃ name, cls = .letter name)
    (hstep : (signed emitted frames negative).step relations place cls = .ok r) :
    ∃ node, r.level.nodes = emitted.reverse ++ [node] ∧ node.HasSign negative ∧
      r.frames = continued .complete frames := by
  have hread : readPlain relations place (signed emitted frames negative).level
      (continued .complete frames) cls = .ok r := by
    rw [← hstep]
    refine (step_extending .complete rfl fun _ p _ _ _ => ?_).symm
    rcases hcls with ⟨value, rfl⟩ | rfl | ⟨name, rfl⟩ <;> cases p <;> exact ⟨rfl, by simp⟩
  have hterm {draft : Draft} {last : LastRead} (htouched : draft.touched = true)
      (hsign : draft.number.negative = negative) (hframes : r.frames = continued .complete frames)
      (hlevel : r.level = ⟨emitted, draft, last, none⟩) :
      ∃ node, r.level.nodes = emitted.reverse ++ [node] ∧ node.HasSign negative ∧
        r.frames = continued .complete frames := by
    rw [hlevel]
    exact ⟨_, Level.nodes_touched rfl htouched, .group _ hsign, hframes⟩
  rcases hcls with ⟨value, rfl⟩ | rfl | ⟨name, rfl⟩
  · obtain rfl := Except.ok.inj hread
    exact hterm rfl rfl rfl rfl
  · obtain rfl := Except.ok.inj hread
    exact hterm rfl rfl rfl rfl
  · obtain ⟨l, hl, hread⟩ := Except.bind_eq_ok.1 hread
    obtain rfl := Except.pure_eq_ok.1 hread
    obtain ⟨-, ⟨-, -, rfl⟩ | ⟨hfull, -⟩⟩ := Level.readLetter_cases hl
    · exact hterm rfl rfl rfl rfl
    · -- There is nothing but a sign yet that the letter could multiply.
      rcases hfull with hfull | hfull <;> exact absurd rfl hfull

/-- A bracket that follows minus signs has their sign. -/
theorem step_signed_opening (h : AwaitsTerm frames) :
    (signed emitted frames negative).step relations place .opening =
      .ok ⟨Level.blank,
        ⟨.bracket place negative, ⟨emitted, Draft.blank, .negation, none⟩⟩ :: frames⟩ :=
  step_signed h rfl

@[simp] theorem wayThrough_continued (progress : Progress) (way : List (Nat × Part)) :
    wayThrough (continued progress frames) way = wayThrough frames way := by
  rcases frames with _ | ⟨⟨_ | _ | _, outer⟩, rest⟩ <;> rfl

/-- Where the term is found that follows minus signs. -/
theorem hasSign_at_of_readFrom (hsound : (signed emitted frames negative).IsSound) {c : Char}
    {rest : List Char}
    (hcls : (∃ value, CharClass.of c = .digit value) ∨ CharClass.of c = .point ∨
      ∃ name, CharClass.of c = .letter name)
    (hr : (signed emitted frames negative).readFrom relations place (c :: rest) = .ok r)
    (h : r.finish = .ok nodes) :
    Sequence.HasAt (Node.HasSign negative) ⟨wayThrough frames [], emitted.length⟩ nodes := by
  obtain ⟨next, hnext, hr⟩ := Except.bind_eq_ok.1 hr
  obtain ⟨node, hnodes, hsign, hframes⟩ := term_of_step_signed hcls hnext
  have hsound := hsound.step hnext
  have hindex : next.level.nodes[emitted.length]? = some node := by
    rw [hnodes, ← List.length_reverse, List.getElem?_concat_length]
  have hplace := (completedBy_of_readFrom hsound hr h).hasAt hsound.frames hindex
    fun _ hgrows => hgrows.sign negative hsign
  rwa [hframes, wayThrough_continued] at hplace

/-- Where the parenthesis is found that follows minus signs. -/
theorem hasBody_at_of_readFrom (hawaits : AwaitsTerm frames)
    (hsound : (signed emitted frames negative).IsSound) {c : Char} {rest : List Char}
    (hcls : CharClass.of c = .opening)
    (hr : (signed emitted frames negative).readFrom relations place (c :: rest) = .ok r)
    (h : r.finish = .ok nodes) :
    Sequence.HasAt (fun node => ∃ body, node.HasBody body negative)
      ⟨wayThrough frames [], emitted.length⟩ nodes := by
  obtain ⟨next, hnext, hr⟩ := Except.bind_eq_ok.1 hr
  have hinner := hsound.step hnext
  rw [hcls, step_signed_opening hawaits] at hnext
  obtain rfl := Except.ok.inj hnext
  obtain ⟨body, -, hcompleted⟩ := completedBy_of_readFrom hinner hr h
  have hindex : (Level.addParen ⟨emitted, Draft.blank, .negation, none⟩ body negative).nodes[
      emitted.length]? = some (.paren body [] negative) := by
    rw [Level.nodes_addParen body negative rfl rfl, Level.nodes_untouched rfl rfl,
      ← List.length_reverse, List.getElem?_concat_length]
  exact hcompleted.hasAt hsound.frames hindex
    fun _ hgrows => ⟨body, hgrows.body body negative (.paren [])⟩

/-! ## What cannot follow minus signs -/

theorem step_exclamation_ne_ok : r.step relations place .exclamation ≠ .ok r' := by
  intro h
  rcases step_cases h with ⟨_, _, _, -, hcls, -⟩ | ⟨_, progress, _, _, _, -, hnext, -, -⟩ |
    ⟨closed, -, h⟩
  · cases hcls
  · cases progress <;> cases hnext
  · rcases readAtLevel_cases h with ⟨_, _, -, hread, -⟩ | ⟨_, -, -, h⟩
    · cases hread
    · cases h

theorem step_signed_scientific_ne_ok :
    (signed emitted frames negative).step relations place .scientific ≠ .ok r := by
  intro h
  have hread : readPlain relations place (signed emitted frames negative).level
      (continued .complete frames) .scientific = .ok r := by
    rw [← h]
    refine (step_extending .complete rfl fun _ p _ _ _ => ?_).symm
    cases p <;> exact ⟨rfl, by simp⟩
  cases hread

/-- A sign takes no exponent. -/
theorem not_completedBy_of_step_signed_caret (hawaits : AwaitsTerm frames)
    (hstep : (signed emitted frames negative).step relations place .caret = .ok r) :
    ¬ CompletedBy nodes r.level r.frames := by
  rw [step_signed hawaits rfl] at hstep
  obtain rfl := Except.ok.inj hstep
  rintro ⟨power, raised, -, hraised, -⟩
  obtain ⟨-, ⟨htouched, -⟩ | ⟨-, -, hlast, -⟩⟩ := Level.raise_cases hraised
  · cases htouched
  · cases hlast

theorem finish_ne_ok_of_signed (hawaits : AwaitsTerm frames)
    (hsound : (signed emitted frames negative).IsSound) {c : Char} {rest : List Char}
    (hcls : CharClass.of c = .caret ∨ CharClass.of c = .scientific ∨ CharClass.of c = .exclamation)
    (hr : (signed emitted frames negative).readFrom relations place (c :: rest) = .ok r) :
    r.finish ≠ .ok nodes := by
  intro h
  obtain ⟨next, hnext, hr⟩ := Except.bind_eq_ok.1 hr
  have hcompleted := completedBy_of_readFrom (hsound.step hnext) hr h
  rcases hcls with hcls | hcls | hcls <;> rw [hcls] at hnext
  · exact not_completedBy_of_step_signed_caret hawaits hnext hcompleted
  · exact step_signed_scientific_ne_ok hnext
  · exact step_exclamation_ne_ok hnext

/-! ## What minus signs do not change -/

/-- The reader where a term ends: the exponents have ended, and nothing is being put together. -/
def ended (r : Reader) : Except ParseError Reader := do
  let closed ← closeExponents r.level r.frames
  let nodes ← closed.level.finish
  return ⟨⟨nodes.reverse, Draft.blank, .nothing, none⟩, closed.frames⟩

/-- Only the nodes of the level matter. -/
theorem ended_congr (progress : Progress) (h : level'.finish = level.finish) :
    ended ⟨level', continued progress frames⟩ = ended ⟨level, frames⟩ := by
  rcases frames with _ | ⟨⟨_ | _ | _, outer⟩, rest⟩
  case cons.exponent => simp only [ended, continued, closeExponents, h]
  all_goals simp only [ended, continued, closeExponents, h, bind, Except.bind]

theorem ended_of_closeExponents :
    ended r = (do
      let closed ← closeExponents r.level r.frames
      closed.ended) := by
  cases h : closeExponents r.level r.frames with
  | error reason => simp only [ended, h, bind, Except.bind]
  | ok closed =>
    have hclosed := closeExponents_of_isSettled (isSettled_closeExponents h) closed.level
    simp only [ended, h, hclosed, bind, Except.bind]

/-- Scientific notation can be finished where it has an exponent. -/
theorem exists_finished {s : ScientificDraft} (hs : level.scientific = some s)
    (hdigits : s.hasDigits = true) :
    ∃ finished, level.finishScientific = .ok finished ∧ finished.scientific = none ∧
      finished.finish = level.finish := by
  have hfinished : level.finishScientific =
      .ok { level with emitted := s.node :: level.emitted, last := .term, scientific := none } := by
    simp [Level.finishScientific, hs, hdigits]
  refine ⟨_, hfinished, rfl, ?_⟩
  rw [Level.finish_eq rfl, Level.finish, hfinished]
  rfl

/-- At a level, minus signs and blanks leave the nodes as they are. -/
theorem readAtLevel_sign (hlevel : level.IsSound) (hexponent : level.HasExponent)
    (hcls : cls = .minus ∨ cls = .blank) (relations : Bool) (place : Nat) (frames : List Frame) :
    ∃ level', readAtLevel relations place level frames cls = .ok ⟨level', frames⟩ ∧
      level'.finish = level.finish := by
  have hplain {l : Level} (hsound : l.IsSound) (hl : l.scientific = none) :
      ∃ level', readPlain relations place l frames cls = .ok ⟨level', frames⟩ ∧
        level'.finish = l.finish := by
    rcases hcls with rfl | rfl
    · refine ⟨_, rfl, ?_⟩
      rw [hsound.leaveFraction.readMinus hl, Level.finish_eq hl]
      exact Level.finish_eq rfl
    · exact ⟨_, rfl, (Level.finish_eq (l := l.leaveFraction) hl).trans (Level.finish_eq hl).symm⟩
  rw [readAtLevel]
  cases hs : level.scientific with
  | none => exact hplain hlevel hs
  | some s =>
    have hdigits := hexponent s hs
    rcases hcls with rfl | rfl
    · obtain ⟨finished, hfinished, hnone, hsame⟩ := exists_finished hs hdigits
      obtain ⟨level', hread, hsame'⟩ := hplain (hlevel.finishScientific hfinished) hnone
      refine ⟨level', ?_, hsame'.trans hsame⟩
      simp [ScientificDraft.read?, hdigits, hfinished, hread, bind, Except.bind]
    · exact ⟨_, rfl, by simp [Level.finish, Level.finishScientific, hs]⟩

/-- Minus signs and blanks leave as it is what the reader has where a term ends. -/
theorem ended_of_step (hr : r.IsSound) (hexponent : r.level.HasExponent)
    (hcls : cls = .minus ∨ cls = .blank) (relations : Bool) (place : Nat) :
    (do let r' ← r.step relations place cls; r'.ended) = r.ended := by
  obtain ⟨level, frames⟩ := r
  have hlevel {l frames frames'} (hsound : l.IsSound) (hexponent : l.HasExponent)
      (progress : Progress) (hframes : frames' = continued progress frames) :
      (do let r' ← readAtLevel relations place l frames' cls; r'.ended) = ended ⟨l, frames⟩ := by
    obtain ⟨level', hread, hsame⟩ := readAtLevel_sign hsound hexponent hcls relations place frames'
    rw [hread, hframes]
    exact ended_congr progress hsame
  have hopening : cls ≠ .opening := by rcases hcls with rfl | rfl <;> simp
  rcases frames with _ | ⟨⟨_ | _ | ⟨caret, progress⟩, outer⟩, rest⟩
  case cons.exponent =>
    cases hextend : progress.extend? cls with
    | some next =>
      simp only [step, hopening, and_false, if_false, hextend]
      exact hlevel hr.level hexponent next rfl
    | none =>
      rw [ended_of_closeExponents]
      simp only [step, hopening, and_false, if_false, hextend]
      cases hclosed : closeExponents level (⟨.exponent caret progress, outer⟩ :: rest) with
      | error reason => rfl
      | ok closed =>
        have hsound := isSound_closeExponents hr.level hr.frames hclosed
        have hsettled := isSettled_closeExponents hclosed
        exact hlevel hsound.level (hasExponent_of_closeExponents hr.frames hexponent hclosed)
          .complete (hsettled.continued_eq .complete).symm
  all_goals exact hlevel hr.level hexponent .complete rfl

/-! ## Where a term ends -/

/-- Such a character looks only at the nodes of the level. -/
theorem readAtLevel_of_endsTerm (hexponent : level.HasExponent) (hcls : cls.EndsTerm)
    (relations : Bool) (place : Nat) (frames : List Frame) :
    readAtLevel relations place level frames cls = (do
      let nodes ← level.finish
      readPlain relations place ⟨nodes.reverse, Draft.blank, .nothing, none⟩ frames cls) := by
  have hplain {l : Level} (hl : l.scientific = none) :
      readPlain relations place l frames cls = (do
        let nodes ← l.finish
        readPlain relations place ⟨nodes.reverse, Draft.blank, .nothing, none⟩ frames cls) := by
    have hsame : Level.finish ⟨l.flush.emitted, Draft.blank, .nothing, none⟩ = l.finish :=
      (Level.finish_eq rfl).trans (Level.finish_eq hl).symm
    rw [Level.finish_eq hl]
    simp only [bind, Except.bind, List.reverse_reverse]
    cases cls with
    | operator | relation =>
      simp [readPlain, Level.readOperator, Level.readRelation, Level.emit, Level.flush, hl,
        Draft.group?, Draft.blank]
    | closing => simp only [readPlain, closeBracket, hsame]
    | _ => cases hcls
  rw [readAtLevel]
  cases hs : level.scientific with
  | none => exact hplain hs
  | some s =>
    have hdigits := hexponent s hs
    obtain ⟨finished, hfinished, hnone, hsame⟩ := exists_finished hs hdigits
    have hread : s.read? place cls = .ok none := by
      cases cls with
      | closing | relation => rfl
      | operator => exact if_pos hdigits
      | _ => cases hcls
    rw [← hsame, ← hplain hnone]
    simp only [hread, hfinished, bind, Except.bind]

theorem step_ended (hr : r.IsSound) (hexponent : r.level.HasExponent) (hcls : cls.EndsTerm)
    (relations : Bool) (place : Nat) :
    r.step relations place cls = (do
      let r' ← r.ended
      r'.step relations place cls) := by
  rw [step_of_endsTerm hcls, ended]
  cases hclosed : closeExponents r.level r.frames with
  | error reason => rfl
  | ok closed =>
    have hexponent := hasExponent_of_closeExponents hr.frames hexponent hclosed
    simp only [bind, Except.bind]
    rw [readAtLevel_of_endsTerm hexponent hcls]
    cases closed.level.finish with
    | error reason => rfl
    | ok nodes => exact (step_settled (isSettled_closeExponents hclosed) rfl).symm

theorem exists_finish_of_hasExponent (hexponent : level.HasExponent) :
    ∃ nodes, level.finish = .ok nodes := by
  cases hs : level.scientific with
  | none => exact ⟨_, Level.finish_eq hs⟩
  | some s =>
    obtain ⟨finished, -, hnone, hsame⟩ := exists_finished hs (hexponent s hs)
    exact ⟨_, hsame.symm.trans (Level.finish_eq hnone)⟩

theorem finish_ended (hr : r.IsSound) (hexponent : r.level.HasExponent) :
    r.finish = (do
      let r' ← r.ended
      r'.finish) := by
  rw [finish, ended]
  cases hclosed : closeExponents r.level r.frames with
  | error reason => rfl
  | ok closed =>
    obtain ⟨nodes, hnodes⟩ := exists_finish_of_hasExponent
      (hasExponent_of_closeExponents hr.frames hexponent hclosed)
    have hfinish : Level.finish ⟨nodes.reverse, Draft.blank, .nothing, none⟩ = .ok nodes :=
      (Level.finish_eq rfl).trans (congrArg _ nodes.reverse_reverse)
    have hsettled := closeExponents_of_isSettled (isSettled_closeExponents hclosed)
    simp only [bind, Except.bind, hnodes, finish, hsettled, hfinish, pure, Except.pure]

/-- Where the rest of a text begins with the end of a term, only that matters. -/
theorem finish_readFrom_ended (hr : r.IsSound) (hexponent : r.level.HasExponent) {rest : List Char}
    (hrest : ∀ c ∈ rest.head?, (CharClass.of c).EndsTerm) (relations : Bool) (place : Nat) :
    (do let r' ← r.readFrom relations place rest; r'.finish) = (do
      let r' ← r.ended
      let r'' ← r'.readFrom relations place rest
      r''.finish) := by
  cases rest with
  | nil => exact finish_ended hr hexponent
  | cons c rest =>
    rw [readFrom, step_ended hr hexponent (hrest c rfl)]
    simp only [readFrom, bind_assoc]

/-- Such a text is read behind minus signs and blanks as it is read without them. -/
theorem finish_readFrom_signs (hr : r.IsSound) (hexponent : r.level.HasExponent)
    {run rest : List Char} (hrun : ∀ c ∈ run, IsSignOrBlank c)
    (hrest : ∀ c ∈ rest.head?, (CharClass.of c).EndsTerm) (relations : Bool) (place : Nat) :
    (do let r' ← r.readFrom relations place (run ++ rest); r'.finish) = (do
      let r' ← r.ended
      let r'' ← r'.readFrom relations (place + run.length) rest
      r''.finish) := by
  induction run generalizing place r with
  | nil => exact finish_readFrom_ended hr hexponent hrest relations place
  | cons c run ih =>
    rw [List.forall_mem_cons] at hrun
    have hended := ended_of_step hr hexponent hrun.1 relations place
    rw [List.cons_append, readFrom, ← hended, List.length_cons, ← Nat.add_assoc, Nat.add_right_comm]
    cases hstep : r.step relations place (CharClass.of c) with
    | error reason => rfl
    | ok r' =>
      have hcls : CharClass.of c ≠ .scientific := by rcases hrun.1 with hcls | hcls <;> simp [hcls]
      have hexponent := hasExponent_of_step hr hstep hcls fun _ => hexponent
      exact ih (hr.step hstep) hexponent hrun.2 (place + 1)

end Reader

/-! ## Texts -/

/-- The last class of a text that is none of those that are skipped. -/
def lastClass (skipped : List CharClass) (text : List Char) : Option CharClass :=
  lastBut skipped ((oneCharRelations text).map CharClass.of)

/-- A text from its first character on that is not blank. -/
def afterBlanks (text : List Char) : List Char :=
  (oneCharRelations text).dropWhile (CharClass.of · = .blank)

/-- Where the node stands that is read next behind a text. -/
def nextPlace (text : List Char) : Place :=
  match Reader.start.readFrom true 0 (oneCharRelations text) with
  | .ok r => ⟨Reader.wayThrough r.frames [], r.level.nodes.length⟩
  | .error _ => ⟨[], 0⟩

/-- The class of the first character of a text that is not blank. -/
def nextClass (text : List Char) : Option CharClass := (afterBlanks text).head?.map CharClass.of

theorem exists_blanks (text : List Char) :
    ∃ blanks, (∀ c ∈ blanks, CharClass.of c = .blank) ∧
      oneCharRelations text = blanks ++ afterBlanks text :=
  ⟨(oneCharRelations text).takeWhile (CharClass.of · = .blank),
    fun c hc => by simpa using List.mem_takeWhile_imp hc,
    List.takeWhile_append_dropWhile.symm⟩

theorem nextPlace_minus {pre : List Char} {before r : Reader}
    (hbefore : Reader.start.readFrom true 0 (oneCharRelations pre) = .ok before)
    (hstep : before.step true (0 + (oneCharRelations pre).length) .minus = .ok r) :
    nextPlace (pre ++ ['-']) = ⟨Reader.wayThrough r.frames [], r.level.nodes.length⟩ := by
  have hr : Reader.start.readFrom true 0 (oneCharRelations (pre ++ ['-'])) = .ok r := by
    rw [oneCharRelations_append_cons pre [] (by decide), Reader.readFrom_append, hbefore]
    exact Except.bind_eq_ok.2 ⟨before, rfl, Except.bind_eq_ok.2 ⟨r, hstep, rfl⟩⟩
  simp only [nextPlace, hr]

theorem isOddRun_of_blank {run : List Char} (h : ∀ c ∈ run, CharClass.of c = .blank) :
    isOddRun run = false := by
  have hcount : run.count '-' = 0 := List.count_eq_zero.2 fun hmem => by cases h _ hmem
  rw [isOddRun, hcount]
  rfl

theorem isPlainChar_of_sign {c : Char} (h : IsSignOrBlank c) :
    isPlainChar c = true := by
  unfold isPlainChar closingBracket? isClosingBracket
  split <;> first | (rcases h with h | h <;> cases h) | skip
  simp only [Option.isNone_none, Bool.true_and, Bool.and_eq_true, Bool.not_eq_true',
    Bool.or_eq_false_iff, decide_eq_false_iff_not, bne_iff_ne]
  refine ⟨⟨⟨?_, ?_⟩, ?_⟩, ?_⟩ <;> rintro rfl <;> rcases h with h | h <;> cases h

theorem isRelationPart_of_sign {c : Char} (h : IsSignOrBlank c) :
    isRelationPart c = false := by
  simp only [isRelationPart, Bool.or_eq_false_iff, decide_eq_false_iff_not]
  refine ⟨⟨⟨?_, ?_⟩, ?_⟩, ?_⟩ <;> rintro rfl <;> rcases h with h | h <;> cases h

theorem oneCharRelations_append_signs {run : List Char} (hne : run ≠ [])
    (hrun : ∀ c ∈ run, IsSignOrBlank c) (pre post : List Char) :
    oneCharRelations (pre ++ run ++ post) =
      oneCharRelations pre ++ (run ++ oneCharRelations post) := by
  rw [List.append_assoc]
  exact oneCharRelations_append_run pre post hne fun c hc => isRelationPart_of_sign (hrun c hc)

/-- Characters that are no brackets only count for the places of those behind them. -/
theorem checkBracketsFrom_append_congr {run run' : List Char} (hrun : IsTidyText run)
    (hrun' : IsTidyText run') (hlength : run.length = run'.length) (place : Nat)
    (pending : List (Nat × Char)) (text rest : List Char) :
    checkBracketsFrom place pending (text ++ (run ++ rest)) =
      checkBracketsFrom place pending (text ++ (run' ++ rest)) := by
  induction text generalizing place pending with
  | nil =>
    rw [List.nil_append, List.nil_append, hrun.checkBracketsFrom_append,
      hrun'.checkBracketsFrom_append, hlength]
  | cons c text ih => simp only [List.cons_append, checkBracketsFrom, ih]

namespace IsMinusRun

open Reader

variable {pre run post : List Char} {nodes : List Node}

theorem classes (h : IsMinusRun run) : ∀ c ∈ run, IsSignOrBlank c :=
  fun c hc => (h.signs c hc).imp_left fun heq => by rw [heq]; rfl

theorem ne_nil (h : IsMinusRun run) : run ≠ [] := by
  rintro rfl
  cases h.head

/-- Behind minus signs the reader goes on with their sign. -/
theorem exists_signed (h : IsMinusRun run) (hminus : lastClass [.blank] pre ≠ some .minus)
    (hexponent : lastClass exponentSigns pre ≠ some .scientific)
    (hparse : parse (pre ++ run ++ post) = .ok nodes) :
    ∃ emitted frames place r, AwaitsTerm frames ∧
      (signed emitted frames (isOddRun run)).IsSound ∧
      nextPlace (pre ++ ['-']) = ⟨wayThrough frames [], emitted.length⟩ ∧
      (signed emitted frames (isOddRun run)).readFrom true place (afterBlanks post) = .ok r ∧
      r.finish = .ok nodes := by
  obtain ⟨run, rfl⟩ := List.head?_eq_some_iff.1 h.head
  obtain ⟨⟨⟩, -, hparse⟩ := Except.bind_eq_ok.1 hparse
  obtain ⟨r, hr, hfinish⟩ := Except.bind_eq_ok.1 hparse
  rw [oneCharRelations_append_signs h.ne_nil h.classes, readFrom_append, List.cons_append] at hr
  obtain ⟨before, hbefore, hr⟩ := Except.bind_eq_ok.1 hr
  obtain ⟨next, hnext, hr⟩ := Except.bind_eq_ok.1 hr
  have hsound := isSound_start.readFrom hbefore
  obtain ⟨emitted, frames, hawaits, rfl⟩ := exists_signed_of_step hsound
    (last_ne_negation_of_readFrom hbefore hminus) (hasExponent_of_readFrom hbefore hexponent) hnext
  have hplace : nextPlace (pre ++ ['-']) = ⟨wayThrough frames [], emitted.length⟩ := by
    rw [nextPlace_minus hbefore hnext, signed, Level.nodes_untouched rfl rfl, List.length_reverse]
  obtain ⟨blanks, hblank, hpost⟩ := exists_blanks post
  have hsign : ∀ place, (signed emitted frames true).readFrom true place run =
      .ok (signed emitted frames (isOddRun ('-' :: run))) := fun place => by
    rw [readFrom_signed hawaits fun c hc => h.signs c (.tail _ hc), Bool.true_xor, isOddRun_minus]
  rw [readFrom_append, hsign] at hr
  obtain ⟨_, hrun, hr⟩ := Except.bind_eq_ok.1 hr
  obtain rfl := Except.ok.inj hrun
  rw [hpost, readFrom_append, readFrom_signed hawaits fun c hc => .inr (hblank c hc),
    isOddRun_of_blank hblank, Bool.xor_false] at hr
  obtain ⟨_, hblanks, hr⟩ := Except.bind_eq_ok.1 hr
  obtain rfl := Except.ok.inj hblanks
  have hsigned := (hsound.step hnext).readFrom (hsign 0)
  exact ⟨emitted, frames, _, r, hawaits, hsigned, hplace, hr, hfinish⟩

/-- Where no term follows, minus signs are dropped. -/
theorem parse_dropped (h : IsMinusRun run)
    (hexponent : lastClass exponentSigns pre ≠ some .scientific)
    (hpost : ∀ c ∈ (afterBlanks post).head?, (CharClass.of c).EndsTerm) :
    parse (pre ++ run ++ post) = parse (pre ++ List.replicate run.length ' ' ++ post) := by
  have hclasses : ∀ c ∈ List.replicate run.length ' ', IsSignOrBlank c :=
    fun c hc => .inr (List.eq_of_mem_replicate hc ▸ rfl)
  have hne : List.replicate run.length ' ' ≠ [] := by simp [h.ne_nil]
  have htidy {run : List Char} (hrun : ∀ c ∈ run, IsSignOrBlank c) :
      IsTidyText run := .of_forall fun c hc => isPlainChar_of_sign (hrun c hc)
  rw [parse, parse, parseWith, parseWith, oneCharRelations_append_signs h.ne_nil h.classes,
    oneCharRelations_append_signs hne hclasses, checkBrackets, checkBrackets,
    checkBracketsFrom_append_congr (htidy h.classes) (htidy hclasses) List.length_replicate.symm]
  congr 1
  funext _
  rw [readFrom_append, readFrom_append, bind_assoc, bind_assoc]
  cases hbefore : Reader.start.readFrom true 0 (oneCharRelations pre) with
  | error reason => rfl
  | ok before =>
    have hsound := isSound_start.readFrom hbefore
    have hexponent := hasExponent_of_readFrom hbefore hexponent
    obtain ⟨blanks, hblank, hrest⟩ := exists_blanks post
    have hjoin {run : List Char} (hrun : ∀ c ∈ run, IsSignOrBlank c) :
        ∀ c ∈ run ++ blanks, IsSignOrBlank c :=
      List.forall_mem_append.2 ⟨hrun, fun c hc => .inr (hblank c hc)⟩
    have hsigns := finish_readFrom_signs hsound hexponent (hjoin h.classes) hpost true
      (0 + (oneCharRelations pre).length)
    have hblanks := finish_readFrom_signs hsound hexponent (hjoin hclasses) hpost true
      (0 + (oneCharRelations pre).length)
    rw [List.append_assoc, ← hrest, List.length_append] at hsigns hblanks
    rw [List.length_replicate] at hblanks
    exact hsigns.trans hblanks.symm

end IsMinusRun

/-- Minus signs that stand together are the sign of the term that they stand before, and it is
negative if their number is odd.  Before an operator, a relation or a closing bracket, and at the
end of the text, they are dropped.  Nothing else can stand behind them. -/
theorem parse_minuses {pre run post : List Char} (hrun : IsMinusRun run)
    (hminus : lastClass [.blank] pre ≠ some .minus)
    (hexponent : lastClass exponentSigns pre ≠ some .scientific)
    (hnext : nextClass post ≠ some .minus) :
    match nextClass post with
    | some (.digit _) | some .point | some (.letter _) =>
      ∀ nodes, parse (pre ++ run ++ post) = .ok nodes →
        Sequence.HasAt (Node.HasSign (isOddRun run)) (nextPlace (pre ++ ['-'])) nodes
    | some .opening =>
      ∀ nodes, parse (pre ++ run ++ post) = .ok nodes →
        Sequence.HasAt (fun node => ∃ body, node.HasBody body (isOddRun run))
          (nextPlace (pre ++ ['-'])) nodes
    | some (.operator _) | some (.relation _) | some .closing | none =>
      parse (pre ++ run ++ post) = parse (pre ++ List.replicate run.length ' ' ++ post)
    | _ => ∀ nodes, parse (pre ++ run ++ post) ≠ .ok nodes := by
  cases hpost : afterBlanks post with
  | nil =>
    have hclass : nextClass post = none := by rw [nextClass, hpost]; rfl
    rw [hclass]
    exact hrun.parse_dropped hexponent (by simp [hpost])
  | cons c rest =>
    have hclass : nextClass post = some (CharClass.of c) := by rw [nextClass, hpost]; rfl
    have hends (hcls : (CharClass.of c).EndsTerm) :
        parse (pre ++ run ++ post) = parse (pre ++ List.replicate run.length ' ' ++ post) :=
      hrun.parse_dropped hexponent (by simpa [hpost] using hcls)
    have hfollow {nodes : List Node} (h : parse (pre ++ run ++ post) = .ok nodes) :=
      hpost ▸ hrun.exists_signed hminus hexponent h
    rw [hclass] at hnext ⊢
    cases hcls : CharClass.of c with
    | digit | point | letter =>
      intro nodes h
      obtain ⟨emitted, frames, place, r, -, hsound, hplace, hr, hfinish⟩ := hfollow h
      rw [hplace]
      exact Reader.hasSign_at_of_readFrom hsound (by simp [hcls]) hr hfinish
    | opening =>
      intro nodes h
      obtain ⟨emitted, frames, place, r, hawaits, hsound, hplace, hr, hfinish⟩ := hfollow h
      rw [hplace]
      exact Reader.hasBody_at_of_readFrom hawaits hsound hcls hr hfinish
    | operator | relation | closing => exact hends (by rw [hcls]; trivial)
    | minus => exact absurd (congrArg some hcls) hnext
    | blank =>
      have hnot := List.head?_dropWhile_not (CharClass.of · = .blank) (oneCharRelations post)
      rw [← afterBlanks, hpost] at hnot
      simp [hcls] at hnot
    | caret | scientific | exclamation =>
      intro nodes h
      obtain ⟨emitted, frames, place, r, hawaits, hsound, -, hr, hfinish⟩ := hfollow h
      exact Reader.finish_ne_ok_of_signed hawaits hsound (by simp [hcls]) hr hfinish

/-- Three signs of an exponent, and two that a bracket closes behind. -/
theorem parse_minuses_of_exponent_and_dropped :
    (parse "x^- - -2+1".toList =
        .ok [.group (some 'x') (Number.ofNat 1) [.group none ((Number.ofNat 2).withSign true) []],
          .operator .add, .group none (Number.ofNat 1) []] ∧
      Sequence.HasAt (Node.HasSign true) ⟨[(0, .power)], 0⟩
        [.group (some 'x') (Number.ofNat 1) [.group none ((Number.ofNat 2).withSign true) []],
          .operator .add, .group none (Number.ofNat 1) []]) ∧
      parse "(1--)".toList = parse "(1  )".toList := by
  have hthree : IsMinusRun ['-', ' ', '-', ' ', '-'] := ⟨rfl, by simp⟩
  have htwo : IsMinusRun ['-', '-'] := ⟨rfl, by simp⟩
  have hplace : nextPlace ("x^".toList ++ ['-']) = ⟨[(0, .power)], 0⟩ := by decide +kernel
  have hdigit : nextClass "2+1".toList = some (.digit 2) := by decide +kernel
  have hclosing : nextClass ")".toList = some .closing := by decide +kernel
  have hparse : parse "x^- - -2+1".toList =
      .ok [.group (some 'x') (Number.ofNat 1) [.group none ((Number.ofNat 2).withSign true) []],
        .operator .add, .group none (Number.ofNat 1) []] := by decide +kernel
  have hterm := @parse_minuses "x^".toList _ "2+1".toList hthree (by decide +kernel)
    (by decide +kernel) (by decide +kernel)
  have hdropped := @parse_minuses "(1".toList _ ")".toList htwo (by decide +kernel)
    (by decide +kernel) (by decide +kernel)
  rw [hdigit] at hterm
  rw [hclosing] at hdropped
  exact ⟨⟨hparse, hplace ▸ hterm _ hparse⟩, hdropped⟩

/-- Minus signs that no term follows are not refused. -/
theorem not_parse_refused_minus :
    ¬ ∀ pre run post : List Char, IsMinusRun run → lastClass [.blank] pre ≠ some .minus →
      lastClass exponentSigns pre ≠ some .scientific →
        (∀ cls ∈ nextClass post, CharClass.EndsTerm cls) →
          ∀ nodes, parse (pre ++ run ++ post) ≠ .ok nodes := by
  intro h
  have hparse : parse "1-".toList = .ok [.group none (Number.ofNat 1) []] := by decide +kernel
  have hend : nextClass [] = none := by decide +kernel
  exact h "1".toList ['-'] [] ⟨rfl, by simp⟩ (by decide +kernel) (by decide +kernel)
    (by simp [hend]) _ hparse

end OneUnknown
