import OneUnknown.Proofs.ReaderStates
/-!
# What is pending behind a text

Whether a sign waits for its term, and whether scientific notation waits for the digits of its
exponent, can be read off the end of the text: the sign has been read last, blanks apart, and the
`E` has, blanks and the signs of the exponent apart.

* `lastBut`: the end of a text, some classes of characters apart;
* `Reader.of_lastBut`: what only one class of characters can end is read off the end of the text;
* `Reader.last_ne_negation_of_readFrom`: no sign is pending;
* `Reader.hasExponent_of_readFrom`: no digits of an exponent are missing.
-/

namespace OneUnknown

/-! ## The end of a text -/

/-- The last class that is none of those that are skipped. -/
def lastBut (skipped classes : List CharClass) : Option CharClass :=
  (classes.reverse.dropWhile (· ∈ skipped)).head?

theorem lastBut_concat (skipped classes : List CharClass) (cls : CharClass) :
    lastBut skipped (classes ++ [cls]) =
      if cls ∈ skipped then lastBut skipped classes else some cls := by
  by_cases h : cls ∈ skipped <;> simp [lastBut, h]

/-- The classes that an exponent of scientific notation can begin with, its digits apart. -/
def exponentSigns : List CharClass := [.blank, .minus, .operator .add]

/-- No digits are missing in scientific notation. -/
def Level.HasExponent (l : Level) : Prop := ∀ s, l.scientific = some s → s.hasDigits = true

theorem Level.HasExponent.of_none {l : Level} (h : l.scientific = none) : l.HasExponent :=
  fun s hs => by simp [h] at hs

theorem Level.last_of_finishScientific {l l' : Level} (h : l.finishScientific = .ok l') :
    l'.last = l.last ∨ l'.last = .term := by
  rcases finishScientific_cases h with ⟨-, rfl⟩ | ⟨s, -, -, rfl⟩
  · exact .inl rfl
  · exact .inr rfl

namespace Reader

variable {relations : Bool} {place : Nat} {level : Level} {frames : List Frame} {cls : CharClass}
  {r r' : Reader}

/-- What only one class of characters can end, and the skipped ones keep, holds unless the text ends
in that class, the skipped ones apart. -/
theorem of_lastBut {P : Reader → Prop} {skipped : List CharClass} (hcls : cls ∉ skipped)
    (hstart : P start)
    (hstep : ∀ {r r' place cls'}, r.IsSound → r.step relations place cls' = .ok r' → cls' ≠ cls →
      (cls' ∈ skipped → P r) → P r')
    {text : List Char} (hr : start.readFrom relations 0 text = .ok r)
    (hlast : lastBut skipped (text.map CharClass.of) ≠ some cls) : P r := by
  induction text using List.reverseRecOn generalizing r with
  | nil => exact Except.ok.inj hr ▸ hstart
  | append_singleton text c ih =>
    rw [readFrom_append] at hr
    obtain ⟨before, hbefore, hr⟩ := Except.bind_eq_ok.1 hr
    obtain ⟨_, hnext, hr⟩ := Except.bind_eq_ok.1 hr
    obtain rfl := Except.ok.inj hr
    rw [List.map_append, List.map_singleton, lastBut_concat] at hlast
    refine hstep (isSound_start.readFrom hbefore) hnext ?_ fun hskipped => ?_
    · rintro rfl
      rw [if_neg hcls] at hlast
      exact hlast rfl
    · rw [if_pos hskipped] at hlast
      exact ih hbefore hlast

theorem closeExponents_cases (hframes : ∀ frame ∈ frames, frame.IsSound)
    (h : closeExponents level frames = .ok r) :
    r = ⟨level, frames⟩ ∨ r.level.last = .term ∧ r.level.scientific = none := by
  replace h := ExponentsClosed.of_closeExponents h
  induction h with
  | settled => exact .inl rfl
  | exponent _ hraised _ ih =>
    rw [List.forall_mem_cons] at hframes
    obtain ⟨-, hs, hlast, -⟩ :=
      Level.isSound_raise hframes.1.outer hframes.1.scientific hraised
    rcases ih hframes.2 with rfl | hr
    · exact .inr ⟨hlast, hs⟩
    · exact .inr hr

/-- What characters of a class keep at each level, and what holds behind a term, they keep where
they end exponents, too. -/
theorem level_of_step {P : Level → Prop} {kept : Prop} (hr : r.IsSound)
    (h : r.step relations place cls = .ok r') (hblank : P Level.blank)
    (hterm : ∀ level : Level, level.last = .term → level.scientific = none → P level)
    (hread : ∀ {level frames}, level.IsSound → (∀ frame ∈ frames, frame.IsSound) →
      (kept → P level) → readAtLevel relations place level frames cls = .ok r' → P r'.level)
    (hlevel : kept → P r.level) : P r'.level := by
  rcases step_cases h with ⟨caret, outer, frames, hframes, rfl, rfl⟩ |
    ⟨caret, progress, next, outer, frames, hframes, -, -, h⟩ | ⟨closed, hclosed, h⟩
  · have hbegun := hr.begun
    rw [hframes] at hbegun
    exact (show r.level = Level.blank from hbegun) ▸ hblank
  · have hsound := hr.frames
    rw [hframes, List.forall_mem_cons] at hsound
    exact hread hr.level (List.forall_mem_cons.2 ⟨hsound.1.reopened (by simp), hsound.2⟩) hlevel h
  · have hsound := isSound_closeExponents hr.level hr.frames hclosed
    refine hread hsound.level hsound.frames (fun hkept => ?_) h
    rcases closeExponents_cases hr.frames hclosed with rfl | ⟨hlast, hnone⟩
    · exact hlevel hkept
    · exact hterm closed.level hlast hnone

/-! ## Signs of terms -/

theorem last_ne_negation_of_readPlain (hframes : ∀ frame ∈ frames, frame.IsSound)
    (hcls : cls ≠ .minus) (hlevel : cls = .blank → level.last ≠ .negation)
    (h : readPlain relations place level frames cls = .ok r) : r.level.last ≠ .negation := by
  cases PlainRead.of_readPlain h with
  | digit hread => obtain ⟨-, ⟨-, rfl⟩ | ⟨-, rfl⟩⟩ := Level.readDigit_cases hread <;> simp
  | point hread =>
    obtain ⟨-, rfl⟩ := Level.readPoint_eq_ok hread
    simp
  | letter hread => obtain ⟨-, ⟨-, -, rfl⟩ | ⟨-, rfl⟩⟩ := Level.readLetter_cases hread <;> simp
  | scientific hread =>
    obtain ⟨mantissa, -, rfl⟩ := Level.readScientific_eq_ok hread
    simp
  | closing hclosed => simp [(isSound_closeBracket hframes hclosed).2.2.1]
  | minus => exact absurd rfl hcls
  | blank => exact hlevel rfl
  | operator | relation | opening | caret =>
    simp [Level.readOperator, Level.readRelation, Level.blank]

theorem last_ne_negation_of_readAtLevel (hlevel : level.IsSound)
    (hframes : ∀ frame ∈ frames, frame.IsSound) (hcls : cls ≠ .minus)
    (hlast : cls = .blank → level.last ≠ .negation)
    (h : readAtLevel relations place level frames cls = .ok r) : r.level.last ≠ .negation := by
  rcases readAtLevel_cases h with ⟨s, s', hs, -, rfl⟩ | ⟨finished, hfinished, -, h⟩
  · simp [(hlevel.scientific (by simp [hs])).2]
  · refine last_ne_negation_of_readPlain hframes hcls (fun hblank => ?_) h
    rcases Level.last_of_finishScientific hfinished with heq | heq
    · exact heq ▸ hlast hblank
    · simp [heq]

/-- Only a minus sign leaves a sign pending. -/
theorem last_ne_negation_of_step (hr : r.IsSound) (h : r.step relations place cls = .ok r')
    (hcls : cls ≠ .minus) (hlast : cls = .blank → r.level.last ≠ .negation) :
    r'.level.last ≠ .negation :=
  level_of_step hr h (by simp [Level.blank]) (fun _ hterm _ => by simp [hterm])
    (fun hlevel hframes hkept => last_ne_negation_of_readAtLevel hlevel hframes hcls hkept) hlast

/-- No sign is pending behind a text that does not end in a minus sign, blanks apart. -/
theorem last_ne_negation_of_readFrom {text : List Char}
    (h : start.readFrom relations 0 text = .ok r)
    (hlast : lastBut [.blank] (text.map CharClass.of) ≠ some .minus) :
    r.level.last ≠ .negation :=
  of_lastBut (P := fun r => r.level.last ≠ .negation) (by simp) nofun
    (fun hr h hcls hkept =>
      last_ne_negation_of_step hr h hcls fun hblank => hkept (by simp [hblank])) h hlast

/-! ## Exponents of scientific notation -/

theorem scientific_of_readPlain (hs : level.scientific = none)
    (hframes : ∀ frame ∈ frames, frame.IsSound) (hcls : cls ≠ .scientific)
    (h : readPlain relations place level frames cls = .ok r) : r.level.scientific = none := by
  have hleft : level.leaveFraction.scientific = none := hs
  cases PlainRead.of_readPlain h with
  | digit hread => exact (Level.isSound_readDigit hs hread).2
  | point hread => exact (Level.isSound_readPoint hs hread).2
  | letter hread => exact (Level.isSound_readLetter hleft hread).2
  | minus =>
    dsimp only [Level.readMinus]
    split <;> exact hs
  | scientific => exact absurd rfl hcls
  | closing hclosed => exact (isSound_closeBracket hframes hclosed).2.1
  | blank | operator | relation => exact hs
  | opening | caret => rfl

theorem hasExponent_of_readAtLevel (hframes : ∀ frame ∈ frames, frame.IsSound)
    (hcls : cls ≠ .scientific) (hlevel : cls ∈ exponentSigns → level.HasExponent)
    (h : readAtLevel relations place level frames cls = .ok r) : r.level.HasExponent := by
  rcases readAtLevel_cases h with ⟨s, s', hs, hread, rfl⟩ | ⟨finished, -, hnone, h⟩
  · have hkept (hsign : cls ∈ exponentSigns) (hsame : s'.hasDigits = s.hasDigits) :
        s'.hasDigits = true := hsame.trans (hlevel hsign s hs)
    intro _ heq
    obtain rfl := Option.some.inj heq
    cases cls with
    | digit => exact Option.some.inj (Except.ok.inj hread) ▸ rfl
    | blank =>
      exact hkept (by simp [exponentSigns]) (Option.some.inj (Except.ok.inj hread) ▸ rfl)
    | minus =>
      refine hkept (by simp [exponentSigns]) ?_
      simp only [ScientificDraft.read?] at hread
      split at hread
      · cases hread
      · exact Option.some.inj (Except.ok.inj hread) ▸ rfl
    | operator op =>
      simp only [ScientificDraft.read?] at hread
      split at hread
      · cases hread
      · split at hread
        · rename_i hop
          exact hkept (by simp [exponentSigns, hop])
            (congrArg _ (Option.some.inj (Except.ok.inj hread)).symm)
        · cases hread
    | _ => cases hread
  · exact .of_none (scientific_of_readPlain hnone hframes hcls h)

theorem hasExponent_of_closeExponents (hframes : ∀ frame ∈ frames, frame.IsSound)
    (hlevel : level.HasExponent) (h : closeExponents level frames = .ok r) :
    r.level.HasExponent := by
  rcases closeExponents_cases hframes h with rfl | ⟨-, hnone⟩
  · exact hlevel
  · exact .of_none hnone

/-- Only an `E` makes an exponent of scientific notation missing. -/
theorem hasExponent_of_step (hr : r.IsSound) (h : r.step relations place cls = .ok r')
    (hcls : cls ≠ .scientific) (hlevel : cls ∈ exponentSigns → r.level.HasExponent) :
    r'.level.HasExponent :=
  level_of_step hr h nofun (fun _ _ hnone => .of_none hnone)
    (fun _ hframes hkept => hasExponent_of_readAtLevel hframes hcls hkept) hlevel

/-- No digits of an exponent are missing behind a text that does not end in an `E`, blanks and signs
apart. -/
theorem hasExponent_of_readFrom {text : List Char} (h : start.readFrom relations 0 text = .ok r)
    (hlast : lastBut exponentSigns (text.map CharClass.of) ≠ some .scientific) :
    r.level.HasExponent :=
  of_lastBut (P := fun r => r.level.HasExponent) (by simp [exponentSigns]) nofun
    hasExponent_of_step h hlast

end Reader

end OneUnknown
