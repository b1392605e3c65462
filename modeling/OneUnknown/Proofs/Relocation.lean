import OneUnknown.Proofs.ReaderSteps
import Mathlib.Data.List.Forall2
/-!
# Reading at another place

A place is recorded where a bracket or an exponent opens and where scientific notation begins, and
only an error says it.  Two readers that differ in such places read the same: either both refuse a
text, or both accept it with the same nodes.

* `BothGive`: two computations that both fail, or both succeed with related results;
* `Level.Alike`, `Frame.Alike`, `Reader.Alike`: what differs in places only;
* `Reader.alike_step`, `Reader.alike_readFrom`: a character keeps that, and so does a text;
* `Reader.readFrom_elsewhere`: the nodes of a text do not depend on its place.
-/

namespace OneUnknown

/-! ## Two computations -/

/-- Two computations that both fail, or both give results that are related. -/
inductive BothGive {ε α β : Type} (related : α → β → Prop) : Except ε α → Except ε β → Prop where
  | error (e e' : ε) : BothGive related (.error e) (.error e')
  | ok {a : α} {b : β} (h : related a b) : BothGive related (.ok a) (.ok b)

namespace BothGive

variable {ε α β γ δ : Type} {related : α → β → Prop} {related' : γ → δ → Prop}
  {x : Except ε α} {y : Except ε β}

theorem refl (x : Except ε α) : BothGive Eq x x := by
  cases x with
  | error e => exact .error e e
  | ok a => exact .ok rfl

theorem bind {f : α → Except ε γ} {g : β → Except ε δ} (h : BothGive related x y)
    (hf : ∀ a b, related a b → BothGive related' (f a) (g b)) :
    BothGive related' (x >>= f) (y >>= g) := by
  cases h with
  | error e e' => exact .error e e'
  | ok h => exact hf _ _ h

theorem of_ok {a : α} (h : BothGive related (.ok a) y) : ∃ b, y = .ok b ∧ related a b := by
  cases h with
  | ok h => exact ⟨_, rfl, h⟩

end BothGive

/-! ## What differs in places -/

/-- Levels that differ at most in the place of an `E`. -/
inductive Level.Alike : Level → Level → Prop where
  | refl (l : Level) : Alike l l
  | scientific (l : Level) (s : ScientificDraft) (place : Nat) :
      Alike { l with scientific := some s } { l with scientific := some { s with place } }

/-- Frames that differ at most in the place where they were opened. -/
inductive Frame.Alike : Frame → Frame → Prop where
  | bracket (place place' : Nat) (negative : Bool) (outer : Level) :
      Alike ⟨.bracket place negative, outer⟩ ⟨.bracket place' negative, outer⟩
  | bracketExponent (caret caret' : Nat) (outer : Level) :
      Alike ⟨.bracketExponent caret, outer⟩ ⟨.bracketExponent caret', outer⟩
  | exponent (caret caret' : Nat) (progress : Progress) (outer : Level) :
      Alike ⟨.exponent caret progress, outer⟩ ⟨.exponent caret' progress, outer⟩

/-- Readers that differ in places only. -/
structure Reader.Alike (r r' : Reader) : Prop where
  level : r.level.Alike r'.level
  frames : r.frames.Forall₂ Frame.Alike r'.frames

theorem Frame.Alike.refl (frame : Frame) : frame.Alike frame := by
  obtain ⟨_ | _ | _, outer⟩ := frame
  · exact .bracket ..
  · exact .bracketExponent ..
  · exact .exponent ..

theorem Reader.Alike.refl (r : Reader) : r.Alike r :=
  ⟨.refl r.level, List.forall₂_same.2 fun frame _ => .refl frame⟩

/-! ## Levels -/

namespace Level

variable {l l' : Level} (place place' : Nat)

theorem Alike.finishScientific (h : l.Alike l') :
    BothGive Eq l.finishScientific l'.finishScientific := by
  cases h with
  | refl => exact .refl _
  | scientific l s place =>
    simp only [Level.finishScientific]
    split
    · exact .ok rfl
    · exact .error _ _

theorem Alike.finish (h : l.Alike l') : BothGive Eq l.finish l'.finish := by
  refine h.finishScientific.bind ?_
  rintro finished _ rfl
  exact .refl _

theorem bothGive_raise (l : Level) (power : List Node) :
    BothGive Eq (l.raise place power) (l.raise place' power) := by
  unfold raise
  split
  · exact .error _ _
  · split
    · split
      · exact .ok rfl
      · exact .error _ _
    · split
      · exact .error _ _
      · split
        · exact .ok rfl
        · exact .ok rfl
        · exact .error _ _

theorem bothGive_readDigit (l : Level) (value : Nat) :
    BothGive Eq (l.readDigit place value) (l.readDigit place' value) := by
  unfold readDigit
  split
  · exact .error _ _
  · exact .ok rfl

theorem bothGive_readPoint (l : Level) :
    BothGive Eq (l.readPoint place) (l.readPoint place') := by
  unfold readPoint
  split
  · exact .error _ _
  · exact .ok rfl

theorem bothGive_readLetter (l : Level) (name : Char) :
    BothGive Eq (l.readLetter place name) (l.readLetter place' name) := by
  unfold readLetter
  split
  · exact .ok rfl
  · exact .error _ _

theorem bothGive_readScientific (l : Level) :
    BothGive Alike (l.readScientific place) (l.readScientific place') := by
  unfold readScientific
  split
  · rename_i mantissa _
    exact .ok (.scientific ⟨l.emitted, Draft.blank, .term, none⟩
      ⟨mantissa, 0, false, false, place⟩ place')
  · exact .error _ _

end Level

theorem ScientificDraft.bothGive_read? (s : ScientificDraft) (moved place place' : Nat)
    (cls : CharClass) :
    BothGive (fun next next' => next' = next.map fun s => { s with place := moved })
      (s.read? place cls) ({ s with place := moved }.read? place' cls) := by
  cases cls with
  | operator op =>
    simp only [read?]
    split
    · exact .ok rfl
    · split
      · exact .ok rfl
      · exact .error _ _
  | minus =>
    simp only [read?]
    split
    · exact .ok rfl
    · exact .ok rfl
  | _ => exact .ok rfl

/-! ## The reader -/

namespace Reader

variable {relations : Bool} {place place' : Nat} {level level' : Level}
  {frames frames' : List Frame} {cls : CharClass} {r r' : Reader}

theorem alike_closeExponents (hlevel : level.Alike level')
    (hframes : frames.Forall₂ Frame.Alike frames') :
    BothGive Alike (closeExponents level frames) (closeExponents level' frames') := by
  induction hframes generalizing level level' with
  | nil => exact .ok ⟨hlevel, .nil⟩
  | cons hframe hrest ih =>
    cases hframe with
    | exponent caret caret' progress outer =>
      refine hlevel.finish.bind ?_
      rintro power _ rfl
      refine (Level.bothGive_raise caret caret' outer power).bind ?_
      rintro raised _ rfl
      exact ih (.refl raised)
    | bracket | bracketExponent => exact .ok ⟨hlevel, .cons (by constructor) hrest⟩

theorem alike_completeExponent (h : frames.Forall₂ Frame.Alike frames') :
    (completeExponent frames).Forall₂ Frame.Alike (completeExponent frames') := by
  cases h with
  | nil => exact .nil
  | cons hframe hrest =>
    cases hframe with
    | bracket | bracketExponent | exponent => exact .cons (by constructor) hrest

theorem alike_closeBracket (hlevel : level.Alike level')
    (hframes : frames.Forall₂ Frame.Alike frames') :
    BothGive Alike (closeBracket place level frames) (closeBracket place' level' frames') := by
  cases hframes with
  | nil => exact .error _ _
  | cons hframe hrest =>
    cases hframe with
    | exponent => exact .error _ _
    | bracket opened opened' negative outer =>
      refine hlevel.finish.bind ?_
      rintro body _ rfl
      split
      · exact .error _ _
      · exact .ok ⟨.refl _, alike_completeExponent hrest⟩
    | bracketExponent caret caret' outer =>
      refine hlevel.finish.bind ?_
      rintro power _ rfl
      refine (Level.bothGive_raise caret caret' outer power).bind ?_
      rintro raised _ rfl
      exact .ok ⟨.refl raised, alike_completeExponent hrest⟩

theorem alike_readPlain (level : Level) (hframes : frames.Forall₂ Frame.Alike frames') :
    BothGive Alike (readPlain relations place level frames cls)
      (readPlain relations place' level frames' cls) := by
  have hread {x y : Except ParseError Level} (h : BothGive Level.Alike x y) :
      BothGive Alike (x >>= fun l => pure ⟨l, frames⟩) (y >>= fun l => pure ⟨l, frames'⟩) :=
    h.bind fun _ _ hlevel => .ok ⟨hlevel, hframes⟩
  have hsame {x y : Except ParseError Level} (h : BothGive Eq x y) :
      BothGive Alike (x >>= fun l => pure ⟨l, frames⟩) (y >>= fun l => pure ⟨l, frames'⟩) :=
    h.bind fun l _ heq => .ok ⟨heq ▸ .refl l, hframes⟩
  cases cls with
  | digit value => exact hsame (Level.bothGive_readDigit place place' level value)
  | point => exact hsame (Level.bothGive_readPoint place place' level)
  | letter name => exact hsame (Level.bothGive_readLetter place place' _ name)
  | scientific => exact hread (Level.bothGive_readScientific place place' level)
  | blank | minus | operator => exact .ok ⟨.refl _, hframes⟩
  | relation rel =>
    have hempty : frames.isEmpty = frames'.isEmpty := by cases hframes <;> rfl
    simp only [readPlain, hempty]
    split
    · exact .ok ⟨.refl _, hframes⟩
    · exact .error _ _
  | opening => exact .ok ⟨.refl _, .cons (.bracket ..) hframes⟩
  | closing => exact alike_closeBracket (.refl level) hframes
  | caret => exact .ok ⟨.refl _, .cons (.exponent ..) hframes⟩
  | exclamation => exact .error _ _

theorem alike_readAtLevel (hlevel : level.Alike level')
    (hframes : frames.Forall₂ Frame.Alike frames') :
    BothGive Alike (readAtLevel relations place level frames cls)
      (readAtLevel relations place' level' frames' cls) := by
  have hends {x y : Except ParseError Level} (h : BothGive Eq x y) :
      BothGive Alike (x >>= fun l => readPlain relations place l frames cls)
        (y >>= fun l => readPlain relations place' l frames' cls) :=
    h.bind fun l _ heq => heq ▸ alike_readPlain l hframes
  cases hlevel with
  | refl =>
    unfold readAtLevel
    split
    · exact alike_readPlain level hframes
    · rename_i s _
      refine (s.bothGive_read? s.place place place' cls).bind ?_
      rintro (_ | next) _ rfl
      · exact hends (.refl _)
      · exact .ok ⟨.scientific { level with scientific := some next } next s.place, hframes⟩
  | scientific l s moved =>
    refine (s.bothGive_read? moved place place' cls).bind ?_
    rintro (_ | next) _ rfl
    · exact hends (Level.Alike.scientific l s moved).finishScientific
    · exact .ok ⟨.scientific l next moved, hframes⟩

theorem alike_step (h : r.Alike r') :
    BothGive Alike (r.step relations place cls) (r'.step relations place' cls) := by
  obtain ⟨level, frames⟩ := r
  obtain ⟨level', frames'⟩ := r'
  obtain ⟨hlevel, hframes⟩ := h
  have hclose {frames frames' : List Frame} (hframes : frames.Forall₂ Frame.Alike frames') :
      BothGive Alike
        (closeExponents level frames >>= fun r => readAtLevel relations place r.level r.frames cls)
        (closeExponents level' frames' >>= fun r =>
          readAtLevel relations place' r.level r.frames cls) :=
    (alike_closeExponents hlevel hframes).bind fun _ _ h => alike_readAtLevel h.level h.frames
  cases hframes with
  | nil => exact alike_readAtLevel hlevel .nil
  | cons hframe hrest =>
    cases hframe with
    | bracket | bracketExponent =>
      exact alike_readAtLevel hlevel (.cons (by constructor) hrest)
    | exponent caret caret' progress outer =>
      unfold step
      dsimp only
      split
      · exact .ok ⟨hlevel, .cons (.bracketExponent ..) hrest⟩
      · split
        · exact alike_readAtLevel hlevel (.cons (.exponent ..) hrest)
        · exact hclose (.cons (.exponent ..) hrest)

/-- A text that can be read is read at any other place, too. -/
theorem alike_readFrom {text : List Char} (h : r.Alike r') :
    BothGive Alike (r.readFrom relations place text) (r'.readFrom relations place' text) := by
  induction text generalizing place place' r r' with
  | nil => exact .ok h
  | cons c rest ih => exact (alike_step h).bind fun _ _ h => ih h

theorem finish_of_alike {nodes : List Node} (h : r.Alike r') (hr : r.finish = .ok nodes) :
    r'.finish = .ok nodes := by
  obtain ⟨level, hclosed, hlevel⟩ := finish_eq_ok.1 hr
  have hboth := alike_closeExponents h.level h.frames
  rw [hclosed] at hboth
  obtain ⟨⟨level', frames'⟩, hclosed', halike⟩ := hboth.of_ok
  obtain rfl : frames' = [] := List.forall₂_nil_left_iff.1 halike.frames
  have hnodes := halike.level.finish
  rw [hlevel] at hnodes
  obtain ⟨_, hlevel', rfl⟩ := hnodes.of_ok
  exact finish_eq_ok.2 ⟨level', hclosed', hlevel'⟩

/-- What is read of a text does not depend on its place. -/
theorem readFrom_elsewhere {text : List Char} {nodes : List Node} (place' : Nat)
    (h : r.readFrom relations place text = .ok r') (hfinish : r'.finish = .ok nodes) :
    ∃ r'', r.readFrom relations place' text = .ok r'' ∧ r''.finish = .ok nodes := by
  have hboth : BothGive Alike (r.readFrom relations place text)
      (r.readFrom relations place' text) := alike_readFrom (.refl r)
  rw [h] at hboth
  obtain ⟨r'', hr'', halike⟩ := hboth.of_ok
  exact ⟨r'', hr'', finish_of_alike halike hfinish⟩

end Reader

end OneUnknown
