import OneUnknown.Proofs.BracketPairs
import OneUnknown.Proofs.ErrorPlaces
/-!
# Reading by spans

The reader goes through a text once and keeps the levels that wait on a stack.  The same reading can
be said with spans: where every bracket is closed is recorded beforehand, what stands in brackets and
every exponent is a span of its own, which is read before reading goes on behind it.

Nothing is taken for granted about these spans.  Reading gets stuck (`Impasse`) at a bracket that is
not recorded, at one that is recorded to be closed outside of the span that is being read, and at a
span whose own brackets are not balanced.

* `Portion`: a balanced span, and what follows it, inside of another span;
* `bracketPortion`, `exponentPortion`: the spans of brackets and of exponents;
* `scanSpan`, `parseBySpans`: reading a span, and a text.
-/

namespace OneUnknown

/-! ## Spans -/

/-- Why reading by spans ends without nodes. -/
inductive Impasse where
  /-- The text is refused. -/
  | refused (reason : ParseError)
  /-- Where the bracket is closed has not been recorded. -/
  | unrecorded (place : Nat)
  /-- The bracket is recorded to be closed outside of the span. -/
  | outside (place : Nat)
  /-- The brackets of the span that begins at `place`, or of what follows it, are not balanced. -/
  | unbalanced (place : Nat)
  deriving DecidableEq, Repr

/-- A computation of the reader. -/
def refusing {α : Type} (x : Except ParseError α) : Except Impasse α := x.mapError .refused

/-- A span in what follows a character, and the rest behind it.  The brackets of both are balanced.
Neither is longer than what they are taken from, so both are shorter than the span of which the
character is the first. -/
structure Portion (text : List Char) where
  /-- Where the span begins. -/
  place : Nat
  span : List Char
  /-- Where the rest begins. -/
  next : Nat
  rest : List Char
  span_balanced : Balanced span
  rest_balanced : Balanced rest
  span_length : span.length ≤ text.length
  rest_length : rest.length ≤ text.length

namespace Portion

/-- The first characters of the text at `place`, and what follows after some characters. -/
def cut (place : Nat) (text : List Char) (taken dropped : Nat) :
    Except Impasse (Portion text) :=
  if h : Balanced (text.take taken) ∧ Balanced (text.drop dropped) then
    .ok
      { place := place
        span := text.take taken
        next := place + dropped
        rest := text.drop dropped
        span_balanced := h.1
        rest_balanced := h.2
        span_length := (List.take_sublist taken text).length_le
        rest_length := (List.drop_sublist dropped text).length_le }
  else .error (.unbalanced place)

/-- The same portion, of a text with one more character in front. -/
def behind {text : List Char} (c : Char) (p : Portion text) : Portion (c :: text) :=
  { p with
    span_length := Nat.le_succ_of_le p.span_length
    rest_length := Nat.le_succ_of_le p.rest_length }

end Portion

/-- The span in the brackets of which the first stands at `place`, before the text. -/
def bracketPortion (pairs : List (Nat × Nat)) (place : Nat) (text : List Char) :
    Except Impasse (Portion text) :=
  match pairs.lookup place with
  | none => .error (.unrecorded place)
  | some closed =>
    if place < closed ∧ closed ≤ place + text.length then
      Portion.cut (place + 1) text (closed - place - 1) (closed - place)
    else .error (.outside place)

/-- How many characters of the text at `place` belong to an exponent without brackets around it.
What stands in brackets belongs to it with them. -/
def exponentLength (pairs : List (Nat × Nat)) (place : Nat) (progress : Progress) :
    List Char → Except Impasse Nat
  | [] => .ok 0
  | c :: text =>
    match progress.extend? (CharClass.of c) with
    | none => .ok 0
    | some progress =>
      if CharClass.of c = .opening then do
        let p ← bracketPortion pairs place text
        let length ← exponentLength pairs p.next .complete p.rest
        return p.next - place + length
      else do
        let length ← exponentLength pairs (place + 1) progress text
        return length + 1
termination_by text => text.length
decreasing_by
  · exact Nat.lt_succ_of_le p.rest_length
  · exact Nat.lt_succ_self _

/-- The span of the exponent of the caret at `caret`: what stands in the brackets with which it
begins, or else what `exponentLength` says.  Blanks before it are skipped. -/
def exponentPortion (pairs : List (Nat × Nat)) (caret place : Nat) :
    (text : List Char) → Except Impasse (Portion text)
  | [] => .error (.refused (.danglingExponent caret))
  | c :: text =>
    if CharClass.of c = .blank then do
      let p ← exponentPortion pairs caret (place + 1) text
      return p.behind c
    else if CharClass.of c = .opening then do
      let p ← bracketPortion pairs place text
      return p.behind c
    else do
      let length ← exponentLength pairs place .incomplete (c :: text)
      Portion.cut place (c :: text) length length

/-- The span that a level is opened for, in the text behind the character at `place`. -/
def Opening.portion (pairs : List (Nat × Nat)) (place : Nat) (text : List Char) :
    Opening → Except Impasse (Portion text)
  | .bracket .. => bracketPortion pairs place text
  | .bracketExponent caret | .exponent caret _ => exponentPortion pairs caret (place + 1) text

/-! ## Reading -/

/-- The level around a span whose nodes have been read. -/
def Level.enclose (outer : Level) (nodes : List Node) : Opening → Except ParseError Level
  | .bracket opened negative =>
    if nodes = [] then .error (.emptyBracket opened) else .ok (outer.addParen nodes negative)
  | .bracketExponent caret | .exponent caret _ => outer.raise caret nodes

/-- Read the rest of a span.  A character for which the reader would open a level begins a span
inside of it. -/
def scanSpan (pairs : List (Nat × Nat)) (relations : Bool) (place : Nat) (level : Level) :
    List Char → Except Impasse Level
  | [] => .ok level
  | c :: text => do
    let r ← refusing (Reader.readAtLevel relations place level [] (CharClass.of c))
    match r.frames with
    | [] => scanSpan pairs relations (place + 1) r.level text
    | ⟨opening, outer⟩ :: _ => do
      let p ← opening.portion pairs place text
      let inner ← scanSpan pairs false p.place Level.blank p.span
      let nodes ← refusing inner.finish
      let level ← refusing (outer.enclose nodes opening)
      scanSpan pairs relations p.next level p.rest
termination_by text => text.length
decreasing_by
  · exact Nat.lt_succ_self _
  · exact Nat.lt_succ_of_le p.span_length
  · exact Nat.lt_succ_of_le p.rest_length

/-- Read a text span by span. -/
def parseBySpans (relations : Bool) (text : List Char) : Except Impasse (List Node) := do
  let pairs ← refusing (bracketPairs text)
  let level ← scanSpan pairs relations 0 Level.blank text
  refusing level.finish

/-! ## The spans of a balanced text -/

theorem CharClass.of_eq_opening {opening closing : Char}
    (h : closingBracket? opening = some closing) : CharClass.of opening = .opening := by
  unfold closingBracket? at h
  split at h <;> first | rfl | cases h

theorem CharClass.of_eq_closing {c : Char} (h : isClosingBracket c = true) :
    CharClass.of c = .closing := by
  simp only [isClosingBracket, Bool.or_eq_true, decide_eq_true_eq] at h
  rcases h with (rfl | rfl) | rfl <;> rfl

namespace IsNoBracket

variable {c : Char}

theorem opens_eq_zero (h : IsNoBracket c) : (CharClass.of c).opens = 0 := by
  rw [CharClass.opens_of, h.opens, h.closes]
  rfl

theorem ne_opening (h : IsNoBracket c) : CharClass.of c ≠ .opening := fun hclass => by
  have := h.opens_eq_zero
  rw [hclass] at this
  cases this

theorem ne_closing (h : IsNoBracket c) : CharClass.of c ≠ .closing := fun hclass => by
  have := h.opens_eq_zero
  rw [hclass] at this
  cases this

theorem of_ne (hopening : CharClass.of c ≠ .opening) (hclosing : CharClass.of c ≠ .closing) :
    IsNoBracket c := by
  rcases bracket_cases c with ⟨closing, hpair⟩ | hcloses | hnone
  · exact absurd (CharClass.of_eq_opening hpair) hopening
  · exact absurd (CharClass.of_eq_closing hcloses) hclosing
  · exact hnone

end IsNoBracket

/-- Brackets that close never belong to an exponent. -/
@[simp] theorem Progress.extend?_closing (p : Progress) : p.extend? .closing = none := by
  cases p <;> rfl

section

variable {pairs : List (Nat × Nat)} {place : Nat} {opening closing : Char}
  {text span inner after rest : List Char}

theorem Portion.cut_eq {taken dropped : Nat} (hspan : text.take taken = span)
    (hrest : text.drop dropped = rest) (hspanBalanced : Balanced span)
    (hrestBalanced : Balanced rest) :
    Portion.cut place text taken dropped =
      .ok ⟨place, span, place + dropped, rest, hspanBalanced, hrestBalanced,
        hspan ▸ (List.take_sublist taken text).length_le,
        hrest ▸ (List.drop_sublist dropped text).length_le⟩ := by
  subst hspan hrest
  exact dif_pos ⟨hspanBalanced, hrestBalanced⟩

theorem Records.behind_pair (h : Records pairs place (opening :: (inner ++ closing :: after))) :
    Records pairs (place + (inner.length + 2)) after := by
  have := Records.of_append (opening :: (inner ++ [closing])) [] (by simpa using h)
  simpa using this

theorem Records.inside_pair (h : Records pairs place (opening :: (inner ++ closing :: after))) :
    Records pairs (place + 1) inner :=
  Records.of_append [opening] (closing :: after) (by simpa using h)

/-- The partner of a bracket is found, and lies in the same span. -/
theorem bracketPortion_eq (hpair : closingBracket? opening = some closing)
    (hrecords : Records pairs place (opening :: (inner ++ closing :: after)))
    (hinner : Balanced inner) (hafter : Balanced after) :
    bracketPortion pairs place (inner ++ closing :: after) =
      .ok ⟨place + 1, inner, place + (inner.length + 2), after, hinner, hafter,
        (List.sublist_append_left inner _).length_le,
        ((List.sublist_cons_self closing after).trans
          (List.sublist_append_right inner _)).length_le⟩ := by
  have hlookup := hrecords 0 (1 + inner.length) ⟨[], opening, inner, closing, after, rfl, hpair,
    hinner, rfl, by omega⟩
  rw [Nat.add_zero] at hlookup
  have hinside : place < place + (1 + inner.length) ∧
      place + (1 + inner.length) ≤ place + (inner ++ closing :: after).length := by
    simp
    omega
  have htaken : (inner ++ closing :: after).take (place + (1 + inner.length) - place - 1) = inner := by
    simp
  have hdropped : (inner ++ closing :: after).drop (place + (1 + inner.length) - place) = after := by
    simp [Nat.add_comm 1]
  rw [bracketPortion, hlookup]
  dsimp only
  rw [if_pos hinside, Portion.cut_eq htaken hdropped hinner hafter]
  congr 2
  omega

/-- A text belongs to an exponent as a whole, and takes it from one progress to another.  A bracket
in it brings what stands in it with it. -/
inductive Progress.Runs : Progress → List Char → Progress → Prop where
  | nil (p : Progress) : Runs p [] p
  | char {c : Char} {text : List Char} {p next q : Progress} (hc : CharClass.of c ≠ .opening)
      (hnext : p.extend? (CharClass.of c) = some next) (tail : Runs next text q) :
      Runs p (c :: text) q
  | pair {opening closing : Char} {inner after : List Char} {p next q : Progress}
      (hpair : closingBracket? opening = some closing)
      (hnext : p.extend? .opening = some next) (hinner : Balanced inner)
      (tail : Runs .complete after q) : Runs p (opening :: (inner ++ closing :: after)) q

theorem Progress.Runs.balanced {p q : Progress} (h : p.Runs text q) : Balanced text := by
  induction h with
  | nil => exact .nil
  | char hc hnext _ ih =>
    refine .cons (.of_ne hc fun hclosing => ?_) ih
    rw [hclosing, Progress.extend?_closing] at hnext
    cases hnext
  | pair hpair _ hinner _ ih => exact .pair hpair hinner ih

/-- A bracket belongs to an exponent only before anything that has a value. -/
theorem Progress.Runs.of_pair {p q : Progress} (hpair : closingBracket? opening = some closing)
    (hinner : Balanced inner) (h : p.Runs (opening :: (inner ++ closing :: after)) q) :
    p.extend? .opening = some .incomplete ∧ Progress.Runs .complete after q := by
  generalize htext : opening :: (inner ++ closing :: after) = text at h
  cases h with
  | nil => cases htext
  | char hc =>
    obtain ⟨rfl, -⟩ := List.cons.inj htext
    exact absurd (CharClass.of_eq_opening hpair) hc
  | @pair opening' closing' inner' after' _ next _ hpair' hnext hinner' tail =>
    obtain ⟨rfl, htail⟩ := List.cons.inj htext
    obtain ⟨rfl, -, rfl⟩ := hinner.partner_unique hinner' (isClosingBracket_of_closes hpair)
      (isClosingBracket_of_closes hpair') htail
    refine ⟨?_, tail⟩
    cases p <;> first | rfl | cases hnext

/-- Nothing that follows belongs to the exponent. -/
def Progress.StopsAt (p : Progress) (text : List Char) : Prop :=
  ∀ c ∈ text.head?, p.extend? (CharClass.of c) = none

theorem Progress.StopsAt.of_append {p : Progress} (h : p.StopsAt (text ++ rest)) :
    p.StopsAt text := fun c hc => h c (by
  rw [List.head?_append]
  exact Option.or_eq_some_iff.2 (.inl hc))

/-- How much of a balanced text belongs to an exponent. -/
theorem Balanced.exists_runs (h : Balanced text) (p : Progress) :
    ∃ run after q, text = run ++ after ∧ p.Runs run q ∧ Balanced after ∧ q.StopsAt after := by
  induction h generalizing p with
  | nil => exact ⟨[], [], p, rfl, .nil p, .nil, by simp [Progress.StopsAt]⟩
  | @cons c rest hc hrest ih =>
    cases hnext : p.extend? (CharClass.of c) with
    | none => exact ⟨[], c :: rest, p, rfl, .nil p, .cons hc hrest, by simpa [Progress.StopsAt]⟩
    | some next =>
      obtain ⟨run, after, q, rfl, hrun, hafter, hstops⟩ := ih next
      exact ⟨c :: run, after, q, rfl, .char hc.ne_opening hnext hrun, hafter, hstops⟩
  | @pair opening closing inner rest hpair hinner hrest _ ih =>
    cases hnext : p.extend? .opening with
    | none =>
      refine ⟨[], _, p, rfl, .nil p, .pair hpair hinner hrest, ?_⟩
      simpa [Progress.StopsAt, CharClass.of_eq_opening hpair] using hnext
    | some next =>
      obtain ⟨run, after, q, rfl, hrun, hafter, hstops⟩ := ih .complete
      exact ⟨opening :: (inner ++ closing :: run), after, q, by simp, .pair hpair hnext hinner hrun,
        hafter, hstops⟩

/-- That much is found. -/
theorem exponentLength_eq {p q : Progress} (h : p.Runs text q) (hafter : Balanced after)
    (hstops : q.StopsAt after) (hrecords : Records pairs place (text ++ after)) :
    exponentLength pairs place p (text ++ after) = .ok text.length := by
  induction h generalizing place with
  | nil p =>
    cases after with
    | nil => rw [List.append_nil, exponentLength]; rfl
    | cons c rest => rw [List.nil_append, exponentLength, hstops c rfl]; rfl
  | @char c text p next q hc hnext tail ih =>
    have hrest : Records pairs (place + 1) (text ++ after) :=
      Records.of_append [c] [] (by simpa using hrecords)
    rw [List.cons_append, exponentLength, hnext]
    dsimp only
    rw [if_neg hc, ih hstops hrest]
    rfl
  | @pair opening closing inner rest p next q hpair hnext hinner tail ih =>
    rw [List.cons_append, List.append_assoc, List.cons_append] at hrecords ⊢
    rw [exponentLength, CharClass.of_eq_opening hpair, hnext]
    dsimp only
    rw [if_pos rfl, bracketPortion_eq hpair hrecords hinner (tail.balanced.append hafter)]
    simp only [bind, Except.bind, ih hstops hrecords.behind_pair, pure, Except.pure]
    congr 1
    simp
    omega

end

end OneUnknown
