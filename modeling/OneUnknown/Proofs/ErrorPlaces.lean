import OneUnknown.Proofs.Characters
import OneUnknown.Proofs.ReaderSteps
/-!
# Errors name the character they are about

A text can be refused long after the character that is to blame: scientific notation without an
exponent is noticed at the character behind it, and an empty bracket where it closes.  The reader
keeps the place of every character that may still be blamed, at all its levels.

* `ParseError.Blames`: the characters that a reason can be about;
* `Blaming`: a computation that fails only for reasons that blame the character at their place;
* `Reader.PointsInto`: the invariant, that every place kept is one of such a character;
* `Reader.blaming_step` and `Reader.blaming_readFrom`: one character, and a whole text;
* `blaming_checkBracketsFrom` and `Reader.bracketDepth_readFrom`: where the brackets of a text
  match, the reader ends outside of all of them;
* `parseWith_error_place`: every error is about the character at its place.
-/

namespace OneUnknown

/-! ## Characters -/

/-- The characters of a class. -/
def CharClass.Describes (c : Char) : CharClass → Prop
  | .digit _ => c.isDigit = true
  | .point => c = '.'
  | .minus => c = '-'
  | .operator op => c = op.symbol ∧ op ≠ .subtract
  | .opening => c ∈ ['(', '[', '\x7b']
  | .closing => c ∈ [')', ']', '\x7d']
  | .caret => c = '^'
  | .relation rel => c = rel.symbol
  | .exclamation => c = '!'
  | .scientific => c = 'E'
  | .blank => isBlank c = true
  | .letter name => name = c ∧ c ≠ 'E'

theorem CharClass.describes_of (c : Char) : (CharClass.of c).Describes c := by
  unfold CharClass.of
  split
  · rename_i hdigit
    exact hdigit
  · split
    case h_21 hE =>
      split
      · assumption
      · exact ⟨rfl, hE⟩
    all_goals simp [Describes, Operator.symbol, Relation.symbol]

/-- The characters that a reason to refuse a text can be about. -/
def ParseError.Blames (c : Char) : ParseError → Prop
  | .unmatchedBracket _ true => c ∈ [')', ']', '\x7d']
  | .unmatchedBracket _ false | .emptyBracket _ => c ∈ ['(', '[', '\x7b']
  | .ambiguousDigit _ => c.isDigit = true ∨ c = '.'
  | .scientificOperator found _ => c = found ∧ (c = '*' ∨ c = '/')
  | .missingExponent _ | .missingMantissa _ => c = 'E'
  | .relationNotAllowed _ => ∃ rel : Relation, c = rel.symbol
  | .danglingExponent _ => c = '^'
  | .reserved character _ => c = character ∧ c = '!'
  | .invalidCharacter character _ => c = character ∧ isAlphabetic c = false

/-- The reason is about the character at its place. -/
def ParseError.PointsAt (text : List Char) (reason : ParseError) : Prop :=
  ∃ c, text[reason.place]? = some c ∧ reason.Blames c

/-- A computation that fails only for reasons that are about the character at their place. -/
def Blaming (text : List Char) {α : Type} (result : α → Prop) : Except ParseError α → Prop
  | .ok value => result value
  | .error reason => reason.PointsAt text

namespace Blaming

variable {text : List Char} {α β : Type} {result : α → Prop} {result' : β → Prop}

theorem bind {x : Except ParseError α} {next : α → Except ParseError β} (h : Blaming text result x)
    (hnext : ∀ value, result value → Blaming text result' (next value)) :
    Blaming text result' (x >>= next) := by
  cases x with
  | ok value => exact hnext value h
  | error reason => exact h

theorem mono {result' : α → Prop} {x : Except ParseError α} (h : Blaming text result x)
    (hresult : ∀ value, result value → result' value) : Blaming text result' x := by
  cases x with
  | ok value => exact hresult value h
  | error reason => exact h

/-- The value of a computation that succeeds, with where it comes from. -/
theorem and_eq {x : Except ParseError α} (h : Blaming text result x) :
    Blaming text (fun value => result value ∧ x = .ok value) x := by
  cases x with
  | ok value => exact ⟨h, rfl⟩
  | error reason => exact h

theorem pointsAt {x : Except ParseError α} (h : Blaming text result x) {reason : ParseError}
    (hx : x = .error reason) : reason.PointsAt text := by
  rw [hx] at h
  exact h

end Blaming

variable {text : List Char}

/-! ## Levels -/

/-- The `E` of scientific notation that is being read stands at its place. -/
def Level.PointsInto (text : List Char) (l : Level) : Prop :=
  ∀ s, l.scientific = some s → text[s.place]? = some 'E'

namespace Level

variable {l : Level} {place : Nat} {c : Char}

theorem pointsInto_blank : blank.PointsInto text := fun _ hs => by cases hs

theorem PointsInto.of_scientific {l' : Level} (h : l.PointsInto text)
    (hsame : l'.scientific = l.scientific) : l'.PointsInto text := fun s hs => h s (hsame ▸ hs)

theorem blaming_finishScientific (h : l.PointsInto text) :
    Blaming text (PointsInto text) l.finishScientific := by
  unfold finishScientific
  split
  · exact h
  · rename_i s hs
    split
    · exact fun _ hnone => by cases hnone
    · exact ⟨'E', h s hs, rfl⟩

theorem blaming_finish (h : l.PointsInto text) : Blaming text (fun _ => True) l.finish :=
  .bind (blaming_finishScientific h) fun _ _ => trivial

theorem blaming_readDigit (h : l.PointsInto text) {value : Nat} (hc : text[place]? = some c)
    (hdigit : c.isDigit = true) : Blaming text (PointsInto text) (l.readDigit place value) := by
  unfold readDigit
  split
  · exact ⟨c, hc, .inl hdigit⟩
  · split <;> exact h.of_scientific rfl

theorem blaming_readPoint (h : l.PointsInto text) (hc : text[place]? = some '.') :
    Blaming text (PointsInto text) (l.readPoint place) := by
  unfold readPoint
  split
  · exact ⟨'.', hc, .inr rfl⟩
  · exact h.of_scientific rfl

theorem pointsInto_readMinus (h : l.PointsInto text) : l.readMinus.PointsInto text := by
  unfold readMinus
  split <;> exact h.of_scientific rfl

theorem blaming_readLetter (h : l.PointsInto text) (hc : text[place]? = some c) :
    Blaming text (PointsInto text) (l.readLetter place c) := by
  unfold readLetter
  split
  · dsimp only
    split <;> exact h.of_scientific rfl
  · rename_i hletter
    exact ⟨c, hc, rfl, by simpa using hletter⟩

theorem blaming_readScientific (hc : text[place]? = some 'E') :
    Blaming text (PointsInto text) (l.readScientific place) := by
  unfold readScientific
  split
  · rintro _ ⟨rfl⟩
    exact hc
  · exact ⟨'E', hc, rfl⟩

theorem pointsInto_beforeParen (h : l.PointsInto text) : l.beforeParen.1.PointsInto text := by
  unfold beforeParen
  split <;> exact h.of_scientific rfl

theorem blaming_raise (h : l.PointsInto text) {caret : Nat} (hcaret : text[caret]? = some '^')
    (power : List Node) : Blaming text (PointsInto text) (l.raise caret power) := by
  have hdangling : Blaming text (PointsInto text) (.error (.danglingExponent caret)) :=
    ⟨'^', hcaret, rfl⟩
  unfold raise
  split
  · exact hdangling
  · split
    · split
      · exact h.of_scientific rfl
      · exact hdangling
    · split
      · exact hdangling
      · split
        · exact h.of_scientific rfl
        · exact h.of_scientific rfl
        · exact hdangling

end Level

theorem ScientificDraft.blaming_read? {s : ScientificDraft} {place : Nat} {c : Char}
    (hc : text[place]? = some c) :
    Blaming text (fun next => ∀ s', next = some s' → s'.place = s.place)
      (s.read? place (CharClass.of c)) := by
  have hclass := CharClass.describes_of c
  cases hcls : CharClass.of c with
  | digit value =>
    rintro _ ⟨rfl⟩
    rfl
  | blank =>
    rintro _ ⟨rfl⟩
    rfl
  | minus =>
    intro s' hs'
    split at hs'
    · cases hs'
    · obtain rfl := Option.some.inj hs'
      rfl
  | operator op =>
    rw [hcls] at hclass
    obtain ⟨rfl, hop⟩ := hclass
    rw [read?]
    split
    · exact fun _ hs' => by cases hs'
    · split
      · rintro _ ⟨rfl⟩
        rfl
      · rename_i hadd
        refine ⟨op.symbol, hc, rfl, ?_⟩
        cases op <;> simp_all [Operator.symbol]
  | _ => exact fun _ hs' => by cases hs'

/-! ## The reader -/

/-- The place of an opened level is that of its bracket or of its caret. -/
def Opening.PointsInto (text : List Char) : Opening → Prop
  | .bracket place _ => ∃ c, text[place]? = some c ∧ c ∈ ['(', '[', '\x7b']
  | .bracketExponent caret | .exponent caret _ => text[caret]? = some '^'

/-- Every place that the reader keeps is that of a character that may be blamed. -/
structure Reader.PointsInto (text : List Char) (r : Reader) : Prop where
  level : r.level.PointsInto text
  frames : ∀ frame ∈ r.frames, frame.opening.PointsInto text ∧ frame.outer.PointsInto text

namespace Reader

variable {relations : Bool} {place : Nat} {level : Level} {frames : List Frame} {c : Char}

theorem pointsInto_start : start.PointsInto text := ⟨Level.pointsInto_blank, by simp [start]⟩

theorem blaming_closeExponents (h : PointsInto text ⟨level, frames⟩) :
    Blaming text (PointsInto text) (closeExponents level frames) := by
  induction frames generalizing level with
  | nil => exact h
  | cons frame rest ih =>
    obtain ⟨opening, outer⟩ := frame
    obtain ⟨hopening, houter⟩ := h.frames _ (.head _)
    cases opening with
    | exponent caret progress =>
      rw [closeExponents]
      exact .bind (Level.blaming_finish h.level) fun power _ =>
        .bind (Level.blaming_raise houter hopening power) fun raised hraised =>
          ih ⟨hraised, fun frame hframe => h.frames frame (.tail _ hframe)⟩
    | _ => exact h

theorem pointsInto_completeExponent (h : PointsInto text ⟨level, frames⟩) :
    PointsInto text ⟨level, completeExponent frames⟩ := by
  unfold completeExponent
  split
  · obtain ⟨hframe, hrest⟩ := List.forall_mem_cons.1 h.frames
    exact ⟨h.level, List.forall_mem_cons.2 ⟨hframe, hrest⟩⟩
  · exact h

theorem blaming_closeBracket (h : PointsInto text ⟨level, frames⟩) (hc : text[place]? = some c)
    (hclosing : c ∈ [')', ']', '\x7d']) :
    Blaming text (PointsInto text) (closeBracket place level frames) := by
  unfold closeBracket
  split
  · obtain ⟨⟨hopening, houter⟩, hrest⟩ := List.forall_mem_cons.1 h.frames
    refine .bind (Level.blaming_finish h.level) fun body _ => ?_
    split
    · exact hopening
    · exact pointsInto_completeExponent ⟨houter.of_scientific rfl, hrest⟩
  · obtain ⟨⟨hopening, houter⟩, hrest⟩ := List.forall_mem_cons.1 h.frames
    exact .bind (Level.blaming_finish h.level) fun power _ =>
      .bind (Level.blaming_raise houter hopening power) fun raised hraised =>
        pointsInto_completeExponent ⟨hraised, hrest⟩
  · exact ⟨c, hc, hclosing⟩

theorem blaming_readPlain (h : PointsInto text ⟨level, frames⟩) (hc : text[place]? = some c) :
    Blaming text (PointsInto text)
      (readPlain relations place level frames (CharClass.of c)) := by
  have hlevel {l : Level} (hl : l.PointsInto text) : PointsInto text ⟨l, frames⟩ := ⟨hl, h.frames⟩
  have hleave : level.leaveFraction.PointsInto text := h.level.of_scientific rfl
  have hclass := CharClass.describes_of c
  cases hcls : CharClass.of c with
  | digit value =>
    rw [hcls] at hclass
    exact .bind (Level.blaming_readDigit h.level hc hclass) fun _ => hlevel
  | point =>
    rw [hcls] at hclass
    obtain rfl := hclass
    exact .bind (Level.blaming_readPoint h.level hc) fun _ => hlevel
  | blank => exact hlevel hleave
  | minus => exact hlevel (Level.pointsInto_readMinus hleave)
  | operator op => exact hlevel (h.level.of_scientific rfl)
  | relation rel =>
    rw [hcls] at hclass
    rw [readPlain]
    split
    · exact hlevel (h.level.of_scientific rfl)
    · exact ⟨c, hc, rel, hclass⟩
  | opening =>
    rw [hcls] at hclass
    exact ⟨Level.pointsInto_blank, List.forall_mem_cons.2
      ⟨⟨⟨c, hc, hclass⟩, Level.pointsInto_beforeParen hleave⟩, h.frames⟩⟩
  | closing =>
    rw [hcls] at hclass
    exact blaming_closeBracket h hc hclass
  | caret =>
    rw [hcls] at hclass
    obtain rfl := hclass
    exact ⟨Level.pointsInto_blank, List.forall_mem_cons.2 ⟨⟨hc, hleave⟩, h.frames⟩⟩
  | letter name =>
    rw [hcls] at hclass
    obtain ⟨rfl, -⟩ := hclass
    exact .bind (Level.blaming_readLetter hleave hc) fun _ => hlevel
  | scientific =>
    rw [hcls] at hclass
    obtain rfl := hclass
    exact .bind (Level.blaming_readScientific hc) fun _ => hlevel
  | exclamation =>
    rw [hcls] at hclass
    obtain rfl := hclass
    exact ⟨'!', hc, rfl, rfl⟩

theorem blaming_readAtLevel (h : PointsInto text ⟨level, frames⟩) (hc : text[place]? = some c) :
    Blaming text (PointsInto text)
      (readAtLevel relations place level frames (CharClass.of c)) := by
  unfold readAtLevel
  split
  · exact blaming_readPlain h hc
  · rename_i s hs
    refine .bind (ScientificDraft.blaming_read? hc) fun next hnext => ?_
    cases next with
    | some s' =>
      refine ⟨?_, h.frames⟩
      rintro _ ⟨rfl⟩
      exact hnext s' rfl ▸ h.level s hs
    | none =>
      exact .bind (Level.blaming_finishScientific h.level) fun _ hfinished =>
        blaming_readPlain ⟨hfinished, h.frames⟩ hc

/-- Reading one character keeps the invariant, or blames a character that was read. -/
theorem blaming_step {r : Reader} (h : r.PointsInto text) (hc : text[place]? = some c) :
    Blaming text (PointsInto text) (r.step relations place (CharClass.of c)) := by
  obtain ⟨level, frames⟩ := r
  unfold step
  dsimp only
  split
  · obtain ⟨⟨hopening, houter⟩, hrest⟩ := List.forall_mem_cons.1 h.frames
    split
    · exact ⟨h.level, List.forall_mem_cons.2 ⟨⟨hopening, houter⟩, hrest⟩⟩
    · split
      · exact blaming_readAtLevel ⟨h.level, List.forall_mem_cons.2 ⟨⟨hopening, houter⟩, hrest⟩⟩ hc
      · exact .bind (blaming_closeExponents h) fun r hr => blaming_readAtLevel hr hc
  · exact blaming_readAtLevel h hc

/-- Reading a text keeps the invariant, by induction on what is left of it. -/
theorem blaming_readFrom (before : List Char) {rest : List Char} (htext : text = before ++ rest)
    {r : Reader} (h : r.PointsInto text) :
    Blaming text (PointsInto text) (readFrom relations before.length r rest) := by
  induction rest generalizing before r with
  | nil => exact h
  | cons c rest ih =>
    have hc : text[before.length]? = some c := by simp [htext]
    refine .bind (blaming_step h hc) fun next hnext => ?_
    have hread := ih (before ++ [c]) (by simp [htext]) hnext
    simpa using hread

end Reader

/-! ## Brackets that are open -/

/-- How many brackets a character opens. -/
def CharClass.opens : CharClass → Int
  | .opening => 1
  | .closing => -1
  | _ => 0

/-- How many brackets a text leaves open. -/
def openBrackets : List Char → Int
  | [] => 0
  | c :: rest => (CharClass.of c).opens + openBrackets rest

/-- A level that was opened by a bracket. -/
def Opening.isBracket : Opening → Bool
  | .bracket .. | .bracketExponent _ => true
  | .exponent .. => false

/-- How many brackets are being read. -/
def bracketDepth (frames : List Frame) : Nat := frames.countP fun frame => frame.opening.isBracket

namespace Reader

variable {relations : Bool} {place : Nat} {level : Level} {frames : List Frame} {cls : CharClass}
  {r r' : Reader}

theorem bracketDepth_closeExponents (h : closeExponents level frames = .ok r) :
    bracketDepth r.frames = bracketDepth frames := by
  replace h := ExponentsClosed.of_closeExponents h
  induction h with
  | settled => rfl
  | exponent _ _ _ ih =>
    rw [ih]
    simp [bracketDepth, Opening.isBracket]

/-- What is left to close once all exponents have ended is a bracket. -/
theorem bracket_of_closeExponents (h : closeExponents level frames = .ok r) :
    ∀ frame ∈ r.frames.head?, frame.opening.isBracket = true := by
  have hsettled := isSettled_closeExponents h
  rcases hframes : r.frames with _ | ⟨⟨_ | _ | _, _⟩, _⟩
  case cons.exponent =>
    rw [hframes] at hsettled
    cases hsettled
  all_goals simp [Opening.isBracket]

theorem bracketDepth_completeExponent :
    bracketDepth (completeExponent frames) = bracketDepth frames := by
  unfold completeExponent
  split <;> simp [bracketDepth, Opening.isBracket]

theorem bracketDepth_closeBracket (h : closeBracket place level frames = .ok r) :
    bracketDepth frames = bracketDepth r.frames + 1 := by
  rcases closeBracket_cases h with ⟨_, _, _, _, _, rfl, -, -, rfl⟩ |
    ⟨_, _, _, _, _, rfl, -, -, rfl⟩
  all_goals
    rw [bracketDepth_completeExponent]
    simp [bracketDepth, Opening.isBracket]

theorem bracketDepth_readPlain (h : readPlain relations place level frames cls = .ok r) :
    (bracketDepth r.frames : Int) = bracketDepth frames + cls.opens := by
  cases PlainRead.of_readPlain h with
  | opening | caret => simp [bracketDepth, Opening.isBracket, CharClass.opens]
  | closing hclosed =>
    have hdepth := bracketDepth_closeBracket hclosed
    simp only [CharClass.opens]
    omega
  | _ => exact (Int.add_zero _).symm

theorem bracketDepth_readAtLevel (h : readAtLevel relations place level frames cls = .ok r) :
    (bracketDepth r.frames : Int) = bracketDepth frames + cls.opens := by
  rcases readAtLevel_cases h with ⟨_, _, -, hnext, rfl⟩ | ⟨_, -, -, h⟩
  · -- Brackets do not belong to the exponent of scientific notation.
    have hopens : cls.opens = 0 := by
      cases cls <;> first | rfl | cases hnext
    simp [hopens]
  · exact bracketDepth_readPlain h

theorem bracketDepth_step (h : r.step relations place cls = .ok r') :
    (bracketDepth r'.frames : Int) = bracketDepth r.frames + cls.opens := by
  rcases step_cases h with ⟨caret, outer, frames, hframes, rfl, rfl⟩ |
    ⟨caret, progress, next, outer, frames, hframes, -, -, h⟩ | ⟨closed, hclosed, h⟩
  · simp [hframes, bracketDepth, Opening.isBracket, CharClass.opens]
  · rw [bracketDepth_readAtLevel h, hframes]
    simp [bracketDepth, Opening.isBracket]
  · rw [bracketDepth_readAtLevel h, bracketDepth_closeExponents hclosed]

theorem bracketDepth_readFrom {rest : List Char} (h : readFrom relations place r rest = .ok r') :
    (bracketDepth r'.frames : Int) = bracketDepth r.frames + openBrackets rest := by
  induction rest generalizing place r with
  | nil =>
    obtain rfl := Except.ok.inj h
    simp [openBrackets]
  | cons c rest ih =>
    obtain ⟨next, hnext, h⟩ := Except.bind_eq_ok.1 h
    rw [ih h, bracketDepth_step hnext]
    rw [openBrackets, Int.add_assoc]

end Reader

/-- The brackets that are checked beforehand are those that the reader knows. -/
theorem CharClass.opens_of (c : Char) : (CharClass.of c).opens =
    if (closingBracket? c).isSome then 1 else if isClosingBracket c then -1 else 0 := by
  by_cases hopening : c ∈ ['(', '[', '\x7b']
  · simp only [List.mem_cons, List.not_mem_nil, or_false] at hopening
    rcases hopening with rfl | rfl | rfl <;> rfl
  · by_cases hclosing : c ∈ [')', ']', '\x7d']
    · simp only [List.mem_cons, List.not_mem_nil, or_false] at hclosing
      rcases hclosing with rfl | rfl | rfl <;> rfl
    · have hnone : closingBracket? c = none := by
        unfold closingBracket?
        split <;> simp_all
      have hclass := describes_of c
      rw [hnone, if_neg (by simp),
        if_neg (by simpa [isClosingBracket, and_assoc] using hclosing)]
      cases hcls : CharClass.of c <;> rw [hcls] at hclass <;> first
        | rfl
        | exact absurd hclass hopening
        | exact absurd hclass hclosing

/-- The brackets that wait to be closed stand at their places. -/
def PendingPointInto (text : List Char) (pending : List (Nat × Char)) : Prop :=
  ∀ opened ∈ pending, ∃ c, text[opened.1]? = some c ∧ c ∈ ['(', '[', '\x7b']

/-- The check of the brackets blames a bracket, or every bracket of the text is closed. -/
theorem blaming_checkBracketsFrom (before : List Char) {rest : List Char}
    (htext : text = before ++ rest) {pending : List (Nat × Char)}
    (h : PendingPointInto text pending) :
    Blaming text (fun _ => (pending.length : Int) + openBrackets rest = 0)
      (checkBracketsFrom before.length pending rest) := by
  induction rest generalizing before pending with
  | nil =>
    unfold checkBracketsFrom
    split
    · rename_i hlast
      exact h _ (List.mem_of_getLast? hlast)
    · rename_i hlast
      simp_all [Blaming, openBrackets]
  | cons c rest ih =>
    have hc : text[before.length]? = some c := by simp [htext]
    have hopens := CharClass.opens_of c
    have ih {pending : List (Nat × Char)} := @ih (before ++ [c]) (by simp [htext]) pending
    rw [List.length_append] at ih
    unfold checkBracketsFrom
    rw [openBrackets]
    split
    · rename_i closing hclosing
      have hopening : c ∈ ['(', '[', '\x7b'] := by
        unfold closingBracket? at hclosing
        split at hclosing <;> simp_all
      refine (ih (List.forall_mem_cons.2 ⟨⟨c, hc, hopening⟩, h⟩)).mono fun _ hrest => ?_
      simp only [hclosing, Option.isSome_some, reduceIte] at hopens
      simp only [List.length_cons] at hrest
      omega
    · rename_i hnone
      split
      · rename_i hclosing
        have hmem : c ∈ [')', ']', '\x7d'] := by
          simpa [isClosingBracket, or_assoc] using hclosing
        simp only [hnone, hclosing, Option.isSome_none, Bool.false_eq_true, reduceIte] at hopens
        split
        · split
          · refine (ih (List.forall_mem_cons.1 h).2).mono fun _ hrest => ?_
            simp only [List.length_cons]
            omega
          · exact ⟨c, hc, hmem⟩
        · exact ⟨c, hc, hmem⟩
      · rename_i hclosing
        refine (ih h).mono fun _ hrest => ?_
        simp only [hnone, hclosing, Option.isSome_none, Bool.false_eq_true, reduceIte] at hopens
        omega

namespace Reader

/-- At the end of a text whose brackets match, no bracket is left to be closed, so `finish` never
takes an exponent for one. -/
theorem blaming_finish {r : Reader} (h : r.PointsInto text) (hdepth : bracketDepth r.frames = 0) :
    Blaming text (fun _ => True) r.finish := by
  refine .bind (blaming_closeExponents h).and_eq fun closed ⟨hpoints, hclosed⟩ => ?_
  have hzero : bracketDepth closed.frames = 0 := (bracketDepth_closeExponents hclosed).trans hdepth
  have hnil : closed.frames = [] := by
    cases hframes : closed.frames with
    | nil => rfl
    | cons frame rest =>
      have hbracket := bracket_of_closeExponents hclosed frame (by simp [hframes])
      simp [hframes, bracketDepth, hbracket] at hzero
  rw [hnil]
  exact Level.blaming_finish hpoints.level

end Reader

theorem blaming_parseWith (relations : Bool) (text : List Char) :
    Blaming (oneCharRelations text) (fun _ => True) (parseWith relations text) := by
  unfold parseWith
  dsimp only
  refine .bind (blaming_checkBracketsFrom [] rfl fun _ hnone => by cases hnone)
    fun _ hbalanced => ?_
  have hread : Blaming (oneCharRelations text) (Reader.PointsInto (oneCharRelations text))
      (Reader.readFrom relations 0 Reader.start (oneCharRelations text)) :=
    Reader.blaming_readFrom [] rfl Reader.pointsInto_start
  refine .bind hread.and_eq fun r ⟨hr, hrok⟩ => Reader.blaming_finish hr ?_
  have hdepth : (bracketDepth r.frames : Int) = 0 :=
    (Reader.bracketDepth_readFrom hrok).trans hbalanced
  exact Int.ofNat_eq_zero.1 hdepth

/-- Every error of the reader is about the character at its place: the place is inside of the
text, and the character there is one that the reason can be about. -/
theorem parseWith_error_place {relations : Bool} {text : List Char} {reason : ParseError}
    (h : parseWith relations text = .error reason) :
    ∃ hplace : reason.place < (oneCharRelations text).length,
      reason.Blames (oneCharRelations text)[reason.place] := by
  obtain ⟨c, hc, hblames⟩ := (blaming_parseWith relations text).pointsAt h
  obtain ⟨hplace, rfl⟩ := List.getElem?_eq_some_iff.1 hc
  exact ⟨hplace, hblames⟩

/-- The `E` of `2(x + [3E]) >= 1` has no exponent, which shows at the bracket behind it. -/
theorem parseWith_error_place_late_in_brackets :
    parseWith true "2(x + [3E]) >= 1".toList = .error (.missingExponent 8) ∧
      ∃ hplace : 8 < (oneCharRelations "2(x + [3E]) >= 1".toList).length,
        (oneCharRelations "2(x + [3E]) >= 1".toList)[8] = 'E' := by
  have herror : parseWith true "2(x + [3E]) >= 1".toList = .error (.missingExponent 8) := by
    decide +kernel
  exact ⟨herror, parseWith_error_place herror⟩

end OneUnknown
