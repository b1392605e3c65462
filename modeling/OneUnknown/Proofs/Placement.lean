import OneUnknown.Proofs.ReaderSteps
/-!
# Reading at another place

The reader does not look back: what it makes of a text depends neither on the place at which the
text begins nor on the nodes that were finished before it, as long as no term was left open.  So a
text that is read from the start is read in the same way inside of a longer one.

* `Context`: what was read before, and how many characters that were;
* `Level.placed`, `Reader.placed`: a state that was reached from the start, as it is reached behind
  a context;
* `Reader.step_placed`, `Reader.readFrom_placed`: a character and a text, read behind a context;
* `Reader.finish_placed`: the nodes are those of the context and those of the text.
-/

namespace OneUnknown

/-- What was read before the outermost level of a text. -/
structure Context where
  /-- How many characters were read. -/
  length : Nat
  /-- The nodes that were finished, the latest first. -/
  emitted : List Node
  last : LastRead
  /-- No term was left open, so that a minus sign belongs to what follows. -/
  last_open : last.endsTerm = false

namespace Context

/-- The same for a level inside of a bracket or an exponent: only places are counted from the start
of the whole text. -/
def nested (ctx : Context) : Context := ⟨ctx.length, [], .nothing, rfl⟩

end Context

/-! ## Levels -/

/-- The exponent of scientific notation behind a context. -/
def ScientificDraft.placed (ctx : Context) (s : ScientificDraft) : ScientificDraft :=
  { s with place := s.place + ctx.length }

theorem ScientificDraft.read?_placed (ctx : Context) {s : ScientificDraft} {place : Nat}
    {cls : CharClass} {next : Option ScientificDraft} (h : s.read? place cls = .ok next) :
    (s.placed ctx).read? (place + ctx.length) cls = .ok (next.map (placed ctx)) := by
  cases cls with
  | operator op =>
    by_cases hdigits : s.hasDigits
    · obtain rfl : none = next := by simpa [read?, hdigits] using h
      simp [read?, placed, hdigits]
    · by_cases hadd : op = .add
      · obtain rfl : some s = next := by simpa [read?, hdigits, hadd] using h
        simp [read?, placed, hdigits, hadd]
      · simp [read?, hdigits, hadd] at h
  | minus =>
    obtain rfl := Except.ok.inj h
    by_cases hdigits : s.hasDigits <;> simp [read?, placed, hdigits]
  | _ =>
    obtain rfl := Except.ok.inj h
    rfl

namespace Level

/-- A level behind a context. -/
def placed (ctx : Context) (l : Level) : Level where
  emitted := l.emitted ++ ctx.emitted
  draft := l.draft
  last := if l.last = .nothing then ctx.last else l.last
  scientific := l.scientific.map (ScientificDraft.placed ctx)

variable (ctx : Context) {l l' : Level} {place : Nat}

theorem last_placed : (l.placed ctx).last = if l.last = .nothing then ctx.last else l.last := rfl

/-- What was read last counts for a term behind a context if it counts for one at the start. -/
theorem last_placed_eq_iff {last : LastRead} (h : last.endsTerm = true) :
    (l.placed ctx).last = last ↔ l.last = last := by
  have hopen := ctx.last_open
  rw [last_placed]
  split
  · rename_i hnothing
    rw [hnothing]
    constructor <;> rintro rfl
    · simp [hopen] at h
    · cases h
  · rfl

theorem endsTerm_last_placed : (l.placed ctx).last.endsTerm = l.last.endsTerm := by
  rw [last_placed]
  split
  · rename_i hnothing
    rw [hnothing, ctx.last_open]
    rfl
  · rfl

theorem flush_placed : (l.placed ctx).flush = l.flush.placed ctx := by
  rw [flush, flush, placed, placed]
  simp only [List.append_assoc]

theorem leaveFraction_placed : (l.placed ctx).leaveFraction = l.leaveFraction.placed ctx := rfl

theorem finishScientific_placed (h : l.finishScientific = .ok l') :
    (l.placed ctx).finishScientific = .ok (l'.placed ctx) := by
  rcases finishScientific_cases h with ⟨hs, rfl⟩ | ⟨s, hs, hdigits, rfl⟩
  · simp [finishScientific, placed, hs]
  · simp [finishScientific, placed, hs, ScientificDraft.placed, ScientificDraft.node, hdigits]

/-- A nested level ends with the same nodes at every place. -/
theorem finish_placed {nodes : List Node} (h : l.finish = .ok nodes) :
    (l.placed ctx).finish = .ok (ctx.emitted.reverse ++ nodes) := by
  obtain ⟨finished, hfinished, h⟩ := Except.bind_eq_ok.1 h
  obtain rfl := Except.pure_eq_ok.1 h
  refine Except.bind_eq_ok.2 ⟨_, finishScientific_placed ctx hfinished, ?_⟩
  rw [flush_placed]
  simp [placed, pure, Except.pure]

theorem readDigit_placed {value : Nat} (h : l.readDigit place value = .ok l') :
    (l.placed ctx).readDigit (place + ctx.length) value = .ok (l'.placed ctx) := by
  obtain ⟨hlast, hcases⟩ := readDigit_cases h
  rw [readDigit, if_neg (mt (last_placed_eq_iff ctx rfl).1 hlast), flush_placed]
  rcases hcases with ⟨hpower, rfl⟩ | ⟨hpower, rfl⟩ <;> simp [placed, hpower, flush]

theorem readPoint_placed (h : l.readPoint place = .ok l') :
    (l.placed ctx).readPoint (place + ctx.length) = .ok (l'.placed ctx) := by
  obtain ⟨hlast, rfl⟩ := readPoint_eq_ok h
  rw [readPoint, if_neg (mt (last_placed_eq_iff ctx rfl).1 hlast)]
  simp [placed]

theorem readMinus_placed : (l.placed ctx).readMinus = l.readMinus.placed ctx := by
  rw [readMinus, readMinus, endsTerm_last_placed, flush_placed]
  split <;> simp [placed]

theorem readOperator_placed (op : Operator) :
    (l.placed ctx).readOperator op = (l.readOperator op).placed ctx := by
  rw [readOperator, readOperator, flush_placed]
  simp [placed, emit]

theorem readRelation_placed (rel : Relation) :
    (l.placed ctx).readRelation rel = (l.readRelation rel).placed ctx := by
  rw [readRelation, readRelation, flush_placed]
  simp [placed, emit]

theorem readLetter_placed {name : Char} (h : l.readLetter place name = .ok l') :
    (l.placed ctx).readLetter (place + ctx.length) name = .ok (l'.placed ctx) := by
  obtain ⟨hname, hcases⟩ := readLetter_cases h
  rw [readLetter, if_pos hname, flush_placed]
  rcases hcases with ⟨hletter, hpower, rfl⟩ | ⟨hfull, rfl⟩
  · simp [placed, hletter, hpower]
  · simp [placed, emit, flush, hfull]

theorem readScientific_placed (h : l.readScientific place = .ok l') :
    (l.placed ctx).readScientific (place + ctx.length) = .ok (l'.placed ctx) := by
  obtain ⟨mantissa, hmantissa, rfl⟩ := readScientific_eq_ok h
  simp [readScientific, placed, ScientificDraft.placed, hmantissa]

theorem beforeParen_placed :
    (l.placed ctx).beforeParen = (l.beforeParen.1.placed ctx, l.beforeParen.2) := by
  rw [beforeParen, beforeParen, flush_placed]
  by_cases htouched : l.draft.touched <;> simp [placed, htouched]

theorem addParen_placed (body : List Node) (negative : Bool) :
    (l.placed ctx).addParen body negative = (l.addParen body negative).placed ctx := by
  simp [addParen, placed, emit]

theorem raise_placed {caret : Nat} {power : List Node} (h : l.raise caret power = .ok l') :
    (l.placed ctx).raise (caret + ctx.length) power = .ok (l'.placed ctx) := by
  obtain ⟨hpower, ⟨htouched, hfree, rfl⟩ | ⟨htouched, hnegative, hlast, before, hraised⟩⟩ :=
    raise_cases h
  · simp [raise, placed, hpower, htouched, hfree]
  · -- The latest finished term is one of this level, so it is also the latest of all.
    rcases hraised with ⟨v, n, hemitted, rfl⟩ | ⟨body, negative, hemitted, rfl⟩
    all_goals simp [raise, placed, hpower, htouched, hnegative, hlast, hemitted]

end Level

/-! ## The reader -/

/-- The innermost of some levels behind a context: the context reaches the outermost one only. -/
def Level.placedWithin (ctx : Context) (l : Level) : List Frame → Level
  | [] => l.placed ctx
  | _ :: _ => l.placed ctx.nested

/-- What a level was opened for, behind a context. -/
def Opening.placed (ctx : Context) : Opening → Opening
  | .bracket place negative => .bracket (place + ctx.length) negative
  | .bracketExponent caret => .bracketExponent (caret + ctx.length)
  | .exponent caret progress => .exponent (caret + ctx.length) progress

/-- The levels that wait, behind a context. -/
def placedFrames (ctx : Context) : List Frame → List Frame
  | [] => []
  | frame :: frames =>
    ⟨frame.opening.placed ctx, frame.outer.placedWithin ctx frames⟩ :: placedFrames ctx frames

namespace Reader

/-- A state behind a context. -/
def placed (ctx : Context) (r : Reader) : Reader :=
  ⟨r.level.placedWithin ctx r.frames, placedFrames ctx r.frames⟩

variable (ctx : Context) {relations : Bool} {place : Nat} {level : Level} {frames : List Frame}
  {r r' : Reader}

theorem closeExponents_placed (h : closeExponents level frames = .ok r) :
    closeExponents (level.placedWithin ctx frames) (placedFrames ctx frames) = .ok (r.placed ctx) := by
  replace h := ExponentsClosed.of_closeExponents h
  induction h with
  | @settled level frames hsettled =>
    rcases frames with _ | ⟨⟨_ | _ | _, _⟩, _⟩
    case cons.exponent => cases hsettled
    all_goals rfl
  | @exponent _ _ raised _ _ power rest _ hpower hraised _ ih =>
    refine Except.bind_eq_ok.2 ⟨power, Level.finish_placed ctx.nested hpower, ?_⟩
    refine Except.bind_eq_ok.2 ⟨raised.placedWithin ctx rest, ?_, ih⟩
    cases rest <;> exact Level.raise_placed _ hraised

theorem placed_completeExponent :
    Reader.placed ctx ⟨level, completeExponent frames⟩ =
      ⟨level.placedWithin ctx frames, completeExponent (placedFrames ctx frames)⟩ := by
  rcases frames with _ | ⟨⟨_ | _ | _, _⟩, _⟩ <;> rfl

theorem closeBracket_placed (h : closeBracket place level frames = .ok r) :
    closeBracket (place + ctx.length) (level.placedWithin ctx frames) (placedFrames ctx frames) =
      .ok (r.placed ctx) := by
  rcases closeBracket_cases h with ⟨opened, negative, outer, rest, body, rfl, hbody, hne, rfl⟩ |
    ⟨caret, outer, rest, power, raised, rfl, hpower, hraised, rfl⟩
  · refine Except.bind_eq_ok.2 ⟨body, Level.finish_placed ctx.nested hbody, ?_⟩
    rw [if_neg hne, placed_completeExponent]
    cases rest <;> exact congrArg _ (congrArg₂ _ (Level.addParen_placed _ body negative) rfl)
  · refine Except.bind_eq_ok.2 ⟨power, Level.finish_placed ctx.nested hpower, ?_⟩
    refine Except.bind_eq_ok.2 ⟨raised.placedWithin ctx rest, ?_, ?_⟩
    · cases rest <;> exact Level.raise_placed _ hraised
    · rw [placed_completeExponent]
      rfl

/-- What a level makes of something behind every context, it makes of it within other levels. -/
theorem placedWithin_eq (read : Level → Level)
    (hread : ∀ ctx : Context, read (level.placed ctx) = (read level).placed ctx) :
    read (level.placedWithin ctx frames) = (read level).placedWithin ctx frames := by
  cases frames with
  | nil => exact hread ctx
  | cons => exact hread ctx.nested

theorem ok_placedWithin (read : Level → Level)
    (hread : ∀ ctx : Context, read (level.placed ctx) = (read level).placed ctx) :
    (Except.ok ⟨read (level.placedWithin ctx frames), placedFrames ctx frames⟩ :
      Except ParseError Reader) = .ok (Reader.placed ctx ⟨read level, frames⟩) := by
  rw [placedWithin_eq ctx read hread]
  rfl

/-- The same for what depends on the place, and may fail. -/
theorem placedWithin_ok (read : Nat → Level → Except ParseError Level) {level' : Level}
    (hread : ∀ ctx : Context, read (place + ctx.length) (level.placed ctx) = .ok (level'.placed ctx)) :
    read (place + ctx.length) (level.placedWithin ctx frames) =
      .ok (level'.placedWithin ctx frames) := by
  cases frames with
  | nil => exact hread ctx
  | cons => exact hread ctx.nested

theorem readPlain_placed {cls : CharClass}
    (h : readPlain relations place level frames cls = .ok r) :
    readPlain relations (place + ctx.length) (level.placedWithin ctx frames)
      (placedFrames ctx frames) cls = .ok (r.placed ctx) := by
  cases PlainRead.of_readPlain h with
  | @digit value _ hread =>
    exact Except.bind_eq_ok.2 ⟨_, placedWithin_ok ctx (fun place l => l.readDigit place value)
      fun ctx => Level.readDigit_placed ctx hread, rfl⟩
  | point hread =>
    exact Except.bind_eq_ok.2 ⟨_, placedWithin_ok ctx (fun place l => l.readPoint place)
      fun ctx => Level.readPoint_placed ctx hread, rfl⟩
  | blank => exact ok_placedWithin ctx (·.leaveFraction) fun ctx => Level.leaveFraction_placed ctx
  | minus =>
    exact ok_placedWithin ctx (·.leaveFraction.readMinus) fun ctx =>
      Level.readMinus_placed ctx (l := level.leaveFraction)
  | operator op =>
    exact ok_placedWithin ctx (·.readOperator op) fun ctx => Level.readOperator_placed ctx op
  | relation rel hallowed houtermost =>
    subst hallowed houtermost
    exact ok_placedWithin ctx (·.readRelation rel) fun ctx => Level.readRelation_placed ctx rel
  | opening =>
    have hbefore : (level.placedWithin ctx frames).leaveFraction.beforeParen =
        (level.leaveFraction.beforeParen.1.placedWithin ctx frames,
          level.leaveFraction.beforeParen.2) := by
      cases frames <;> exact Level.beforeParen_placed _ (l := level.leaveFraction)
    rw [readPlain, hbefore]
    rfl
  | closing hclosed => exact closeBracket_placed ctx hclosed
  | caret =>
    have houter : (level.placedWithin ctx frames).leaveFraction =
        level.leaveFraction.placedWithin ctx frames :=
      placedWithin_eq ctx (·.leaveFraction) fun ctx => Level.leaveFraction_placed ctx
    rw [readPlain, houter]
    rfl
  | @letter name _ hread =>
    exact Except.bind_eq_ok.2 ⟨_, placedWithin_ok ctx
      (fun place l => l.leaveFraction.readLetter place name)
      fun ctx => Level.readLetter_placed ctx (l := level.leaveFraction) hread, rfl⟩
  | scientific hread =>
    exact Except.bind_eq_ok.2 ⟨_, placedWithin_ok ctx (fun place l => l.readScientific place)
      fun ctx => Level.readScientific_placed ctx hread, rfl⟩

theorem scientific_placedWithin :
    (level.placedWithin ctx frames).scientific =
      level.scientific.map (ScientificDraft.placed ctx) := by
  cases frames <;> rfl

theorem readAtLevel_placed {cls : CharClass}
    (h : readAtLevel relations place level frames cls = .ok r) :
    readAtLevel relations (place + ctx.length) (level.placedWithin ctx frames)
      (placedFrames ctx frames) cls = .ok (r.placed ctx) := by
  rw [readAtLevel] at h ⊢
  rw [scientific_placedWithin]
  cases hs : level.scientific with
  | none =>
    rw [hs] at h
    exact readPlain_placed ctx h
  | some s =>
    rw [hs] at h
    obtain ⟨next, hnext, h⟩ := Except.bind_eq_ok.1 h
    refine Except.bind_eq_ok.2 ⟨_, ScientificDraft.read?_placed ctx hnext, ?_⟩
    cases next with
    | some s' =>
      obtain rfl := Except.pure_eq_ok.1 h
      cases frames <;> rfl
    | none =>
      obtain ⟨finished, hfinished, h⟩ := Except.bind_eq_ok.1 h
      refine Except.bind_eq_ok.2 ⟨finished.placedWithin ctx frames, ?_, readPlain_placed ctx h⟩
      cases frames <;> exact Level.finishScientific_placed _ hfinished

/-- A character is read in the same way behind a context. -/
theorem step_placed {cls : CharClass} (h : r.step relations place cls = .ok r') :
    (r.placed ctx).step relations (place + ctx.length) cls = .ok (r'.placed ctx) := by
  obtain ⟨level, frames⟩ := r
  rcases frames with _ | ⟨⟨opening, outer⟩, rest⟩
  · exact readAtLevel_placed ctx h
  · cases opening with
    | exponent caret progress =>
      simp only [placed, placedFrames, Opening.placed, step] at h ⊢
      split at h
      · rename_i hstart
        obtain rfl := Except.ok.inj h
        rw [if_pos hstart]
        rfl
      · rename_i hstart
        rw [if_neg hstart]
        cases hnext : progress.extend? cls with
        | some next =>
          rw [hnext] at h
          have hlevel := readAtLevel_placed ctx h
          exact hlevel
        | none =>
          rw [hnext] at h
          obtain ⟨closed, hclosed, h⟩ := Except.bind_eq_ok.1 h
          exact Except.bind_eq_ok.2
            ⟨_, closeExponents_placed ctx hclosed, readAtLevel_placed ctx h⟩
    | _ => exact readAtLevel_placed ctx h

/-- A text is read in the same way behind a context. -/
theorem readFrom_placed {text : List Char} (h : r.readFrom relations place text = .ok r') :
    (r.placed ctx).readFrom relations (place + ctx.length) text = .ok (r'.placed ctx) := by
  induction text generalizing r place with
  | nil =>
    obtain rfl := Except.ok.inj h
    rfl
  | cons c rest ih =>
    obtain ⟨next, hnext, h⟩ := Except.bind_eq_ok.1 h
    refine Except.bind_eq_ok.2 ⟨_, step_placed ctx hnext, ?_⟩
    rw [Nat.add_right_comm]
    exact ih h

/-- The nodes are those of the context, and those that are read from the start. -/
theorem finish_placed {nodes : List Node} (h : r.finish = .ok nodes) :
    (r.placed ctx).finish = .ok (ctx.emitted.reverse ++ nodes) := by
  obtain ⟨level, hclosed, h⟩ := finish_eq_ok.1 h
  exact finish_eq_ok.2 ⟨_, closeExponents_placed ctx hclosed, Level.finish_placed ctx h⟩

end Reader

end OneUnknown
