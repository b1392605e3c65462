import OneUnknown.Proofs.ErrorPlaces
import OneUnknown.Proofs.Joining
import OneUnknown.Proofs.ReaderStates
import Mathlib.Data.List.ModifyLast
/-!
# A number at the end of a text

The digits of a number are read one by one into the term that is being put together.  Behind an
operator, a relation or a closing bracket there is no such term that they could go into, so a number
that is written there becomes a term of its own with the value of its digits.  It stands behind all
the others, or behind those of the exponent that the text ends in, if it ends in one that has no
brackets around it: `x^-(2)3` has `-(2)3` as its exponent.

* `openExponents`: how many exponents without brackets a text ends in;
* `Sequence.lastPower`, `Sequence.mapLastPower`: the exponent that the last term of a sequence has,
  and the sequence with another one in its place;
* `Reader.finish_mapLastPower`: what is read at the innermost level is found there in the end;
* `parse_number`: the result.
-/

namespace OneUnknown

/-! ## Before reading -/

/-- The last character of a text stays the last one, or is replaced. -/
theorem replacePair_concat (first second replacement : Char) (text : List Char) (c : Char) :
    ∃ text' d, replacePair first second replacement (text ++ [c]) = text' ++ [d] ∧
      (d = c ∨ d = replacement) := by
  fun_induction replacePair first second replacement text with
  | case1 a b rest hpair ih =>
    obtain ⟨text', d, heq, hd⟩ := ih
    refine ⟨replacement :: text', d, ?_, hd⟩
    rw [List.cons_append, List.cons_append, replacePair, if_pos hpair, heq, List.cons_append]
  | case2 a b rest hpair ih =>
    obtain ⟨text', d, heq, hd⟩ := ih
    refine ⟨a :: text', d, ?_, hd⟩
    rw [List.cons_append, List.cons_append, replacePair, if_neg hpair, ← List.cons_append, heq,
      List.cons_append]
  | case3 a =>
    by_cases hpair : a = first ∧ c = second
    · exact ⟨[], replacement, by simp [replacePair, hpair], .inr rfl⟩
    · exact ⟨[a], c, by simp [replacePair, hpair], .inl rfl⟩
  | case4 => exact ⟨[], c, rfl, .inl rfl⟩

theorem mem_of_mem_replacePair {first second replacement c : Char} (hc : c ≠ replacement)
    {text : List Char} (h : c ∈ replacePair first second replacement text) : c ∈ text := by
  fun_induction replacePair first second replacement text with
  | case1 a b rest hpair ih =>
    rcases List.mem_cons.1 h with rfl | h
    · exact absurd rfl hc
    · exact .tail _ (.tail _ (ih h))
  | case2 a b rest hpair ih =>
    rcases List.mem_cons.1 h with rfl | h
    · exact .head _
    · exact .tail _ (ih h)
  | case3 | case4 => exact h

/-- The last character of a text stays the last one, or becomes a relation. -/
theorem oneCharRelations_concat (text : List Char) (c : Char) :
    ∃ text' d, oneCharRelations (text ++ [c]) = text' ++ [d] ∧
      (d = c ∨ ∃ r, CharClass.of d = .relation r) := by
  obtain ⟨text₁, c₁, heq₁, h₁⟩ := replacePair_concat '>' '=' '≥' text c
  obtain ⟨text₂, c₂, heq₂, h₂⟩ := replacePair_concat '<' '=' '≤' text₁ c₁
  obtain ⟨text₃, c₃, heq₃, h₃⟩ := replacePair_concat '!' '=' '≠' text₂ c₂
  obtain ⟨text₄, c₄, heq₄, h₄⟩ := replacePair_concat '=' '=' '=' text₃ c₃
  refine ⟨text₄, c₄, by rw [oneCharRelations, heq₁, heq₂, heq₃, heq₄], ?_⟩
  rcases h₄ with rfl | rfl
  · rcases h₃ with rfl | rfl
    · rcases h₂ with rfl | rfl
      · exact h₁.imp_right fun h => ⟨.greaterOrEqual, by rw [h]; rfl⟩
      · exact .inr ⟨_, rfl⟩
    · exact .inr ⟨_, rfl⟩
  · exact .inr ⟨_, rfl⟩

/-! ## The exponent at the end -/

/-- The exponent of a node. -/
def Node.power : Node → List Node
  | .group _ _ p | .paren _ p _ => p
  | .operator _ | .fraction _ _ | .relation _ => []

/-- The node with another exponent. -/
def Node.mapPower (f : List Node → List Node) : Node → Node
  | .group v n p => .group v n (f p)
  | .paren b p negative => .paren b (f p) negative
  | node => node

/-- The exponent of the last node of a sequence. -/
def Sequence.lastPower (nodes : List Node) : List Node := (nodes.getLast?.map Node.power).getD []

/-- The sequence with another exponent for its last node. -/
def Sequence.mapLastPower (f : List Node → List Node) (nodes : List Node) : List Node :=
  nodes.modifyLast (Node.mapPower f)

theorem Sequence.lastPower_concat (before : List Node) (node : Node) :
    Sequence.lastPower (before ++ [node]) = node.power := by
  simp [Sequence.lastPower]

theorem Sequence.mapLastPower_concat (f : List Node → List Node) (before : List Node)
    (node : Node) :
    Sequence.mapLastPower f (before ++ [node]) = before ++ [node.mapPower f] :=
  List.modifyLast_concat _ _ _

/-- Only what is done to the last exponent matters. -/
theorem Sequence.mapLastPower_congr {f g : List Node → List Node} {nodes : List Node}
    (h : f (Sequence.lastPower nodes) = g (Sequence.lastPower nodes)) :
    Sequence.mapLastPower f nodes = Sequence.mapLastPower g nodes := by
  rcases List.eq_nil_or_concat nodes with rfl | ⟨before, node, rfl⟩
  · rfl
  · rw [List.concat_eq_append, Sequence.lastPower_concat] at h
    rw [List.concat_eq_append, Sequence.mapLastPower_concat, Sequence.mapLastPower_concat]
    cases node <;> simp_all [Node.mapPower, Node.power]

theorem Sequence.iterate_mapLastPower_congr {f g : List Node → List Node} {depth : Nat}
    {nodes : List Node}
    (h : f (Sequence.lastPower^[depth] nodes) = g (Sequence.lastPower^[depth] nodes)) :
    Sequence.mapLastPower^[depth] f nodes = Sequence.mapLastPower^[depth] g nodes := by
  induction depth generalizing nodes with
  | zero => exact h
  | succ depth ih =>
    rw [Function.iterate_succ_apply', Function.iterate_succ_apply']
    exact Sequence.mapLastPower_congr (ih (by rwa [Function.iterate_succ_apply] at h))

/-- A term takes any exponent where it takes one. -/
theorem Level.finish_raise {outer raised : Level} {caret : Nat} {power power' : List Node}
    (hscientific : outer.scientific = none) (h : outer.raise caret power = .ok raised)
    (hne : power' ≠ []) :
    ∃ raised' before node, outer.raise caret power' = .ok raised' ∧
      raised.finish = .ok (before ++ [node]) ∧ node.power = power ∧
        raised'.finish = .ok (before ++ [node.mapPower fun _ => power']) := by
  obtain ⟨-, ⟨htouched, hfree, rfl⟩ | ⟨htouched, hnegative, hlast, before, hraised⟩⟩ :=
    raise_cases h
  · refine ⟨{ outer with draft := { outer.draft with power := power' }, last := .term },
      outer.emitted.reverse, .group outer.draft.letter outer.draft.number power, ?_,
      Level.Holds.finish ⟨?_, hscientific⟩, rfl, Level.Holds.finish ⟨?_, hscientific⟩⟩
    · simp [raise, hne, htouched, hfree]
    all_goals simp [flush, Draft.group?, htouched, Group.toNode, Node.mapPower]
  · rcases hraised with ⟨v, n, hemitted, rfl⟩ | ⟨body, negative, hemitted, rfl⟩
    · refine ⟨{ outer with emitted := .group v n power' :: before }, before.reverse,
        .group v n power, ?_, Level.Holds.finish ⟨?_, hscientific⟩, rfl,
        Level.Holds.finish ⟨?_, hscientific⟩⟩
      · simp [raise, hne, htouched, hnegative, hlast, hemitted]
      all_goals simp [flush, Draft.group?, htouched, Node.mapPower]
    · refine ⟨{ outer with emitted := .paren body power' negative :: before }, before.reverse,
        .paren body power negative, ?_, Level.Holds.finish ⟨?_, hscientific⟩, rfl,
        Level.Holds.finish ⟨?_, hscientific⟩⟩
      · simp [raise, hne, htouched, hnegative, hlast, hemitted]
      all_goals simp [flush, Draft.group?, htouched, Node.mapPower]

namespace Reader

variable {level level' outer raised : Level} {frames : List Frame} {inner inner' nodes : List Node}

theorem finish_exponent {caret : Nat} {progress : Progress} (hlevel : level.finish = .ok inner)
    (hraise : outer.raise caret inner = .ok raised) :
    finish ⟨level, ⟨.exponent caret progress, outer⟩ :: frames⟩ = finish ⟨raised, frames⟩ := by
  have hclose : closeExponents level (⟨.exponent caret progress, outer⟩ :: frames) =
      closeExponents raised frames := by
    simp only [closeExponents, hlevel, hraise, bind, Except.bind]
  rw [finish, finish, hclose]

/-- If another innermost level is finished with other nodes, then these stand in the end where the
nodes of the former one do. -/
theorem finish_mapLastPower (hframes : ∀ frame ∈ frames, frame.outer.scientific = none)
    (hlevel : level.finish = .ok inner) (hlevel' : level'.finish = .ok inner') (hne : inner' ≠ [])
    (h : finish ⟨level, frames⟩ = .ok nodes) :
    Sequence.lastPower^[frames.length] nodes = inner ∧
      finish ⟨level', frames⟩ =
        .ok (Sequence.mapLastPower^[frames.length] (fun _ => inner') nodes) := by
  induction frames generalizing level level' inner inner' with
  | nil =>
    obtain rfl := Except.ok.inj (hlevel.symm.trans h)
    exact ⟨rfl, hlevel'⟩
  | cons frame rest ih =>
    obtain ⟨opening, outer⟩ := frame
    rw [List.forall_mem_cons] at hframes
    cases opening with
    | exponent caret progress =>
      obtain ⟨closed, hclosed, -⟩ := Except.bind_eq_ok.1 h
      obtain ⟨power, hpower, hclosed⟩ := Except.bind_eq_ok.1 hclosed
      obtain rfl := Except.ok.inj (hlevel.symm.trans hpower)
      obtain ⟨raised, hraised, -⟩ := Except.bind_eq_ok.1 hclosed
      obtain ⟨raised', before, node, hraised', hfinish, hnode, hfinish'⟩ :=
        Level.finish_raise hframes.1 hraised hne
      rw [finish_exponent hlevel hraised] at h
      rw [finish_exponent hlevel' hraised']
      obtain ⟨hinner, hrest⟩ := ih hframes.2 hfinish hfinish' (by simp) h
      constructor
      · rw [List.length_cons, Function.iterate_succ_apply', hinner, Sequence.lastPower_concat,
          hnode]
      · rw [hrest, List.length_cons, Function.iterate_succ_apply]
        refine congrArg _ (Sequence.iterate_mapLastPower_congr ?_)
        rw [hinner, Sequence.mapLastPower_concat]
    | bracket | bracketExponent => cases h

end Reader

/-! ## Where a number is a term of its own -/

/-- Nothing is being put together but a term that has its exponent already. -/
structure Level.TakesNumber (l : Level) : Prop where
  scientific : l.scientific = none
  last : l.last ≠ .letter
  draft : l.draft.power = [] → l.draft = Draft.blank

namespace Reader

variable {relations : Bool} {place : Nat} {level : Level} {frames : List Frame} {cls : CharClass}
  {r r' : Reader} {nodes : List Node}

theorem exists_finish (h : finish ⟨level, frames⟩ = .ok nodes) :
    ∃ inner, level.finish = .ok inner := by
  obtain ⟨closed, hclosed, h⟩ := finish_eq_ok.1 h
  cases ExponentsClosed.of_closeExponents hclosed with
  | settled => exact ⟨nodes, h⟩
  | exponent hpower => exact ⟨_, hpower⟩

/-- Where a text may end, such a character is not part of scientific notation either. -/
theorem readPlain_of_finish (hcls : cls.EndsTerm)
    (h : readAtLevel relations place level frames cls = .ok r') (hfinish : r'.finish = .ok nodes) :
    ∃ finished, level.finishScientific = .ok finished ∧ finished.scientific = none ∧
      readPlain relations place finished frames cls = .ok r' := by
  refine (readAtLevel_cases h).resolve_left ?_
  rintro ⟨s, s', hs, hread, rfl⟩
  cases cls with
  | closing | relation => cases hread
  | operator op =>
    simp only [ScientificDraft.read?] at hread
    split at hread
    · cases hread
    · rename_i hdigits
      split at hread
      · obtain rfl := Option.some.inj (Except.ok.inj hread)
        obtain ⟨inner, hinner⟩ := exists_finish hfinish
        simp [Level.finish, Level.finishScientific, hdigits, bind, Except.bind] at hinner
      · cases hread
  | _ => cases hcls

theorem takesNumber_of_step (hr : r.IsSound) (hcls : cls.EndsTerm)
    (h : r.step relations place cls = .ok r') (hfinish : r'.finish = .ok nodes) :
    r'.level.TakesNumber := by
  obtain ⟨closed, hclosed, h⟩ := Except.bind_eq_ok.1 (step_of_endsTerm hcls ▸ h)
  obtain ⟨finished, hfinished, hscientific, h⟩ := readPlain_of_finish hcls h hfinish
  cases cls with
  | closing =>
    have hframes := (isSound_closeExponents hr.level hr.frames hclosed).frames
    obtain ⟨hsound, hnone, hlast, hpower⟩ := isSound_closeBracket hframes h
    refine ⟨hnone, by simp [hlast], fun hempty => hsound.level.draft_eq_blank ?_ (by simp [hlast])⟩
    by_contra htouched
    exact hpower (by simpa using htouched) hempty
  | operator op =>
    obtain rfl := Except.ok.inj h
    exact ⟨hscientific, by simp [Level.readOperator], fun _ => rfl⟩
  | relation rel =>
    rw [readPlain] at h
    split at h
    · obtain rfl := Except.ok.inj h
      exact ⟨hscientific, by simp [Level.readRelation], fun _ => rfl⟩
    · cases h
  | _ => cases hcls

/-- Behind an operator or a relation no exponent is being read. -/
theorem frames_eq_nil_of_step (hcls : cls.EndsTerm) (hclosing : cls ≠ .closing)
    (h : r.step relations place cls = .ok r') (hfinish : r'.finish = .ok nodes) :
    r'.frames = [] := by
  obtain ⟨closed, hclosed, h⟩ := Except.bind_eq_ok.1 (step_of_endsTerm hcls ▸ h)
  obtain ⟨finished, -, -, h⟩ := readPlain_of_finish hcls h hfinish
  have hframes : r'.frames = closed.frames := by
    cases cls with
    | closing => exact absurd rfl hclosing
    | operator op => exact (Except.ok.inj h) ▸ rfl
    | relation rel =>
      rw [readPlain] at h
      split at h
      · exact (Except.ok.inj h) ▸ rfl
      · cases h
    | _ => cases hcls
  have hsettled := isSettled_closeExponents hclosed
  rw [← hframes] at hsettled
  obtain ⟨level, frames⟩ := r'
  rcases frames with _ | ⟨⟨_ | _ | _, outer⟩, rest⟩
  case nil => rfl
  case cons.exponent => cases hsettled
  all_goals cases hfinish

end Reader

/-! ## Numbers -/

/-- The digits of a number, with a point before those of its fractional part. -/
def numberText (whole part : List Char) : List Char :=
  whole ++ if part = [] then [] else '.' :: part

/-- What the digits of a number are worth. -/
def digitsValue (whole part : List Char) : Rat :=
  Nat.ofDigitChars 10 whole 0 + Nat.ofDigitChars 10 part 0 * (10 ^ part.length)⁻¹

theorem addDigits_eq_digitsValue {whole part : List Char}
    (hdigits : ∀ c ∈ whole ++ part, c.isDigit = true) :
    ((Number.zero.withSign false).addDigits whole).addDecimal part.length
      (Nat.ofDigitChars 10 part 0) = Number.ofRat (digitsValue whole part) := by
  have hsign : (Number.ofRat (digitsValue whole part)).withSign false =
      Number.ofRat (digitsValue whole part) := by
    refine Number.ext rfl rfl (decide_eq_false (not_lt.2 ?_)).symm
    rw [digitsValue]
    positivity
  rw [← hsign]
  by_cases hwhole : whole = []
  · -- Without digits before the point, a zero could stand there.
    subst hwhole
    have hspells : Rational.Spells ['0'] part (digitsValue [] part) :=
      ⟨by simp, fun c hc => (List.mem_cons.1 hc).elim (fun h => h ▸ rfl) (hdigits c), rfl⟩
    exact hspells.number_eq false
  · exact Rational.Spells.number_eq ⟨hwhole, hdigits, rfl⟩ false

namespace Level.TakesNumber

open Reader

variable {relations : Bool} {place : Nat} {level : Level} {frames : List Frame}

theorem flush_eq (h : level.TakesNumber) (hpower : level.draft.power = []) :
    level.flush = level := by
  obtain ⟨emitted, draft, last, scientific⟩ := level
  obtain rfl := h.draft hpower
  rfl

/-- A number begins as it does between two terms. -/
theorem step_eq (h : level.TakesNumber) {cls : CharClass}
    (hcls : (∃ value, cls = .digit value) ∨ cls = .point ∧ level.draft.power = []) :
    step relations place ⟨level, frames⟩ cls =
      step relations place ⟨{ level.flush with last := .operator }, frames⟩ cls := by
  have hextend (p : Progress) : p.extend? cls = some .complete := by
    rcases hcls with ⟨value, rfl⟩ | ⟨rfl, -⟩ <;> cases p <;> rfl
  have hopening : cls ≠ .opening := by
    rcases hcls with ⟨value, rfl⟩ | ⟨rfl, -⟩ <;> simp
  have hlevel {l : Level} (hl : l.scientific = none) :
      step relations place ⟨l, frames⟩ cls =
        readPlain relations place l (continued .complete frames) cls :=
    step_extending .complete hl fun _ p _ _ _ => ⟨hextend p, by simp [hopening]⟩
  rw [hlevel h.scientific,
    hlevel (l := { level.flush with last := .operator }) h.scientific]
  rcases hcls with ⟨value, rfl⟩ | ⟨rfl, hpower⟩
  · by_cases hpower : level.draft.power = []
    · rw [h.flush_eq hpower]
      simp [readPlain, Level.readDigit, h.last, hpower]
    · have hblank : level.flush.draft.power = [] := rfl
      simp [readPlain, Level.readDigit, h.last, hpower, hblank]
  · rw [h.flush_eq hpower]
    simp [readPlain, Level.readPoint, h.last]

/-- A number is read as one more term of the level. -/
theorem readFrom_numberText (h : level.TakesNumber) {whole part : List Char}
    (hdigits : ∀ c ∈ whole ++ part, c.isDigit = true) (hne : whole ≠ [] ∨ part ≠ [])
    (hpoint : whole = [] → level.draft.power = []) (place : Nat) :
    ∃ level', readFrom relations place ⟨level, frames⟩ (numberText whole part) =
        .ok ⟨level', continued .complete frames⟩ ∧
      level'.finish =
        .ok (level.flush.emitted.reverse ++ [Node.constant (digitsValue whole part)]) := by
  let gap : Reader := ⟨{ level.flush with last := .operator }, frames⟩
  have hgap : gap.AtGap frames level.flush.emitted.reverse false :=
    ⟨rfl, ⟨rfl, rfl, rfl, h.scientific⟩⟩
  have hbegin : readFrom relations place ⟨level, frames⟩ (numberText whole part) =
      readFrom relations place gap (numberText whole part) := by
    cases whole with
    | cons c rest =>
      have hdigit := CharClass.of_digit (hdigits c (.head _))
      simp only [numberText, List.cons_append, readFrom]
      rw [h.step_eq (.inl ⟨_, hdigit⟩)]
    | nil =>
      simp only [numberText, if_neg (hne.resolve_left (by simp)), List.nil_append, readFrom]
      rw [CharClass.of_point, h.step_eq (.inr ⟨rfl, hpoint rfl⟩)]
  obtain ⟨⟨level', frames'⟩, hread, rfl, places, rfl⟩ := hgap.leads_digits hdigits hne place
  refine ⟨_, hbegin.trans hread, Level.Holds.finish ⟨?_, rfl⟩⟩
  rw [addDigits_eq_digitsValue hdigits]
  simp [flush, Draft.group?, Group.toNode, Node.constant, Group.constant]

end Level.TakesNumber

/-! ## Texts -/

/-- How many exponents without brackets are still being read where a text ends. -/
def openExponents (text : List Char) : Nat :=
  match Reader.start.readFrom true 0 (oneCharRelations text) with
  | .ok r => r.frames.length
  | .error _ => 0

/-- A character behind which a number begins a term: a closing bracket, `+`, `*`, `/`, or the last
one of a relation. -/
def isTermEnd (c : Char) : Bool :=
  isClosingBracket c || c ∈ ['+', '*', '/', '=', '≠', '<', '>', '≤', '≥']

theorem CharClass.endsTerm_of_isTermEnd {c : Char} (h : isTermEnd c = true) :
    (CharClass.of c).EndsTerm := by
  simp only [isTermEnd, isClosingBracket, Bool.or_eq_true, decide_eq_true_eq, List.mem_cons,
    List.not_mem_nil, or_false] at h
  rcases h with ((rfl | rfl) | rfl) | rfl | rfl | rfl | rfl | rfl | rfl | rfl | rfl | rfl
  all_goals trivial

/-- What is known of the reader behind a text that is accepted and ends where a number can begin. -/
theorem exists_reader_of_parse {p : List Char} {nodes : List Node} (hp : parse p = .ok nodes)
    (hend : ∀ c ∈ p.getLast?, isTermEnd c = true) :
    ∃ r, Reader.start.readFrom true 0 (oneCharRelations p) = .ok r ∧ r.finish = .ok nodes ∧
      r.level.TakesNumber ∧ (r.frames ≠ [] → ∃ c ∈ p.getLast?, isClosingBracket c = true) := by
  obtain ⟨⟨⟩, -, hp⟩ := Except.bind_eq_ok.1 hp
  obtain ⟨r, hr, hfinish⟩ := Except.bind_eq_ok.1 hp
  refine ⟨r, hr, hfinish, ?_⟩
  rcases List.eq_nil_or_concat p with rfl | ⟨q, c, rfl⟩
  · obtain rfl := Except.ok.inj hr
    exact ⟨⟨rfl, nofun, fun _ => rfl⟩, fun h => absurd rfl h⟩
  · obtain ⟨text, d, heq, hd⟩ := oneCharRelations_concat q c
    rw [List.concat_eq_append] at hr hend ⊢
    rw [List.getLast?_concat] at hend ⊢
    rw [heq, Reader.readFrom_append] at hr
    obtain ⟨before, hbefore, hr⟩ := Except.bind_eq_ok.1 hr
    obtain ⟨_, hstep, hr⟩ := Except.bind_eq_ok.1 hr
    obtain rfl := Except.ok.inj hr
    have hcls : (CharClass.of d).EndsTerm := by
      rcases hd with rfl | ⟨rel, hrel⟩
      · exact CharClass.endsTerm_of_isTermEnd (hend d rfl)
      · rw [hrel]
        trivial
    have hsound := Reader.isSound_start.readFrom hbefore
    refine ⟨Reader.takesNumber_of_step hsound hcls hstep hfinish, fun hframes => ⟨c, rfl, ?_⟩⟩
    have hclosing : CharClass.of d = .closing := by
      by_contra hclosing
      exact hframes (Reader.frames_eq_nil_of_step hcls hclosing hstep hfinish)
    rcases hd with rfl | ⟨rel, hrel⟩
    · have hdescribes := CharClass.describes_of d
      rw [hclosing] at hdescribes
      simpa [CharClass.Describes, isClosingBracket, or_assoc] using hdescribes
    · rw [hrel] at hclosing
      cases hclosing

/-- An exponent that is being read has a caret in front of it. -/
theorem caret_mem_of_readFrom {p : List Char} {nodes : List Node} {r : Reader}
    (hr : Reader.start.readFrom true 0 (oneCharRelations p) = .ok r)
    (hfinish : r.finish = .ok nodes) (hframes : r.frames ≠ []) : '^' ∈ p := by
  have hpoints : Blaming (oneCharRelations p) (Reader.PointsInto (oneCharRelations p))
      (Reader.start.readFrom true 0 (oneCharRelations p)) :=
    Reader.blaming_readFrom [] rfl Reader.pointsInto_start
  rw [hr] at hpoints
  obtain ⟨level, frames⟩ := r
  rcases frames with _ | ⟨⟨_ | _ | _, outer⟩, rest⟩
  case nil => exact absurd rfl hframes
  case cons.exponent =>
    have hcaret := List.mem_of_getElem? (hpoints.frames _ (.head _)).1
    exact mem_of_mem_replacePair (by decide) (mem_of_mem_replacePair (by decide)
      (mem_of_mem_replacePair (by decide) (mem_of_mem_replacePair (by decide) hcaret)))
  all_goals cases hfinish

theorem isDigit_or_point_of_mem {c : Char} {whole part : List Char}
    (hdigits : ∀ c ∈ whole ++ part, c.isDigit = true) (h : c ∈ numberText whole part) :
    c.isDigit = true ∨ c = '.' := by
  rw [List.forall_mem_append] at hdigits
  rcases List.mem_append.1 h with h | h
  · exact .inl (hdigits.1 c h)
  · split at h
    · cases h
    · exact (List.mem_cons.1 h).symm.imp_left (hdigits.2 c)

theorem oneCharRelations_append_number (p : List Char) {whole part : List Char}
    (hdigits : ∀ c ∈ whole ++ part, c.isDigit = true) (hne : whole ≠ [] ∨ part ≠ []) :
    oneCharRelations (p ++ numberText whole part) =
      oneCharRelations p ++ numberText whole part := by
  have hnumber : numberText whole part ≠ [] := by
    rcases hne with hne | hne <;> simp [numberText, hne]
  have hrelation (c) (hc : c ∈ numberText whole part) : isRelationPart c = false := by
    simp only [isRelationPart, Bool.or_eq_false_iff, decide_eq_false_iff_not]
    refine ⟨⟨⟨?_, ?_⟩, ?_⟩, ?_⟩ <;> rintro rfl <;>
      exact absurd (isDigit_or_point_of_mem hdigits hc) (by decide)
  simpa [oneCharRelations, replacePair] using oneCharRelations_append_run p [] hnumber hrelation

theorem checkBrackets_append_number {p whole part : List Char}
    (hdigits : ∀ c ∈ whole ++ part, c.isDigit = true) (h : checkBrackets p = .ok ()) :
    checkBrackets (p ++ numberText whole part) = .ok () := by
  have hplain : IsTidyText (numberText whole part) := .of_forall fun c hc => by
    rcases isDigit_or_point_of_mem hdigits hc with hc | rfl
    · exact isPlainChar_of_isDigit hc
    · rfl
  have hnumber := hplain.checkBracketsFrom_append (0 + p.length) [] []
  rw [List.append_nil] at hnumber
  rw [checkBrackets, ← List.nil_append []]
  exact (checkBracketsFrom_append_of_ok h rfl).trans hnumber

/-- What is being read has an exponent only if the last term of the exponents that are open has. -/
theorem Reader.power_eq_nil_of_finish {r : Reader} {nodes : List Node} (hsound : r.IsSound)
    (hlevel : r.level.scientific = none) (hfinish : r.finish = .ok nodes)
    (hlast : ∀ v n q, (Sequence.lastPower^[r.frames.length] nodes).getLast? =
      some (.group v n q) → q = []) : r.level.draft.power = [] := by
  by_contra hpower
  have htouched : r.level.draft.touched = true := by
    by_contra htouched
    rw [hsound.level.untouched (by simpa using htouched)] at hpower
    exact hpower rfl
  have hgroup : r.level.flush.emitted.reverse.getLast? = some (.group r.level.draft.letter
      r.level.draft.number r.level.draft.power) := by
    simp [Level.flush, Draft.group?, htouched, Group.toNode]
  have hinner := (Reader.finish_mapLastPower
    (fun frame hframe => (hsound.frames frame hframe).scientific) (Level.finish_eq hlevel)
    (Level.finish_eq hlevel) (fun hempty => by simp [hempty] at hgroup) hfinish).1
  exact hpower (hlast _ _ _ (hinner ▸ hgroup))

/-- A number that is written behind a closing bracket, an operator or a relation, or alone, is one
more term with the value of its digits.  It stands behind the others, or in the exponent without
brackets that is still being read there. -/
theorem parse_number {p whole part : List Char} {nodes : List Node} (hp : parse p = .ok nodes)
    (hend : ∀ c ∈ p.getLast?, isTermEnd c = true)
    (hdigits : ∀ c ∈ whole ++ part, c.isDigit = true) (hne : whole ≠ [] ∨ part ≠ [])
    (hpoint : whole = [] → ∀ v n q,
      (Sequence.lastPower^[openExponents p] nodes).getLast? = some (.group v n q) → q = []) :
    parse (p ++ numberText whole part) =
        .ok (Sequence.mapLastPower^[openExponents p]
          (· ++ [Node.constant (digitsValue whole part)]) nodes) ∧
      (openExponents p ≠ 0 → '^' ∈ p ∧ ∃ c ∈ p.getLast?, isClosingBracket c = true) := by
  obtain ⟨r, hr, hfinish, htakes, hclosing⟩ := exists_reader_of_parse hp hend
  obtain ⟨⟨⟩, hbrackets, -⟩ := Except.bind_eq_ok.1 hp
  have hsound := Reader.isSound_start.readFrom hr
  have hscientific (frame) (hframe : frame ∈ r.frames) := (hsound.frames frame hframe).scientific
  have hlevel := Level.finish_eq htakes.scientific
  have hopen : openExponents p = r.frames.length := by rw [openExponents, hr]
  rw [hopen] at hpoint ⊢
  have hfree (hwhole : whole = []) : r.level.draft.power = [] :=
    Reader.power_eq_nil_of_finish hsound htakes.scientific hfinish (hpoint hwhole)
  obtain ⟨level', hread, hlevel'⟩ := @Level.TakesNumber.readFrom_numberText true _ r.frames htakes
    _ _ hdigits hne hfree (0 + (oneCharRelations p).length)
  obtain ⟨hinner, hnodes⟩ :=
    Reader.finish_mapLastPower hscientific hlevel hlevel' (by simp) hfinish
  constructor
  · rw [parse, parseWith, oneCharRelations_append_number p hdigits hne]
    refine Except.bind_eq_ok.2 ⟨(), checkBrackets_append_number hdigits hbrackets,
      Except.bind_eq_ok.2 ⟨_, Reader.readFrom_append .. ▸ Except.bind_eq_ok.2 ⟨r, hr, hread⟩, ?_⟩⟩
    rw [Reader.finish, Reader.closeExponents_continued]
    refine hnodes.trans (congrArg _ (Sequence.iterate_mapLastPower_congr ?_))
    rw [hinner]
  · intro hframes
    have hframes : r.frames ≠ [] := by simpa using hframes
    exact ⟨caret_mem_of_readFrom hr hfinish hframes, hclosing hframes⟩

/-- A number in the exponent that the text before it ends in, and one that begins with its point. -/
theorem parse_number_exponent_and_point :
    parse "x^-(2)3.5".toList =
        .ok [.group (some 'x') (Number.ofNat 1)
          [.paren [.group none (Number.ofNat 2) []] [] true, Node.constant (7 / 2)]] ∧
      parse "x=.5".toList =
        .ok [.group (some 'x') (Number.ofNat 1) [], .relation .equal, Node.constant (1 / 2)] := by
  have hexponent : parse "x^-(2)".toList =
      .ok [.group (some 'x') (Number.ofNat 1)
        [.paren [.group none (Number.ofNat 2) []] [] true]] := by decide +kernel
  have hequal : parse "x=".toList =
      .ok [.group (some 'x') (Number.ofNat 1) [], .relation .equal] := by decide +kernel
  have hclosing : "x^-(2)".toList.getLast?.all isTermEnd = true := by decide +kernel
  have hrelation : "x=".toList.getLast?.all isTermEnd = true := by decide +kernel
  have hone : openExponents "x^-(2)".toList = 1 := by decide +kernel
  have hnone : openExponents "x=".toList = 0 := by decide +kernel
  constructor
  · refine (@parse_number _ ['3'] ['5'] _ hexponent ((Option.all_eq_true ..).1 hclosing)
      (List.all_eq_true.1 rfl) (by decide) nofun).1.trans ?_
    rw [hone]
    decide +kernel
  · refine (@parse_number _ [] ['5'] _ hequal ((Option.all_eq_true ..).1 hrelation)
      (List.all_eq_true.1 rfl) (by decide) ?_).1.trans ?_
    · rw [hnone]
      simp
    · rw [hnone]
      decide +kernel

/-- The number is not always the last term: an exponent without brackets goes on with it. -/
theorem not_parse_number_last :
    ¬ ∀ (p whole part : List Char) (nodes : List Node), parse p = .ok nodes →
      (∀ c ∈ p.getLast?, isTermEnd c = true) → (∀ c ∈ whole ++ part, c.isDigit = true) →
        whole ≠ [] ∨ part ≠ [] →
          parse (p ++ numberText whole part) =
            .ok (nodes ++ [Node.constant (digitsValue whole part)]) := by
  intro h
  have hexponent : parse "x^-(2)".toList =
      .ok [.group (some 'x') (Number.ofNat 1)
        [.paren [.group none (Number.ofNat 2) []] [] true]] := by decide +kernel
  have hclosing : "x^-(2)".toList.getLast?.all isTermEnd = true := by decide +kernel
  have hlast := h _ ['3'] [] _ hexponent ((Option.all_eq_true ..).1 hclosing)
    (List.all_eq_true.1 rfl) (by decide)
  have hinside : parse ("x^-(2)".toList ++ numberText ['3'] []) =
      .ok [.group (some 'x') (Number.ofNat 1)
        [.paren [.group none (Number.ofNat 2) []] [] true, .group none (Number.ofNat 3) []]] := by
    decide +kernel
  rw [hinside] at hlast
  exact absurd (congrArg List.length (Except.ok.inj hlast)) (by decide)

/-- Behind a group with an exponent a point is read, but the digits begin another term and count as
whole ones. -/
example : parse "x^(2).5".toList =
    .ok [.group (some 'x') (Number.ofNat 1) [.group none (Number.ofNat 2) []],
      .group none (Number.ofNat 5) []] := by
  decide +kernel

end OneUnknown
