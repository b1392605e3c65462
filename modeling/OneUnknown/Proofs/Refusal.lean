import OneUnknown.Proofs.Rereading
/-!
# Texts that are refused

The text of a sequence that is not legible is refused.  Either it is refused at once, or an exponent
begins behind a term that has one already: no reader can end that exponent any more.

* `Frame.IsDoomed`: the frame of an exponent that cannot be ended;
* `Reader.areDoomed_readFrom`: it stays, whatever is read after it;
* `Reader.Refuses`: a text that is refused, or leads to such a frame;
* `Sequence.parse_text_eq_ok_iff`: when the text of a sequence can be read.
-/

namespace OneUnknown

/-! ## Exponents that cannot be ended -/

/-- The frame of an exponent whose term cannot be raised. -/
def Frame.IsDoomed (frame : Frame) : Prop :=
  (∀ place negative, frame.opening ≠ .bracket place negative) ∧
    ∀ caret power, ∃ e, frame.outer.raise caret power = .error e

/-- Some exponent that is being read cannot be ended. -/
def AreDoomed (frames : List Frame) : Prop := ∃ frame ∈ frames, frame.IsDoomed

theorem AreDoomed.cons {frames : List Frame} (h : AreDoomed frames) (frame : Frame) :
    AreDoomed (frame :: frames) :=
  h.imp fun _ hmem => ⟨.tail _ hmem.1, hmem.2⟩

/-- The progress of an exponent, and brackets around it, change nothing. -/
theorem AreDoomed.reopened {opening opening' : Opening} {outer : Level} {frames : List Frame}
    (h : AreDoomed (⟨opening, outer⟩ :: frames))
    (hopening : ∀ place negative, opening' ≠ .bracket place negative) :
    AreDoomed (⟨opening', outer⟩ :: frames) := by
  obtain ⟨frame, hmem, hdoomed⟩ := h
  rcases List.mem_cons.1 hmem with rfl | hmem
  · exact ⟨_, .head _, hopening, hdoomed.2⟩
  · exact ⟨frame, .tail _ hmem, hdoomed⟩

/-- A frame that has been left is not the doomed one. -/
theorem AreDoomed.of_raise {opening : Opening} {outer raised : Level} {frames : List Frame}
    {caret : Nat} {power : List Node} (h : AreDoomed (⟨opening, outer⟩ :: frames))
    (hraise : outer.raise caret power = .ok raised) : AreDoomed frames := by
  obtain ⟨frame, hmem, hdoomed⟩ := h
  rcases List.mem_cons.1 hmem with rfl | hmem
  · obtain ⟨e, he⟩ := hdoomed.2 caret power
    rw [hraise] at he
    cases he
  · exact ⟨frame, hmem, hdoomed⟩

theorem AreDoomed.of_bracket {place : Nat} {negative : Bool} {outer : Level} {frames : List Frame}
    (h : AreDoomed (⟨.bracket place negative, outer⟩ :: frames)) : AreDoomed frames := by
  obtain ⟨frame, hmem, hdoomed⟩ := h
  rcases List.mem_cons.1 hmem with rfl | hmem
  · exact absurd rfl (hdoomed.1 place negative)
  · exact ⟨frame, hmem, hdoomed⟩

namespace Reader

variable {relations : Bool}

theorem areDoomed_closeExponents {level : Level} {frames : List Frame} {r : Reader}
    (h : closeExponents level frames = .ok r) (hdoomed : AreDoomed frames) :
    AreDoomed r.frames := by
  replace h := ExponentsClosed.of_closeExponents h
  induction h with
  | settled => exact hdoomed
  | exponent _ hraised _ ih => exact ih (hdoomed.of_raise hraised)

theorem areDoomed_completeExponent {frames : List Frame} (h : AreDoomed frames) :
    AreDoomed (completeExponent frames) := by
  unfold completeExponent
  split
  · exact h.reopened (by simp)
  · exact h

theorem areDoomed_closeBracket {place : Nat} {level : Level} {frames : List Frame} {r : Reader}
    (h : closeBracket place level frames = .ok r) (hdoomed : AreDoomed frames) :
    AreDoomed r.frames := by
  rcases closeBracket_cases h with ⟨_, _, _, _, _, rfl, -, -, rfl⟩ |
    ⟨_, _, _, _, _, rfl, -, hraised, rfl⟩
  · exact areDoomed_completeExponent hdoomed.of_bracket
  · exact areDoomed_completeExponent (hdoomed.of_raise hraised)

theorem areDoomed_readPlain {place : Nat} {level : Level} {frames : List Frame} {cls : CharClass}
    {r : Reader} (h : readPlain relations place level frames cls = .ok r)
    (hdoomed : AreDoomed frames) : AreDoomed r.frames := by
  cases PlainRead.of_readPlain h with
  | opening | caret => exact hdoomed.cons _
  | closing hclosed => exact areDoomed_closeBracket hclosed hdoomed
  | _ => exact hdoomed

theorem areDoomed_readAtLevel {place : Nat} {level : Level} {frames : List Frame}
    {cls : CharClass} {r : Reader} (h : readAtLevel relations place level frames cls = .ok r)
    (hdoomed : AreDoomed frames) : AreDoomed r.frames := by
  rcases readAtLevel_cases h with ⟨_, _, -, -, rfl⟩ | ⟨_, -, -, h⟩
  · exact hdoomed
  · exact areDoomed_readPlain h hdoomed

theorem areDoomed_step {place : Nat} {r r' : Reader} {cls : CharClass}
    (h : r.step relations place cls = .ok r') (hdoomed : AreDoomed r.frames) :
    AreDoomed r'.frames := by
  rcases step_cases h with ⟨caret, outer, frames, hframes, -, rfl⟩ |
    ⟨caret, progress, next, outer, frames, hframes, -, -, h⟩ | ⟨closed, hclosed, h⟩
  · rw [hframes] at hdoomed
    exact hdoomed.reopened (by simp)
  · rw [hframes] at hdoomed
    exact areDoomed_readAtLevel h (hdoomed.reopened (by simp))
  · exact areDoomed_readAtLevel h (areDoomed_closeExponents hclosed hdoomed)

/-- An exponent that cannot be ended stays. -/
theorem areDoomed_readFrom {place : Nat} {r r' : Reader} {text : List Char}
    (h : readFrom relations place r text = .ok r') (hdoomed : AreDoomed r.frames) :
    AreDoomed r'.frames :=
  readFrom_induction (P := fun r => AreDoomed r.frames)
    (fun hdoomed hnext => areDoomed_step hnext hdoomed) hdoomed h

theorem finish_ne_ok_of_areDoomed {r : Reader} (hdoomed : AreDoomed r.frames)
    (nodes : List Node) : r.finish ≠ .ok nodes := by
  intro h
  obtain ⟨level, hclosed, -⟩ := finish_eq_ok.1 h
  obtain ⟨frame, hmem, -⟩ := areDoomed_closeExponents hclosed hdoomed
  exact List.not_mem_nil hmem

/-! ## Texts -/

/-- From the state `r`, the text is refused or leads to an exponent that cannot be ended. -/
def Refuses (relations : Bool) (r : Reader) (text : List Char) : Prop :=
  ∀ place r', readFrom relations place r text = .ok r' → AreDoomed r'.frames

variable {r : Reader} {text text' : List Char} {post : Reader → Prop}

theorem Refuses.append (h : r.Refuses relations text) (text' : List Char) :
    r.Refuses relations (text ++ text') := by
  intro place r'' hr''
  rw [readFrom_append] at hr''
  obtain ⟨r', hr', hr''⟩ := Except.bind_eq_ok.1 hr''
  exact areDoomed_readFrom hr'' (h place r' hr')

theorem Leads.refuses (h : r.Leads relations text post)
    (h' : ∀ r', post r' → r'.Refuses relations text') : r.Refuses relations (text ++ text') := by
  intro place r'' hr''
  obtain ⟨r', hr', hpost⟩ := h place
  rw [readFrom_append, hr'] at hr''
  exact h' r' hpost _ r'' hr''

end Reader

/-! ## Sequences that are not legible -/

open Reader

section

variable {relations nested : Bool} {frames : List Frame} {nodes : List Node} {r : Reader}

/-- The text of a term is refused wherever the term can stand. -/
def Node.Refused (relations : Bool) (term : Node) : Prop :=
  ∀ {frames : List Frame} {nodes : List Node} {r : Reader}, ReadyFor frames nodes term r →
    r.Refuses relations term.body

/-- The text of a sequence is refused wherever it is the content of a term. -/
def Sequence.Refused (relations : Bool) (content : List Node) : Prop :=
  ∀ {frames : List Frame} {r : Reader}, IsSettled frames → r.AtGap frames [] false →
    r.Refuses relations (Sequence.text content)

theorem Sequence.isLegible_cons (node : Node) (rest : List Node) :
    Sequence.isLegible (node :: rest) = (node.isLegible && Sequence.isLegible rest) := rfl

theorem Sequence.refuses_textAfter {content : List Node} {previous : Option Node}
    (hwritten : Sequence.Written previous content) (hsettled : IsSettled frames)
    (hnested : nested = false → relations = true ∧ frames = [])
    (hterms : ∀ node ∈ content, node.isTerm = true → node.isLegible = false →
      node.Refused relations)
    (hread : ∀ node ∈ content, node.IsRead nested) (h : Follows frames nodes previous r)
    (hlegible : Sequence.isLegible content = false) :
    r.Refuses relations (Sequence.textAfter previous content) := by
  -- A term is refused itself, or else the rest of the sequence is.
  have hbody {term : Node} {rest : List Node} (hterm : term.isTerm = true)
      (hrefused : term.isLegible = false → term.Refused relations) (hread : term.IsRead nested)
      (hlegible : Sequence.isLegible (term :: rest) = false)
      (ih : ∀ {nodes : List Node} {r : Reader}, Follows frames nodes (some term) r →
        Sequence.isLegible rest = false →
          r.Refuses relations (Sequence.textAfter (some term) rest))
      {nodes : List Node} {r : Reader} (hready : ReadyFor frames nodes term r) :
      r.Refuses relations (term.body ++ Sequence.textAfter (some term) rest) := by
    cases hthis : term.isLegible with
    | false => exact Refuses.append (hrefused hthis hready) _
    | true =>
      rw [Sequence.isLegible_cons, hthis, Bool.true_and] at hlegible
      refine ((Node.rereads hread hterm hthis).1 hready).refuses ?_
      exact fun r' h' => ih (.of_atTerm hterm h') hlegible
  induction hwritten generalizing nodes r with
  | nil => cases hlegible
  | @hidden previous term rest hnegative hrest ih =>
    rw [List.forall_mem_cons, List.forall_mem_cons] at hterms hread
    have hterm := Node.isTerm_of_isNegative hnegative
    rw [Sequence.textAfter_hidden previous hnegative]
    refine (h.leads_difference hsettled).refuses fun r' h' => ?_
    exact hbody hterm (hterms.2.1 hterm) hread.2.1 hlegible (ih hterms.2.2 hread.2.2)
      (.gap (hnegative ▸ h') fun _ => hsettled.awaitsTerm)
  | @operator previous op rest hhides hrest ih =>
    rw [List.forall_mem_cons] at hterms hread
    rw [Sequence.textAfter_operator previous hhides]
    refine ((h.atRest hsettled).leads_operator hsettled hread.1.ne_subtract).refuses ?_
    exact fun r' h' => ih hterms.2 hread.2 (.of_atGap rfl h') hlegible
  | @relation previous rel rest hrest ih =>
    rw [List.forall_mem_cons] at hterms hread
    obtain ⟨rfl, rfl⟩ := hnested hread.1.nested_eq_false
    rw [Sequence.textAfter_relation previous]
    refine ((h.atRest hsettled).leads_relation rel).refuses ?_
    exact fun r' h' => ih hterms.2 hread.2 (.of_atGap rfl h') hlegible
  | @term previous term rest hterm hprevious hrest ih =>
    rw [List.forall_mem_cons] at hterms hread
    rw [Sequence.textAfter_term previous hterm]
    refine (h.leads_separator hsettled hprevious).refuses fun r' h' => ?_
    exact hbody hterm (hterms.1 hterm) hread.1 hlegible (ih hterms.2 hread.2) h'

theorem Sequence.refused {content : List Node}
    (hterms : ∀ node ∈ content, node.isTerm = true → node.isLegible = false →
      node.Refused relations)
    (hread : ∀ node ∈ content, node.IsRead true) (hlegible : Sequence.isLegible content = false) :
    Sequence.Refused relations content :=
  fun hsettled h => Sequence.refuses_textAfter (Sequence.written content (by simp)) hsettled
    (fun hfalse => by cases hfalse) hterms hread (.of_atGap rfl h) hlegible

/-! ## Exponents that are not legible -/

/-- A second exponent. -/
theorem refuses_caret (h : r.level.IsRaised) (hscientific : r.level.scientific = none)
    (text : List Char) : r.Refuses relations ('^' :: text) := by
  obtain ⟨level, frames⟩ := r
  show Refuses relations _ (['^'] ++ text)
  refine (leads_caret hscientific).refuses ?_
  rintro _ ⟨caret, rfl⟩ place r' hr'
  exact areDoomed_readFrom hr' ⟨_, .head _, by simp, h⟩

/-- An operator in place of an exponent. -/
theorem refuses_operatorExponent {caret : Nat} {outer : Level} {op : Operator}
    (hop : op ≠ .subtract) :
    (⟨Level.blank, ⟨.exponent caret .nothing, outer⟩ :: frames⟩ : Reader).Refuses relations
      [' ', op.symbol, ' '] := by
  have hblank (place : Nat) : step relations place
      ⟨Level.blank, ⟨.exponent caret .nothing, outer⟩ :: frames⟩ .blank =
        .ok ⟨Level.blank, ⟨.exponent caret .nothing, outer⟩ :: frames⟩ := rfl
  have hoperator (place : Nat) : step relations place
      ⟨Level.blank, ⟨.exponent caret .nothing, outer⟩ :: frames⟩ (.operator op) =
        .error (.danglingExponent caret) := rfl
  intro place r' hr'
  rw [readFrom, CharClass.of_blank, hblank] at hr'
  obtain ⟨_, ⟨⟩, hr'⟩ := Except.bind_eq_ok.1 hr'
  rw [readFrom, Operator.of_symbol hop, hoperator] at hr'
  cases hr'

/-- What is known of the brackets of a term. -/
def Node.ContentRefused (relations : Bool) : Node → Prop
  | .paren b _ _ => Sequence.isLegible b = false → Sequence.Refused relations b
  | _ => True

theorem isLegible_of_lone {exponent : Node} (hterm : exponent.isTerm = true)
    (hparen : exponent.isParen = true → exponent.isNegative = true)
    (hlegible : (isLegiblePower [exponent] && Sequence.isLegible [exponent]) = false) :
    exponent.isLegible = false := by
  have hshape : isLegiblePower [exponent] = true := by
    cases exponent with
    | operator | relation => cases hterm
    | group | fraction => rfl
    | paren b p negative =>
      cases negative with
      | true => rfl
      | false => cases hparen rfl
  simpa [hshape, Sequence.isLegible] using hlegible

theorem refuses_powerText {p : List Node} {term : List Node → Node}
    (hread : ∀ node ∈ p, node.IsRead true)
    (hlegible : (isUnitPower p || isLegiblePower p && Sequence.isLegible p) = false)
    (hinner : ∀ node ∈ p, node.isTerm = true →
      (node.isLegible = false → node.Refused relations) ∧ node.ContentRefused relations)
    (hframes : r.frames = continued .complete frames) (hterm : r.level.Raisable nodes term) :
    r.Refuses relations (powerText p) := by
  rw [Bool.or_eq_false_iff] at hlegible
  obtain ⟨hunit, hlegible⟩ := hlegible
  have hbrackets {content : List Node} (hcontent : Sequence.Refused relations content) :
      r.Refuses relations ('^' :: parenthesized (Sequence.text content)) := by
    show r.Refuses relations (['^', '('] ++ (Sequence.text content ++ [')']))
    refine (leads_openExponent hframes hterm).refuses ?_
    rintro _ ⟨caret, rfl⟩
    exact Refuses.append (hcontent (by trivial) ⟨rfl, Level.gap_blank⟩) _
  cases IsWrittenPower.of_isRead hread hunit with
  | several first second rest =>
    rw [isLegiblePower_several, Bool.true_and] at hlegible
    rw [powerText_several]
    exact hbrackets (Sequence.refused (fun node hnode hterm => (hinner node hnode hterm).1)
      hread hlegible)
  | @lone exponent hisTerm hparen =>
    have hrefused : exponent.Refused relations :=
      (hinner _ (.head _) hisTerm).1 (isLegible_of_lone hisTerm hparen hlegible)
    rw [powerText_lone hisTerm hunit]
    refine (leads_exponentSign hparen hframes hterm).refuses ?_
    rintro r' ⟨caret, progress, hready⟩
    exact hrefused hready
  | @parenthesis b hne q =>
    rw [powerText_parenthesis]
    cases hb : Sequence.isLegible b with
    | false => exact Refuses.append (hbrackets ((hinner _ (.head _) rfl).2 hb)) _
    | true =>
      have hq : isUnitPower q = false := by
        by_contra hq
        simp [isLegiblePower, Sequence.isLegible, Node.isLegible, hb, hq] at hlegible
      have hcontent : Sequence.Rereads relations b := by
        cases hread _ (.head _) with
        | paren _ _ hread _ => exact Sequence.rereads_of_isLegible hread hb
      refine (hcontent.leads_bracketExponent hne hframes hterm).refuses fun r' h' => ?_
      rw [powerText, hq, if_neg (by simp)]
      split
      · exact refuses_caret h'.2.2 h'.2.1.scientific _
      · exact refuses_caret h'.2.2 h'.2.1.scientific _
  | @operator op hop =>
    have htext : powerText [.operator op] = ['^'] ++ [' ', op.symbol, ' '] := by
      rw [powerText, if_neg (by simp [isUnitPower]), if_pos List.length_singleton, Sequence.text,
        Sequence.textAfter_operator none (by simp [hidesPlus])]
      rfl
    rw [htext]
    refine (leads_caret hterm.pastTerm.scientific).refuses ?_
    rintro _ ⟨caret, rfl⟩
    exact refuses_operatorExponent hop

/-- The text of a term that is not legible is refused. -/
theorem Node.refused {term : Node} (hread : term.IsRead nested) (hterm : term.isTerm = true) :
    (term.isLegible = false → term.Refused relations) ∧ term.ContentRefused relations := by
  induction term using Node.nested_induction generalizing nested with
  | operator | relation => cases hterm
  | fraction => cases hread
  | group letter n p ih =>
    refine ⟨fun hlegible frames nodes r hready => ?_, trivial⟩
    cases hread with
    | group hletter hn hp =>
      cases hready with
      | adjacent hparen => cases hparen
      | gap h _ =>
        rw [Node.body_group]
        refine (h.leads_coefficient hletter hn).refuses fun r' h' => ?_
        exact refuses_powerText hp hlegible (fun node hnode => ih node hnode (hp node hnode))
          h'.1 h'.2
  | paren b p negative ihb ihp =>
    cases hread with
    | paren _ hne hb hp =>
      have hcontent (hlegible : Sequence.isLegible b = false) : Sequence.Refused relations b :=
        Sequence.refused (fun node hnode hisTerm => (ihb node hnode (hb node hnode) hisTerm).1)
          hb hlegible
      refine ⟨fun hlegible frames nodes r hready => ?_, hcontent⟩
      rw [Node.body_paren]
      cases hbody : Sequence.isLegible b with
      | false =>
        show r.Refuses relations (['('] ++ (Sequence.text b ++ [')'] ++ powerText p))
        refine (hready.leads_opening rfl).refuses ?_
        rintro _ ⟨place, outer, frames', rfl, -, -⟩
        exact Refuses.append (Refuses.append
          (hcontent hbody (by trivial) ⟨rfl, Level.gap_blank⟩) _) _
      | true =>
        rw [Node.isLegible, hbody, Bool.true_and] at hlegible
        have hrereads : Sequence.Rereads relations b := Sequence.rereads_of_isLegible hb hbody
        refine (hrereads.leads_paren hne hready).refuses fun r' h' => ?_
        exact refuses_powerText hp hlegible (fun node hnode => ihp node hnode (hp node hnode))
          h'.1 h'.2

/-- The text of a sequence can be read if it is legible, and not otherwise. -/
theorem Sequence.parse_text_eq_ok_iff {content nodes : List Node}
    (hread : ∀ node ∈ content, node.IsRead false) :
    parse (Sequence.text content) = .ok nodes ↔
      Sequence.isLegible content = true ∧ nodes = Sequence.reread content := by
  constructor
  · intro h
    cases hlegible : Sequence.isLegible content with
    | true =>
      rw [Sequence.parse_text hread hlegible] at h
      exact ⟨rfl, (Except.ok.inj h).symm⟩
    | false =>
      have htidy := Sequence.isTidyText_text hread
      rw [parse, parseWith, htidy.oneCharRelations_eq, htidy.checkBrackets_eq] at h
      obtain ⟨_, -, h⟩ := Except.bind_eq_ok.1 h
      obtain ⟨r, hr, h⟩ := Except.bind_eq_ok.1 h
      have hrefuses : Reader.start.Refuses true (Sequence.text content) :=
        Sequence.refuses_textAfter (Sequence.written content (by simp)) (by trivial)
          (fun _ => ⟨rfl, rfl⟩)
          (fun node hnode hterm => (Node.refused (hread node hnode) hterm).1) hread follows_start
          hlegible
      exact absurd h (finish_ne_ok_of_areDoomed (hrefuses 0 r hr) nodes)
  · rintro ⟨hlegible, rfl⟩
    exact Sequence.parse_text hread hlegible

end

end OneUnknown
