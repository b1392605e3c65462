import OneUnknown.Proofs.Characters
import OneUnknown.Proofs.Decimals
import OneUnknown.Proofs.ReaderSteps
/-!
# What is read from a text

The reader puts nodes together at several levels at a time.  What holds of all of them is an
invariant of its steps.

* `Node.IsRead`: a node as it can be read, which has no fraction inside;
* `Level.IsRead` and `Reader.IsRead`: the invariant;
* `Reader.isRead_step` and `Reader.isRead_readFrom`: one character, and a whole text;
* `isRead_of_parse`: everything in a text that is read is such a node.
-/

namespace OneUnknown

/-- A node that can be read from a text.  There are no fractions and no differences, only divisions
and negative terms; letters can name variables, numbers are decimals, and a parenthesis has
something in it.  `nested` excludes relations, which stand at the top level only. -/
inductive Node.IsRead : (nested : Bool) → Node → Prop where
  | group {nested : Bool} {letter : Option Char} {n : Number} {p : List Node}
    (hletter : ∀ name, letter = some name → isAlphabetic name = true ∧ name ≠ 'E')
    (hn : Rational.IsDecimal n.magnitude) (hp : ∀ node ∈ p, IsRead true node) :
    IsRead nested (.group letter n p)
  | paren {nested : Bool} (negative : Bool) {b p : List Node} (hne : b ≠ [])
    (hb : ∀ node ∈ b, IsRead true node) (hp : ∀ node ∈ p, IsRead true node) :
    IsRead nested (.paren b p negative)
  | operator {nested : Bool} {op : Operator} (hop : op ≠ .subtract) : IsRead nested (.operator op)
  | relation (r : Relation) : IsRead false (.relation r)

theorem Node.IsRead.ne_subtract {nested : Bool} {op : Operator}
    (h : (Node.operator op).IsRead nested) : op ≠ .subtract := by
  cases h with
  | operator hop => exact hop

theorem Node.IsRead.nested_eq_false {nested : Bool} {r : Relation}
    (h : (Node.relation r).IsRead nested) : nested = false := by
  cases h
  rfl

/-! ## Numbers -/

namespace Number

theorem isDecimal_ofNat (n : Nat) : Rational.IsDecimal (ofNat n).magnitude := by
  rw [magnitude, ofNat, Rat.add_zero]
  exact Rational.isDecimal_natCast n

theorem isDecimal_addDigit {n : Number} (h : Rational.IsDecimal n.magnitude) (digit : Nat) :
    Rational.IsDecimal (n.addDigit digit).magnitude := by
  have heq : (n.addDigit digit).magnitude = n.magnitude + ((n.whole * 9 + digit : Nat) : Rat) := by
    simp only [magnitude, addDigit]
    push_cast
    ring
  exact heq ▸ h.add (Rational.isDecimal_natCast _)

theorem isDecimal_addDecimal {n : Number} (h : Rational.IsDecimal n.magnitude)
    (place digit : Nat) : Rational.IsDecimal (n.addDecimal place digit).magnitude := by
  have heq : (n.addDecimal place digit).magnitude =
      n.magnitude + (digit : Rat) * (10 ^ place)⁻¹ := by
    simp only [magnitude, addDecimal]
    ring
  exact heq ▸ h.add (Rational.isDecimal_digit digit place)

end Number

/-! ## Drafts -/

namespace Draft

variable {d : Draft} {nested : Bool}

/-- The term that is being put together, whether something has been read of it or not. -/
def node (d : Draft) : Node := .group d.letter d.number d.power

theorem isRead_blank : blank.node.IsRead nested :=
  .group (by simp [blank]) (Number.isDecimal_ofNat 0) (by simp [blank])

theorem isRead_withSign (h : d.node.IsRead nested) (negative : Bool) :
    (d.withSign negative).node.IsRead nested := by
  cases h with
  | group hletter hn hp => exact .group hletter hn hp

theorem isRead_addDigit (h : d.node.IsRead nested) (digit : Nat) :
    (d.addDigit digit).node.IsRead nested := by
  cases h with
  | group hletter hn hp =>
    rw [addDigit]
    split
    · exact .group hletter (Number.isDecimal_addDigit hn digit) hp
    · exact .group hletter (Number.isDecimal_addDecimal hn _ digit) hp

theorem isRead_setLetter (h : d.node.IsRead nested) {name : Char}
    (hname : isAlphabetic name = true ∧ name ≠ 'E') : (d.setLetter name).node.IsRead nested := by
  have hletter : ∀ other, some name = some other → isAlphabetic other = true ∧ other ≠ 'E' := by
    rintro _ ⟨rfl⟩
    exact hname
  cases h with
  | group _ hn hp =>
    rw [setLetter]
    split
    · exact .group hletter hn hp
    · exact .group hletter (Number.isDecimal_ofNat 1) hp

theorem isRead_group? (h : d.node.IsRead nested) {g : Group} (hg : d.group? = some g) :
    g.toNode.IsRead nested := by
  rw [group?] at hg
  split at hg
  · obtain rfl := Option.some.inj hg
    exact h
  · cases hg

end Draft

theorem ScientificDraft.isRead_node {s : ScientificDraft} {nested : Bool}
    (h : s.mantissa.toNode.IsRead true) : s.node.IsRead nested := by
  refine .paren false (by simp) (fun node hnode => ?_) (by simp)
  simp only [List.mem_cons, List.not_mem_nil, or_false] at hnode
  rcases hnode with rfl | rfl | rfl
  · exact h
  · exact .operator (by simp)
  · refine .group (by simp) (Number.isDecimal_ofNat 10) fun node hnode => ?_
    rw [List.mem_singleton.1 hnode]
    exact .group (by simp) (Number.isDecimal_ofNat s.exponent) (by simp)

/-! ## Levels -/

/-- A level whose nodes, finished or not, can all be read. -/
structure Level.IsRead (nested : Bool) (l : Level) : Prop where
  emitted : ∀ node ∈ l.emitted, node.IsRead nested
  draft : l.draft.node.IsRead nested
  scientific : ∀ s, l.scientific = some s → s.mantissa.toNode.IsRead true

namespace Level

variable {l l' : Level} {nested : Bool}

theorem isRead_blank : blank.IsRead nested :=
  ⟨by simp [blank], Draft.isRead_blank, by simp [blank]⟩

theorem isRead_flush (h : l.IsRead nested) : l.flush.IsRead nested where
  emitted := by
    intro node hnode
    rcases List.mem_append.1 hnode with hnode | hnode
    · obtain ⟨g, hg, rfl⟩ := Option.map_eq_some_iff.1 (Option.mem_toList.1 hnode)
      exact Draft.isRead_group? h.draft hg
    · exact h.emitted node hnode
  draft := Draft.isRead_blank
  scientific := h.scientific

theorem isRead_emit (h : l.IsRead nested) {node : Node} (hnode : node.IsRead nested) :
    (l.emit node).IsRead nested where
  emitted := by
    intro other hother
    rcases List.mem_cons.1 hother with rfl | hother
    · exact hnode
    · exact h.emitted other hother
  draft := h.draft
  scientific := h.scientific

theorem isRead_finishScientific (h : l.IsRead nested) (hl : l.finishScientific = .ok l') :
    l'.IsRead nested := by
  rcases finishScientific_cases hl with ⟨-, rfl⟩ | ⟨s, hs, -, rfl⟩
  · exact h
  · have hnode : s.node.IsRead nested := ScientificDraft.isRead_node (h.scientific s hs)
    exact ⟨(isRead_emit h hnode).emitted, h.draft, by simp⟩

theorem isRead_finish (h : l.IsRead nested) {nodes : List Node} (hl : l.finish = .ok nodes) :
    ∀ node ∈ nodes, node.IsRead nested := by
  obtain ⟨finished, hfinished, hl⟩ := Except.bind_eq_ok.1 hl
  obtain rfl := Except.pure_eq_ok.1 hl
  intro node hnode
  exact (isRead_flush (isRead_finishScientific h hfinished)).emitted node (List.mem_reverse.1 hnode)

/-- A level with another draft. -/
theorem isRead_of_draft (h : l.IsRead nested) (hemitted : l'.emitted = l.emitted)
    (hdraft : l'.draft.node.IsRead nested) (hscientific : l'.scientific = l.scientific) :
    l'.IsRead nested :=
  ⟨hemitted ▸ h.emitted, hdraft, hscientific ▸ h.scientific⟩

theorem isRead_leaveFraction (h : l.IsRead nested) : l.leaveFraction.IsRead nested :=
  isRead_of_draft h rfl h.draft rfl

theorem isRead_readDigit (h : l.IsRead nested) {place value : Nat}
    (hl : l.readDigit place value = .ok l') : l'.IsRead nested := by
  obtain ⟨-, ⟨-, rfl⟩ | ⟨-, rfl⟩⟩ := readDigit_cases hl
  · exact isRead_of_draft h rfl (Draft.isRead_addDigit h.draft value) rfl
  · exact isRead_of_draft (isRead_flush h) rfl (Draft.isRead_addDigit Draft.isRead_blank value) rfl

theorem isRead_readPoint (h : l.IsRead nested) {place : Nat} (hl : l.readPoint place = .ok l') :
    l'.IsRead nested := by
  obtain ⟨-, rfl⟩ := readPoint_eq_ok hl
  exact isRead_of_draft h rfl h.draft rfl

theorem isRead_readMinus (h : l.IsRead nested) : l.readMinus.IsRead nested := by
  rw [readMinus]
  split
  · exact isRead_of_draft (isRead_flush h) rfl (Draft.isRead_withSign Draft.isRead_blank true) rfl
  · exact isRead_of_draft h rfl (Draft.isRead_withSign h.draft _) rfl

theorem isRead_readOperator (h : l.IsRead nested) {op : Operator} (hop : op ≠ .subtract) :
    (l.readOperator op).IsRead nested :=
  isRead_of_draft (isRead_emit (isRead_flush h) (.operator hop)) rfl Draft.isRead_blank rfl

theorem isRead_readRelation (h : l.IsRead false) (r : Relation) :
    (l.readRelation r).IsRead false :=
  isRead_of_draft (isRead_emit (isRead_flush h) (.relation r)) rfl Draft.isRead_blank rfl

theorem isRead_readLetter (h : l.IsRead nested) {place : Nat} {name : Char} (hname : name ≠ 'E')
    (hl : l.readLetter place name = .ok l') : l'.IsRead nested := by
  obtain ⟨halphabetic, ⟨-, -, rfl⟩ | ⟨-, rfl⟩⟩ := readLetter_cases hl
  · exact isRead_of_draft h rfl (Draft.isRead_setLetter h.draft ⟨halphabetic, hname⟩) rfl
  · have hmultiply : Operator.multiply ≠ .subtract := by simp
    have hemit := isRead_emit (isRead_flush h) (.operator hmultiply)
    exact isRead_of_draft hemit rfl (Draft.isRead_setLetter hemit.draft ⟨halphabetic, hname⟩) rfl

theorem isRead_readScientific (h : l.IsRead nested) {place : Nat}
    (hl : l.readScientific place = .ok l') : l'.IsRead nested := by
  obtain ⟨mantissa, hmantissa, rfl⟩ := readScientific_eq_ok hl
  refine ⟨h.emitted, Draft.isRead_blank, ?_⟩
  rintro s ⟨rfl⟩
  have hgroup := Draft.isRead_group? h.draft hmantissa
  cases hgroup with
  | group hletter hn hp => exact .group hletter hn hp

theorem isRead_beforeParen (h : l.IsRead nested) : l.beforeParen.1.IsRead nested := by
  rw [beforeParen]
  split
  · exact isRead_flush h
  · exact isRead_of_draft h rfl (Draft.isRead_withSign h.draft _) rfl

theorem isRead_addParen (h : l.IsRead nested) {body : List Node} (hne : body ≠ [])
    (hbody : ∀ node ∈ body, node.IsRead true) (negative : Bool) :
    (l.addParen body negative).IsRead nested :=
  isRead_of_draft (isRead_emit h (.paren negative hne hbody (by simp))) rfl h.draft rfl

theorem isRead_raise (h : l.IsRead nested) {caret : Nat} {power : List Node}
    (hpower : ∀ node ∈ power, node.IsRead true) (hl : l.raise caret power = .ok l') :
    l'.IsRead nested := by
  obtain ⟨-, ⟨-, -, rfl⟩ | ⟨-, -, -, before, hraised⟩⟩ := raise_cases hl
  · refine isRead_of_draft h rfl ?_ rfl
    have hdraft := h.draft
    cases hdraft with
    | group hletter hn _ => exact .group hletter hn hpower
  · -- The node that is raised was finished before, and the others stay.
    have hkept {old node : Node} (hemitted : l.emitted = old :: before)
        (hnode : node.IsRead nested) : IsRead nested { l with emitted := node :: before } := by
      refine ⟨List.forall_mem_cons.2 ⟨hnode, fun other hother => ?_⟩, h.draft, h.scientific⟩
      exact h.emitted other (hemitted ▸ .tail _ hother)
    rcases hraised with ⟨v, n, hemitted, rfl⟩ | ⟨body, negative, hemitted, rfl⟩
    · refine hkept hemitted ?_
      have hgroup := h.emitted (.group v n []) (by simp [hemitted])
      cases hgroup with
      | group hletter hn _ => exact .group hletter hn hpower
    · refine hkept hemitted ?_
      have hparen := h.emitted (.paren body [] negative) (by simp [hemitted])
      cases hparen with
      | paren _ hne hb _ => exact .paren negative hne hb hpower

end Level

/-! ## The reader -/

/-- The level that is being read and those around it can be read.  All but the outermost one are
nested, and so is that one if relations are not accepted. -/
def LevelsAreRead (relations : Bool) : Level → List Frame → Prop
  | level, [] => level.IsRead (!relations)
  | level, frame :: frames => level.IsRead true ∧ LevelsAreRead relations frame.outer frames

variable {relations : Bool}

theorem LevelsAreRead.map {level level' : Level} {frames : List Frame}
    (h : LevelsAreRead relations level frames)
    (hlevel : ∀ {nested : Bool}, level.IsRead nested → level'.IsRead nested) :
    LevelsAreRead relations level' frames := by
  cases frames with
  | nil => exact hlevel h
  | cons => exact ⟨hlevel h.1, h.2⟩

/-- Every level can be read. -/
def Reader.IsRead (relations : Bool) (r : Reader) : Prop := LevelsAreRead relations r.level r.frames

namespace Reader

theorem isRead_start : start.IsRead relations :=
  (Level.isRead_blank : Level.blank.IsRead (!relations))

theorem isRead_closeExponents {level : Level} {frames : List Frame} {r : Reader}
    (hlevels : LevelsAreRead relations level frames) (h : closeExponents level frames = .ok r) :
    r.IsRead relations := by
  replace h := ExponentsClosed.of_closeExponents h
  induction h with
  | settled => exact hlevels
  | exponent hpower hraised _ ih =>
    exact ih (hlevels.2.map fun houter =>
      Level.isRead_raise houter (Level.isRead_finish hlevels.1 hpower) hraised)

theorem levelsAreRead_completeExponent {level : Level} {frames : List Frame}
    (h : LevelsAreRead relations level frames) :
    LevelsAreRead relations level (completeExponent frames) := by
  unfold completeExponent
  split
  · exact h
  · exact h

theorem isRead_closeBracket {place : Nat} {level : Level} {frames : List Frame} {r : Reader}
    (hlevels : LevelsAreRead relations level frames)
    (h : closeBracket place level frames = .ok r) : r.IsRead relations := by
  rcases closeBracket_cases h with ⟨_, negative, outer, rest, body, rfl, hbody, hne, rfl⟩ |
    ⟨_, outer, rest, power, raised, rfl, hpower, hraised, rfl⟩
  · exact levelsAreRead_completeExponent (hlevels.2.map fun houter =>
      Level.isRead_addParen houter hne (Level.isRead_finish hlevels.1 hbody) _)
  · exact levelsAreRead_completeExponent (hlevels.2.map fun houter =>
      Level.isRead_raise houter (Level.isRead_finish hlevels.1 hpower) hraised)

theorem isRead_readPlain {place : Nat} {level : Level} {frames : List Frame}
    {c : Char} {cls : CharClass} {r : Reader} (hcls : CharClass.of c = cls)
    (hlevels : LevelsAreRead relations level frames)
    (h : readPlain relations place level frames cls = .ok r) : r.IsRead relations := by
  cases PlainRead.of_readPlain h with
  | digit hread => exact hlevels.map fun hlevel => Level.isRead_readDigit hlevel hread
  | point hread => exact hlevels.map fun hlevel => Level.isRead_readPoint hlevel hread
  | blank => exact hlevels.map Level.isRead_leaveFraction
  | minus =>
    exact hlevels.map fun hlevel => Level.isRead_readMinus (Level.isRead_leaveFraction hlevel)
  | operator op =>
    have hop : op ≠ .subtract := by
      rintro rfl
      exact CharClass.of_ne_subtract c hcls
    exact hlevels.map fun hlevel => Level.isRead_readOperator hlevel hop
  | relation rel hallowed houtermost =>
    subst hallowed houtermost
    exact Level.isRead_readRelation hlevels rel
  | opening =>
    exact ⟨Level.isRead_blank,
      hlevels.map fun hlevel => Level.isRead_beforeParen (Level.isRead_leaveFraction hlevel)⟩
  | closing hclosed => exact isRead_closeBracket hlevels hclosed
  | caret => exact ⟨Level.isRead_blank, hlevels.map Level.isRead_leaveFraction⟩
  | letter hread =>
    obtain ⟨rfl, hE⟩ := CharClass.of_eq_letter hcls
    exact hlevels.map fun hlevel =>
      Level.isRead_readLetter (Level.isRead_leaveFraction hlevel) hE hread
  | scientific hread => exact hlevels.map fun hlevel => Level.isRead_readScientific hlevel hread

theorem mantissa_of_read? {s s' : ScientificDraft} {place : Nat} {cls : CharClass}
    (h : s.read? place cls = .ok (some s')) : s'.mantissa = s.mantissa := by
  cases cls <;> simp only [ScientificDraft.read?] at h <;> repeat' split at h
  all_goals first
    | (obtain rfl := Option.some.inj (Except.ok.inj h); rfl)
    | cases h

theorem isRead_readAtLevel {place : Nat} {level : Level} {frames : List Frame}
    {c : Char} {cls : CharClass} {r : Reader} (hcls : CharClass.of c = cls)
    (hlevels : LevelsAreRead relations level frames)
    (h : readAtLevel relations place level frames cls = .ok r) : r.IsRead relations := by
  rcases readAtLevel_cases h with ⟨s, s', hs, hnext, rfl⟩ | ⟨finished, hfinished, -, h⟩
  · refine hlevels.map fun hlevel => ⟨hlevel.emitted, hlevel.draft, ?_⟩
    rintro _ ⟨rfl⟩
    exact mantissa_of_read? hnext ▸ hlevel.scientific s hs
  · exact isRead_readPlain hcls
      (hlevels.map fun hlevel => Level.isRead_finishScientific hlevel hfinished) h

/-- Reading one character keeps the invariant. -/
theorem isRead_step {place : Nat} {r r' : Reader} {c : Char} (hr : r.IsRead relations)
    (h : r.step relations place (CharClass.of c) = .ok r') : r'.IsRead relations := by
  rcases step_cases h with ⟨caret, outer, frames, hframes, -, rfl⟩ |
    ⟨caret, progress, next, outer, frames, hframes, -, -, h⟩ | ⟨closed, hclosed, h⟩
  · rw [IsRead, hframes] at hr
    exact hr
  · rw [IsRead, hframes] at hr
    have hlevels : LevelsAreRead relations r.level (⟨.exponent caret next, outer⟩ :: frames) := hr
    exact isRead_readAtLevel rfl hlevels h
  · exact isRead_readAtLevel rfl (isRead_closeExponents hr hclosed) h

/-- Reading a text keeps the invariant. -/
theorem isRead_readFrom {place : Nat} {r r' : Reader} {text : List Char} (hr : r.IsRead relations)
    (h : readFrom relations place r text = .ok r') : r'.IsRead relations :=
  readFrom_induction (P := IsRead relations) isRead_step hr h

theorem isRead_finish {r : Reader} {nodes : List Node} (hr : r.IsRead relations)
    (h : r.finish = .ok nodes) : ∀ node ∈ nodes, node.IsRead (!relations) := by
  obtain ⟨level, hclosed, h⟩ := finish_eq_ok.1 h
  exact Level.isRead_finish (isRead_closeExponents hr hclosed) h

end Reader

/-- Everything that is read from a text is such a node; without relations there are none at the top
level either. -/
theorem isRead_of_parseWith {text : List Char} {nodes : List Node}
    (h : parseWith relations text = .ok nodes) : ∀ node ∈ nodes, node.IsRead (!relations) := by
  obtain ⟨-, -, h⟩ := Except.bind_eq_ok.1 h
  obtain ⟨r, hr, h⟩ := Except.bind_eq_ok.1 h
  exact Reader.isRead_finish (Reader.isRead_readFrom Reader.isRead_start hr) h

theorem isRead_of_parse {text : List Char} {nodes : List Node} (h : parse text = .ok nodes) :
    ∀ node ∈ nodes, node.IsRead false := isRead_of_parseWith h

/-! ## At every depth -/

/-- A node that stands somewhere in a sequence.  `nested` says whether it is inside of another one:
in an exponent, in a parenthesis or in a fraction. -/
inductive Sequence.Holds : (nested : Bool) → Node → List Node → Prop where
  | top {node : Node} {nodes : List Node} (hnode : node ∈ nodes) : Holds false node nodes
  | power {nested : Bool} {node : Node} {letter : Option Char} {n : Number} {p nodes : List Node}
    (hgroup : .group letter n p ∈ nodes) (hinner : Holds nested node p) : Holds true node nodes
  | body {nested negative : Bool} {node : Node} {b p nodes : List Node}
    (hparen : .paren b p negative ∈ nodes) (hinner : Holds nested node b) : Holds true node nodes
  | parenPower {nested negative : Bool} {node : Node} {b p nodes : List Node}
    (hparen : .paren b p negative ∈ nodes) (hinner : Holds nested node p) : Holds true node nodes
  | numerator {nested : Bool} {node : Node} {t b nodes : List Node}
    (hfraction : .fraction t b ∈ nodes) (hinner : Holds nested node t) : Holds true node nodes
  | denominator {nested : Bool} {node : Node} {t b nodes : List Node}
    (hfraction : .fraction t b ∈ nodes) (hinner : Holds nested node b) : Holds true node nodes

/-- What can be said of a single node of a text, without looking into it. -/
def Node.HasReadShape (relations nested : Bool) : Node → Prop
  | .group letter _ _ => ∀ name, letter = some name → isAlphabetic name = true ∧ name ≠ 'E'
  | .paren body _ _ => body ≠ []
  | .fraction .. => False
  | .operator op => op ≠ .subtract
  | .relation _ => relations = true ∧ nested = false

theorem Node.IsRead.hasReadShape {outer nested : Bool} {node : Node} (h : node.IsRead outer)
    (houter : outer = (nested || !relations)) : node.HasReadShape relations nested := by
  cases h with
  | group hletter => exact hletter
  | paren _ hne => exact hne
  | operator hop => exact hop
  | relation => cases relations <;> cases nested <;> simp_all [HasReadShape]

/-- Nodes that can be read hold only such nodes. -/
theorem Sequence.Holds.isRead {nested outer : Bool} {node : Node} {nodes : List Node}
    (h : Sequence.Holds nested node nodes) (hread : ∀ node ∈ nodes, node.IsRead outer) :
    node.IsRead (nested || outer) := by
  induction h generalizing outer with
  | top hnode => exact hread _ hnode
  | power hgroup _ ih =>
    cases hread _ hgroup with
    | group _ _ hp => simpa using ih hp
  | body hparen _ ih =>
    cases hread _ hparen with
    | paren _ _ hb => simpa using ih hb
  | parenPower hparen _ ih =>
    cases hread _ hparen with
    | paren _ _ _ hp => simpa using ih hp
  | numerator hfraction | denominator hfraction => cases hread _ hfraction

/-- The shape of what is read from a text, at every depth: parentheses have something in them,
relations stand at the top level only and only where they are accepted, there are neither fractions
nor differences, and letters are alphabetic characters other than `E`. -/
theorem parseWith_shape {text : List Char} {nodes : List Node}
    (h : parseWith relations text = .ok nodes) {nested : Bool} {node : Node}
    (hnode : Sequence.Holds nested node nodes) : node.HasReadShape relations nested :=
  (hnode.isRead (isRead_of_parseWith h)).hasReadShape rfl

/-- In `5(2 - [xy]^-3)` there is a letter in a parenthesis inside of another one. -/
theorem parseWith_shape_nested_brackets :
    ∃ nodes, parseWith false "5(2 - [xy]^-3)".toList = .ok nodes ∧
      Sequence.Holds true (.group (some 'y') (Number.ofNat 1) []) nodes ∧
      (Node.group (some 'y') (Number.ofNat 1) []).HasReadShape false true := by
  have hparse : parseWith false "5(2 - [xy]^-3)".toList = .ok [.group none (Number.ofNat 5) [],
      .paren [.group none (Number.ofNat 2) [], .paren [.group (some 'x') (Number.ofNat 1) [],
        .operator .multiply, .group (some 'y') (Number.ofNat 1) []]
          [.group none (Number.ofNat 3).negated []] true] [] false] := by decide +kernel
  refine ⟨_, hparse, ?_, parseWith_shape hparse ?_⟩ <;>
    exact .body (.tail _ (.head _)) (.body (.tail _ (.head _)) (.top (.tail _ (.tail _ (.head _)))))

end OneUnknown
