import OneUnknown.Proofs.ReaderStates
/-!
# What has been read stays

A node that has been read stays where it is while the rest of the text is read.  Only the latest one
of a level can still change: a term gets more digits, a variable or an exponent, or it becomes the
mantissa of scientific notation.  Its sign is kept by all of these.

* `Node.Grows`, `Sequence.Grows`: what a node and a sequence keep;
* `Level.nodes`: what a level has read so far;
* `Reader.CompletedBy`: the nodes of the whole text hold what has been read so far;
* `Reader.completedBy_of_readFrom`: those of a text that is accepted do;
* `Sequence.HasAt`: what stands at a place inside of a sequence;
* `Reader.CompletedBy.hasAt`: where the nodes of the innermost level are found in the end.
-/

namespace OneUnknown

/-! ## Nodes and sequences -/

/-- A term with a sign: a group, or scientific notation, where the sign is that of the mantissa. -/
inductive Node.HasSign (negative : Bool) : Node → Prop where
  | group {v n} (p : List Node) (h : n.negative = negative) : HasSign negative (.group v n p)
  | scientific {s : ScientificDraft} {body} (p : List Node) (hs : s.node = .paren body [] false)
      (h : s.mantissa.number.negative = negative) : HasSign negative (.paren body p false)

/-- A term with an exponent, or scientific notation whose mantissa has it. -/
inductive Node.HasPower (power : List Node) : Node → Prop where
  | group (v n) : HasPower power (.group v n power)
  | paren (body negative) : HasPower power (.paren body power negative)
  | scientific {s : ScientificDraft} {body} (p : List Node) (hs : s.node = .paren body [] false)
      (h : s.mantissa.power = power) : HasPower power (.paren body p false)

/-- A parenthesis with a sign. -/
inductive Node.HasBody (body : List Node) (negative : Bool) : Node → Prop where
  | paren (p : List Node) : HasBody body negative (.paren body p negative)

/-- What a node keeps while the text behind it is read. -/
structure Node.Grows (node node' : Node) : Prop where
  sign : ∀ negative, node.HasSign negative → node'.HasSign negative
  power : ∀ power, power ≠ [] → node.HasPower power → node'.HasPower power
  body : ∀ body negative, node.HasBody body negative → node'.HasBody body negative

namespace Node.Grows

variable {node node' node'' : Node}

theorem refl (node : Node) : node.Grows node := ⟨fun _ h => h, fun _ _ h => h, fun _ _ h => h⟩

theorem trans (h : node.Grows node') (h' : node'.Grows node'') : node.Grows node'' where
  sign := fun negative hsign => h'.sign negative (h.sign negative hsign)
  power := fun power hne hpower => h'.power power hne (h.power power hne hpower)
  body := fun body negative hbody => h'.body body negative (h.body body negative hbody)

/-- A group without an exponent keeps its sign, whatever is read into it. -/
theorem group {v v' : Option Char} {n n' : Number} (p : List Node)
    (hsign : n'.negative = n.negative) : Node.Grows (.group v n []) (.group v' n' p) where
  sign := fun _ h => by
    cases h with
    | group _ h => exact .group p (hsign.trans h)
  power := fun _ hne h => by
    cases h with
    | group => exact absurd rfl hne
  body := nofun

/-- A parenthesis takes an exponent. -/
theorem paren (body p : List Node) (negative : Bool) :
    Node.Grows (.paren body [] negative) (.paren body p negative) where
  sign := fun _ h => by
    cases h with
    | scientific _ hs h => exact .scientific p hs h
  power := fun _ hne h => by
    cases h with
    | paren => exact absurd rfl hne
    | scientific _ hs h => exact .scientific p hs h
  body := fun _ _ h => by
    cases h with
    | paren => exact .paren p

/-- A term becomes the mantissa of scientific notation. -/
theorem scientific (s : ScientificDraft) : s.mantissa.toNode.Grows s.node where
  sign := fun _ h => by
    cases h with
    | group _ h => exact .scientific [] rfl h
  power := fun _ _ h => by
    cases h with
    | group => exact .scientific [] rfl rfl
  body := nofun

end Node.Grows

/-- Every node of a sequence stays at its place. -/
def Sequence.Grows (nodes nodes' : List Node) : Prop :=
  ∀ (i : Nat) (node : Node), nodes[i]? = some node →
    ∃ node', nodes'[i]? = some node' ∧ node.Grows node'

namespace Sequence.Grows

variable {nodes nodes' nodes'' : List Node} {node node' : Node}

theorem refl (nodes : List Node) : Sequence.Grows nodes nodes :=
  fun _ node h => ⟨node, h, .refl node⟩

theorem trans (h : Sequence.Grows nodes nodes') (h' : Sequence.Grows nodes' nodes'') :
    Sequence.Grows nodes nodes'' := fun i node hnode => by
  obtain ⟨node', hnode', hgrows⟩ := h i node hnode
  obtain ⟨node'', hnode'', hgrows'⟩ := h' i node' hnode'
  exact ⟨node'', hnode'', hgrows.trans hgrows'⟩

theorem append (nodes more : List Node) : Sequence.Grows nodes (nodes ++ more) :=
  fun _ node h =>
    ⟨node, List.getElem?_append_left (List.getElem?_eq_some_iff.1 h).1 ▸ h, .refl node⟩

theorem concat (nodes : List Node) (h : node.Grows node') :
    Sequence.Grows (nodes ++ [node]) (nodes ++ [node']) := fun i other hother => by
  rcases Nat.lt_trichotomy i nodes.length with hi | rfl | hi
  · rw [List.getElem?_append_left hi] at hother ⊢
    exact ⟨other, hother, .refl other⟩
  · rw [List.getElem?_concat_length] at hother ⊢
    obtain rfl := Option.some.inj hother
    exact ⟨node', rfl, h⟩
  · rw [List.getElem?_append_right hi.le] at hother
    have hindex := (List.getElem?_eq_some_iff.1 hother).1
    simp only [List.length_singleton] at hindex
    omega

end Sequence.Grows

/-! ## Levels -/

/-- What a level has read so far, the term included that is being put together. -/
def Level.nodes (l : Level) : List Node :=
  match l.scientific with
  | some s => l.emitted.reverse ++ [s.mantissa.toNode]
  | none => l.flush.emitted.reverse

namespace Level

variable {l l' : Level} {place caret : Nat} {power : List Node}

theorem nodes_eq (h : l.scientific = none) : l.nodes = l.flush.emitted.reverse := by
  rw [nodes, h]

theorem nodes_touched (hs : l.scientific = none) (h : l.draft.touched = true) :
    l.nodes = l.emitted.reverse ++ [.group l.draft.letter l.draft.number l.draft.power] := by
  rw [nodes_eq hs, flush, Draft.group?, if_pos h]
  simp [Group.toNode]

theorem nodes_untouched (hs : l.scientific = none) (h : l.draft.touched = false) :
    l.nodes = l.emitted.reverse := by
  simp [nodes_eq hs, flush, Draft.group?, h]

theorem nodes_flush (hs : l.scientific = none) : l.flush.nodes = l.nodes := by
  rw [nodes_untouched (l := l.flush) hs rfl, nodes_eq hs]

theorem nodes_leaveFraction : l.leaveFraction.nodes = l.nodes := by
  obtain ⟨emitted, draft, last, scientific⟩ := l
  cases scientific <;> rfl

theorem nodes_beforeParen (hs : l.scientific = none) : l.beforeParen.1.nodes = l.nodes := by
  unfold beforeParen
  split
  · exact nodes_flush hs
  · rename_i htouched
    have htouched : l.draft.touched = false := by simpa using htouched
    rw [nodes_untouched hs htouched]
    exact nodes_untouched hs htouched

theorem nodes_readScientific (hs : l.scientific = none) (hl : l.readScientific place = .ok l') :
    l'.nodes = l.nodes := by
  obtain ⟨mantissa, hmantissa, rfl⟩ := readScientific_eq_ok hl
  rw [nodes_eq hs, flush, hmantissa]
  simp [nodes]

theorem IsSound.nodes_readMinus (h : l.IsSound) (hs : l.scientific = none) :
    l.readMinus.nodes = l.nodes := by
  rw [h.readMinus hs, nodes_eq hs]
  exact nodes_untouched rfl rfl

theorem nodes_addParen (body : List Node) (negative : Bool) (hs : l.scientific = none)
    (hdraft : l.draft = Draft.blank) :
    (l.addParen body negative).nodes = l.nodes ++ [.paren body [] negative] := by
  rw [nodes_untouched hs (by rw [hdraft]; rfl)]
  refine (nodes_untouched (l := l.addParen body negative) hs (by simp [addParen, emit, hdraft,
    Draft.blank])).trans ?_
  simp [addParen, emit]

theorem grows_emit (node : Node) (last : LastRead) (hs : l.scientific = none) :
    Sequence.Grows l.nodes { l.flush.emit node with last }.nodes := by
  rw [nodes_eq hs, nodes_untouched (l := { l.flush.emit node with last }) hs rfl]
  simpa [emit] using Sequence.Grows.append l.flush.emitted.reverse [node]

/-- The term that is being put together grows, or begins. -/
theorem grows_draft {draft : Draft} (last : LastRead) (hs : l.scientific = none)
    (htouched : draft.touched = true)
    (hgrows : l.draft.touched = true →
      Node.Grows (.group l.draft.letter l.draft.number l.draft.power)
        (.group draft.letter draft.number draft.power)) :
    Sequence.Grows l.nodes { l with draft, last }.nodes := by
  rw [nodes_touched (l := { l with draft, last }) hs htouched]
  cases hbefore : l.draft.touched with
  | true =>
    rw [nodes_touched hs hbefore]
    exact .concat _ (hgrows hbefore)
  | false =>
    rw [nodes_untouched hs hbefore]
    exact .append _ _

theorem grows_readDigit {value : Nat} (hs : l.scientific = none)
    (hl : l.readDigit place value = .ok l') : Sequence.Grows l.nodes l'.nodes := by
  have hadd (d : Draft) (hpower : d.power = []) :
      Node.Grows (.group d.letter d.number d.power)
        (.group (d.addDigit value).letter (d.addDigit value).number (d.addDigit value).power) := by
    rw [hpower]
    unfold Draft.addDigit
    split <;> exact .group _ rfl
  obtain ⟨-, ⟨hpower, rfl⟩ | ⟨-, rfl⟩⟩ := readDigit_cases hl
  · exact grows_draft .term hs (touched_addDigit _ _) fun _ => hadd _ hpower
  · rw [← nodes_flush hs]
    exact grows_draft (l := l.flush) .term hs (touched_addDigit _ _) nofun

theorem grows_readPoint (hs : l.scientific = none) (hl : l.readPoint place = .ok l') :
    Sequence.Grows l.nodes l'.nodes := by
  obtain ⟨-, rfl⟩ := readPoint_eq_ok hl
  exact grows_draft .term hs rfl fun _ => .refl _

theorem grows_readLetter {name : Char} (hs : l.scientific = none)
    (hl : l.readLetter place name = .ok l') : Sequence.Grows l.nodes l'.nodes := by
  have hset (d : Draft) (hpower : d.power = []) :
      Node.Grows (.group d.letter d.number d.power)
        (.group (d.setLetter name).letter (d.setLetter name).number (d.setLetter name).power) := by
    rw [hpower]
    unfold Draft.setLetter
    split <;> exact .group _ rfl
  obtain ⟨-, ⟨-, hpower, rfl⟩ | ⟨-, rfl⟩⟩ := readLetter_cases hl
  · exact grows_draft .letter hs (touched_setLetter _ _) fun _ => hset _ hpower
  · exact (grows_emit _ _ hs).trans (grows_draft (l := l.flush.emit (.operator .multiply)) .letter
      hs (touched_setLetter _ _) nofun)

/-- An exponent is given to the latest node. -/
theorem nodes_raise (hs : l.scientific = none) (hl : l.raise caret power = .ok l') :
    ∃ before node node', l.nodes = before ++ [node] ∧ l'.nodes = before ++ [node'] ∧
      node.Grows node' ∧ node'.HasPower power ∧ power ≠ [] := by
  obtain ⟨hpower, ⟨htouched, hfree, rfl⟩ | ⟨htouched, -, -, before, hraised⟩⟩ := raise_cases hl
  · have hraised := nodes_touched
      (l := { l with draft := { l.draft with power }, last := .term }) hs htouched
    refine ⟨_, _, _, nodes_touched hs htouched, hraised, ?_, .group _ _, hpower⟩
    rw [hfree]
    exact .group power rfl
  · rw [nodes_untouched hs htouched]
    rcases hraised with ⟨v, n, hemitted, rfl⟩ | ⟨body, negative, hemitted, rfl⟩
    · refine ⟨before.reverse, _, _, by rw [hemitted, List.reverse_cons],
        (nodes_untouched (l := ⟨_ :: before, _, _, _⟩) hs htouched).trans List.reverse_cons,
        .group power rfl, .group v n, hpower⟩
    · refine ⟨before.reverse, _, _, by rw [hemitted, List.reverse_cons],
        (nodes_untouched (l := ⟨_ :: before, _, _, _⟩) hs htouched).trans List.reverse_cons,
        .paren body power negative, .paren body negative, hpower⟩

theorem grows_raise (hs : l.scientific = none) (hl : l.raise caret power = .ok l') :
    Sequence.Grows l.nodes l'.nodes := by
  obtain ⟨before, node, node', hnodes, hnodes', hgrows, -⟩ := nodes_raise hs hl
  rw [hnodes, hnodes']
  exact .concat before hgrows

theorem IsSound.grows_finishScientific (h : l.IsSound) (hl : l.finishScientific = .ok l') :
    l'.scientific = none ∧ Sequence.Grows l.nodes l'.nodes := by
  rcases finishScientific_cases hl with ⟨hs, rfl⟩ | ⟨s, hs, -, rfl⟩
  · exact ⟨hs, .refl _⟩
  · refine ⟨rfl, ?_⟩
    have hdraft : l.draft.touched = false := by rw [(h.scientific (by simp [hs])).1]; rfl
    rw [nodes_untouched (l := ⟨_, l.draft, _, none⟩) rfl hdraft, nodes, hs, List.reverse_cons]
    exact .concat _ (.scientific s)

theorem IsSound.grows_finish {nodes : List Node} (h : l.IsSound) (hl : l.finish = .ok nodes) :
    Sequence.Grows l.nodes nodes := by
  obtain ⟨finished, hfinished, hl⟩ := Except.bind_eq_ok.1 hl
  obtain rfl := Except.pure_eq_ok.1 hl
  obtain ⟨hs, hgrows⟩ := h.grows_finishScientific hfinished
  rwa [nodes_eq hs] at hgrows

end Level

/-! ## The reader -/

/-- The nodes of a whole text hold what a level has read so far, and the levels around it that
wait. -/
def Reader.CompletedBy (nodes : List Node) : Level → List Frame → Prop
  | level, [] => Sequence.Grows level.nodes nodes
  | level, ⟨.bracket _ negative, outer⟩ :: frames =>
    ∃ body, Sequence.Grows level.nodes body ∧
      CompletedBy nodes (outer.addParen body negative) frames
  | level, ⟨.bracketExponent caret, outer⟩ :: frames
  | level, ⟨.exponent caret _, outer⟩ :: frames =>
    ∃ power raised, Sequence.Grows level.nodes power ∧ outer.raise caret power = .ok raised ∧
      CompletedBy nodes raised frames

namespace Reader

variable {relations : Bool} {place : Nat} {level level' : Level} {frames : List Frame}
  {cls : CharClass} {r r' : Reader} {nodes : List Node}

theorem CompletedBy.of_grows (h : CompletedBy nodes level' frames)
    (hgrows : Sequence.Grows level.nodes level'.nodes) : CompletedBy nodes level frames := by
  rcases frames with _ | ⟨⟨_ | _ | _, outer⟩, rest⟩
  case nil => exact hgrows.trans h
  case cons.bracket =>
    obtain ⟨body, hbody, h⟩ := h
    exact ⟨body, hgrows.trans hbody, h⟩
  all_goals
    obtain ⟨power, raised, hpower, h⟩ := h
    exact ⟨power, raised, hgrows.trans hpower, h⟩

theorem completedBy_continued (progress : Progress) :
    CompletedBy nodes level (continued progress frames) ↔ CompletedBy nodes level frames := by
  rcases frames with _ | ⟨⟨_ | _ | _, outer⟩, rest⟩ <;> rfl

theorem completedBy_of_closeExponents (hlevel : level.IsSound)
    (hframes : ∀ frame ∈ frames, frame.IsSound) (hr : closeExponents level frames = .ok r)
    (h : CompletedBy nodes r.level r.frames) : CompletedBy nodes level frames := by
  replace hr := ExponentsClosed.of_closeExponents hr
  induction hr with
  | settled => exact h
  | @exponent _ _ raised _ _ power _ _ hpower hraised _ ih =>
    rw [List.forall_mem_cons] at hframes
    have hsound := Level.isSound_raise hframes.1.outer hframes.1.scientific hraised
    exact ⟨power, raised, hlevel.grows_finish hpower, hraised, ih hsound.1 hframes.2 h⟩

theorem completedBy_of_closeBracket (hlevel : level.IsSound)
    (hr : closeBracket place level frames = .ok r) (h : CompletedBy nodes r.level r.frames) :
    CompletedBy nodes level frames := by
  rcases closeBracket_cases hr with ⟨opened, negative, outer, rest, body, rfl, hbody, -, rfl⟩ |
    ⟨caret, outer, rest, power, raised, rfl, hpower, hraised, rfl⟩
  all_goals rw [completeExponent_eq] at h
  · exact ⟨body, hlevel.grows_finish hbody, (completedBy_continued _).1 h⟩
  · exact ⟨power, raised, hlevel.grows_finish hpower, hraised, (completedBy_continued _).1 h⟩

theorem completedBy_of_readPlain (hlevel : level.IsSound) (hs : level.scientific = none)
    (hr : readPlain relations place level frames cls = .ok r)
    (h : CompletedBy nodes r.level r.frames) : CompletedBy nodes level frames := by
  have hleft : level.leaveFraction.scientific = none := hs
  cases PlainRead.of_readPlain hr with
  | digit hread => exact h.of_grows (Level.grows_readDigit hs hread)
  | point hread => exact h.of_grows (Level.grows_readPoint hs hread)
  | letter hread =>
    exact h.of_grows (Level.nodes_leaveFraction ▸ Level.grows_readLetter hleft hread)
  | scientific hread => exact h.of_grows (Level.nodes_readScientific hs hread ▸ .refl _)
  | blank => exact h.of_grows (Level.nodes_leaveFraction ▸ .refl _)
  | minus =>
    refine h.of_grows ?_
    rw [hlevel.leaveFraction.nodes_readMinus hleft, Level.nodes_leaveFraction]
    exact .refl _
  | operator | relation => exact h.of_grows (Level.grows_emit _ _ hs)
  | opening =>
    obtain ⟨body, -, h⟩ := h
    have h : CompletedBy nodes (level.leaveFraction.beforeParen.1.addParen body
      level.leaveFraction.beforeParen.2) frames := h
    refine h.of_grows ?_
    rw [Level.nodes_addParen _ _ (Level.scientific_beforeParen.trans hleft)
      hlevel.leaveFraction.beforeParen, Level.nodes_beforeParen hleft, Level.nodes_leaveFraction]
    exact .append _ _
  | closing hclosed => exact completedBy_of_closeBracket hlevel hclosed h
  | caret =>
    obtain ⟨power, raised, -, hraised, h⟩ := h
    exact h.of_grows (Level.nodes_leaveFraction ▸ Level.grows_raise hleft hraised)

theorem completedBy_of_readAtLevel (hlevel : level.IsSound)
    (hr : readAtLevel relations place level frames cls = .ok r)
    (h : CompletedBy nodes r.level r.frames) : CompletedBy nodes level frames := by
  rcases readAtLevel_cases hr with ⟨s, s', hs, hread, rfl⟩ | ⟨finished, hfinished, hs, hr⟩
  · refine h.of_grows ?_
    simp only [Level.nodes, hs, mantissa_of_read? hread]
    exact .refl _
  · have hplain := completedBy_of_readPlain (hlevel.finishScientific hfinished) hs hr h
    exact hplain.of_grows (hlevel.grows_finishScientific hfinished).2

theorem completedBy_of_step (hsound : r.IsSound) (hr : r.step relations place cls = .ok r')
    (h : CompletedBy nodes r'.level r'.frames) : CompletedBy nodes r.level r.frames := by
  rcases step_cases hr with ⟨caret, outer, frames, hframes, -, rfl⟩ |
    ⟨caret, progress, next, outer, frames, hframes, -, -, hr⟩ | ⟨closed, hclosed, hr⟩
  · rw [hframes]
    exact h
  · rw [hframes]
    exact (completedBy_continued next).1 (completedBy_of_readAtLevel hsound.level hr h)
  · have hinner := isSound_closeExponents hsound.level hsound.frames hclosed
    exact completedBy_of_closeExponents hsound.level hsound.frames hclosed
      (completedBy_of_readAtLevel hinner.level hr h)

theorem completedBy_of_finish (hsound : r.IsSound) (h : r.finish = .ok nodes) :
    CompletedBy nodes r.level r.frames := by
  obtain ⟨level, hclosed, h⟩ := finish_eq_ok.1 h
  have hinner := isSound_closeExponents hsound.level hsound.frames hclosed
  exact completedBy_of_closeExponents hsound.level hsound.frames hclosed
    (hinner.level.grows_finish h)

/-- The nodes of a text hold what had been read before its last part. -/
theorem completedBy_of_readFrom {text : List Char} (hsound : r.IsSound)
    (hr : r.readFrom relations place text = .ok r') (h : r'.finish = .ok nodes) :
    CompletedBy nodes r.level r.frames := by
  induction text generalizing place r with
  | nil =>
    obtain rfl := Except.ok.inj hr
    exact completedBy_of_finish hsound h
  | cons c rest ih =>
    obtain ⟨next, hnext, hr⟩ := Except.bind_eq_ok.1 hr
    exact completedBy_of_step hsound hnext (ih (hsound.step hnext) hr)

end Reader

/-! ## Places -/

/-- The two sequences inside of a term. -/
inductive Part where
  | body
  | power
  deriving DecidableEq, Repr

/-- Where a node stands: the index of the node, and the way to its sequence from the outermost one
on, with the index of each node around it and the part of that node. -/
structure Place where
  way : List (Nat × Part)
  index : Nat
  deriving DecidableEq, Repr

/-- At the end of a way stands a node with a property. -/
def Sequence.HasAtEnd (property : Node → Prop) (index : Nat) :
    List (Nat × Part) → List Node → Prop
  | [], nodes => ∃ node, nodes[index]? = some node ∧ property node
  | (i, .body) :: way, nodes => ∃ node body negative, nodes[i]? = some node ∧
      node.HasBody body negative ∧ HasAtEnd property index way body
  | (i, .power) :: way, nodes => ∃ node power, nodes[i]? = some node ∧
      node.HasPower power ∧ HasAtEnd property index way power

/-- At a place stands a node with a property. -/
def Sequence.HasAt (property : Node → Prop) (place : Place) (nodes : List Node) : Prop :=
  Sequence.HasAtEnd property place.index place.way nodes

/-- The way to what is read next, if the way inside of its level is `way`. -/
def Reader.wayThrough : List Frame → List (Nat × Part) → List (Nat × Part)
  | [], way => way
  | ⟨.bracket _ _, outer⟩ :: frames, way => wayThrough frames ((outer.nodes.length, .body) :: way)
  | ⟨.bracketExponent _, outer⟩ :: frames, way
  | ⟨.exponent _ _, outer⟩ :: frames, way =>
    wayThrough frames ((outer.nodes.length - 1, .power) :: way)

variable {property : Node → Prop} {index : Nat}

/-- An exponent is that of the last node of the level around it. -/
theorem Sequence.hasAtEnd_raise {outer raised : Level} {caret : Nat} {power grown : List Node}
    {way : List (Nat × Part)} (hs : outer.scientific = none)
    (hraised : outer.raise caret power = .ok raised)
    (hpower : Sequence.HasAtEnd property index way power)
    (hgrown : Sequence.Grows raised.nodes grown) :
    Sequence.HasAtEnd property index ((outer.nodes.length - 1, .power) :: way) grown := by
  obtain ⟨before, node, node', hnodes, hnodes', -, hhas, hne⟩ := Level.nodes_raise hs hraised
  obtain ⟨last, hlast, hgrows⟩ := hgrown before.length node' (by rw [hnodes']; simp)
  refine ⟨last, power, ?_, hgrows.power power hne hhas, hpower⟩
  rw [hnodes]
  simpa using hlast

namespace Reader

variable {level : Level} {frames : List Frame} {nodes : List Node}

theorem CompletedBy.hasAtEnd (h : CompletedBy nodes level frames)
    (hframes : ∀ frame ∈ frames, frame.IsSound) (way : List (Nat × Part))
    (hlevel : ∀ grown, Sequence.Grows level.nodes grown →
      Sequence.HasAtEnd property index way grown) :
    Sequence.HasAtEnd property index (wayThrough frames way) nodes := by
  induction frames generalizing level way with
  | nil => exact hlevel nodes h
  | cons frame rest ih =>
    obtain ⟨opening, outer⟩ := frame
    rw [List.forall_mem_cons] at hframes
    cases opening with
    | bracket opened negative =>
      obtain ⟨body, hbody, h⟩ := h
      refine ih h hframes.2 _ fun grown hgrown => ?_
      have hparen : (outer.addParen body negative).nodes[outer.nodes.length]? =
          some (.paren body [] negative) := by
        rw [Level.nodes_addParen body negative hframes.1.scientific
          (hframes.1.bracket opened negative rfl), List.getElem?_concat_length]
      obtain ⟨node, hnode, hgrows⟩ := hgrown _ _ hparen
      exact ⟨node, body, negative, hnode, hgrows.body body negative (.paren []), hlevel body hbody⟩
    | bracketExponent caret | exponent caret progress =>
      obtain ⟨power, raised, hgrows, hraised, h⟩ := h
      exact ih h hframes.2 _ fun _ =>
        Sequence.hasAtEnd_raise hframes.1.scientific hraised (hlevel power hgrows)

/-- What stands at an index of the innermost level is found at a place that the levels around it
say. -/
theorem CompletedBy.hasAt {node : Node} (h : CompletedBy nodes level frames)
    (hframes : ∀ frame ∈ frames, frame.IsSound) (hnode : level.nodes[index]? = some node)
    (hproperty : ∀ node', node.Grows node' → property node') :
    Sequence.HasAt property ⟨wayThrough frames [], index⟩ nodes :=
  h.hasAtEnd hframes [] fun grown hgrown => by
    obtain ⟨node', hnode', hgrows⟩ := hgrown index node hnode
    exact ⟨node', hnode', hproperty node' hgrows⟩

end Reader

end OneUnknown
