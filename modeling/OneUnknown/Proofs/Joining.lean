import OneUnknown.Proofs.Following
import OneUnknown.Proofs.Placement
/-!
# Joining two texts by an operator

An operator ends whatever the reader is putting together: the term, the exponents and the
scientific notation before it.  What follows is then read as from the start (`Placement`), so the
nodes of two texts that are joined by `+`, `*` or `/` are those of the texts, with the operator
between them.  A minus sign is none of these: it belongs to the term behind it.

* `oneCharRelations_append_cons`, `checkBrackets_append_cons`: what is done before reading looks at
  both texts alone;
* `Reader.step_operator_of_finish`: an operator, where a text could end;
* `parse_operator`: the result.
-/

namespace OneUnknown

/-! ## Before reading -/

/-- A character that is in no pair keeps what stands before it and behind it apart. -/
theorem replacePair_append_cons {first second replacement c : Char} (hfirst : c ≠ first)
    (hsecond : c ≠ second) (p q : List Char) :
    replacePair first second replacement (p ++ c :: q) =
      replacePair first second replacement p ++ c :: replacePair first second replacement q := by
  fun_induction replacePair first second replacement p with
  | case1 a b rest hpair ih =>
    rw [List.cons_append, List.cons_append, replacePair, if_pos hpair, ih]
    rfl
  | case2 a b rest hpair ih =>
    rw [List.cons_append, List.cons_append, replacePair, if_neg hpair]
    exact congrArg _ ih
  | case3 a =>
    rw [List.singleton_append, replacePair, if_neg fun h => hsecond h.2]
    cases q with
    | nil => rfl
    | cons d q => rw [replacePair, if_neg fun h => hfirst h.1]; rfl
  | case4 =>
    cases q with
    | nil => rfl
    | cons d q => rw [List.nil_append, replacePair, if_neg fun h => hfirst h.1]; rfl

/-- A character that can be one of the two that a relation is written with. -/
def isRelationPart (c : Char) : Bool := c = '=' || c = '!' || c = '<' || c = '>'

theorem oneCharRelations_append_cons (p q : List Char) {c : Char} (hc : isRelationPart c = false) :
    oneCharRelations (p ++ c :: q) = oneCharRelations p ++ c :: oneCharRelations q := by
  simp only [isRelationPart, Bool.or_eq_false_iff, decide_eq_false_iff_not] at hc
  simp only [oneCharRelations, replacePair_append_cons, hc, ne_eq, not_false_eq_true]

/-- Characters that are in no pair keep what stands around them apart. -/
theorem oneCharRelations_append_run (p q : List Char) {run : List Char} (hne : run ≠ [])
    (hrun : ∀ c ∈ run, isRelationPart c = false) :
    oneCharRelations (p ++ (run ++ q)) = oneCharRelations p ++ (run ++ oneCharRelations q) := by
  induction run generalizing p with
  | nil => exact absurd rfl hne
  | cons c rest ih =>
    rw [List.cons_append, oneCharRelations_append_cons p _ (hrun c (.head _))]
    by_cases hrest : rest = []
    · rw [hrest]
      rfl
    · have := ih [] hrest fun d hd => hrun d (.tail _ hd)
      rw [List.nil_append] at this
      rw [this]
      rfl

theorem isRelationPart_symbol (op : Operator) : isRelationPart op.symbol = false := by
  cases op <;> decide

/-- Brackets that match are checked behind others, and at another place, as if they were not
there. -/
theorem checkBracketsFrom_append_of_ok {place place' : Nat} {pending pending' outer : List (Nat × Char)}
    {text rest : List Char} (h : checkBracketsFrom place pending text = .ok ())
    (hsame : pending'.map Prod.snd = pending.map Prod.snd) :
    checkBracketsFrom place' (pending' ++ outer) (text ++ rest) =
      checkBracketsFrom (place' + text.length) outer rest := by
  induction text generalizing place place' pending pending' with
  | nil =>
    obtain rfl : pending = [] := by
      cases hlast : pending.getLast? with
      | none => exact List.getLast?_eq_none_iff.1 hlast
      | some opened => simp [checkBracketsFrom, hlast] at h
    obtain rfl := List.map_eq_nil_iff.1 hsame
    rfl
  | cons c text ih =>
    rw [List.cons_append, List.length_cons, ← Nat.add_assoc, Nat.add_right_comm]
    simp only [checkBracketsFrom] at h ⊢
    cases hclosing : closingBracket? c with
    | some closing =>
      rw [hclosing] at h
      dsimp only
      rw [← List.cons_append]
      exact ih h (by simp [hsame])
    | none =>
      rw [hclosing] at h
      dsimp only at h ⊢
      split at h
      · rename_i hc
        rw [if_pos hc]
        rcases pending with _ | ⟨⟨opened, expected⟩, pending⟩
        · cases h
        · obtain ⟨⟨opened', expected'⟩, pending', rfl, rfl, hsame'⟩ :=
            List.map_eq_cons_iff.1 hsame
          dsimp only at h
          split at h
          · rename_i heq
            rw [List.cons_append]
            exact (if_pos heq).trans (ih h hsame')
          · cases h
      · rename_i hc
        rw [if_neg hc]
        exact ih h hsame

theorem checkBrackets_append_cons {p q : List Char} (op : Operator) (hp : checkBrackets p = .ok ())
    (hq : checkBrackets q = .ok ()) : checkBrackets (p ++ op.symbol :: q) = .ok () := by
  have hopen : closingBracket? op.symbol = none := by cases op <;> decide
  have hclose : isClosingBracket op.symbol = false := by cases op <;> decide
  have hjoined : checkBracketsFrom 0 ([] ++ []) (p ++ op.symbol :: q) =
      checkBracketsFrom (0 + p.length) [] (op.symbol :: q) :=
    checkBracketsFrom_append_of_ok hp rfl
  have hrest : checkBracketsFrom (0 + p.length + 1) ([] ++ []) (q ++ []) =
      checkBracketsFrom (0 + p.length + 1 + q.length) [] [] :=
    checkBracketsFrom_append_of_ok hq rfl
  rw [checkBrackets, ← List.nil_append []]
  rw [hjoined, checkBracketsFrom, hopen, hclose]
  simpa [checkBracketsFrom] using hrest

/-! ## The operator -/

/-- What stands before an operator: whole terms. -/
def Context.behind (length : Nat) (op : Operator) (nodes : List Node) : Context :=
  ⟨length, .operator op :: nodes.reverse, .operator, rfl⟩

namespace Reader

variable {relations : Bool} {place : Nat} {r : Reader}

theorem readAtLevel_operator_of_finish {level : Level} {op : Operator} {nodes : List Node}
    (h : level.finish = .ok nodes) (length : Nat) :
    readAtLevel relations place level [] (.operator op) =
      .ok (start.placed (Context.behind length op nodes)) := by
  obtain ⟨finished, hfinished, h⟩ := Except.bind_eq_ok.1 h
  obtain rfl := Except.pure_eq_ok.1 h
  have hread (hscientific : finished.scientific = none) :
      readPlain relations place finished [] (.operator op) =
        .ok (start.placed (Context.behind length op finished.flush.emitted.reverse)) := by
    simp [readPlain, Level.readOperator, Level.emit, Level.flush, hscientific, placed, start,
      Level.placedWithin, Level.placed, Level.blank, Context.behind, placedFrames]
  rw [readAtLevel]
  rcases Level.finishScientific_cases hfinished with ⟨hnone, rfl⟩ | ⟨s, hs, hdigits, rfl⟩
  · rw [hnone]
    exact hread hnone
  · have hends : s.read? place (.operator op) = .ok none := if_pos hdigits
    rw [hs]
    exact Except.bind_eq_ok.2 ⟨none, hends, Except.bind_eq_ok.2 ⟨_, hfinished, hread rfl⟩⟩

/-- An operator where the text could end leaves nothing but the nodes that were read. -/
theorem step_operator_of_finish {op : Operator} {nodes : List Node} (h : r.finish = .ok nodes)
    (length : Nat) :
    r.step relations place (.operator op) =
      .ok (start.placed (Context.behind length op nodes)) := by
  -- The text could end, so no bracket is open.
  obtain ⟨level, hclosed, h⟩ := finish_eq_ok.1 h
  rw [step_of_endsTerm (by trivial), hclosed]
  exact readAtLevel_operator_of_finish h length

end Reader

/-! ## Texts -/

/-- The nodes of two texts that are joined by an operator are those of the texts, with the operator
between them, whether relations are accepted or not. -/
theorem parseWith_operator {relations : Bool} {p q : List Char} {nodes nodes' : List Node}
    {op : Operator} (hp : parseWith relations p = .ok nodes) (hq : parseWith relations q = .ok nodes')
    (hop : op ≠ .subtract) :
    parseWith relations (p ++ op.symbol :: q) = .ok (nodes ++ .operator op :: nodes') := by
  obtain ⟨⟨⟩, hbrackets, hp⟩ := Except.bind_eq_ok.1 hp
  obtain ⟨⟨⟩, hbrackets', hq⟩ := Except.bind_eq_ok.1 hq
  obtain ⟨r, hr, hfinish⟩ := Except.bind_eq_ok.1 hp
  obtain ⟨r', hr', hfinish'⟩ := Except.bind_eq_ok.1 hq
  have hclass : CharClass.of op.symbol = .operator op := by
    cases op <;> first | rfl | exact absurd rfl hop
  let ctx := Context.behind (0 + (oneCharRelations p).length + 1) op nodes
  have hbehind := Reader.readFrom_placed ctx hr'
  rw [Nat.zero_add] at hbehind
  have hread : Reader.start.readFrom relations 0 (oneCharRelations (p ++ op.symbol :: q)) =
      .ok (r'.placed ctx) := by
    rw [oneCharRelations_append_cons _ _ (isRelationPart_symbol op), Reader.readFrom_append, hr]
    refine Except.bind_eq_ok.2 ⟨r, rfl, Except.bind_eq_ok.2 ⟨Reader.start.placed ctx, ?_, hbehind⟩⟩
    rw [hclass]
    exact Reader.step_operator_of_finish hfinish _
  have hnodes : (r'.placed ctx).finish = .ok (nodes ++ .operator op :: nodes') := by
    rw [Reader.finish_placed ctx hfinish']
    simp [ctx, Context.behind]
  refine Except.bind_eq_ok.2 ⟨(), ?_, Except.bind_eq_ok.2 ⟨_, hread, hnodes⟩⟩
  rw [oneCharRelations_append_cons _ _ (isRelationPart_symbol op)]
  exact checkBrackets_append_cons op hbrackets hbrackets'

/-- The nodes of two texts that are joined by `+`, `*` or `/` are those of the texts, with the
operator between them. -/
theorem parse_operator {p q : List Char} {nodes nodes' : List Node} {op : Operator}
    (hp : parse p = .ok nodes) (hq : parse q = .ok nodes') (hop : op ≠ .subtract) :
    parse (p ++ op.symbol :: q) = .ok (nodes ++ .operator op :: nodes') :=
  parseWith_operator hp hq hop

/-- An exponent and scientific notation end where the operator stands, and what follows it may
begin with a sign and hold a relation. -/
theorem parse_operator_open_exponents :
    parse ("x^2E1".toList) =
        .ok [.group (some 'x') (Number.ofNat 1) [.paren [.group none (Number.ofNat 2) [],
          .operator .multiply,
          .group none (Number.ofNat 10) [.group none (Number.ofNat 1) []]] [] false]] ∧
      parse ("-y<".toList) =
        .ok [.group (some 'y') ((Number.ofNat 1).withSign true) [], .relation .less] ∧
      parse ("x^2E1*-y<".toList) =
        .ok [.group (some 'x') (Number.ofNat 1) [.paren [.group none (Number.ofNat 2) [],
          .operator .multiply,
          .group none (Number.ofNat 10) [.group none (Number.ofNat 1) []]] [] false],
          .operator .multiply, .group (some 'y') ((Number.ofNat 1).withSign true) [],
          .relation .less] := by
  have hp := (by decide +kernel : parse ("x^2E1".toList) =
    .ok [.group (some 'x') (Number.ofNat 1) [.paren [.group none (Number.ofNat 2) [],
      .operator .multiply,
      .group none (Number.ofNat 10) [.group none (Number.ofNat 1) []]] [] false]])
  have hq := (by decide +kernel : parse ("-y<".toList) =
    .ok [.group (some 'y') ((Number.ofNat 1).withSign true) [], .relation .less])
  exact ⟨hp, hq, @parse_operator _ _ _ _ .multiply hp hq (by decide)⟩

end OneUnknown
