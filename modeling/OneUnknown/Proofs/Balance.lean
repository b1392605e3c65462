import Mathlib.Data.List.Induction
import OneUnknown.Text.Brackets
/-!
# Balanced brackets

What the check of the brackets decides, said without a stack: a text is balanced if it consists of
characters that are no brackets and of balanced texts in brackets of one kind.

* `Balanced`, `LeavesOpen`: a text that is closed, and one with the brackets that it leaves open;
* `Balanced.partner_unique`: a bracket is closed at one place;
* `leavesOpen_or_stray`: in every text that does not leave brackets open, or none, there is a first
  bracket that closes none;
* `checkBracketsFrom_of_leavesOpen`: the check knows what is open;
* `checkBrackets_eq_ok`, `checkBrackets_eq_closing`, `checkBrackets_eq_opening`: its three outcomes.
-/

namespace OneUnknown

/-- A character that neither opens nor closes a bracket. -/
structure IsNoBracket (c : Char) : Prop where
  opens : closingBracket? c = none
  closes : isClosingBracket c = false

/-- The brackets of a text are properly nested, and each is closed by its own kind. -/
inductive Balanced : List Char → Prop where
  | nil : Balanced []
  | cons {c : Char} {rest : List Char} (hc : IsNoBracket c) (hrest : Balanced rest) :
      Balanced (c :: rest)
  | pair {opening closing : Char} {inner rest : List Char}
      (hpair : closingBracket? opening = some closing) (hinner : Balanced inner)
      (hrest : Balanced rest) : Balanced (opening :: (inner ++ closing :: rest))

/-- The brackets of a text are properly nested so far.  Those that it leaves open are listed from the
innermost on, each with its place and the character that closes it. -/
inductive LeavesOpen : List Char → List (Nat × Char) → Prop where
  | balanced {text : List Char} (h : Balanced text) : LeavesOpen text []
  | opened {before inner : List Char} {outer : List (Nat × Char)} {opening closing : Char}
      (hbefore : LeavesOpen before outer) (hpair : closingBracket? opening = some closing)
      (hinner : Balanced inner) :
      LeavesOpen (before ++ opening :: inner) ((before.length, closing) :: outer)

/-! ## Characters -/

section

variable {c opening closing : Char}

theorem isClosingBracket_of_closes (h : closingBracket? opening = some closing) :
    isClosingBracket closing = true := by
  unfold closingBracket? at h
  split at h <;> cases h <;> rfl

theorem closingBracket?_of_isClosing (h : isClosingBracket c = true) : closingBracket? c = none := by
  simp only [isClosingBracket, Bool.or_eq_true, decide_eq_true_eq] at h
  rcases h with (rfl | rfl) | rfl <;> rfl

/-- Every character opens a bracket, closes one, or does neither. -/
theorem bracket_cases (c : Char) : (∃ closing, closingBracket? c = some closing) ∨
    isClosingBracket c = true ∨ IsNoBracket c := by
  cases hopens : closingBracket? c with
  | some closing => exact .inl ⟨closing, rfl⟩
  | none =>
    cases hcloses : isClosingBracket c with
    | true => exact .inr (.inl rfl)
    | false => exact .inr (.inr ⟨hopens, hcloses⟩)

end

/-! ## Balanced texts -/

namespace Balanced

variable {c c' opening closing : Char} {text text' inner inner' rest rest' : List Char}

theorem append (h : Balanced text) (h' : Balanced text') : Balanced (text ++ text') := by
  induction h with
  | nil => exact h'
  | cons hc _ ih => exact .cons hc ih
  | pair hpair hinner _ _ ih =>
    rw [List.cons_append, List.append_assoc, List.cons_append]
    exact .pair hpair hinner ih

theorem singleton (hc : IsNoBracket c) : Balanced [c] := .cons hc .nil

/-- A balanced text does not begin with a bracket that closes. -/
theorem not_cons_closing (hc : isClosingBracket c = true) : ¬ Balanced (c :: rest) := by
  intro h
  cases h with
  | cons hnone => exact absurd hc (by simp [hnone.closes])
  | pair hpair => exact absurd (closingBracket?_of_isClosing hc) (by simp [hpair])

theorem of_cons (hc : IsNoBracket c) (h : Balanced (c :: rest)) : Balanced rest := by
  cases h with
  | cons _ hrest => exact hrest
  | pair hpair => exact absurd hc.opens (by simp [hpair])

/-- An opening bracket is closed behind a balanced text. -/
theorem exists_partner (hpair : closingBracket? opening = some closing)
    (h : Balanced (opening :: rest)) :
    ∃ inner after, rest = inner ++ closing :: after ∧ Balanced inner ∧ Balanced after := by
  generalize htext : opening :: rest = text at h
  cases h with
  | nil => cases htext
  | cons hnone _ =>
    obtain ⟨rfl, rfl⟩ := List.cons.inj htext
    exact absurd hnone.opens (by simp [hpair])
  | pair hpair' hinner hrest =>
    obtain ⟨rfl, rfl⟩ := List.cons.inj htext
    obtain rfl := Option.some.inj (hpair.symm.trans hpair')
    exact ⟨_, _, rfl, hinner, hrest⟩

/-- The first bracket that closes none of a text stands at one place. -/
theorem partner_unique (h : Balanced inner) (h' : Balanced inner')
    (hc : isClosingBracket c = true) (hc' : isClosingBracket c' = true)
    (heq : inner ++ c :: rest = inner' ++ c' :: rest') :
    inner = inner' ∧ c = c' ∧ rest = rest' := by
  induction h generalizing inner' rest rest' c c' with
  | nil =>
    cases inner' with
    | nil => exact ⟨rfl, List.cons.inj heq⟩
    | cons first tail =>
      obtain ⟨rfl, -⟩ := List.cons.inj heq
      exact absurd h' (not_cons_closing hc)
  | @cons first tail hfirst _ ih =>
    cases inner' with
    | nil =>
      obtain ⟨rfl, -⟩ := List.cons.inj heq
      exact absurd hfirst.closes (by simp [hc'])
    | cons first' tail' =>
      obtain ⟨rfl, htail⟩ := List.cons.inj heq
      obtain ⟨rfl, hrest⟩ := ih (h'.of_cons hfirst) hc hc' htail
      exact ⟨rfl, hrest⟩
  | @pair opening closing inside tail hpair _ _ ihinside ihtail =>
    cases inner' with
    | nil =>
      obtain ⟨rfl, -⟩ := List.cons.inj heq
      exact absurd (closingBracket?_of_isClosing hc') (by simp [hpair])
    | cons first' tail' =>
      simp only [List.cons_append, List.append_assoc, List.cons.injEq] at heq
      obtain ⟨rfl, htail⟩ := heq
      obtain ⟨inside', after', rfl, hinside', hafter'⟩ := h'.exists_partner hpair
      have hcloses := isClosingBracket_of_closes hpair
      simp only [List.append_assoc, List.cons_append] at htail
      obtain ⟨rfl, -, hafter⟩ := ihinside hinside' hcloses hcloses htail
      obtain ⟨rfl, hrest⟩ := ihtail hafter' hc hc' hafter
      exact ⟨rfl, hrest⟩

end Balanced

/-! ## Open brackets -/

namespace LeavesOpen

variable {c closing : Char} {text text' : List Char} {pending : List (Nat × Char)} {place : Nat}

theorem append (h : LeavesOpen text pending) (h' : Balanced text') :
    LeavesOpen (text ++ text') pending := by
  cases h with
  | balanced h => exact .balanced (h.append h')
  | opened hbefore hpair hinner =>
    rw [List.append_assoc, List.cons_append]
    exact .opened hbefore hpair (hinner.append h')

/-- Behind the bracket that closes the innermost open one. -/
theorem close (h : LeavesOpen text ((place, closing) :: pending)) :
    LeavesOpen (text ++ [closing]) pending := by
  cases h with
  | opened hbefore hpair hinner =>
    rw [List.append_assoc, List.cons_append]
    exact hbefore.append (.pair hpair hinner .nil)

theorem balanced_of_nil (h : LeavesOpen text []) : Balanced text := by
  cases h with
  | balanced h => exact h

end LeavesOpen

/-- A bracket that closes, but not the innermost one of those that are open. -/
structure IsStray (c : Char) (pending : List (Nat × Char)) : Prop where
  closes : isClosingBracket c = true
  mismatch : ∀ innermost ∈ pending.head?, innermost.2 ≠ c

theorem eq_or_isStray {c : Char} (hc : isClosingBracket c = true) (pending : List (Nat × Char)) :
    (∃ place outer, pending = (place, c) :: outer) ∨ IsStray c pending := by
  rcases pending with _ | ⟨⟨place, expected⟩, outer⟩
  · exact .inr ⟨hc, by simp⟩
  · by_cases hmatch : expected = c
    · exact .inl ⟨place, outer, by rw [hmatch]⟩
    · exact .inr ⟨hc, by simpa using hmatch⟩

/-- A text leaves some brackets open, or none, unless there is one in it that closes none. -/
theorem leavesOpen_or_stray (text : List Char) :
    (∃ pending, LeavesOpen text pending) ∨
      ∃ before c after pending, text = before ++ c :: after ∧ LeavesOpen before pending ∧
        IsStray c pending := by
  induction text using List.reverseRecOn with
  | nil => exact .inl ⟨[], .balanced .nil⟩
  | append_singleton text c ih =>
    rcases ih with ⟨pending, hopen⟩ | ⟨before, stray, after, pending, rfl, hbefore, hstray⟩
    · rcases bracket_cases c with ⟨closing, hpair⟩ | hcloses | hnone
      · exact .inl ⟨_, .opened hopen hpair .nil⟩
      · rcases eq_or_isStray hcloses pending with ⟨place, outer, rfl⟩ | hstray
        · exact .inl ⟨outer, hopen.close⟩
        · exact .inr ⟨text, c, [], pending, rfl, hopen, hstray⟩
      · exact .inl ⟨pending, hopen.append (.singleton hnone)⟩
    · exact .inr ⟨before, stray, after ++ [c], pending, by simp, hbefore, hstray⟩

/-! ## The check -/

section

variable {place : Nat} {pending : List (Nat × Char)} {text before rest : List Char}

theorem checkBracketsFrom_noBracket {c : Char} (hc : IsNoBracket c) :
    checkBracketsFrom place pending (c :: rest) = checkBracketsFrom (place + 1) pending rest := by
  simp [checkBracketsFrom, hc.opens, hc.closes]

theorem checkBracketsFrom_opening {opening closing : Char}
    (hpair : closingBracket? opening = some closing) :
    checkBracketsFrom place pending (opening :: rest) =
      checkBracketsFrom (place + 1) ((place, closing) :: pending) rest := by
  simp [checkBracketsFrom, hpair]

theorem checkBracketsFrom_closing {opened : Nat} {c : Char} (hc : isClosingBracket c = true) :
    checkBracketsFrom place ((opened, c) :: pending) (c :: rest) =
      checkBracketsFrom (place + 1) pending rest := by
  simp [checkBracketsFrom, closingBracket?_of_isClosing hc, hc]

theorem checkBracketsFrom_stray {c : Char} (h : IsStray c pending) :
    checkBracketsFrom place pending (c :: rest) = .error (.unmatchedBracket place true) := by
  rcases pending with _ | ⟨⟨opened, expected⟩, outer⟩
  · simp [checkBracketsFrom, closingBracket?_of_isClosing h.closes, h.closes]
  · have hne : c ≠ expected := (h.mismatch _ rfl).symm
    simp [checkBracketsFrom, closingBracket?_of_isClosing h.closes, h.closes, hne]

/-- A balanced text is passed over. -/
theorem checkBracketsFrom_balanced (h : Balanced text) :
    checkBracketsFrom place pending (text ++ rest) =
      checkBracketsFrom (place + text.length) pending rest := by
  induction h generalizing place pending rest with
  | nil => rfl
  | cons hc _ ih =>
    rw [List.cons_append, checkBracketsFrom_noBracket hc, ih, List.length_cons]
    congr 1
    omega
  | pair hpair _ _ ihinner ihrest =>
    rw [List.cons_append, List.append_assoc, List.cons_append, checkBracketsFrom_opening hpair,
      ihinner, checkBracketsFrom_closing (isClosingBracket_of_closes hpair), ihrest]
    simp only [List.length_cons, List.length_append]
    congr 1
    omega

/-- Behind the beginning of a text the check holds the brackets that this leaves open. -/
theorem checkBracketsFrom_of_leavesOpen (h : LeavesOpen before pending) :
    checkBrackets (before ++ rest) = checkBracketsFrom before.length pending rest := by
  induction h generalizing rest with
  | balanced h => rw [checkBrackets, checkBracketsFrom_balanced h, Nat.zero_add]
  | opened _ hpair hinner ih =>
    rw [List.append_assoc, ih, List.cons_append, checkBracketsFrom_opening hpair,
      checkBracketsFrom_balanced hinner, List.length_append, List.length_cons]
    congr 1
    omega

theorem checkBrackets_of_leavesOpen (h : LeavesOpen text pending) :
    checkBrackets text = match pending.getLast? with
      | some (opened, _) => .error (.unmatchedBracket opened false)
      | none => .ok () := by
  have hcheck : checkBrackets (text ++ []) = checkBracketsFrom text.length pending [] :=
    checkBracketsFrom_of_leavesOpen h
  rw [List.append_nil] at hcheck
  refine hcheck.trans ?_
  cases hlast : pending.getLast? <;> simp [checkBracketsFrom, hlast]

theorem checkBrackets_of_stray {c : Char} (h : LeavesOpen before pending) (hc : IsStray c pending) :
    checkBrackets (before ++ c :: rest) = .error (.unmatchedBracket before.length true) := by
  rw [checkBracketsFrom_of_leavesOpen h, checkBracketsFrom_stray hc]

/-- The check finds nothing exactly where the brackets are balanced. -/
theorem checkBrackets_eq_ok : checkBrackets text = .ok () ↔ Balanced text := by
  constructor
  · intro h
    rcases leavesOpen_or_stray text with ⟨pending, hopen⟩ | ⟨before, c, after, pending, rfl, hopen, hc⟩
    · rw [checkBrackets_of_leavesOpen hopen] at h
      cases hlast : pending.getLast? with
      | none =>
        obtain rfl := List.getLast?_eq_none_iff.1 hlast
        exact hopen.balanced_of_nil
      | some leftmost => simp [hlast] at h
    · rw [checkBrackets_of_stray hopen hc] at h
      cases h
  · intro h
    exact checkBrackets_of_leavesOpen (.balanced h)

/-- The first bracket that closes none, the innermost open one being of another kind or there being
none. -/
theorem checkBrackets_eq_closing :
    checkBrackets text = .error (.unmatchedBracket place true) ↔
      ∃ before c after pending, text = before ++ c :: after ∧ before.length = place ∧
        LeavesOpen before pending ∧ IsStray c pending := by
  constructor
  · intro h
    rcases leavesOpen_or_stray text with ⟨pending, hopen⟩ | ⟨before, c, after, pending, rfl, hopen, hc⟩
    · rw [checkBrackets_of_leavesOpen hopen] at h
      split at h <;> cases h
    · rw [checkBrackets_of_stray hopen hc] at h
      obtain rfl : before.length = place := by simpa using h
      exact ⟨before, c, after, pending, rfl, rfl, hopen, hc⟩
  · rintro ⟨before, c, after, pending, rfl, rfl, hopen, hc⟩
    exact checkBrackets_of_stray hopen hc

/-- The leftmost bracket that is never closed, where every bracket that closes closes one. -/
theorem checkBrackets_eq_opening :
    checkBrackets text = .error (.unmatchedBracket place false) ↔
      ∃ pending closing, LeavesOpen text pending ∧ pending.getLast? = some (place, closing) := by
  constructor
  · intro h
    rcases leavesOpen_or_stray text with ⟨pending, hopen⟩ | ⟨before, c, after, pending, rfl, hopen, hc⟩
    · rw [checkBrackets_of_leavesOpen hopen] at h
      split at h
      · rename_i opened closing hlast
        obtain rfl : opened = place := by simpa using h
        exact ⟨pending, closing, hopen, hlast⟩
      · cases h
    · rw [checkBrackets_of_stray hopen hc] at h
      cases h
  · rintro ⟨pending, closing, hopen, hlast⟩
    rw [checkBrackets_of_leavesOpen hopen, hlast]

/-- There is no other reason to refuse the brackets of a text. -/
theorem exists_unmatched_of_not_balanced (h : ¬ Balanced text) :
    ∃ place closing, checkBrackets text = .error (.unmatchedBracket place closing) := by
  rcases leavesOpen_or_stray text with ⟨pending, hopen⟩ | ⟨before, c, after, pending, rfl, hopen, hc⟩
  · cases hlast : pending.getLast? with
    | none =>
      obtain rfl := List.getLast?_eq_none_iff.1 hlast
      exact absurd hopen.balanced_of_nil h
    | some leftmost => exact ⟨_, _, by rw [checkBrackets_of_leavesOpen hopen, hlast]⟩
  · exact ⟨_, _, checkBrackets_of_stray hopen hc⟩

end

instance : DecidablePred Balanced := fun text =>
  decidable_of_iff ((checkBrackets text).isOk = true) (by
    rw [← checkBrackets_eq_ok]
    cases checkBrackets text <;> simp [Except.isOk, Except.toBool])

end OneUnknown
