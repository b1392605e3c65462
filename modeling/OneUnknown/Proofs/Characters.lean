import OneUnknown.Text.Brackets
import OneUnknown.Text.Character
import OneUnknown.Text.Printer
import Mathlib.Data.List.Chain
import Mathlib.Tactic.Basic
/-!
# Classes of characters and matching brackets

What a character of a text means to the reader, and which texts get as far as the reader without a
change: no two characters of them are one relation, and their brackets match.

* `CharClass.of_letter`, `CharClass.of_digit`: the classes of letters and digits;
* `CharClass.of_eq_letter`, `CharClass.of_ne_subtract`: classes that no character has;
* `IsTidyText`: texts put together from single characters, relations and parentheses;
* `IsTidyText.oneCharRelations_eq`, `IsTidyText.checkBrackets_eq`: such a text is read as it is.
-/

namespace OneUnknown

/-! ## Classes of characters -/

/-- The code points that mean something else than a variable, as ranges. -/
def otherRanges : List (Nat × Nat) :=
  [(0, 0x40), (0x5B, 0x5B), (0x5D, 0x5E), (0x7B, 0x7B), (0x7D, 0x7D), (0x85, 0x85), (0xA0, 0xA0),
   (0x1680, 0x1680), (0x2000, 0x200A), (0x2028, 0x2029), (0x202F, 0x202F), (0x205F, 0x205F),
   (0x2260, 0x2260), (0x2264, 0x2265), (0x3000, 0x3000)]

/-- Whether a character is a digit, a blank or a symbol. -/
def meansOther (c : Char) : Bool :=
  otherRanges.any fun (first, last) => first ≤ c.toNat && c.toNat ≤ last

theorem alphabeticRanges_disjoint : (alphabeticRanges.all fun (first, last) =>
    otherRanges.all fun (first', last') => last < first' || last' < first) = true := by
  decide +kernel

theorem meansOther_of_isAlphabetic {c : Char} (h : isAlphabetic c = true) :
    meansOther c = false := by
  refine Bool.eq_false_iff.2 fun hother => ?_
  obtain ⟨⟨first, last⟩, hrange, hc⟩ := List.any_eq_true.1 h
  obtain ⟨⟨first', last'⟩, hrange', hc'⟩ := List.any_eq_true.1 hother
  have hdisjoint :=
    List.all_eq_true.1 (List.all_eq_true.1 alphabeticRanges_disjoint _ hrange) _ hrange'
  simp only [Bool.and_eq_true, Bool.or_eq_true, decide_eq_true_eq] at hc hc' hdisjoint
  omega

theorem meansOther_of_isDigit {c : Char} (h : c.isDigit = true) : meansOther c = true := by
  obtain ⟨-, hle⟩ := Char.isDigit_iff_toNat.1 h
  refine List.any_eq_true.2 ⟨(0, 0x40), .head _, ?_⟩
  simp only [Bool.and_eq_true, decide_eq_true_eq, Char.reduceToNat] at hle ⊢
  omega

theorem meansOther_of_isBlank {c : Char} (h : isBlank c = true) : meansOther c = true := by
  have hle (a b : Char) : a ≤ b ↔ a.toNat ≤ b.toNat := UInt32.le_iff_toNat_le
  have heq (a b : Char) : a = b ↔ a.toNat = b.toNat := ⟨congrArg _, Char.toNat_inj.1⟩
  simp only [isBlank, Bool.or_eq_true, Bool.and_eq_true, decide_eq_true_eq, hle, heq,
    Char.reduceToNat] at h
  simp only [meansOther, otherRanges, List.any_cons, List.any_nil, Bool.or_eq_true,
    Bool.and_eq_true, decide_eq_true_eq]
  omega

theorem CharClass.of_digit {c : Char} (h : c.isDigit = true) :
    CharClass.of c = .digit (c.toNat - '0'.toNat) := if_pos h

/-- An alphabetic character names a variable, unless it is the `E` of scientific notation. -/
theorem CharClass.of_letter {c : Char} (h : isAlphabetic c = true) (hE : c ≠ 'E') :
    CharClass.of c = .letter c := by
  have hother := meansOther_of_isAlphabetic h
  unfold CharClass.of
  split
  · rename_i hdigit
    exact absurd (meansOther_of_isDigit hdigit) (by simp [hother])
  · split
    all_goals first
      | exact absurd hother (by decide)
      | exact absurd rfl hE
      | exact if_neg fun hblank => by simp [meansOther_of_isBlank hblank] at hother

theorem CharClass.of_eq_letter {c name : Char} (h : CharClass.of c = .letter name) :
    name = c ∧ c ≠ 'E' := by
  unfold CharClass.of at h
  split at h
  · cases h
  · split at h
    any_goals cases h
    split at h
    · cases h
    · rename_i hE _
      exact ⟨(CharClass.letter.inj h).symm, hE⟩

/-- A minus sign is always read as one, and never as an operator. -/
theorem CharClass.of_ne_subtract (c : Char) : CharClass.of c ≠ .operator .subtract := by
  unfold CharClass.of
  split
  · simp
  · split
    any_goals simp
    split <;> simp

@[simp] theorem CharClass.of_blank : CharClass.of ' ' = .blank := rfl

@[simp] theorem CharClass.of_minus : CharClass.of '-' = .minus := rfl

@[simp] theorem CharClass.of_point : CharClass.of '.' = .point := rfl

@[simp] theorem CharClass.of_caret : CharClass.of '^' = .caret := rfl

@[simp] theorem CharClass.of_opening : CharClass.of '(' = .opening := rfl

@[simp] theorem CharClass.of_closing : CharClass.of ')' = .closing := rfl

theorem Operator.of_symbol {op : Operator} (h : op ≠ .subtract) :
    CharClass.of op.symbol = .operator op := by
  cases op <;> first | rfl | exact absurd rfl h

theorem Relation.of_symbol (r : Relation) : CharClass.of r.symbol = .relation r := by
  cases r <;> rfl

/-! ## Texts that are read as they are -/

/-- A character that is neither a bracket nor an equals sign. -/
def isPlainChar (c : Char) : Bool :=
  (closingBracket? c).isNone && !isClosingBracket c && c != '='

theorem isPlainChar_of_isDigit {c : Char} (h : c.isDigit = true) : isPlainChar c = true := by
  unfold isPlainChar closingBracket? isClosingBracket
  split <;> first | exact absurd h (by decide) | skip
  simp only [Option.isNone_none, Bool.true_and, Bool.and_eq_true, Bool.not_eq_true',
    Bool.or_eq_false_iff, decide_eq_false_iff_not, bne_iff_ne]
  refine ⟨⟨⟨?_, ?_⟩, ?_⟩, ?_⟩ <;> rintro rfl <;> exact absurd h (by decide)

theorem isPlainChar_of_isAlphabetic {c : Char} (h : isAlphabetic c = true) :
    isPlainChar c = true := by
  have hother := meansOther_of_isAlphabetic h
  unfold isPlainChar closingBracket? isClosingBracket
  split <;> first | exact absurd hother (by decide) | skip
  simp only [Option.isNone_none, Bool.true_and, Bool.and_eq_true, Bool.not_eq_true',
    Bool.or_eq_false_iff, decide_eq_false_iff_not, bne_iff_ne]
  refine ⟨⟨⟨?_, ?_⟩, ?_⟩, ?_⟩ <;> rintro rfl <;> exact absurd hother (by decide)

/-- Texts whose brackets match and whose relations stand between blanks. -/
inductive IsTidyText : List Char → Prop where
  | nil : IsTidyText []
  | append {text text' : List Char} (h : IsTidyText text) (h' : IsTidyText text') :
    IsTidyText (text ++ text')
  | char {c : Char} (h : isPlainChar c = true) : IsTidyText [c]
  | relation (r : Relation) : IsTidyText [' ', r.symbol, ' ']
  | brackets {text : List Char} (h : IsTidyText text) : IsTidyText (parenthesized text)

theorem IsTidyText.of_forall {text : List Char} (h : ∀ c ∈ text, isPlainChar c = true) :
    IsTidyText text := by
  induction text with
  | nil => exact .nil
  | cons c rest ih => exact .append (.char (h c (.head _))) (ih fun d hd => h d (.tail _ hd))

theorem IsTidyText.of_all {text : List Char} (h : text.all isPlainChar = true) : IsTidyText text :=
  .of_forall (List.all_eq_true.1 h)

/-- Every equals sign stands directly after a blank. -/
def IsSpaced (text : List Char) : Prop :=
  text.head? ≠ some '=' ∧ text.IsChain fun c d => d = '=' → c = ' '

theorem IsSpaced.append {text text' : List Char} (h : IsSpaced text) (h' : IsSpaced text') :
    IsSpaced (text ++ text') := by
  refine ⟨?_, List.isChain_append.2 ⟨h.2, h'.2, fun c _ d hd heq => ?_⟩⟩
  · cases text with
    | nil => exact h'.1
    | cons c rest => exact h.1
  · subst heq
    exact absurd hd h'.1

theorem IsTidyText.isSpaced {text : List Char} (h : IsTidyText text) : IsSpaced text := by
  have hsingle {c : Char} (hc : c ≠ '=') : IsSpaced [c] := ⟨by simpa using hc, .singleton c⟩
  induction h with
  | nil => exact ⟨by simp, .nil⟩
  | append _ _ ih ih' => exact ih.append ih'
  | char hc =>
    rw [isPlainChar, Bool.and_eq_true, bne_iff_ne] at hc
    exact hsingle hc.2
  | relation r => cases r <;> simp [IsSpaced, Relation.symbol]
  | brackets _ ih =>
    have hopening : IsSpaced ['('] := hsingle (by decide)
    exact hopening.append (ih.append (hsingle (by decide)))

theorem IsSpaced.replacePair_eq {first : Char} (hfirst : first ≠ ' ') (replacement : Char)
    {text : List Char} (h : IsSpaced text) : replacePair first '=' replacement text = text := by
  have hchain := h.2
  clear h
  fun_induction replacePair first '=' replacement text with
  | case1 c d rest hpair =>
    rw [← hpair.1]
    exact absurd ((List.isChain_cons_cons.1 hchain).1 hpair.2) (hpair.1 ▸ hfirst)
  | case2 c d rest _ ih => rw [ih (List.isChain_cons_cons.1 hchain).2]
  | case3 => rfl
  | case4 => rfl

theorem IsTidyText.oneCharRelations_eq {text : List Char} (h : IsTidyText text) :
    oneCharRelations text = text := by
  have hspaced := h.isSpaced
  rw [oneCharRelations, hspaced.replacePair_eq (by decide), hspaced.replacePair_eq (by decide),
    hspaced.replacePair_eq (by decide), hspaced.replacePair_eq (by decide)]

theorem checkBracketsFrom_char {c : Char} (h : isPlainChar c = true) (place : Nat)
    (pending : List (Nat × Char)) (rest : List Char) :
    checkBracketsFrom place pending (c :: rest) = checkBracketsFrom (place + 1) pending rest := by
  simp only [isPlainChar, Bool.and_eq_true, Option.isNone_iff_eq_none, Bool.not_eq_true'] at h
  simp [checkBracketsFrom, h.1.1, h.1.2]

/-- After such a text the same brackets are open as before. -/
theorem IsTidyText.checkBracketsFrom_append {text : List Char} (h : IsTidyText text) (place : Nat)
    (pending : List (Nat × Char)) (rest : List Char) :
    checkBracketsFrom place pending (text ++ rest) =
      checkBracketsFrom (place + text.length) pending rest := by
  induction h generalizing place pending rest with
  | nil => rfl
  | append _ _ ih ih' =>
    rw [List.append_assoc, ih, ih', List.length_append, Nat.add_assoc]
  | char hc => exact checkBracketsFrom_char hc place pending rest
  | relation r => cases r <;> rfl
  | @brackets text _ ih =>
    have hopen : checkBracketsFrom place pending ('(' :: (text ++ ')' :: rest)) =
        checkBracketsFrom (place + 1) ((place, ')') :: pending) (text ++ ')' :: rest) := rfl
    have hclose : checkBracketsFrom (place + 1 + text.length) ((place, ')') :: pending)
        (')' :: rest) = checkBracketsFrom (place + 1 + text.length + 1) pending rest := rfl
    simp only [parenthesized, List.cons_append, List.append_assoc, List.nil_append,
      List.length_cons, List.length_append, List.length_nil]
    rw [hopen, ih, hclose]
    congr 1
    omega

theorem IsTidyText.checkBrackets_eq {text : List Char} (h : IsTidyText text) :
    checkBrackets text = .ok () := by
  have := h.checkBracketsFrom_append 0 [] []
  rwa [List.append_nil] at this

end OneUnknown
