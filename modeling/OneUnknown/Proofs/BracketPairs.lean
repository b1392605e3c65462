import OneUnknown.Proofs.Balance
import OneUnknown.Proofs.Outcome
/-!
# Pairs of brackets

While the brackets of a text are checked it can be recorded where each is closed.

* `bracketPairs`: the record, and `map_bracketPairs`: it is made exactly where the check succeeds;
* `IsPair`: a bracket, and the one that closes it;
* `bracketPairsFrom_spec`, `mem_bracketPairs`: these pairs are recorded, and no others;
* `Records`: what is known of the brackets in a part of the text.
-/

namespace OneUnknown

/-- The places of the brackets that are open at `place` or open later, each with the place of the
bracket that closes it. -/
def bracketPairsFrom (place : Nat) (pending : List (Nat × Char)) :
    List Char → Except ParseError (List (Nat × Nat))
  | [] =>
    match pending.getLast? with
    | some (opened, _) => .error (.unmatchedBracket opened false)
    | none => .ok []
  | c :: rest =>
    match closingBracket? c with
    | some closing => bracketPairsFrom (place + 1) ((place, closing) :: pending) rest
    | none =>
      if isClosingBracket c then
        match pending with
        | (opened, expected) :: outer =>
          if c = expected then do
            let pairs ← bracketPairsFrom (place + 1) outer rest
            return (opened, place) :: pairs
          else .error (.unmatchedBracket place true)
        | [] => .error (.unmatchedBracket place true)
      else bracketPairsFrom (place + 1) pending rest

/-- The brackets of a text, each with the one that closes it. -/
def bracketPairs (text : List Char) : Except ParseError (List (Nat × Nat)) :=
  bracketPairsFrom 0 [] text

/-- A bracket that opens at one place is closed at another, behind a balanced text. -/
def IsPair (text : List Char) (opened closed : Nat) : Prop :=
  ∃ before opening inner closing after, text = before ++ opening :: (inner ++ closing :: after) ∧
    closingBracket? opening = some closing ∧ Balanced inner ∧ before.length = opened ∧
      opened + 1 + inner.length = closed

variable {text before rest : List Char} {pending : List (Nat × Char)} {pairs : List (Nat × Nat)}
  {place opened closed : Nat}

theorem bracketPairsFrom_noBracket {c : Char} (hc : IsNoBracket c) :
    bracketPairsFrom place pending (c :: rest) = bracketPairsFrom (place + 1) pending rest := by
  simp [bracketPairsFrom, hc.opens, hc.closes]

theorem bracketPairsFrom_opening {opening closing : Char}
    (hpair : closingBracket? opening = some closing) :
    bracketPairsFrom place pending (opening :: rest) =
      bracketPairsFrom (place + 1) ((place, closing) :: pending) rest := by
  simp [bracketPairsFrom, hpair]

theorem bracketPairsFrom_closing {c : Char} (hc : isClosingBracket c = true) :
    bracketPairsFrom place ((opened, c) :: pending) (c :: rest) = (do
      let pairs ← bracketPairsFrom (place + 1) pending rest
      return (opened, place) :: pairs) := by
  simp [bracketPairsFrom, closingBracket?_of_isClosing hc, hc]

theorem bracketPairsFrom_stray {c : Char} (h : IsStray c pending) :
    bracketPairsFrom place pending (c :: rest) = .error (.unmatchedBracket place true) := by
  rcases pending with _ | ⟨⟨opened, expected⟩, outer⟩
  · simp [bracketPairsFrom, closingBracket?_of_isClosing h.closes, h.closes]
  · have hne : c ≠ expected := (h.mismatch _ rfl).symm
    simp [bracketPairsFrom, closingBracket?_of_isClosing h.closes, h.closes, hne]

/-- The record is made where the check succeeds, and fails as the check does. -/
theorem map_bracketPairsFrom (place : Nat) (pending : List (Nat × Char)) (text : List Char) :
    (bracketPairsFrom place pending text).map (fun _ => ()) =
      checkBracketsFrom place pending text := by
  induction text generalizing place pending with
  | nil =>
    rw [bracketPairsFrom, checkBracketsFrom]
    cases pending.getLast? <;> rfl
  | cons c rest ih =>
    rcases bracket_cases c with ⟨closing, hpair⟩ | hcloses | hnone
    · rw [bracketPairsFrom_opening hpair, checkBracketsFrom_opening hpair, ih]
    · rcases eq_or_isStray hcloses pending with ⟨opened, outer, rfl⟩ | hstray
      · rw [bracketPairsFrom_closing hcloses, checkBracketsFrom_closing hcloses,
          ← ih (place + 1) outer]
        cases bracketPairsFrom (place + 1) outer rest <;> rfl
      · rw [bracketPairsFrom_stray hstray, checkBracketsFrom_stray hstray]
        rfl
    · rw [bracketPairsFrom_noBracket hnone, checkBracketsFrom_noBracket hnone, ih]

theorem map_bracketPairs (text : List Char) :
    (bracketPairs text).map (fun _ => ()) = checkBrackets text := map_bracketPairsFrom 0 [] text

/-- The pairs are recorded exactly where the brackets are balanced. -/
theorem balanced_iff_bracketPairs : Balanced text ↔ ∃ pairs, bracketPairs text = .ok pairs := by
  rw [← checkBrackets_eq_ok, ← map_bracketPairs]
  cases bracketPairs text <;> simp [Except.map]

/-- A bracket is closed at one place. -/
theorem IsPair.unique {closed' : Nat} (h : IsPair text opened closed)
    (h' : IsPair text opened closed') : closed = closed' := by
  obtain ⟨before, opening, inner, closing, after, rfl, hpair, hinner, rfl, rfl⟩ := h
  obtain ⟨before', opening', inner', closing', after', heq, hpair', hinner', hlength, rfl⟩ := h'
  obtain ⟨-, heq⟩ := List.append_inj heq hlength.symm
  obtain ⟨-, heq⟩ := List.cons.inj heq
  obtain ⟨rfl, -⟩ := hinner.partner_unique hinner' (isClosingBracket_of_closes hpair)
    (isClosingBracket_of_closes hpair') heq
  rfl

/-- Where an open bracket is closed. -/
theorem LeavesOpen.isPair {closing : Char} (h : LeavesOpen before ((opened, closing) :: pending)) :
    IsPair (before ++ closing :: rest) opened before.length := by
  cases h with
  | @opened before inner outer opening closing _ hpair hinner =>
    refine ⟨before, opening, inner, closing, rest, by simp, hpair, hinner, rfl, ?_⟩
    simp
    omega

/-- Only pairs are recorded. -/
theorem isPair_of_mem_bracketPairsFrom (h : LeavesOpen before pending)
    (hpairs : bracketPairsFrom before.length pending rest = .ok pairs) :
    ∀ pair ∈ pairs, IsPair (before ++ rest) pair.1 pair.2 := by
  induction rest generalizing before pending pairs with
  | nil =>
    rw [bracketPairsFrom] at hpairs
    split at hpairs
    · cases hpairs
    · obtain rfl := Except.ok.inj hpairs
      simp
  | cons c rest ih =>
    have hnext {pending' : List (Nat × Char)} {pairs' : List (Nat × Nat)}
        (hopen : LeavesOpen (before ++ [c]) pending')
        (hrest : bracketPairsFrom (before.length + 1) pending' rest = .ok pairs') :
        ∀ pair ∈ pairs', IsPair (before ++ c :: rest) pair.1 pair.2 := by
      have := ih hopen (by simpa using hrest)
      simpa using this
    rcases bracket_cases c with ⟨closing, hpair⟩ | hcloses | hnone
    · rw [bracketPairsFrom_opening hpair] at hpairs
      exact hnext (.opened h hpair .nil) hpairs
    · rcases eq_or_isStray hcloses pending with ⟨opened, outer, rfl⟩ | hstray
      · rw [bracketPairsFrom_closing hcloses] at hpairs
        obtain ⟨pairs', hrest, hpairs⟩ := Except.bind_eq_ok.1 hpairs
        obtain rfl := Except.pure_eq_ok.1 hpairs
        exact List.forall_mem_cons.2 ⟨h.isPair, hnext h.close hrest⟩
      · rw [bracketPairsFrom_stray hstray] at hpairs
        cases hpairs
    · rw [bracketPairsFrom_noBracket hnone] at hpairs
      exact hnext (h.append (.singleton hnone)) hpairs

/-- Every bracket that is open or opens later is recorded. -/
theorem exists_mem_bracketPairsFrom (hpairs : bracketPairsFrom place pending rest = .ok pairs) :
    (∀ bracket ∈ pending, ∃ closed, (bracket.1, closed) ∈ pairs) ∧
      ∀ k opening closing, rest[k]? = some opening → closingBracket? opening = some closing →
        ∃ closed, (place + k, closed) ∈ pairs := by
  induction rest generalizing place pending pairs with
  | nil =>
    rw [bracketPairsFrom] at hpairs
    split at hpairs
    · cases hpairs
    · rename_i hlast
      obtain rfl := List.getLast?_eq_none_iff.1 hlast
      simp
  | cons c rest ih =>
    -- What is found of the rest, and what has to be found of the first character.
    have hnext {pairs' : List (Nat × Nat)}
        (hfirst : ∀ closing, closingBracket? c = some closing → ∃ closed, (place, closed) ∈ pairs')
        (hrest : ∀ k opening closing, rest[k]? = some opening →
          closingBracket? opening = some closing → ∃ closed, (place + 1 + k, closed) ∈ pairs') :
        ∀ k opening closing, (c :: rest)[k]? = some opening →
          closingBracket? opening = some closing → ∃ closed, (place + k, closed) ∈ pairs' := by
      intro k opening closing hopening hpair
      cases k with
      | zero =>
        obtain rfl : c = opening := by simpa using hopening
        exact hfirst closing hpair
      | succ k =>
        have := hrest k opening closing (by simpa using hopening) hpair
        rwa [Nat.add_right_comm, Nat.add_assoc] at this
    rcases bracket_cases c with ⟨closing, hpair⟩ | hcloses | hnone
    · rw [bracketPairsFrom_opening hpair] at hpairs
      obtain ⟨hpending, hrest⟩ := ih hpairs
      obtain ⟨hfirst, hpending⟩ := List.forall_mem_cons.1 hpending
      exact ⟨hpending, hnext (fun _ _ => hfirst) hrest⟩
    · have hfirst {pairs' : List (Nat × Nat)} : ∀ closing, closingBracket? c = some closing →
          ∃ closed, (place, closed) ∈ pairs' := fun closing hpair => by
        rw [closingBracket?_of_isClosing hcloses] at hpair
        cases hpair
      rcases eq_or_isStray hcloses pending with ⟨opened, outer, rfl⟩ | hstray
      · rw [bracketPairsFrom_closing hcloses] at hpairs
        obtain ⟨pairs', hpairs', hpairs⟩ := Except.bind_eq_ok.1 hpairs
        obtain rfl := Except.pure_eq_ok.1 hpairs
        obtain ⟨hpending, hrest⟩ := ih hpairs'
        refine ⟨List.forall_mem_cons.2 ⟨⟨place, .head _⟩, fun bracket hbracket => ?_⟩,
          hnext hfirst fun k opening closing hopening hpair => ?_⟩
        · exact (hpending bracket hbracket).imp fun _ => .tail _
        · exact (hrest k opening closing hopening hpair).imp fun _ => .tail _
      · rw [bracketPairsFrom_stray hstray] at hpairs
        cases hpairs
    · rw [bracketPairsFrom_noBracket hnone] at hpairs
      obtain ⟨hpending, hrest⟩ := ih hpairs
      refine ⟨hpending, hnext (fun closing hpair => ?_) hrest⟩
      rw [hnone.opens] at hpair
      cases hpair

/-- The record of a text holds the pairs of its brackets, and nothing else. -/
theorem mem_bracketPairs (h : bracketPairs text = .ok pairs) :
    (opened, closed) ∈ pairs ↔ IsPair text opened closed := by
  have hsound : ∀ pair ∈ pairs, IsPair text pair.1 pair.2 :=
    isPair_of_mem_bracketPairsFrom (.balanced .nil) h
  refine ⟨hsound _, fun hpair => ?_⟩
  obtain ⟨closed', hclosed'⟩ : ∃ closed', (opened, closed') ∈ pairs := by
    obtain ⟨before, opening, inner, closing, after, rfl, hpair, -, rfl, -⟩ := hpair
    have := (exists_mem_bracketPairsFrom h).2 before.length opening closing (by simp) hpair
    rwa [Nat.zero_add] at this
  rwa [hpair.unique (hsound _ hclosed')]

/-- Where the brackets in the part of a text that begins at `place` are closed can be looked up. -/
def Records (pairs : List (Nat × Nat)) (place : Nat) (part : List Char) : Prop :=
  ∀ opened closed, IsPair part opened closed →
    pairs.lookup (place + opened) = some (place + closed)

/-- What is recorded of a text can be looked up. -/
theorem records_bracketPairs (h : bracketPairs text = .ok pairs) : Records pairs 0 text := by
  intro opened closed hpair
  rw [Nat.zero_add, Nat.zero_add]
  have hsome : (pairs.lookup opened).isSome = true :=
    List.lookup_isSome_iff.2 ⟨_, (mem_bracketPairs h).2 hpair, by simp⟩
  obtain ⟨closed', hlookup⟩ := Option.isSome_iff_exists.1 hsome
  obtain ⟨before, after, hpairs, -⟩ := List.lookup_eq_some_iff.1 hlookup
  have hmem : (opened, closed') ∈ pairs := hpairs ▸ List.mem_append_right before (.head after)
  rw [hlookup, hpair.unique ((mem_bracketPairs h).1 hmem)]

/-- A part of a part. -/
theorem Records.of_append (before : List Char) {part : List Char} (rest : List Char)
    (h : Records pairs place (before ++ part ++ rest)) :
    Records pairs (place + before.length) part := by
  rintro opened closed ⟨pre, opening, inner, closing, post, rfl, hpair, hinner, rfl, rfl⟩
  have := h (before.length + pre.length) (before.length + (pre.length + 1 + inner.length))
    ⟨before ++ pre, opening, inner, closing, post ++ rest, by simp, hpair, hinner, by simp, by omega⟩
  simpa [Nat.add_assoc] using this

end OneUnknown
