import OneUnknown.Proofs.Cleaning
/-!
# The problems that are solved

Texts that are read as an equation or inequality in one unknown, with terms and operators in turn
and positive integers as exponents.

* `Sequence.isWellFormed`, `Sequence.hasWholePowers`, `Sequence.dividesByNonzero`: what is asked
  of a cleaned sequence, at every depth;
* `IsProblem`: a text and the two sides it is read as;
* `IsProblem.isPlain`: the sides are plain;
* `IsProblem.definedAt`: they have values everywhere, if no divisor is zero.
-/

namespace OneUnknown

/-! ## Well-formed sequences -/

mutual
/-- Whether a node is a term whose contents are well formed. -/
def Node.isWellFormed : Node → Bool
  | .group _ _ p => p.isEmpty || Sequence.isWellFormed p
  | .paren b p _ => Sequence.isWellFormed b && (p.isEmpty || Sequence.isWellFormed p)
  | .fraction t b => Sequence.isWellFormed t && Sequence.isWellFormed b
  | .operator _ | .relation _ => false

/-- Whether a sequence goes on after a term with an operator and a term in turn. -/
def Sequence.alternates : List Node → Bool
  | [] => true
  | .operator _ :: node :: rest => node.isWellFormed && Sequence.alternates rest
  | _ => false

/-- Whether a sequence is a term, an operator, a term and so on, at every depth. -/
def Sequence.isWellFormed : List Node → Bool
  | [] => false
  | node :: rest => node.isWellFormed && Sequence.alternates rest
end

/-- Whether a power is not written, or is one positive integer. -/
def isWholePower : List Node → Bool
  | [] => true
  | [.group none n []] => n.value.den = 1 && 0 < n.value.num
  | _ => false

mutual
/-- Whether all exponents in a node are positive integers. -/
def Node.hasWholePowers : Node → Bool
  | .group _ _ p => isWholePower p
  | .paren b p _ => Sequence.hasWholePowers b && isWholePower p
  | .fraction t b => Sequence.hasWholePowers t && Sequence.hasWholePowers b
  | .operator _ | .relation _ => true

/-- Whether all exponents in a sequence are positive integers. -/
def Sequence.hasWholePowers : List Node → Bool
  | [] => true
  | n :: ns => n.hasWholePowers && Sequence.hasWholePowers ns
end

/-- Whether a sequence is worth a number other than zero, whatever the unknown is. -/
def Sequence.isNonzero (nodes : List Node) : Bool :=
  !Sequence.hasVariable nodes &&
    match Sequence.valueAt (everywhere 0) nodes with
    | some value => value ≠ 0
    | none => false

mutual
/-- Whether all divisors in a node are numbers other than zero. -/
def Node.dividesByNonzero : Node → Bool
  | .paren b _ _ => Sequence.dividesByNonzeroAfter false b
  | .fraction t b =>
    Sequence.dividesByNonzeroAfter false t && Sequence.dividesByNonzeroAfter false b &&
      Sequence.isNonzero b
  | .group .. | .operator _ | .relation _ => true

/-- Whether all divisors in a sequence are numbers other than zero; after a division, its first
node is one. -/
def Sequence.dividesByNonzeroAfter (division : Bool) : List Node → Bool
  | [] => true
  | n :: ns =>
    n.dividesByNonzero && (!division || Sequence.isNonzero [n]) &&
      Sequence.dividesByNonzeroAfter (n.isOperator .divide) ns
end

/-- Whether all divisors in a sequence are numbers other than zero. -/
def Sequence.dividesByNonzero (nodes : List Node) : Bool :=
  Sequence.dividesByNonzeroAfter false nodes

/-- A text that is read as an equation or inequality in one unknown: there is one relation, between
two well-formed sides, and all exponents are positive integers. -/
structure IsProblem (text : List Char) (unknown : Char) (s : Sides) : Prop where
  cleaned : ∃ nodes, parse text = .ok nodes ∧ Sequence.cleaned nodes = .ok s.toNodes
  wellFormed : (Sequence.isWellFormed s.left && Sequence.isWellFormed s.right) = true
  unknowns : Sequence.unknowns s.toNodes = [unknown]
  wholePowers : Sequence.hasWholePowers s.toNodes = true

/-! ## Variables -/

theorem mem_insertAscending {c d : Char} {l : List Char} :
    c ∈ insertAscending d l ↔ c = d ∨ c ∈ l := by
  induction l with
  | nil => simp [insertAscending]
  | cons e rest ih =>
    rw [insertAscending]
    split
    · simp
    · split
      · rename_i heq
        simp [heq]
      · simp [ih, or_left_comm]

theorem Sequence.mem_unknowns {c : Char} {nodes : List Node} :
    c ∈ Sequence.unknowns nodes ↔ c ∈ Sequence.mentions nodes := by
  rw [Sequence.unknowns]
  induction Sequence.mentions nodes with
  | nil => simp
  | cons d rest ih => simp [mem_insertAscending, ih]

/-! ## Plain sides -/

theorem exists_wholePower {p : List Node} (h : isWholePower p = true) :
    ∃ exponent, WholePower p exponent := by
  unfold isWholePower at h
  split at h
  · exact ⟨1, .one⟩
  · rename_i n
    simp only [Bool.and_eq_true, decide_eq_true_eq] at h
    refine ⟨n.value.num.toNat, .written n _ ?_ (by omega)⟩
    rw [← Int.cast_natCast, Int.toNat_of_nonneg h.2.le]
    exact ((Rat.den_eq_one_iff _).1 h.1).symm
  · cases h

theorem Sequence.hasWholePowers_iff {nodes : List Node} :
    Sequence.hasWholePowers nodes = true ↔ ∀ node ∈ nodes, node.hasWholePowers = true := by
  induction nodes with
  | nil => simp [Sequence.hasWholePowers]
  | cons node rest ih => simp [Sequence.hasWholePowers, ih]

/-- Tidy nodes with whole powers are plain. -/
theorem Node.isPlain_of_isTidy {x : Char} {node : Node} (htidy : node.IsTidy)
    (hpowers : node.hasWholePowers = true) (hvariables : ∀ c ∈ node.mentions, c = x) :
    node.IsPlain x true := by
  induction node using Node.nested_induction with
  | group letter n p =>
    refine ⟨?_, exists_wholePower hpowers⟩
    rintro name rfl
    exact hvariables name (by simp [Node.mentions])
  | paren b p negative ihb =>
    rw [Node.hasWholePowers, Bool.and_eq_true] at hpowers
    refine ⟨Sequence.isPlain_iff.2 fun node hnode => ?_, exists_wholePower hpowers.2⟩
    refine ihb node hnode (Sequence.isTidy_iff.1 htidy node hnode)
      (Sequence.hasWholePowers_iff.1 hpowers.1 node hnode) fun c hc => hvariables c ?_
    exact List.mem_append_left _ (Sequence.mem_mentions.2 ⟨node, hnode, hc⟩)
  | fraction t b => exact htidy.elim
  | operator op => exact ⟨htidy, fun _ => rfl⟩
  | relation r => exact htidy.elim

theorem Sequence.mem_of_alternates {nodes : List Node} (h : Sequence.alternates nodes = true) :
    ∀ node ∈ nodes, node.isWellFormed = true ∨ ∃ op, node = .operator op := by
  match nodes with
  | [] => simp
  | .operator op :: second :: rest =>
    rw [Sequence.alternates, Bool.and_eq_true] at h
    have hrest := Sequence.mem_of_alternates h.2
    intro node hnode
    rcases List.mem_cons.1 hnode with rfl | hnode
    · exact .inr ⟨op, rfl⟩
    · rcases List.mem_cons.1 hnode with rfl | hnode
      · exact .inl h.1
      · exact hrest node hnode
  | [.operator _] => simp [Sequence.alternates] at h
  | .group .. :: _ | .paren .. :: _ | .fraction .. :: _ | .relation _ :: _ =>
    simp [Sequence.alternates] at h

/-- A well-formed sequence consists of well-formed terms and operators. -/
theorem Sequence.mem_of_isWellFormed {nodes : List Node}
    (h : Sequence.isWellFormed nodes = true) :
    ∀ node ∈ nodes, node.isWellFormed = true ∨ ∃ op, node = .operator op := by
  cases nodes with
  | nil => simp
  | cons first rest =>
    rw [Sequence.isWellFormed, Bool.and_eq_true] at h
    intro node hnode
    rcases List.mem_cons.1 hnode with rfl | hnode
    · exact .inl h.1
    · exact Sequence.mem_of_alternates h.2 node hnode

theorem Sequence.isRelation_of_isWellFormed {nodes : List Node}
    (h : Sequence.isWellFormed nodes = true) (node : Node) (hnode : node ∈ nodes) :
    node.isRelation = false := by
  rcases Sequence.mem_of_isWellFormed h node hnode with hnode | ⟨op, rfl⟩
  · cases node <;> simp_all [Node.isWellFormed, Node.isRelation]
  · rfl

/-- The sides of a problem are plain. -/
theorem IsProblem.isPlain {text : List Char} {unknown : Char} {s : Sides}
    (h : IsProblem text unknown s) : s.IsPlain unknown true := by
  obtain ⟨nodes, hparse, hcleaned⟩ := h.cleaned
  have hwellFormed := h.wellFormed
  rw [Bool.and_eq_true] at hwellFormed
  have hnode {node : Node} (hmem : node ∈ s.toNodes) (hrelation : node.isRelation = false) :
      node.IsPlain unknown true := by
    refine Node.isPlain_of_isTidy
      (Sequence.isTidy_of_cleaned (isRead_of_parse hparse) hcleaned hmem hrelation)
      (Sequence.hasWholePowers_iff.1 h.wholePowers node hmem) fun c hc => ?_
    have hunknown := Sequence.mem_unknowns.2 (Sequence.mem_mentions.2 ⟨node, hmem, hc⟩)
    rw [h.unknowns] at hunknown
    exact List.mem_singleton.1 hunknown
  constructor
  · exact Sequence.isPlain_iff.2 fun node hmem => hnode (List.mem_append_left _ hmem)
      (Sequence.isRelation_of_isWellFormed hwellFormed.1 node hmem)
  · exact Sequence.isPlain_iff.2 fun node hmem => hnode (List.mem_append_right _ (.tail _ hmem))
      (Sequence.isRelation_of_isWellFormed hwellFormed.2 node hmem)

/-! ## Values everywhere -/

section

variable {point point' : Char → Rat}

theorem Sequence.valueAt_congr_of_nodes {nodes : List Node}
    (h : ∀ node ∈ nodes, node.valueAt point = node.valueAt point') :
    Sequence.valueAt point nodes = Sequence.valueAt point' nodes := by
  have hread : ∀ s, Sequence.read point s nodes = Sequence.read point' s nodes := by
    induction nodes with
    | nil => exact fun _ => rfl
    | cons node rest ih =>
      intro s
      have hnode : s.next point node = s.next point' node := by
        cases s <;> cases node <;> simp only [Reading.next, h _ (.head _)]
      rw [Sequence.read_cons, Sequence.read_cons, hnode,
        ih fun n hn => h n (.tail _ hn)]
  rw [Sequence.valueAt_eq, Sequence.valueAt_eq, hread]

/-- The value of a node depends on the variables in it only. -/
theorem Node.valueAt_congr {node : Node} (h : ∀ c ∈ node.mentions, point c = point' c) :
    node.valueAt point = node.valueAt point' := by
  have hnodes {nodes : List Node}
      (ih : ∀ node ∈ nodes, (∀ c ∈ node.mentions, point c = point' c) →
        node.valueAt point = node.valueAt point')
      (h : ∀ c ∈ Sequence.mentions nodes, point c = point' c) :
      Sequence.valueAt point nodes = Sequence.valueAt point' nodes :=
    Sequence.valueAt_congr_of_nodes fun node hnode =>
      ih node hnode fun c hc => h c (Sequence.mem_mentions.2 ⟨node, hnode, hc⟩)
  induction node using Node.nested_induction with
  | group letter n p ihp =>
    have hp := hnodes ihp fun c hc => h c (List.mem_append_right _ hc)
    cases letter with
    | none => simp [Node.valueAt, hp]
    | some name => simp [Node.valueAt, hp, h name (by simp [Node.mentions])]
  | paren b p negative ihb ihp =>
    have hb := hnodes ihb fun c hc => h c (List.mem_append_left _ hc)
    have hp := hnodes ihp fun c hc => h c (List.mem_append_right _ hc)
    simp [Node.valueAt, hb, hp]
  | fraction t b iht ihb =>
    have ht := hnodes iht fun c hc => h c (List.mem_append_left _ hc)
    have hb := hnodes ihb fun c hc => h c (List.mem_append_right _ hc)
    simp [Node.valueAt, ht, hb]
  | operator op => simp [Node.valueAt]
  | relation r => simp [Node.valueAt]

theorem Sequence.valueAt_congr {nodes : List Node} (h : Sequence.hasVariable nodes = false) :
    Sequence.valueAt point nodes = Sequence.valueAt point' nodes := by
  have hnil : Sequence.mentions nodes = [] := by simpa [Sequence.hasVariable] using h
  refine Sequence.valueAt_congr_of_nodes fun node hnode => Node.valueAt_congr fun c hc => ?_
  have hmem := Sequence.mem_mentions.2 ⟨node, hnode, hc⟩
  rw [hnil] at hmem
  cases hmem

theorem Sequence.exists_of_isNonzero (point : Char → Rat) {nodes : List Node}
    (h : Sequence.isNonzero nodes = true) :
    ∃ value, Sequence.valueAt point nodes = some value ∧ value ≠ 0 := by
  rw [Sequence.isNonzero, Bool.and_eq_true] at h
  have heverywhere : Sequence.valueAt point nodes = Sequence.valueAt (everywhere 0) nodes :=
    Sequence.valueAt_congr (by simpa using h.1)
  rw [heverywhere]
  have hvalue := h.2
  split at hvalue
  · rename_i value heq
    exact ⟨value, heq, by simpa using hvalue⟩
  · cases hvalue

/-- What follows a term has a value if terms and operators alternate, the terms have values, and
no divisor is zero. -/
theorem Sequence.exists_valueAfter {rest : List Node} (halternates : Sequence.alternates rest = true)
    (hdivides : Sequence.dividesByNonzeroAfter false rest = true)
    (hterms : ∀ node ∈ rest, node.isWellFormed = true → node.dividesByNonzero = true →
      ∃ v, node.valueAt point = some v) (total product : Rat) :
    ∃ value, Sequence.valueAfter point total product rest = some value := by
  match rest with
  | [] => exact ⟨_, rfl⟩
  | [.operator _] => simp [Sequence.alternates] at halternates
  | .operator op :: node :: rest =>
    rw [Sequence.alternates, Bool.and_eq_true] at halternates
    simp only [Sequence.dividesByNonzeroAfter, Bool.and_eq_true] at hdivides
    obtain ⟨-, ⟨hnode, hdivisor⟩, hrest⟩ := hdivides
    have hrest' : Sequence.dividesByNonzeroAfter false rest = true := by
      cases node <;> first | exact hrest | simp [Node.isWellFormed] at halternates
    obtain ⟨v, hv⟩ := hterms node (.tail _ (.head _)) halternates.1 hnode
    have ih := Sequence.exists_valueAfter halternates.2 hrest'
      fun n hn => hterms n (.tail _ (.tail _ hn))
    rw [Sequence.valueAfter, hv, Option.bind_some]
    cases op with
    | divide =>
      have hnonzero : Sequence.isNonzero [node] = true := by
        simpa [Node.isOperator] using hdivisor
      obtain ⟨w, hw, hne⟩ := Sequence.exists_of_isNonzero point hnonzero
      obtain rfl : v = w := by simpa [hv] using hw
      simpa [Rational.quotient?, hne] using ih total (product / v)
    | add | subtract | multiply => exact ih _ _
  | .group .. :: _ | .paren .. :: _ | .fraction .. :: _ | .relation _ :: _ =>
    simp [Sequence.alternates] at halternates

theorem Sequence.exists_valueAt_of_nodes {nodes : List Node}
    (hwellFormed : Sequence.isWellFormed nodes = true)
    (hdivides : Sequence.dividesByNonzeroAfter false nodes = true)
    (hterms : ∀ node ∈ nodes, node.isWellFormed = true → node.dividesByNonzero = true →
      ∃ v, node.valueAt point = some v) :
    ∃ value, Sequence.valueAt point nodes = some value := by
  cases nodes with
  | nil => simp [Sequence.isWellFormed] at hwellFormed
  | cons node rest =>
    rw [Sequence.isWellFormed, Bool.and_eq_true] at hwellFormed
    simp only [Sequence.dividesByNonzeroAfter, Bool.and_eq_true] at hdivides
    obtain ⟨⟨hnode, -⟩, hrest⟩ := hdivides
    have hrest' : Sequence.dividesByNonzeroAfter false rest = true := by
      cases node <;> first | exact hrest | simp [Node.isWellFormed] at hwellFormed
    obtain ⟨v, hv⟩ := hterms node (.head _) hwellFormed.1 hnode
    rw [Sequence.valueAt, hv, Option.bind_some]
    exact Sequence.exists_valueAfter hwellFormed.2 hrest'
      (fun n hn => hterms n (.tail _ hn)) 0 v

theorem Node.exists_valueAt (point : Char → Rat) {x : Char} {division : Bool} {node : Node}
    (hplain : node.IsPlain x division) (hwellFormed : node.isWellFormed = true)
    (hdivides : node.dividesByNonzero = true) : ∃ v, node.valueAt point = some v := by
  induction node using Node.nested_induction generalizing division with
  | group letter n p =>
    obtain ⟨-, exponent, hp⟩ := hplain
    cases letter with
    | some name => exact ⟨_, Node.valueAt_group point hp name n⟩
    | none => exact ⟨_, Node.valueAt_number point hp n⟩
  | paren b p negative ihb =>
    obtain ⟨hb, exponent, hp⟩ := hplain
    rw [Node.isWellFormed, Bool.and_eq_true] at hwellFormed
    obtain ⟨content, hcontent⟩ := Sequence.exists_valueAt_of_nodes hwellFormed.1 hdivides
      fun node hnode => ihb node hnode (Sequence.isPlain_iff.1 hb node hnode)
    rw [Node.valueAt_paren point hp, hcontent]
    exact ⟨_, rfl⟩
  | fraction t b iht ihb =>
    rw [Node.isWellFormed, Bool.and_eq_true] at hwellFormed
    simp only [Node.dividesByNonzero, Bool.and_eq_true] at hdivides
    obtain ⟨top, htop⟩ := Sequence.exists_valueAt_of_nodes hwellFormed.1 hdivides.1.1
      fun node hnode => iht node hnode (Sequence.isPlain_iff.1 hplain.1 node hnode)
    obtain ⟨bottom, hbottom, hne⟩ := Sequence.exists_of_isNonzero point hdivides.2
    exact ⟨_, (Node.valueAt_fraction_eq_some point).2 ⟨top, bottom, htop, hbottom, hne, rfl⟩⟩
  | operator op => cases hwellFormed
  | relation r => cases hwellFormed

/-- The sides of a problem have values everywhere, if no divisor is zero. -/
theorem IsProblem.definedAt {text : List Char} {unknown : Char} {s : Sides}
    (h : IsProblem text unknown s)
    (hdivides : (Sequence.dividesByNonzero s.left && Sequence.dividesByNonzero s.right) = true)
    (point : Char → Rat) : s.DefinedAt point := by
  have hwellFormed := h.wellFormed
  rw [Bool.and_eq_true] at hwellFormed hdivides
  obtain ⟨left, hleft⟩ := Sequence.exists_valueAt_of_nodes hwellFormed.1 hdivides.1
    fun node hnode => Node.exists_valueAt point (Sequence.isPlain_iff.1 h.isPlain.1 node hnode)
  obtain ⟨right, hright⟩ := Sequence.exists_valueAt_of_nodes hwellFormed.2 hdivides.2
    fun node hnode => Node.exists_valueAt point (Sequence.isPlain_iff.1 h.isPlain.2 node hnode)
  exact ⟨left, right, hleft, hright⟩

end

end OneUnknown
