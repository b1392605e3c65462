import OneUnknown.Proofs.Plain
import OneUnknown.Proofs.Outcome
import OneUnknown.Division
import OneUnknown.Expression.Variables
/-!
# Divisions and fractions mean the same

* `Node.fraction?_eq_some`: the fraction of two sequences;
* `Sequence.valueAt_withFractions`: writing divisions as fractions keeps the value;
* `FractionsWritten.isPlain`, `Node.isPlain_withFractions`: no division is left;
* `Sequence.mentions_withFractions`: the variables stay;
* `FractionsWritten.split`: the two sides of an equation are converted each on its own.
-/

namespace OneUnknown

theorem Node.fraction?_eq_some {top bottom : List Node} {node : Node}
    (h : Node.fraction? top bottom = some node) : node = .fraction top bottom := by
  unfold Node.fraction? at h
  split at h
  · split at h
    · cases h
    · simpa using h.symm
  · simpa using h.symm

theorem Node.over_eq_ok {top bottom node : Node} (h : top.over bottom = .ok node) :
    node = .fraction [top] [bottom] := by
  unfold Node.over at h
  split at h
  · rename_i quotient hquotient
    obtain rfl : quotient = node := by simpa using h
    exact Node.fraction?_eq_some hquotient
  · cases h

/-- How the divisions of a sequence are written as fractions: a term that is held becomes the
numerator if a division follows, and stays otherwise. -/
inductive FractionsWritten : (held : Option Node) → (rest out : List Node) → Prop where
  | nil (held) : FractionsWritten held [] held.toList
  | divide {top bottom bottom' rest out} (htop : top.isTerm = true) (hterm : bottom'.isTerm = true)
      (hbottom : bottom.withFractions = .ok bottom')
      (hover : top.over bottom' = .ok (.fraction [top] [bottom']))
      (tail : FractionsWritten (some (.fraction [top] [bottom'])) rest out) :
      FractionsWritten (some top) (.operator .divide :: bottom :: rest) out
  | next {held node node' rest out} (hdivide : node ≠ .operator .divide)
      (hnode : node.withFractions = .ok node') (tail : FractionsWritten (some node') rest out) :
      FractionsWritten held (node :: rest) (held.toList ++ out)

theorem FractionsWritten.of_withFractionsAfter {held : Option Node} {rest out : List Node}
    (h : Sequence.withFractionsAfter held rest = .ok out) : FractionsWritten held rest out := by
  match rest with
  | [] =>
    obtain rfl : held.toList = out := by simpa [Sequence.withFractionsAfter] using h
    exact .nil held
  | node :: rest =>
    by_cases hdivide : node = .operator .divide
    · subst hdivide
      cases held with
      | none => simp [Sequence.withFractionsAfter] at h
      | some top =>
        cases rest with
        | nil => simp [Sequence.withFractionsAfter] at h
        | cons bottom rest =>
          rw [Sequence.withFractionsAfter] at h
          split at h
          · rename_i htop
            obtain ⟨bottom', hbottom, h⟩ := Except.bind_eq_ok.1 h
            split at h
            · rename_i hterm
              obtain ⟨fraction, hfraction, h⟩ := Except.bind_eq_ok.1 h
              obtain rfl := Node.over_eq_ok hfraction
              exact .divide htop hterm hbottom hfraction (of_withFractionsAfter h)
            · cases h
          · cases h
    · rw [Sequence.withFractionsAfter] at h
      · obtain ⟨node', hnode, h⟩ := Except.bind_eq_ok.1 h
        obtain ⟨out', hout, h⟩ := Except.bind_eq_ok.1 h
        obtain rfl := Except.pure_eq_ok.1 h
        exact .next hdivide hnode (of_withFractionsAfter hout)
      · exact fun heq => hdivide heq

/-- A parenthesis stays one. -/
theorem Node.eq_paren_of_withFractions {b p : List Node} {negative : Bool} {node : Node}
    (h : (Node.paren b p negative).withFractions = .ok node) :
    ∃ body, Sequence.withFractions b = .ok body ∧ node = .paren body p negative := by
  obtain ⟨body, hbody, h⟩ := Except.bind_eq_ok.1 h
  exact ⟨body, hbody, (Except.pure_eq_ok.1 h).symm⟩

theorem Node.eq_operator_of_withFractions {node : Node} {op : Operator}
    (h : node.withFractions = .ok (.operator op)) : node = .operator op := by
  cases node with
  | paren b p negative =>
    obtain ⟨body, -, heq⟩ := Node.eq_paren_of_withFractions h
    cases heq
  | _ => exact Except.ok.inj h

/-! ## Values -/

section

variable (point : Char → Rat)

/-- A quotient is read like a fraction, except behind another division. -/
theorem Reading.accept_quotient {s : Reading} {top bottom : Rat}
    (hs : ∀ total product, s ≠ .expecting total product .divide) :
    ((s.accept top).next point (.operator .divide)).accept bottom =
      match Rational.quotient? top bottom with
      | some value => s.accept value
      | none => .stuck := by
  rcases s with ⟨total, product, op⟩ | _ | _
  · by_cases hbottom : bottom = 0
    · cases op with
      | divide => exact absurd rfl (hs total product)
      | _ => simp [Reading.accept, Rational.quotient?, hbottom]
    · cases op with
      | divide => exact absurd rfl (hs total product)
      | _ => simp [Reading.accept, Rational.quotient?, hbottom, neg_div, mul_div_assoc]
  · by_cases hbottom : bottom = 0 <;> simp [Reading.accept, Rational.quotient?, hbottom]
  · by_cases hbottom : bottom = 0 <;> simp [Reading.accept, Rational.quotient?, hbottom]

theorem Reading.next_fraction (s : Reading) {top bottom : Node} (htop : top.isTerm = true)
    (hs : ∀ total product, s ≠ .expecting total product .divide) :
    s.next point (.fraction [top] [bottom]) =
      ((s.next point top).next point (.operator .divide)).next point bottom := by
  have hstuck {node : Node} (hvalue : node.valueAt point = none) (hterm : node.isTerm = true) :
      s.next point node = .stuck := by
    cases s <;> cases node <;> simp_all [Reading.next, Node.isTerm]
  cases ht : top.valueAt point with
  | none =>
    have hvalue : (Node.fraction [top] [bottom]).valueAt point = none := by
      simp [Node.valueAt, ht]
    rw [hstuck hvalue rfl, hstuck ht htop, Reading.next_stuck, Reading.next_stuck]
  | some t =>
    rw [Reading.next_of_valueAt point ht]
    cases hb : bottom.valueAt point with
    | none =>
      have hvalue : (Node.fraction [top] [bottom]).valueAt point = none := by
        simp [Node.valueAt, ht, hb]
      rw [hstuck hvalue rfl]
      cases haccept : s.accept t with
      | expecting => exact absurd haccept (Reading.accept_ne_expecting t s _ _ _)
      | holding total product =>
        rw [Reading.next_operator, Reading.next_of_none point hb]
      | stuck => rw [Reading.next_stuck, Reading.next_stuck]
    | some b =>
      rw [Reading.next_of_valueAt point hb, Reading.accept_quotient point hs]
      split
      · rename_i value hquotient
        exact Reading.next_of_valueAt point (by simpa [Node.valueAt, ht, hb] using hquotient) s
      · rename_i hquotient
        exact hstuck (by simpa [Node.valueAt, ht, hb] using hquotient) rfl

theorem Reading.start_ne_divide (total product : Rat) :
    Reading.start ≠ .expecting total product .divide := by
  simp [Reading.start]

theorem FractionsWritten.read_eq {held : Option Node} {rest out : List Node}
    (h : FractionsWritten held rest out)
    (hrest : ∀ node ∈ rest, ∀ node', node.withFractions = .ok node' →
      ∀ s : Reading, s.next point node' = s.next point node)
    (hheld : held ≠ some (.operator .divide))
    {s : Reading} (hs : ∀ total product, s ≠ .expecting total product .divide) :
    Sequence.read point s out = Sequence.read point s (held.toList ++ rest) := by
  induction h generalizing s with
  | nil held => simp
  | @divide top bottom bottom' rest out htop hterm hbottom _ _ ih =>
    rw [ih (fun n hn => hrest n (.tail _ (.tail _ hn))) (by simp) hs]
    simp [Reading.next_fraction point s htop hs, hrest bottom (.tail _ (.head _)) bottom' hbottom]
  | @next held node node' rest out hdivide hnode _ ih =>
    have hnode' : node' ≠ .operator .divide := by
      rintro rfl
      exact hdivide (Node.eq_operator_of_withFractions hnode)
    rw [Sequence.read_append, ih (fun n hn => hrest n (.tail _ hn)) (by simpa using hnode')]
    · simp [hrest node (.head _) node' hnode]
    · -- What was held is no division, so none stands before the next node.
      intro total product hread
      cases held with
      | none => exact hs total product hread
      | some first => exact hheld (congrArg some (Reading.eq_operator_of_next point hread))

theorem Node.next_withFractions {node node' : Node} (h : node.withFractions = .ok node')
    (s : Reading) : s.next point node' = s.next point node := by
  induction node using Node.nested_induction generalizing node' s with
  | group | fraction | operator | relation => exact Except.ok.inj h ▸ rfl
  | paren b p negative ihb =>
    obtain ⟨body, hbody, rfl⟩ := Node.eq_paren_of_withFractions h
    have hread := (FractionsWritten.of_withFractionsAfter hbody).read_eq point
      (fun node hnode node' hnode' s => ihb node hnode hnode' s) (by simp) Reading.start_ne_divide
    have hvalue : Sequence.valueAt point body = Sequence.valueAt point b := by
      rw [Sequence.valueAt_eq, Sequence.valueAt_eq, hread]
      rfl
    cases s <;> simp [Reading.next, Node.valueAt, hvalue]

theorem FractionsWritten.valueAt_eq {nodes out : List Node}
    (h : FractionsWritten none nodes out) :
    Sequence.valueAt point out = Sequence.valueAt point nodes := by
  rw [Sequence.valueAt_eq, Sequence.valueAt_eq,
    h.read_eq point (fun _ _ _ hnode => Node.next_withFractions point hnode) (by simp)
      Reading.start_ne_divide]
  rfl

/-- Writing divisions as fractions keeps the value of a sequence. -/
theorem Sequence.valueAt_withFractions {nodes out : List Node}
    (h : Sequence.withFractions nodes = .ok out) :
    Sequence.valueAt point out = Sequence.valueAt point nodes :=
  (FractionsWritten.of_withFractionsAfter h).valueAt_eq point

end

/-! ## Plain sequences and variables -/

/-- What holds of the nodes of a sequence holds once its divisions are fractions, if it holds of
the fraction of two terms. -/
theorem FractionsWritten.forall_mem {P : Node → Prop}
    (hfraction : ∀ top bottom, top.isTerm = true → bottom.isTerm = true → P top → P bottom →
      P (.fraction [top] [bottom]))
    {held : Option Node} {rest out : List Node} (h : FractionsWritten held rest out)
    (hheld : ∀ node ∈ held, P node)
    (hrest : ∀ node ∈ rest, node ≠ .operator .divide → ∀ node', node.withFractions = .ok node' →
      P node') : ∀ node ∈ out, P node := by
  induction h with
  | nil => simpa using hheld
  | @divide top bottom bottom' rest out htop hterm hbottom _ _ ih =>
    refine ih (fun node hnode => ?_) fun n hn => hrest n (.tail _ (.tail _ hn))
    obtain rfl := Option.some.inj hnode
    refine hfraction top bottom' htop hterm (hheld top rfl)
      (hrest bottom (.tail _ (.head _)) ?_ bottom' hbottom)
    rintro rfl
    cases hbottom
    cases hterm
  | next hdivide hnode _ ih =>
    refine List.forall_mem_append.2 ⟨by simpa using hheld, ih (fun node hmem => ?_)
      fun n hn => hrest n (.tail _ hn)⟩
    obtain rfl := Option.some.inj hmem
    exact hrest _ (.head _) hdivide _ hnode

theorem FractionsWritten.isPlain {x : Char} {held : Option Node} {rest out : List Node}
    (h : FractionsWritten held rest out)
    (hheld : Sequence.IsPlain x false held.toList)
    (hrest : ∀ node ∈ rest, node ≠ .operator .divide → ∀ node', node.withFractions = .ok node' →
      node'.IsPlain x false) : Sequence.IsPlain x false out :=
  Sequence.isPlain_iff.2 (h.forall_mem
    (fun _ _ _ _ htop hbottom => ⟨⟨htop, trivial⟩, hbottom, trivial⟩)
    (fun node hnode => Sequence.isPlain_iff.1 hheld node (by simpa using hnode)) hrest)

theorem Node.isPlain_withFractions {x : Char} {node node' : Node} (hplain : node.IsPlain x true)
    (hdivide : node ≠ .operator .divide) (h : node.withFractions = .ok node') :
    node'.IsPlain x false := by
  induction node using Node.nested_induction generalizing node' with
  | group | fraction => exact Except.ok.inj h ▸ hplain
  | operator op =>
    obtain rfl := Except.ok.inj h
    exact ⟨hplain.1, fun heq => absurd (congrArg Node.operator heq) hdivide⟩
  | relation => exact hplain.elim
  | paren b p negative ihb =>
    obtain ⟨body, hbody, rfl⟩ := Node.eq_paren_of_withFractions h
    refine ⟨(FractionsWritten.of_withFractionsAfter hbody).isPlain trivial ?_, hplain.2⟩
    exact fun n hn hne n' hn' => ihb n hn (Sequence.isPlain_iff.1 hplain.1 n hn) hne hn'

theorem Sequence.mentions_append (left right : List Node) :
    Sequence.mentions (left ++ right) = Sequence.mentions left ++ Sequence.mentions right := by
  induction left with
  | nil => rfl
  | cons node rest ih => simp [Sequence.mentions, ih]

theorem Sequence.mem_mentions {c : Char} {nodes : List Node} :
    c ∈ Sequence.mentions nodes ↔ ∃ node ∈ nodes, c ∈ node.mentions := by
  induction nodes with
  | nil => simp [Sequence.mentions]
  | cons node rest ih => simp [Sequence.mentions, ih]

theorem FractionsWritten.mentions_eq {held : Option Node} {rest out : List Node}
    (h : FractionsWritten held rest out)
    (hrest : ∀ node ∈ rest, ∀ node', node.withFractions = .ok node' →
      node'.mentions = node.mentions) :
    Sequence.mentions out = Sequence.mentions (held.toList ++ rest) := by
  induction h with
  | nil held => simp
  | @divide top bottom bottom' rest out htop hterm hbottom _ _ ih =>
    rw [ih fun n hn => hrest n (.tail _ (.tail _ hn))]
    simp [Sequence.mentions, Node.mentions, hrest bottom (.tail _ (.head _)) bottom' hbottom]
  | @next held node node' rest out hdivide hnode _ ih =>
    rw [Sequence.mentions_append, ih fun n hn => hrest n (.tail _ hn)]
    simp [Sequence.mentions_append, Sequence.mentions, hrest node (.head _) node' hnode]

theorem Node.mentions_withFractions {node node' : Node} (h : node.withFractions = .ok node') :
    node'.mentions = node.mentions := by
  induction node using Node.nested_induction generalizing node' with
  | group | fraction | operator | relation => exact Except.ok.inj h ▸ rfl
  | paren b p negative ihb =>
    obtain ⟨body, hbody, rfl⟩ := Node.eq_paren_of_withFractions h
    have := (FractionsWritten.of_withFractionsAfter hbody).mentions_eq
      fun n hn _ hn' => ihb n hn hn'
    rw [Node.mentions, Node.mentions, this, Option.toList_none, List.nil_append]

/-- Writing divisions as fractions keeps every mention of a variable. -/
theorem Sequence.mentions_withFractions {nodes out : List Node}
    (h : Sequence.withFractions nodes = .ok out) :
    Sequence.mentions out = Sequence.mentions nodes :=
  (FractionsWritten.of_withFractionsAfter h).mentions_eq fun _ _ _ =>
    Node.mentions_withFractions

/-! ## Equations -/

/-- An equation is split around its relation again if there is none on its left. -/
theorem Sides.ofNodes_toNodes {s : Sides} (h : ∀ node ∈ s.left, node.isRelation = false) :
    Sides.ofNodes s.toNodes = .ok s := by
  obtain ⟨left, relation, right⟩ := s
  have hsplit : Sequence.split? (left ++ .relation relation :: right) =
      some (left, relation, right) := by
    induction left with
    | nil => rfl
    | cons node rest ih =>
      have hrest := ih fun n hn => h n (.tail _ hn)
      have hnode := h node (.head _)
      rw [List.cons_append, Sequence.split?, hrest]
      · rfl
      · rintro r rfl
        cases hnode
  simp [Sides.ofNodes, Sides.toNodes, hsplit]

theorem Sequence.eq_of_split? {nodes left right : List Node} {relation : Relation}
    (h : Sequence.split? nodes = some (left, relation, right)) :
    nodes = left ++ .relation relation :: right := by
  induction nodes generalizing left with
  | nil => cases h
  | cons node rest ih =>
    cases node with
    | relation r =>
      obtain ⟨rfl, rfl, rfl⟩ := by simpa [Sequence.split?] using h
      rfl
    | _ =>
      obtain ⟨⟨left, r, right⟩, hrest, heq⟩ := Option.map_eq_some_iff.1 h
      obtain ⟨rfl, rfl, rfl⟩ := by simpa using heq
      rw [ih hrest, List.cons_append]

theorem Sides.toNodes_of_ofNodes {nodes : List Node} {s : Sides}
    (h : Sides.ofNodes nodes = .ok s) : s.toNodes = nodes := by
  unfold Sides.ofNodes at h
  split at h
  · rename_i heq
    obtain rfl := Except.ok.inj h
    exact (Sequence.eq_of_split? heq).symm
  · cases h

theorem Sides.mapM_eq_ok {rewrite : List Node → Except SolveError (List Node)} {s t : Sides}
    (h : s.mapM rewrite = .ok t) : ∃ left right, rewrite s.left = .ok left ∧
      rewrite s.right = .ok right ∧ t = ⟨left, s.relation, right⟩ := by
  obtain ⟨left, hleft, h⟩ := Except.bind_eq_ok.1 h
  obtain ⟨right, hright, h⟩ := Except.bind_eq_ok.1 h
  exact ⟨left, right, hleft, hright, (Except.pure_eq_ok.1 h).symm⟩

/-- Behind a relation everything begins anew. -/
theorem FractionsWritten.after_relation {r : Relation} {rest out : List Node}
    (h : FractionsWritten (some (.relation r)) rest out) :
    ∃ out', FractionsWritten none rest out' ∧ out = .relation r :: out' := by
  cases h with
  | nil => exact ⟨[], .nil none, rfl⟩
  | divide htop => cases htop
  | next hdivide hnode tail => exact ⟨_, .next hdivide hnode tail, rfl⟩

theorem FractionsWritten.split {held : Option Node} {rest out : List Node}
    (h : FractionsWritten held rest out) {left : List Node} {r : Relation} {right : List Node}
    (hrest : rest = left ++ .relation r :: right) :
    ∃ left' right', FractionsWritten held left left' ∧ FractionsWritten none right right' ∧
      out = left' ++ .relation r :: right' := by
  induction h generalizing left with
  | nil => simp at hrest
  | divide htop hterm hbottom hover tail ih =>
    rcases left with _ | ⟨first, _ | ⟨second, left⟩⟩
    · simp at hrest
    · simp only [List.cons_append, List.nil_append, List.cons.injEq] at hrest
      obtain ⟨-, rfl, -⟩ := hrest
      cases hbottom
      cases hterm
    · simp only [List.cons_append, List.cons.injEq] at hrest
      obtain ⟨rfl, rfl, hrest⟩ := hrest
      obtain ⟨left', right', hleft, hright, rfl⟩ := ih hrest
      exact ⟨left', right', .divide htop hterm hbottom hover hleft, hright, rfl⟩
  | @next held node node' rest out hdivide hnode tail ih =>
    cases left with
    | nil =>
      simp only [List.nil_append, List.cons.injEq] at hrest
      obtain ⟨rfl, rfl⟩ := hrest
      cases hnode
      obtain ⟨right', hright, rfl⟩ := tail.after_relation
      exact ⟨held.toList, right', .nil held, hright, rfl⟩
    | cons first left =>
      simp only [List.cons_append, List.cons.injEq] at hrest
      obtain ⟨rfl, hrest⟩ := hrest
      obtain ⟨left', right', hleft, hright, rfl⟩ := ih hrest
      refine ⟨held.toList ++ left', right', .next hdivide hnode hleft, hright, ?_⟩
      rw [List.append_assoc]

end OneUnknown
