import OneUnknown.Proofs.Grammar
/-!
# Sides in which nothing is missing

A side is fit if every `*` or `/` in it stands between two terms, every exponent of a number or of a
parenthesis has a value, and no denominator without variables is worth zero, at every depth.  Two
terms side by side are tolerated, and so are two `+` side by side: nothing is no summand.

* `Sequence.Fills`: what is left to be said of a summand after some more nodes;
* `Node.IsFit`, `Sequence.IsSum`: fit nodes and sides;
* `Sequence.IsSum.of_join`, `Sequence.IsSum.of_summands`: a side is fit if its summands are;
* `Node.IsPrepared`: a node without differences, divisions and relations, whose exponents are clean;
* `SumHasValue.isSum`: what has been evaluated is fit.
-/

namespace OneUnknown

/-! ## Summands -/

/-- How much of a summand has been read. -/
inductive Slot where
  /-- Nothing. -/
  | empty
  /-- A product up to a `*` or `/`, so a term has to follow. -/
  | due
  /-- A product. -/
  | taken
  deriving DecidableEq

/-- Some nodes lead from one slot to another.  A `*` or `/` stands behind a term, and `fit` is asked
of every term. -/
inductive Sequence.Fills (fit : Node → Prop) : List Node → Slot → Slot → Prop where
  | nil (slot : Slot) : Fills fit [] slot slot
  | term {node : Node} {rest : List Node} {before after : Slot} (hterm : node.isTerm = true)
    (hfit : fit node) (hrest : Fills fit rest .taken after) : Fills fit (node :: rest) before after
  | tight {op : Operator} {rest : List Node} {after : Slot} (hop : op.bindsTighter = true)
    (hrest : Fills fit rest .due after) : Fills fit (.operator op :: rest) .taken after
  | add {rest : List Node} {before after : Slot} (hbefore : before ≠ .due)
    (hrest : Fills fit rest .empty after) : Fills fit (.operator .add :: rest) before after

/-- Every `*` or `/` of a side stands between two terms, and every term is fit. -/
inductive Sequence.IsSum (fit : Node → Prop) : List Node → Prop where
  | of_fills {nodes : List Node} {after : Slot} (hfills : Fills fit nodes .empty after)
    (hafter : after ≠ .due) : IsSum fit nodes

namespace Sequence

variable {fit fit' : Node → Prop} {nodes left right : List Node} {before after : Slot}

namespace Fills

theorem multiply (h : Fills fit nodes .due after) :
    Fills fit (.operator .multiply :: nodes) .taken after := .tight rfl h

theorem append_iff : Fills fit (left ++ right) before after ↔
    ∃ between, Fills fit left before between ∧ Fills fit right between after := by
  constructor
  · intro h
    induction left generalizing before with
    | nil => exact ⟨before, .nil _, h⟩
    | cons node rest ih =>
      cases h with
      | term hterm hfit hrest => exact (ih hrest).imp fun _ h => ⟨.term hterm hfit h.1, h.2⟩
      | tight hop hrest => exact (ih hrest).imp fun _ h => ⟨.tight hop h.1, h.2⟩
      | add hbefore hrest => exact (ih hrest).imp fun _ h => ⟨.add hbefore h.1, h.2⟩
  · rintro ⟨between, hleft, hright⟩
    induction hleft with
    | nil => exact hright
    | term hterm hfit _ ih => exact .term hterm hfit (ih hright)
    | tight hop _ ih => exact .tight hop (ih hright)
    | add hbefore _ ih => exact .add hbefore (ih hright)

theorem append {between : Slot} (hleft : Fills fit left before between)
    (hright : Fills fit right between after) : Fills fit (left ++ right) before after :=
  append_iff.2 ⟨between, hleft, hright⟩

/-- One term. -/
theorem single {node : Node} (hterm : node.isTerm = true) (hfit : fit node) :
    Fills fit [node] before .taken := .term hterm hfit (.nil _)

/-- A single term, or what is no term at all. -/
theorem single_cases {node : Node} (h : Fills fit [node] before after) (hterm : node.isTerm = true) :
    after = .taken ∧ fit node := by
  cases h with
  | term _ hfit hrest => cases hrest; exact ⟨rfl, hfit⟩
  | _ => cases hterm

/-- Where a factor may follow, a summand may begin. -/
theorem empty_of_due (h : Fills fit nodes .due after) (hafter : after ≠ .due) :
    Fills fit nodes .empty after := by
  cases h with
  | nil => exact absurd rfl hafter
  | term hterm hfit hrest => exact .term hterm hfit hrest
  | add hbefore => exact absurd rfl hbefore

/-- A term may stand anywhere. -/
theorem of_term {node : Node} {before' : Slot} (h : Fills fit (node :: nodes) before' after)
    (hterm : node.isTerm = true) (before : Slot) : Fills fit (node :: nodes) before after := by
  cases h with
  | term _ hfit hrest => exact .term hterm hfit hrest
  | _ => cases hterm

theorem mono (hfit : ∀ node ∈ nodes, fit node → fit' node) (h : Fills fit nodes before after) :
    Fills fit' nodes before after := by
  induction h with
  | nil => exact .nil _
  | term hterm hnode _ ih =>
    exact .term hterm (hfit _ (.head _) hnode) (ih fun n hn => hfit n (.tail _ hn))
  | tight hop _ ih => exact .tight hop (ih fun n hn => hfit n (.tail _ hn))
  | add hbefore _ ih => exact .add hbefore (ih fun n hn => hfit n (.tail _ hn))

end Fills

namespace IsSum

theorem nil : IsSum fit [] := .of_fills (.nil _) (by decide)

theorem single {node : Node} (hterm : node.isTerm = true) (hfit : fit node) : IsSum fit [node] :=
  .of_fills (.single hterm hfit) (by decide)

/-- A `+` ends a summand, whatever stands before it. -/
theorem append_add_iff : IsSum fit (left ++ .operator .add :: right) ↔
    IsSum fit left ∧ IsSum fit right := by
  constructor
  · rintro ⟨h, hafter⟩
    obtain ⟨between, hleft, hright⟩ := Fills.append_iff.1 h
    cases hright with
    | term hterm => cases hterm
    | tight hop => cases hop
    | add hbetween hright => exact ⟨⟨hleft, hbetween⟩, ⟨hright, hafter⟩⟩
  · rintro ⟨⟨hleft, hbetween⟩, ⟨hright, hafter⟩⟩
    exact ⟨hleft.append (.add hbetween hright), hafter⟩

/-- A side is fit if its summands are. -/
theorem of_summands {side : List Node} (h : ∀ part ∈ summands side, IsSum fit part) :
    IsSum fit side := by
  have hparts : ∀ part ∈ side.splitOnP (Node.isOperator .add), IsSum fit part := by
    intro part hpart
    by_cases hempty : part = []
    · exact hempty ▸ nil
    · exact h part (List.mem_filter.2 ⟨hpart, by simpa using hempty⟩)
  induction side using splitOnP_induction (Node.isOperator .add) with
  | single part hpart =>
    rw [List.splitOnP_eq_singleton hpart] at hparts
    exact hparts part (.head _)
  | cons part separator rest hpart hseparator ih =>
    obtain rfl : separator = .operator .add := by
      cases separator <;> simp_all [Node.isOperator]
    rw [List.splitOnP_append_cons_of_forall_mem hpart _ hseparator] at hparts
    exact append_add_iff.2 ⟨hparts part (.head _),
      ih (fun p hp => hparts p (.tail _ (List.mem_filter.1 hp).1))
        fun p hp => hparts p (.tail _ hp)⟩

/-- The summands of a side that has been put together are fit if the side is. -/
theorem of_join {parts : List (List Node)} (h : IsSum fit (join parts)) {part : List Node}
    (hpart : part ∈ parts) : IsSum fit part := by
  by_cases hempty : part = []
  · exact hempty ▸ nil
  have hkept : part ∈ parts.filter fun summand => !summand.isEmpty :=
    List.mem_filter.2 ⟨hpart, by simpa using hempty⟩
  simp only [join] at h
  split at h
  · rename_i hnone
    rw [List.isEmpty_iff.1 hnone] at hkept
    cases hkept
  · generalize parts.filter (fun summand => !summand.isEmpty) = kept at h hkept
    induction kept with
    | nil => cases hkept
    | cons first rest ih =>
      by_cases hrest : rest = []
      · subst hrest
        rw [List.mem_singleton.1 hkept]
        simpa using h
      · rw [List.intercalate_cons_of_ne_nil hrest, List.append_assoc, List.singleton_append,
          append_add_iff] at h
        rcases List.mem_cons.1 hkept with rfl | hkept
        · exact h.1
        · exact ih h.2 hkept

end IsSum

/-- A product is fit if its factors are. -/
theorem fills_of_factors {product : List Node}
    (h : ∀ factor ∈ factors product, ∀ before, Fills fit factor before .taken) (before : Slot) :
    Fills fit product before .taken := by
  rw [factors] at h
  induction product using splitOnP_induction (Node.isOperator .multiply) generalizing before with
  | single part hpart =>
    rw [List.splitOnP_eq_singleton hpart] at h
    exact h part (.head _) before
  | cons part separator rest hpart hseparator ih =>
    obtain rfl : separator = .operator .multiply := by
      cases separator <;> simp_all [Node.isOperator]
    rw [List.splitOnP_append_cons_of_forall_mem hpart _ hseparator] at h
    exact (h part (.head _) before).append
      (.multiply (ih (fun factor hfactor => h factor (.tail _ hfactor)) .due))

end Sequence

/-! ## Fit nodes -/

/-- An exponent that is not written, or has a value. -/
def IsFitPower (p : List Node) : Prop := p = [] ∨ ∃ value, Sequence.evaluate p = .ok value

/-- A term in which nothing is missing, exponents of variables apart.  The contents of a parenthesis
and of a fraction are sums. -/
inductive Node.IsFit : Node → Prop where
  | variable (name : Char) (n : Number) (p : List Node) : IsFit (.group (some name) n p)
  | number {n : Number} {p : List Node} (hp : IsFitPower p) : IsFit (.group none n p)
  | paren {b p : List Node} {negative : Bool} {after : Slot}
    (hb : Sequence.Fills Node.IsFit b .empty after) (hafter : after ≠ .due) (hp : IsFitPower p) :
    IsFit (.paren b p negative)
  | fraction {t b : List Node} {afterTop afterBottom : Slot}
    (ht : Sequence.Fills Node.IsFit t .empty afterTop) (hafterTop : afterTop ≠ .due)
    (hb : Sequence.Fills Node.IsFit b .empty afterBottom) (hafterBottom : afterBottom ≠ .due)
    (hbottom : Sequence.hasVariable b = false → Sequence.valueAt (everywhere 0) b ≠ some 0) :
    IsFit (.fraction t b)

theorem Node.isFit_number {n : Number} {p : List Node} :
    (Node.group none n p).IsFit ↔ IsFitPower p :=
  ⟨fun h => by cases h with | number hp => exact hp, .number⟩

theorem Node.isFit_paren {b p : List Node} {negative : Bool} :
    (Node.paren b p negative).IsFit ↔ Sequence.IsSum Node.IsFit b ∧ IsFitPower p := by
  constructor
  · rintro (_ | _ | ⟨hb, hafter, hp⟩)
    exact ⟨⟨hb, hafter⟩, hp⟩
  · rintro ⟨⟨hb, hafter⟩, hp⟩
    exact .paren hb hafter hp

theorem Node.isFit_fraction {t b : List Node} :
    (Node.fraction t b).IsFit ↔ Sequence.IsSum Node.IsFit t ∧ Sequence.IsSum Node.IsFit b ∧
      (Sequence.hasVariable b = false → Sequence.valueAt (everywhere 0) b ≠ some 0) := by
  constructor
  · intro h
    cases h with
    | fraction ht hafterTop hb hafterBottom hbottom =>
      exact ⟨⟨ht, hafterTop⟩, ⟨hb, hafterBottom⟩, hbottom⟩
  · rintro ⟨⟨ht, hafterTop⟩, ⟨hb, hafterBottom⟩, hbottom⟩
    exact .fraction ht hafterTop hb hafterBottom hbottom

theorem IsFitPower.of_positiveIntegerPower? {p : List Node} {exponent : Nat}
    (h : positiveIntegerPower? p = some exponent) : IsFitPower p := by
  unfold positiveIntegerPower? at h
  split at h
  · cases h
  · split at h
    · rename_i value hvalue
      exact .inr ⟨value, hvalue⟩
    · cases h

theorem IsFitPower.of_wholePower {p : List Node} {exponent : Nat}
    (h : (if p.isEmpty then some 1 else positiveIntegerPower? p) = some exponent) :
    IsFitPower p := by
  split at h
  · rename_i hempty
    exact .inl (List.isEmpty_iff.1 hempty)
  · exact .of_positiveIntegerPower? h

theorem isFitPower_powerOf (exponent : Rat) : IsFitPower (Group.powerOf exponent) := by
  rw [Group.powerOf]
  split
  · exact .inl rfl
  · exact .inr ⟨_, WholePower.evaluate⟩

/-! ## Prepared nodes -/

/-- An exponent that cleaning leaves as it is. -/
def IsCleanPower (p : List Node) : Prop := Sequence.cleanedFrom true false false p = .ok p

theorem isCleanPower_nil : IsCleanPower [] := by simp [IsCleanPower, Sequence.cleanedFrom]

theorem isCleanPower_number (n : Number) : IsCleanPower [.group none n []] := by
  simp [IsCleanPower, Sequence.cleanedFrom, Node.cleaned, placeTerm, bind, Except.bind, pure,
    Except.pure]

theorem isCleanPower_powerOf (exponent : Rat) : IsCleanPower (Group.powerOf exponent) := by
  rw [Group.powerOf]
  split
  · exact isCleanPower_nil
  · exact isCleanPower_number _

mutual
/-- A node without differences, divisions and relations inside, whose exponents are clean.  The
exponents of variables all have a value, or none of them has one; `fits` says which. -/
def Node.IsPrepared (fits : Prop) : Node → Prop
  | .group letter _ p => IsCleanPower p ∧ (letter.isSome = true → (IsFitPower p ↔ fits))
  | .paren b p _ => Sequence.IsPrepared fits b ∧ IsCleanPower p
  | .fraction t b => Sequence.IsPrepared fits t ∧ Sequence.IsPrepared fits b
  | .operator op => op = .add ∨ op = .multiply
  | .relation _ => False

/-- A sequence of prepared nodes. -/
def Sequence.IsPrepared (fits : Prop) : List Node → Prop
  | [] => True
  | n :: ns => n.IsPrepared fits ∧ Sequence.IsPrepared fits ns
end

section

variable {fits : Prop}

theorem Node.isPrepared_number (n : Number) : (Node.group none n []).IsPrepared fits :=
  ⟨isCleanPower_nil, fun h => by cases h⟩

theorem Node.isPrepared_constant (value : Rat) : (Node.constant value).IsPrepared fits :=
  Node.isPrepared_number _

namespace Sequence

theorem isPrepared_iff {nodes : List Node} :
    IsPrepared fits nodes ↔ ∀ node ∈ nodes, node.IsPrepared fits := by
  induction nodes with
  | nil => simp [IsPrepared]
  | cons node rest ih => simp [IsPrepared, ih]

theorem isPrepared_append {left right : List Node} :
    IsPrepared fits (left ++ right) ↔ IsPrepared fits left ∧ IsPrepared fits right := by
  simp only [isPrepared_iff, List.mem_append, or_imp, forall_and]

theorem IsPrepared.of_mem_summands {side part : List Node} (h : IsPrepared fits side)
    (hpart : part ∈ summands side) : IsPrepared fits part :=
  isPrepared_iff.2 fun _ hnode => isPrepared_iff.1 h _ (mem_of_mem_summands hpart hnode).1

theorem IsPrepared.of_mem_factors {product factor : List Node} (h : IsPrepared fits product)
    (hfactor : factor ∈ factors product) : IsPrepared fits factor :=
  isPrepared_iff.2 fun _ hnode => isPrepared_iff.1 h _ (mem_of_mem_splitOnP _ hfactor hnode).1

theorem isPrepared_join {parts : List (List Node)} (h : ∀ part ∈ parts, IsPrepared fits part) :
    IsPrepared fits (join parts) := by
  refine isPrepared_iff.2 fun node hnode => ?_
  rcases mem_join hnode with ⟨part, hpart, hmem⟩ | rfl | rfl
  · exact isPrepared_iff.1 (h part hpart) node hmem
  · exact .inl rfl
  · exact Node.isPrepared_constant 0

end Sequence

/-! ## What has been evaluated -/

theorem ProductHasValue.fills {value : Node → Rat → Prop} {fit : Node → Prop} {nodes : List Node}
    {v : Rat} (h : ProductHasValue value nodes v)
    (hoperators : ∀ op, .operator op ∈ nodes → op = .add ∨ op = .multiply)
    (hfit : ∀ node ∈ nodes, ∀ w, value node w → node.isTerm = true ∧ fit node) (before : Slot) :
    Sequence.Fills fit nodes before .taken := by
  induction h with
  | term hnode =>
    obtain ⟨hterm, hfit⟩ := hfit _ (.head _) _ hnode
    exact .single hterm hfit
  | multiply _ hnode ih =>
    obtain ⟨hterm, hnodeFit⟩ := hfit _ (List.mem_append_right _ (.tail _ (.head _))) _ hnode
    exact (ih (fun op hop => hoperators op (List.mem_append_left _ hop))
      fun n hn => hfit n (List.mem_append_left _ hn)).append (.multiply (.single hterm hnodeFit))
  | divide _ _ _ => simpa using hoperators .divide (List.mem_append_right _ (.head _))

/-- A side with a value is fit if its terms are. -/
theorem SumHasValue.fills {value : Node → Rat → Prop} {fit : Node → Prop} {nodes : List Node}
    {v : Rat} (h : SumHasValue value nodes v)
    (hoperators : ∀ op, .operator op ∈ nodes → op = .add ∨ op = .multiply)
    (hfit : ∀ node ∈ nodes, ∀ w, value node w → node.isTerm = true ∧ fit node) (before : Slot) :
    Sequence.Fills fit nodes before .taken := by
  induction h with
  | product hproduct => exact hproduct.fills hoperators hfit _
  | add _ hproduct ih =>
    refine (ih (fun op hop => hoperators op (List.mem_append_left _ hop))
      fun n hn => hfit n (List.mem_append_left _ hn)).append (.add (by decide) ?_)
    exact hproduct.fills (fun op hop => hoperators op (List.mem_append_right _ (.tail _ hop)))
      (fun n hn => hfit n (List.mem_append_right _ (.tail _ hn))) _
  | subtract _ _ _ => simpa using hoperators .subtract (List.mem_append_right _ (.head _))

/-- A prepared term with a value is fit. -/
theorem Node.HasValue.isFit {node : Node} {w : Rat} (h : node.HasValue w)
    (hprepared : node.IsPrepared fits) : node.IsFit := by
  have hside {nodes : List Node} {v : Rat}
      (ih : ∀ node ∈ nodes, ∀ {w : Rat}, node.HasValue w → node.IsPrepared fits → node.IsFit)
      (hprepared : Sequence.IsPrepared fits nodes) (h : SumHasValue Node.HasValue nodes v) :
      Sequence.IsSum Node.IsFit nodes := by
    rw [Sequence.isPrepared_iff] at hprepared
    exact ⟨h.fills (fun op hop => hprepared _ hop)
      (fun n hn _ hw => ⟨hw.isTerm, ih n hn hw (hprepared n hn)⟩) _, by decide⟩
  induction node using Node.nested_induction generalizing w with
  | group letter n p =>
    cases h with
    | number => exact .number (.inl rfl)
    | power _ hexponent _ => exact .number (.inr ⟨_, Sequence.evaluate_eq_ok.2 hexponent⟩)
  | paren b p negative ihb =>
    cases h with
    | paren _ hb => exact Node.isFit_paren.2 ⟨hside (fun n hn => ihb n hn) hprepared.1 hb, .inl rfl⟩
    | parenPower _ _ hb hexponent _ =>
      exact Node.isFit_paren.2 ⟨hside (fun n hn => ihb n hn) hprepared.1 hb,
        .inr ⟨_, Sequence.evaluate_eq_ok.2 hexponent⟩⟩
  | fraction t b iht ihb =>
    cases h with
    | @fraction _ _ top bottom _ ht hb hv =>
      refine Node.isFit_fraction.2 ⟨hside (fun n hn => iht n hn) hprepared.1 ht,
        hside (fun n hn => ihb n hn) hprepared.2 hb, fun _ hzero => ?_⟩
      rw [Sequence.valueAt_of_evaluate _ (Sequence.evaluate_eq_ok.2 hb)] at hzero
      simp [Rational.divide, Option.some.inj hzero] at hv
  | operator op => cases h
  | relation r => cases h

/-- A prepared sequence that has been evaluated is fit. -/
theorem Sequence.fills_of_evaluate {nodes : List Node} {v : Rat}
    (hprepared : Sequence.IsPrepared fits nodes) (h : Sequence.evaluate nodes = .ok v)
    (before : Slot) : Sequence.Fills Node.IsFit nodes before .taken := by
  rw [Sequence.isPrepared_iff] at hprepared
  exact (Sequence.evaluate_eq_ok.1 h).fills (fun op hop => hprepared _ hop)
    (fun n hn _ hw => ⟨hw.isTerm, hw.isFit (hprepared n hn)⟩) before

theorem Sequence.isSum_of_evaluate {nodes : List Node} {v : Rat}
    (hprepared : Sequence.IsPrepared fits nodes) (h : Sequence.evaluate nodes = .ok v) :
    Sequence.IsSum Node.IsFit nodes := ⟨Sequence.fills_of_evaluate hprepared h _, by decide⟩

end

end OneUnknown
