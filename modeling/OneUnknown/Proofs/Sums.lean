import OneUnknown.Expression.Summands
import OneUnknown.Proofs.Reading
/-!
# Sums and products

The passes of the solver cut a side into summands, change the summands, and join them again.

* `Sequence.sumAt`: the value of a list of summands;
* `Sequence.sumAt_summands` and `Sequence.valueAt_join`: cutting and joining keep the value;
* `Sequence.summands_join`: what has been joined is cut at the same places;
* `Sequence.sumAt_map`, `Sequence.sumAt_filter`: summands that are changed or sorted one by one;
* `Sequence.valueAt_exchange`: a factor of a product is exchanged for a multiple of it.
-/

namespace OneUnknown

/-- Every list is free of separators, or begins with a part that is and a separator after it. -/
theorem splitOnP_induction {α : Type} (p : α → Bool) {motive : List α → Prop}
    (single : ∀ part, (∀ a ∈ part, p a = false) → motive part)
    (cons : ∀ part separator rest, (∀ a ∈ part, p a = false) → p separator = true → motive rest →
      motive (part ++ separator :: rest)) (l : List α) : motive l := by
  suffices h : ∀ part, (∀ a ∈ part, p a = false) → motive (part ++ l) from h [] (by simp)
  induction l with
  | nil =>
    intro part hpart
    simpa using single part hpart
  | cons a rest ih =>
    intro part hpart
    by_cases ha : p a = true
    · exact cons part a rest hpart ha (ih [] (by simp))
    · have := ih (part ++ [a]) fun b hb => by
        rcases List.mem_append.1 hb with hb | hb
        · exact hpart b hb
        · rw [List.mem_singleton.1 hb]
          exact eq_false_of_ne_true ha
      simpa using this

theorem exists_mem_splitOnP {α : Type} (p : α → Bool) {l : List α} {a : α} (h : a ∈ l)
    (ha : p a = false) : ∃ part ∈ l.splitOnP p, a ∈ part := by
  induction l using splitOnP_induction p with
  | single part hpart =>
    rw [List.splitOnP_eq_singleton hpart]
    exact ⟨part, .head _, h⟩
  | cons part separator rest hpart hseparator ih =>
    rw [List.splitOnP_append_cons_of_forall_mem hpart _ hseparator]
    rcases List.mem_append.1 h with h | h
    · exact ⟨part, .head _, h⟩
    · rcases List.mem_cons.1 h with rfl | h
      · rw [hseparator] at ha
        cases ha
      · obtain ⟨part', hpart', hmem⟩ := ih h
        exact ⟨part', .tail _ hpart', hmem⟩

namespace Sequence

/-- The value of a sum that is given by its summands. -/
def sumAt (point : Char → Rat) : List (List Node) → Option Rat
  | [] => some 0
  | part :: rest =>
    (valueAt point part).bind fun value => (sumAt point rest).map fun sum => value + sum

section

variable (point : Char → Rat)

/-! ## Cutting and joining -/

/-- The value of a sum is the sum of the values. -/
theorem valueAt_add (left right : List Node) :
    valueAt point (left ++ .operator .add :: right) =
      (valueAt point left).bind fun a => (valueAt point right).map fun b => a + b := by
  rw [valueAt_eq, valueAt_eq, valueAt_eq, read_append, read_cons]
  cases read point .start left with
  | expecting => simp [Reading.next, Node.valueAt, Reading.result]
  | stuck => simp [Reading.result]
  | holding total product =>
    simp only [Reading.next_operator, Reading.result, Option.bind_some]
    cases right with
    | nil => rfl
    | cons node rest =>
      -- After `+`, reading starts anew beside the sum before it.
      have hstart : (Reading.expecting total product .add).next point node =
          (Reading.start.within (total + product) 1).next point node := by
        simp only [Reading.start, Reading.within]
        cases h : node.valueAt point with
        | none => rw [Reading.next_of_none point h, Reading.next_of_none point h]
        | some value =>
          simp [Reading.next_of_valueAt point h, Reading.accept]
      rw [read_cons, hstart, ← read_cons, read_within point _ _ _ _ (.inl rfl)]
      cases read point .start (node :: rest) <;> simp [Reading.within, add_assoc]

@[simp] theorem sumAt_nil : sumAt point [] = some 0 := rfl

theorem sumAt_cons_eq_some {part : List Node} {rest : List (List Node)} {value : Rat} :
    sumAt point (part :: rest) = some value ↔
      ∃ a b, valueAt point part = some a ∧ sumAt point rest = some b ∧ a + b = value := by
  rw [sumAt]
  cases valueAt point part <;> cases sumAt point rest <;> simp

theorem sumAt_append_eq_some {left right : List (List Node)} {value : Rat} :
    sumAt point (left ++ right) = some value ↔
      ∃ a b, sumAt point left = some a ∧ sumAt point right = some b ∧ a + b = value := by
  induction left generalizing value with
  | nil => simp
  | cons part rest ih =>
    simp only [List.cons_append, sumAt_cons_eq_some, ih]
    constructor
    · rintro ⟨a, _, hpart, ⟨b, c, hrest, hright, rfl⟩, rfl⟩
      exact ⟨a + b, c, ⟨a, b, hpart, hrest, rfl⟩, hright, add_assoc a b c⟩
    · rintro ⟨_, c, ⟨a, b, hpart, hrest, rfl⟩, hright, rfl⟩
      exact ⟨a, b + c, hpart, ⟨b, c, hrest, hright, rfl⟩, (add_assoc a b c).symm⟩

theorem ne_nil_of_valueAt {nodes : List Node} {value : Rat}
    (h : valueAt point nodes = some value) : nodes ≠ [] := by
  rintro rfl
  simp [valueAt] at h

/-- The summands of a sum with a value all have one. -/
theorem exists_valueAt_of_sumAt {parts : List (List Node)} {value : Rat}
    (h : sumAt point parts = some value) {part : List Node} (hpart : part ∈ parts) :
    ∃ v, valueAt point part = some v := by
  induction parts generalizing value with
  | nil => cases hpart
  | cons first rest ih =>
    obtain ⟨a, b, hfirst, hrest, _⟩ := (sumAt_cons_eq_some point).1 h
    rcases List.mem_cons.1 hpart with rfl | hpart
    · exact ⟨a, hfirst⟩
    · exact ih hrest hpart

theorem filter_nonempty_of_sumAt {parts : List (List Node)} {value : Rat}
    (h : sumAt point parts = some value) :
    parts.filter (fun part => !part.isEmpty) = parts := by
  refine List.filter_eq_self.2 fun part hpart => ?_
  obtain ⟨v, hv⟩ := exists_valueAt_of_sumAt point h hpart
  simpa using ne_nil_of_valueAt point hv

theorem sumAt_splitOnP {side : List Node} {value : Rat} (h : valueAt point side = some value) :
    sumAt point (side.splitOnP (Node.isOperator .add)) = some value := by
  induction side using splitOnP_induction (Node.isOperator .add) generalizing value with
  | single part hpart =>
    rw [List.splitOnP_eq_singleton hpart]
    exact (sumAt_cons_eq_some point).2 ⟨value, 0, h, rfl, add_zero value⟩
  | cons part separator rest hpart hseparator ih =>
    obtain rfl : separator = .operator .add := by
      cases separator <;> simp_all [Node.isOperator]
    rw [valueAt_add] at h
    obtain ⟨a, ha, hsum⟩ := Option.bind_eq_some_iff.1 h
    obtain ⟨b, hb, rfl⟩ := Option.map_eq_some_iff.1 hsum
    rw [List.splitOnP_append_cons_of_forall_mem hpart _ hseparator]
    exact (sumAt_cons_eq_some point).2 ⟨a, b, ha, ih hb, rfl⟩

/-- The summands of a side add up to its value. -/
theorem sumAt_summands {side : List Node} {value : Rat} (h : valueAt point side = some value) :
    sumAt point (summands side) = some value := by
  have hsplit := sumAt_splitOnP point h
  rw [summands, filter_nonempty_of_sumAt point hsplit]
  exact hsplit

theorem valueAt_intercalate {parts : List (List Node)} {value : Rat} (hne : parts ≠ [])
    (h : sumAt point parts = some value) :
    valueAt point ([Node.operator .add].intercalate parts) = some value := by
  induction parts generalizing value with
  | nil => exact absurd rfl hne
  | cons part rest ih =>
    obtain ⟨a, b, hpart, hrest, rfl⟩ := (sumAt_cons_eq_some point).1 h
    cases rest with
    | nil =>
      obtain rfl : 0 = b := by simpa using hrest
      simpa using hpart
    | cons second rest =>
      rw [List.intercalate_cons_of_ne_nil (by simp), List.append_assoc, List.singleton_append,
        valueAt_add, hpart, ih (by simp) hrest]
      rfl

/-- Joined summands are worth their sum. -/
theorem valueAt_join {parts : List (List Node)} {value : Rat}
    (h : sumAt point parts = some value) : valueAt point (join parts) = some value := by
  simp only [join, filter_nonempty_of_sumAt point h]
  cases parts with
  | nil => simpa using h
  | cons part rest => simpa using valueAt_intercalate point (by simp) h

/-! ## Changing summands -/

/-- Summands of which each is exchanged for a multiple. -/
theorem sumAt_forall₂ {parts parts' : List (List Node)} {value : Rat} (factor : Rat)
    (hparts : List.Forall₂ (fun part part' => ∀ v, valueAt point part = some v →
      valueAt point part' = some (factor * v)) parts parts')
    (h : sumAt point parts = some value) : sumAt point parts' = some (factor * value) := by
  induction hparts generalizing value with
  | nil =>
    obtain rfl : 0 = value := by simpa using h
    simp
  | cons hpart _ ih =>
    obtain ⟨a, b, ha, hb, rfl⟩ := (sumAt_cons_eq_some point).1 h
    exact (sumAt_cons_eq_some point).2 ⟨_, _, hpart a ha, ih hb, (mul_add factor a b).symm⟩

/-- Summands that are all multiplied by the same number. -/
theorem sumAt_map {parts : List (List Node)} {value : Rat} (change : List Node → List Node)
    (factor : Rat)
    (hchange : ∀ part ∈ parts, ∀ v, valueAt point part = some v →
      valueAt point (change part) = some (factor * v))
    (h : sumAt point parts = some value) :
    sumAt point (parts.map change) = some (factor * value) :=
  sumAt_forall₂ point factor
    (List.forall₂_map_right_iff.2 (List.forall₂_same.2 fun part hpart => hchange part hpart)) h

/-- Summands of which each is exchanged for several with the same sum. -/
theorem sumAt_flatten {parts : List (List Node)} {sums : List (List (List Node))} {value : Rat}
    (hparts : List.Forall₂ (fun part sum => ∀ v, valueAt point part = some v →
      sumAt point sum = some v) parts sums)
    (h : sumAt point parts = some value) : sumAt point sums.flatten = some value := by
  induction hparts generalizing value with
  | nil => exact h
  | cons hpart _ ih =>
    obtain ⟨a, b, ha, hb, rfl⟩ := (sumAt_cons_eq_some point).1 h
    exact (sumAt_append_eq_some point).2 ⟨a, b, hpart a ha, ih hb, rfl⟩

/-- Summands that are sorted into two groups. -/
theorem sumAt_filter {parts : List (List Node)} {value : Rat} (p : List Node → Bool)
    (h : sumAt point parts = some value) :
    ∃ a b, sumAt point (parts.filter p) = some a ∧
      sumAt point (parts.filter fun part => !p part) = some b ∧ a + b = value := by
  induction parts generalizing value with
  | nil => exact ⟨0, 0, rfl, rfl, by simpa using h⟩
  | cons part rest ih =>
    obtain ⟨first, others, hpart, hrest, rfl⟩ := (sumAt_cons_eq_some point).1 h
    obtain ⟨a, b, ha, hb, rfl⟩ := ih hrest
    by_cases hp : p part = true
    · refine ⟨first + a, b, ?_, ?_, add_assoc first a b⟩
      · rw [List.filter_cons_of_pos hp]
        exact (sumAt_cons_eq_some point).2 ⟨first, a, hpart, ha, rfl⟩
      · simpa [hp] using hb
    · refine ⟨a, first + b, ?_, ?_, add_left_comm a first b⟩
      · simpa [hp] using ha
      · rw [List.filter_cons_of_pos (by simpa using hp)]
        exact (sumAt_cons_eq_some point).2 ⟨first, b, hpart, hb, rfl⟩

/-! ## Exchanging factors -/

/-- Everything in a sequence with a value is a term with a value or an operator. -/
theorem valueAt_of_mem {nodes : List Node} {value : Rat} (h : valueAt point nodes = some value)
    {node : Node} (hnode : node ∈ nodes) :
    (∃ v, node.valueAt point = some v) ∨ ∃ op, node = .operator op := by
  obtain ⟨pre, post, rfl⟩ := List.append_of_mem hnode
  cases hvalue : node.valueAt point with
  | some v => exact .inl ⟨v, rfl⟩
  | none =>
    refine .inr ?_
    by_contra hoperator
    have hstuck (s : Reading) : s.next point node = .stuck := by
      cases s <;> cases node <;> simp_all [Reading.next]
    simp [valueAt_eq, hstuck, Reading.result] at h

/-- In a product, a factor is exchanged for some factors that are worth a multiple of it. -/
theorem valueAt_exchange (pre : List Node) {post factors : List Node} {node : Node}
    {v value : Rat} (multiple : Rat) (hproduct : IsProduct (pre ++ node :: post))
    (hfactors : IsProduct factors) (hdivide : .operator .divide ∉ pre) (hnode : node.valueAt point = some v)
    (hvalue : valueAt point factors = some (multiple * v))
    (h : valueAt point (pre ++ node :: post) = some value) :
    valueAt point (pre ++ factors ++ post) = some (multiple * value) := by
  have hpre : IsProduct pre := fun op hop => hproduct op (List.mem_append_left _ hop)
  have hpost : IsProduct post := fun op hop =>
    hproduct op (List.mem_append_right _ (.tail _ hop))
  obtain ⟨total, product, hread, rfl⟩ := (valueAt_eq_some_iff point _ _).1 h
  rw [read_append, read_cons, Reading.next_of_valueAt point hnode] at hread
  -- The factors are accepted like one term that is worth the multiple.
  have haccept : read point .start (pre ++ factors) =
      ((read point .start pre).accept v).within 0 multiple := by
    rw [read_append]
    by_cases hnil : pre = []
    · subst hnil
      rw [read_nil, Reading.start, read_product point hfactors hvalue 0 0 (by simp)]
      simp [Reading.accept, Reading.within]
    · cases hs : read point .start pre with
      | holding | stuck => simp [hs, Reading.accept] at hread
      | expecting t p op =>
        have hmem := operator_of_read point hs hnil
        obtain rfl : op = .multiply := by
          have htighter := hpre op hmem
          cases op <;> simp_all [Operator.bindsTighter]
        have ht : t = 0 := by
          have htotal := total_read_start point hpre
          rwa [hs] at htotal
        rw [read_product point hfactors hvalue t p (by simp)]
        simp [Reading.accept, Reading.within, ht, mul_left_comm]
  rw [valueAt_eq, read_append, haccept,
    read_within point _ _ _ _ (.inr ⟨Reading.inProduct_accept v _, hpost⟩), hread]
  simp [Reading.within, Reading.result, mul_add]

/-! ## Factors -/

/-- The value of a product that is given by its factors. -/
def productAt (parts : List (List Node)) : Option Rat :=
  match parts with
  | [] => some 1
  | part :: rest =>
    (valueAt point part).bind fun value => (productAt rest).map fun product => value * product

theorem productAt_cons_eq_some {part : List Node} {rest : List (List Node)} {value : Rat} :
    productAt point (part :: rest) = some value ↔
      ∃ a b, valueAt point part = some a ∧ productAt point rest = some b ∧ a * b = value := by
  rw [productAt]
  cases valueAt point part <;> cases productAt point rest <;> simp

/-- The value of a product of two products is the product of their values. -/
theorem valueAt_multiply {left right : List Node} (hleft : IsProduct left)
    (hright : IsProduct right) {value : Rat}
    (h : valueAt point (left ++ .operator .multiply :: right) = some value) :
    ∃ a b, valueAt point left = some a ∧ valueAt point right = some b ∧ a * b = value := by
  obtain ⟨t, p, hread, rfl⟩ := (valueAt_eq_some_iff point _ _).1 h
  rw [read_append, read_cons] at hread
  cases hs : read point .start left with
  | expecting => simp [hs, Reading.next, Node.valueAt] at hread
  | stuck => simp [hs] at hread
  | holding total product =>
    rw [hs, Reading.next_operator] at hread
    cases right with
    | nil => simp at hread
    | cons node rest =>
      cases hnode : node.valueAt point with
      | none => simp [hnode, Reading.next_of_none] at hread
      | some first =>
        have hrest : IsProduct rest := fun op hop => hright op (.tail _ hop)
        have htotal : total = 0 := by
          have := total_read_start point hleft
          rwa [hs] at this
        rw [read_cons, Reading.next_of_valueAt point hnode, Reading.accept] at hread
        have hwithin := read_within point total product (.holding 0 first) rest
          (.inr ⟨trivial, hrest⟩)
        rw [Reading.within, mul_zero, add_zero, hread] at hwithin
        cases hright' : read point (.holding 0 first) rest with
        | expecting => simp [hright', Reading.within] at hwithin
        | stuck => simp [hright', Reading.within] at hwithin
        | holding t' p' =>
          rw [hright', Reading.within] at hwithin
          obtain ⟨rfl, rfl⟩ := Reading.holding.inj hwithin
          refine ⟨product, t' + p', ?_, ?_, by rw [htotal]; ring⟩
          · simp [valueAt_eq, hs, Reading.result, htotal]
          · simp [valueAt_eq, Reading.start, Reading.next_of_valueAt point hnode, Reading.accept,
              hright', Reading.result]

/-- The factors of a product are worth its value. -/
theorem productAt_factors {product : List Node} (hproduct : IsProduct product) {value : Rat}
    (h : valueAt point product = some value) :
    productAt point (factors product) = some value := by
  rw [factors]
  induction product using splitOnP_induction (Node.isOperator .multiply)
    generalizing value with
  | single part hpart =>
    rw [List.splitOnP_eq_singleton hpart]
    exact (productAt_cons_eq_some point).2 ⟨value, 1, h, rfl, mul_one value⟩
  | cons part separator rest hpart hseparator ih =>
    obtain rfl : separator = .operator .multiply := by
      cases separator <;> simp_all [Node.isOperator]
    have hleft : IsProduct part := fun op hop => hproduct op (List.mem_append_left _ hop)
    have hright : IsProduct rest := fun op hop =>
      hproduct op (List.mem_append_right _ (.tail _ hop))
    obtain ⟨a, b, ha, hb, rfl⟩ := valueAt_multiply point hleft hright h
    rw [List.splitOnP_append_cons_of_forall_mem hpart _ hseparator]
    exact (productAt_cons_eq_some point).2 ⟨a, b, ha, ih hright hb, rfl⟩

/-! ## The parts of a side -/

theorem mem_of_mem_splitOnP {α : Type} (p : α → Bool) {l part : List α}
    (h : part ∈ l.splitOnP p) {a : α} (ha : a ∈ part) : a ∈ l ∧ p a = false := by
  induction l using splitOnP_induction p with
  | single whole hwhole =>
    rw [List.splitOnP_eq_singleton hwhole, List.mem_singleton] at h
    subst h
    exact ⟨ha, hwhole a ha⟩
  | cons first separator rest hfirst hseparator ih =>
    rw [List.splitOnP_append_cons_of_forall_mem hfirst _ hseparator] at h
    rcases List.mem_cons.1 h with rfl | h
    · exact ⟨List.mem_append_left _ ha, hfirst a ha⟩
    · exact ⟨List.mem_append_right _ (.tail _ (ih h).1), (ih h).2⟩

theorem mem_of_mem_summands {side part : List Node} (h : part ∈ summands side) {node : Node}
    (hnode : node ∈ part) : node ∈ side ∧ node ≠ .operator .add := by
  have := mem_of_mem_splitOnP _ (List.mem_filter.1 h).1 hnode
  refine ⟨this.1, ?_⟩
  rintro rfl
  simp [Node.isOperator] at this

theorem mem_intercalate {α : Type} {separator : List α} {parts : List (List α)} {a : α}
    (h : a ∈ separator.intercalate parts) : a ∈ separator ∨ ∃ part ∈ parts, a ∈ part := by
  induction parts with
  | nil => simp at h
  | cons part rest ih =>
    by_cases hrest : rest = []
    · rw [hrest, List.intercalate_singleton] at h
      exact .inr ⟨part, .head _, h⟩
    · rw [List.intercalate_cons_of_ne_nil hrest, List.append_assoc] at h
      rcases List.mem_append.1 h with h | h
      · exact .inr ⟨part, .head _, h⟩
      · rcases List.mem_append.1 h with h | h
        · exact .inl h
        · exact (ih h).imp_right fun hrest => hrest.imp fun _ ha => ⟨.tail _ ha.1, ha.2⟩

/-- What stands in joined summands is one of their nodes, a `+`, or a zero that was put in. -/
theorem mem_join {parts : List (List Node)} {node : Node} (h : node ∈ join parts) :
    (∃ part ∈ parts, node ∈ part) ∨ node = .operator .add ∨ node = Node.constant 0 := by
  simp only [join] at h
  split at h
  · exact .inr (.inr (List.mem_singleton.1 h))
  · rcases mem_intercalate h with h | ⟨part, hpart, h⟩
    · exact .inr (.inl (List.mem_singleton.1 h))
    · exact .inl ⟨part, (List.mem_filter.1 hpart).1, h⟩

end

/-! ## Cutting what has been joined -/

/-- What is found between `+` operators. -/
def IsSummand (part : List Node) : Prop := part ≠ [] ∧ .operator .add ∉ part

theorem isSummand_of_mem_summands {side part : List Node} (h : part ∈ summands side) :
    IsSummand part :=
  ⟨by simpa using (List.mem_filter.1 h).2, fun hadd => (mem_of_mem_summands h hadd).2 rfl⟩

/-- Summands that have been joined are cut apart again, and there is a zero where there was none. -/
theorem summands_join {parts : List (List Node)} (h : ∀ part ∈ parts, IsSummand part) :
    summands (join parts) = if parts = [] then [[Node.constant 0]] else parts := by
  have hkept : parts.filter (fun part => !part.isEmpty) = parts :=
    List.filter_eq_self.2 fun part hpart => by simpa using (h part hpart).1
  have hadd : Node.isOperator .add = (· == Node.operator .add) := by
    funext node
    rw [Bool.eq_iff_iff]
    cases node <;> simp [Node.isOperator]
  simp only [join, hkept, List.isEmpty_iff]
  split
  · rfl
  · rename_i hne
    rw [summands, hadd, ← List.splitOn_eq_splitOnP,
      List.splitOn_intercalate _ (fun part hpart => (h part hpart).2) hne, hkept]

/-! ## What holds of all parts -/

/-- What holds of some parts, of a zero and of sums of such parts holds of the parts joined. -/
theorem join_induction {motive : List Node → Prop} (zero : motive [Node.constant 0])
    (add : ∀ left right, motive left → motive right → motive (left ++ .operator .add :: right))
    {parts : List (List Node)} (h : ∀ part ∈ parts, motive part) : motive (join parts) := by
  have hkept : ∀ part ∈ parts.filter fun part => !part.isEmpty, motive part :=
    fun part hpart => h part (List.mem_filter.1 hpart).1
  simp only [join]
  generalize (parts.filter fun part => !part.isEmpty) = kept at hkept
  induction kept with
  | nil => exact zero
  | cons part rest ih =>
    obtain ⟨hpart, hrest⟩ := List.forall_mem_cons.1 hkept
    cases rest with
    | nil => simpa using hpart
    | cons second rest =>
      have hjoined := ih hrest
      rw [if_neg (by simp)] at hjoined ⊢
      rw [List.intercalate_cons_of_ne_nil (by simp), List.append_assoc, List.singleton_append]
      exact add _ _ hpart hjoined

/-- What holds of a sequence, and on both sides of every separator if it holds of the whole, holds
of the parts between separators. -/
theorem forall_mem_splitOnP {motive : List Node → Prop} {p : Node → Bool}
    (parts : ∀ left separator right, p separator = true →
      motive (left ++ separator :: right) → motive left ∧ motive right)
    {nodes : List Node} (h : motive nodes) : ∀ part ∈ nodes.splitOnP p, motive part := by
  induction nodes using splitOnP_induction p with
  | single part hpart =>
    rw [List.splitOnP_eq_singleton hpart]
    exact List.forall_mem_singleton.2 h
  | cons part separator rest hpart hseparator ih =>
    obtain ⟨hleft, hright⟩ := parts _ _ _ hseparator h
    rw [List.splitOnP_append_cons_of_forall_mem hpart _ hseparator]
    exact List.forall_mem_cons.2 ⟨hleft, ih hright⟩

theorem eq_operator_of_isOperator {op : Operator} {node : Node} (h : node.isOperator op = true) :
    node = .operator op := by
  cases node <;> simp_all [Node.isOperator]

/-- What holds of a sum, and of the parts of every sum of which it holds, holds of its summands. -/
theorem forall_mem_summands {motive : List Node → Prop}
    (parts : ∀ left right, motive (left ++ .operator .add :: right) → motive left ∧ motive right)
    {side : List Node} (h : motive side) : ∀ part ∈ summands side, motive part :=
  fun part hpart => forall_mem_splitOnP
    (fun _ _ _ hseparator => eq_operator_of_isOperator hseparator ▸ parts _ _) h part
    (List.mem_filter.1 hpart).1

end Sequence

end OneUnknown
