import OneUnknown.Trace
import Mathlib.Data.List.Forall2
/-!
# Computations that succeed

What a successful computation says about its parts: a sequence of steps succeeds if each step
does, and a computation over a list if it does for every element.
-/

namespace OneUnknown

variable {α β ε : Type}

theorem Except.bind_eq_ok {x : Except ε α} {next : α → Except ε β} {result : β} :
    x >>= next = .ok result ↔ ∃ value, x = .ok value ∧ next value = .ok result := by
  cases x <;> simp [bind, Except.bind]

theorem Except.pure_eq_ok {value result : α} :
    (pure value : Except ε α) = .ok result ↔ value = result := by
  simp [pure, Except.pure]

theorem Except.mapError_eq_ok {ε' : Type} {f : ε → ε'} {x : Except ε α} {result : α} :
    x.mapError f = .ok result ↔ x = .ok result := by
  cases x <;> simp [Except.mapError]

theorem searched_eq_ok {x : Option α} {found : α} : searched x = .ok found ↔ x = some found := by
  cases x <;> simp [searched]

/-- A computation over a list gives a list of the results. -/
theorem Except.forall₂_of_mapM {f : α → Except ε β} {l : List α} {results : List β}
    (h : l.mapM f = .ok results) : List.Forall₂ (fun a b => a ∈ l ∧ f a = .ok b) l results := by
  induction l generalizing results with
  | nil =>
    rw [List.mapM_nil, Except.pure_eq_ok] at h
    exact h ▸ .nil
  | cons a rest ih =>
    rw [List.mapM_cons, Except.bind_eq_ok] at h
    obtain ⟨b, hb, h⟩ := h
    obtain ⟨bs, hbs, h⟩ := Except.bind_eq_ok.1 h
    rw [Except.pure_eq_ok] at h
    exact h ▸ .cons ⟨.head _, hb⟩ ((ih hbs).imp fun _ _ hab => ⟨.tail _ hab.1, hab.2⟩)

theorem exists_of_forall₂ {R : α → β → Prop} {l : List α} {l' : List β}
    (h : List.Forall₂ R l l') {b : β} (hb : b ∈ l') : ∃ a, R a b := by
  induction h with
  | nil => cases hb
  | cons hab _ ih =>
    rcases List.mem_cons.1 hb with rfl | hb
    · exact ⟨_, hab⟩
    · exact ih hb

theorem exists_right_of_forall₂ {R : α → β → Prop} {l : List α} {l' : List β}
    (h : List.Forall₂ R l l') {a : α} (ha : a ∈ l) : ∃ b ∈ l', R a b := by
  induction h with
  | nil => cases ha
  | cons hab _ ih =>
    rcases List.mem_cons.1 ha with rfl | ha
    · exact ⟨_, .head _, hab⟩
    · obtain ⟨b, hb, hab⟩ := ih ha
      exact ⟨b, .tail _ hb, hab⟩

theorem Except.mapM_eq_ok_of_forall₂ {f : α → Except ε β} {l : List α} {results : List β}
    (h : List.Forall₂ (fun a b => f a = .ok b) l results) : l.mapM f = .ok results := by
  induction h with
  | nil => rfl
  | cons hab _ ih =>
    rw [List.mapM_cons, Except.bind_eq_ok]
    exact ⟨_, hab, Except.bind_eq_ok.2 ⟨_, ih, rfl⟩⟩

theorem Except.mapM_singleton_eq_ok {f : α → Except ε β} {a : α} {results : List β} :
    [a].mapM f = .ok results ↔ ∃ b, f a = .ok b ∧ results = [b] := by
  constructor
  · intro h
    cases Except.forall₂_of_mapM h with
    | cons hb hrest =>
      cases hrest with
      | nil => exact ⟨_, hb.2, rfl⟩
  · rintro ⟨b, hb, rfl⟩
    exact Except.mapM_eq_ok_of_forall₂ (.cons hb .nil)

/-- Every element has its result. -/
theorem Except.exists_result_of_mapM {f : α → Except ε β} {l : List α} {results : List β}
    (h : l.mapM f = .ok results) {a : α} (ha : a ∈ l) : ∃ b ∈ results, f a = .ok b :=
  (exists_right_of_forall₂ (Except.forall₂_of_mapM h) ha).imp fun _ hb => ⟨hb.1, hb.2.2⟩

theorem Except.exists_of_mem_mapM {f : α → Except ε β} {l : List α} {results : List β}
    (h : l.mapM f = .ok results) {b : β} (hb : b ∈ results) : ∃ a ∈ l, f a = .ok b :=
  exists_of_forall₂ (Except.forall₂_of_mapM h) hb

theorem Except.exists_mem_mapM_iff {f : α → Except ε β} {l : List α} {results : List β}
    {P : β → Prop}
    {Q : α → Prop} (hf : ∀ a ∈ l, ∀ b, f a = .ok b → (P b ↔ Q a))
    (h : l.mapM f = .ok results) : (∃ b ∈ results, P b) ↔ ∃ a ∈ l, Q a := by
  constructor
  · rintro ⟨b, hb, hP⟩
    obtain ⟨a, ha, hab⟩ := Except.exists_of_mem_mapM h hb
    exact ⟨a, ha, (hf a ha b hab).1 hP⟩
  · rintro ⟨a, ha, hQ⟩
    obtain ⟨b, hb, hab⟩ := Except.exists_result_of_mapM h ha
    exact ⟨b, hb, (hf a ha b hab).2 hQ⟩

theorem Traced.bind_eq_ok {x : Traced α} {next : α → Traced β} {result : β} :
    (x >>= next).outcome = .ok result ↔
      ∃ value, x.outcome = .ok value ∧ (next value).outcome = .ok result := by
  rw [Traced.outcome_bind]
  cases x.outcome <;> simp [Except.bind]

theorem Traced.outcome_bind_of_ok {x : Traced α} {next : α → Traced β} {value : α}
    (h : x.outcome = .ok value) : (x >>= next).outcome = (next value).outcome := by
  rw [Traced.outcome_bind, h]
  rfl

theorem Traced.outcome_bind_of_error {x : Traced α} {next : α → Traced β} {halt : Halt}
    (h : x.outcome = .error halt) : (x >>= next).outcome = .error halt := by
  rw [Traced.outcome_bind, h]
  rfl

/-- A sequence of computations that succeeds, with the stages it records. -/
theorem Traced.bind_cases {x : Traced α} {next : α → Traced β} {result : β}
    (h : (x >>= next).outcome = .ok result) :
    ∃ value, x.outcome = .ok value ∧ (next value).outcome = .ok result ∧
      (x >>= next).stages = x.stages ++ (next value).stages := by
  obtain ⟨value, hvalue, hresult⟩ := Traced.bind_eq_ok.1 h
  refine ⟨value, hvalue, hresult, ?_⟩
  obtain ⟨stages, outcome⟩ := x
  obtain rfl : outcome = .ok value := hvalue
  rfl

@[simp] theorem Traced.stages_ofExcept (x : Except SolveError α) :
    (Traced.ofExcept x).stages = [] := by
  cases x <;> rfl

@[simp] theorem Traced.stages_ofHalting (x : Except Halt α) : (Traced.ofHalting x).stages = [] := rfl

@[simp] theorem Traced.outcome_ofHalting (x : Except Halt α) : (Traced.ofHalting x).outcome = x := rfl

@[simp] theorem Traced.stages_stage (name : StageName) (nodes : List Node) :
    (Traced.stage name nodes).stages = [⟨name, nodes⟩] := rfl

@[simp] theorem Traced.stages_pure (value : α) : (pure value : Traced α).stages = [] := rfl

theorem Traced.ofExcept_eq_ok {x : Except SolveError α} {value : α} :
    (Traced.ofExcept x).outcome = .ok value ↔ x = .ok value := by
  cases x <;> simp [Traced.ofExcept]

/-! ## What a computation records -/

/-- A computation that records only sequences with one property, whether it succeeds or not, and
gives only results with another one. -/
structure Traced.Ensures (recorded : List Node → Prop) (result : α → Prop) (x : Traced α) :
    Prop where
  stages : ∀ stage ∈ x.stages, recorded stage.nodes
  outcome : ∀ value, x.outcome = .ok value → result value

namespace Traced.Ensures

variable {recorded : List Node → Prop} {result : α → Prop} {result' : β → Prop}

theorem of_pure {value : α} (h : result value) :
    (pure value : Traced α).Ensures recorded result where
  stages := by simp
  outcome := fun _ heq => Except.ok.inj heq ▸ h

theorem of_ofExcept {x : Except SolveError α} (h : ∀ value, x = .ok value → result value) :
    (Traced.ofExcept x).Ensures recorded result where
  stages := by simp
  outcome := fun value heq => h value (Traced.ofExcept_eq_ok.1 heq)

theorem of_ofHalting {x : Except Halt α} (h : ∀ value, x = .ok value → result value) :
    (Traced.ofHalting x).Ensures recorded result where
  stages := by simp
  outcome := h

theorem of_stage {name : StageName} {nodes : List Node} (h : recorded nodes) :
    (Traced.stage name nodes).Ensures recorded fun _ => True where
  stages := by simpa using h
  outcome := fun _ _ => trivial

theorem of_fail (reason : SolveError) :
    (Traced.fail reason : Traced α).Ensures recorded result where
  stages := fun _ hstage => by cases hstage
  outcome := fun _ heq => by cases heq

theorem of_tooDeep : (Traced.tooDeep : Traced α).Ensures recorded result where
  stages := fun _ hstage => by cases hstage
  outcome := fun _ heq => by cases heq

/-- What the second computation records and gives follows from the result of the first. -/
theorem bind {x : Traced α} {next : α → Traced β} (h : x.Ensures recorded result)
    (hnext : ∀ value, result value → (next value).Ensures recorded result') :
    (x >>= next).Ensures recorded result' := by
  obtain ⟨stages, outcome⟩ := x
  cases outcome with
  | error halt => exact ⟨h.stages, fun _ heq => by cases heq⟩
  | ok value =>
    have hvalue := hnext value (h.outcome value rfl)
    exact ⟨fun stage hstage =>
      (List.mem_append.1 hstage).elim (h.stages stage) (hvalue.stages stage), hvalue.outcome⟩

theorem mono {x : Traced α} {recorded' : List Node → Prop} {result' : α → Prop}
    (h : x.Ensures recorded result) (hrecorded : ∀ nodes, recorded nodes → recorded' nodes)
    (hresult : ∀ value, result value → result' value) : x.Ensures recorded' result' where
  stages := fun stage hstage => hrecorded _ (h.stages stage hstage)
  outcome := fun value heq => hresult value (h.outcome value heq)

end Traced.Ensures

end OneUnknown
