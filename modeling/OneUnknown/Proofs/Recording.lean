import OneUnknown.Proofs.Answers
import Mathlib.Data.List.Induction
import Mathlib.Data.List.Sort
/-!
# Recording many values

Values are recorded one at a time, for one unknown after another.  What comes of it is an ordered
set for every unknown: its values as they are kept, each once, where it was recorded first.

* `FirstOccurrences`: a list without its repetitions;
* `Solution.IsAscending`, `Solution.isAscending_record`: the unknowns are kept in order;
* `Solution.get?_record`: recording changes what is bound to one unknown, and nothing else;
* `Solution.recordAll`, `Solution.get?_recordAll`: many values, one after another;
* `Solution.recordAll_collects`: the result.
-/

namespace OneUnknown

/-! ## First occurrences -/

/-- A list without its repetitions: what is kept stands in the order in which it occurs first. -/
structure FirstOccurrences {α : Type} [DecidableEq α] (all kept : List α) : Prop where
  nodup : kept.Nodup
  mem_iff : ∀ a, a ∈ kept ↔ a ∈ all
  order : ∀ a ∈ kept, ∀ b ∈ kept, kept.idxOf a < kept.idxOf b ↔ all.idxOf a < all.idxOf b

namespace FirstOccurrences

variable {α : Type} [DecidableEq α] {all kept : List α} {a : α}

theorem singleton (a : α) : FirstOccurrences [a] [a] where
  nodup := List.nodup_singleton a
  mem_iff := fun _ => .rfl
  order := fun _ _ _ _ => .rfl

/-- One more element that has occurred before. -/
theorem concat_of_mem (h : FirstOccurrences all kept) (ha : a ∈ kept) :
    FirstOccurrences (all ++ [a]) kept where
  nodup := h.nodup
  mem_iff := fun b => by
    rw [List.mem_append, List.mem_singleton, ← h.mem_iff]
    exact ⟨.inl, fun hb => hb.elim id fun heq => heq ▸ ha⟩
  order := fun b hb c hc => by
    rw [List.idxOf_append_of_mem ((h.mem_iff b).1 hb), List.idxOf_append_of_mem ((h.mem_iff c).1 hc)]
    exact h.order b hb c hc

/-- One more element that has not occurred before. -/
theorem concat_of_notMem (h : FirstOccurrences all kept) (ha : a ∉ kept) :
    FirstOccurrences (all ++ [a]) (kept ++ [a]) where
  nodup := h.nodup.append (List.nodup_singleton a) (by simpa using ha)
  mem_iff := fun b => by rw [List.mem_append, List.mem_append, h.mem_iff]
  order := fun b hb c hc => by
    -- The new element is the last one in both lists.
    have hlast : (kept ++ [a]).idxOf a = kept.length ∧ (all ++ [a]).idxOf a = all.length :=
      ⟨by simp [List.idxOf_append_of_notMem ha],
        by simp [List.idxOf_append_of_notMem (mt (h.mem_iff a).2 ha)]⟩
    have hold {b : α} (hb : b ∈ kept) : (kept ++ [a]).idxOf b = kept.idxOf b ∧
        (all ++ [a]).idxOf b = all.idxOf b ∧ kept.idxOf b < kept.length ∧
        all.idxOf b < all.length :=
      have hb' := (h.mem_iff b).1 hb
      ⟨List.idxOf_append_of_mem hb, List.idxOf_append_of_mem hb', List.idxOf_lt_length_of_mem hb,
        List.idxOf_lt_length_of_mem hb'⟩
    rcases List.mem_append.1 hb with hb | hb <;> rcases List.mem_append.1 hc with hc | hc
    · rw [(hold hb).1, (hold hb).2.1, (hold hc).1, (hold hc).2.1]
      exact h.order b hb c hc
    · rw [List.mem_singleton.1 hc]
      have := hold hb
      omega
    · rw [List.mem_singleton.1 hb]
      have := hold hc
      omega
    · rw [List.mem_singleton.1 hb, List.mem_singleton.1 hc]
      simp

end FirstOccurrences

/-! ## Bindings -/

namespace Binding

/-- A binding of everything that was recorded: a single value if it was one value all the time, and
otherwise a set. -/
structure Collects (recorded : List Value) (binding : Binding) : Prop where
  values : FirstOccurrences recorded binding.values
  single_iff : (∃ value, binding = .single value) ↔
    ∃ value ∈ recorded, ∀ other ∈ recorded, other = value

variable {recorded : List Value} {binding : Binding} {value : Value}

theorem ofValues_eq_single_iff {values : List Value} :
    ofValues values = .single value ↔ values = [value] := by
  unfold ofValues
  split
  · simp
  · rename_i hne
    exact ⟨nofun, fun h => absurd h (hne value)⟩

theorem insert_eq (binding : Binding) (value : Value) : binding.insert value =
    ofValues (if value ∈ binding.values then binding.values else binding.values ++ [value]) := by
  rw [insert]
  split <;> rfl

/-- Values without repetitions are a single one if they are all the same. -/
theorem Collects.of_values {values : List Value} (h : FirstOccurrences recorded values) :
    (ofValues values).Collects recorded where
  values := values_ofValues.symm ▸ h
  single_iff := by
    simp only [ofValues_eq_single_iff]
    constructor
    · rintro ⟨value, rfl⟩
      exact ⟨value, (h.mem_iff value).1 (.head _),
        fun other hother => List.mem_singleton.1 ((h.mem_iff other).2 hother)⟩
    · rintro ⟨value, hvalue, hall⟩
      refine ⟨value, List.perm_singleton.1 ((List.perm_ext_iff_of_nodup h.nodup
        (List.nodup_singleton value)).2 fun other => ?_)⟩
      rw [h.mem_iff, List.mem_singleton]
      exact ⟨hall other, fun heq => heq ▸ hvalue⟩

theorem Collects.insert (h : binding.Collects recorded) (value : Value) :
    (binding.insert value).Collects (recorded ++ [value]) := by
  rw [insert_eq]
  refine .of_values ?_
  split
  · rename_i hmem
    exact h.values.concat_of_mem hmem
  · rename_i hnew
    exact h.values.concat_of_notMem hnew

/-- What is bound to an unknown after one more value was recorded for it. -/
def extended (binding : Option Binding) (value : Value) : Binding :=
  binding.elim (.single value) fun binding => binding.insert value

/-- What is bound to an unknown for which nothing else was recorded. -/
def collected (recorded : List Value) : Option Binding :=
  recorded.foldl (fun binding value => some (extended binding value)) none

theorem collected_concat (recorded : List Value) (value : Value) :
    collected (recorded ++ [value]) = some (extended (collected recorded) value) :=
  List.foldl_concat ..

theorem exists_collected (hne : recorded ≠ []) :
    ∃ binding, collected recorded = some binding ∧ binding.Collects recorded := by
  induction recorded using List.reverseRecOn with
  | nil => exact absurd rfl hne
  | append_singleton before value ih =>
    refine ⟨_, collected_concat before value, ?_⟩
    rcases eq_or_ne before [] with rfl | hbefore
    · exact .of_values (.singleton value)
    · obtain ⟨binding, heq, hcollects⟩ := ih hbefore
      rw [heq]
      exact hcollects.insert value

end Binding

/-! ## Solutions -/

namespace Solution

variable {s : Solution} {name other : Char} {value : Value}

/-- The unknowns of a solution ascend, so each has one binding. -/
def IsAscending (s : Solution) : Prop := s.bindings.Pairwise fun entry entry' => entry.1 < entry'.1

theorem fst_of_mem_recordIn {bindings : List (Char × Binding)} {entry : Char × Binding}
    (h : entry ∈ recordIn name value bindings) :
    entry.1 = name ∨ ∃ entry' ∈ bindings, entry'.1 = entry.1 := by
  induction bindings with
  | nil => exact .inl (congrArg Prod.fst (List.mem_singleton.1 h))
  | cons first rest ih =>
    rw [recordIn] at h
    split at h
    · rename_i heq
      rcases List.mem_cons.1 h with rfl | h
      · exact .inl heq.symm
      · exact .inr ⟨entry, .tail _ h, rfl⟩
    · split at h
      · rcases List.mem_cons.1 h with rfl | h
        · exact .inl rfl
        · exact .inr ⟨entry, h, rfl⟩
      · rcases List.mem_cons.1 h with rfl | h
        · exact .inr ⟨_, .head _, rfl⟩
        · rcases ih h with heq | ⟨entry', hentry', heq⟩
          · exact .inl heq
          · exact .inr ⟨entry', .tail _ hentry', heq⟩

theorem isAscending_record (h : s.IsAscending) (name : Char) (value : Value) :
    (s.record name value).IsAscending := by
  unfold IsAscending at h
  show (recordIn name value.recorded s.bindings).Pairwise _
  generalize s.bindings = bindings at h ⊢
  induction bindings with
  | nil => exact List.pairwise_singleton ..
  | cons first rest ih =>
    obtain ⟨firstName, binding⟩ := first
    obtain ⟨hfirst, hrest⟩ := List.pairwise_cons.1 h
    rw [recordIn]
    split
    · exact List.pairwise_cons.2 ⟨hfirst, hrest⟩
    · rename_i hne
      split
      · rename_i hlt
        refine List.pairwise_cons.2 ⟨List.forall_mem_cons.2 ⟨hlt, fun entry hentry => ?_⟩, h⟩
        exact Char.lt_trans hlt (hfirst entry hentry)
      · rename_i hnotlt
        refine List.pairwise_cons.2 ⟨fun entry hentry => ?_, ih hrest⟩
        rcases fst_of_mem_recordIn hentry with heq | ⟨entry', hentry', heq⟩
        · grind
        · exact heq ▸ hfirst entry' hentry'

theorem get?_unknowns_cons (entry : Char × Binding) (rest : List (Char × Binding)) :
    (unknowns (entry :: rest)).get? name =
      if entry.1 = name then some entry.2 else (unknowns rest).get? name := by
  simp only [get?, bindings, List.find?_cons]
  split <;> simp_all

/-- Behind an unknown that comes later nothing is bound. -/
theorem get?_eq_none_of_lt {bindings : List (Char × Binding)}
    (h : ∀ entry ∈ bindings, name < entry.1) : (unknowns bindings).get? name = none :=
  get?_eq_none_iff.2 fun _ hmem => Char.lt_irrefl _ (h _ hmem)

/-- Recording changes what is bound to one unknown, and nothing else. -/
theorem get?_record (h : s.IsAscending) :
    (s.record name value).get? other =
      if name = other then some (Binding.extended (s.get? name) value.recorded)
      else s.get? other := by
  have hs (name : Char) : s.get? name = (unknowns s.bindings).get? name := rfl
  unfold IsAscending at h
  rw [record, hs, hs]
  generalize s.bindings = bindings at h ⊢
  induction bindings with
  | nil =>
    rw [recordIn, get?_unknowns_cons]
    rfl
  | cons first rest ih =>
    obtain ⟨firstName, binding⟩ := first
    obtain ⟨hfirst, hrest⟩ := List.pairwise_cons.1 h
    rw [recordIn]
    split
    · rename_i heq
      subst heq
      rw [get?_unknowns_cons, get?_unknowns_cons, get?_unknowns_cons, if_pos rfl]
      split <;> rfl
    · rename_i hne
      split
      · rename_i hlt
        rw [get?_eq_none_of_lt (List.forall_mem_cons.2 ⟨hlt, fun entry hentry =>
          Char.lt_trans hlt (hfirst entry hentry)⟩), get?_unknowns_cons]
        rfl
      · simp only [get?_unknowns_cons, ih hrest, if_neg (Ne.symm hne)]
        by_cases hother : name = other
        · subst hother
          rw [if_pos rfl, if_pos rfl, if_neg (Ne.symm hne)]
        · rw [if_neg hother, if_neg hother]

theorem mem_bindings_iff (h : s.IsAscending) {binding : Binding} :
    (name, binding) ∈ s.bindings ↔ s.get? name = some binding := by
  have hs : s.get? name = (unknowns s.bindings).get? name := rfl
  unfold IsAscending at h
  rw [hs]
  generalize s.bindings = bindings at h ⊢
  induction bindings with
  | nil => simp [get?, bindings]
  | cons first rest ih =>
    obtain ⟨hfirst, hrest⟩ := List.pairwise_cons.1 h
    refine (List.mem_cons.trans (or_congr .rfl (ih hrest))).trans ?_
    rw [get?_unknowns_cons]
    split
    · rename_i heq
      subst heq
      rw [get?_eq_none_of_lt hfirst]
      simp [Prod.ext_iff, eq_comm]
    · rename_i hne
      simp [Prod.ext_iff, Ne.symm hne]

/-- Two collections in which the same is bound to every unknown are the same. -/
theorem bindings_ext {s' : Solution} (h : s.IsAscending) (h' : s'.IsAscending)
    (hget : ∀ name, s.get? name = s'.get? name) : s.bindings = s'.bindings := by
  have : Std.Irrefl fun entry entry' : Char × Binding => entry.1 < entry'.1 :=
    ⟨fun _ => Char.lt_irrefl _⟩
  have : Std.Antisymm fun entry entry' : Char × Binding => entry.1 < entry'.1 :=
    ⟨fun _ _ hlt hlt' => absurd hlt' (Char.lt_asymm hlt)⟩
  refine h.eq_of_mem_iff h' fun ⟨name, binding⟩ => ?_
  rw [mem_bindings_iff h, mem_bindings_iff h', hget]

/-! ## Many values -/

/-- Record values for unknowns, one after another. -/
def recordAll (s : Solution) (calls : List (Char × Value)) : Solution :=
  calls.foldl (fun s call => s.record call.1 call.2) s

/-- What is recorded for one unknown, as it is kept. -/
def recordedFor (name : Char) (calls : List (Char × Value)) : List Value :=
  (calls.filter fun call => call.1 = name).map fun call => call.2.recorded

variable {start : Solution} {calls : List (Char × Value)}

theorem recordAll_concat (start : Solution) (calls : List (Char × Value)) (call : Char × Value) :
    start.recordAll (calls ++ [call]) = (start.recordAll calls).record call.1 call.2 :=
  List.foldl_concat ..

theorem recordedFor_concat (name : Char) (calls : List (Char × Value)) (call : Char × Value) :
    recordedFor name (calls ++ [call]) =
      if call.1 = name then recordedFor name calls ++ [call.2.recorded]
      else recordedFor name calls := by
  unfold recordedFor
  split <;> simp_all

theorem isAscending_of_bindings (h : s.bindings = []) : s.IsAscending := by
  rw [IsAscending, h]
  exact .nil

theorem isAscending_recordAll (h : start.IsAscending) (calls : List (Char × Value)) :
    (start.recordAll calls).IsAscending := by
  induction calls generalizing start with
  | nil => exact h
  | cons call rest ih => exact ih (isAscending_record h call.1 call.2)

/-- What is bound to an unknown depends on what is recorded for it, and on nothing else. -/
theorem get?_recordAll (hstart : start.bindings = []) (calls : List (Char × Value)) (name : Char) :
    (start.recordAll calls).get? name = Binding.collected (recordedFor name calls) := by
  induction calls using List.reverseRecOn generalizing name with
  | nil =>
    show start.get? name = none
    rw [get?, hstart]
    rfl
  | append_singleton calls call ih =>
    have hascending := isAscending_recordAll (isAscending_of_bindings hstart) calls
    rw [recordAll_concat, get?_record hascending, recordedFor_concat]
    split
    · rename_i heq
      rw [ih, heq, Binding.collected_concat]
    · exact ih name

theorem recordAll_eq_unknowns (hne : calls ≠ []) :
    start.recordAll calls = unknowns (start.recordAll calls).bindings := by
  obtain ⟨before, call, rfl⟩ := List.eq_nil_or_concat' calls |>.resolve_left hne
  rw [recordAll_concat]
  rfl

/-- Recording values for unknowns, beginning with no unknown at all: in the order of the unknowns,
what was recorded for each is bound to it as it is kept, once and in the order in which it was
recorded first, and as a single value exactly if it was one value all the time.  How the values of
different unknowns follow one another makes no difference. -/
theorem recordAll_collects (hstart : start.bindings = []) (hne : calls ≠ []) :
    (∃ bindings, start.recordAll calls = unknowns bindings ∧
      bindings.Pairwise fun entry entry' => entry.1 < entry'.1) ∧
    (∀ name, recordedFor name calls = [] → (start.recordAll calls).get? name = none) ∧
    (∀ name, recordedFor name calls ≠ [] → ∃ binding,
      (start.recordAll calls).get? name = some binding ∧
        binding.Collects (recordedFor name calls)) ∧
    ∀ calls' : List (Char × Value), (∀ name, (calls'.filter fun call => call.1 = name) =
        calls.filter fun call => call.1 = name) →
      start.recordAll calls' = start.recordAll calls := by
  have hascending (calls : List (Char × Value)) : (start.recordAll calls).IsAscending :=
    isAscending_recordAll (isAscending_of_bindings hstart) calls
  refine ⟨⟨_, recordAll_eq_unknowns hne, hascending calls⟩, fun name hnone => ?_,
    fun name hsome => ?_, fun calls' hcalls => ?_⟩
  · rw [get?_recordAll hstart, hnone]
    rfl
  · rw [get?_recordAll hstart]
    exact Binding.exists_collected hsome
  · have hne' : calls' ≠ [] := by
      rintro rfl
      obtain ⟨call, rest, rfl⟩ := List.exists_cons_of_ne_nil hne
      simpa using hcalls call.1
    rw [recordAll_eq_unknowns hne', recordAll_eq_unknowns hne]
    refine congrArg unknowns (bindings_ext (hascending calls') (hascending calls) fun name => ?_)
    rw [get?_recordAll hstart, get?_recordAll hstart, recordedFor, recordedFor, hcalls]

/-- A third, recorded as it is and rounded, with other values before that and in between. -/
def thirdTwice (before between : List (Char × Value)) : List (Char × Value) :=
  before ++ ('x', .number (Number.ofRat (1 / 3))) :: between ++
    [('x', .number (Number.ofRat (333333333333 / 1000000000000)))]

/-- Rounded, the two thirds are one value, and it does not matter when `y` gets its answer. -/
theorem recordAll_collects_third_twice :
    ((truth true).bindings = [] ∧ thirdTwice [] [('y', .noSolution)] ≠ []) ∧
    (∃ binding, ((truth true).recordAll (thirdTwice [] [('y', .noSolution)])).get? 'x' =
        some binding ∧
      binding.Collects [.number (Number.ofRat (333333333333 / 1000000000000)),
        .number (Number.ofRat (333333333333 / 1000000000000))]) ∧
    ((truth true).recordAll (thirdTwice [] [('y', .noSolution)])).get? 'z' = none ∧
    (truth true).recordAll (thirdTwice [('y', .noSolution)] []) =
      (truth true).recordAll (thirdTwice [] [('y', .noSolution)]) := by
  have hne : thirdTwice [] [('y', .noSolution)] ≠ [] := nofun
  have hrecorded : recordedFor 'x' (thirdTwice [] [('y', .noSolution)]) =
      [.number (Number.ofRat (333333333333 / 1000000000000)),
        .number (Number.ofRat (333333333333 / 1000000000000))] := by
    decide +kernel
  have hstart : (truth true).bindings = [] := rfl
  obtain ⟨-, hnone, hsome, hinterleaved⟩ := recordAll_collects hstart hne
  refine ⟨⟨hstart, hne⟩, ?_, hnone 'z' rfl, hinterleaved _ fun name => ?_⟩
  · rw [← hrecorded]
    exact hsome 'x' (hrecorded ▸ nofun)
  · by_cases hx : 'x' = name
    · subst hx
      rfl
    · by_cases hy : 'y' = name
      · subst hy
        rfl
      · simp [thirdTwice, hx, hy]

end Solution

end OneUnknown
