import Mathlib.Data.List.Induction

/-!
# Labelled transition systems

Runs of a labelled step relation, the invariant rule, and the two run-level forms a development
over such a system states its results in: what holds of the state a run reaches
(`Run.invariant`), and what holds of a run's whole history when each step preserves it
(`Run.history`).

The second half is about deterministic systems, given by a step function that has no result where an
action cannot be taken. There a property of every state passed and a condition on every step taken
are two recursions over the labels, and `allStates_iff_allSteps` says when they agree: when a step
from a good state reaches a good state exactly if it meets the condition.
-/

namespace Lts

variable {σ ι : Type*}

/-! ## Runs -/

/-- A run: the labels taken, from a state to a state, the newest label last. -/
inductive Run (step : σ → ι → σ → Prop) (s : σ) : List ι → σ → Prop
  | nil : Run step s [] s
  | snoc {t u : σ} {ls : List ι} {l : ι} :
      Run step s ls t → step t l u → Run step s (ls ++ [l]) u

variable {step : σ → ι → σ → Prop}

/-- One step is a run of one label. -/
theorem Run.single {s t : σ} {l : ι} (h : step s l t) : Run step s [l] t :=
  Run.snoc Run.nil h

/-- A run of one action is a step. -/
theorem Run.of_single {s t : σ} {l : ι} (run : Run step s [l] t) : step s l t := by
  generalize hls : [l] = ls at run
  cases run with
  | nil => cases hls
  | @snoc u _ ms m before last =>
    rw [← List.nil_append [l], List.append_singleton_inj] at hls
    obtain ⟨rfl, rfl⟩ := hls
    generalize hms : ([] : List ι) = ms at before
    cases before with
    | nil => exact last
    | snoc _ _ => simp at hms

/-- A run continued by a run is a run. -/
theorem Run.trans {s t u : σ} {ls ms : List ι} (first : Run step s ls t)
    (second : Run step t ms u) : Run step s (ls ++ ms) u := by
  induction second with
  | nil => simpa only [List.append_nil] using first
  | snoc _ last ih =>
    rw [← List.append_assoc]
    exact Run.snoc ih last

/-- **The invariant rule**: what holds at the start and is kept by each step holds wherever a run
arrives. -/
theorem Run.invariant {P : σ → Prop} {s t : σ} {ls : List ι} (run : Run step s ls t)
    (start : P s) (keeps : ∀ {a l b}, P a → step a l b → P b) : P t := by
  induction run with
  | nil => exact start
  | snoc _ last ih => exact keeps ih last

/-- The invariant rule for runs that take only certain actions. -/
theorem Run.invariant_of_mem {P : σ → Prop} {s t : σ} {ls : List ι} (run : Run step s ls t)
    (start : P s) (keeps : ∀ {a l b}, l ∈ ls → P a → step a l b → P b) : P t := by
  induction run with
  | nil => exact start
  | snoc _ last ih =>
    refine keeps (List.mem_append_right _ (List.mem_singleton_self _)) (ih fun hl => ?_) last
    exact keeps (List.mem_append_left _ hl)

/-- The invariant rule with the labels in view: a relation between the labels taken so far and the
state reached, kept by each further step. -/
theorem Run.history {P : List ι → σ → Prop} {s t : σ} {ls : List ι} (run : Run step s ls t)
    (start : P [] s) (keeps : ∀ {ms a l b}, P ms a → step a l b → P (ms ++ [l]) b) : P ls t := by
  induction run with
  | nil => exact start
  | snoc _ last ih => exact keeps ih last

/-- A run of a list of actions in two parts passes a state in between. -/
theorem Run.split {s u : σ} (ls ms : List ι) (run : Run step s (ls ++ ms) u) :
    ∃ t, Run step s ls t ∧ Run step t ms u := by
  induction ms using List.reverseRecOn generalizing u with
  | nil => exact ⟨u, by simpa only [List.append_nil] using run, Run.nil⟩
  | append_singleton ms m ih =>
    rw [← List.append_assoc] at run
    generalize hls : ls ++ ms ++ [m] = all at run
    cases run with
    | nil => simp at hls
    | snoc before last =>
      obtain ⟨rfl, rfl⟩ := List.append_singleton_inj.mp hls
      obtain ⟨t, first, second⟩ := ih before
      exact ⟨t, first, Run.snoc second last⟩

/-- The runs of a step function: its evaluation over the actions is one. -/
theorem run_of_foldlM {f : σ → ι → Option σ} {ls : List ι} {s t : σ}
    (h : ls.foldlM f s = some t) : Run (fun s l t => f s l = some t) s ls t := by
  induction ls generalizing s with
  | nil => exact Option.some.inj h ▸ Run.nil
  | cons l ls ih =>
    rw [List.foldlM_cons] at h
    obtain ⟨u, hu, h⟩ := Option.bind_eq_some_iff.mp h
    have first : Run (fun s l t => f s l = some t) s [l] u := Run.single hu
    exact first.trans (ih h)

/-- The evaluation of a step function over the actions of a run of it. -/
theorem foldlM_of_run {f : σ → ι → Option σ} {ls : List ι} {s t : σ}
    (run : Run (fun s l t => f s l = some t) s ls t) : ls.foldlM f s = some t := by
  induction run with
  | nil => rfl
  | snoc _ last ih =>
    rw [List.foldlM_append, ih]
    simp only [List.foldlM_cons, List.foldlM_nil, Option.bind_eq_bind, Option.bind_some, last,
      Option.pure_def]

/-- What a sequence that succeeds consists of. -/
theorem of_bind_ok.{u, v} {ε : Type v} {α β : Type u} {x : Except ε α} {f : α → Except ε β} {b : β}
    (run : (x >>= f) = .ok b) : ∃ a, x = .ok a ∧ f a = .ok b := by
  cases x with
  | error e => cases run
  | ok a => exact ⟨a, rfl, run⟩

/-- **The progress rule**: where every action goes through from the states of an invariant and keeps
it, so does every list of actions. -/
theorem foldlM_goes {ε : Type*} {f : σ → ι → Except ε σ} {P : σ → Prop}
    (goes : ∀ s l, P s → ∃ t, f s l = .ok t ∧ P t) (ls : List ι) {s : σ} (start : P s) :
    ∃ t, ls.foldlM f s = .ok t ∧ P t := by
  induction ls generalizing s with
  | nil => exact ⟨s, rfl, start⟩
  | cons l ls ih =>
    obtain ⟨t, first, h⟩ := goes s l start
    obtain ⟨u, rest, h⟩ := ih h
    refine ⟨u, ?_, h⟩
    rw [List.foldlM_cons, first]
    exact rest

/-- **The homomorphism rule**: a map that takes each step of one step function to a step of another
takes its evaluation over any actions to the other's. -/
theorem foldlM_map {τ : Type*} {f : σ → ι → Option σ} {g : τ → ι → Option τ} (φ : σ → τ)
    (h : ∀ s l, (f s l).map φ = g (φ s) l) (ls : List ι) (s : σ) :
    (ls.foldlM f s).map φ = ls.foldlM g (φ s) := by
  induction ls generalizing s with
  | nil => rfl
  | cons l ls ih =>
    rw [List.foldlM_cons, List.foldlM_cons, ← h s l]
    cases f s l with
    | none => rfl
    | some t => exact ih t

/-! ## Deterministic systems -/

variable (f : σ → ι → Option σ)

/-- Every state passed satisfies `P`, the first one included, up to an action that cannot be
taken. -/
def AllStates (P : σ → Prop) : σ → List ι → Prop
  | s, [] => P s
  | s, l :: ls => P s ∧ ∀ t, f s l = some t → AllStates P t ls

/-- Every step taken meets the condition `C`, at the state it is taken from. -/
def AllSteps (C : σ → ι → Prop) : σ → List ι → Prop
  | _, [] => True
  | s, l :: ls => ∀ t, f s l = some t → C s l ∧ AllSteps C t ls

variable {f}

/-- What holds of every state passed holds of the first one. -/
theorem AllStates.first {P : σ → Prop} {ls : List ι} {s : σ} (h : AllStates f P s ls) : P s := by
  cases ls with
  | nil => exact h
  | cons l ls => exact h.1

/-- What holds of every state passed holds of the last one. -/
theorem AllStates.last {P : σ → Prop} {ls : List ι} {s t : σ} (h : AllStates f P s ls)
    (run : ls.foldlM f s = some t) : P t := by
  induction ls generalizing s with
  | nil => exact Option.some.inj run ▸ h
  | cons l ls ih =>
    rw [List.foldlM_cons] at run
    obtain ⟨u, step, run⟩ := Option.bind_eq_some_iff.mp run
    exact ih (h.2 u step) run

/-- The invariant rule: what every step keeps from the first state on holds of every state. -/
theorem allStates_of_invariant {I P : σ → Prop} (keeps : ∀ {s l t}, I s → f s l = some t → I t)
    (good : ∀ {s}, I s → P s) (ls : List ι) {s : σ} (inv : I s) : AllStates f P s ls := by
  induction ls generalizing s with
  | nil => exact good inv
  | cons l ls ih => exact ⟨good inv, fun _ step => ih (keeps inv step)⟩

/-- A step that meets the condition, before steps that do. -/
theorem AllSteps.cons {C : σ → ι → Prop} {s t : σ} {l : ι} {ls : List ι} (step : f s l = some t)
    (condition : C s l) (rest : AllSteps f C t ls) : AllSteps f C s (l :: ls) := by
  intro u there
  obtain rfl := Option.some.inj (step.symm.trans there)
  exact ⟨condition, rest⟩

/-- A condition on the actions alone, where all can be taken. -/
theorem allSteps_iff_forall_mem {C : ι → Prop} {ls : List ι} {s t : σ}
    (run : ls.foldlM f s = some t) : AllSteps f (fun _ => C) s ls ↔ ∀ l ∈ ls, C l := by
  induction ls generalizing s with
  | nil => exact iff_of_true trivial fun l hl => by cases hl
  | cons l ls ih =>
    rw [List.foldlM_cons] at run
    obtain ⟨u, step, run⟩ := Option.bind_eq_some_iff.mp run
    rw [List.forall_mem_cons]
    constructor
    · intro h
      obtain ⟨condition, rest⟩ := h u step
      exact ⟨condition, (ih run).mp rest⟩
    · rintro ⟨condition, rest⟩
      exact AllSteps.cons step condition ((ih run).mpr rest)

/-- Two conditions that agree on the steps that can be taken. -/
theorem allSteps_congr {C D : σ → ι → Prop} (h : ∀ {s l t}, f s l = some t → (C s l ↔ D s l))
    (ls : List ι) (s : σ) : AllSteps f C s ls ↔ AllSteps f D s ls := by
  induction ls generalizing s with
  | nil => exact Iff.rfl
  | cons l ls ih => exact forall₂_congr fun t step => and_congr (h step) (ih t)

/-- The invariant rule under a condition: what every step that meets it keeps holds of every state,
when all steps meet it. -/
theorem AllSteps.allStates {I P : σ → Prop} {C : σ → ι → Prop}
    (keeps : ∀ {s l t}, I s → C s l → f s l = some t → I t) (good : ∀ {s}, I s → P s) {ls : List ι}
    {s : σ} (h : AllSteps f C s ls) (inv : I s) : AllStates f P s ls := by
  induction ls generalizing s with
  | nil => exact good inv
  | cons l ls ih =>
    refine ⟨good inv, fun t step => ?_⟩
    obtain ⟨condition, rest⟩ := h t step
    exact ih rest (keeps inv condition step)

/-- **The exactness rule**: when a step from a good state reaches a good state exactly if it meets
the condition, every state passed from a good state is good exactly if all steps meet it. What
every step keeps may be used. -/
theorem allStates_iff_allSteps {I P : σ → Prop} {C : σ → ι → Prop}
    (keeps : ∀ {s l t}, I s → f s l = some t → I t)
    (stepIff : ∀ {s l t}, I s → P s → f s l = some t → (P t ↔ C s l)) (ls : List ι) {s : σ}
    (inv : I s) (h : P s) : AllStates f P s ls ↔ AllSteps f C s ls := by
  induction ls generalizing s with
  | nil => exact ⟨fun _ => trivial, fun _ => h⟩
  | cons l ls ih =>
    constructor
    · rintro ⟨_, rest⟩ t step
      have next : P t := (rest t step).first
      exact ⟨(stepIff inv h step).mp next, (ih (keeps inv step) next).mp (rest t step)⟩
    · intro met
      refine ⟨h, fun t step => ?_⟩
      obtain ⟨condition, rest⟩ := met t step
      exact (ih (keeps inv step) ((stepIff inv h step).mpr condition)).mpr rest

end Lts
