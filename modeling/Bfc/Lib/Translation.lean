import Bfc.Lib.Transition

/-!
# Translations of one system into another

A system whose actions are programs of a finer one: `p s l` is the list of finer actions that `l`
makes when it is taken in the state `s`, and `programs` is what a list of actions makes, one after
the other. If the program of each action takes the finer system from the image of a state to the
image of the next, the program of a list does too (`programs_run`).

`programs_avoid_iff` reads a condition on the finer actions off the actions: no finer action of a
kind is made, exactly if no action of a kind is taken, when that is so of each action from a state
of an invariant, and the invariant holds as long as no such action is taken.
-/

namespace Lts

variable {σ τ ι μ : Type*}

/-- The programs of the actions, one after the other. -/
def programs (f : σ → ι → Option σ) (p : σ → ι → List μ) : σ → List ι → List μ
  | _, [] => []
  | s, l :: ls => p s l ++
    match f s l with
    | some t => programs f p t ls
    | none => []

variable {f : σ → ι → Option σ} {p : σ → ι → List μ} {s t : σ} {ls : List ι}

theorem programs_cons {l : ι} (step : f s l = some t) :
    programs f p s (l :: ls) = p s l ++ programs f p t ls := by
  simp only [programs, step]

/-- **The translation rule**: the program of a list of actions takes the finer system from the image
of the first state to the image of the last, when the program of each action does. -/
theorem programs_run {g : τ → μ → Option τ} {e : σ → τ}
    (translates : ∀ {s l t}, f s l = some t → (p s l).foldlM g (e s) = some (e t))
    (run : ls.foldlM f s = some t) : (programs f p s ls).foldlM g (e s) = some (e t) := by
  induction ls generalizing s with
  | nil =>
    obtain rfl := Option.some.inj run
    rfl
  | cons l ls ih =>
    rw [List.foldlM_cons] at run
    obtain ⟨u, step, run⟩ := Option.bind_eq_some_iff.mp run
    rw [programs_cons step, List.foldlM_append, translates step]
    exact ih run

/-- **The avoidance rule**: no finer action of a kind is made exactly if no action of a kind is
taken. -/
theorem programs_avoid_iff {I : σ → Prop} {C : ι → Prop} {D : μ → Prop}
    (stepIff : ∀ {s l t}, I s → f s l = some t → ((∀ m ∈ p s l, ¬D m) ↔ ¬C l))
    (keeps : ∀ {s l t}, I s → f s l = some t → ¬C l → I t) (inv : I s)
    (run : ls.foldlM f s = some t) :
    (∀ m ∈ programs f p s ls, ¬D m) ↔ ∀ l ∈ ls, ¬C l := by
  induction ls generalizing s with
  | nil => exact iff_of_true (fun m hm => by cases hm) fun l hl => by cases hl
  | cons l ls ih =>
    rw [List.foldlM_cons] at run
    obtain ⟨u, step, run⟩ := Option.bind_eq_some_iff.mp run
    rw [programs_cons step, List.forall_mem_append, List.forall_mem_cons, stepIff inv step]
    constructor
    · rintro ⟨first, rest⟩
      exact ⟨first, (ih (keeps inv step first) run).mp rest⟩
    · rintro ⟨first, rest⟩
      exact ⟨first, (ih (keeps inv step first) run).mpr rest⟩

end Lts
