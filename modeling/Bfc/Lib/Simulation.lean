import Bfc.Lib.Transition

/-!
# What runs show

A system given by a step function is looked at from another level: `abs` is what a state is there,
and `view` is what a step from a state shows, as actions of the other level. Where each step is a
run of the other system over what it shows, from what its first state is to what its last one is, a
whole run is one too.
-/

namespace Lts

variable {σ ι α ο : Type*}

/-- What the actions show one after the other, up to one that cannot be taken. -/
def shows (f : σ → ι → Option σ) (view : σ → ι → List ο) : σ → List ι → List ο
  | _, [] => []
  | s, l :: ls => (f s l).elim [] fun t => view s l ++ shows f view t ls

variable {f : σ → ι → Option σ} {view : σ → ι → List ο}

theorem shows_cons {s t : σ} {l : ι} (step : f s l = some t) (ls : List ι) :
    shows f view s (l :: ls) = view s l ++ shows f view t ls := by
  rw [shows, step]
  rfl

/-- **The simulation rule**: from a state of an invariant, what a run that meets the condition shows
is a run of the other system, and the run keeps the invariant. -/
theorem simulation {spec : α → ο → α → Prop} (abs : σ → α) {I : σ → Prop} {C : σ → ι → Prop}
    (matched : ∀ {s l t}, I s → C s l → f s l = some t →
      I t ∧ Run spec (abs s) (view s l) (abs t)) {ls : List ι} {s t : σ} (inv : I s)
    (met : AllSteps f C s ls) (run : ls.foldlM f s = some t) :
    I t ∧ Run spec (abs s) (shows f view s ls) (abs t) := by
  induction ls generalizing s with
  | nil => exact Option.some.inj run ▸ ⟨inv, Run.nil⟩
  | cons l ls ih =>
    rw [List.foldlM_cons] at run
    obtain ⟨u, step, run⟩ := Option.bind_eq_some_iff.mp run
    obtain ⟨condition, rest⟩ := met u step
    obtain ⟨next, first⟩ := matched inv condition step
    obtain ⟨last, later⟩ := ih next rest run
    rw [shows_cons step]
    exact ⟨last, first.trans later⟩

/-- The simulation rule without an invariant: every step is matched. -/
theorem simulation_steps {spec : α → ο → α → Prop} (abs : σ → α)
    (matched : ∀ {s l t}, f s l = some t → Run spec (abs s) (view s l) (abs t)) {ls : List ι}
    {s t : σ} (run : ls.foldlM f s = some t) :
    Run spec (abs s) (shows f view s ls) (abs t) :=
  (simulation abs (I := fun _ => True) (C := fun _ _ => True)
    (fun _ _ step => ⟨trivial, matched step⟩) trivial
    ((allSteps_iff_forall_mem run).mpr fun _ _ => trivial) run).2

/-- A log that each step extends by what it shows is the log of what the run shows. -/
theorem log_eq_shows {β : Type*} (log : σ → List β) (note : ο → Option β)
    (noted : ∀ {s l t}, f s l = some t → log t = log s ++ (view s l).filterMap note)
    {ls : List ι} {s t : σ} (run : ls.foldlM f s = some t) :
    log t = log s ++ (shows f view s ls).filterMap note := by
  induction ls generalizing s with
  | nil =>
    obtain rfl := Option.some.inj run
    exact (List.append_nil _).symm
  | cons l ls ih =>
    rw [List.foldlM_cons] at run
    obtain ⟨u, step, run⟩ := Option.bind_eq_some_iff.mp run
    rw [ih run, noted step, shows_cons step, List.filterMap_append, List.append_assoc]

end Lts
