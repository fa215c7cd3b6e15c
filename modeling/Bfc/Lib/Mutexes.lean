import Mathlib.Data.List.Basic

/-!
# Mutexes of a thread

A thread holds mutexes and works on a state. The mutexes are not recursive: a thread that locks one
that it holds already goes no further, which is `none` here. Other threads let go of a mutex sooner
or later, so that they only make a thread wait.

`Passes` says of what a thread does that it gets to the end, holding then what it held before, with
a condition on the state. Nothing is locked out of order in a sequence whose parts pass: that is
`Passes.bind`.
-/

namespace Mutexes

variable {μ σ : Type*}

/-- The mutexes that a thread holds, and the state that it works on. -/
structure Thread (μ σ : Type*) where
  held : List μ := []
  shared : σ

section Thread

variable [DecidableEq μ]

def Thread.lock (t : Thread μ σ) (m : μ) : Option (Thread μ σ) :=
  if m ∈ t.held then none else some { t with held := m :: t.held }

def Thread.unlock (t : Thread μ σ) (m : μ) : Thread μ σ := { t with held := t.held.erase m }

/-- A critical section. -/
def Thread.critical (t : Thread μ σ) (m : μ) (f : σ → σ) : Option (Thread μ σ) := do
  let t ← t.lock m
  some ({ t with shared := f t.shared }.unlock m)

theorem critical_of_held {t : Thread μ σ} {m : μ} (h : m ∈ t.held) (f : σ → σ) :
    t.critical m f = none := by
  rw [Thread.critical, Thread.lock, if_pos h, Option.bind_eq_bind, Option.bind_none]

theorem critical_of_free {t : Thread μ σ} {m : μ} (h : m ∉ t.held) (f : σ → σ) :
    t.critical m f = some { t with shared := f t.shared } := by
  rw [Thread.critical, Thread.lock, if_neg h, Option.bind_eq_bind, Option.bind_some, Thread.unlock,
    List.erase_cons_head]

end Thread

/-- The thread gets to the end, with the mutexes that it held, and the state satisfies `Q`. -/
def Passes (r : Option (Thread μ σ)) (held : List μ) (Q : σ → Prop) : Prop :=
  ∃ s, r = some { held := held, shared := s } ∧ Q s

variable {held : List μ} {P Q : σ → Prop}

theorem Passes.here {s : σ} (h : Q s) : Passes (some { held := held, shared := s }) held Q :=
  ⟨s, rfl, h⟩

theorem Passes.critical [DecidableEq μ] {s : σ} {m : μ} (free : m ∉ held) {f : σ → σ}
    (h : Q (f s)) : Passes (Thread.critical { held := held, shared := s } m f) held Q :=
  ⟨f s, critical_of_free free f, h⟩

/-- **The sequence rule.** -/
theorem Passes.bind {r : Option (Thread μ σ)} {k : Thread μ σ → Option (Thread μ σ)}
    (h : Passes r held P) (next : ∀ s, P s → Passes (k { held := held, shared := s }) held Q) :
    Passes (r >>= k) held Q := by
  obtain ⟨s, rfl, p⟩ := h
  exact next s p

/-- **The rule for a list of actions**, with an invariant that may follow what has been done. -/
theorem Passes.foldlM {α τ : Type*} {act : Thread μ σ → α → Option (Thread μ σ)}
    {follow : τ → α → τ} {I : τ → σ → Prop} {as : List α} {x : τ} {s : σ} (start : I x s)
    (each : ∀ a ∈ as, ∀ x s, I x s →
      Passes (act { held := held, shared := s } a) held (I (follow x a))) :
    Passes (as.foldlM act { held := held, shared := s }) held (I (as.foldl follow x)) := by
  induction as generalizing x s with
  | nil => exact ⟨s, rfl, start⟩
  | cons a as ih =>
    rw [List.forall_mem_cons] at each
    rw [List.foldlM_cons, List.foldl_cons]
    exact (each.1 x s start).bind fun s' inv => ih inv each.2

/-- If the thread gets to the end, it holds what it held. -/
def Restores (r : Option (Thread μ σ)) (held : List μ) : Prop := ∀ t, r = some t → t.held = held

theorem Passes.restores {r : Option (Thread μ σ)} (h : Passes r held Q) : Restores r held := by
  obtain ⟨s, rfl, -⟩ := h
  rintro t ⟨⟩
  rfl

theorem Restores.bind {r : Option (Thread μ σ)} {k : Thread μ σ → Option (Thread μ σ)}
    (h : Restores r held) (next : ∀ s, Restores (k { held := held, shared := s }) held) :
    Restores (r >>= k) held := by
  intro t ht
  obtain ⟨u, hu, ht⟩ := Option.bind_eq_some_iff.mp ht
  obtain rfl := h u hu
  exact next u.shared t ht

theorem Restores.foldlM {α : Type*} {act : Thread μ σ → α → Option (Thread μ σ)}
    (each : ∀ s a, Restores (act { held := held, shared := s } a) held) (as : List α) (s : σ) :
    Restores (as.foldlM act { held := held, shared := s }) held := by
  induction as generalizing s with
  | nil => exact (Passes.here (Q := fun _ => True) trivial).restores
  | cons a as ih => exact (each s a).bind ih

end Mutexes
