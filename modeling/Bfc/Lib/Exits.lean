import Mathlib.Init

/-!
# Ways to end

An operation of a language with exceptions ends in one of three ways. It returns, it throws and
leaves a state behind, or it goes wrong, which no program may. `Ends` says of an operation that it
does not go wrong, with a condition on what it returns and one on what it leaves when it throws; the
rule for a sequence is that of a postcondition each.
-/

namespace Exits

universe u

variable {σ φ : Type*} {α β : Type u}

/-- An operation that does not return: it has thrown and left a state, or gone wrong. -/
inductive Exit (σ φ : Type*) where
  | threw (s : σ)
  | wrong (fault : φ)

/-- The operation returns what satisfies `P`, or throws and leaves what satisfies `Q`. -/
def Ends (r : Except (Exit σ φ) α) (P : α → Prop) (Q : σ → Prop) : Prop :=
  match r with
  | .ok a => P a
  | .error (.threw s) => Q s
  | .error (.wrong _) => False

/-- The state that the operation leaves, whether it returns or throws. -/
def left : Except (Exit σ φ) σ → Except φ σ
  | .ok s => .ok s
  | .error (.threw s) => .ok s
  | .error (.wrong fault) => .error fault

variable {r : Except (Exit σ φ) α} {P P' : α → Prop} {Q Q' : σ → Prop}

theorem Ends.mono (h : Ends r P Q) (returned : ∀ a, P a → P' a) (thrown : ∀ s, Q s → Q' s) :
    Ends r P' Q' := by
  cases r with
  | ok a => exact returned a h
  | error exit =>
    cases exit with
    | threw s => exact thrown s h
    | wrong fault => exact h

/-- **The sequence rule.** -/
theorem Ends.bind {k : α → Except (Exit σ φ) β} {R : β → Prop} (h : Ends r P Q)
    (next : ∀ a, P a → Ends (k a) R Q) : Ends (r >>= k) R Q := by
  cases r with
  | ok a => exact next a h
  | error exit =>
    cases exit with
    | threw s => exact h
    | wrong fault => exact h

theorem Ends.of_ok {a : α} (returned : r = .ok a) (h : P a) : Ends r P Q := by
  subst returned
  exact h

theorem Ends.of_threw {s : σ} (h : Ends r P Q) (threw : r = .error (.threw s)) : Q s := by
  subst threw
  exact h

/-- What holds either way holds of the state that is left. -/
theorem Ends.left {r : Except (Exit σ φ) σ} {P : σ → Prop} (h : Ends r P P) :
    ∃ s, Exits.left r = .ok s ∧ P s := by
  cases r with
  | ok s => exact ⟨s, rfl, h⟩
  | error exit =>
    cases exit with
    | threw s => exact ⟨s, rfl, h⟩
    | wrong fault => exact h.elim

end Exits
