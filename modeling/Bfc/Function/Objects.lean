import Bfc.Lib.Transition
import Bfc.Function.FunctionObject

/-!
# Programs with function objects

Any number of function objects of one `bfc::function` type, and what a program does with them.
Copy assignment is what the source makes of it: a temporary is copied from the source, swapped with
the destination and destroyed, so it is three operations, and the temporary is a function object
like the others.

For the record, each object has the value that it was last given: that of the callable it was
constructed from or assigned, or what the object it was copied, moved or swapped from had.
`Sound` says that each object holds a correct object of that value and is called as it.
-/

namespace Bfc.Function

variable {α ω ι ρ : Type} {N : Nat}

/-- The function objects there are, and what each was given. -/
structure World (α ω ι ρ : Type) (N : Nat) where
  objects : α → Option (FunctionObject α ω ι ρ N) := fun _ => none
  given : α → Option (Given α ω ι ρ N) := fun _ => none

/-- What a program does with function objects. `reset` is also the assignment of `nullptr`, and
`construct` also the construction from it. -/
inductive Op (α ω ι ρ : Type) (N : Nat) where
  | construct (a : α)
  | constructFrom (a : α) (p : Callable α ω ι ρ N)
  | copyConstruct (a b : α)
  | moveConstruct (a b : α)
  | moveAssign (a b : α)
  | assign (a : α) (p : Callable α ω ι ρ N)
  | reset (a : α)
  | swap (a b : α)
  | call (a : α) (i : ι)
  | destroy (a : α)

/-- The operations, and copy assignment, whose temporary is at some address. -/
inductive Statement (α ω ι ρ : Type) (N : Nat) where
  | op (op : Op α ω ι ρ N)
  | copyAssign (a b tmp : α)

/-- What a statement does, one operation after the other. -/
def Statement.ops [DecidableEq α] : Statement α ω ι ρ N → List (Op α ω ι ρ N)
  | .op operation => [operation]
  | .copyAssign a b tmp =>
    if a = b then [] else [.copyConstruct tmp b, .swap a tmp, .destroy tmp]

namespace World

variable [DecidableEq α]

/-- The object at an address becomes this, with what it was given. -/
def put (w : World α ω ι ρ N) (a : α) (f : FunctionObject α ω ι ρ N)
    (g : Option (Given α ω ι ρ N)) : World α ω ι ρ N where
  objects := Function.update w.objects a (some f)
  given := Function.update w.given a g

/-- The object at an address is no more. -/
def remove (w : World α ω ι ρ N) (a : α) : World α ω ι ρ N where
  objects := Function.update w.objects a none
  given := Function.update w.given a none

/-- An operation, where there are the objects it is for and none where it makes one. -/
def step [Inhabited ω] (w : World α ω ι ρ N) : Op α ω ι ρ N → Option (World α ω ι ρ N)
  | .construct a =>
    match w.objects a with
    | none => some (w.put a FunctionObject.initial.clear none)
    | some _ => none
  | .constructFrom a p =>
    match w.objects a with
    | none => some (w.put a (FunctionObject.initial.set a p) (some p.toGiven))
    | some _ => none
  | .copyConstruct a b =>
    match w.objects a, w.objects b with
    | none, some other => some (w.put a (.copyConstruct a other b) (w.given b))
    | _, _ => none
  | .moveConstruct a b =>
    match w.objects a, w.objects b with
    | none, some other =>
      let moved := FunctionObject.moveConstruct a other b
      some ((w.put a moved.1 (w.given b)).put b moved.2 none)
    | _, _ => none
  | .moveAssign a b =>
    if a = b then some w
    else
      match w.objects a, w.objects b with
      | some f, some other =>
        let moved := f.moveAssign a other b
        some ((w.put a moved.1 (w.given b)).put b moved.2 none)
      | _, _ => none
  | .assign a p =>
    match w.objects a with
    | some f => some (w.put a (f.assign a p) (some p.toGiven))
    | none => none
  | .reset a =>
    match w.objects a with
    | some f => some (w.put a (f.reset a) none)
    | none => none
  | .swap a b =>
    if a = b then some w
    else
      match w.objects a, w.objects b with
      | some f, some other =>
        let swapped := f.swap other
        some ((w.put a swapped.1 (w.given b)).put b swapped.2 (w.given a))
      | _, _ => none
  | .call a i =>
    match w.objects a with
    | some f => some (w.put a (f.invoke a i).2 ((w.given a).map (·.after i)))
    | none => none
  | .destroy a =>
    match w.objects a with
    | some _ => some (w.remove a)
    | none => none

/-- Each function object holds a correct object of the value it was given, or none if it was given
none, and a call of it returns what a call of that value returns. -/
structure Sound (w : World α ω ι ρ N) : Prop where
  holds : ∀ a f, w.objects a = some f → f.Holds a (w.given a)
  calls : ∀ a f i, w.objects a = some f → (f.invoke a i).1 = (w.given a).map (·.result i)

/-- The object in the storage of a function object would be correct at another address too. -/
def Fits (w : World α ω ι ρ N) (a b : α) : Prop :=
  ∀ f g, w.objects a = some f → w.given a = some g →
    g.type.Correct b (g.type.read f.object) g.value

/-- The condition on an operation: a swap exchanges only objects that would be correct at the
other's address. -/
def Relocates (w : World α ω ι ρ N) : Op α ω ι ρ N → Prop
  | .swap a b => a ≠ b → w.Fits a b ∧ w.Fits b a
  | _ => True

end World

/-! ## What an object holds -/

namespace World

variable {w : World α ω ι ρ N}

theorem Sound.of_holds (holds : ∀ a f, w.objects a = some f → f.Holds a (w.given a)) : Sound w where
  holds := holds
  calls a f i hf := ((holds a f hf).invoke i).1

/-- What a function object holds fits an address if and only if its storage would hold it there. -/
theorem Sound.fits_iff (h : Sound w) {a : α} {f : FunctionObject α ω ι ρ N}
    (hf : w.objects a = some f) (b : α) : w.Fits a b ↔ f.Holds b (w.given a) := by
  have here := h.holds a f hf
  cases hg : w.given a with
  | none =>
    rw [hg] at here
    exact ⟨fun _ => here, fun _ f' g _ hg' => by cases hg.symm.trans hg'⟩
  | some g =>
    rw [hg] at here
    constructor
    · intro fits
      exact ⟨here.1, fits f g hf hg⟩
    · rintro ⟨-, correct⟩ f' g' hf' hg'
      obtain rfl := Option.some.inj (hf.symm.trans hf')
      obtain rfl := Option.some.inj (hg.symm.trans hg')
      exact correct

variable [DecidableEq α]

@[simp]
theorem put_objects_self (w : World α ω ι ρ N) (a : α) (f : FunctionObject α ω ι ρ N)
    (g : Option (Given α ω ι ρ N)) : (w.put a f g).objects a = some f := by
  show Function.update w.objects a (some f) a = some f
  rw [Function.update_self]

@[simp]
theorem put_given_self (w : World α ω ι ρ N) (a : α) (f : FunctionObject α ω ι ρ N)
    (g : Option (Given α ω ι ρ N)) : (w.put a f g).given a = g := by
  show Function.update w.given a g a = g
  rw [Function.update_self]

/-- The other objects stay. -/
theorem put_other {a b : α} (ne : b ≠ a) (w : World α ω ι ρ N) (f : FunctionObject α ω ι ρ N)
    (g : Option (Given α ω ι ρ N)) :
    (w.put a f g).objects b = w.objects b ∧ (w.put a f g).given b = w.given b :=
  ⟨Function.update_of_ne ne _ _, Function.update_of_ne ne _ _⟩

theorem Sound.put (h : Sound w) {a : α} {f : FunctionObject α ω ι ρ N}
    {g : Option (Given α ω ι ρ N)} (holds : f.Holds a g) : Sound (w.put a f g) := by
  apply of_holds
  intro b f' hf'
  by_cases same : b = a
  · subst same
    rw [put_objects_self] at hf'
    rw [put_given_self, ← Option.some.inj hf']
    exact holds
  · obtain ⟨objects, given⟩ := put_other same w f g
    rw [objects] at hf'
    rw [given]
    exact h.holds b f' hf'

theorem Sound.remove (h : Sound w) (a : α) : Sound (w.remove a) := by
  apply of_holds
  intro b f hf
  change Function.update w.objects a none b = some f at hf
  by_cases same : b = a
  · subst same
    rw [Function.update_self] at hf
    cases hf
  · rw [Function.update_of_ne same] at hf
    show f.Holds b (Function.update w.given a none b)
    rw [Function.update_of_ne same]
    exact h.holds b f hf

end World

end Bfc.Function
