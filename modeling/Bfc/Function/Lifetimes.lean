import Mathlib.Logic.Equiv.Basic
import Bfc.Function.Objects

/-!
# Lifetimes

Which callable lives in each function object. A callable gets the next number when it is
constructed, so the number in a storage says which object it is and not which value it has: a move
constructs another one at the destination and destroys the one at the source. What `swap` exchanges
byte by byte keeps its number.

`Shape` forgets the numbers as well, and is only which function objects there are and which of them
are engaged. A step on function objects and a step on lifetimes are the same step on shapes, so a
program that can run on the one can run on the other, and a function object is engaged exactly while
a callable lives in it.

`stays_iff` is what the reactors use: the callable in a storage is still there, at every point of a
program, exactly if no operation of the program is one that ends it.
-/

namespace Bfc.Function

open Lts

variable {α ω ι ρ : Type} {N : Nat}

/-! ## Shapes -/

/-- The function objects there are, and whether each is engaged. -/
abbrev Shape (α : Type) := α → Option Bool

namespace Shape

variable [DecidableEq α]

/-- A function object that is engaged or not, at an address. -/
def put (x : Shape α) (a : α) (engaged : Bool) : Shape α := Function.update x a (some engaged)

/-- What an operation does to a shape. -/
def step (x : Shape α) : Op α ω ι ρ N → Option (Shape α)
  | .construct a =>
    match x a with
    | none => some (x.put a false)
    | some _ => none
  | .constructFrom a _ =>
    match x a with
    | none => some (x.put a true)
    | some _ => none
  | .copyConstruct a b =>
    match x a, x b with
    | none, some engaged => some (x.put a engaged)
    | _, _ => none
  | .moveConstruct a b =>
    match x a, x b with
    | none, some engaged => some ((x.put a engaged).put b false)
    | _, _ => none
  | .moveAssign a b =>
    if a = b then some x
    else
      match x a, x b with
      | some _, some engaged => some ((x.put a engaged).put b false)
      | _, _ => none
  | .assign a _ =>
    match x a with
    | some _ => some (x.put a true)
    | none => none
  | .reset a =>
    match x a with
    | some _ => some (x.put a false)
    | none => none
  | .swap a b =>
    if a = b then some x
    else
      match x a, x b with
      | some engaged, some other => some ((x.put a other).put b engaged)
      | _, _ => none
  | .call a _ =>
    match x a with
    | some _ => some x
    | none => none
  | .destroy a =>
    match x a with
    | some _ => some (Function.update x a none)
    | none => none

end Shape

/-! ## Lifetimes -/

/-- The function objects there are with the callable that lives in each, and how many callables
have been constructed. -/
structure Lifetimes (α : Type) where
  living : α → Option (Option Nat) := fun _ => none
  constructed : Nat := 0

namespace Lifetimes

variable [DecidableEq α]

/-- A function object with this callable, at an address. -/
def put (l : Lifetimes α) (a : α) (callable : Option Nat) : Lifetimes α :=
  { l with living := Function.update l.living a (some callable) }

/-- The object at an address is no more. -/
def remove (l : Lifetimes α) (a : α) : Lifetimes α :=
  { l with living := Function.update l.living a none }

/-- A callable is constructed in the storage of the object at an address. -/
def construct (l : Lifetimes α) (a : α) : Lifetimes α where
  living := Function.update l.living a (some (some l.constructed))
  constructed := l.constructed + 1

/-- The object at `a` becomes a copy of one that has this callable. -/
def copy (l : Lifetimes α) (a : α) : Option Nat → Lifetimes α
  | some _ => l.construct a
  | none => l.put a none

/-- What an operation does to lifetimes. -/
def step (l : Lifetimes α) : Op α ω ι ρ N → Option (Lifetimes α)
  | .construct a =>
    match l.living a with
    | none => some (l.put a none)
    | some _ => none
  | .constructFrom a _ =>
    match l.living a with
    | none => some (l.construct a)
    | some _ => none
  | .copyConstruct a b =>
    match l.living a, l.living b with
    | none, some callable => some (l.copy a callable)
    | _, _ => none
  | .moveConstruct a b =>
    match l.living a, l.living b with
    | none, some callable => some ((l.copy a callable).put b none)
    | _, _ => none
  | .moveAssign a b =>
    if a = b then some l
    else
      match l.living a, l.living b with
      | some _, some callable => some ((l.copy a callable).put b none)
      | _, _ => none
  | .assign a _ =>
    match l.living a with
    | some _ => some (l.construct a)
    | none => none
  | .reset a =>
    match l.living a with
    | some _ => some (l.put a none)
    | none => none
  | .swap a b =>
    if a = b then some l
    else
      match l.living a, l.living b with
      | some callable, some other => some ((l.put a other).put b callable)
      | _, _ => none
  | .call a _ =>
    match l.living a with
    | some _ => some l
    | none => none
  | .destroy a =>
    match l.living a with
    | some _ => some (l.remove a)
    | none => none

/-- What an operation can do. -/
inductive Step (l : Lifetimes α) : Op α ω ι ρ N → Lifetimes α → Prop
  | construct {a : α} (ha : l.living a = none) : Step l (.construct a) (l.put a none)
  | constructFrom {a : α} (p : Callable α ω ι ρ N) (ha : l.living a = none) :
      Step l (.constructFrom a p) (l.construct a)
  | copyConstruct {a b : α} {callable : Option Nat} (ha : l.living a = none)
      (hb : l.living b = some callable) : Step l (.copyConstruct a b) (l.copy a callable)
  | moveConstruct {a b : α} {callable : Option Nat} (ha : l.living a = none)
      (hb : l.living b = some callable) :
      Step l (.moveConstruct a b) ((l.copy a callable).put b none)
  | moveAssignSelf (a : α) : Step l (.moveAssign a a) l
  | moveAssign {a b : α} {callable : Option Nat} (ne : a ≠ b)
      (hb : l.living b = some callable) :
      Step l (.moveAssign a b) ((l.copy a callable).put b none)
  | assign (a : α) (p : Callable α ω ι ρ N) : Step l (.assign a p) (l.construct a)
  | reset (a : α) : Step l (.reset a) (l.put a none)
  | swapSelf (a : α) : Step l (.swap a a) l
  | swap {a b : α} {callable other : Option Nat} (ne : a ≠ b) (ha : l.living a = some callable)
      (hb : l.living b = some other) : Step l (.swap a b) ((l.put a other).put b callable)
  | call (a : α) (i : ι) : Step l (.call a i) l
  | destroy (a : α) : Step l (.destroy a) (l.remove a)

/-- The step function takes these steps. -/
theorem Step.of_step {l l' : Lifetimes α} {op : Op α ω ι ρ N} (h : l.step op = some l') :
    Step l op l' := by
  cases op with
  | construct a =>
    dsimp only [Lifetimes.step] at h
    split at h
    · rename_i ha
      exact Option.some.inj h ▸ .construct ha
    · cases h
  | constructFrom a p =>
    dsimp only [Lifetimes.step] at h
    split at h
    · rename_i ha
      exact Option.some.inj h ▸ .constructFrom p ha
    · cases h
  | copyConstruct a b =>
    dsimp only [Lifetimes.step] at h
    split at h
    · rename_i ha hb
      exact Option.some.inj h ▸ .copyConstruct ha hb
    · cases h
  | moveConstruct a b =>
    dsimp only [Lifetimes.step] at h
    split at h
    · rename_i ha hb
      exact Option.some.inj h ▸ .moveConstruct ha hb
    · cases h
  | moveAssign a b =>
    dsimp only [Lifetimes.step] at h
    split at h
    · rename_i same
      subst same
      exact Option.some.inj h ▸ .moveAssignSelf a
    · rename_i ne
      split at h
      · rename_i _ hb
        exact Option.some.inj h ▸ .moveAssign ne hb
      · cases h
  | assign a p =>
    dsimp only [Lifetimes.step] at h
    split at h
    · exact Option.some.inj h ▸ .assign a p
    · cases h
  | reset a =>
    dsimp only [Lifetimes.step] at h
    split at h
    · exact Option.some.inj h ▸ .reset a
    · cases h
  | swap a b =>
    dsimp only [Lifetimes.step] at h
    split at h
    · rename_i same
      subst same
      exact Option.some.inj h ▸ .swapSelf a
    · rename_i ne
      split at h
      · rename_i ha hb
        exact Option.some.inj h ▸ .swap ne ha hb
      · cases h
  | call a i =>
    dsimp only [Lifetimes.step] at h
    split at h
    · exact Option.some.inj h ▸ .call a i
    · cases h
  | destroy a =>
    dsimp only [Lifetimes.step] at h
    split at h
    · exact Option.some.inj h ▸ .destroy a
    · cases h

/-- The engaged objects are those in which a callable lives. -/
def shape (l : Lifetimes α) : Shape α := fun a => (l.living a).map Option.isSome

end Lifetimes

/-- The shape of function objects. -/
def World.shape (w : World α ω ι ρ N) : Shape α :=
  fun a => (w.objects a).map FunctionObject.engaged

/-! ## Shapes are followed -/

/-- What was moved from is engaged no more, and what was moved to is engaged if the source was. -/
theorem FunctionObject.moveAssign_engaged (f other : FunctionObject α ω ι ρ N) (a b : α) :
    (f.moveAssign a other b).1.engaged = other.engaged ∧
      (f.moveAssign a other b).2.engaged = false := by
  unfold moveAssign
  dsimp only
  split
  · exact ⟨rfl, rfl⟩
  · rename_i idle
    exact ⟨(eq_false_of_ne_true idle).symm, eq_false_of_ne_true idle⟩

theorem FunctionObject.moveConstruct_engaged [Inhabited ω] (other : FunctionObject α ω ι ρ N)
    (a b : α) : (moveConstruct a other b).1.engaged = other.engaged ∧
      (moveConstruct a other b).2.engaged = false := by
  unfold moveConstruct
  split
  · exact ⟨rfl, rfl⟩
  · rename_i idle
    exact ⟨(eq_false_of_ne_true idle).symm, eq_false_of_ne_true idle⟩

theorem FunctionObject.copyConstruct_engaged [Inhabited ω] (other : FunctionObject α ω ι ρ N)
    (a b : α) : (copyConstruct a other b).engaged = other.engaged := by
  unfold copyConstruct
  split
  · rfl
  · rename_i idle
    exact (eq_false_of_ne_true idle).symm

theorem FunctionObject.invoke_engaged (f : FunctionObject α ω ι ρ N) (a : α) (i : ι) :
    (f.invoke a i).2.engaged = f.engaged := by
  unfold invoke
  split
  · rfl
  · rfl

section Shape

variable [DecidableEq α]

@[simp]
theorem World.put_shape (w : World α ω ι ρ N) (a : α) (f : FunctionObject α ω ι ρ N)
    (g : Option (Given α ω ι ρ N)) : (w.put a f g).shape = w.shape.put a f.engaged := by
  ext b : 1
  unfold World.shape World.put Shape.put
  by_cases same : b = a
  · simp only [same, Function.update_self, Option.map_some]
  · simp only [Function.update_of_ne same]

@[simp]
theorem World.remove_shape (w : World α ω ι ρ N) (a : α) :
    (w.remove a).shape = Function.update w.shape a none := by
  ext b : 1
  unfold World.shape World.remove
  by_cases same : b = a
  · simp only [same, Function.update_self, Option.map_none]
  · simp only [Function.update_of_ne same]

/-- An object that is put as it was changes nothing. -/
theorem Shape.put_same {x : Shape α} {a : α} {engaged : Bool} (h : x a = some engaged) :
    x.put a engaged = x := by
  unfold Shape.put
  rw [← h, Function.update_eq_self]

/-- A step of function objects is that of their shape. -/
theorem World.step_shape [Inhabited ω] (w : World α ω ι ρ N) (op : Op α ω ι ρ N) :
    (w.step op).map World.shape = w.shape.step op := by
  have there : ∀ c, w.shape c = (w.objects c).map FunctionObject.engaged := fun _ => rfl
  cases op with
  | construct a =>
    simp only [World.step, Shape.step, there]
    cases w.objects a with
    | none => simp [FunctionObject.engaged, FunctionObject.clear, Pointers.clear]
    | some f => simp
  | constructFrom a p =>
    simp only [World.step, Shape.step, there]
    cases w.objects a with
    | none => simp [FunctionObject.engaged, FunctionObject.set, Pointers.of]
    | some f => simp
  | copyConstruct a b =>
    simp only [World.step, Shape.step, there]
    cases w.objects a with
    | none =>
      cases w.objects b with
      | none => simp
      | some other => simp [other.copyConstruct_engaged a b]
    | some f => simp
  | moveConstruct a b =>
    simp only [World.step, Shape.step, there]
    cases w.objects a with
    | none =>
      cases w.objects b with
      | none => simp
      | some other =>
        obtain ⟨moved, left⟩ := other.moveConstruct_engaged a b
        simp [moved, left]
    | some f => simp
  | moveAssign a b =>
    simp only [World.step, Shape.step, there]
    split
    · simp
    · cases w.objects a with
      | none => simp
      | some f =>
        cases w.objects b with
        | none => simp
        | some other =>
          obtain ⟨moved, left⟩ := f.moveAssign_engaged other a b
          simp [moved, left]
  | assign a p =>
    simp only [World.step, Shape.step, there]
    cases w.objects a with
    | none => simp
    | some f =>
      simp [FunctionObject.engaged, FunctionObject.assign, FunctionObject.set, Pointers.of]
  | reset a =>
    simp only [World.step, Shape.step, there]
    cases w.objects a with
    | none => simp
    | some f =>
      simp [FunctionObject.engaged, FunctionObject.reset, FunctionObject.clear, Pointers.clear]
  | swap a b =>
    simp only [World.step, Shape.step, there]
    split
    · simp
    · cases w.objects a with
      | none => simp
      | some f =>
        cases w.objects b with
        | none => simp
        | some other => simp [FunctionObject.swap_eq]
  | call a i =>
    simp only [World.step, Shape.step, there]
    cases hf : w.objects a with
    | none => simp
    | some f =>
      have same : w.shape a = some f.engaged := by rw [there, hf, Option.map_some]
      simp [f.invoke_engaged a i, Shape.put_same same]
  | destroy a =>
    simp only [World.step, Shape.step, there]
    cases w.objects a with
    | none => simp
    | some f => simp

@[simp]
theorem Lifetimes.put_shape (l : Lifetimes α) (a : α) (callable : Option Nat) :
    (l.put a callable).shape = l.shape.put a callable.isSome := by
  ext b : 1
  unfold Lifetimes.shape Lifetimes.put Shape.put
  by_cases same : b = a
  · simp only [same, Function.update_self, Option.map_some]
  · simp only [Function.update_of_ne same]

@[simp]
theorem Lifetimes.remove_shape (l : Lifetimes α) (a : α) :
    (l.remove a).shape = Function.update l.shape a none := by
  ext b : 1
  unfold Lifetimes.shape Lifetimes.remove
  by_cases same : b = a
  · simp only [same, Function.update_self, Option.map_none]
  · simp only [Function.update_of_ne same]

@[simp]
theorem Lifetimes.construct_shape (l : Lifetimes α) (a : α) :
    (l.construct a).shape = l.shape.put a true := by
  ext b : 1
  unfold Lifetimes.shape Lifetimes.construct Shape.put
  by_cases same : b = a
  · simp only [same, Function.update_self, Option.map_some, Option.isSome_some]
  · simp only [Function.update_of_ne same]

@[simp]
theorem Lifetimes.copy_shape (l : Lifetimes α) (a : α) (callable : Option Nat) :
    (l.copy a callable).shape = l.shape.put a callable.isSome := by
  cases callable with
  | none => apply Lifetimes.put_shape
  | some n => apply Lifetimes.construct_shape

/-- A step of lifetimes is that of their shape. -/
theorem Lifetimes.step_shape (l : Lifetimes α) (op : Op α ω ι ρ N) :
    (l.step op).map Lifetimes.shape = l.shape.step op := by
  have there : ∀ c, l.shape c = (l.living c).map Option.isSome := fun _ => rfl
  cases op with
  | construct a | constructFrom a p | assign a p | reset a | call a i | destroy a =>
    simp only [Lifetimes.step, Shape.step, there]
    cases l.living a <;> simp
  | copyConstruct a b | moveConstruct a b =>
    simp only [Lifetimes.step, Shape.step, there]
    cases l.living a <;> cases l.living b <;> simp
  | moveAssign a b | swap a b =>
    simp only [Lifetimes.step, Shape.step, there]
    split
    · simp
    · cases l.living a <;> cases l.living b <;> simp

/-- A program of function objects is that of their shape. -/
theorem World.run_shape [Inhabited ω] (program : List (Op α ω ι ρ N)) (w : World α ω ι ρ N) :
    (program.foldlM World.step w).map World.shape = program.foldlM Shape.step w.shape :=
  foldlM_map World.shape World.step_shape program w

/-- A program of lifetimes is that of their shape. -/
theorem Lifetimes.run_shape (program : List (Op α ω ι ρ N)) (l : Lifetimes α) :
    (program.foldlM Lifetimes.step l).map Lifetimes.shape = program.foldlM Shape.step l.shape :=
  foldlM_map Lifetimes.shape Lifetimes.step_shape program l

/-- A program comes to the same shape on both. -/
theorem shapes_agree [Inhabited ω] (program : List (Op α ω ι ρ N)) :
    (program.foldlM World.step ({} : World α ω ι ρ N)).map World.shape =
      (program.foldlM Lifetimes.step ({} : Lifetimes α)).map Lifetimes.shape :=
  (World.run_shape program {}).trans (Lifetimes.run_shape program {}).symm

/-- A program can run on function objects exactly if it can on lifetimes. -/
theorem runs_iff [Inhabited ω] (program : List (Op α ω ι ρ N)) :
    (program.foldlM World.step ({} : World α ω ι ρ N)).isSome ↔
      (program.foldlM Lifetimes.step ({} : Lifetimes α)).isSome := by
  have same := congrArg Option.isSome (shapes_agree program)
  rw [Option.isSome_map, Option.isSome_map] at same
  rw [same]

/-- **A function object is engaged exactly while a callable lives in it**, after every program. -/
theorem World.engaged_iff [Inhabited ω] {program : List (Op α ω ι ρ N)} {w : World α ω ι ρ N}
    {l : Lifetimes α} (run : program.foldlM World.step {} = some w)
    (lives : program.foldlM Lifetimes.step {} = some l) {a : α} {f : FunctionObject α ω ι ρ N}
    (there : w.objects a = some f) :
    f.engaged = true ↔ ∃ n, l.living a = some (some n) := by
  have same := shapes_agree program
  rw [run, lives] at same
  have here : (w.objects a).map FunctionObject.engaged = (l.living a).map Option.isSome :=
    congrFun (Option.some.inj same) a
  rw [there] at here
  obtain ⟨callable, living, engaged⟩ := Option.map_eq_some_iff.mp here.symm
  rw [← engaged, living, Option.isSome_iff_exists]
  simp only [Option.some.injEq]

end Shape

/-! ## The end of a callable -/

/-- The operation constructs, moves from, destroys or writes over what is in the storage at `a`. -/
def Op.Disturbs (a : α) : Op α ω ι ρ N → Prop
  | .construct b | .constructFrom b _ | .copyConstruct b _ | .assign b _ | .reset b
  | .destroy b => b = a
  | .moveConstruct b c => b = a ∨ c = a
  | .moveAssign b c | .swap b c => b ≠ c ∧ (b = a ∨ c = a)
  | .call .. => False

/-- Numbers were given, and no two callables have the same. -/
structure Lifetimes.Numbered (l : Lifetimes α) : Prop where
  given : ∀ a n, l.living a = some (some n) → n < l.constructed
  apart : ∀ a b n, l.living a = some (some n) → l.living b = some (some n) → a = b

namespace Lifetimes

theorem Numbered.empty : Numbered ({} : Lifetimes α) where
  given a n h := by cases h
  apart a b n h := by cases h

variable [DecidableEq α] {l l' : Lifetimes α} {a b : α} {n : Nat}

@[simp]
theorem put_living (l : Lifetimes α) (b : α) (callable : Option Nat) (a : α) :
    (l.put b callable).living a = if a = b then some callable else l.living a :=
  Function.update_apply ..

@[simp]
theorem construct_living (l : Lifetimes α) (b a : α) :
    (l.construct b).living a = if a = b then some (some l.constructed) else l.living a :=
  Function.update_apply ..

@[simp]
theorem remove_living (l : Lifetimes α) (b a : α) :
    (l.remove b).living a = if a = b then none else l.living a :=
  Function.update_apply ..

theorem copy_living_of_ne (l : Lifetimes α) {a b : α} (ne : a ≠ b) (callable : Option Nat) :
    (l.copy b callable).living a = l.living a := by
  cases callable with
  | none => exact Function.update_of_ne ne _ _
  | some n => exact Function.update_of_ne ne _ _

/-! ### Numbers are given once -/

theorem Numbered.put (h : Numbered l) (a : α) : Numbered (l.put a none) where
  given b n hb := by
    rw [put_living] at hb
    split at hb
    · cases hb
    · exact h.given b n hb
  apart b c n hb hc := by
    rw [put_living] at hb hc
    split at hb
    · cases hb
    · split at hc
      · cases hc
      · exact h.apart b c n hb hc

theorem Numbered.remove (h : Numbered l) (a : α) : Numbered (l.remove a) where
  given b n hb := by
    rw [remove_living] at hb
    split at hb
    · cases hb
    · exact h.given b n hb
  apart b c n hb hc := by
    rw [remove_living] at hb hc
    split at hb
    · cases hb
    · split at hc
      · cases hc
      · exact h.apart b c n hb hc

/-- The next number is no callable's yet. -/
theorem Numbered.construct (h : Numbered l) (a : α) : Numbered (l.construct a) where
  given b n hb := by
    rw [construct_living] at hb
    split at hb
    · obtain rfl := Option.some.inj (Option.some.inj hb)
      exact Nat.lt_succ_self _
    · exact Nat.lt_succ_of_lt (h.given b n hb)
  apart b c n hb hc := by
    rw [construct_living] at hb hc
    split at hb
    · split at hc
      · rename_i hba hca
        rw [hba, hca]
      · obtain rfl := Option.some.inj (Option.some.inj hb)
        exact absurd (h.given c _ hc) (Nat.lt_irrefl _)
    · split at hc
      · obtain rfl := Option.some.inj (Option.some.inj hc)
        exact absurd (h.given b _ hb) (Nat.lt_irrefl _)
      · exact h.apart b c n hb hc

theorem Numbered.copy (h : Numbered l) (a : α) (callable : Option Nat) :
    Numbered (l.copy a callable) := by
  cases callable with
  | none => exact h.put a
  | some n => exact h.construct a

/-- Two storages with their numbers exchanged. -/
theorem swap_living {callable other : Option Nat} (ha : l.living a = some callable)
    (hb : l.living b = some other) (c : α) :
    ((l.put a other).put b callable).living c = l.living (Equiv.swap a b c) := by
  rw [put_living, put_living, Equiv.swap_apply_def]
  by_cases hcb : c = b
  · subst hcb
    rw [if_pos rfl]
    split
    · rename_i hca
      rw [← ha, hca]
    · rw [if_pos rfl, ha]
  · rw [if_neg hcb, if_neg hcb]
    split
    · exact hb.symm
    · rfl

theorem Numbered.swap (h : Numbered l) {callable other : Option Nat}
    (ha : l.living a = some callable) (hb : l.living b = some other) :
    Numbered ((l.put a other).put b callable) where
  given c n hc := by
    rw [swap_living ha hb] at hc
    exact h.given _ n hc
  apart c d n hc hd := by
    rw [swap_living ha hb] at hc hd
    exact (Equiv.swap a b).injective (h.apart _ _ n hc hd)

theorem Numbered.step (h : Numbered l) {op : Op α ω ι ρ N} (step : l.step op = some l') :
    Numbered l' := by
  cases Step.of_step step with
  | construct | reset => exact h.put _
  | constructFrom | assign => exact h.construct _
  | copyConstruct => exact h.copy _ _
  | moveConstruct | moveAssign => exact (h.copy _ _).put _
  | swap ne ha hb => exact h.swap ha hb
  | moveAssignSelf | swapSelf | call => exact h
  | destroy => exact h.remove _

theorem Numbered.run (h : Numbered l) {program : List (Op α ω ι ρ N)}
    (run : program.foldlM Lifetimes.step l = some l') : Numbered l' :=
  Run.invariant (P := Numbered) (run_of_foldlM run) h fun numbered step => numbered.step step

/-! ### The callable stays -/

/-- The callable in a storage is still there after an operation exactly if the operation does not
disturb the storage. -/
theorem Numbered.step_stays (h : Numbered l) (there : l.living a = some (some n))
    {op : Op α ω ι ρ N} (step : l.step op = some l') :
    l'.living a = some (some n) ↔ ¬op.Disturbs a := by
  -- a storage that was empty before the operation is not this one
  have other : ∀ {b}, l.living b = none → a ≠ b := by
    intro b hb same
    rw [same, hb] at there
    cases there
  have new : l.constructed ≠ n := Nat.ne_of_gt (h.given a n there)
  have copied : ∀ {b c : α} {callable : Option Nat}, l.living c = some callable → b ≠ c →
      (((l.copy b callable).put c none).living a = some (some n) ↔ ¬(b = a ∨ c = a)) := by
    intro b c callable hc ne
    rw [put_living]
    by_cases hac : a = c
    · simp [hac]
    · by_cases hab : a = b
      · subst hab
        cases callable <;> simp [Lifetimes.copy, hac, new]
      · simp [hac, copy_living_of_ne l hab, there, Ne.symm hac, Ne.symm hab]
  cases Step.of_step step with
  | construct hb =>
    rw [put_living, if_neg (other hb)]
    exact iff_of_true there (Ne.symm (other hb))
  | constructFrom p hb =>
    rw [construct_living, if_neg (other hb)]
    exact iff_of_true there (Ne.symm (other hb))
  | copyConstruct hb hc =>
    rw [copy_living_of_ne l (other hb)]
    exact iff_of_true there (Ne.symm (other hb))
  | moveConstruct hb hc =>
    apply copied hc
    intro same
    rw [same, hc] at hb
    cases hb
  | moveAssign ne hc =>
    rw [copied hc ne]
    simp only [Op.Disturbs, ne_eq, ne, not_false_eq_true, true_and]
  | assign b p =>
    rw [construct_living]
    by_cases same : a = b
    · simp [Op.Disturbs, same, new]
    · simp [Op.Disturbs, same, Ne.symm same, there]
  | reset b =>
    rw [put_living]
    by_cases same : a = b
    · simp [Op.Disturbs, same]
    · simp [Op.Disturbs, same, Ne.symm same, there]
  | swap ne hb hc =>
    rw [swap_living hb hc]
    constructor
    · rintro still ⟨-, moved⟩
      have fixed := h.apart _ _ n still there
      rcases moved with rfl | rfl
      · rw [Equiv.swap_apply_left] at fixed
        exact ne fixed.symm
      · rw [Equiv.swap_apply_right] at fixed
        exact ne fixed
    · intro undisturbed
      rw [Equiv.swap_apply_of_ne_of_ne, there]
      · rintro rfl
        exact undisturbed ⟨ne, .inl rfl⟩
      · rintro rfl
        exact undisturbed ⟨ne, .inr rfl⟩
  | moveAssignSelf | swapSelf => exact iff_of_true there fun disturbs => disturbs.1 rfl
  | call => exact iff_of_true there id
  | destroy b =>
    rw [remove_living]
    by_cases same : a = b
    · simp [Op.Disturbs, same]
    · simp [Op.Disturbs, same, Ne.symm same, there]

/-- At every point of a program, the callable that is `n` is in the storage at `a`. -/
def Stays (l : Lifetimes α) (a : α) (n : Nat) (program : List (Op α ω ι ρ N)) : Prop :=
  AllStates Lifetimes.step (fun l => l.living a = some (some n)) l program

/-- **When a callable stays.** At every point of a program that can run, the callable that was in a
storage at first is still there, exactly if no operation of the program disturbs the storage. -/
theorem Numbered.stays_iff (h : Numbered l) (there : l.living a = some (some n))
    {program : List (Op α ω ι ρ N)} (run : program.foldlM Lifetimes.step l = some l') :
    l.Stays a n program ↔ ∀ op ∈ program, ¬op.Disturbs a := by
  rw [← allSteps_iff_forall_mem run]
  apply allStates_iff_allSteps (I := Numbered)
  · exact fun numbered step => numbered.step step
  · exact fun numbered there step => numbered.step_stays there step
  · exact h
  · exact there

end Lifetimes

end Bfc.Function
