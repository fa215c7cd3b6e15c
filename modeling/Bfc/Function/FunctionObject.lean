import Mathlib.Data.List.FinRange
import Bfc.Function.Callable

/-!
# Function objects

`bfc::function`: its inline storage, its four function pointers and its member functions. A pointer
that is not null is to one of the lambdas that `set` makes for a callable type, so it is modelled by
that type; `clear` nulls `m_fn` alone, and the others stay as they are. That the other three are
those of the type of `m_fn`, when that is not null, is part of `Pointers`.

An object is at an address, which its member functions are told. `swap` exchanges the two storages
byte by byte, whatever is in them; what the bytes own elsewhere stays theirs.
-/

namespace Bfc.Function

variable {α ω ι ρ : Type} {N : Nat}

/-- `m_fn`, `m_destroyer`, `m_copier` and `m_mover`. -/
structure Pointers (α ω ι ρ : Type) (N : Nat) where
  fn : Option (CallableType α ω ι ρ N) := none
  destroyer : Option (CallableType α ω ι ρ N) := none
  copier : Option (CallableType α ω ι ρ N) := none
  mover : Option (CallableType α ω ι ρ N) := none
  wired : ∀ t, fn = some t → destroyer = some t ∧ copier = some t ∧ mover = some t

namespace Pointers

/-- The initial ones. -/
def null : Pointers α ω ι ρ N where
  wired _ h := by cases h

/-- Those that `set` makes for a callable type. -/
def of (t : CallableType α ω ι ρ N) : Pointers α ω ι ρ N where
  fn := some t
  destroyer := some t
  copier := some t
  mover := some t
  wired _ h := ⟨h, h, h⟩

/-- `clear`. -/
def clear (p : Pointers α ω ι ρ N) : Pointers α ω ι ρ N where
  fn := none
  destroyer := p.destroyer
  copier := p.copier
  mover := p.mover
  wired _ h := by cases h

/-- `m_destroyer(x)`, for a storage at `a`. -/
def destroy (p : Pointers α ω ι ρ N) (a : α) (x : Object N ω) : Object N ω :=
  match p.destroyer with
  | some t => x.write (t.destroy a (t.read x))
  | none => x

/-- `m_copier(y, x)`, for storages `x` at `a` and `y` at `b`. -/
def copy (p : Pointers α ω ι ρ N) (a : α) (x : Object N ω) (b : α) (y : Object N ω) : Object N ω :=
  match p.copier with
  | some t => y.write (t.copy a (t.read x) b)
  | none => y

/-- `m_mover(y, x)`, for storages `x` at `a` and `y` at `b`: the two, `y` first. -/
def move (p : Pointers α ω ι ρ N) (a : α) (x : Object N ω) (b : α) (y : Object N ω) :
    Object N ω × Object N ω :=
  match p.mover with
  | some t =>
    let moved := t.move a (t.read x) b
    (y.write moved.1, x.write moved.2)
  | none => (y, x)

end Pointers

/-- `bfc::function`. -/
structure FunctionObject (α ω ι ρ : Type) (N : Nat) where
  object : Object N ω
  pointers : Pointers α ω ι ρ N

/-- `swap(m_object[i], p_other.m_object[i])`. -/
def swapByte (bytes : (Fin N → UInt8) × (Fin N → UInt8)) (i : Fin N) :
    (Fin N → UInt8) × (Fin N → UInt8) :=
  (Function.update bytes.1 i (bytes.2 i), Function.update bytes.2 i (bytes.1 i))

/-- The loop of `swap` over two storages. -/
def swapBytes (x y : Fin N → UInt8) : (Fin N → UInt8) × (Fin N → UInt8) :=
  (List.finRange N).foldl swapByte (x, y)

namespace FunctionObject

/-- `operator bool`. -/
def engaged (f : FunctionObject α ω ι ρ N) : Bool := f.pointers.fn.isSome

def clear (f : FunctionObject α ω ι ρ N) : FunctionObject α ω ι ρ N :=
  { f with pointers := f.pointers.clear }

def reset (f : FunctionObject α ω ι ρ N) (a : α) : FunctionObject α ω ι ρ N :=
  let f := if f.engaged then { f with object := f.pointers.destroy a f.object } else f
  f.clear

def set (f : FunctionObject α ω ι ρ N) (a : α) (p : Callable α ω ι ρ N) :
    FunctionObject α ω ι ρ N where
  object := f.object.write (p.forward a)
  pointers := .of p.type

/-- `operator=(callable_t&&)`. -/
def assign (f : FunctionObject α ω ι ρ N) (a : α) (p : Callable α ω ι ρ N) :
    FunctionObject α ω ι ρ N :=
  (f.reset a).set a p

/-- `operator=(function&&)`, from another object, at `b`: the two. -/
def moveAssign (f : FunctionObject α ω ι ρ N) (a : α) (other : FunctionObject α ω ι ρ N) (b : α) :
    FunctionObject α ω ι ρ N × FunctionObject α ω ι ρ N :=
  let f := f.reset a
  if other.engaged then
    let moved := other.pointers.move b other.object a f.object
    ({ object := moved.1, pointers := other.pointers }, { other with object := moved.2 }.reset b)
  else (f.clear, other)

/-- `operator()`: what it returns, unless it throws, and the object then. -/
def invoke (f : FunctionObject α ω ι ρ N) (a : α) (i : ι) : Option ρ × FunctionObject α ω ι ρ N :=
  match f.pointers.fn with
  | some t =>
    let called := t.call a (t.read f.object) i
    (some called.1, { f with object := f.object.write called.2 })
  | none => (none, f)

/-- `swap`, with another object. -/
def swap (f other : FunctionObject α ω ι ρ N) :
    FunctionObject α ω ι ρ N × FunctionObject α ω ι ρ N :=
  let bytes := swapBytes f.object.bytes other.object.bytes
  ({ object := { bytes := bytes.1, owned := other.object.owned }, pointers := other.pointers },
    { object := { bytes := bytes.2, owned := f.object.owned }, pointers := f.pointers })

variable [Inhabited ω]

/-- An object as it is before its constructor's body: `m_object` is zero. -/
def initial : FunctionObject α ω ι ρ N where
  object := { bytes := fun _ => 0, owned := default }
  pointers := .null

/-- `function(const function&)`, at `a`, from an object at `b`. -/
def copyConstruct (a : α) (other : FunctionObject α ω ι ρ N) (b : α) : FunctionObject α ω ι ρ N :=
  if other.engaged then
    { object := other.pointers.copy b other.object a (initial : FunctionObject α ω ι ρ N).object
      pointers := other.pointers }
  else initial.clear

/-- `function(function&&)`, at `a`, from an object at `b`: the two. -/
def moveConstruct (a : α) (other : FunctionObject α ω ι ρ N) (b : α) :
    FunctionObject α ω ι ρ N × FunctionObject α ω ι ρ N :=
  if other.engaged then
    let moved := other.pointers.move b other.object a (initial : FunctionObject α ω ι ρ N).object
    ({ object := moved.1, pointers := other.pointers }, { other with object := moved.2 }.reset b)
  else (initial.clear, other)

end FunctionObject

/-! ## The byte loop -/

/-- After the rounds for some positions, those are exchanged and no others. -/
theorem foldl_swapByte {is : List (Fin N)} (nodup : is.Nodup) (x y : Fin N → UInt8) (j : Fin N) :
    (is.foldl swapByte (x, y)).1 j = (if j ∈ is then y j else x j) ∧
      (is.foldl swapByte (x, y)).2 j = if j ∈ is then x j else y j := by
  induction is generalizing x y with
  | nil => exact ⟨rfl, rfl⟩
  | cons i is ih =>
    obtain ⟨new, nodup⟩ := List.nodup_cons.mp nodup
    obtain ⟨first, second⟩ := ih nodup (Function.update x i (y i)) (Function.update y i (x i))
    rw [List.foldl_cons, swapByte, first, second]
    by_cases same : j = i
    · subst same
      simp only [new, if_false, List.mem_cons_self, if_true, Function.update_self, and_self]
    · have rest : j ∈ i :: is ↔ j ∈ is := by
        rw [List.mem_cons, or_iff_right same]
      simp only [rest, Function.update_of_ne same, and_self]

/-- The loop exchanges the two storages. -/
theorem swapBytes_eq (x y : Fin N → UInt8) : swapBytes x y = (y, x) := by
  have each := foldl_swapByte (List.nodup_finRange N) x y
  apply Prod.ext
  · funext j
    exact (each j).1.trans (if_pos (List.mem_finRange j))
  · funext j
    exact (each j).2.trans (if_pos (List.mem_finRange j))

theorem FunctionObject.swap_eq (f other : FunctionObject α ω ι ρ N) :
    f.swap other = (other, f) := by
  unfold swap
  rw [swapBytes_eq]

/-! ## What a function object holds -/

namespace FunctionObject

/-- The object in the storage is that of a given value, correct at an address; with nothing given,
there is none. -/
def Holds (f : FunctionObject α ω ι ρ N) (a : α) : Option (Given α ω ι ρ N) → Prop
  | none => f.pointers.fn = none
  | some g => f.pointers.fn = some g.type ∧ g.type.Correct a (g.type.read f.object) g.value

variable {f other : FunctionObject α ω ι ρ N} {a b : α} {g : Option (Given α ω ι ρ N)}

theorem clear_holds (f : FunctionObject α ω ι ρ N) (a : α) : f.clear.Holds a none := rfl

theorem reset_holds (f : FunctionObject α ω ι ρ N) (a b : α) : (f.reset a).Holds b none := rfl

theorem set_holds (f : FunctionObject α ω ι ρ N) (a : α) (p : Callable α ω ι ρ N) :
    (f.set a p).Holds a (some p.toGiven) := by
  refine ⟨rfl, ?_⟩
  show p.type.Correct a (p.type.read (f.object.write (p.forward a))) p.value
  rw [CallableType.read_write]
  exact p.forward_correct a

/-- An engaged object has something given, and the pointers are those of its type. -/
theorem Holds.wired (h : f.Holds a g) (engaged : f.engaged = true) :
    ∃ given, g = some given ∧ f.pointers.copier = some given.type ∧
      f.pointers.mover = some given.type ∧ f.pointers.fn = some given.type ∧
      given.type.Correct a (given.type.read f.object) given.value := by
  cases g with
  | none =>
    rw [FunctionObject.engaged, show f.pointers.fn = none from h] at engaged
    cases engaged
  | some given =>
    obtain ⟨-, copier, mover⟩ := f.pointers.wired given.type h.1
    exact ⟨given, rfl, copier, mover, h.1, h.2⟩

/-- An object that is not engaged has nothing given. -/
theorem Holds.eq_none (h : f.Holds a g) (idle : ¬f.engaged = true) : g = none := by
  cases g with
  | none => rfl
  | some given =>
    rw [FunctionObject.engaged, h.1] at idle
    exact absurd rfl idle

/-- The storage that `m_mover` has filled holds what the source did. -/
theorem Holds.move (h : other.Holds b g) (engaged : other.engaged = true) (y : Object N ω) :
    FunctionObject.Holds
      { object := (other.pointers.move b other.object a y).1, pointers := other.pointers } a g := by
  obtain ⟨given, rfl, -, mover, fn, correct⟩ := h.wired engaged
  refine ⟨fn, ?_⟩
  rw [Pointers.move, mover]
  show given.type.Correct a (given.type.read (y.write _)) given.value
  rw [CallableType.read_write]
  exact given.type.move_correct correct

theorem moveAssign_holds (h : other.Holds b g) (f : FunctionObject α ω ι ρ N) (a : α) :
    (f.moveAssign a other b).1.Holds a g ∧ (f.moveAssign a other b).2.Holds b none := by
  unfold moveAssign
  dsimp only
  split
  · rename_i engaged
    exact ⟨h.move engaged _, reset_holds _ b b⟩
  · rename_i idle
    obtain rfl := h.eq_none idle
    exact ⟨clear_holds _ a, h⟩

theorem Holds.invoke (h : f.Holds a g) (i : ι) :
    (f.invoke a i).1 = g.map (·.result i) ∧ (f.invoke a i).2.Holds a (g.map (·.after i)) := by
  cases g with
  | none =>
    have nothing : f.pointers.fn = none := h
    rw [FunctionObject.invoke, nothing]
    exact ⟨rfl, nothing⟩
  | some given =>
    obtain ⟨fn, correct⟩ := h
    obtain ⟨result, after⟩ := given.type.call_correct (i := i) correct
    rw [FunctionObject.invoke, fn]
    refine ⟨congrArg some result, fn, ?_⟩
    show given.type.Correct a (given.type.read (f.object.write _)) _
    rw [CallableType.read_write]
    exact after

variable [Inhabited ω]

theorem copyConstruct_holds (h : other.Holds b g) (a : α) :
    (copyConstruct a other b).Holds a g := by
  unfold copyConstruct
  split
  · rename_i engaged
    obtain ⟨given, rfl, copier, -, fn, correct⟩ := h.wired engaged
    refine ⟨fn, ?_⟩
    rw [Pointers.copy, copier]
    show given.type.Correct a (given.type.read (Object.write _ _)) given.value
    rw [CallableType.read_write]
    exact given.type.copy_correct correct
  · rename_i idle
    obtain rfl := h.eq_none idle
    exact clear_holds _ a

theorem moveConstruct_holds (h : other.Holds b g) (a : α) :
    (moveConstruct a other b).1.Holds a g ∧ (moveConstruct a other b).2.Holds b none := by
  unfold moveConstruct
  split
  · rename_i engaged
    exact ⟨h.move engaged _, reset_holds _ b b⟩
  · rename_i idle
    obtain rfl := h.eq_none idle
    exact ⟨clear_holds _ a, h⟩

end FunctionObject

end Bfc.Function
