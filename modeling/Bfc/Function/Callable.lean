import Mathlib.Data.Fin.Basic
import Mathlib.Logic.Function.Basic

/-!
# Callables

What `bfc::function` is given: an object of a callable type, which has bytes at its address and may
own memory elsewhere. A callable type is what its constructors, its destructor and its call do to
such objects, and which of them are correct: a short string, or the head of a list, is correct only
at the address that its own pointers, or those of its nodes, point back to. That the constructors
establish a correct object at the destination is part of the type; nothing is said of bytes that are
copied as they are.

`α` are addresses, `ω` what an object owns elsewhere, and `ι` and `ρ` the arguments and results of a
call.
-/

namespace Bfc.Function

/-- The `n` bytes of an object, and what they own elsewhere. -/
structure Object (n : Nat) (ω : Type) where
  bytes : Fin n → UInt8
  owned : ω

namespace Object

variable {N n : Nat} {ω : Type}

/-- The object in the first bytes of a storage. -/
def read (x : Object N ω) (fits : n ≤ N) : Object n ω where
  bytes i := x.bytes (i.castLE fits)
  owned := x.owned

/-- A storage with an object in its first bytes. -/
def write (x : Object N ω) (y : Object n ω) : Object N ω where
  bytes i := if h : i.val < n then y.bytes ⟨i.val, h⟩ else x.bytes i
  owned := y.owned

theorem ext {x y : Object n ω} (bytes : ∀ i, x.bytes i = y.bytes i) (owned : x.owned = y.owned) :
    x = y := by
  cases x
  cases y
  simp only [mk.injEq]
  exact ⟨funext bytes, owned⟩

/-- What is written is read. -/
theorem read_write (x : Object N ω) (y : Object n ω) (fits : n ≤ N) :
    (x.write y).read fits = y := by
  apply ext
  · intro i
    exact dif_pos (show (i.castLE fits).val < n from i.isLt)
  · rfl

end Object

/-- A callable type that fits `N` bytes: its values and what calling one does, which objects are
correct for a value at an address, and what its members do with the objects at these addresses. -/
structure CallableType (α ω ι ρ : Type) (N : Nat) where
  Value : Type
  apply : Value → ι → ρ × Value
  size : Nat
  fits : size ≤ N
  Correct : α → Object size ω → Value → Prop
  /-- The copy constructor: from an address and the object there, the object at another. -/
  copy : α → Object size ω → α → Object size ω
  /-- The move constructor, which leaves something in the source too. -/
  move : α → Object size ω → α → Object size ω × Object size ω
  call : α → Object size ω → ι → ρ × Object size ω
  /-- The destructor: what is left of the object. -/
  destroy : α → Object size ω → Object size ω
  copy_correct : ∀ {a b x v}, Correct a x v → Correct b (copy a x b) v
  move_correct : ∀ {a b x v}, Correct a x v → Correct b (move a x b).1 v
  call_correct : ∀ {a x v i}, Correct a x v →
    (call a x i).1 = (apply v i).1 ∧ Correct a (call a x i).2 (apply v i).2

/-- A value of a callable type. -/
structure Given (α ω ι ρ : Type) (N : Nat) where
  type : CallableType α ω ι ρ N
  value : type.Value

/-- A callable that a function object is given: `p_obj`, at an address of its own, with its value
category. -/
structure Callable (α ω ι ρ : Type) (N : Nat) extends Given α ω ι ρ N where
  address : α
  object : Object type.size ω
  correct : type.Correct address object value
  rvalue : Bool

variable {α ω ι ρ : Type} {N : Nat}

/-- The object of a callable type in the first bytes of a storage. -/
def CallableType.read (t : CallableType α ω ι ρ N) (x : Object N ω) : Object t.size ω :=
  x.read t.fits

@[simp]
theorem CallableType.read_write (t : CallableType α ω ι ρ N) (x : Object N ω)
    (y : Object t.size ω) : t.read (x.write y) = y :=
  Object.read_write x y t.fits

/-- What `callable_tType(std::forward<callable_t>(p_obj))` constructs at an address. -/
def Callable.forward (p : Callable α ω ι ρ N) (a : α) : Object p.type.size ω :=
  if p.rvalue then (p.type.move p.address p.object a).1 else p.type.copy p.address p.object a

theorem Callable.forward_correct (p : Callable α ω ι ρ N) (a : α) :
    p.type.Correct a (p.forward a) p.value := by
  unfold forward
  split
  · exact p.type.move_correct p.correct
  · exact p.type.copy_correct p.correct

/-- The value after a call. -/
def Given.after (g : Given α ω ι ρ N) (i : ι) : Given α ω ι ρ N :=
  { g with value := (g.type.apply g.value i).2 }

/-- What a call returns. -/
def Given.result (g : Given α ω ι ρ N) (i : ι) : ρ := (g.type.apply g.value i).1

end Bfc.Function
