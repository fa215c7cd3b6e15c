import Mathlib.Data.List.Count
import Mathlib.Data.List.Nodup
import Bfc.Function.Throwing
import Bfc.Lib.Shares
import Bfc.Lib.Tables
import Bfc.Lib.Transition

/-!
# Lifetimes are balanced

`Accounted` is the invariant: each callable object that was ever constructed is in one function's
storage or has been destroyed, once; a function whose `m_fn` is null has nothing in its storage, and
for another all four pointers are those of the type of the object in it.

An operation rewrites one function or two. Emptying one destroys what is in it, filling an empty one
takes the next number, and either way the account comes out even: `Accounted.empty` and
`Accounted.fill`. A constructor that throws does so before anything is written, so that what is left
is what there was when it was called: nothing, for a copy assignment.
-/

namespace Bfc.Function.Throwing

open Exits

variable {τ : Type}

/-! ## The account -/

/-- The callable object at a place of the table. -/
def callableOf (slot : Option (FunctionObject τ)) : List Nat := (slot.bind (·.object)).toList

/-- The callable objects in the storages. -/
def World.callables (w : World τ) : List Nat := Shares.whole callableOf w.functions

/-- The pointers and the storage fit together. -/
def Formed (constructed : List τ) (f : FunctionObject τ) : Prop :=
  match f.fn with
  | none => f.object = none
  | some t => f.destroyer = some t ∧ f.copier = some t ∧ f.mover = some t ∧
      ∃ n, f.object = some n ∧ constructed[n]? = some t

/-- The invariant. -/
structure Accounted (w : World τ) : Prop where
  held : ∀ n, w.callables.count n + w.destroyed.count n = if n < w.constructed.length then 1 else 0
  formed : ∀ (i : Nat) (f : FunctionObject τ), w.functions[i]? = some (some f) →
    Formed w.constructed f

variable {w w' : World τ} {f o : FunctionObject τ} {this other n : Nat} {t : τ}

theorem Formed.empty (h : Formed w.constructed f) (idle : f.engaged = false) : f.object = none := by
  rw [FunctionObject.engaged, Option.isSome_eq_false_iff, Option.isNone_iff_eq_none] at idle
  rw [Formed, idle] at h
  exact h

theorem Formed.engaged (h : Formed w.constructed f) (engaged : f.engaged = true) :
    ∃ t n, f.fn = some t ∧ f.destroyer = some t ∧ f.copier = some t ∧ f.mover = some t ∧
      f.object = some n ∧ w.constructed[n]? = some t := by
  obtain ⟨t, fn⟩ := Option.isSome_iff_exists.mp engaged
  rw [Formed, fn] at h
  obtain ⟨destroyer, copier, mover, n, object, type⟩ := h
  exact ⟨t, n, fn, destroyer, copier, mover, object, type⟩

/-- What was constructed keeps its type. -/
theorem Formed.later {constructed : List τ} (h : Formed constructed f) (more : List τ) :
    Formed (constructed ++ more) f := by
  revert h
  unfold Formed
  split
  · exact id
  · rintro ⟨destroyer, copier, mover, n, object, type⟩
    exact ⟨destroyer, copier, mover, n, object, Tables.append_kept type more⟩

namespace Accounted

/-- **The rule for a rewritten place**: what is new there and what was destroyed make up for what
was there and what was constructed. -/
theorem rewrite (h : Accounted w) {i : Nat} {slot : Option (FunctionObject τ)}
    (hi : w.functions[i]? = some slot) (new : Option (FunctionObject τ)) (fresh : List τ)
    (gone : List Nat)
    (balance : ∀ n, (callableOf new).count n + gone.count n = (callableOf slot).count n +
      if w.constructed.length ≤ n ∧ n < w.constructed.length + fresh.length then 1 else 0)
    (formed : ∀ f, new = some f → Formed (w.constructed ++ fresh) f) :
    Accounted
      { functions := w.functions.set i new
        constructed := w.constructed ++ fresh
        destroyed := w.destroyed ++ gone } where
  held n := by
    have before := h.held n
    have law : (World.callables { w with functions := w.functions.set i new }).count n +
        (callableOf slot).count n = w.callables.count n + (callableOf new).count n :=
      Shares.count_set hi new n
    have even := balance n
    show (World.callables { w with functions := w.functions.set i new }).count n + _ = _
    rw [List.count_append, List.length_append]
    by_cases old : n < w.constructed.length
    · rw [if_pos old] at before
      rw [if_neg (by omega)] at even
      rw [if_pos (by omega)]
      omega
    · rw [if_neg old] at before
      split at even
      · rw [if_pos (by omega)]
        omega
      · rw [if_neg (by omega)]
        omega
  formed j f hf := by
    rcases Tables.set_cases hi hf with ⟨-, written⟩ | ⟨-, old⟩
    · exact formed f written.symm
    · exact (h.formed j f old).later fresh

/-- A place is emptied: what was in it has been destroyed. -/
theorem empty (h : Accounted w) (hf : w.functions[this]? = some (some f))
    {new : Option (FunctionObject τ)}
    (nothing : ∀ g, new = some g → g.object = none ∧ g.fn = none) :
    Accounted
      { functions := w.functions.set this new
        constructed := w.constructed
        destroyed := w.destroyed ++ f.object.toList } := by
  have none_new : callableOf new = [] := by
    cases new with
    | none => rfl
    | some g => rw [callableOf, Option.bind_some, (nothing g rfl).1, Option.toList_none]
  have emptied := h.rewrite hf new [] f.object.toList (fun n => ?_) fun g hg => ?_
  · rwa [List.append_nil] at emptied
  · rw [none_new, callableOf, Option.bind_some, List.length_nil, if_neg (by omega), List.count_nil,
      Nat.zero_add, Nat.add_zero]
  · rw [Formed, (nothing g hg).2]
    exact (nothing g hg).1

/-- An empty place is filled: the next callable object is there. -/
theorem fill (h : Accounted w) (hf : w.functions[this]? = some (some f)) (vacant : f.object = none)
    (new : FunctionObject τ) (object : new.object = some w.constructed.length)
    (fn : new.fn = some t) (destroyer : new.destroyer = some t) (copier : new.copier = some t)
    (mover : new.mover = some t) :
    Accounted
      { functions := w.functions.set this (some new)
        constructed := w.constructed ++ [t]
        destroyed := w.destroyed } := by
  have filled := h.rewrite hf (some new) [t] [] (fun n => ?_) fun g hg => ?_
  · rwa [List.append_nil] at filled
  · rw [callableOf, callableOf, Option.bind_some, Option.bind_some, object, vacant,
      Option.toList_some, Option.toList_none, List.count_singleton, List.count_nil,
      List.length_singleton]
    by_cases next : w.constructed.length = n
    · rw [if_pos (beq_iff_eq.mpr next), if_pos (by omega)]
    · rw [if_neg (by rwa [beq_iff_eq]), if_neg (by omega)]
  · obtain rfl := Option.some.inj hg
    rw [Formed, fn]
    exact ⟨destroyer, copier, mover, _, object, List.getElem?_concat_length⟩

end Accounted

/-! ## What the parts do -/

theorem function_ok (hf : w.functions[this]? = some (some f)) : w.function this = .ok f := by
  rw [World.function, hf]

theorem put_function (hf : w.functions[this]? = some (some f)) (g : FunctionObject τ) :
    (w.put this g).functions[this]? = some (some g) := Tables.set_here hf _

theorem put_other (ne : this ≠ other) (g : FunctionObject τ) :
    (w.put this g).functions[other]? = w.functions[other]? :=
  List.getElem?_set_ne ne

/-- The state after a callable of a type was constructed in a storage. -/
def World.filled (w : World τ) (this : Nat) (f : FunctionObject τ) (t : τ) : World τ :=
  { w.put this { f with object := some w.constructed.length } with
    constructed := w.constructed ++ [t] }

/-- A constructor that throws leaves everything as it was. -/
theorem newCallable_ends (hf : w.functions[this]? = some (some f)) (t : τ) (throws : Bool) :
    Ends (w.newCallable this t throws) (· = w.filled this f t) (· = w) := by
  unfold World.newCallable
  rw [function_ok hf]
  cases throws with
  | true => exact rfl
  | false => exact rfl

variable [DecidableEq τ]

theorem callable_ok (ho : w.functions[other]? = some (some o)) (object : o.object = some n)
    (type : w.constructed[n]? = some t) : w.callable other t = .ok n := by
  unfold World.callable
  rw [function_ok ho]
  simp only [bind, Except.bind, object, type, if_true]

/-- A destroyer destroys what is in the storage, and there is something in it if it is called. -/
theorem Accounted.destroyCallable (h : Accounted w) (hf : w.functions[this]? = some (some f)) :
    w.destroyCallable this = .ok
      { functions := w.functions.set this (some { f with object := none })
        constructed := w.constructed
        destroyed := w.destroyed ++ f.object.toList } := by
  have formed := h.formed this f hf
  unfold World.destroyCallable
  rw [function_ok hf]
  cases engaged : f.engaged with
  | true =>
    obtain ⟨t, n, -, destroyer, -, -, object, type⟩ := formed.engaged engaged
    simp only [bind, Except.bind, engaged, if_true, World.callDestroyer, function_ok hf, destroyer,
      callable_ok hf object type, World.put, object, Option.toList_some]
  | false =>
    have vacant := formed.empty engaged
    have same : ({ f with object := none } : FunctionObject τ) = f := by
      cases f
      exact congrArg (FunctionObject.mk · _ _ _ _) vacant.symm
    simp only [bind, Except.bind, engaged, Bool.false_eq_true, if_false, vacant, Option.toList_none,
      List.append_nil]
    obtain ⟨inside, here⟩ := List.getElem?_eq_some_iff.mp hf
    rw [same, ← here, List.set_getElem_self]

/-- The state after a function was emptied. -/
def World.emptied (w : World τ) (this : Nat) (f : FunctionObject τ)
    (new : Option (FunctionObject τ)) : World τ where
  functions := w.functions.set this new
  constructed := w.constructed
  destroyed := w.destroyed ++ f.object.toList

theorem Accounted.reset (h : Accounted w) (hf : w.functions[this]? = some (some f)) :
    w.reset this = .ok (w.emptied this f (some { f with object := none, fn := none })) ∧
      Accounted (w.emptied this f (some { f with object := none, fn := none })) := by
  refine ⟨?_, h.empty hf fun g hg => Option.some.inj hg ▸ ⟨rfl, rfl⟩⟩
  have inside := (List.getElem?_eq_some_iff.mp hf).1
  unfold World.reset
  rw [h.destroyCallable hf]
  simp only [bind, Except.bind, World.clear, World.function, World.put, World.emptied,
    List.getElem?_set_self inside, List.set_set]

theorem Accounted.destroy (h : Accounted w) (hf : w.functions[this]? = some (some f)) :
    w.destroy this = .ok (w.emptied this f none) ∧ Accounted (w.emptied this f none) := by
  refine ⟨?_, h.empty hf fun g hg => by cases hg⟩
  unfold World.destroy
  rw [h.destroyCallable hf]
  simp only [bind, Except.bind, World.emptied, List.set_set]

/-- The copier and the mover construct a callable of the type of the other's. -/
theorem Accounted.constructFromOther (h : Accounted w) (hf : w.functions[this]? = some (some f))
    (ho : w.functions[other]? = some (some o)) (engaged : o.engaged = true)
    {pointer : Option τ} (own : pointer = o.copier ∨ pointer = o.mover) (throws : Bool) :
    ∃ t, o.fn = some t ∧ o.destroyer = some t ∧ o.copier = some t ∧ o.mover = some t ∧
      Ends (w.constructFromOther pointer this other throws) (· = w.filled this f t) (· = w) := by
  obtain ⟨t, n, fn, destroyer, copier, mover, object, type⟩ := (h.formed other o ho).engaged engaged
  refine ⟨t, fn, destroyer, copier, mover, ?_⟩
  have called : pointer = some t := by
    rcases own with rfl | rfl
    · exact copier
    · exact mover
  unfold World.constructFromOther
  rw [called]
  simp only [bind, Except.bind, callable_ok ho object type]
  exact newCallable_ends hf t throws

omit [DecidableEq τ] in
/-- With the other's pointers, a function whose storage has just been filled is like the other. -/
theorem Accounted.copyMetaFrom (h : Accounted w) (hf : w.functions[this]? = some (some f))
    (vacant : f.object = none) (ho : w.functions[other]? = some (some o)) (ne : this ≠ other)
    (fn : o.fn = some t) (destroyer : o.destroyer = some t) (copier : o.copier = some t)
    (mover : o.mover = some t) :
    ∃ w', (w.filled this f t).copyMetaFrom this other = .ok w' ∧ Accounted w' ∧
      w'.functions =
        w.functions.set this (some { o with object := some w.constructed.length }) := by
  have here : (w.filled this f t).functions[this]? =
      some (some { f with object := some w.constructed.length }) := put_function hf _
  have there : (w.filled this f t).functions[other]? = some (some o) :=
    (put_other ne _).trans ho
  refine ⟨_, ?_, h.fill hf vacant { o with object := some w.constructed.length } rfl fn destroyer
    copier mover, rfl⟩
  unfold World.copyMetaFrom
  rw [function_ok here, function_ok there]
  simp only [bind, Except.bind, World.filled, World.put, List.set_set]

omit [DecidableEq τ] in
theorem Accounted.set (h : Accounted w) (hf : w.functions[this]? = some (some f))
    (vacant : f.object = none) (t : τ) (throws : Bool) :
    Ends (w.set this t throws) Accounted (· = w) := by
  refine (newCallable_ends hf t throws).bind fun w' filled => ?_
  subst filled
  have here : (w.filled this f t).functions[this]? =
      some (some { f with object := some w.constructed.length }) := put_function hf _
  rw [function_ok here]
  simp only [bind, Except.bind, World.filled, World.put, List.set_set]
  exact h.fill hf vacant _ rfl rfl rfl rfl rfl

omit [DecidableEq τ] in
/-- A function that has nothing in its storage is cleared. -/
theorem Accounted.clear (h : Accounted w) (hf : w.functions[this]? = some (some f))
    (vacant : f.object = none) :
    ∃ w', w.clear this = .ok w' ∧ Accounted w' ∧
      w'.functions = w.functions.set this (some { f with fn := none }) := by
  refine ⟨w.put this { f with fn := none }, ?_, ?_, rfl⟩
  · unfold World.clear
    rw [function_ok hf]
    rfl
  · have cleared := h.empty hf fun g (hg : some { f with fn := none } = some g) =>
      Option.some.inj hg ▸ ⟨vacant, rfl⟩
    have nothing : w.destroyed ++ f.object.toList = w.destroyed := by
      rw [vacant, Option.toList_none, List.append_nil]
    rwa [nothing] at cleared

/-- Moving into an empty function. -/
theorem Accounted.moveFrom (h : Accounted w) (hf : w.functions[this]? = some (some f))
    (vacant : f.object = none) (ho : w.functions[other]? = some (some o)) (ne : this ≠ other)
    (throws : Bool) : Ends (w.moveFrom this other throws) Accounted (· = w) := by
  unfold World.moveFrom
  rw [function_ok ho]
  cases engaged : o.engaged with
  | false =>
    obtain ⟨w', cleared, accounted, -⟩ := h.clear hf vacant
    simp only [bind, Except.bind, engaged, Bool.false_eq_true, if_false, cleared]
    exact accounted
  | true =>
    obtain ⟨t, fn, destroyer, copier, mover, constructs⟩ :=
      h.constructFromOther hf ho engaged (.inr rfl) throws
    simp only [bind, Except.bind, engaged, if_true]
    refine constructs.bind fun w' filled => ?_
    subst filled
    obtain ⟨w', copied, accounted, functions⟩ :=
      h.copyMetaFrom hf vacant ho ne fn destroyer copier mover
    rw [copied]
    have there : w'.functions[other]? = some (some o) := by
      rw [functions, List.getElem?_set_ne ne, ho]
    obtain ⟨reset, accounted⟩ := accounted.reset there
    show Ends (w'.reset other) Accounted _
    rw [reset]
    exact accounted

/-! ## Constructors -/

/-- The state after a constructor was left by an exception. -/
def World.aborted (w : World τ) : World τ := { w with functions := w.functions ++ [none] }

/-- The state in which a constructor's body is run. -/
def World.begun (w : World τ) : World τ := { w with functions := w.functions ++ [some {}] }

omit [DecidableEq τ] in
theorem begun_function (w : World τ) : w.begun.functions[w.functions.length]? = some (some {}) :=
  List.getElem?_concat_length

omit [DecidableEq τ] in
/-- A place that is added with nothing in it. -/
theorem Accounted.append (h : Accounted w) {slot : Option (FunctionObject τ)}
    (nothing : ∀ g, slot = some g → g.object = none ∧ g.fn = none) :
    Accounted { w with functions := w.functions ++ [slot] } where
  held n := by
    have none_new : callableOf slot = [] := by
      cases slot with
      | none => rfl
      | some g => rw [callableOf, Option.bind_some, (nothing g rfl).1, Option.toList_none]
    show (Shares.whole callableOf (w.functions ++ [slot])).count n + _ = _
    rw [Shares.whole_append, Shares.whole_singleton, none_new, List.append_nil]
    exact h.held n
  formed i g hg := by
    rcases Tables.append_cases hg with ⟨-, new⟩ | ⟨-, old⟩
    · obtain ⟨object, fn⟩ := nothing g new.symm
      rw [Formed, fn]
      exact object
    · exact h.formed i g old

omit [DecidableEq τ] in
theorem Accounted.begun (h : Accounted w) : Accounted w.begun :=
  h.append fun _ hg => Option.some.inj hg ▸ ⟨rfl, rfl⟩

omit [DecidableEq τ] in
theorem Accounted.aborted (h : Accounted w) : Accounted w.aborted :=
  h.append fun _ hg => by cases hg

omit [DecidableEq τ] in
/-- If the body leaves the state as it was when it throws, there is one more empty place. -/
theorem constructing_ends {body : World τ → Nat → Result τ (World τ)} {P : World τ → Prop}
    (h : Ends (body w.begun w.functions.length) P (· = w.begun)) :
    Ends (w.constructing body) P (· = w.aborted) := by
  have started : body { w with functions := w.functions ++ [some {}] } w.functions.length =
    body w.begun w.functions.length := rfl
  unfold World.constructing
  simp only [started]
  revert h
  cases body w.begun w.functions.length with
  | ok w' => exact id
  | error exit =>
    cases exit with
    | wrong fault => exact id
    | threw w' =>
      intro same
      obtain rfl : w' = w.begun := same
      show World.mk (w.begun.functions.set w.functions.length none) _ _ = w.aborted
      rw [World.begun, List.set_append_right _ _ (Nat.le_refl _), Nat.sub_self]
      rfl

theorem Accounted.copyConstruct (h : Accounted w) (ho : w.functions[other]? = some (some o))
    (throws : Bool) :
    Ends (w.copyConstruct other throws)
      (fun w' => Accounted w' ∧ ∃ f, w'.functions = w.functions ++ [some f])
      (· = w.aborted) := by
  have inside := (List.getElem?_eq_some_iff.mp ho).1
  have ne : w.functions.length ≠ other := Nat.ne_of_gt inside
  have there : w.begun.functions[other]? = some (some o) := Tables.append_kept ho _
  -- a table whose last place is written is the old one and that place
  have last : ∀ g, w.begun.functions.set w.functions.length (some g) = w.functions ++ [some g] := by
    intro g
    rw [World.begun, List.set_append_right _ _ (Nat.le_refl _), Nat.sub_self]
    rfl
  refine constructing_ends ?_
  rw [function_ok there]
  cases engaged : o.engaged with
  | false =>
    obtain ⟨w', cleared, accounted, functions⟩ := h.begun.clear (begun_function w) rfl
    simp only [bind, Except.bind, engaged, Bool.false_eq_true, if_false, cleared]
    exact ⟨accounted, _, functions.trans (last _)⟩
  | true =>
    obtain ⟨t, fn, destroyer, copier, mover, constructs⟩ :=
      h.begun.constructFromOther (begun_function w) there engaged (.inl rfl) throws
    simp only [bind, Except.bind, engaged, if_true]
    refine constructs.bind fun w' filled => ?_
    subst filled
    obtain ⟨w', copied, accounted, functions⟩ :=
      h.begun.copyMetaFrom (begun_function w) rfl there ne fn destroyer copier mover
    rw [copied]
    exact ⟨accounted, _, functions.trans (last _)⟩

omit [DecidableEq τ] in
theorem Accounted.construct (h : Accounted w) :
    Ends w.construct Accounted (· = w.aborted) := by
  obtain ⟨w', cleared, accounted, -⟩ := h.begun.clear (begun_function w) rfl
  exact constructing_ends (.of_ok cleared accounted)

omit [DecidableEq τ] in
theorem Accounted.constructFrom (h : Accounted w) (t : τ) (throws : Bool) :
    Ends (w.constructFrom t throws) Accounted (· = w.aborted) :=
  constructing_ends (h.begun.set (begun_function w) rfl t throws)

theorem Accounted.moveConstruct (h : Accounted w) (ho : w.functions[other]? = some (some o))
    (throws : Bool) : Ends (w.moveConstruct other throws) Accounted (· = w.aborted) := by
  have inside := (List.getElem?_eq_some_iff.mp ho).1
  have there : w.begun.functions[other]? = some (some o) := Tables.append_kept ho _
  have ne := Nat.ne_of_gt inside
  exact constructing_ends (h.begun.moveFrom (begun_function w) rfl there ne throws)

/-! ## Assignments -/

omit [DecidableEq τ] in
/-- Two functions with all their members exchanged. -/
theorem Accounted.swap (h : Accounted w) (hf : w.functions[this]? = some (some f))
    (ho : w.functions[other]? = some (some o)) (ne : this ≠ other) :
    w.swap this other = .ok ((w.put this o).put other f) ∧
      Accounted ((w.put this o).put other f) := by
  have there : (w.put this o).functions[other]? = some (some o) := (put_other ne o).trans ho
  refine ⟨?_, ?_, fun i g hg => ?_⟩
  · unfold World.swap
    rw [if_neg ne, function_ok hf, function_ok ho]
    rfl
  · intro n
    have held := h.held n
    have first : (Shares.whole callableOf (w.put this o).functions).count n + _ = _ :=
      Shares.count_set hf (some o) n
    have second :
        (Shares.whole callableOf ((w.put this o).put other f).functions).count n + _ = _ :=
      Shares.count_set there (some f) n
    unfold World.callables at held ⊢
    show _ + w.destroyed.count n = if n < w.constructed.length then 1 else 0
    omega
  · show Formed w.constructed g
    by_cases last : i = other
    · subst last
      rw [put_function there] at hg
      exact Option.some.inj (Option.some.inj hg) ▸ h.formed this f hf
    · rw [put_other (Ne.symm last)] at hg
      by_cases first : i = this
      · subst first
        rw [put_function hf] at hg
        exact Option.some.inj (Option.some.inj hg) ▸ h.formed other o ho
      · rw [put_other (Ne.symm first)] at hg
        exact h.formed i g hg

/-- The target of a copy assignment is as it was if the copy throws: there is only the place of the
temporary that never was. -/
theorem Accounted.copyAssign (h : Accounted w) (hf : w.functions[this]? = some (some f))
    (ho : w.functions[other]? = some (some o)) (throws : Bool) :
    Ends (w.copyAssign this other throws) Accounted (· = w.aborted) := by
  unfold World.copyAssign
  split
  · exact h
  · refine (h.copyConstruct ho throws).bind fun w' ⟨accounted, tmp, functions⟩ => ?_
    have inside := (List.getElem?_eq_some_iff.mp hf).1
    have here : w'.functions[this]? = some (some f) := functions ▸ Tables.append_kept hf _
    have there : w'.functions[w.functions.length]? = some (some tmp) :=
      functions ▸ List.getElem?_concat_length
    obtain ⟨swapped, accounted⟩ := accounted.swap here there (Nat.ne_of_lt inside)
    have last : ((w'.put this tmp).put w.functions.length f).functions[w.functions.length]? =
        some (some f) :=
      put_function ((put_other (Nat.ne_of_lt inside) tmp).trans there) f
    obtain ⟨destroyed, accounted⟩ := accounted.destroy last
    rw [swapped]
    show Ends (((w'.put this tmp).put w.functions.length f).destroy w.functions.length) Accounted _
    rw [destroyed]
    exact accounted

/-- The target of a move assignment is empty if the move throws. -/
theorem Accounted.moveAssign (h : Accounted w) (hf : w.functions[this]? = some (some f))
    (ho : w.functions[other]? = some (some o)) (throws : Bool) :
    Ends (w.moveAssign this other throws) Accounted Accounted := by
  unfold World.moveAssign
  split
  · exact h
  · rename_i ne
    obtain ⟨reset, accounted⟩ := h.reset hf
    rw [reset]
    have there : (w.emptied this f (some { f with object := none, fn := none })).functions[other]? =
        some (some o) := (List.getElem?_set_ne ne).trans ho
    have here := put_function hf { f with object := none, fn := none }
    exact (accounted.moveFrom here rfl there ne throws).mono (fun _ => id)
      fun w' same => by rwa [show w' = _ from same]

theorem Accounted.assign (h : Accounted w) (hf : w.functions[this]? = some (some f)) (t : τ)
    (throws : Bool) : Ends (w.assign this t throws) Accounted Accounted := by
  unfold World.assign
  obtain ⟨reset, accounted⟩ := h.reset hf
  rw [reset]
  have here := put_function hf { f with object := none, fn := none }
  exact (accounted.set here rfl t throws).mono (fun _ => id)
    fun w' same => by rwa [show w' = _ from same]

/-! ## Programs -/

omit [DecidableEq τ] in
theorem live_iff {i : Nat} : w.live i = true ↔ ∃ f, w.functions[i]? = some (some f) := by
  unfold World.live
  split
  · rename_i f hf
    exact ⟨fun _ => ⟨f, hf⟩, fun _ => rfl⟩
  · rename_i ne
    exact ⟨fun h => (by cases h), fun ⟨f, hf⟩ => (ne f hf).elim⟩

omit [DecidableEq τ] in
/-- What a constructor that throws leaves is accounted for. -/
theorem Accounted.of_aborted (h : Accounted w) {r : Result τ (World τ)}
    (ends : Ends r Accounted (· = w.aborted)) : Ends r Accounted Accounted :=
  ends.mono (fun _ => id) fun w' same => by
    obtain rfl : w' = w.aborted := same
    exact h.aborted

/-- **Every operation keeps the account**, whether it returns or throws. -/
theorem Accounted.perform (h : Accounted w) {op : Op τ} (valid : w.valid op = true) :
    Ends (w.perform op) Accounted Accounted := by
  cases op with
  | construct => exact h.of_aborted h.construct
  | constructFrom t throws => exact h.of_aborted (h.constructFrom t throws)
  | copyConstruct other throws =>
    obtain ⟨o, ho⟩ := live_iff.mp valid
    exact h.of_aborted ((h.copyConstruct ho throws).mono (fun _ made => made.1) fun _ => id)
  | moveConstruct other throws =>
    obtain ⟨o, ho⟩ := live_iff.mp valid
    exact h.of_aborted (h.moveConstruct ho throws)
  | copyAssign this other throws =>
    obtain ⟨hthis, hother⟩ := Bool.and_eq_true_iff.mp valid
    obtain ⟨f, hf⟩ := live_iff.mp hthis
    obtain ⟨o, ho⟩ := live_iff.mp hother
    exact h.of_aborted (h.copyAssign hf ho throws)
  | moveAssign this other throws =>
    obtain ⟨hthis, hother⟩ := Bool.and_eq_true_iff.mp valid
    obtain ⟨f, hf⟩ := live_iff.mp hthis
    obtain ⟨o, ho⟩ := live_iff.mp hother
    exact h.moveAssign hf ho throws
  | assign this t throws =>
    obtain ⟨f, hf⟩ := live_iff.mp valid
    exact h.assign hf t throws
  | reset this =>
    obtain ⟨f, hf⟩ := live_iff.mp valid
    obtain ⟨reset, accounted⟩ := h.reset hf
    exact .of_ok reset accounted
  | swap this other =>
    obtain ⟨hthis, hother⟩ := Bool.and_eq_true_iff.mp valid
    obtain ⟨f, hf⟩ := live_iff.mp hthis
    obtain ⟨o, ho⟩ := live_iff.mp hother
    by_cases same : this = other
    · exact .of_ok (if_pos same) h
    · obtain ⟨swapped, accounted⟩ := h.swap hf ho same
      exact .of_ok swapped accounted
  | destroy this =>
    obtain ⟨f, hf⟩ := live_iff.mp valid
    obtain ⟨destroyed, accounted⟩ := h.destroy hf
    exact .of_ok destroyed accounted

/-- So does every call, and nothing goes wrong in it. -/
theorem Accounted.call (h : Accounted w) (op : Op τ) :
    ∃ w', w.call op = .ok w' ∧ Accounted w' := by
  unfold World.call
  split
  · rename_i valid
    exact (h.perform valid).left
  · exact ⟨w, rfl, h⟩

/-- So does every program. -/
theorem Accounted.run (h : Accounted w) (ops : List (Op τ)) :
    ∃ w', w.run ops = .ok w' ∧ Accounted w' :=
  Lts.foldlM_goes (fun _ op accounted => accounted.call op) ops h

omit [DecidableEq τ] in
theorem Accounted.start : Accounted ({} : World τ) where
  held _ := rfl
  formed i f hf := by cases hf

/-! ## The main theorem -/

/-- How many functions are engaged. -/
def World.engaged (w : World τ) : Nat :=
  w.functions.countP fun slot => slot.any FunctionObject.engaged

/-- Lifetimes are balanced: as many callable objects are constructed and not destroyed as functions
are engaged, each of those is in one function's storage, each other one was destroyed once, and the
pointers of an engaged function are all those of the type of the object in it. -/
structure Balanced (w : World τ) : Prop where
  balance : w.constructed.length = w.destroyed.length + w.engaged
  once : (w.callables ++ w.destroyed).Perm (List.range w.constructed.length)
  wired : ∀ (i : Nat) (f : FunctionObject τ), w.functions[i]? = some (some f) → f.engaged = true →
    ∃ t n, f.object = some n ∧ n ∉ w.destroyed ∧ w.constructed[n]? = some t ∧ f.fn = some t ∧
      f.destroyer = some t ∧ f.copier = some t ∧ f.mover = some t

omit [DecidableEq τ] in
/-- There is a callable object exactly in the functions that are engaged. -/
theorem Formed.callableOf_length {constructed : List τ} (h : Formed constructed f) :
    (callableOf (some f)).length = if f.engaged then 1 else 0 := by
  rw [callableOf, Option.bind_some]
  revert h
  unfold Formed FunctionObject.engaged
  cases f.fn with
  | none =>
    intro vacant
    rw [vacant]
    rfl
  | some t =>
    rintro ⟨-, -, -, n, object, -⟩
    rw [object]
    rfl

omit [DecidableEq τ] in
theorem Accounted.callables_length (h : Accounted w) : w.callables.length = w.engaged := by
  have each : ∀ slot ∈ w.functions,
      (callableOf slot).length = if slot.any FunctionObject.engaged then 1 else 0 := by
    intro slot mem
    cases slot with
    | none => rfl
    | some f =>
      obtain ⟨i, hi⟩ := List.getElem?_of_mem mem
      exact (h.formed i f hi).callableOf_length
  unfold World.callables Shares.whole World.engaged
  generalize w.functions = functions at each
  induction functions with
  | nil => rfl
  | cons slot rest ih =>
    rw [List.forall_mem_cons] at each
    rw [List.flatMap_cons, List.length_append, each.1, ih each.2, List.countP_cons, Nat.add_comm]

omit [DecidableEq τ] in
theorem Accounted.balanced (h : Accounted w) : Balanced w := by
  have once : (w.callables ++ w.destroyed).Perm (List.range w.constructed.length) := by
    rw [List.perm_iff_count]
    intro n
    rw [List.count_append, h.held n, List.nodup_range.count]
    simp only [List.mem_range]
  refine ⟨?_, once, fun i f hf engaged => ?_⟩
  · have length := once.length_eq
    rw [List.length_append, List.length_range, h.callables_length] at length
    omega
  · obtain ⟨t, n, fn, destroyer, copier, mover, object, type⟩ := (h.formed i f hf).engaged engaged
    have living : n ∈ w.callables := by
      refine Shares.mem_whole.mpr ⟨i, some f, hf, ?_⟩
      rw [callableOf, Option.bind_some, object]
      exact List.mem_singleton_self n
    have apart := List.nodup_append.mp (once.nodup_iff.mpr List.nodup_range)
    refine ⟨t, n, object, fun gone => ?_, type, fn, destroyer, copier, mover⟩
    exact apart.2.2 n living n gone rfl

/-- **Lifetimes of callables are balanced.** After any operations on any functions, whichever
constructors of callables throw in them, nothing has gone wrong and lifetimes are balanced. A copy
assignment that throws then leaves every function as it was, with nothing constructed and nothing
destroyed. -/
theorem lifetimes_balanced (ops : List (Op τ)) :
    ∃ w, ({} : World τ).run ops = .ok w ∧ Balanced w ∧
      ∀ this other throws w', w.valid (.copyAssign this other throws) = true →
        w.perform (.copyAssign this other throws) = .error (.threw w') →
        w' = { w with functions := w.functions ++ [none] } := by
  obtain ⟨w, run, h⟩ := Accounted.start.run ops
  refine ⟨w, run, h.balanced, fun this other throws w' valid threw => ?_⟩
  obtain ⟨hthis, hother⟩ := Bool.and_eq_true_iff.mp valid
  obtain ⟨f, hf⟩ := live_iff.mp hthis
  obtain ⟨o, ho⟩ := live_iff.mp hother
  exact (h.copyAssign hf ho throws).of_threw threw

-- A copy assignment that throws leaves its target engaged, a move assignment that throws does not.
example : (({} : World Bool).run [.constructFrom true false, .constructFrom false false,
    .copyAssign 0 1 true, .moveAssign 1 0 true]).map (fun w =>
      (w.functions.map (·.bind (·.fn)), w.destroyed)) =
    .ok ([some true, none, none], [1]) := rfl

end Bfc.Function.Throwing
