import Bfc.Function.Lifetimes

/-!
# Callbacks in slots

How a table keeps callbacks: an entry of the table has two slots, which are function objects, and a
callback comes in as an argument, which is a function object too and is moved into a slot. These are
the programs of function objects that this makes, with what each does to shapes and which of them
disturb a slot.
-/

namespace Bfc.Function

variable {α ω ι ρ : Type} {N : Nat}

/-- A callback is passed by value: the argument is constructed from it, or from `nullptr`. -/
def Op.pass (argument : α) : Option (Callable α ω ι ρ N) → Op α ω ι ρ N
  | some p => .constructFrom argument p
  | none => .construct argument

/-- The entry with the slots `r` and `w` is looked up, and made if it is not present. -/
def enter (r w : α) (present : Bool) : List (Op α ω ι ρ N) :=
  if present then [] else [.construct r, .construct w]

/-- The argument is moved into a slot, if it is into any. -/
def store (argument : α) : Option α → List (Op α ω ι ρ N)
  | some slot => [.moveAssign slot argument]
  | none => []

/-- A call that takes a callback by value, looks up an entry, and stores the callback in a slot,
if it does; the argument goes at the end. -/
def addition (r w argument : α) (present : Bool) (cb : Option (Callable α ω ι ρ N))
    (slot : Option α) : List (Op α ω ι ρ N) :=
  .pass argument cb :: (enter r w present ++ store argument slot ++ [.destroy argument])

/-- A slot is emptied, and what was in it is kept elsewhere. -/
def retire (slot kept : α) (engaged : Bool) : List (Op α ω ι ρ N) :=
  (if engaged then [.moveConstruct kept slot] else []) ++ [.reset slot]

/-- A callable without state, at some address. -/
def stateless (a : α) : Callable α Unit Unit Unit 0 where
  type := {
    Value := Unit
    apply := fun _ _ => ((), ())
    size := 0
    fits := Nat.le_refl 0
    Correct := fun _ _ _ => True
    copy := fun _ x _ => x
    move := fun _ x _ => (x, x)
    call := fun _ x _ => ((), x)
    destroy := fun _ x => x
    copy_correct := fun _ => trivial
    move_correct := fun _ => trivial
    call_correct := fun _ => ⟨rfl, trivial⟩ }
  value := ()
  address := a
  object := { bytes := fun _ => 0, owned := () }
  correct := trivial
  rvalue := true

variable [DecidableEq α] {x : Shape α}

/-! ## What they do to shapes -/

theorem Shape.put_apply (x : Shape α) (a b : α) (engaged : Bool) :
    x.put a engaged b = if b = a then some engaged else x b :=
  Function.update_apply ..

theorem Shape.pass_step (argument : α) (free : x argument = none)
    (cb : Option (Callable α ω ι ρ N)) :
    x.step (Op.pass argument cb) = some (x.put argument cb.isSome) := by
  cases cb with
  | none => simp [Op.pass, Shape.step, free]
  | some p => simp [Op.pass, Shape.step, free]

/-- A shape with an entry of two slots: they are empty if they were not there. -/
def Shape.entered (x : Shape α) (r w : α) : Shape α :=
  fun b => if b = r ∨ b = w then some ((x b).getD false) else x b

theorem Shape.enter_run {r w : α} (apart : r ≠ w) {present : Bool}
    (there : ∀ a, a = r ∨ a = w → (x a).isSome = present) :
    (enter r w present : List (Op α ω ι ρ N)).foldlM Shape.step x = some (x.entered r w) := by
  have hr := there r (.inl rfl)
  have hw := there w (.inr rfl)
  cases present with
  | false =>
    simp only [Option.isSome_eq_false_iff, Option.isNone_iff_eq_none] at hr hw
    simp only [enter, Bool.false_eq_true, if_false, List.foldlM_cons, List.foldlM_nil, Shape.step,
      hr, Option.bind_eq_bind, Option.bind_some, Shape.put_apply, Ne.symm apart, hw]
    refine congrArg some ?_
    ext b : 1
    rw [Shape.put_apply, Shape.put_apply, Shape.entered]
    by_cases hbw : b = w
    · simp [hbw, hw]
    · by_cases hbr : b = r
      · simp [hbr, apart, hr]
      · simp [hbw, hbr]
  | true =>
    refine congrArg some ?_
    ext b : 1
    unfold Shape.entered
    split
    · rename_i slot
      obtain ⟨engaged, hb⟩ := Option.isSome_iff_exists.mp (there b slot)
      simp [hb]
    · rfl

/-- An addition engages or clears the slot it stores in, and the entry is there after it. -/
theorem Shape.addition_run {r w argument : α} (apart : r ≠ w) (free : x argument = none)
    (outside : argument ≠ r ∧ argument ≠ w) {present : Bool}
    (there : ∀ a, a = r ∨ a = w → (x a).isSome = present) (cb : Option (Callable α ω ι ρ N))
    {slot : Option α} (own : ∀ a, slot = some a → a = r ∨ a = w) :
    (addition r w argument present cb slot).foldlM Shape.step x =
      some fun b => if slot = some b then some cb.isSome else x.entered r w b := by
  have same : ∀ a, a = r ∨ a = w → a ≠ argument := by
    rintro a (rfl | rfl)
    · exact Ne.symm outside.1
    · exact Ne.symm outside.2
  have passed : ∀ a, a = r ∨ a = w → ((x.put argument cb.isSome) a).isSome = present := by
    intro a slot
    rw [Shape.put_apply, if_neg (same a slot)]
    exact there a slot
  -- the argument is in the way of nothing, and is gone at the end
  have gone : Function.update ((x.put argument cb.isSome).entered r w) argument none =
      x.entered r w := by
    ext b : 1
    rw [Function.update_apply]
    split
    · rename_i hb
      rw [hb, Shape.entered, if_neg (by simp [outside.1, outside.2]), free]
    · rename_i hb
      rw [Shape.entered, Shape.entered, Shape.put_apply, if_neg hb]
  have held : (x.put argument cb.isSome).entered r w argument = some cb.isSome := by
    rw [Shape.entered, if_neg (by simp [outside.1, outside.2]), Shape.put_apply, if_pos rfl]
  rw [addition, List.foldlM_cons, Shape.pass_step argument free, Option.bind_eq_bind,
    Option.bind_some, List.foldlM_append, List.foldlM_append, Shape.enter_run apart passed,
    Option.bind_eq_bind, Option.bind_some]
  cases slot with
  | none =>
    simp only [store, List.foldlM_nil, List.foldlM_cons, Option.pure_def, Option.bind_eq_bind,
      Option.bind_some, Shape.step, held, gone, reduceCtorEq, if_false]
  | some a =>
    have ha := own a rfl
    have filled : (x.put argument cb.isSome).entered r w a =
        some (((x.put argument cb.isSome) a).getD false) := if_pos ha
    simp only [store, List.foldlM_nil, List.foldlM_cons, Option.pure_def, Option.bind_eq_bind,
      Option.bind_some, Shape.step, held, filled, same a ha, if_false, Shape.put_apply, if_true,
      Option.some.injEq]
    ext b : 1
    rw [Function.update_apply, Shape.put_apply, Shape.put_apply]
    by_cases hb : b = argument
    · subst hb
      simp [same a ha, Shape.entered, outside.1, outside.2, free]
    · have rest := congrFun gone b
      rw [Function.update_of_ne hb] at rest
      simp [hb, rest, eq_comm]

/-- A slot that is retired is empty, and its callable is where it is kept, if it had one. -/
theorem Shape.retire_run {slot kept : α} {engaged : Bool} (there : x slot = some engaged)
    (free : x kept = none) :
    (retire slot kept engaged : List (Op α ω ι ρ N)).foldlM Shape.step x =
      some ((if engaged then x.put kept true else x).put slot false) := by
  cases engaged with
  | false =>
    simp only [retire, Bool.false_eq_true, if_false, List.nil_append, List.foldlM_cons,
      List.foldlM_nil, Option.pure_def, Option.bind_eq_bind, Option.bind_some, Shape.step, there]
  | true =>
    simp only [retire, if_true, List.singleton_append, List.foldlM_cons, List.foldlM_nil,
      Option.pure_def, Option.bind_eq_bind, Option.bind_some, Shape.step, there, free,
      Shape.put_apply]
    refine congrArg some ?_
    unfold Shape.put
    rw [Function.update_idem]

/-! ## What they disturb -/

omit [DecidableEq α] in
/-- An addition disturbs a slot exactly if it stores in it. A slot of an entry that is made was not
there before. -/
theorem addition_undisturbed {r w argument a : α} (other : a ≠ argument) {present : Bool}
    (there : present = true ∨ a ≠ r ∧ a ≠ w) (cb : Option (Callable α ω ι ρ N))
    (slot : Option α) :
    (∀ op ∈ addition r w argument present cb slot, ¬op.Disturbs a) ↔ slot ≠ some a := by
  have passed : ¬(Op.pass argument cb).Disturbs a := by
    cases cb with
    | none => exact Ne.symm other
    | some p => exact Ne.symm other
  have entered : ∀ op ∈ (enter r w present : List (Op α ω ι ρ N)), ¬op.Disturbs a := by
    intro op hop
    cases present with
    | true => cases hop
    | false =>
      obtain ⟨hr, hw⟩ := there.resolve_left Bool.false_ne_true
      simp only [enter, Bool.false_eq_true, if_false, List.mem_cons, List.not_mem_nil,
        or_false] at hop
      rcases hop with rfl | rfl
      · exact Ne.symm hr
      · exact Ne.symm hw
  have destroyed : ¬(Op.destroy argument : Op α ω ι ρ N).Disturbs a := Ne.symm other
  have stored : (∀ op ∈ (store argument slot : List (Op α ω ι ρ N)), ¬op.Disturbs a) ↔
      slot ≠ some a := by
    cases slot with
    | none => simp [store]
    | some b =>
      simp only [store, List.forall_mem_singleton, Op.Disturbs, Ne.symm other, or_false, ne_eq,
        Option.some.injEq]
      constructor
      · rintro undisturbed rfl
        exact undisturbed ⟨other, rfl⟩
      · rintro ne ⟨-, same⟩
        exact ne same
  simp only [addition, List.forall_mem_cons, List.forall_mem_append, passed, destroyed, stored,
    not_false_eq_true, implies_true, true_and, and_true, List.not_mem_nil, false_implies]
  exact and_iff_right entered

omit [DecidableEq α] in
/-- Retiring a slot disturbs it, and no other. -/
theorem retire_undisturbed {slot kept a : α} (other : a ≠ kept) (engaged : Bool) :
    (∀ op ∈ (retire slot kept engaged : List (Op α ω ι ρ N)), ¬op.Disturbs a) ↔ slot ≠ a := by
  have reset : ¬(Op.reset slot : Op α ω ι ρ N).Disturbs a ↔ slot ≠ a := Iff.rfl
  cases engaged with
  | false => simp only [retire, Bool.false_eq_true, if_false, List.nil_append,
      List.forall_mem_singleton, reset]
  | true =>
    simp only [retire, if_true, List.singleton_append, List.forall_mem_cons, Op.Disturbs,
      Ne.symm other, false_or, and_iff_right_iff_imp, List.not_mem_nil, false_implies,
      implies_true, and_true]
    exact id

end Bfc.Function
