import Bfc.Timers.Scheduling

/-!
# Whole histories

What a history does after a state is read off what no step undoes: a call keeps what it has
extracted and never goes back, and a timer that has been created, cancelled or run stays so. With
the account of the timers this settles the three promises about the future: a call runs nothing
that is armed after its extraction, so that it ends; and a timer that `cancel` has taken never runs.

A call runs all that it has extracted unless an exception leaves it. So the promises are kept
exactly as long as no due timer is without a callback, and no callback throws that is not the last
one of its call (`scheduling_exact_iff`).
-/

namespace Bfc.Timers

open Lts

variable {κ : Type*}

namespace Call

/-- What a call is going to run: all that comes before an empty callback. -/
def upcoming (call : Call κ) : List TimerId :=
  if call.threw then [] else (call.left.takeWhile fun e => e.2.isSome).map Prod.fst

/-- What it is not going to run any more. -/
def unreached (call : Call κ) : List TimerId :=
  (if call.threw then call.left else call.left.dropWhile fun e => e.2.isSome).map Prod.fst

/-- What a call has not run is what it is going to run and what it is not. -/
theorem left_eq (call : Call κ) : call.left.map Prod.fst = call.upcoming ++ call.unreached := by
  unfold upcoming unreached
  split
  · rfl
  · rw [← List.map_append, List.takeWhile_append_dropWhile]

/-- How a call goes on. -/
structure Later (call call' : Call κ) : Prop where
  extracted : call'.extracted = call.extracted
  position : call.position ≤ call'.position
  unreached : call.unreached ⊆ call'.unreached

theorem Later.refl (call : Call κ) : call.Later call :=
  ⟨rfl, Nat.le_refl _, List.Subset.refl _⟩

theorem Later.trans {a b c : Call κ} (h : a.Later b) (h' : b.Later c) : a.Later c :=
  ⟨h'.extracted.trans h.extracted, Nat.le_trans h.position h'.position,
    List.Subset.trans h.unreached h'.unreached⟩

/-- A callback has been run. -/
theorem left_cons {call : Call κ} {timer : TimerId × Option κ}
    (next : call.extracted[call.position]? = some timer) :
    call.left = timer :: Call.left { call with position := call.position + 1 } := by
  obtain ⟨inside, here⟩ := List.getElem?_eq_some_iff.mp next
  rw [left, List.drop_eq_getElem_cons inside, here]
  rfl

theorem later_next {call : Call κ} {timer : TimerId × Option κ} (going : call.threw = false)
    (next : call.extracted[call.position]? = some timer) (callable : timer.2 ≠ none) :
    call.Later { call with position := call.position + 1 } where
  extracted := rfl
  position := Nat.le_succ _
  unreached := by
    have isSome : timer.2.isSome = true := Option.isSome_iff_ne_none.mpr callable
    unfold unreached
    rw [left_cons next, going, List.dropWhile_cons_of_pos (p := fun e : TimerId × Option κ =>
      e.2.isSome) isSome]
    exact List.Subset.refl _

/-- An exception has left a call. -/
theorem later_threw {call : Call κ} (going : call.threw = false) :
    call.Later { call with threw := true } where
  extracted := rfl
  position := Nat.le_refl _
  unreached := by
    unfold unreached
    rw [going]
    exact List.map_subset Prod.fst (List.dropWhile_sublist _).subset

end Call

namespace World

/-- What no step undoes. -/
structure Later (w w' : World κ) : Prop where
  calls : ∀ (c : Nat) (call : Call κ), w.calls[c]? = some call →
    ∃ call' : Call κ, w'.calls[c]? = some call' ∧ call.Later call'
  created : w.created <+: w'.created
  cancelled : w.cancelled <+: w'.cancelled

theorem Later.refl (w : World κ) : Later w w where
  calls _ call h := ⟨call, h, .refl call⟩
  created := List.prefix_refl _
  cancelled := List.prefix_refl _

theorem Later.trans {a b c : World κ} (h : Later a b) (h' : Later b c) : Later a c where
  calls i call hc := by
    obtain ⟨call₁, h₁, later₁⟩ := h.calls i call hc
    obtain ⟨call₂, h₂, later₂⟩ := h'.calls i call₁ h₁
    exact ⟨call₂, h₂, later₁.trans later₂⟩
  created := h.created.trans h'.created
  cancelled := h.cancelled.trans h'.cancelled

/-- One call goes on. -/
theorem Later.set {w w' : World κ} {c : Nat} {call : Call κ} (new : Call κ)
    (hcall : w.calls[c]? = some call) (later : call.Later new)
    (calls : w'.calls = w.calls.set c new) (created : w'.created = w.created)
    (cancelled : w'.cancelled = w.cancelled) : Later w w' where
  calls d call' hd := by
    rw [calls]
    refine Tables.set_kept hcall hd (.refl call') ?_
    rintro rfl rfl
    exact later
  created := created ▸ List.prefix_refl _
  cancelled := cancelled ▸ List.prefix_refl _

theorem later_armed (w : World κ) (r : TimerId × Timer (Option κ)) : Later w (w.armed r) where
  calls := (Later.refl w).calls
  created := List.prefix_append _ _
  cancelled := List.prefix_refl _

theorem later_step {w w' : World κ} {e : Event κ} (step : Step w e w') : Later w w' := by
  unfold Step at step
  cases e with
  | waitUs forUs cb nowUs => exact Option.some.inj step ▸ later_armed w _
  | waitMs forMs cb nowUs => exact Option.some.inj step ▸ later_armed w _
  | getNextDeadlineUs => exact Option.some.inj step ▸ .refl w
  | cancel id =>
    obtain rfl := Option.some.inj step
    refine { calls := (Later.refl w).calls, created := List.prefix_refl _, cancelled := ?_ }
    dsimp only
    split
    · exact List.prefix_append _ _
    · exact List.prefix_refl _
  | schedule nowUs =>
    obtain rfl := Option.some.inj step
    refine { calls := ?_, created := List.prefix_refl _, cancelled := List.prefix_refl _ }
    intro c call hc
    exact ⟨call, Tables.append_kept hc _, .refl call⟩
  | callback c =>
    obtain ⟨call, timer, hcall, going, next, ⟨callable, rfl⟩ | ⟨-, rfl⟩⟩ :=
      Accounted.callback_cases step
    · exact Later.set _ hcall (Call.later_next going next callable) rfl rfl rfl
    · exact Later.set _ hcall (Call.later_threw going) rfl rfl rfl
  | callbackThrows c =>
    obtain ⟨call, hcall, -, going, rfl⟩ := Accounted.callbackThrows_cases step
    exact Later.set _ hcall (Call.later_threw going) rfl rfl rfl
  | scheduleReturns c =>
    obtain ⟨call, hcall, -, -, -, rfl⟩ := Accounted.returns_cases step
    exact Later.set { call with returned := true } hcall
      ⟨rfl, Nat.le_refl _, List.Subset.refl _⟩ rfl rfl rfl

/-- No run undoes it either. -/
theorem later_run {w w' : World κ} {ms : List (Event κ)} (run : Run Step w ms w') : Later w w' := by
  induction run with
  | nil => exact .refl w
  | snoc _ last ih => exact ih.trans (later_step last)

/-! ## What a call will run -/

namespace Accounted

variable {w w' : World κ}

/-- What a call has run is among what it has extracted, with a callback. -/
theorem ran_entry (h : Accounted w) {c : Nat} {call : Call κ} (hc : w.calls[c]? = some call)
    {id : TimerId} (ran : (c, id) ∈ w.ran) :
    ∃ e ∈ call.extracted, e.1 = id ∧ e.2 ≠ none := by
  have mem : id ∈ w.ranBy c :=
    List.mem_map.mpr ⟨(c, id), List.mem_filter.mpr ⟨ran, decide_eq_true rfl⟩, rfl⟩
  rw [(h.calls c call hc).ran] at mem
  obtain ⟨e, he, same⟩ := List.mem_map.mp mem
  exact ⟨e, List.take_subset _ _ he, same, (h.calls c call hc).called e he⟩

/-- A call runs only what it has extracted. -/
theorem ran_extracted (h : Accounted w) {c : Nat} {call : Call κ} (hc : w.calls[c]? = some call)
    {id : TimerId} (ran : (c, id) ∈ w.ran) : id ∈ call.extracted.map Prod.fst := by
  obtain ⟨e, he, rfl, -⟩ := h.ran_entry hc ran
  exact List.mem_map_of_mem he

/-- What a call has extracted had been created. -/
theorem extracted_created (h : Accounted w) {c : Nat} {call : Call κ}
    (hc : w.calls[c]? = some call) {id : TimerId} (mem : id ∈ call.extracted.map Prod.fst) :
    id ∈ w.created := by
  rw [← List.take_append_drop call.position call.extracted, List.map_append,
    ← (h.calls c call hc).ran, List.mem_append] at mem
  refine h.states.mem_iff.mpr ?_
  simp only [List.mem_append]
  rcases mem with mem | mem
  · obtain ⟨r, hr, rfl⟩ := List.mem_map.mp mem
    exact .inl (.inr (List.mem_map_of_mem (List.mem_filter.mp hr).1))
  · exact .inl (.inl (.inr (List.mem_flatMap.mpr ⟨call, List.mem_of_getElem? hc, mem⟩)))

/-- A timer armed after a call's extraction is never run by that call. -/
theorem not_ran_of_armed (h : Accounted w) (h' : Accounted w') (later : Later w w') {c : Nat}
    {call : Call κ} (hc : w.calls[c]? = some call) {id : TimerId} (armed : id ∉ w.created) :
    (c, id) ∉ w'.ran := by
  intro ran
  obtain ⟨call', hc', later⟩ := later.calls c call hc
  have mem := h'.ran_extracted hc' ran
  rw [later.extracted] at mem
  exact armed (h.extracted_created hc mem)

/-- A cancelled timer never runs. -/
theorem not_ran_of_cancelled (h : Accounted w) {id : TimerId} (cancelled : id ∈ w.cancelled)
    (c : Nat) : (c, id) ∉ w.ran := by
  intro ran
  have nodup := h.states.nodup_iff.mp h.nodup
  exact (List.nodup_append.mp nodup).2.2 id
    (List.mem_append_right _ (List.mem_map_of_mem ran)) id cancelled rfl

end Accounted

/-- A call goes on with its next callback. -/
theorem starts_callback {w : World κ} {c : Nat} {call : Call κ} (hc : w.calls[c]? = some call)
    (going : call.threw = false) {timer : TimerId × Option κ} {rest : List (TimerId × Option κ)}
    (left : call.left = timer :: rest) (callable : timer.2 ≠ none) :
    ∃ w', Step w (.callback c) w' ∧
      w'.calls[c]? = some { call with position := call.position + 1 } ∧
      w'.ran = w.ran ++ [(c, timer.1)] ∧
      Call.left { call with position := call.position + 1 } = rest := by
  have next : call.extracted[call.position]? = some timer := by
    have first : call.left[0]? = some timer := by rw [left]; rfl
    rwa [Call.left, List.getElem?_drop, Nat.add_zero] at first
  obtain ⟨id, cb⟩ := timer
  obtain ⟨cb, rfl⟩ := Option.ne_none_iff_exists'.mp callable
  refine ⟨{ w with
      calls := w.calls.set c { call with position := call.position + 1 }
      ran := w.ran ++ [(c, id)] }, ?_, Tables.set_here hc _, rfl, ?_⟩
  · simp only [Step, World.step, hc, going, next, Option.bind_eq_bind, Option.bind_some,
      Bool.false_eq_true, if_false]
  · rw [Call.left_cons next] at left
    exact (List.cons.inj left).2

/-- A call can go on until it starts any callback it has not started yet, if none is empty until
then. -/
theorem reaches_callback {w : World κ} {c : Nat} {call : Call κ} (hc : w.calls[c]? = some call)
    (going : call.threw = false) {before after : List (TimerId × Option κ)}
    {timer : TimerId × Option κ} (left : call.left = before ++ timer :: after)
    (callable : ∀ e ∈ before, e.2 ≠ none) (last : timer.2 ≠ none) :
    ∃ ms w', Run Step w ms w' ∧
      w'.ran = w.ran ++ (before.map fun e => (c, e.1)) ++ [(c, timer.1)] := by
  -- on the callbacks that come first
  induction before generalizing w call with
  | nil =>
    obtain ⟨w₁, first, -, ran, -⟩ := starts_callback hc going left last
    exact ⟨_, w₁, Run.single first, by rw [ran, List.map_nil, List.append_nil]⟩
  | cons e before ih =>
    obtain ⟨nonempty, callable⟩ := List.forall_mem_cons.mp callable
    obtain ⟨w₁, first, hc₁, ran₁, left₁⟩ := starts_callback hc going left nonempty
    obtain ⟨ms, w', run, ran⟩ := ih hc₁ going left₁ callable
    refine ⟨_, w', (Run.single first).trans run, ?_⟩
    rw [ran, ran₁, List.map_cons]
    simp only [List.append_assoc, List.cons_append, List.nil_append]

/-- The steps of a call by which it runs `n` callbacks and returns. -/
def rest (c n : Nat) : List (Event κ) := List.replicate n (.callback c) ++ [.scheduleReturns c]

/-- A call runs what it has not run, and returns, if no callback is empty. -/
theorem returns {w : World κ} {c : Nat} {call : Call κ} (hc : w.calls[c]? = some call)
    (notReturned : call.returned = false) (going : call.threw = false)
    (callable : ∀ e ∈ call.left, e.2 ≠ none) :
    ∃ (w' : World κ) (call' : Call κ), Run Step w (rest c call.left.length) w' ∧
      w'.calls[c]? = some call' ∧ call'.extracted = call.extracted ∧ call'.returned = true := by
  -- on what it has not run
  generalize left : call.left = timers at callable
  induction timers generalizing w call with
  | nil =>
    have all : call.extracted.length ≤ call.position := List.drop_eq_nil_iff.mp left
    refine ⟨{ w with calls := w.calls.set c { call with returned := true } },
      { call with returned := true }, Run.single ?_, Tables.set_here hc _, rfl, rfl⟩
    simp only [Step, step, hc, Option.bind_eq_bind, Option.bind_some, notReturned, going, all,
      Bool.false_eq_true, not_false_eq_true, and_self, if_true]
  | cons timer timers ih =>
    obtain ⟨nonempty, callable⟩ := List.forall_mem_cons.mp callable
    obtain ⟨w₁, first, hc₁, -, left₁⟩ := starts_callback hc going left nonempty
    obtain ⟨w', call', run, hc', extracted, returned⟩ := ih hc₁ notReturned going left₁ callable
    exact ⟨w', call', (Run.single first).trans run, hc', extracted, returned⟩

/-! ## The exact condition -/

/-- What a call does: it runs what it has extracted in order, has run all of it when it is over, and
goes on by itself until then. -/
structure CallExact (w : World κ) (c : Nat) (call : Call κ) : Prop where
  inOrder : call.extracted.Pairwise (fun a b => a.1 < b.1)
  ran : w.ranBy c = (call.extracted.take call.position).map Prod.fst
  finished : call.returned = true ∨ call.threw = true → w.ranBy c = call.extracted.map Prod.fst
  goesOn : call.returned = false → call.threw = false →
    ∃ w', Run Step w (rest c call.left.length) w' ∧ w'.ranBy c = call.extracted.map Prod.fst

/-- What holds of a timer at any time: of the timers created so far, of a `schedule` that begins
now, of those under way and their future, of a `cancel`, and of the deadline reported. -/
structure Exact (w : World κ) : Prop where
  distinct : w.created.Nodup
  places : w.created.Perm (w.pending ++ w.extracted ++ w.run ++ w.cancelled)
  schedule : ∀ nowUs w', Step w (.schedule nowUs) w' →
    w'.calls = w.calls ++
        [{ extracted := w.timer.cbMap.entries.filter fun e => e.1.deadline ≤ nowUs }] ∧
      w'.timer.cbMap.entries = w.timer.cbMap.entries.filter fun e => ¬e.1.deadline ≤ nowUs
  calls : ∀ c call, w.calls[c]? = some call → CallExact w c call
  future : ∀ c call, w.calls[c]? = some call → ∀ ms w', Run Step w ms w' →
    (∃ call' : Call κ, w'.calls[c]? = some call' ∧ call'.extracted = call.extracted) ∧
      ∀ id ∉ w.created, (c, id) ∉ w'.ran
  cancel : ∀ id, ((w.timer.cancel id).1 = true ↔ id ∈ w.pending) ∧
    (id ∈ w.pending → ∀ w₁, Step w (.cancel id) w₁ → ∀ ms w', Run Step w₁ ms w' →
      ∀ c, (c, id) ∉ w'.ran)
  nextDeadline : match w.timer.getNextDeadlineUs with
    | none => w.pending = []
    | some d => (∃ id ∈ w.pending, id.deadline = d) ∧ ∀ id ∈ w.pending, d ≤ id.deadline

/-- What a step has to be like: every timer that a `schedule` call finds due has a callback, and a
callback throws only when its call has no other left. -/
def Callable (w : World κ) : Event κ → Prop
  | .schedule nowUs => ∀ e ∈ w.timer.cbMap.entries, e.1.deadline ≤ nowUs → e.2 ≠ none
  | .callbackThrows c => ∀ call, w.calls[c]? = some call → call.left = []
  | _ => True

/-- No exception has left a call that had not run everything, and none is bound to. -/
def Intact (w : World κ) : Prop :=
  ∀ (c : Nat) (call : Call κ), w.calls[c]? = some call →
    ∀ e ∈ call.left, e.2 ≠ none ∧ call.threw = false

section Intact

variable {w w' : World κ}

theorem left_eq_nil {w : World κ} (h : Intact w) {c : Nat} {call : Call κ}
    (hc : w.calls[c]? = some call) (threw : call.threw = true) : call.left = [] := by
  refine List.eq_nil_iff_forall_not_mem.mpr fun e he => ?_
  have going := (h c call hc e he).2
  rw [threw] at going
  cases going

/-- What has been extracted and not run waits for its callback. -/
theorem Intact.extracted_eq (h : Intact w) : w.extracted = w.left := by
  refine List.flatMap_congr fun call mem => ?_
  obtain ⟨c, hc⟩ := List.getElem?_of_mem mem
  split
  · rename_i threw
    rw [left_eq_nil h hc threw, List.map_nil]
  · rfl

/-- A call that has run everything has nothing left. -/
theorem Accounted.left_nil_of_ran (h : Accounted w) {c : Nat} {call : Call κ}
    (hc : w.calls[c]? = some call) (all : w.ranBy c = call.extracted.map Prod.fst) :
    call.left = [] := by
  have lengths := congrArg List.length ((h.calls c call hc).ran.symm.trans all)
  rw [List.length_map, List.length_map, List.length_take] at lengths
  exact List.drop_eq_nil_iff.mpr (by omega)

/-- What is not intact is not exact. -/
theorem Exact.intact (h : Accounted w) (isExact : Exact w) : Intact w := by
  intro c call hc e he
  have nonempty : call.left ≠ [] := List.ne_nil_of_mem he
  have ended := fun done =>
    nonempty (h.left_nil_of_ran hc ((isExact.calls c call hc).finished done))
  have notReturned : call.returned = false :=
    Bool.eq_false_iff.mpr fun returned => ended (.inl returned)
  have going : call.threw = false := Bool.eq_false_iff.mpr fun threw => ended (.inr threw)
  obtain ⟨w', run, all⟩ := (isExact.calls c call hc).goesOn notReturned going
  have h' := h.after run
  obtain ⟨call', hc', later⟩ := (later_run run).calls c call hc
  rw [← later.extracted] at all
  -- a call that has run everything has run this one too
  have none_left : call'.extracted.drop call'.position = [] := h'.left_nil_of_ran hc' all
  have taken : e ∈ call'.extracted.take call'.position := by
    have mem : e ∈ call'.extracted := later.extracted ▸ List.mem_of_mem_drop he
    rwa [← List.take_append_drop call'.position call'.extracted, none_left,
      List.append_nil] at mem
  exact ⟨(h'.calls c call' hc').called e taken, going⟩

/-- What is intact is exact. -/
theorem Intact.exact (h : Accounted w) (intact : Intact w) : Exact w where
  distinct := h.nodup
  places := by
    rw [intact.extracted_eq]
    exact h.states
  schedule := by
    intro nowUs w' step
    obtain rfl := Option.some.inj step
    obtain ⟨extracted, left, -⟩ := extract_spec w.timer nowUs
    refine ⟨?_, ?_⟩
    · show w.calls ++ [_] = _
      rw [extracted]
      rfl
    · show (w.timer.extract nowUs).2.cbMap.entries = _
      rw [left]
      apply List.filter_congr
      intro e _
      rw [due, decide_not]
  calls := by
    intro c call hc
    have accounted := h.calls c call hc
    refine ⟨accounted.inOrder, accounted.ran, fun done => ?_, fun notReturned going => ?_⟩
    · have all : call.left = [] := by
        rcases done with returned | threw
        · exact List.drop_eq_nil_iff.mpr (Nat.le_of_eq (accounted.returned returned).symm)
        · exact left_eq_nil intact hc threw
      rw [accounted.ran, List.take_of_length_le (List.drop_eq_nil_iff.mp all)]
    · obtain ⟨w', call', run, hc', extracted, returned⟩ :=
        returns hc notReturned going fun e he => (intact c call hc e he).1
      have h' := h.after run
      have accounted' := h'.calls c call' hc'
      refine ⟨w', run, ?_⟩
      rw [accounted'.ran, accounted'.returned returned, List.take_length, extracted]
  future := by
    intro c call hc ms w' more
    have later := later_run more
    have h' := h.after more
    obtain ⟨call', hc', same⟩ := later.calls c call hc
    exact ⟨⟨call', hc', same.extracted⟩, fun id armed => h.not_ran_of_armed h' later hc armed⟩
  cancel := by
    intro id
    refine ⟨decide_eq_true_iff, fun mem w₁ step ms w' more => ?_⟩
    have h' := (h.step _ step).after more
    have cancelled : id ∈ w₁.cancelled := by
      obtain rfl := Option.some.inj step
      show id ∈ if decide (id ∈ w.pending) then w.cancelled ++ [id] else w.cancelled
      rw [if_pos (decide_eq_true mem)]
      exact List.mem_append_right _ (List.mem_singleton_self id)
    exact h'.not_ran_of_cancelled ((later_run more).cancelled.subset cancelled)
  nextDeadline := getNextDeadlineUs_spec w.timer

/-- A step in which one call changes. -/
theorem Intact.set_iff (h : Intact w) {c : Nat} {call : Call κ} (new : Call κ)
    (hcall : w.calls[c]? = some call) (calls : w'.calls = w.calls.set c new) :
    Intact w' ↔ ∀ e ∈ new.left, e.2 ≠ none ∧ new.threw = false := by
  unfold Intact
  rw [calls]
  constructor
  · exact fun intact => intact c new (Tables.set_here hcall new)
  · intro here d call' hd
    rcases Tables.set_cases hcall hd with ⟨-, rfl⟩ | ⟨-, before⟩
    · exact here
    · exact h d call' before

/-- **A step from an intact state leads to one exactly if it is as it has to be.** -/
theorem Intact.step_iff (h : Intact w) {e : Event κ} (step : w.step e = some w') :
    Intact w' ↔ Callable w e := by
  have kept : w'.calls = w.calls → (Intact w' ↔ True) := fun calls => by
    unfold Intact
    rw [calls]
    exact iff_true_intro h
  cases e with
  | waitUs forUs cb nowUs => exact kept (Option.some.inj step ▸ rfl)
  | waitMs forMs cb nowUs => exact kept (Option.some.inj step ▸ rfl)
  | getNextDeadlineUs => exact kept (Option.some.inj step ▸ rfl)
  | cancel id => exact kept (Option.some.inj step ▸ rfl)
  | schedule nowUs =>
    obtain rfl := Option.some.inj step
    have extracted := (extract_spec w.timer nowUs).1
    constructor
    · intro intact e he now
      refine (intact w.calls.length _ List.getElem?_concat_length e ?_).1
      show e ∈ (w.timer.extract nowUs).1.drop 0
      rw [extracted]
      exact List.mem_filter.mpr ⟨he, decide_eq_true now⟩
    · intro callable c call hc e he
      rcases Tables.append_cases hc with ⟨-, rfl⟩ | ⟨-, before⟩
      · have mem : e ∈ (w.timer.extract nowUs).1.drop 0 := he
        rw [extracted] at mem
        obtain ⟨mem, now⟩ := List.mem_filter.mp mem
        exact ⟨callable e mem (of_decide_eq_true now), rfl⟩
      · exact h c call before e he
  | callback c =>
    obtain ⟨call, timer, hcall, going, next, ⟨-, rfl⟩ | ⟨empty, rfl⟩⟩ :=
      Accounted.callback_cases step
    · refine (h.set_iff _ hcall rfl).trans (iff_true_intro fun e he => ?_)
      refine h c call hcall e ?_
      rw [Call.left_cons next]
      exact List.mem_cons_of_mem timer he
    · refine absurd empty (h c call hcall timer ?_).1
      rw [Call.left_cons next]
      exact List.mem_cons_self
  | callbackThrows c =>
    obtain ⟨call, hcall, -, -, rfl⟩ := Accounted.callbackThrows_cases step
    refine (h.set_iff _ hcall rfl).trans ⟨fun nobody call' hc => ?_, fun all e he => ?_⟩
    · obtain rfl := Option.some.inj (hcall.symm.trans hc)
      exact List.eq_nil_iff_forall_not_mem.mpr fun e he => by cases (nobody e he).2
    · have mem : e ∈ call.left := he
      rw [all call hcall] at mem
      cases mem
  | scheduleReturns c =>
    obtain ⟨call, hcall, -, -, -, rfl⟩ := Accounted.returns_cases step
    exact (h.set_iff { call with returned := true } hcall rfl).trans
      (iff_true_intro fun e he => h c call hcall e he)

end Intact

/-- **When timer scheduling is exact**: in every state that a run passes, after any interleaving of
waits, cancellations and steps of `schedule` calls, exactly if every timer that a `schedule` call
has found due had a callback, and no callback has thrown that was not the last one of its call. -/
theorem scheduling_exact_iff (ls : List (Event κ)) :
    AllStates step Exact {} ls ↔ AllSteps step Callable {} ls := by
  refine allStates_iff_allSteps (I := Accounted) (fun h step => h.step _ step) ?_ ls
    Accounted.start (Intact.exact Accounted.start fun c call hc => by cases hc)
  intro s e t h isExact step
  have h' := h.step e step
  exact ⟨fun after => ((isExact.intact h).step_iff step).mp (after.intact h'),
    fun callable => (((isExact.intact h).step_iff step).mpr callable).exact h'⟩

/-- A timer without a callback is due before another one: the exception leaves `schedule`, and the
other one is in none of its places. -/
theorem scheduling_dropped :
    ¬∀ ls : List (Event Nat), AllStates step Exact {} ls := by
  intro all
  have reached := (all [.waitUs 5 none 0, .waitUs 6 (some 1) 0, .schedule 10, .callback 0]).last rfl
  have places := reached.places.length_eq
  exact absurd places (by decide)

-- A callback arms a timer whose deadline has passed: its call runs the two timers it has extracted,
-- and leaves the new one for the next call.
example : (([.waitUs 5 (some 0) 10, .waitMs 0 (some 1) 15, .schedule 20, .callback 0,
    .waitUs 0 (some 0) 1, .callback 0, .scheduleReturns 0] : List (Event Nat)).foldlM step {}).map
      (fun w => (w.ran, w.pending)) = some ([(0, ⟨15, 0⟩), (0, ⟨15, 1⟩)], [⟨1, 2⟩]) := by
  decide

end World

end Bfc.Timers
