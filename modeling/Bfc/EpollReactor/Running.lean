import Bfc.EpollReactor.Storage

/-!
# The executing callback

An event invokes the callback where it is stored, and the calls that the callback makes are carried
out at once, its own removal too. A removal of a registered context assigns `nullptr` to the
function object that is running, and an addition moves the new callback over it, whether the
addition then succeeds or not.

So the callable that runs stays where it is exactly if none of the calls is an addition of its own
direction, nor a removal of it if that direction is registered: `executing_callback_iff`. It need
not be, as the callback may be one that a failed addition has left in the context.
-/

namespace Bfc.EpollReactor

open Lts Bfc.Function

section Calls

variable {κ : Type*} {s t : Reactor κ}

/-- The call changes the callback of a direction, which is registered or not. -/
def Op.Concerns (fd : Int) (side : Side) (active : Bool) : Op κ → Prop
  | .addRead x .. => x = fd ∧ side = .read
  | .remRead x => x = fd ∧ side = .read ∧ active = true
  | .addWrite x .. => x = fd ∧ side = .write
  | .remWrite x => x = fd ∧ side = .write ∧ active = true
  | .openFd _ | .closeFd _ | .reqWrite .. => False

/-- The calls of a visit can be made. -/
theorem loop_calls {calls : Nat → List (Op κ)} {batch : List Ptr} {i : Nat} {earlier : List (Op κ)}
    {visits : List (Visit κ)}
    (done : Reactor.dispatchLoop calls i earlier batch s = some (t, visits)) {v : Visit κ}
    (hv : v ∈ visits) : ∃ u, v.before.calls v.calls = some u := by
  induction batch generalizing i earlier s visits with
  | nil =>
    obtain ⟨-, rfl⟩ := Prod.mk.inj (Option.some.inj done)
    cases hv
  | cons ptr rest ih =>
    obtain ⟨u, made, done⟩ := Option.bind_eq_some_iff.mp done
    obtain ⟨after, loop, done⟩ := Option.bind_eq_some_iff.mp done
    obtain ⟨rfl, rfl⟩ := Prod.mk.inj (Option.some.inj done)
    rcases List.mem_cons.mp hv with rfl | hv
    · exact ⟨u, made⟩
    · exact ih loop hv

/-! ## Write contexts with a callback -/

/-- A write context that has a callback has a descriptor. -/
def Backed (s : Reactor κ) : Prop :=
  ∀ fd e, s.fdEntries fd = some e → e.writeCtx.cb.isSome → e.writeCtx.fd ≠ -1

theorem Op.onEntry_backed (op : Op κ) {fd : Int} {adds : Nat} {e : FdEntry κ}
    (backed : e.writeCtx.cb.isSome → e.writeCtx.fd ≠ -1) :
    (op.onEntry fd adds e).writeCtx.cb.isSome → (op.onEntry fd adds e).writeCtx.fd ≠ -1 := by
  cases op with
  | openFd x => exact backed
  | closeFd x => exact backed
  | addRead x events cb added | remRead x | reqWrite x events modified =>
    simp only [Op.onEntry]
    split
    · exact backed
    · exact backed
  | addWrite x cb dupFd added =>
    simp only [Op.onEntry]
    split
    · split
      · exact backed
      · rename_i valid
        exact fun _ => valid
    · exact backed
  | remWrite x =>
    simp only [Op.onEntry]
    split
    · intro stored
      cases stored
    · exact backed

theorem Backed.perform (h : Backed s) (op : Op κ) : Backed (s.perform op) := by
  intro fd e he
  rcases perform_entry s op fd with stored | ⟨same, -⟩
  · obtain rfl := Option.some.inj (stored.symm.trans he)
    apply op.onEntry_backed
    cases hf : s.fdEntries fd with
    | none =>
      rw [Reactor.entryOf, hf]
      intro stored
      cases stored
    | some e =>
      rw [Agree.entryOf_eq hf]
      exact h fd e hf
  · exact h fd e (same.symm.trans he)

theorem Backed.cleanup (h : Backed s) : Backed s.cleanup := by
  intro fd e he
  exact h fd e (cleanup_entry s he)

theorem Backed.run {eventFd : Nat} {pollIn : BitVec 32} {events : List (Event κ)}
    (run : Run Step (.init eventFd pollIn) events s) : Backed s := by
  refine Run.invariant (P := Backed) run ?_ ?_
  · intro fd e he
    cases he
  · intro s event t h step
    cases event with
    | call op =>
      obtain ⟨-, performed⟩ := Option.ite_none_right_eq_some.mp step
      exact Option.some.inj performed ▸ h.perform op
    | cleanup => exact Option.some.inj step ▸ h.cleanup

/-! ## The context that is running -/

/-- A direction of an entry: whether it is registered, and its context's descriptor. -/
def Occupied (s : Reactor κ) (fd : Int) (side : Side) (active : Bool) : Prop :=
  ∃ e, s.fdEntries fd = some e ∧ e.active side = active ∧
    (active = true → (e.ctx side).fd ≠ -1) ∧ (side = .write → e.writeCtx.fd ≠ -1)

/-- A call that does not change the callback leaves the direction as it is. -/
theorem Op.onEntry_kept (op : Op κ) {fd : Int} {side : Side} (adds : Nat) {e : FdEntry κ}
    (other : ¬op.Concerns fd side (e.active side)) :
    (op.onEntry fd adds e).active side = e.active side ∧
      ((op.onEntry fd adds e).ctx side).fd = (e.ctx side).fd := by
  cases op with
  | openFd x => exact ⟨rfl, rfl⟩
  | closeFd x => exact ⟨rfl, rfl⟩
  | addRead x events cb added =>
    simp only [Op.onEntry]
    split
    · rename_i own
      cases side with
      | read => exact absurd ⟨own, rfl⟩ other
      | write => exact ⟨rfl, rfl⟩
    · exact ⟨rfl, rfl⟩
  | remRead x =>
    simp only [Op.onEntry]
    split
    · rename_i own
      cases side with
      | read => exact absurd ⟨own.1, rfl, own.2.1⟩ other
      | write => exact ⟨rfl, rfl⟩
    · exact ⟨rfl, rfl⟩
  | addWrite x cb dupFd added =>
    simp only [Op.onEntry]
    split
    · rename_i own
      cases side with
      | read => split <;> exact ⟨rfl, rfl⟩
      | write => exact absurd ⟨own, rfl⟩ other
    · exact ⟨rfl, rfl⟩
  | remWrite x =>
    simp only [Op.onEntry]
    split
    · rename_i own
      cases side with
      | read => exact ⟨rfl, rfl⟩
      | write => exact absurd ⟨own.1, rfl, own.2.1⟩ other
    · exact ⟨rfl, rfl⟩
  | reqWrite x events modified =>
    simp only [Op.onEntry]
    split
    · cases side <;> exact ⟨rfl, rfl⟩
    · exact ⟨rfl, rfl⟩

theorem Occupied.call {fd : Int} {side : Side} {active : Bool} (h : Occupied s fd side active)
    {op : Op κ} (other : ¬op.Concerns fd side active) : Occupied (s.perform op) fd side active := by
  obtain ⟨e, he, rfl, valid, held⟩ := h
  obtain ⟨sameActive, sameFd⟩ := op.onEntry_kept (s.adds + 1) other
  refine ⟨_, perform_some op he, sameActive, ?_, ?_⟩
  · rw [sameFd]
    exact valid
  · rintro rfl
    rw [show ((op.onEntry fd (s.adds + 1) e).writeCtx).fd =
      ((op.onEntry fd (s.adds + 1) e).ctx .write).fd from rfl, sameFd]
    exact held rfl

/-- The context of a callback that is invoked. -/
theorem Agree.occupied (h : Agree s) (backed : Backed s) {fd : Int} {node : Nat} {side : Side}
    (invoked : (s.invokes (.ctx fd node side)).isSome) :
    ∃ e, s.fdEntries fd = some e ∧ (e.ctx side).cb.isSome ∧
      Occupied s fd side (e.active side) := by
  obtain ⟨cb, invoked⟩ := Option.isSome_iff_exists.mp invoked
  obtain ⟨ctx, there, stored⟩ := Option.bind_eq_some_iff.mp invoked
  cases he : s.fdEntries fd with
  | none =>
    simp only [Reactor.deref, he] at there
    cases there
  | some e =>
    simp only [Reactor.deref, he] at there
    obtain ⟨-, same⟩ := Option.ite_none_right_eq_some.mp there
    obtain rfl := Option.some.inj same
    have held : (e.ctx side).cb.isSome := by rw [stored]; rfl
    refine ⟨e, rfl, held, e, he, rfl, ?_, ?_⟩
    · intro active
      have ok := h.entries fd e he
      cases side with
      | read =>
        obtain ⟨own, caller, -⟩ := ok.read active
        intro invalid
        rw [show e.readCtx.fd = -1 from invalid] at own
        rw [← own, h.invalid] at caller
        cases caller
      | write => exact (ok.write active).1
    · rintro rfl
      exact backed fd e he held

end Calls

/-! ## What the calls disturb -/

section Storage

variable {ω : Type} {N : Nat} {s t : Reactor (Callback ω N)}

/-- A removal disturbs the context of its own direction, if that is registered, and no other. -/
theorem removal_undisturbed {fd : Int} {side : Side} {e : FdEntry (Callback ω N)}
    (he : s.fdEntries fd = some e) (valid : e.active side = true → (e.ctx side).fd ≠ -1) (x : Int)
    (side' : Side) :
    (∀ m ∈ s.removal x side', ¬m.Disturbs (.ctx fd side)) ↔
      ¬(x = fd ∧ side = side' ∧ e.active side = true) := by
  unfold Reactor.removal
  by_cases own : x = fd ∧ side = side'
  · obtain ⟨rfl, rfl⟩ := own
    rw [he]
    dsimp only
    by_cases active : e.active side = true
    · rw [if_pos ⟨active, valid active⟩]
      simp [Function.Op.Disturbs, active]
    · rw [if_neg fun hc => active hc.1]
      simp [active]
  · refine iff_of_true ?_ fun hc => own ⟨hc.1, hc.2.1⟩
    cases s.fdEntries x with
    | none => simp
    | some e' =>
      dsimp only
      split
      · rw [List.forall_mem_singleton]
        intro same
        obtain ⟨rfl, rfl⟩ := Place.ctx.inj same
        exact own ⟨rfl, rfl⟩
      · simp

/-- An addition looks up an entry that is there if it is the one that is running. -/
theorem addition_apart {fd : Int} {side : Side} {e : FdEntry (Callback ω N)}
    (he : s.fdEntries fd = some e) (x : Int) : (s.fdEntries x).isSome = true ∨
      Place.ctx fd side ≠ .ctx x .read ∧ Place.ctx fd side ≠ .ctx x .write := by
  by_cases same : fd = x
  · rw [← same, he]
    exact .inl rfl
  · exact .inr ⟨by simp [same], by simp [same]⟩

/-- **What a call disturbs.** -/
theorem call_undisturbed {fd : Int} {side : Side} {active : Bool} (h : Occupied s fd side active)
    (op : Op (Callback ω N)) :
    (∀ m ∈ s.callEffects op, ¬m.Disturbs (.ctx fd side)) ↔ ¬op.Concerns fd side active := by
  obtain ⟨e, he, rfl, valid, held⟩ := h
  cases op with
  | openFd x => simp [Reactor.callEffects, Op.Concerns]
  | closeFd x => simp [Reactor.callEffects, Op.Concerns]
  | addRead x events cb added =>
    rw [Reactor.callEffects, addition_undisturbed (by simp) (addition_apart he x)]
    simp [Op.Concerns, eq_comm]
  | remRead x => exact removal_undisturbed he valid x .read
  | addWrite x cb dupFd added =>
    rw [Reactor.callEffects, addition_undisturbed (by simp) (addition_apart he x)]
    apply not_congr
    constructor
    · intro stored
      obtain ⟨rfl, rfl⟩ := Place.ctx.inj (writeSlot_eq stored)
      exact ⟨rfl, rfl⟩
    · rintro ⟨rfl, rfl⟩
      have opened : (s.entryOf x).writeFd dupFd ≠ -1 := by
        rw [Agree.entryOf_eq he, FdEntry.writeFd, if_neg (held rfl)]
        exact held rfl
      rw [Reactor.writeSlot, if_neg opened]
  | remWrite x => exact removal_undisturbed he valid x .write
  | reqWrite x events modified => simp [Reactor.callEffects, Op.Concerns]

theorem calls_undisturbed {fd : Int} {side : Side} {active : Bool} (h : Occupied s fd side active)
    {ops : List (Op (Callback ω N))} (run : s.calls ops = some t) :
    (∀ m ∈ s.callStorage ops, ¬m.Disturbs (.ctx fd side)) ↔
      ∀ op ∈ ops, ¬op.Concerns fd side active := by
  refine programs_avoid_iff (I := fun s => Occupied s fd side active) ?_ ?_ h run
  · intro s op t h _
    exact call_undisturbed h op
  · intro s op t h step other
    obtain ⟨-, performed⟩ := Option.ite_none_right_eq_some.mp step
    rw [← Option.some.inj performed]
    exact h.call other

/-! ## The callback that executes -/

/-- **When the executing callback stays.** In every pass of every run, whatever events the wait
returns and whatever the callbacks do: a callback that is invoked is a callable in the storage of
its context; and until the invocation returns, the callable that is in the storage is still that
one, exactly if none of the calls made is an addition of the callback's own direction, nor a removal
of it if it is registered when the callback is invoked. -/
theorem executing_callback_iff {eventFd : Nat} {pollIn : BitVec 32}
    {events : List (Event (Callback ω N))} (run : Run Step (.init eventFd pollIn) events s)
    (batch : List Ptr) (calls : Nat → List (Op (Callback ω N)))
    {visits : List (Visit (Callback ω N))} (done : s.dispatch calls batch = some (t, visits)) :
    ∀ v ∈ visits, ∀ fd node side, v.ptr = .ctx fd node side → v.invoked.isSome →
      ∃ (l l' : Lifetimes Place) (n : Nat) (e : FdEntry (Callback ω N)),
        ((Reactor.init eventFd pollIn).storage (events ++ v.earlier.map Event.call)).foldlM
          Lifetimes.step {} = some l ∧
        v.before.fdEntries fd = some e ∧ l.living (.ctx fd side) = some (some n) ∧
        let made := .call (.ctx fd side) () :: v.before.callStorage v.calls
        made.foldlM Lifetimes.step l = some l' ∧
        (l.Stays (.ctx fd side) n made ↔
          ∀ op ∈ v.calls, ¬op.Concerns fd side (e.active side)) := by
  intro v hv fd node side ptr invoked
  obtain ⟨-, visited⟩ := dispatch_visits done
  obtain ⟨before, runs⟩ := visited v hv
  obtain ⟨u, made⟩ := loop_calls done hv
  have reached : (events ++ v.earlier.map Event.call).foldlM Reactor.step
      (.init eventFd pollIn) = some v.before := by
    rw [List.foldlM_append, foldlM_of_run run, Option.bind_eq_bind, Option.bind_some,
      List.foldlM_map]
    exact before
  have agree : Agree v.before := .run (run_of_foldlM reached)
  have backed : Backed v.before := .run (run_of_foldlM reached)
  rw [runs, ptr] at invoked
  obtain ⟨e, he, stored, occupied⟩ := agree.occupied backed invoked
  obtain ⟨l, history, numbered, shape⟩ := storage_run reached
  have engaged : (l.living (.ctx fd side)).map Option.isSome = some true := by
    rw [show (l.living (.ctx fd side)).map Option.isSome = v.before.filled (.ctx fd side) from
      congrFun shape _, Reactor.filled, he, Option.map_some, stored]
  obtain ⟨living, hliving, hn⟩ := Option.map_eq_some_iff.mp engaged
  obtain ⟨n, rfl⟩ := Option.isSome_iff_exists.mp hn
  obtain ⟨l', effects⟩ := callStorage_run made shape
  have effects' : (.call (.ctx fd side) () :: v.before.callStorage v.calls :
      List (Effect ω N)).foldlM Lifetimes.step l = some l' := by
    rw [List.foldlM_cons]
    simp only [Lifetimes.step, hliving, Option.bind_eq_bind, Option.bind_some]
    exact effects
  refine ⟨l, l', n, e, history, he, hliving, effects', ?_⟩
  rw [numbered.stays_iff hliving effects', List.forall_mem_cons, calls_undisturbed occupied made]
  exact and_iff_right id

end Storage

/-- The first of two callbacks removes the other descriptor's registration and adds a write
registration of its own descriptor; the callable that runs stays. -/
theorem executing_callback_kept :
    ∃ (s t : Reactor (Callback Unit 0)) (visits : List (Visit (Callback Unit 0))),
      ([.call (.openFd 4), .call (.openFd 5),
        .call (.addRead 4 1 (some (stateless .argument)) true),
        .call (.addRead 5 1 (some (stateless .argument)) true)] :
          List (Event (Callback Unit 0))).foldlM Reactor.step (.init 3 1) = some s ∧
      s.dispatch (fun i => if i = 0 then [.remRead 5, .addWrite 4 none 6 true] else [])
        [.ctx 4 0 .read, .ctx 5 1 .read] = some (t, visits) ∧
      ∃ v ∈ visits, ∃ (l : Lifetimes Place) (n : Nat),
        l.living (.ctx 4 .read) = some (some n) ∧
        l.Stays (.ctx 4 .read) n (.call (.ctx 4 .read) () :: v.before.callStorage v.calls) := by
  obtain ⟨s, t, visits, reached, done, v, hv, ptr, invoked, calls⟩ :
      ∃ (s t : Reactor (Callback Unit 0)) (visits : List (Visit (Callback Unit 0))),
        ([.call (.openFd 4), .call (.openFd 5),
          .call (.addRead 4 1 (some (stateless .argument)) true),
          .call (.addRead 5 1 (some (stateless .argument)) true)] :
            List (Event (Callback Unit 0))).foldlM Reactor.step (.init 3 1) = some s ∧
        s.dispatch (fun i => if i = 0 then [.remRead 5, .addWrite 4 none 6 true] else [])
          [.ctx 4 0 .read, .ctx 5 1 .read] = some (t, visits) ∧
        ∃ v ∈ visits, v.ptr = .ctx 4 0 .read ∧ v.invoked.isSome ∧
          v.calls = [.remRead 5, .addWrite 4 none 6 true] :=
    ⟨_, _, _, rfl, rfl, _, .head _, rfl, rfl, rfl⟩
  obtain ⟨l, l', n, e, -, -, living, -, stays⟩ :=
    executing_callback_iff (run_of_foldlM reached) _ _ done v hv 4 0 .read ptr invoked
  refine ⟨s, t, visits, reached, done, v, hv, l, n, living, stays.mpr ?_⟩
  rw [calls]
  simp [Op.Concerns]

/-- **A callback that removes itself is destroyed while it runs.** Descriptor 4 is ready and its
callback removes it. When the call returns, the context is empty. -/
theorem removed_while_executing :
    ∃ (s t : Reactor (Callback Unit 0)) (visits : List (Visit (Callback Unit 0))),
      ([.call (.openFd 4), .call (.addRead 4 1 (some (stateless .argument)) true)] :
          List (Event (Callback Unit 0))).foldlM Reactor.step (.init 3 1) = some s ∧
      s.Reports (.ctx 4 0 .read) ∧
      s.dispatch (fun _ => [.remRead 4]) [.ctx 4 0 .read] = some (t, visits) ∧
      ∃ v ∈ visits, v.ptr = .ctx 4 0 .read ∧ v.invoked.isSome ∧ v.calls = [.remRead 4] ∧
        ∃ (l l' : Lifetimes Place) (n : Nat),
          ((Reactor.init 3 1).storage [.call (.openFd 4),
            .call (.addRead 4 1 (some (stateless .argument)) true)]).foldlM Lifetimes.step {} =
              some l ∧
          l.living (.ctx 4 .read) = some (some n) ∧
          (.call (.ctx 4 .read) () :: v.before.callStorage v.calls :
            List (Effect Unit 0)).foldlM Lifetimes.step l = some l' ∧
          l'.living (.ctx 4 .read) = some none ∧
          ¬l.Stays (.ctx 4 .read) n (.call (.ctx 4 .read) () :: v.before.callStorage v.calls) := by
  refine ⟨_, _, _, rfl, ⟨4, _, rfl, rfl⟩, rfl, _, .head _, rfl, rfl, rfl, _, _, 1, rfl, rfl, rfl,
    rfl, ?_⟩
  intro stays
  exact absurd ((stays.2 _ rfl).2 _ rfl).first (by decide)

end Bfc.EpollReactor
