import Bfc.EpollReactor.Entries

/-!
# Passes of the epoll reactor

One pass of `epoll_reactor::run` as far as registrations go: the batch of events that the wait
returned, dispatched one by one, and the clean-up. An event is the pointer the kernel was given. A
callback may make any calls, so the loop takes what each callback does as an argument, and has no
result where those calls cannot be made or answered so.

A clean-up comes after the batch and never inside it, so no entry goes while the batch is
dispatched, and each event's pointer still points into the entry it was given for.
-/

namespace Bfc.EpollReactor

open Lts

variable {κ : Type*}

namespace Reactor

/-- The context of an entry that a pointer points to; `none` when the entry is gone. -/
def deref (s : Reactor κ) : Ptr → Option (FdCtx κ)
  | .eventFdCtx => none
  | .ctx fd node side =>
    match s.fdEntries fd with
    | some e => if e.node = node then some (e.ctx side) else none
    | none => none

/-- The callback that an event invokes: `ctx && ctx->cb`. The eventfd's own callback reads it and
touches no registration. -/
def invokes (s : Reactor κ) (ptr : Ptr) : Option κ := (s.deref ptr).bind (·.cb)

/-- A wait may report a pointer: it is that of a watched descriptor. -/
def Reports (s : Reactor κ) (ptr : Ptr) : Prop :=
  ∃ fd w, s.kernel.interest fd = some w ∧ w.ptr = ptr

end Reactor

/-- One round of the dispatch loop, on record: the event, the state when the round begins, the calls
made for the batch so far, the callback invoked and the calls it made. -/
structure Visit (κ : Type*) where
  ptr : Ptr
  before : Reactor κ
  earlier : List (Op κ)
  invoked : Option κ
  calls : List (Op κ)

/-- The dispatch loop from event `i` on. -/
def Reactor.dispatchLoop (calls : Nat → List (Op κ)) :
    Nat → List (Op κ) → List Ptr → Reactor κ → Option (Reactor κ × List (Visit κ))
  | _, _, [], s => some (s, [])
  | i, earlier, ptr :: rest, s => do
    let made := if (s.invokes ptr).isSome then calls i else []
    let t ← s.calls made
    let done ← dispatchLoop calls (i + 1) (earlier ++ made) rest t
    some (done.1, { ptr := ptr, before := s, earlier := earlier, invoked := s.invokes ptr
                    calls := made } :: done.2)

/-- The dispatch of a batch. -/
def Reactor.dispatch (s : Reactor κ) (calls : Nat → List (Op κ)) (batch : List Ptr) :
    Option (Reactor κ × List (Visit κ)) :=
  Reactor.dispatchLoop calls 0 [] batch s

/-- A step on the registrations: a call, made before `run`, by a callback, a wake-up callback or a
timer, or the clean-up. -/
inductive Event (κ : Type*) where
  | call (op : Op κ)
  | cleanup

/-- The step function. -/
def Reactor.step (s : Reactor κ) : Event κ → Option (Reactor κ)
  | .call op => s.call op
  | .cleanup => some s.cleanup

/-- A step of a run. -/
def Step (s : Reactor κ) (event : Event κ) (t : Reactor κ) : Prop := s.step event = some t

variable {s t : Reactor κ}

/-! ## The clean-up -/

/-- An entry that is not registered goes, with its duplicate. -/
theorem Agree.erase (h : Agree s) {fd x : Int} {e : FdEntry κ} {k : Kernel}
    (he : s.fdEntries fd = some e) (idle : e.readActive = false ∧ e.writeActive = false)
    (concerns : Concerns s.kernel fd x) (fds : ∀ y, y ≠ x → k.fds y = s.kernel.fds y)
    (interest : ∀ y, y ≠ x → k.interest y = s.kernel.interest y)
    (kept : ∀ y w, k.interest y = some w → s.kernel.interest y = some w)
    (invalid : k.fds (-1) = none) :
    Agree { s.withKernel k with fdEntries := Function.update s.fdEntries fd none } where
  entries fd' e' he' := by
    change Function.update s.fdEntries fd none fd' = some e' at he'
    by_cases same : fd' = fd
    · subst same
      rw [Function.update_self] at he'
      cases he'
    · rw [Function.update_of_ne same] at he'
      exact h.entryOk_other concerns fds interest same he'
  watches y w hw := by
    have ok := h.watches y w (kept y w hw)
    revert ok
    cases w.ptr with
    | eventFdCtx => exact id
    | ctx fd' node side =>
      rintro ⟨e', he', rfl, active, rfl⟩
      by_cases same : fd' = fd
      · subst same
        obtain rfl := Option.some.inj (he.symm.trans he')
        cases side with
        | read => exact absurd (idle.1.symm.trans active) Bool.false_ne_true
        | write => exact absurd (idle.2.symm.trans active) Bool.false_ne_true
      · exact ⟨e', (Function.update_of_ne same _ _).trans he', rfl, active, rfl⟩
  event := by
    obtain ⟨events, watched⟩ := h.event
    exact ⟨events, (interest _ (Ne.symm (h.apart concerns).1)).trans watched⟩
  owner := (fds _ (Ne.symm (h.apart concerns).1)).trans h.owner
  invalid := invalid

theorem Agree.cleanupFd (h : Agree s) (fd : Int) : Agree (s.cleanupFd fd) := by
  unfold Reactor.cleanupFd
  cases he : s.fdEntries fd with
  | none => exact h
  | some e =>
    dsimp only
    split
    · rename_i idle
      rw [Bool.and_eq_true, Bool.not_eq_true', Bool.not_eq_true'] at idle
      split
      · rename_i valid
        have dup := (h.entries fd e he).duplicate valid
        refine h.erase (x := e.writeCtx.fd) he idle (.inr (.inr dup))
          (fun y ne => Function.update_of_ne ne _ _) (fun y ne => Function.update_of_ne ne _ _)
          (fun y w hw => ?_) ((Function.update_of_ne (Ne.symm valid) _ _).trans h.invalid)
        by_cases same : y = e.writeCtx.fd
        · subst same
          exact absurd ((Function.update_self _ _ _).symm.trans hw) (by intro hc; cases hc)
        · exact (Function.update_of_ne same _ _).symm.trans hw
      · exact h.erase (x := -1) he idle (.inl h.invalid) (fun _ _ => rfl) (fun _ _ => rfl)
          (fun _ _ hw => hw) h.invalid
    · exact h

/-- The rule of the clean-up loop: what each round keeps, the loop keeps. -/
theorem cleanup_loop {P : Reactor κ → Prop} (round : ∀ t fd, P t → P (t.cleanupFd fd)) (h : P s) :
    P (s.pendingCleanup.foldl Reactor.cleanupFd s) :=
  List.foldlRecOn _ _ h fun t ht fd _ => round t fd ht

theorem Agree.cleanup (h : Agree s) : Agree s.cleanup := by
  have loop := cleanup_loop (P := Agree) (fun _ fd h => h.cleanupFd fd) h
  exact loop.of_same rfl rfl rfl

/-- A round of the clean-up takes an entry away only if neither of its directions is registered. -/
theorem cleanupFd_entries (s : Reactor κ) (x fd : Int) :
    (s.cleanupFd x).fdEntries fd = s.fdEntries fd ∨
      (s.cleanupFd x).fdEntries fd = none ∧ ∃ e, s.fdEntries fd = some e ∧
        e.readActive = false ∧ e.writeActive = false := by
  unfold Reactor.cleanupFd
  split
  · exact .inl rfl
  · rename_i e he
    split
    · rename_i idle
      rw [Bool.and_eq_true, Bool.not_eq_true', Bool.not_eq_true'] at idle
      have gone : ∀ s' : Reactor κ, s'.fdEntries = s.fdEntries →
          Function.update s'.fdEntries x none fd = s.fdEntries fd ∨
            Function.update s'.fdEntries x none fd = none ∧ ∃ e, s.fdEntries fd = some e ∧
              e.readActive = false ∧ e.writeActive = false := by
        intro s' same
        by_cases own : fd = x
        · subst own
          exact .inr ⟨Function.update_self _ _ _, e, he, idle⟩
        · exact .inl ((Function.update_of_ne own _ _).trans (congrFun same fd))
      split
      · exact gone _ rfl
      · exact gone _ rfl
    · exact .inl rfl

theorem cleanup_entries (s : Reactor κ) {fd : Int} {e : FdEntry κ} (he : s.fdEntries fd = some e) :
    s.cleanup.fdEntries fd = some e ∨
      s.cleanup.fdEntries fd = none ∧ e.readActive = false ∧ e.writeActive = false := by
  apply cleanup_loop (P := fun t => t.fdEntries fd = some e ∨
    t.fdEntries fd = none ∧ e.readActive = false ∧ e.writeActive = false)
  · intro t x h
    rcases cleanupFd_entries t x fd with same | ⟨gone, e', he', idle⟩
    · rw [same]
      exact h
    · rcases h with h | h
      · obtain rfl := Option.some.inj (h.symm.trans he')
        exact .inr ⟨gone, idle⟩
      · rw [h.1] at he'
        cases he'
  · exact .inl he

/-- What a clean-up leaves was there. -/
theorem cleanup_entry (s : Reactor κ) {fd : Int} {e : FdEntry κ}
    (he : s.cleanup.fdEntries fd = some e) : s.fdEntries fd = some e := by
  have kept : ∀ e, s.cleanup.fdEntries fd = some e → s.fdEntries fd = some e := by
    apply cleanup_loop (P := fun t => ∀ e, t.fdEntries fd = some e → s.fdEntries fd = some e)
    · intro t x h e he
      rcases cleanupFd_entries t x fd with same | ⟨gone, -⟩
      · exact h e (same.symm.trans he)
      · rw [gone] at he
        cases he
    · exact fun _ => id
  exact kept e he

theorem cleanup_adds (s : Reactor κ) : s.cleanup.adds = s.adds := by
  apply cleanup_loop (P := fun t => t.adds = s.adds)
  · intro t x same
    rw [← same]
    unfold Reactor.cleanupFd
    split
    · rfl
    · split
      · split <;> rfl
      · rfl
  · rfl

/-! ## Runs -/

theorem calls_cons (s : Reactor κ) (op : Op κ) (ops : List (Op κ)) :
    s.calls (op :: ops) = (s.call op).bind fun t => t.calls ops := by
  rw [Reactor.calls, List.foldlM_cons]
  rfl

theorem calls_append (s : Reactor κ) (ops ops' : List (Op κ)) :
    s.calls (ops ++ ops') = (s.calls ops).bind fun t => t.calls ops' := by
  rw [Reactor.calls, List.foldlM_append]
  rfl

theorem Agree.calls (h : Agree s) {ops : List (Op κ)} (run : s.calls ops = some t) : Agree t := by
  induction ops generalizing s with
  | nil => exact Option.some.inj run ▸ h
  | cons op ops ih =>
    rw [calls_cons] at run
    obtain ⟨u, first, rest⟩ := Option.bind_eq_some_iff.mp run
    exact ih (h.call first) rest

/-- A new reactor's interest set is the eventfd. -/
theorem Agree.init (eventFd : Nat) (pollIn : BitVec 32) :
    Agree (Reactor.init eventFd pollIn : Reactor κ) where
  entries fd e he := by cases he
  watches x w hw := by
    change Function.update (fun _ => none) (eventFd : Int) _ x = some w at hw
    by_cases same : x = eventFd
    · subst same
      rw [Function.update_self] at hw
      rw [← Option.some.inj hw]
      rfl
    · rw [Function.update_of_ne same] at hw
      cases hw
  event := ⟨pollIn, Function.update_self _ _ _⟩
  owner := Function.update_self _ _ _
  invalid := by
    have other : (-1 : Int) ≠ eventFd := by omega
    exact Function.update_of_ne other (some Owner.event) fun _ => none

theorem Agree.run {eventFd : Nat} {pollIn : BitVec 32} {events : List (Event κ)}
    (run : Run Step (.init eventFd pollIn) events s) : Agree s := by
  refine Run.invariant (P := Agree) run (.init eventFd pollIn) ?_
  intro s event t h step
  cases event with
  | call op => exact h.call step
  | cleanup => exact Option.some.inj step ▸ h.cleanup

/-! ## Batches -/

/-- An entry survives any calls, in its node. -/
theorem calls_some {ops : List (Op κ)} (run : s.calls ops = some t) {fd : Int} {e : FdEntry κ}
    (he : s.fdEntries fd = some e) : ∃ e', t.fdEntries fd = some e' ∧ e'.node = e.node := by
  induction ops generalizing s e with
  | nil => exact ⟨e, Option.some.inj run ▸ he, rfl⟩
  | cons op ops ih =>
    rw [calls_cons] at run
    obtain ⟨u, first, rest⟩ := Option.bind_eq_some_iff.mp run
    obtain ⟨-, performed⟩ := Option.ite_none_right_eq_some.mp first
    obtain rfl := Option.some.inj performed
    obtain ⟨e', he', same⟩ := ih rest (perform_some op he)
    exact ⟨e', he', same.trans (op.onEntry_node ..)⟩

/-- The loop visits the events in order, each after the calls made so far. -/
theorem loop_visits {calls : Nat → List (Op κ)} {batch : List Ptr} {i : Nat}
    {earlier : List (Op κ)} {visits : List (Visit κ)}
    (done : Reactor.dispatchLoop calls i earlier batch s = some (t, visits)) :
    visits.map (·.ptr) = batch ∧ ∀ v ∈ visits,
      (∃ made, v.earlier = earlier ++ made ∧ s.calls made = some v.before) ∧
        v.invoked = v.before.invokes v.ptr := by
  induction batch generalizing i earlier s visits with
  | nil =>
    obtain ⟨-, rfl⟩ := Prod.mk.inj (Option.some.inj done)
    exact ⟨rfl, fun v hv => by cases hv⟩
  | cons ptr rest ih =>
    obtain ⟨u, made, done⟩ := Option.bind_eq_some_iff.mp done
    obtain ⟨after, loop, done⟩ := Option.bind_eq_some_iff.mp done
    obtain ⟨rfl, rfl⟩ := Prod.mk.inj (Option.some.inj done)
    obtain ⟨ptrs, visited⟩ := ih loop
    refine ⟨by rw [List.map_cons, ptrs], fun v hv => ?_⟩
    rcases List.mem_cons.mp hv with rfl | hv
    · exact ⟨⟨[], (List.append_nil _).symm, rfl⟩, rfl⟩
    · obtain ⟨⟨later, hlater, before⟩, invoked⟩ := visited v hv
      refine ⟨⟨(if (s.invokes ptr).isSome then calls i else []) ++ later, ?_, ?_⟩, invoked⟩
      · rw [hlater, List.append_assoc]
      · rw [calls_append, made]
        exact before

/-- Each event is reached in the state that the calls made for the batch so far lead to. -/
theorem dispatch_visits {calls : Nat → List (Op κ)} {batch : List Ptr} {visits : List (Visit κ)}
    (done : s.dispatch calls batch = some (t, visits)) :
    visits.map (·.ptr) = batch ∧ ∀ v ∈ visits,
      s.calls v.earlier = some v.before ∧ v.invoked = v.before.invokes v.ptr := by
  obtain ⟨ptrs, visited⟩ := loop_visits done
  refine ⟨ptrs, fun v hv => ?_⟩
  obtain ⟨⟨made, earlier, before⟩, invoked⟩ := visited v hv
  rw [List.nil_append] at earlier
  exact ⟨earlier ▸ before, invoked⟩

/-- A reported pointer is the eventfd's, or that of a registered context. -/
theorem Agree.reported (h : Agree s) {ptr : Ptr} (reports : s.Reports ptr) :
    ptr = .eventFdCtx ∨ ∃ fd e side, ptr = .ctx fd e.node side ∧ s.fdEntries fd = some e ∧
      e.active side = true := by
  obtain ⟨x, w, watched, rfl⟩ := reports
  have ok := h.watches x w watched
  revert ok
  cases w.ptr with
  | eventFdCtx => exact fun _ => .inl rfl
  | ctx fd node side =>
    rintro ⟨e, he, rfl, active, -⟩
    exact .inr ⟨fd, e, side, rfl, he, active⟩

/-- The interest set is the eventfd and the registered contexts, and nothing else. -/
structure InterestExact (s : Reactor κ) : Prop where
  watched : ∀ x w, s.kernel.interest x = some w →
    (x = s.eventFd ∧ w.ptr = .eventFdCtx) ∨ ∃ fd e side, s.fdEntries fd = some e ∧
      e.active side = true ∧ (e.ctx side).fd = x ∧ w.ptr = .ctx fd e.node side
  eventFd : ∃ w, s.kernel.interest s.eventFd = some w ∧ w.ptr = .eventFdCtx
  registered : ∀ fd e side, s.fdEntries fd = some e → e.active side = true →
    ∃ w, s.kernel.interest (e.ctx side).fd = some w ∧ w.ptr = .ctx fd e.node side

theorem Agree.interestExact (h : Agree s) : InterestExact s where
  watched x w watched := by
    have ok := h.watches x w watched
    revert ok
    cases w.ptr with
    | eventFdCtx => exact fun same => .inl ⟨same, rfl⟩
    | ctx fd node side =>
      rintro ⟨e, he, rfl, active, watches⟩
      exact .inr ⟨fd, e, side, he, active, watches, rfl⟩
  eventFd := by
    obtain ⟨events, watched⟩ := h.event
    exact ⟨_, watched, rfl⟩
  registered fd e side he active := by
    have ok := h.entries fd e he
    cases side with
    | read =>
      obtain ⟨own, -, events, watched⟩ := ok.read active
      exact ⟨_, (congrArg s.kernel.interest own).trans watched, rfl⟩
    | write =>
      obtain ⟨-, events, watched⟩ := ok.write active
      exact ⟨_, watched, rfl⟩

/-- **The event pointers always refer to live entries.** After any calls and clean-ups, the interest
set is exact and a clean-up takes only entries that are not registered; and in a batch, each event
points to a context that is there when the event is reached, whatever the callbacks do. -/
theorem event_pointers_live {eventFd : Nat} {pollIn : BitVec 32} {events : List (Event κ)}
    (run : Run Step (.init eventFd pollIn) events s) :
    InterestExact s ∧
      (∀ fd e, s.fdEntries fd = some e → s.cleanup.fdEntries fd = some e ∨
        s.cleanup.fdEntries fd = none ∧ e.readActive = false ∧ e.writeActive = false) ∧
      ∀ batch calls t visits, (∀ ptr ∈ batch, s.Reports ptr) →
        s.dispatch calls batch = some (t, visits) →
        visits.map (·.ptr) = batch ∧ ∀ v ∈ visits, InterestExact v.before ∧
          (v.ptr = .eventFdCtx ∨ (v.before.deref v.ptr).isSome) := by
  have h := Agree.run run
  refine ⟨h.interestExact, fun fd e he => cleanup_entries s he, ?_⟩
  intro batch calls t visits reported done
  obtain ⟨ptrs, visited⟩ := dispatch_visits done
  refine ⟨ptrs, fun v hv => ?_⟩
  obtain ⟨before, -⟩ := visited v hv
  refine ⟨(h.calls before).interestExact, ?_⟩
  have mem : v.ptr ∈ batch := ptrs ▸ List.mem_map_of_mem hv
  rcases h.reported (reported v.ptr mem) with event | ⟨fd, e, side, ptr, he, -⟩
  · exact .inl event
  · obtain ⟨e', he', node⟩ := calls_some before he
    right
    rw [ptr, Reactor.deref, he']
    simp only [node, if_true, Option.isSome_some]

/-- The first callback of a batch removes both registrations of another descriptor and closes it.
The two events left point to contexts that are there, with no callback. -/
theorem event_pointers_live_removed :
    ∃ (s t : Reactor Nat) (visits : List (Visit Nat)),
      ([.call (.openFd 4), .call (.openFd 5), .call (.addRead 4 1 (some 40) true),
        .call (.addRead 5 1 (some 50) true), .call (.addWrite 5 (some 51) 6 true)] :
          List (Event Nat)).foldlM Reactor.step (.init 3 1) = some s ∧
      s.dispatch (fun i => if i = 0 then [.remRead 5, .remWrite 5, .closeFd 5] else [])
        [.ctx 4 0 .read, .ctx 5 1 .read, .ctx 5 1 .write] = some (t, visits) ∧
      InterestExact s ∧ visits.map (·.invoked) = [some 40, none, none] ∧
      ∀ v ∈ visits, v.ptr = .eventFdCtx ∨ (v.before.deref v.ptr).isSome := by
  obtain ⟨s, t, visits, reached, reported, done, invoked⟩ :
      ∃ (s t : Reactor Nat) (visits : List (Visit Nat)),
        ([.call (.openFd 4), .call (.openFd 5), .call (.addRead 4 1 (some 40) true),
          .call (.addRead 5 1 (some 50) true), .call (.addWrite 5 (some 51) 6 true)] :
            List (Event Nat)).foldlM Reactor.step (.init 3 1) = some s ∧
        (∀ ptr ∈ [Ptr.ctx 4 0 .read, .ctx 5 1 .read, .ctx 5 1 .write], s.Reports ptr) ∧
        s.dispatch (fun i => if i = 0 then [.remRead 5, .remWrite 5, .closeFd 5] else [])
          [.ctx 4 0 .read, .ctx 5 1 .read, .ctx 5 1 .write] = some (t, visits) ∧
        visits.map (·.invoked) = [some 40, none, none] := by
    refine ⟨_, _, _, rfl, ?_, rfl, rfl⟩
    simp only [List.forall_mem_cons]
    exact ⟨⟨4, _, rfl, rfl⟩, ⟨5, _, rfl, rfl⟩, ⟨6, _, rfl, rfl⟩, fun _ h => by cases h⟩
  obtain ⟨isExact, -, live⟩ := event_pointers_live (run_of_foldlM reached)
  obtain ⟨-, visited⟩ := live _ _ _ _ reported done
  exact ⟨s, t, visits, reached, done, isExact, invoked, fun v hv => (visited v hv).2⟩

end Bfc.EpollReactor
