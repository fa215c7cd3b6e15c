import Bfc.Lib.OneShot
import Bfc.PollReactor.Dispatch

/-!
# One-shot writes of the poll reactor

`poll` has no one-shot mode, so the reactor makes its own: `add_write` requests no events,
`req_write` requests some, and the dispatch of a write takes the request back before it runs the
callback. `Counted` is the reactor with a tally of this: a successful `add_write` is a subscription,
a successful `req_write` a request, and a write callback invoked is a notification.

A write registration whose poll entry requests events is `Armed`. That is its credit, and the
account of a registration moves as it should as long as the dispatch reaches only armed ones:
`Counted.Asked`. The source does not see to it, since `::poll` reports an error or a hang-up whether
events were requested or not.
-/

namespace Bfc.PollReactor

open IndexedVector OneShot

variable {κ : Type*} {wake : PollEntry} {s s' : Reactor κ} {fd : Int}

/-! ## What is counted -/

/-- `POLLERR`, `POLLHUP` and `POLLNVAL`: what `::poll` reports without a request. -/
def alwaysReported : BitVec 16 := 0x008 ||| 0x010 ||| 0x020

/-- What `::poll` reports is drawn from the requested events and those. -/
def Drawn (events revents : BitVec 16) : Prop := revents &&& ~~~(events ||| alwaysReported) = 0

instance (events revents : BitVec 16) : Decidable (Drawn events revents) :=
  inferInstanceAs (Decidable (_ = _))

/-- The poll entry of the write registration requests events. -/
def Reactor.Armed (s : Reactor κ) (fd : Int) : Prop :=
  ∃ p ∈ s.pollEntries, p.key = (fd, .write) ∧ p.pfd.events ≠ 0

instance (s : Reactor κ) (fd : Int) : Decidable (s.Armed fd) :=
  inferInstanceAs (Decidable (∃ p ∈ s.pollEntries, _))

/-- What a write registration may still be notified of. -/
def Reactor.credit (s : Reactor κ) (fd : Int) : Nat := if s.Armed fd then 1 else 0

/-- The reactor and the tally of its write registrations. -/
structure Counted (κ : Type*) where
  reactor : Reactor κ
  tally : Tally Int := {}

/-- What a call adds to the tally, with the answer it got. -/
def Op.count (answer : Bool) (tally : Tally Int) : Op κ → Tally Int
  | .addWrite fd _ _ => if answer then tally.subscribe fd else tally
  | .reqWrite fd _ => if answer then tally.request fd else tally
  | .addRead .. | .remRead _ | .remWrite _ => tally

namespace Counted

/-- A step, where `::poll` can report so. -/
def step (c : Counted κ) : Event κ → Option (Counted κ)
  | .call op =>
    some { reactor := (c.reactor.call op).1, tally := op.count (c.reactor.call op).2 c.tally }
  | .poll => some { c with reactor := c.reactor.snapshot }
  | .visit pos revents =>
    match c.reactor.dispatch[pos]? with
    | none => none
    | some item =>
      if Drawn item.pfd.events revents then
        let round := c.reactor.dispatchItem item revents
        some
          { reactor := round.1
            tally := if item.kind = .write ∧ round.2.isSome then c.tally.invoke item.ownerFd
              else c.tally }
      else none
  | .cleanup => some { c with reactor := c.reactor.cleanup }

/-- A report that reaches a write registration that is there finds it armed. -/
def Asked (c : Counted κ) : Event κ → Prop
  | .visit pos revents =>
    ∀ item cb, c.reactor.dispatch[pos]? = some item → item.kind = .write → revents ≠ 0 →
      c.reactor.Holds item cb → c.reactor.Armed item.ownerFd
  | _ => True

/-- The reactor its constructor leaves, with nothing counted. -/
def init (wakeFd : Int) (pollIn : BitVec 16) : Counted κ where
  reactor := .init wakeFd pollIn

end Counted

/-! ## Arming -/

/-- No poll entry of the write registration is new or asks for more. -/
theorem Reactor.Armed.of_subset
    (kept : ∀ p ∈ s'.pollEntries, p.key = (fd, .write) → p.pfd.events ≠ 0 →
      ∃ q ∈ s.pollEntries, q.key = p.key ∧ q.pfd.events = p.pfd.events)
    (armed : s'.Armed fd) : s.Armed fd := by
  obtain ⟨p, hp, key, events⟩ := armed
  obtain ⟨q, hq, hkey, hevents⟩ := kept p hp key events
  refine ⟨q, hq, hkey.trans key, ?_⟩
  rw [hevents]
  exact events

/-- A step on one descriptor arms no other. -/
theorem Frame.armed {fd' : Int} (h : Frame fd' s s') (other : fd ≠ fd') (armed : s'.Armed fd) :
    s.Armed fd := by
  refine armed.of_subset fun p hp key _ => ⟨p, ?_, rfl, rfl⟩
  have owner : p.ownerFd = fd := congrArg Prod.fst key
  exact (h.polled p (.inl (owner ▸ other))).mp hp

/-- A write registration whose own poll entry requests nothing is not armed. -/
theorem Consistent.not_armed (h : Consistent wake s) {e : FdEntry κ} {i : Nat} {p : PollEntry}
    (he : s.fdEntries fd = some e) (hi : e.writePollIndex = some i)
    (hp : s.pollEntries[i]? = some p) (quiet : p.pfd.events = 0) : ¬s.Armed fd := by
  rintro ⟨q, hq, key, events⟩
  have owner : q.ownerFd = fd := congrArg Prod.fst key
  have kind : q.kind = .write := congrArg Prod.snd key
  obtain ⟨e', j, he', hj, hqj, -⟩ := h.owner hq (by rw [kind]; decide)
  rw [owner, he] at he'
  obtain rfl := Option.some.inj he'
  rw [kind] at hj
  obtain rfl : i = j := Option.some.inj (hi.symm.trans hj)
  obtain rfl : p = q := Option.some.inj (hp.symm.trans hqj)
  exact events quiet

/-- Rewriting a poll entry arms no write registration but its own. -/
theorem Reactor.Armed.of_set {i : Nat} {q : PollEntry}
    (polled : s'.pollEntries = s.pollEntries.set i q)
    (quiet : q.key = (fd, .write) → q.pfd.events = 0) (armed : s'.Armed fd) : s.Armed fd := by
  refine armed.of_subset fun p hp key events => ?_
  rw [polled] at hp
  rcases List.mem_or_eq_of_mem_set hp with hp | rfl
  · exact ⟨p, hp, rfl, rfl⟩
  · exact absurd (quiet key) events

/-- An entry with a poll index is in the table. -/
theorem entryOf_placed {k : PollKind} {i : Nat} (hi : (s.entryOf fd).indexOf k = some i) :
    s.fdEntries fd = some (s.entryOf fd) := by
  unfold Reactor.entryOf at hi ⊢
  cases he : s.fdEntries fd with
  | some e => rfl
  | none =>
    rw [he] at hi
    cases k <;> cases hi

/-- `set_poll_entry` at the index of a registration; the table may have changed since. -/
theorem setPollEntry_polled (h : Consistent wake s) {k : PollKind} {i : Nat}
    (hi : (s.entryOf fd).indexOf k = some i) (t : Reactor κ) (same : t.pollEntries = s.pollEntries)
    (watched : Int) (events : BitVec 16) :
    ∃ q : PollEntry, q.key = (fd, k) ∧ q.pfd.events = events ∧ i < s.pollEntries.length ∧
      (t.setPollEntry (some i) watched events).pollEntries = s.pollEntries.set i q := by
  obtain ⟨-, -, p, hp, hkey, hat⟩ := h.at_index (entryOf_placed hi) hi
  refine ⟨{ p with pfd := { fd := watched, events := events } }, hkey, rfl,
    (List.getElem?_eq_some_iff.mp hp).1, ?_⟩
  have there : t.pollEntryAt (some i) = some (i, p) := by
    rw [← hat, Reactor.pollEntryAt, Reactor.pollEntryAt, same]
  unfold Reactor.setPollEntry
  rw [there, ← same]

/-- `set_poll_events` there. -/
theorem setPollEvents_polled (h : Consistent wake s) {e : FdEntry κ} {k : PollKind} {i : Nat}
    (he : s.fdEntries fd = some e) (hi : e.indexOf k = some i) (events : BitVec 16) :
    ∃ q : PollEntry, q.key = (fd, k) ∧ q.pfd.events = events ∧ i < s.pollEntries.length ∧
      (s.setPollEvents (some i) events).pollEntries = s.pollEntries.set i q := by
  obtain ⟨-, -, p, hp, hkey, hat⟩ := h.at_index he hi
  refine ⟨{ p with pfd := { p.pfd with events := events, revents := 0 } }, hkey, rfl,
    (List.getElem?_eq_some_iff.mp hp).1, ?_⟩
  unfold Reactor.setPollEvents
  rw [hat]

/-- A removal adds no poll entry. -/
theorem removePollEntryByIndex_subset (s : Reactor κ) (index : Option Nat) :
    (s.removePollEntryByIndex index).pollEntries ⊆ s.pollEntries := by
  have moved : ∀ (t : Reactor κ) (owner : Int) (kind : PollKind) (i : Nat),
      (t.updatePollIndex owner kind i).pollEntries = t.pollEntries := by
    intro t owner kind i
    unfold Reactor.updatePollIndex
    split
    · rfl
    · split <;> rfl
  unfold Reactor.removePollEntryByIndex
  split
  · exact fun p hp => hp
  · split
    · exact fun p hp => hp
    · rename_i last hlast
      intro p hp
      have hp := (List.dropLast_sublist _).subset hp
      split at hp
      · rw [moved] at hp
        rcases List.mem_or_eq_of_mem_set hp with hp | rfl
        · exact hp
        · exact List.mem_of_getLast? hlast
      · exact hp

/-- Retiring a callback and noting a descriptor touch no poll entry. -/
theorem retireCb_pollEntries (s : Reactor κ) (cb : Option κ) :
    (s.retireCb cb).pollEntries = s.pollEntries := by
  rw [retireCb_eq]

theorem notePending_pollEntries (s : Reactor κ) (fd : Int) :
    (s.notePending fd).pollEntries = s.pollEntries := by
  unfold Reactor.notePending
  split
  · rfl
  · split <;> rfl

/-! ## What the calls arm -/

theorem addRead_armed (h : Consistent wake s) (events : BitVec 32) (cb : Option κ)
    (armed : (s.addRead fd events cb).1.Armed fd) : s.Armed fd := by
  cases hidx : (s.entryOf fd).readPollIndex with
  | none =>
    rw [addRead_fresh hidx] at armed
    refine armed.of_subset fun p hp key _ => ?_
    rcases List.mem_append.mp hp with hp | hp
    · exact ⟨p, hp, rfl, rfl⟩
    · rw [List.mem_singleton.mp hp] at key
      cases key
  | some i =>
    have hsome : (Reactor.named fd (s.entryOf fd)).readPollIndex = some i := hidx
    simp only [Reactor.addRead, hsome, if_neg (Option.some_ne_none i)] at armed
    obtain ⟨q, key, -, -, polled⟩ := setPollEntry_polled h (k := .read) hidx
      (s.putEntry fd _) rfl fd (events.setWidth 16)
    refine armed.of_set polled fun write => ?_
    rw [key] at write
    cases write

theorem remRead_armed (s : Reactor κ) (armed : (s.remRead fd).1.Armed fd) : s.Armed fd := by
  refine armed.of_subset fun p hp _ _ => ⟨p, ?_, rfl, rfl⟩
  unfold Reactor.remRead at hp
  split at hp
  · exact hp
  · rw [notePending_pollEntries] at hp
    split at hp
    · simp only [Reactor.modifyEntry, retireCb_pollEntries] at hp
      exact removePollEntryByIndex_subset s _ hp
    · exact hp

theorem remWrite_armed (s : Reactor κ) (armed : (s.remWrite fd).1.Armed fd) : s.Armed fd := by
  refine armed.of_subset fun p hp _ _ => ⟨p, ?_, rfl, rfl⟩
  unfold Reactor.remWrite at hp
  split at hp
  · exact hp
  · rw [notePending_pollEntries] at hp
    split at hp
    · simp only [Reactor.modifyEntry, retireCb_pollEntries] at hp
      exact removePollEntryByIndex_subset s _ hp
    · exact hp

/-- A successful `add_write` leaves its registration unarmed, also where it replaces one. -/
theorem addWrite_not_armed (h : Consistent wake s) {cb : Option κ} {dupFd : Int}
    (added : (s.addWrite fd cb dupFd).2 = true) : ¬(s.addWrite fd cb dupFd).1.Armed fd := by
  have kept := addWrite_kept h fd cb dupFd
  obtain ⟨ctxFd, hctx⟩ : ∃ ctxFd, (if (s.entryOf fd).writeCtx.fd = -1 then dupFd
      else (s.entryOf fd).writeCtx.fd) = ctxFd := ⟨_, rfl⟩
  have hctx' : (if (Reactor.named fd (s.entryOf fd)).writeCtx.fd = -1 then dupFd
      else (Reactor.named fd (s.entryOf fd)).writeCtx.fd) = ctxFd := hctx
  by_cases closed : ctxFd = -1
  · simp only [Reactor.addWrite, hctx', if_pos closed] at added
    cases added
  · cases hidx : (s.entryOf fd).writePollIndex with
    | none =>
      rw [addWrite_fresh hidx hctx closed] at kept ⊢
      have last : ∀ p, (s.pollEntries ++ [p])[s.pollEntries.length]? = some p := by simp
      exact kept.consistent.not_armed (Function.update_self ..) rfl (last _) rfl
    | some i =>
      have hsome : (Reactor.named fd (s.entryOf fd)).writePollIndex = some i := hidx
      simp only [Reactor.addWrite, hctx', if_neg closed, hsome,
        if_neg (Option.some_ne_none i)] at kept ⊢
      obtain ⟨q, -, quiet, placed, polled⟩ := setPollEntry_polled h (k := .write) hidx
        (s.putEntry fd _) rfl ctxFd 0
      refine kept.consistent.not_armed (p := q)
        ((congrFun (setPollEntry_fdEntries ..) _).trans (Function.update_self ..)) rfl ?_ quiet
      rw [polled, List.getElem?_set_self placed]

/-- One that fails arms nothing. -/
theorem addWrite_failed {cb : Option κ} {dupFd : Int} (failed : (s.addWrite fd cb dupFd).2 = false)
    (armed : (s.addWrite fd cb dupFd).1.Armed fd) : s.Armed fd := by
  refine armed.of_subset fun p hp _ _ => ⟨p, ?_, rfl, rfl⟩
  simp only [Reactor.addWrite] at failed hp
  generalize (if (Reactor.named fd (s.entryOf fd)).writeCtx.fd = -1 then dupFd
    else (Reactor.named fd (s.entryOf fd)).writeCtx.fd) = ctxFd at failed hp
  by_cases closed : ctxFd = -1
  · rw [if_pos closed] at hp
    exact hp
  · rw [if_neg closed] at failed
    split at failed
    · cases failed
    · cases failed

/-- A `req_write` that fails changes nothing. -/
theorem reqWrite_failed {events : BitVec 32} (failed : (s.reqWrite fd events).2 = false) :
    (s.reqWrite fd events).1 = s := by
  unfold Reactor.reqWrite at failed ⊢
  split at failed
  · rfl
  · split at failed
    · rename_i idle
      rw [if_pos idle]
    · cases failed

/-! ## What the other steps arm -/

theorem snapshot_armed (armed : s.snapshot.Armed fd) : s.Armed fd := by
  refine armed.of_subset fun p hp _ _ => ?_
  obtain ⟨q, hq, rfl⟩ := List.mem_map.mp hp
  exact ⟨q, hq, rfl, rfl⟩

theorem cleanup_pollEntries (s : Reactor κ) : s.cleanup.pollEntries = s.pollEntries := by
  apply cleanup_loop (P := fun t => t.pollEntries = s.pollEntries)
  · intro t fd same
    rw [← same]
    unfold Reactor.cleanupFd
    split
    · rfl
    · split <;> rfl
  · rfl

/-- A round that runs no write callback changes nothing. -/
theorem dispatchItem_same {item : PollEntry} {revents : BitVec 16}
    (unnotified : ¬(item.kind = .write ∧ (s.dispatchItem item revents).2.isSome)) :
    (s.dispatchItem item revents).1 = s := by
  unfold Reactor.dispatchItem at unnotified ⊢
  split
  · rfl
  · rename_i ready
    rw [if_neg ready] at unnotified
    cases kind : item.kind with
    | wake => rfl
    | read =>
      dsimp only
      split
      · rfl
      · split <;> rfl
    | write =>
      rw [kind] at unnotified
      dsimp only at unnotified ⊢
      split
      · rfl
      · rename_i e he
        rw [he] at unnotified
        dsimp only at unnotified
        split
        · rename_i runs
          rw [if_pos runs] at unnotified
          exact absurd ⟨rfl, runs.2.2⟩ unnotified
        · rfl

/-- A round that runs a write callback has taken the request back. -/
theorem dispatchItem_not_armed (h : Consistent wake s) {item : PollEntry} {revents : BitVec 16}
    (write : item.kind = .write) (notified : (s.dispatchItem item revents).2.isSome) :
    ¬(s.dispatchItem item revents).1.Armed item.ownerFd := by
  have kept := (dispatchItem_kept h item revents).consistent
  obtain ⟨cb, invoked⟩ := Option.isSome_iff_exists.mp notified
  obtain ⟨ready, there, e, he, -⟩ := (dispatchItem_invoked ..).mp invoked
  rw [PollEntry.key, registration_of_entry he, FdEntry.registered_eq_some, write] at there
  obtain ⟨i, hi⟩ := Option.isSome_iff_exists.mp
    (((h.entries _ e he).active_iff .write).symm.trans there.1)
  obtain ⟨q, -, quiet, placed, polled⟩ := setPollEvents_polled h he hi 0
  have runs : e.writeActive = true ∧ e.writeGen = item.gen ∧ e.writeCtx.cb.isSome := by
    refine ⟨there.1, there.2, ?_⟩
    by_contra empty
    unfold Reactor.dispatchItem at notified
    simp only [if_neg ready, write, he, empty, Bool.false_eq_true, and_false, if_false,
      Option.isSome_none] at notified
  have disarms : (s.dispatchItem item revents).1 = s.setPollEvents (some i) 0 := by
    have hidx : e.writePollIndex = some i := hi
    unfold Reactor.dispatchItem
    simp only [if_neg ready, write, he, if_pos runs, hidx]
  rw [disarms] at kept ⊢
  refine kept.not_armed ((congrFun (setPollEvents_fdEntries ..) _).trans he) hi ?_ quiet
  rw [polled, List.getElem?_set_self placed]

/-! ## Every step is a move -/

theorem credit_le_one (s : Reactor κ) (fd : Int) : s.credit fd ≤ 1 := by
  unfold Reactor.credit
  split <;> omega

theorem credit_of_not_armed (idle : ¬s.Armed fd) : s.credit fd = 0 := if_neg idle

theorem credit_of_armed (armed : s.Armed fd) : s.credit fd = 1 := if_pos armed

/-- What arms nothing adds no credit. -/
theorem credit_le (h : s'.Armed fd → s.Armed fd) : s'.credit fd ≤ s.credit fd := by
  by_cases armed : s'.Armed fd
  · exact Nat.le_of_eq ((credit_of_armed armed).trans (credit_of_armed (h armed)).symm)
  · rw [credit_of_not_armed armed]
    exact Nat.zero_le _

/-- **A call moves the account of its own descriptor, as its answer says.** -/
theorem moves_call (h : Consistent wake s) (op : Op κ) (tally : Tally Int) (fd : Int) :
    Move (tally.account fd (s.credit fd))
      ((op.count (s.call op).2 tally).account fd ((s.call op).1.credit fd)) := by
  have others : ∀ fd, fd ≠ op.fd → (s.call op).1.Armed fd → s.Armed fd :=
    fun fd other armed => (call_kept h op).frame.armed other armed
  -- a call that arms nothing of its own arms nothing
  have idle : ((s.call op).1.Armed op.fd → s.Armed op.fd) →
      Move (tally.account fd (s.credit fd)) (tally.account fd ((s.call op).1.credit fd)) := by
    intro own
    apply tally.moves_idle
    intro fd
    apply credit_le
    by_cases same : fd = op.fd
    · subst same
      exact own
    · exact others fd same
  cases op with
  | addRead x events cb => exact idle (addRead_armed h events cb)
  | remRead x => exact idle (remRead_armed s)
  | remWrite x => exact idle (remWrite_armed s)
  | addWrite x cb dupFd =>
    by_cases added : (s.call (.addWrite x cb dupFd)).2 = true
    · simp only [Op.count, if_pos added]
      refine tally.moves_subscribe x ?_ (fun fd other => credit_le (others fd other)) fd
      exact credit_of_not_armed (addWrite_not_armed h added)
    · simp only [Op.count, if_neg added]
      exact idle (addWrite_failed (eq_false_of_ne_true added))
  | reqWrite x events =>
    by_cases requested : (s.call (.reqWrite x events)).2 = true
    · simp only [Op.count, if_pos requested]
      refine tally.moves_request x ?_ (fun fd other => credit_le (others fd other)) fd
      have := credit_le_one (s.call (.reqWrite x events)).1 x
      omega
    · simp only [Op.count, if_neg requested]
      apply idle
      intro armed
      have same : (s.call (.reqWrite x events)).1 = s :=
        reqWrite_failed (eq_false_of_ne_true requested)
      rw [same] at armed
      exact armed

/-- A round that runs a write callback spends the credit of its registration. -/
theorem moves_dispatchItem (h : Consistent wake s) {item : PollEntry} {revents : BitVec 16}
    (asked : item.kind = .write → (s.dispatchItem item revents).2.isSome → s.Armed item.ownerFd)
    (tally : Tally Int) (fd : Int) :
    Move (tally.account fd (s.credit fd))
      ((if item.kind = .write ∧ (s.dispatchItem item revents).2.isSome then
        tally.invoke item.ownerFd else tally).account fd
          ((s.dispatchItem item revents).1.credit fd)) := by
  split
  · rename_i notified
    have frame := (dispatchItem_kept h item revents).frame
    refine tally.moves_invoke item.ownerFd ?_ (fun fd other => credit_le (frame.armed other)) fd
    have before := credit_of_armed (asked notified.1 notified.2)
    have after := credit_of_not_armed (dispatchItem_not_armed h notified.1 notified.2)
    omega
  · rename_i unnotified
    rw [dispatchItem_same unnotified]
    exact tally.moves_idle (fun fd => Nat.le_refl _) fd

namespace Counted

variable {c t : Counted κ}

/-- **Every step that meets the condition moves every account.** -/
theorem moves (h : Consistent wake c.reactor) {event : Event κ} (asked : c.Asked event)
    (step : c.step event = some t) (fd : Int) :
    Move (c.tally.account fd (c.reactor.credit fd)) (t.tally.account fd (t.reactor.credit fd)) := by
  cases event with
  | call op =>
    obtain rfl := Option.some.inj step
    exact moves_call h op c.tally fd
  | poll =>
    obtain rfl := Option.some.inj step
    exact c.tally.moves_idle (fun fd => credit_le snapshot_armed) fd
  | visit pos revents =>
    simp only [Counted.step] at step
    split at step
    · cases step
    · rename_i item visited
      obtain ⟨-, taken⟩ := Option.ite_none_right_eq_some.mp step
      obtain rfl := Option.some.inj taken
      apply moves_dispatchItem h
      intro write notified
      obtain ⟨cb, invoked⟩ := Option.isSome_iff_exists.mp notified
      obtain ⟨ready, holds⟩ := (dispatchItem_invoked ..).mp invoked
      exact asked item cb visited write ready holds
  | cleanup =>
    obtain rfl := Option.some.inj step
    refine c.tally.moves_idle (fun fd => credit_le fun armed => ?_) fd
    refine armed.of_subset fun p hp _ _ => ⟨p, ?_, rfl, rfl⟩
    rw [cleanup_pollEntries] at hp
    exact hp

/-- A step of the counted reactor is one of the reactor. -/
theorem step_reactor {event : Event κ} (step : c.step event = some t) :
    t.reactor = c.reactor.step event := by
  cases event with
  | call op => exact Option.some.inj step ▸ rfl
  | poll => exact Option.some.inj step ▸ rfl
  | cleanup => exact Option.some.inj step ▸ rfl
  | visit pos revents =>
    simp only [Counted.step] at step
    split at step
    · cases step
    · rename_i item visited
      obtain ⟨-, taken⟩ := Option.ite_none_right_eq_some.mp step
      obtain rfl := Option.some.inj taken
      simp only [Reactor.step, visited]

/-- **Write notifications of the poll reactor are one-shot** in every run in which a report reaches
only armed registrations. -/
theorem bounded (wakeFd : Int) (pollIn : BitVec 16) (events : List (Event κ))
    (asked : Lts.AllSteps step Asked (init wakeFd pollIn) events) :
    Lts.AllStates step (fun c => c.tally.Bounded) (init wakeFd pollIn) events := by
  refine never_ahead tally (fun c => c.reactor.credit)
    (I := fun c => Consistent (wakeEntry wakeFd pollIn) c.reactor) ?_ ?_ asked ?_ ?_
  · intro c event t h step
    rw [step_reactor step]
    exact step_consistent h event
  · intro c event t h asked step
    exact moves h asked step
  · exact init_consistent wakeFd pollIn
  · intro fd
    have idle : (init wakeFd pollIn : Counted κ).reactor.credit fd = 0 := by
      apply credit_of_not_armed
      rintro ⟨p, hp, key, -⟩
      rw [List.mem_singleton.mp hp] at key
      cases key
    rw [idle]
    exact Nat.le_refl 0

end Counted

end Bfc.PollReactor
