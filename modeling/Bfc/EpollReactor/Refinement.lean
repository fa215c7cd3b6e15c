import Bfc.EpollReactor.OneShot
import Bfc.Lib.Simulation
import Bfc.Registration.Service

/-!
# The epoll reactor gives the service

`Counted.service` is what the entries and the kernel's interest set are at the level of
`Bfc.Registration.Service`: the callbacks of the active registrations, and for a write whether its
watch is one-shot and not disabled. The kernel takes a request back when it reports the watch, so
here that is part of the wait and not of the dispatch.

`EPOLL_CTL_ADD` and `EPOLL_CTL_MOD` succeed, which the calls otherwise do not undo, and a descriptor
is then not added twice. So a context has a callback only while it is registered (`Held`), and an
event that reaches it runs the callback that is registered, if not always the one it was reported
for.
-/

namespace Bfc.EpollReactor

variable {κ : Type*} {s : Reactor κ} {fd : Int}

/-! ## What the entries show -/

/-- An entry at the level of the service. -/
def FdEntry.shown (e : FdEntry κ) (requested : Bool) : Registration.Entry κ where
  read := if e.readActive then some e.readCtx.cb else none
  write := if e.writeActive then some { cb := e.writeCtx.cb, requested := requested } else none

/-- An entry without a registration. -/
def FdEntry.idle (e : FdEntry κ) : Bool := !e.readActive && !e.writeActive

/-- A call at the level of the service, which does not see descriptors opened and closed. -/
def Reactor.request (s : Reactor κ) : Op κ → Option (Registration.Request κ × Bool)
  | .openFd _ | .closeFd _ => none
  | .addRead fd events cb added => some (.addRead fd cb, (s.addRead fd events cb added).2)
  | .remRead fd => some (.remRead fd, (s.remRead fd).2)
  | .addWrite fd cb dupFd added =>
    some (.addWrite fd cb ((s.entryOf fd).writeFd dupFd ≠ -1), (s.addWrite fd cb dupFd added).2)
  | .remWrite fd => some (.remWrite fd, (s.remWrite fd).2)
  | .reqWrite fd events modified => some (.reqWrite fd, (s.reqWrite fd events modified).2)

/-- The direction of a context. -/
def Side.direction : Side → Registration.Direction
  | .read => .read
  | .write => .write

/-- The request that the kernel takes back when it reports a watch. -/
def Watch.takes (w : Watch) : List (Registration.Action κ) :=
  if w.oneShot then w.ptr.writeOf.toList.map .take else []

namespace Counted

/-- The entries and the interest set at the level of the service. -/
def service (c : Counted κ) : Registration.Service κ where
  entries fd := (c.reactor.fdEntries fd).map fun e => e.shown (c.armed fd)
  pending := c.reactor.pendingCleanup

/-- What a step shows. -/
def view (c : Counted κ) : Action κ → List (Registration.Action κ)
  | .call op => ((c.reactor.request op).map fun call => .call call.1 call.2).toList
  | .wait reports =>
    reports.flatMap fun event =>
      ((c.reactor.kernel.interest event.1).map Watch.takes).getD []
  | .dispatch =>
    match c.batch with
    | { ptr := .ctx fd node side, .. } :: _ =>
      ((c.reactor.invokes (.ctx fd node side)).map fun cb =>
        .notify fd side.direction cb).toList
    | _ => []
  | .cleanup => [.endPass]

/-- The kernel adds and modifies what it is asked to, and `req_write` asks for one notification. -/
def Proper : Action κ → Prop
  | .call (.addRead _ _ _ added) => added = true
  | .call (.addWrite _ _ _ added) => added = true
  | .call (.reqWrite _ events modified) =>
    modified = true ∧ events &&& epollOneShot ≠ 0#32
  | _ => True

end Counted

/-- A context has a callback only while it is registered. -/
def Held (s : Reactor κ) : Prop :=
  ∀ fd e side, s.fdEntries fd = some e → (e.ctx side).cb.isSome = true → e.active side = true

/-! ## Entries -/

theorem FdEntry.shown_idle (e : FdEntry κ) (requested : Bool) :
    (e.shown requested).idle = e.idle := by
  unfold Registration.Entry.idle FdEntry.shown FdEntry.idle
  cases e.readActive <;> cases e.writeActive <;> rfl

theorem FdEntry.shown_setRequested (e : FdEntry κ) (was requested : Bool) :
    (e.shown was).setRequested requested = e.shown requested := by
  unfold Registration.Entry.setRequested FdEntry.shown
  cases e.writeActive <;> rfl

theorem notePending_pending (s : Reactor κ) (fd : Int) (e : FdEntry κ) :
    (s.notePending fd e).pendingCleanup =
      if e.idle then s.pendingCleanup ++ [fd] else s.pendingCleanup := by
  unfold Reactor.notePending FdEntry.idle
  split <;> rfl

/-- A write registration that a call neither makes nor removes stays, on its duplicate. -/
theorem Op.onEntry_keeps (op : Op κ) {adds : Nat} {e : FdEntry κ} (active : e.writeActive = true)
    (valid : e.writeCtx.fd ≠ -1) (unremoved : op ≠ .remWrite fd) :
    (op.onEntry fd adds e).writeActive = true ∧
      (op.onEntry fd adds e).writeCtx.fd = e.writeCtx.fd := by
  cases op with
  | openFd x => exact ⟨active, rfl⟩
  | closeFd x => exact ⟨active, rfl⟩
  | addRead x events cb added | remRead x | reqWrite x events modified =>
    simp only [Op.onEntry]
    split
    · exact ⟨active, rfl⟩
    · exact ⟨active, rfl⟩
  | addWrite x cb dupFd added =>
    simp only [Op.onEntry]
    split
    · split
      · exact ⟨active, rfl⟩
      · refine ⟨?_, if_neg valid⟩
        rw [active, Bool.or_true]
    · exact ⟨active, rfl⟩
  | remWrite x =>
    simp only [Op.onEntry]
    rw [if_neg]
    · exact ⟨active, rfl⟩
    · rintro ⟨rfl, -⟩
      exact unremoved rfl

namespace Counted

variable {c t : Counted κ}

/-- A write registration is asked for what it was after a call that neither makes nor requests nor
removes it. -/
theorem call_armed_eq (h : Agree c.reactor) {op : Op κ} (step : c.step (.call op) = some t)
    (unmade : ∀ cb dupFd, op = .addWrite fd cb dupFd true →
      (c.reactor.entryOf fd).writeFd dupFd = -1)
    (unrequested : ∀ events modified, op = .reqWrite fd events modified →
      c.reactor.rewatched op = none) (unremoved : op ≠ .remWrite fd) :
    t.armed fd = c.armed fd := by
  have after : t.armed fd = true → c.armed fd = true := call_armed h step unmade unrequested
  have before : c.armed fd = true → t.armed fd = true := by
    intro armed
    obtain ⟨allowed, reactor, -, -, disabled⟩ := step_call step
    obtain ⟨e, w, he, active, enabled, watched, oneShot⟩ := armed_iff.mp armed
    have other := h.rewatched_ne allowed he active unremoved unrequested
    have there := perform_some op he
    obtain ⟨active', same⟩ := op.onEntry_keeps active ((h.entries fd e he).write active).1 unremoved
    refine armed_iff.mpr ⟨_, w, reactor ▸ there, active', ?_, ?_, oneShot⟩
    · rw [same, disabled _ other]
      exact enabled
    · rw [same, reactor, perform_interest _ _ other]
      exact watched
  exact Bool.eq_iff_iff.mpr ⟨after, before⟩

theorem service_entryOf (c : Counted κ) (fd : Int) :
    c.service.entryOf fd = (c.reactor.entryOf fd).shown (c.armed fd) := by
  unfold Registration.Service.entryOf Reactor.entryOf service
  dsimp only
  cases c.reactor.fdEntries fd with
  | none => rfl
  | some e => rfl

theorem service_entry {e : FdEntry κ} (he : c.reactor.fdEntries fd = some e) :
    c.service.entries fd = some (e.shown (c.armed fd)) := congrArg (Option.map _) he

/-- What a step that stores one entry shows. -/
theorem service_stored {e : FdEntry κ} {shown : Registration.Entry κ}
    (entries : t.reactor.fdEntries = Function.update c.reactor.fdEntries fd (some e))
    (armed : ∀ fd', fd' ≠ fd → t.armed fd' = c.armed fd')
    (shows : e.shown (t.armed fd) = shown) :
    t.service.entries = Function.update c.service.entries fd (some shown) := by
  funext fd'
  unfold service
  dsimp only
  by_cases own : fd' = fd
  · subst own
    rw [Function.update_self, entries, Function.update_self, Option.map_some, shows]
  · rw [Function.update_of_ne own, entries, Function.update_of_ne own, armed fd' own]

/-- An entry that is stored and noted if it is idle. -/
theorem service_leave {e : FdEntry κ} {shown : Registration.Entry κ}
    (entries : t.reactor.fdEntries = Function.update c.reactor.fdEntries fd (some e))
    (armed : ∀ fd', fd' ≠ fd → t.armed fd' = c.armed fd')
    (shows : e.shown (t.armed fd) = shown) (pending : t.reactor.pendingCleanup =
      if e.idle then c.reactor.pendingCleanup ++ [fd] else c.reactor.pendingCleanup) :
    t.service = c.service.leave fd shown := by
  have stored := service_stored entries armed shows
  unfold Registration.Service.leave
  rw [← shows, FdEntry.shown_idle]
  split
  · rename_i idle
    rw [if_pos idle] at pending
    exact congrArg₂ Registration.Service.mk (shows ▸ stored) pending
  · rename_i busy
    rw [if_neg busy] at pending
    exact congrArg₂ Registration.Service.mk (shows ▸ stored) pending

/-- An entry that is stored. -/
theorem service_put {e : FdEntry κ} {shown : Registration.Entry κ}
    (entries : t.reactor.fdEntries = Function.update c.reactor.fdEntries fd (some e))
    (armed : ∀ fd', fd' ≠ fd → t.armed fd' = c.armed fd')
    (shows : e.shown (t.armed fd) = shown)
    (pending : t.reactor.pendingCleanup = c.reactor.pendingCleanup) :
    t.service = c.service.put fd shown :=
  congrArg₂ Registration.Service.mk (service_stored entries armed shows) pending

/-! ## Calls -/

theorem addRead_service (h : Agree c.reactor) {events : BitVec 32} {cb : Option κ}
    (step : c.step (.call (.addRead fd events cb true)) = some t) :
    t.service = (c.service.request (.addRead fd cb)).1 := by
  have armed : ∀ fd', t.armed fd' = c.armed fd' := by
    intro fd'
    exact call_armed_eq h step (by simp) (by simp) (by simp)
  obtain ⟨-, reactor, -⟩ := step_call step
  refine service_put (e := { (c.reactor.entryOf fd).named fd with
      readCtx := { (c.reactor.entryOf fd).readCtx with
        fd := fd, events := events, cb := cb, storedBy := c.reactor.adds + 1
        armedBy := c.reactor.adds + 1 }
      readActive := true }) ?_ (fun fd' _ => armed fd') ?_ ?_
  · rw [reactor]
    rfl
  · rw [armed, service_entryOf]
    rfl
  · rw [reactor]
    rfl

/-- A removal of a registration that is there. -/
theorem removal_service {e : FdEntry κ} {u : Reactor κ} (reactor : t.reactor = u.notePending fd e)
    (entries : u.fdEntries = Function.update c.reactor.fdEntries fd (some e))
    (pending : u.pendingCleanup = c.reactor.pendingCleanup)
    (armed : ∀ fd', fd' ≠ fd → t.armed fd' = c.armed fd') {shown : Registration.Entry κ}
    (shows : e.shown (t.armed fd) = shown) : t.service = c.service.leave fd shown := by
  refine service_leave ?_ armed shows ?_
  · rw [reactor, (notePending_same u fd e).1, entries]
  · rw [reactor, notePending_pending, pending]

/-- The entry of a descriptor is stored as it is. -/
theorem stored_self {e : FdEntry κ} (he : s.fdEntries fd = some e) :
    s.fdEntries = Function.update s.fdEntries fd (some e) := by
  rw [← he, Function.update_eq_self]

/-- What a step that stores no entry shows. -/
theorem service_same (entries : t.reactor.fdEntries = c.reactor.fdEntries)
    (pending : t.reactor.pendingCleanup = c.reactor.pendingCleanup)
    (armed : ∀ fd, t.armed fd = c.armed fd) : t.service = c.service := by
  unfold service
  rw [entries, pending]
  congr 1
  funext fd
  rw [armed]

theorem remRead_service (h : Agree c.reactor) (step : c.step (.call (.remRead fd)) = some t) :
    t.service = (c.service.request (.remRead fd)).1 ∧
      (c.reactor.remRead fd).2 = (c.service.request (.remRead fd)).2 := by
  have armed : ∀ fd', t.armed fd' = c.armed fd' := by
    intro fd'
    exact call_armed_eq h step (by simp) (by simp) (by simp)
  obtain ⟨-, reactor, -⟩ := step_call step
  cases he : c.reactor.fdEntries fd with
  | none =>
    have unknown : c.service.entries fd = none := congrArg (Option.map _) he
    simp only [Reactor.perform, Reactor.remRead, he] at reactor
    simp only [Reactor.remRead, he, Registration.Service.request, unknown, and_true]
    exact service_same (by rw [reactor]) (by rw [reactor]) armed
  | some e =>
    simp only [Reactor.perform, Reactor.remRead, he] at reactor
    simp only [Reactor.remRead, he, Registration.Service.request, service_entry he]
    have ok := h.entries fd e he
    by_cases active : e.readActive = true
    · obtain ⟨own, caller, -⟩ := ok.read active
      have valid : e.readCtx.fd ≠ -1 := by
        rw [own]
        rintro rfl
        rw [h.invalid] at caller
        cases caller
      rw [if_pos ⟨active, valid⟩] at reactor ⊢
      refine ⟨removal_service reactor rfl rfl (fun fd' _ => armed fd') ?_, rfl⟩
      rw [armed]
      rfl
    · rw [if_neg fun both => active both.1] at reactor ⊢
      refine ⟨removal_service reactor (stored_self he) rfl (fun fd' _ => armed fd') ?_, rfl⟩
      rw [armed]
      simp only [FdEntry.shown, if_neg active]

theorem remWrite_service (h : Agree c.reactor) (step : c.step (.call (.remWrite fd)) = some t) :
    t.service = (c.service.request (.remWrite fd)).1 ∧
      (c.reactor.remWrite fd).2 = (c.service.request (.remWrite fd)).2 := by
  have armed : ∀ fd', fd' ≠ fd → t.armed fd' = c.armed fd' := by
    intro fd' other
    exact call_armed_eq h step (by simp) (by simp) fun same =>
      other (Op.remWrite.inj same).symm
  obtain ⟨-, reactor, -⟩ := step_call step
  cases he : c.reactor.fdEntries fd with
  | none =>
    have unknown : c.service.entries fd = none := congrArg (Option.map _) he
    simp only [Reactor.perform, Reactor.remWrite, he] at reactor
    simp only [Reactor.remWrite, he, Registration.Service.request, unknown, and_true]
    refine service_same (by rw [reactor]) (by rw [reactor]) fun fd' => ?_
    by_cases own : fd' = fd
    · subst own
      simp only [Counted.armed, reactor, he]
    · exact armed fd' own
  | some e =>
    simp only [Reactor.perform, Reactor.remWrite, he] at reactor
    simp only [Reactor.remWrite, he, Registration.Service.request, service_entry he]
    by_cases active : e.writeActive = true
    · rw [if_pos ⟨active, ((h.entries fd e he).write active).1⟩] at reactor ⊢
      exact ⟨removal_service reactor rfl rfl armed rfl, rfl⟩
    · rw [if_neg fun both => active both.1] at reactor ⊢
      refine ⟨removal_service reactor (stored_self he) rfl armed ?_, rfl⟩
      simp only [FdEntry.shown, if_neg active]

theorem dupped_pending (s : Reactor κ) (fd dupFd : Int) :
    (s.dupped fd dupFd).pendingCleanup = s.pendingCleanup := by
  unfold Reactor.dupped
  split <;> rfl

theorem addWrite_service (h : Agree c.reactor) {cb : Option κ} {dupFd : Int}
    (step : c.step (.call (.addWrite fd cb dupFd true)) = some t) :
    t.service = (c.service.request
        (.addWrite fd cb ((c.reactor.entryOf fd).writeFd dupFd ≠ -1))).1 ∧
      (c.reactor.addWrite fd cb dupFd true).2 = (c.service.request
        (.addWrite fd cb ((c.reactor.entryOf fd).writeFd dupFd ≠ -1))).2 := by
  obtain ⟨-, reactor, -⟩ := step_call step
  have others : ∀ fd', fd' ≠ fd → t.armed fd' = c.armed fd' := by
    intro fd' other
    refine call_armed_eq h step (fun cb dupFd same => ?_) (by simp) (by simp)
    exact absurd (Op.addWrite.inj same).1.symm other
  by_cases closed : (c.reactor.entryOf fd).writeFd dupFd = -1
  · -- `dup` failed: only the entry is made
    have armed : t.armed fd = c.armed fd := by
      refine call_armed_eq h step (fun cb' dupFd' same => ?_) (by simp) (by simp)
      obtain ⟨-, -, rfl, -⟩ := Op.addWrite.inj same
      exact closed
    have missed : (((({ c.reactor with adds := c.reactor.adds + 1 } : Reactor κ).entryOf fd).named
        fd).writeFd dupFd) = -1 := closed
    simp only [Reactor.perform, Reactor.addWrite, if_pos missed] at reactor
    simp only [Reactor.addWrite, if_pos missed, Registration.Service.request, closed, ne_eq,
      not_true_eq_false, decide_false, Bool.false_eq_true, if_false, and_true]
    refine service_put (e := (c.reactor.entryOf fd).named fd) ?_ others ?_ ?_
    · rw [reactor]
      rfl
    · rw [armed, service_entryOf]
      rfl
    · rw [reactor]
      rfl
  · have made : (c.reactor.addWrite fd cb dupFd true).2 = true := by
      by_contra failed
      exact closed (addWrite_failed (eq_false_of_ne_true failed))
    have unarmed := addWrite_unarmed step made
    have opened : ¬(((({ c.reactor with adds := c.reactor.adds + 1 } : Reactor κ).entryOf fd).named
        fd).writeFd dupFd) = -1 := closed
    obtain ⟨dupped, -, -⟩ :=
      Agree.dupped_same { c.reactor with adds := c.reactor.adds + 1 } fd dupFd
    have noted := dupped_pending { c.reactor with adds := c.reactor.adds + 1 } fd dupFd
    simp only [Reactor.perform, Reactor.addWrite, if_neg opened, if_true] at reactor
    simp only [Registration.Service.request, closed, ne_eq, not_false_eq_true, decide_true,
      if_true, made, and_true]
    refine service_put (e := { (c.reactor.entryOf fd).named fd with
        writeCtx := { (c.reactor.entryOf fd).writeCtx with
          fd := (c.reactor.entryOf fd).writeFd dupFd, events := 0, cb := cb
          storedBy := (({ c.reactor with adds := c.reactor.adds + 1 } : Reactor κ).dupped fd
            dupFd).adds
          armedBy := (({ c.reactor with adds := c.reactor.adds + 1 } : Reactor κ).dupped fd
            dupFd).adds }
        writeActive := true }) ?_ others ?_ ?_
    · rw [reactor]
      exact congrArg (Function.update · fd _) dupped
    · rw [unarmed, service_entryOf]
      rfl
    · rw [reactor]
      exact noted

/-- The watches that are disabled after a call. -/
theorem step_disabled {op : Op κ} (step : c.step (.call op) = some t) :
    t.disabled = enable c.disabled (c.reactor.rewatched op) := by
  obtain ⟨s, -, rfl⟩ := Option.map_eq_some_iff.mp step
  rfl

/-- A `req_write` that finds a registration asks for a notification. -/
theorem reqWrite_armed (h : Agree c.reactor) {events : BitVec 32}
    (asks : events &&& epollOneShot ≠ 0#32) {e : FdEntry κ} (he : c.reactor.fdEntries fd = some e)
    (active : e.writeActive = true)
    (step : c.step (.call (.reqWrite fd events true)) = some t) : t.armed fd = true := by
  obtain ⟨valid, old, watched⟩ := (h.entries fd e he).write active
  have found : ¬((!e.writeActive) = true ∨ e.writeCtx.fd = -1) := by
    rw [active]
    rintro (idle | closed)
    · cases idle
    · exact valid closed
  have rewatched : c.reactor.rewatched (.reqWrite fd events true) = some e.writeCtx.fd := by
    simp only [Reactor.rewatched, he, active, ne_eq, valid, not_false_eq_true, and_self, if_true]
  obtain ⟨-, reactor, -⟩ := step_call step
  simp only [Reactor.perform, Reactor.reqWrite, he, if_neg found, if_true] at reactor
  refine armed_iff.mpr ⟨{ e with writeCtx := { e.writeCtx with events := events } },
    { events := events, ptr := .ctx fd e.node .write }, ?_, active, ?_, ?_, ?_⟩
  · rw [reactor]
    exact Function.update_self ..
  · rw [step_disabled step, rewatched]
    exact Function.update_self ..
  · rw [reactor]
    exact (Function.update_self ..).trans (congrArg (Option.map _) watched)
  · exact bne_iff_ne.mpr asks

theorem reqWrite_service (h : Agree c.reactor) {events : BitVec 32}
    (asks : events &&& epollOneShot ≠ 0#32)
    (step : c.step (.call (.reqWrite fd events true)) = some t) :
    t.service = (c.service.request (.reqWrite fd)).1 ∧
      (c.reactor.reqWrite fd events true).2 = (c.service.request (.reqWrite fd)).2 := by
  obtain ⟨-, reactor, -⟩ := step_call step
  have others : ∀ fd', fd' ≠ fd → t.armed fd' = c.armed fd' := by
    intro fd' other
    refine call_armed_eq h step (by simp) (fun events modified same => ?_) (by simp)
    exact absurd (Op.reqWrite.inj same).1.symm other
  -- a call that fails has changed nothing
  have missed : (c.reactor.reqWrite fd events true).2 = false →
      (c.reactor.reqWrite fd events true).1 = c.reactor → t.service = c.service := by
    intro failed same
    have unwatched := reqWrite_failed failed
    have back : t.reactor = c.reactor := reactor.trans same
    refine service_same (by rw [back]) (by rw [back]) fun fd' => ?_
    refine call_armed_eq h step (by simp) (fun events' modified' same => ?_) (by simp)
    obtain ⟨rfl, rfl, rfl⟩ := Op.reqWrite.inj same
    exact unwatched
  cases he : c.reactor.fdEntries fd with
  | none =>
    have unknown : c.service.entries fd = none := congrArg (Option.map _) he
    simp only [Reactor.reqWrite, he, forall_const] at missed
    simp only [Reactor.reqWrite, he, Registration.Service.request, unknown, and_true]
    exact missed
  | some e =>
    by_cases active : e.writeActive = true
    · have armed := reqWrite_armed h asks he active step
      have valid := ((h.entries fd e he).write active).1
      have found : ¬((!e.writeActive) = true ∨ e.writeCtx.fd = -1) := by
        rw [active]
        rintro (idle | closed)
        · cases idle
        · exact valid closed
      have registered : (e.shown (c.armed fd)).write.isSome = true := by
        simp only [FdEntry.shown, if_pos active, Option.isSome_some]
      simp only [Reactor.perform, Reactor.reqWrite, he, if_neg found, if_true] at reactor
      simp only [Reactor.reqWrite, he, if_neg found, Registration.Service.request,
        service_entry he, registered, if_true, and_true]
      refine service_put (e := { e with writeCtx := { e.writeCtx with events := events } }) ?_
        others ?_ ?_
      · rw [reactor]
        rfl
      · rw [armed, FdEntry.shown_setRequested]
        rfl
      · rw [reactor]
        rfl
    · have idle : (!e.writeActive) = true ∨ e.writeCtx.fd = -1 := by
        left
        rw [eq_false_of_ne_true active]
        rfl
      have unregistered : (e.shown (c.armed fd)).write.isSome = false := by
        simp only [FdEntry.shown, if_neg active, Option.isSome_none]
      simp only [Reactor.reqWrite, he, if_pos idle, forall_const] at missed
      simp only [Reactor.reqWrite, he, if_pos idle, Registration.Service.request,
        service_entry he, unregistered, Bool.false_eq_true, if_false, and_true]
      exact missed

/-- A descriptor of the caller's that is opened or closed shows nothing. -/
theorem foreign_service (h : Agree c.reactor) {op : Op κ} (unseen : c.reactor.request op = none)
    (step : c.step (.call op) = some t) : t.service = c.service := by
  obtain ⟨-, reactor, -⟩ := step_call step
  have armed : ∀ fd, t.armed fd = c.armed fd := by
    intro fd
    refine call_armed_eq h step ?_ ?_ ?_
    · rintro cb dupFd rfl
      cases unseen
    · rintro events modified rfl
      cases unseen
    · rintro rfl
      cases unseen
  cases op with
  | openFd x => exact service_same (by rw [reactor]; rfl) (by rw [reactor]; rfl) armed
  | closeFd x => exact service_same (by rw [reactor]; rfl) (by rw [reactor]; rfl) armed
  | addRead x events cb added => cases unseen
  | remRead x => cases unseen
  | addWrite x cb dupFd added => cases unseen
  | remWrite x => cases unseen
  | reqWrite x events modified => cases unseen

open Lts in
/-- **A call is one of the service's.** -/
theorem service_call (h : Agree c.reactor) {op : Op κ} (proper : Proper (.call op))
    (step : c.step (.call op) = some t) :
    Run Registration.Service.Step c.service (c.view (.call op)) t.service := by
  -- a call with the service's answer is a step
  have seen : ∀ {r : Registration.Request κ} {answer : Bool},
      t.service = (c.service.request r).1 ∧ answer = (c.service.request r).2 →
      Run Registration.Service.Step c.service [.call r answer] t.service := by
    rintro r answer ⟨same, rfl⟩
    rw [same]
    exact Run.single (.call r)
  cases op with
  | openFd x =>
    rw [foreign_service h rfl step]
    exact Run.nil
  | closeFd x =>
    rw [foreign_service h rfl step]
    exact Run.nil
  | addRead fd events cb added =>
    obtain rfl : added = true := proper
    exact seen ⟨addRead_service h step, rfl⟩
  | remRead fd => exact seen (remRead_service h step)
  | addWrite fd cb dupFd added =>
    obtain rfl : added = true := proper
    exact seen (addWrite_service h step)
  | remWrite fd => exact seen (remWrite_service h step)
  | reqWrite fd events modified =>
    obtain ⟨rfl, asks⟩ : modified = true ∧ events &&& epollOneShot ≠ 0#32 := proper
    exact seen (reqWrite_service h asks step)

/-! ## Waits -/

/-- A report of a one-shot watch disarms its write registration. -/
theorem report_taken (h : Agree c.reactor) {event : Int × BitVec 32} {w : Watch}
    (reported : c.report event = some t) (watched : c.reactor.kernel.interest event.1 = some w)
    (own : w.ptr.writeOf = some fd) (oneShot : w.oneShot = true) : t.armed fd = false := by
  simp only [report, watched] at reported
  obtain ⟨-, taken⟩ := Option.ite_none_right_eq_some.mp reported
  obtain rfl := Option.some.inj taken
  obtain ⟨e, he, -, watches⟩ := h.write_watched watched own
  rw [Bool.eq_false_iff]
  intro armed
  obtain ⟨e', -, he', -, enabled, -⟩ := armed_iff.mp armed
  obtain rfl := Option.some.inj (he.symm.trans he')
  simp only [if_pos oneShot, watches, Function.update_self, Bool.true_eq_false] at enabled

/-- Another report leaves a write registration armed or not. -/
theorem report_other (h : Agree c.reactor) {event : Int × BitVec 32} {w : Watch}
    (reported : c.report event = some t) (watched : c.reactor.kernel.interest event.1 = some w)
    (other : ¬(w.ptr.writeOf = some fd ∧ w.oneShot = true)) : t.armed fd = c.armed fd := by
  simp only [report, watched] at reported
  obtain ⟨-, taken⟩ := Option.ite_none_right_eq_some.mp reported
  obtain rfl := Option.some.inj taken
  unfold armed
  dsimp only
  cases he : c.reactor.fdEntries fd with
  | none => rfl
  | some e =>
    dsimp only
    by_cases active : e.writeActive = true
    · by_cases oneShot : w.oneShot = true
      · -- its watch has another pointer
        have apart : e.writeCtx.fd ≠ event.1 := by
          intro same
          obtain ⟨-, events, points⟩ := (h.entries fd e he).write active
          rw [same, watched] at points
          refine other ⟨?_, oneShot⟩
          rw [Option.some.inj points]
          rfl
        rw [if_pos oneShot, Function.update_of_ne apart]
      · rw [if_neg oneShot]
    · rw [eq_false_of_ne_true active]
      rfl

open Lts in
/-- A report takes the request of its watch back. -/
theorem report_service (h : Agree c.reactor) {event : Int × BitVec 32}
    (reported : c.report event = some t) : Run Registration.Service.Step c.service
      (((c.reactor.kernel.interest event.1).map Watch.takes).getD []) t.service := by
  obtain ⟨reactor, -⟩ := report_same reported
  cases watched : c.reactor.kernel.interest event.1 with
  | none =>
    simp only [report, watched] at reported
    cases reported
  | some w =>
    rw [Option.map_some, Option.getD_some]
    have other : ∀ fd, ¬(w.ptr.writeOf = some fd ∧ w.oneShot = true) → t.armed fd = c.armed fd :=
      fun fd => report_other h reported watched
    have kept : (∀ fd, ¬(w.ptr.writeOf = some fd ∧ w.oneShot = true)) → t.service = c.service := by
      intro unasked
      exact service_same (by rw [reactor]) (by rw [reactor]) fun fd => other fd (unasked fd)
    unfold Watch.takes
    split
    · rename_i oneShot
      cases own : w.ptr.writeOf with
      | none =>
        rw [kept fun fd both => by rw [own] at both; cases both.1]
        exact Run.nil
      | some fd =>
        obtain ⟨e, he, -⟩ := h.write_watched watched own
        have unarmed := report_taken h reported watched own oneShot
        have same : t.service = c.service.take fd := by
          unfold Registration.Service.take
          rw [service_entry he, Option.map_some, FdEntry.shown_setRequested]
          refine service_put (by rw [reactor]; exact stored_self he) ?_ (by rw [unarmed])
            (by rw [reactor])
          intro fd' ne
          refine other fd' fun both => ne ?_
          exact Option.some.inj (both.1.symm.trans own)
        rw [same]
        exact Run.single (.take fd)
    · rename_i lasting
      rw [kept fun fd both => lasting both.2]
      exact Run.nil

open Lts in
/-- A wait takes back the requests it reports. -/
theorem wait_service (h : Agree c.reactor) {reports : List (Int × BitVec 32)}
    (waited : reports.foldlM report c = some t) :
    Run Registration.Service.Step c.service (c.view (.wait reports)) t.service := by
  induction reports generalizing c with
  | nil =>
    obtain rfl := Option.some.inj waited
    exact Run.nil
  | cons event rest ih =>
    rw [List.foldlM_cons] at waited
    obtain ⟨u, reported, waited⟩ := Option.bind_eq_some_iff.mp waited
    obtain ⟨reactor, -⟩ := report_same reported
    have later := ih (reactor ▸ h) waited
    unfold view at later ⊢
    dsimp only at later ⊢
    rw [reactor] at later
    rw [List.flatMap_cons]
    exact (report_service h reported).trans later

/-! ## Dispatch -/

/-- A callback that an event invokes is that of a registration that is there. -/
theorem invokes_registered (held : Held c.reactor) {node : Nat} {side : Side} {cb : κ}
    (invoked : c.reactor.invokes (.ctx fd node side) = some cb) :
    ∃ e, c.service.entries fd = some e ∧ e.registered side.direction = some (some cb) := by
  obtain ⟨ctx, points, callback⟩ := Option.bind_eq_some_iff.mp invoked
  simp only [Reactor.deref] at points
  split at points
  · rename_i e he
    obtain ⟨-, there⟩ := Option.ite_none_right_eq_some.mp points
    obtain rfl := Option.some.inj there
    have active := held fd e side he (by rw [callback]; rfl)
    refine ⟨_, service_entry he, ?_⟩
    cases side with
    | read =>
      have registered : e.readActive = true := active
      simp only [Registration.Entry.registered, FdEntry.shown, if_pos registered]
      exact congrArg some callback
    | write =>
      have registered : e.writeActive = true := active
      simp only [Registration.Entry.registered, FdEntry.shown, if_pos registered]
      exact congrArg some callback
  · cases points

open Lts in
/-- The dispatch of an event notifies whom it points to. -/
theorem dispatch_service (held : Held c.reactor) (step : c.step .dispatch = some t) :
    Run Registration.Service.Step c.service (c.view .dispatch) t.service := by
  simp only [Counted.step] at step
  split at step
  · cases step
  · rename_i r rest head
    obtain rfl := Option.some.inj step
    unfold view
    rw [head]
    obtain ⟨ptr, oneShot, registration⟩ := r
    cases ptr with
    | eventFdCtx => exact Run.nil
    | ctx fd node side =>
      dsimp only
      cases invoked : c.reactor.invokes (.ctx fd node side) with
      | none => exact Run.nil
      | some cb =>
        obtain ⟨e, there, registered⟩ := invokes_registered held invoked
        exact Run.single (.notify there registered)

/-! ## The clean-up -/

/-- A round of the clean-up takes its own entry, if that is idle. -/
theorem cleanupFd_entry (s : Reactor κ) (x fd : Int) :
    (s.cleanupFd x).fdEntries fd = (s.fdEntries fd).filter fun e => !(fd = x && e.idle) := by
  refine Registration.Service.sweep_one ?_ fd
  unfold Reactor.cleanupFd
  cases s.fdEntries x with
  | none => rfl
  | some e =>
    unfold FdEntry.idle
    rw [Option.any_some]
    dsimp only
    split
    · split <;> rfl
    · rfl

/-- The clean-up disarms nothing either: a write registration that stays is watched as before. -/
theorem cleanup_armed (h : Agree c.reactor) (fd : Int) :
    ({ c with reactor := c.reactor.cleanup } : Counted κ).armed fd = c.armed fd := by
  refine Bool.eq_iff_iff.mpr ⟨fun armed => ?_, fun armed => ?_⟩
  · obtain ⟨e, w, he, active, enabled, watched, oneShot⟩ := armed_iff.mp armed
    exact armed_iff.mpr ⟨e, w, cleanup_entry _ he, active, enabled, cleanup_interest _ watched,
      oneShot⟩
  · obtain ⟨e, w, he, active, enabled, watched, oneShot⟩ := armed_iff.mp armed
    rcases cleanup_entries c.reactor he with there | ⟨-, -, idle⟩
    · obtain ⟨-, events, still⟩ := (h.cleanup.entries fd e there).write active
      obtain rfl := Option.some.inj (watched.symm.trans (cleanup_interest _ still))
      exact armed_iff.mpr ⟨e, _, there, active, enabled, still, oneShot⟩
    · rw [idle] at active
      cases active

/-- The clean-up is the end of the pass. -/
theorem cleanup_service (h : Agree c.reactor) :
    ({ c with reactor := c.reactor.cleanup } : Counted κ).service = c.service.endPass := by
  have entries : ({ c with reactor := c.reactor.cleanup } : Counted κ).service.entries =
      c.service.endPass.entries := by
    funext fd
    have cleaned : c.reactor.cleanup.fdEntries fd = _ :=
      Registration.Service.foldl_sweep cleanupFd_entry c.reactor.pendingCleanup c.reactor fd
    unfold service Registration.Service.endPass
    dsimp only
    rw [cleaned, cleanup_armed h]
    cases c.reactor.fdEntries fd with
    | none => rfl
    | some e =>
      rw [Option.filter_some, Option.map_some, Option.filter_some, FdEntry.shown_idle]
      exact apply_ite ..
  exact congrArg₂ Registration.Service.mk entries rfl

/-! ## Runs -/

/-- A request is a one-shot watch that is not disabled. -/
theorem requested_service (c : Counted κ) (fd : Int) : c.service.requested fd = c.armed fd := by
  unfold Registration.Service.requested service
  dsimp only
  cases he : c.reactor.fdEntries fd with
  | none =>
    unfold armed
    rw [he]
    rfl
  | some e =>
    rw [Option.map_some, Option.any_some, Registration.Entry.requested, FdEntry.shown]
    by_cases active : e.writeActive = true
    · rw [if_pos active, Option.any_some]
    · rw [if_neg active, Option.any_none]
      unfold armed
      rw [he]
      dsimp only
      rw [eq_false_of_ne_true active, Bool.false_and, Bool.false_and]

/-- A call of these keeps the callbacks with the registrations. -/
theorem onEntry_held {op : Op κ} (proper : Proper (.call op)) {adds : Nat} {e : FdEntry κ}
    (held : ∀ side, (e.ctx side).cb.isSome = true → e.active side = true) (side : Side)
    (callback : ((op.onEntry fd adds e).ctx side).cb.isSome = true) :
    (op.onEntry fd adds e).active side = true := by
  have same : ∀ {u : FdEntry κ}, (u.ctx side).cb = (e.ctx side).cb →
      u.active side = e.active side → (u.ctx side).cb.isSome = true → u.active side = true := by
    intro u ctx active holds
    rw [active]
    exact held side (ctx ▸ holds)
  cases op with
  | openFd x => exact held side callback
  | closeFd x => exact held side callback
  | addRead x events cb added =>
    obtain rfl : added = true := proper
    simp only [Op.onEntry] at callback ⊢
    split at callback
    · rename_i own
      rw [if_pos own]
      cases side with
      | read => rfl
      | write => exact same (u := e.named fd) rfl rfl callback
    · rename_i other
      rw [if_neg other]
      exact held side callback
  | remRead x =>
    simp only [Op.onEntry] at callback ⊢
    split at callback
    · rename_i own
      rw [if_pos own]
      cases side with
      | read => cases callback
      | write => exact held .write callback
    · rename_i other
      rw [if_neg other]
      exact held side callback
  | addWrite x cb dupFd added =>
    obtain rfl : added = true := proper
    simp only [Op.onEntry] at callback ⊢
    split at callback
    · rename_i own
      rw [if_pos own]
      split at callback
      · rename_i closed
        rw [if_pos closed]
        exact same (u := e.named fd) (by cases side <;> rfl) (by cases side <;> rfl) callback
      · rename_i opened
        rw [if_neg opened]
        cases side with
        | read => exact same (u := e.named fd) rfl rfl callback
        | write => rfl
    · rename_i other
      rw [if_neg other]
      exact held side callback
  | remWrite x =>
    simp only [Op.onEntry] at callback ⊢
    split at callback
    · rename_i own
      rw [if_pos own]
      cases side with
      | read => exact held .read callback
      | write => cases callback
    · rename_i other
      rw [if_neg other]
      exact held side callback
  | reqWrite x events modified =>
    simp only [Op.onEntry] at callback ⊢
    split at callback
    · rename_i own
      rw [if_pos own]
      cases side with
      | read => exact held .read callback
      | write => exact held .write callback
    · rename_i other
      rw [if_neg other]
      exact held side callback

/-- What a step keeps. -/
theorem step_held (held : Held c.reactor) {action : Action κ} (proper : Proper action)
    (step : c.step action = some t) : Held t.reactor := by
  cases action with
  | call op =>
    obtain ⟨-, reactor, -⟩ := step_call step
    have entryOf : ∀ fd side, (((c.reactor.entryOf fd).ctx side).cb.isSome = true) →
        (c.reactor.entryOf fd).active side = true := by
      intro fd side callback
      cases he : c.reactor.fdEntries fd with
      | none =>
        rw [Reactor.entryOf, he] at callback
        cases side <;> cases callback
      | some e =>
        rw [Agree.entryOf_eq he] at callback ⊢
        exact held fd e side he callback
    intro fd e side he callback
    rw [reactor] at he
    rcases perform_entry c.reactor op fd with there | ⟨same, -⟩
    · obtain rfl := Option.some.inj (there.symm.trans he)
      exact onEntry_held proper (entryOf fd) side callback
    · rw [same] at he
      exact held fd e side he callback
  | wait reports =>
    obtain ⟨-, waited⟩ := Option.ite_none_right_eq_some.mp step
    obtain ⟨reactor, -⟩ := wait_same waited
    exact reactor ▸ held
  | dispatch =>
    simp only [Counted.step] at step
    split at step
    · cases step
    · obtain rfl := Option.some.inj step
      exact held
  | cleanup =>
    obtain ⟨-, cleaned⟩ := Option.ite_none_right_eq_some.mp step
    obtain rfl := Option.some.inj cleaned
    intro fd e side he callback
    exact held fd e side (cleanup_entry _ he) callback

open Lts in
/-- **What a step shows is a run of the service.** -/
theorem step_service (h : Agree c.reactor) (held : Held c.reactor) {action : Action κ}
    (proper : Proper action) (step : c.step action = some t) :
    Run Registration.Service.Step c.service (c.view action) t.service := by
  cases action with
  | call op => exact service_call h proper step
  | wait reports =>
    obtain ⟨-, waited⟩ := Option.ite_none_right_eq_some.mp step
    exact wait_service h waited
  | dispatch => exact dispatch_service held step
  | cleanup =>
    obtain ⟨-, cleaned⟩ := Option.ite_none_right_eq_some.mp step
    obtain rfl := Option.some.inj cleaned
    rw [cleanup_service h]
    exact Run.single .endPass

open Lts in
/-- **What a run shows is a run of the service.** -/
theorem run_service (eventFd : Nat) (pollIn : BitVec 32) {actions : List (Action κ)}
    (proper : ∀ action ∈ actions, Proper action)
    (run : actions.foldlM Counted.step (init eventFd pollIn) = some c) :
    Run Registration.Service.Step {}
      (shows Counted.step Counted.view (init eventFd pollIn) actions) c.service := by
  refine (simulation Counted.service
    (I := fun c => (Agree c.reactor ∧ c.Known) ∧ Held c.reactor) ?_ ?_
    ((allSteps_iff_forall_mem run).mpr proper) run).2
  · rintro c action t ⟨kept, held⟩ proper step
    exact ⟨⟨step_keeps kept step, step_held held proper step⟩,
      step_service kept.1 held proper step⟩
  · refine ⟨⟨.init eventFd pollIn, fun r hr => by cases hr⟩, ?_⟩
    intro fd e side he
    cases he

end Counted

end Bfc.EpollReactor
