import Bfc.Lib.Simulation
import Bfc.PollReactor.OneShot
import Bfc.Registration.Service

/-!
# The poll reactor gives the service

`Reactor.service` is what the tables are at the level of `Bfc.Registration.Service`: the callbacks
of the active registrations, and for a write whether its poll entry requests events. `service_call`
says that each call is the service's own, answer included, although a removal moves poll entries
about; a round of the dispatch that runs a callback is a notification, and the clean-up the end of
the pass.
-/

namespace Bfc.PollReactor

open IndexedVector

variable {κ : Type*} {wake : PollEntry} {s s' : Reactor κ} {fd : Int}

/-! ## What the tables show -/

/-- An entry at the level of the service. -/
def FdEntry.shown (e : FdEntry κ) (requested : Bool) : Registration.Entry κ where
  read := if e.readActive then some e.readCtx.cb else none
  write := if e.writeActive then some { cb := e.writeCtx.cb, requested := requested } else none

/-- The tables at the level of the service. -/
def Reactor.service (s : Reactor κ) : Registration.Service κ where
  entries fd := (s.fdEntries fd).map fun e => e.shown (s.Armed fd)
  pending := s.pendingCleanup

/-- A call at the level of the service. -/
def Reactor.request (s : Reactor κ) : Op κ → Registration.Request κ
  | .addRead fd _ cb => .addRead fd cb
  | .remRead fd => .remRead fd
  | .addWrite fd cb dupFd => .addWrite fd cb ((s.entryOf fd).writeCtx.fd ≠ -1 ∨ dupFd ≠ -1)
  | .remWrite fd => .remWrite fd
  | .reqWrite fd _ => .reqWrite fd

/-- The direction of a poll entry. -/
def PollKind.direction : PollKind → Registration.Direction
  | .write => .write
  | .read | .wake => .read

/-- What a step of the reactor thread shows. -/
def Reactor.view (s : Reactor κ) : Event κ → List (Registration.Action κ)
  | .call op => [.call (s.request op) (s.call op).2]
  | .poll => []
  | .visit pos revents =>
    match s.dispatch[pos]? with
    | none => []
    | some item =>
      match (s.dispatchItem item revents).2 with
      | none => []
      | some cb =>
        (if item.kind = .write then [.take item.ownerFd] else []) ++
          [.notify item.ownerFd item.kind.direction cb]
  | .cleanup => [.endPass]

/-- A step, as one that can always be taken. -/
def Reactor.steps (s : Reactor κ) (event : Event κ) : Option (Reactor κ) := some (s.step event)

/-- Calls name descriptors, and `req_write` asks for events. -/
def Proper : Event κ → Prop
  | .call op => op.fd ≠ -1 ∧ ∀ fd events, op = .reqWrite fd events → events.setWidth 16 ≠ 0#16
  | .poll | .visit .. | .cleanup => True

/-! ## Entries -/

/-- What an entry shows does not depend on its poll indices. -/
theorem FdEntry.shown_of_unplaced {e e' : FdEntry κ} (h : e.unplaced = e'.unplaced)
    (requested : Bool) : e.shown requested = e'.shown requested := by
  have same : ∀ e : FdEntry κ, e.unplaced.shown requested = e.shown requested := fun e => rfl
  rw [← same e, h, same]

theorem FdEntry.shown_setRequested (e : FdEntry κ) (was requested : Bool) :
    (e.shown was).setRequested requested = e.shown requested := by
  unfold Registration.Entry.setRequested FdEntry.shown
  cases e.writeActive <;> rfl

/-- The poll entries of the write registration of another descriptor stay. -/
theorem Frame.armed_iff {fd' : Int} (h : Frame fd' s s') (other : fd ≠ fd') :
    s'.Armed fd ↔ s.Armed fd := by
  have kept : ∀ p : PollEntry, p.key = (fd, .write) →
      (p ∈ s'.pollEntries ↔ p ∈ s.pollEntries) := by
    intro p key
    have owner : p.ownerFd = fd := congrArg Prod.fst key
    exact h.polled p (.inl (owner ▸ other))
  constructor
  · exact h.armed other
  · rintro ⟨p, hp, key, events⟩
    exact ⟨p, (kept p key).mpr hp, key, events⟩

/-- A write registration that asks for events is there. -/
theorem Consistent.active_of_armed (h : Consistent wake s) (armed : s.Armed fd) :
    ∃ e, s.fdEntries fd = some e ∧ e.writeActive = true := by
  obtain ⟨p, hp, key, -⟩ := armed
  have owner : p.ownerFd = fd := congrArg Prod.fst key
  have kind : p.kind = .write := congrArg Prod.snd key
  obtain ⟨e, -, he, -, -, active, -⟩ := h.owner hp (by rw [kind]; decide)
  rw [owner] at he
  rw [kind] at active
  exact ⟨e, he, active⟩

/-- `m_fd_entries[fd]` at the level of the service. -/
theorem service_entryOf (s : Reactor κ) (fd : Int) :
    s.service.entryOf fd = (s.entryOf fd).shown (s.Armed fd) := by
  unfold Registration.Service.entryOf Reactor.entryOf Reactor.service
  dsimp only
  cases s.fdEntries fd with
  | none => rfl
  | some e => rfl

/-- A write registration that a step keeps is asked for what it was, if no other poll entry of it is
there after the step. -/
theorem Consistent.armed_kept (h : Consistent wake s) (h' : Consistent wake s')
    (same : s'.registration (fd, .write) = s.registration (fd, .write))
    (old : ∀ p ∈ s'.pollEntries, p.key = (fd, .write) → p ∈ s.pollEntries) :
    s'.Armed fd ↔ s.Armed fd := by
  constructor
  · rintro ⟨p, hp, key, events⟩
    exact ⟨p, old p hp key, key, events⟩
  · rintro ⟨p, hp, key, events⟩
    have kind : p.kind = .write := congrArg Prod.snd key
    -- the registration has a poll entry after the step, which can only be this one
    have there := h.registration_of_mem hp (by rw [kind]; decide)
    rw [key, ← same] at there
    obtain ⟨e, he, registered⟩ := Option.bind_eq_some_iff.mp there
    obtain ⟨i, hi⟩ := Option.isSome_iff_exists.mp
      ((h'.registered_iff he .write).symm.trans (by rw [registered]; rfl))
    obtain ⟨-, -, q, hq, hkey, -⟩ := h'.at_index he hi
    have mem := old q (List.mem_of_getElem? hq) hkey
    obtain ⟨i₁, h₁⟩ := List.mem_iff_getElem?.mp hp
    obtain ⟨i₂, h₂⟩ := List.mem_iff_getElem?.mp mem
    obtain rfl := h.linked.key_inj h₁ h₂ (key.trans hkey.symm)
    obtain rfl := Option.some.inj (h₁.symm.trans h₂)
    exact ⟨p, List.mem_of_getElem? hq, key, events⟩

/-- What a step on one descriptor makes of the service. -/
theorem Frame.service (h : Frame fd s s') {e : Registration.Entry κ}
    (own : s'.service.entries fd = some e) :
    s'.service.entries = Function.update s.service.entries fd (some e) := by
  funext fd'
  by_cases same : fd' = fd
  · subst same
    rw [Function.update_self, own]
  · rw [Function.update_of_ne same]
    have table := h.table fd' same
    have armed : decide (s'.Armed fd') = decide (s.Armed fd') :=
      decide_eq_decide.mpr (h.armed_iff same)
    unfold Reactor.service
    dsimp only
    rw [armed]
    cases he : s.fdEntries fd' with
    | none =>
      rw [he, Option.map_none, Option.map_eq_none_iff] at table
      rw [table]
    | some old =>
      rw [he, Option.map_some] at table
      obtain ⟨new, hnew, same⟩ := Option.map_eq_some_iff.mp table
      rw [hnew, Option.map_some, Option.map_some, FdEntry.shown_of_unplaced same]

/-! ## Calls -/

/-- The entry that an `add_read` leaves, and that it notes nothing. -/
theorem addRead_entry (s : Reactor κ) (fd : Int) (events : BitVec 32) (cb : Option κ) :
    (s.addRead fd events cb).1.pendingCleanup = s.pendingCleanup ∧
      ∃ e, (s.addRead fd events cb).1.fdEntries fd = some e ∧ ∀ requested,
        e.shown requested = { (s.entryOf fd).shown requested with read := some cb } := by
  unfold Reactor.addRead
  dsimp only
  split
  · exact ⟨rfl, _, Function.update_self .., fun _ => rfl⟩
  · refine ⟨?_, _, (congrFun (setPollEntry_fdEntries ..) fd).trans (Function.update_self ..),
      fun _ => rfl⟩
    unfold Reactor.setPollEntry
    split <;> rfl

/-- An `add_read` leaves the poll entries of writes alone. -/
theorem addRead_polled (h : Consistent wake s) (events : BitVec 32) (cb : Option κ)
    {p : PollEntry} (hp : p ∈ (s.addRead fd events cb).1.pollEntries) (key : p.key = (fd, .write)) :
    p ∈ s.pollEntries := by
  cases hidx : (s.entryOf fd).readPollIndex with
  | none =>
    rw [addRead_fresh hidx] at hp
    rcases List.mem_append.mp hp with hp | hp
    · exact hp
    · rw [List.mem_singleton.mp hp] at key
      cases key
  | some i =>
    have hsome : (Reactor.named fd (s.entryOf fd)).readPollIndex = some i := hidx
    simp only [Reactor.addRead, hsome, if_neg (Option.some_ne_none i)] at hp
    obtain ⟨q, read, -, -, polled⟩ := setPollEntry_polled h (k := .read) hidx
      (s.putEntry fd _) rfl fd (events.setWidth 16)
    rw [polled] at hp
    rcases List.mem_or_eq_of_mem_set hp with hp | rfl
    · exact hp
    · rw [read] at key
      cases key

/-- A call that rewrites the entry of its descriptor and notes nothing. -/
theorem Kept.service (kept : Kept wake fd s s') (pending : s'.pendingCleanup = s.pendingCleanup)
    {e : FdEntry κ} {shown : Registration.Entry κ} (there : s'.fdEntries fd = some e)
    (shows : e.shown (s'.Armed fd) = shown) : s'.service = s.service.put fd shown := by
  have own : s'.service.entries fd = some shown := by
    rw [← shows]
    exact congrArg (Option.map _) there
  exact congrArg₂ Registration.Service.mk (kept.frame.service own) pending

theorem addRead_service (h : Consistent wake s) (fd : Int) (events : BitVec 32) (cb : Option κ) :
    (s.addRead fd events cb).1.service =
      s.service.put fd { s.service.entryOf fd with read := some cb } := by
  have kept := addRead_kept h fd events cb
  have armed : (s.addRead fd events cb).1.Armed fd ↔ s.Armed fd := by
    refine h.armed_kept kept.consistent ?_ fun p => addRead_polled h events cb
    rw [addRead_registration h, if_neg fun both => PollKind.noConfusion both.1]
  obtain ⟨pending, e, he, shown⟩ := addRead_entry s fd events cb
  refine kept.service pending he ?_
  rw [shown, decide_eq_decide.mpr armed, service_entryOf]

/-- An entry without a registration. -/
def FdEntry.idle (e : FdEntry κ) : Bool := !e.readActive && !e.writeActive

/-- Nothing of a shown entry is registered. -/
theorem FdEntry.shown_idle (e : FdEntry κ) (requested : Bool) :
    (e.shown requested).idle = e.idle := by
  unfold Registration.Entry.idle FdEntry.shown FdEntry.idle
  cases e.readActive <;> cases e.writeActive <;> rfl

/-- What a removal without its last lines leaves. -/
theorem removal_entry (h : Consistent wake s) {e : FdEntry κ} {k : PollKind}
    (he : s.fdEntries fd = some e) (active : e.activeOf k = true) (closed : List Int)
    (cb : Option κ) {t : Reactor κ}
    (removed : t = (({ s.removePollEntryByIndex (e.indexOf k) with
      closed := closed } : Reactor κ).retireCb cb).modifyEntry fd fun e => e.clear k) :
    t.pendingCleanup = s.pendingCleanup ∧ t.pollEntries ⊆ s.pollEntries ∧
      ∃ e', t.fdEntries fd = some e' ∧ e'.unplaced = (e.clear k).unplaced := by
  subst removed
  obtain ⟨i, hi⟩ : ∃ i, e.indexOf k = some i := by
    rw [(h.entries fd e he).active_iff] at active
    exact Option.isSome_iff_exists.mp active
  have subset := removePollEntryByIndex_subset s (e.indexOf k)
  obtain ⟨m, -, heq⟩ := removePollEntryByIndex_eq h he hi
  rw [hi] at subset ⊢
  rw [retireCb_eq]
  refine ⟨?_, subset, ?_⟩
  · rw [heq]
    rfl
  · have moved : ((s.fdEntries fd).map fun e => if fd = m.ownerFd then e.setIndex m.kind i else e) =
        some (if fd = m.ownerFd then e.setIndex m.kind i else e) := by rw [he, Option.map_some]
    rw [heq]
    refine ⟨_, (Function.update_self ..).trans (congrArg (Option.map _) moved), ?_⟩
    split
    · cases m.kind <;> cases k <;> rfl
    · rfl

/-- The last lines of a removal, at the level of the service. -/
theorem notePending_service {t : Reactor κ} {e : FdEntry κ} (he : t.fdEntries fd = some e)
    {r : Registration.Service κ} {requested : Bool}
    (same : t.service = r.put fd (e.shown requested)) :
    (t.notePending fd).service = r.leave fd (e.shown requested) := by
  have entries : t.service.entries = (r.put fd (e.shown requested)).entries := by rw [same]
  have pending : t.pendingCleanup = r.pending := congrArg Registration.Service.pending same
  unfold Reactor.notePending Registration.Service.leave
  rw [he, FdEntry.shown_idle, FdEntry.idle]
  dsimp only
  split
  · rw [← pending]
    exact congrArg₂ Registration.Service.mk entries rfl
  · exact same

/-- A removal, at the level of the service. -/
theorem removal_service (h : Consistent wake s) {e : FdEntry κ} {k : PollKind}
    (he : s.fdEntries fd = some e) (active : e.activeOf k = true) (closed : List Int)
    (cb : Option κ) {t : Reactor κ}
    (removed : t = (({ s.removePollEntryByIndex (e.indexOf k) with
      closed := closed } : Reactor κ).retireCb cb).modifyEntry fd fun e => e.clear k) :
    (t.notePending fd).service = s.service.leave fd ((e.clear k).shown (s.Armed fd)) := by
  obtain ⟨pending, subset, e', he', unplaced⟩ := removal_entry h he active closed cb removed
  have kept : Kept wake fd s t := removed ▸ removal_kept h he active closed cb
  have shows : ∀ requested, e'.shown requested = (e.clear k).shown requested :=
    FdEntry.shown_of_unplaced unplaced
  have asked : (e.clear k).shown (t.Armed fd) = (e.clear k).shown (s.Armed fd) := by
    by_cases write : k = .write
    · subst write
      rfl
    · have same : t.registration (fd, .write) = s.registration (fd, .write) := by
        rw [removed, removal_registration h he active, if_neg (Ne.symm write)]
      have armed := h.armed_kept kept.consistent same fun p hp _ => subset hp
      rw [decide_eq_decide.mpr armed]
  rw [← shows]
  refine notePending_service he' (kept.service pending he' ?_)
  rw [shows, shows, asked]

/-- An entry that is stored as it was. -/
theorem service_put_self {e : FdEntry κ} (he : s.fdEntries fd = some e) :
    s.service = s.service.put fd (e.shown (s.Armed fd)) := by
  have there : s.service.entries fd = some (e.shown (s.Armed fd)) :=
    congrArg (Option.map _) he
  rw [Registration.Service.put, ← there, Function.update_eq_self]

theorem remRead_service (h : Consistent wake s) (valid : fd ≠ -1) :
    (s.remRead fd).1.service = (s.service.request (.remRead fd)).1 ∧
      (s.remRead fd).2 = (s.service.request (.remRead fd)).2 := by
  cases he : s.fdEntries fd with
  | none =>
    have unknown : s.service.entries fd = none := congrArg (Option.map _) he
    simp only [Reactor.remRead, he, Registration.Service.request, unknown, and_self]
  | some e =>
    have there : s.service.entries fd = some (e.shown (s.Armed fd)) := congrArg (Option.map _) he
    simp only [Reactor.remRead, he, Registration.Service.request, there, and_true]
    by_cases active : e.readActive = true
    · have opened : e.readCtx.fd ≠ -1 := by rw [(h.entries fd e he).readFd active]; exact valid
      rw [if_pos ⟨active, opened⟩]
      exact removal_service h (k := .read) he active _ e.readCtx.cb rfl
    · rw [if_neg fun both => active both.1]
      have same : { e.shown (s.Armed fd) with read := none } = e.shown (s.Armed fd) := by
        simp only [FdEntry.shown, if_neg active]
      rw [same]
      exact notePending_service he (service_put_self he)

theorem remWrite_service (h : Consistent wake s) (fd : Int) :
    (s.remWrite fd).1.service = (s.service.request (.remWrite fd)).1 ∧
      (s.remWrite fd).2 = (s.service.request (.remWrite fd)).2 := by
  cases he : s.fdEntries fd with
  | none =>
    have unknown : s.service.entries fd = none := congrArg (Option.map _) he
    simp only [Reactor.remWrite, he, Registration.Service.request, unknown, and_self]
  | some e =>
    have there : s.service.entries fd = some (e.shown (s.Armed fd)) := congrArg (Option.map _) he
    simp only [Reactor.remWrite, he, Registration.Service.request, there, and_true]
    by_cases active : e.writeActive = true
    · rw [if_pos ⟨active, (h.entries fd e he).writeFd.mpr active⟩]
      exact removal_service h (k := .write) he active _ e.writeCtx.cb rfl
    · rw [if_neg fun both => active both.1]
      have same : { e.shown (s.Armed fd) with write := none } = e.shown (s.Armed fd) := by
        simp only [FdEntry.shown, if_neg active]
      rw [same]
      exact notePending_service he (service_put_self he)

/-- What an `add_write` leaves, and that it notes nothing. -/
theorem addWrite_entry (s : Reactor κ) (fd : Int) (cb : Option κ) {dupFd : Int}
    (opened : (s.entryOf fd).writeCtx.fd ≠ -1 ∨ dupFd ≠ -1) :
    (s.addWrite fd cb dupFd).2 = true ∧
      (s.addWrite fd cb dupFd).1.pendingCleanup = s.pendingCleanup ∧
      ∃ e, (s.addWrite fd cb dupFd).1.fdEntries fd = some e ∧ ∀ requested, e.shown false =
        { (s.entryOf fd).shown requested with write := some { cb := cb } } := by
  have valid : ¬(if (Reactor.named fd (s.entryOf fd)).writeCtx.fd = -1 then dupFd
      else (Reactor.named fd (s.entryOf fd)).writeCtx.fd) = -1 := by
    split
    · rename_i closed
      exact opened.resolve_left fun ne => ne closed
    · rename_i held
      exact held
  unfold Reactor.addWrite
  dsimp only
  rw [if_neg valid]
  split
  · exact ⟨rfl, rfl, _, Function.update_self .., fun _ => rfl⟩
  · refine ⟨rfl, ?_, _, (congrFun (setPollEntry_fdEntries ..) fd).trans (Function.update_self ..),
      fun _ => rfl⟩
    unfold Reactor.setPollEntry
    split <;> rfl

theorem addWrite_service (h : Consistent wake s) (fd : Int) (cb : Option κ) (dupFd : Int) :
    (s.addWrite fd cb dupFd).1.service =
        (s.service.request (s.request (.addWrite fd cb dupFd))).1 ∧
      (s.addWrite fd cb dupFd).2 = (s.service.request (s.request (.addWrite fd cb dupFd))).2 := by
  by_cases opened : (s.entryOf fd).writeCtx.fd ≠ -1 ∨ dupFd ≠ -1
  · obtain ⟨added, pending, e, he, shown⟩ := addWrite_entry s fd cb opened
    have unarmed := decide_eq_false (addWrite_not_armed h added)
    simp only [Reactor.request, Registration.Service.request, decide_eq_true opened, if_true]
    refine ⟨(addWrite_kept h fd cb dupFd).service pending he ?_, added⟩
    rw [unarmed, shown (s.Armed fd), service_entryOf]
  · simp only [Reactor.request, Registration.Service.request, decide_eq_false opened,
      Bool.false_eq_true, if_false]
    rw [not_or, not_not, not_not] at opened
    -- `dup` failed: only the entry is made
    have kept := addWrite_kept h fd cb dupFd
    have closed : (Reactor.named fd (s.entryOf fd)).writeCtx.fd = -1 := opened.1
    simp only [Reactor.addWrite, closed, if_true, opened.2] at kept ⊢
    refine ⟨kept.service rfl (Function.update_self ..) ?_, trivial⟩
    rw [service_entryOf]
    rfl

/-- A `req_write` that finds a registration asks for its events. -/
theorem reqWrite_armed (h : Consistent wake s) {e : FdEntry κ} (he : s.fdEntries fd = some e)
    (active : e.writeActive = true) {events : BitVec 16} (asks : events ≠ 0) :
    (s.setPollEvents e.writePollIndex events).Armed fd := by
  obtain ⟨i, hi⟩ := Option.isSome_iff_exists.mp
    (((h.entries fd e he).active_iff .write).symm.trans active)
  have hidx : e.writePollIndex = some i := hi
  obtain ⟨q, key, requests, placed, polled⟩ := setPollEvents_polled h (k := .write) he hi events
  rw [hidx]
  refine ⟨q, ?_, key, by rw [requests]; exact asks⟩
  rw [polled]
  exact List.mem_set placed q

theorem reqWrite_service (h : Consistent wake s) (fd : Int) {events : BitVec 32}
    (asks : events.setWidth 16 ≠ 0#16) :
    (s.reqWrite fd events).1.service = (s.service.request (.reqWrite fd)).1 ∧
      (s.reqWrite fd events).2 = (s.service.request (.reqWrite fd)).2 := by
  have kept := reqWrite_kept h fd events
  cases he : s.fdEntries fd with
  | none =>
    have unknown : s.service.entries fd = none := congrArg (Option.map _) he
    simp only [Reactor.reqWrite, he, Registration.Service.request, unknown, and_self]
  | some e =>
    have there : s.service.entries fd = some (e.shown (s.Armed fd)) := congrArg (Option.map _) he
    simp only [Reactor.reqWrite, he] at kept
    simp only [Reactor.reqWrite, he, Registration.Service.request, there]
    by_cases active : e.writeActive = true
    · have held := (h.entries fd e he).writeFd.mpr active
      have registered : (e.shown (s.Armed fd)).write.isSome = true := by
        simp only [FdEntry.shown, if_pos active, Option.isSome_some]
      have found : ¬((!e.writeActive || decide (e.writeCtx.fd = -1)) = true) := by
        rw [active, decide_eq_false held]
        exact Bool.false_ne_true
      rw [if_neg found] at kept
      simp only [if_neg found, registered, if_true, and_true]
      refine kept.service ?_ ((congrFun (setPollEvents_fdEntries ..) fd).trans he) ?_
      · unfold Reactor.setPollEvents
        split <;> rfl
      · rw [decide_eq_true (reqWrite_armed h he active asks), FdEntry.shown_setRequested]
    · have missed : (!e.writeActive || decide (e.writeCtx.fd = -1)) = true := by
        rw [eq_false_of_ne_true active]
        rfl
      have unregistered : (e.shown (s.Armed fd)).write.isSome = false := by
        simp only [FdEntry.shown, if_neg active, Option.isSome_none]
      simp only [if_pos missed, unregistered, Bool.false_eq_true, if_false, and_self]

/-- **A call is one of the service's.** -/
theorem service_call (h : Consistent wake s) {op : Op κ} (proper : Proper (.call op)) :
    (s.call op).1.service = (s.service.request (s.request op)).1 ∧
      (s.call op).2 = (s.service.request (s.request op)).2 := by
  obtain ⟨valid, asks⟩ := proper
  cases op with
  | addRead fd events cb =>
    refine ⟨addRead_service h fd events cb, ?_⟩
    unfold Reactor.call Reactor.addRead
    dsimp only
    split <;> rfl
  | remRead fd => exact remRead_service h valid
  | addWrite fd cb dupFd => exact addWrite_service h fd cb dupFd
  | remWrite fd => exact remWrite_service h fd
  | reqWrite fd events => exact reqWrite_service h fd (asks fd events rfl)

/-! ## The rest of a pass -/

/-- Zeroing every `revents` shows nothing. -/
theorem snapshot_service (s : Reactor κ) : s.snapshot.service = s.service := by
  have armed : ∀ fd, s.snapshot.Armed fd ↔ s.Armed fd := by
    intro fd
    refine ⟨snapshot_armed, ?_⟩
    rintro ⟨p, hp, key, events⟩
    exact ⟨_, List.mem_map_of_mem hp, key, events⟩
  have entries : s.snapshot.service.entries = s.service.entries := by
    funext fd
    show (s.fdEntries fd).map _ = (s.fdEntries fd).map _
    rw [decide_eq_decide.mpr (armed fd)]
  exact congrArg₂ Registration.Service.mk entries rfl

/-- A round of the clean-up takes its own entry, if that is idle. -/
theorem cleanupFd_entry (s : Reactor κ) (x fd : Int) :
    (s.cleanupFd x).fdEntries fd = (s.fdEntries fd).filter fun e => !(fd = x && e.idle) := by
  refine Registration.Service.sweep_one ?_ fd
  unfold Reactor.cleanupFd
  cases s.fdEntries x with
  | none => rfl
  | some e =>
    unfold FdEntry.idle
    rw [Option.any_some]
    dsimp only
    split <;> rfl

/-- The clean-up is the end of the pass. -/
theorem cleanup_service (s : Reactor κ) : s.cleanup.service = s.service.endPass := by
  have armed : ∀ fd, s.cleanup.Armed fd ↔ s.Armed fd := by
    intro fd
    unfold Reactor.Armed
    rw [cleanup_pollEntries]
  have entries : s.cleanup.service.entries = s.service.endPass.entries := by
    funext fd
    have cleaned : s.cleanup.fdEntries fd = _ :=
      Registration.Service.foldl_sweep cleanupFd_entry s.pendingCleanup s fd
    have same : decide (s.cleanup.Armed fd) = decide (s.Armed fd) :=
      decide_eq_decide.mpr (armed fd)
    unfold Reactor.service Registration.Service.endPass
    dsimp only
    rw [cleaned, same]
    cases s.fdEntries fd with
    | none => rfl
    | some e =>
      rw [Option.filter_some, Option.map_some, Option.filter_some, FdEntry.shown_idle]
      exact apply_ite ..
  exact congrArg₂ Registration.Service.mk entries rfl

theorem setPollEvents_pending (s : Reactor κ) (index : Option Nat) (events : BitVec 16) :
    (s.setPollEvents index events).pendingCleanup = s.pendingCleanup := by
  unfold Reactor.setPollEvents
  split <;> rfl

/-- A round of the dispatch changes neither entries nor what is noted. -/
theorem dispatchItem_same_entries (s : Reactor κ) (item : PollEntry) (revents : BitVec 16) :
    (s.dispatchItem item revents).1.fdEntries = s.fdEntries ∧
      (s.dispatchItem item revents).1.pendingCleanup = s.pendingCleanup := by
  unfold Reactor.dispatchItem
  split
  · exact ⟨rfl, rfl⟩
  · split
    · exact ⟨rfl, rfl⟩
    · split
      · exact ⟨rfl, rfl⟩
      · split <;> exact ⟨rfl, rfl⟩
    · split
      · exact ⟨rfl, rfl⟩
      · split
        · exact ⟨setPollEvents_fdEntries .., setPollEvents_pending ..⟩
        · exact ⟨rfl, rfl⟩

/-- A round that runs a write callback takes the request back, and another one changes nothing. -/
theorem dispatchItem_service (h : Consistent wake s) {item : PollEntry} {revents : BitVec 16}
    {cb : κ} (invoked : (s.dispatchItem item revents).2 = some cb) :
    (s.dispatchItem item revents).1.service =
      if item.kind = .write then s.service.take item.ownerFd else s.service := by
  split
  · rename_i write
    have notified : (s.dispatchItem item revents).2.isSome = true := by rw [invoked]; rfl
    have unarmed := decide_eq_false (dispatchItem_not_armed h write notified)
    have kept := dispatchItem_kept h item revents
    obtain ⟨entries, pending⟩ := dispatchItem_same_entries s item revents
    obtain ⟨-, -, e, he, -⟩ := (dispatchItem_invoked ..).mp invoked
    have there : s.service.entries item.ownerFd = some (e.shown (s.Armed item.ownerFd)) :=
      congrArg (Option.map _) he
    rw [kept.service pending ((congrFun entries _).trans he) (by rw [unarmed]),
      Registration.Service.take, there, Option.map_some, FdEntry.shown_setRequested]
    rfl
  · rename_i other
    rw [dispatchItem_same fun both => other both.1]

/-- A callback that a round runs is that of the registration that is there. -/
theorem dispatchItem_registered {item : PollEntry} {revents : BitVec 16} {cb : κ}
    (invoked : (s.dispatchItem item revents).2 = some cb) :
    ∃ e, s.service.entries item.ownerFd = some e ∧
      e.registered item.kind.direction = some (some cb) := by
  obtain ⟨-, there, e, he, callback⟩ := (dispatchItem_invoked ..).mp invoked
  rw [PollEntry.key, registration_of_entry he, FdEntry.registered_eq_some] at there
  refine ⟨e.shown (s.Armed item.ownerFd), congrArg (Option.map _) he, ?_⟩
  obtain ⟨active, -⟩ := there
  unfold FdEntry.shown Registration.Entry.registered
  cases kind : item.kind with
  | wake =>
    rw [kind] at active
    cases active
  | read =>
    rw [kind] at active callback
    have active : e.readActive = true := active
    rw [PollKind.direction, if_pos active]
    exact congrArg some callback
  | write =>
    rw [kind] at active callback
    have active : e.writeActive = true := active
    rw [PollKind.direction, if_pos active]
    exact congrArg some callback

/-- A request is a poll entry that asks for events. -/
theorem requested_service (h : Consistent wake s) (fd : Int) :
    s.service.requested fd = decide (s.Armed fd) := by
  unfold Registration.Service.requested Reactor.service
  dsimp only
  cases he : s.fdEntries fd with
  | none =>
    refine (decide_eq_false fun armed => ?_).symm
    obtain ⟨e, there, -⟩ := h.active_of_armed armed
    rw [he] at there
    cases there
  | some e =>
    rw [Option.map_some, Option.any_some, Registration.Entry.requested, FdEntry.shown]
    by_cases active : e.writeActive = true
    · rw [if_pos active, Option.any_some]
    · rw [if_neg active, Option.any_none]
      refine (decide_eq_false fun armed => active ?_).symm
      obtain ⟨e', there, active'⟩ := h.active_of_armed armed
      obtain rfl := Option.some.inj (he.symm.trans there)
      exact active'

/-! ## Runs -/

open Lts in
/-- **What a step shows is a run of the service.** -/
theorem step_service (h : Consistent wake s) {event : Event κ} (proper : Proper event) :
    Run Registration.Service.Step s.service (s.view event) (s.step event).service := by
  cases event with
  | call op =>
    obtain ⟨same, answer⟩ := service_call h proper
    unfold Reactor.view Reactor.step
    dsimp only
    rw [same, answer]
    exact Run.single (.call _)
  | poll =>
    rw [show (s.step .poll).service = s.service from snapshot_service s]
    exact Run.nil
  | visit pos revents =>
    unfold Reactor.view Reactor.step
    dsimp only
    cases s.dispatch[pos]? with
    | none => exact Run.nil
    | some item =>
      dsimp only
      cases invoked : (s.dispatchItem item revents).2 with
      | none =>
        rw [dispatchItem_same (by rw [invoked]; simp)]
        exact Run.nil
      | some cb =>
        obtain ⟨e, there, registered⟩ := dispatchItem_registered invoked
        rw [dispatchItem_service h invoked]
        dsimp only
        split
        · rename_i write
          refine (Run.single (.take _)).trans (Run.single ?_)
          refine .notify (e := e.setRequested false) ?_ ?_
          · exact (Function.update_self ..).trans (congrArg (Option.map _) there)
          · rw [Registration.Service.setRequested_registered]
            exact registered
        · exact Run.single (.notify there registered)
  | cleanup =>
    rw [show (s.step .cleanup).service = s.service.endPass from cleanup_service s]
    exact Run.single .endPass

open Lts in
/-- **What a run shows is a run of the service.** -/
theorem run_service (wakeFd : Int) (pollIn : BitVec 16) {events : List (Event κ)}
    (proper : ∀ event ∈ events, Proper event)
    (run : events.foldlM Reactor.steps (Reactor.init wakeFd pollIn) = some s) :
    Consistent (wakeEntry wakeFd pollIn) s ∧ Run Registration.Service.Step {}
      (shows Reactor.steps Reactor.view (Reactor.init wakeFd pollIn) events) s.service := by
  refine simulation Reactor.service (I := Consistent (wakeEntry wakeFd pollIn)) ?_
    (init_consistent wakeFd pollIn) ((allSteps_iff_forall_mem run).mpr proper) run
  intro s event t h proper step
  obtain rfl := Option.some.inj step
  exact ⟨step_consistent h event, step_service h proper⟩

end Bfc.PollReactor
