import Bfc.EpollReactor.Watches
import Bfc.Lib.OneShot

/-!
# One-shot writes of the epoll reactor

Here the kernel is asked for one-shot notifications: `add_write` watches the duplicate for no
events, `req_write` for `EPOLLOUT | EPOLLONESHOT`, and a watch with `EPOLLONESHOT` is disabled when
it is reported, until the next `EPOLL_CTL_MOD`. `Counted` is the reactor with what this adds to it:
the watches that are disabled, the batch that a wait has returned and dispatch has not reached, and
a tally of the write registrations.

The credit of a write registration is in two places: its watch, while it is one-shot and not
disabled, and the reports on their way to it in the batch. A wait takes it from the one to the
other. Two things in the source run a callback that has none, and `Counted.Asked` leaves them out. A
new registration is watched without `EPOLLONESHOT`, so an error or a hang-up is reported, as often
as there is a wait; and an event that is on its way when its registration is replaced reaches the
new one.
-/

namespace Bfc.EpollReactor

open OneShot

variable {κ : Type*} {s s' : Reactor κ} {fd : Int}

/-! ## What is counted -/

/-- `EPOLLERR` and `EPOLLHUP`: what a wait reports without a request. -/
def alwaysReported : BitVec 32 := 0x008 ||| 0x010

/-- `EPOLLONESHOT`. -/
def epollOneShot : BitVec 32 := 0x40000000

/-- What a wait reports is drawn from the requested events and `EPOLLERR` and `EPOLLHUP`. -/
def Drawn (events revents : BitVec 32) : Prop := revents &&& ~~~(events ||| alwaysReported) = 0

instance (events revents : BitVec 32) : Decidable (Drawn events revents) :=
  inferInstanceAs (Decidable (_ = _))

/-- The watch is one-shot. -/
def Watch.oneShot (w : Watch) : Bool := w.events &&& epollOneShot != 0

/-- An event of a batch, with what it was reported for: whether its watch was one-shot, and for a
write which one it was of the registrations of its descriptor. -/
structure Report where
  ptr : Ptr
  oneShot : Bool
  registration : Option Nat
deriving DecidableEq, Repr

/-- What a wait reports of a watch. -/
def Watch.reported (w : Watch) (tally : Tally Int) : Report where
  ptr := w.ptr
  oneShot := w.oneShot
  registration := w.ptr.writeOf.map tally.subscriptions

/-- The write registration that the descriptor has was armed, and this is the event. -/
def Report.isFor (r : Report) (tally : Tally Int) (fd : Int) : Bool :=
  r.ptr.writeOf = some fd ∧ r.oneShot ∧ r.registration = some (tally.subscriptions fd)

/-- The reactor, the watches that a report has disabled, the rest of the batch, and the tally of the
write registrations. -/
structure Counted (κ : Type*) where
  reactor : Reactor κ
  disabled : Int → Bool := fun _ => false
  batch : List Report := []
  tally : Tally Int := {}

/-- What a run does: a call, a wait with what it reports for which descriptors, the dispatch of the
next event, or the clean-up. -/
inductive Action (κ : Type*) where
  | call (op : Op κ)
  | wait (reports : List (Int × BitVec 32))
  | dispatch
  | cleanup

/-- A watch that is made or changed is not disabled. -/
def enable (disabled : Int → Bool) : Option Int → Int → Bool
  | none => disabled
  | some x => Function.update disabled x false

/-- What a call adds to the tally. -/
def Reactor.count (s : Reactor κ) (tally : Tally Int) : Op κ → Tally Int
  | .addWrite fd cb dupFd added =>
    if (s.addWrite fd cb dupFd added).2 then tally.subscribe fd else tally
  | .reqWrite fd events modified =>
    if (s.reqWrite fd events modified).2 then tally.request fd else tally
  | _ => tally

namespace Counted

/-- The kernel reports a descriptor that is watched and not disabled. -/
def report (c : Counted κ) (event : Int × BitVec 32) : Option (Counted κ) :=
  match c.reactor.kernel.interest event.1 with
  | none => none
  | some w =>
    if c.disabled event.1 = false ∧ event.2 ≠ 0 ∧ Drawn w.events event.2 then
      some { c with
        disabled := if w.oneShot then Function.update c.disabled event.1 true else c.disabled
        batch := c.batch ++ [w.reported c.tally] }
    else none

/-- A step, where the kernel can answer so. A wait comes when the batch is dispatched, as does a
clean-up, and reports a descriptor once. -/
def step (c : Counted κ) : Action κ → Option (Counted κ)
  | .call op =>
    (c.reactor.call op).map fun t =>
      { c with
        reactor := t
        disabled := enable c.disabled (c.reactor.rewatched op)
        tally := c.reactor.count c.tally op }
  | .wait reports =>
    if c.batch.isEmpty ∧ (reports.map Prod.fst).Nodup then reports.foldlM report c else none
  | .dispatch =>
    match c.batch with
    | [] => none
    | r :: rest =>
      some { c with
        batch := rest
        tally := match r.ptr.writeOf with
          | none => c.tally
          | some fd =>
            if (c.reactor.invokes r.ptr).isSome then c.tally.invoke fd else c.tally }
  | .cleanup => if c.batch.isEmpty then some { c with reactor := c.reactor.cleanup } else none

/-- An event that invokes a write callback was asked for, by the registration that is there. -/
def Asked (c : Counted κ) : Action κ → Prop
  | .dispatch =>
    ∀ r rest fd, c.batch = r :: rest → r.ptr.writeOf = some fd →
      (c.reactor.invokes r.ptr).isSome → r.isFor c.tally fd = true
  | .call _ | .wait _ | .cleanup => True

/-- The watch of the write registration is one-shot and not disabled. -/
def armed (c : Counted κ) (fd : Int) : Bool :=
  match c.reactor.fdEntries fd with
  | none => false
  | some e =>
    e.writeActive && !c.disabled e.writeCtx.fd &&
      (c.reactor.kernel.interest e.writeCtx.fd).any Watch.oneShot

/-- The events on their way to the write registration. -/
def inFlight (c : Counted κ) (fd : Int) : Nat := c.batch.countP (·.isFor c.tally fd)

/-- What a write registration may still be notified of. -/
def credit (c : Counted κ) (fd : Int) : Nat := (c.armed fd).toNat + c.inFlight fd

/-- The reactor its constructor leaves, with nothing counted. -/
def init (eventFd : Nat) (pollIn : BitVec 32) : Counted κ where
  reactor := .init eventFd pollIn

end Counted

/-! ## The credit -/

theorem enable_of_ne {disabled : Int → Bool} {x : Option Int} {y : Int} (other : x ≠ some y) :
    enable disabled x y = disabled y := by
  cases x with
  | none => rfl
  | some x => exact Function.update_of_ne (fun same => other (congrArg some same.symm)) _ _

namespace Counted

variable {c t : Counted κ}

theorem armed_iff : c.armed fd = true ↔ ∃ e w, c.reactor.fdEntries fd = some e ∧
    e.writeActive = true ∧ c.disabled e.writeCtx.fd = false ∧
      c.reactor.kernel.interest e.writeCtx.fd = some w ∧ w.oneShot = true := by
  unfold armed
  cases he : c.reactor.fdEntries fd with
  | none =>
    constructor
    · intro h
      cases h
    · rintro ⟨e, w, he, -⟩
      cases he
  | some e =>
    simp only [Bool.and_eq_true, Bool.not_eq_true', Option.any_eq_true, Option.some.injEq]
    constructor
    · rintro ⟨⟨active, enabled⟩, w, watched, oneShot⟩
      exact ⟨e, w, rfl, active, enabled, watched, oneShot⟩
    · rintro ⟨e, w, rfl, active, enabled, watched, oneShot⟩
      exact ⟨⟨active, enabled⟩, w, watched, oneShot⟩

/-- Credit is added by arming or by a report. -/
theorem credit_le (armed : t.armed fd = true → c.armed fd = true)
    (inFlight : t.inFlight fd ≤ c.inFlight fd) : t.credit fd ≤ c.credit fd := by
  have watch : (t.armed fd).toNat ≤ (c.armed fd).toNat := by
    cases h : t.armed fd with
    | false => exact Nat.zero_le _
    | true => exact Nat.le_of_eq (by rw [armed h])
  unfold credit
  omega

/-- The events on their way are those of the batch, while no new registration is made. -/
theorem inFlight_of_same (batch : t.batch = c.batch)
    (same : t.tally.subscriptions fd = c.tally.subscriptions fd) :
    t.inFlight fd = c.inFlight fd := by
  unfold inFlight Report.isFor
  rw [batch, same]

/-- No event is on its way to a registration that is yet to be made. -/
def Known (c : Counted κ) : Prop :=
  ∀ r ∈ c.batch, ∀ fd n, r.ptr.writeOf = some fd → r.registration = some n →
    n ≤ c.tally.subscriptions fd

/-- The counted state after a call that can be made. -/
theorem step_call {op : Op κ} (step : c.step (.call op) = some t) :
    c.reactor.allows op ∧ t.reactor = c.reactor.perform op ∧ t.batch = c.batch ∧
      t.tally = c.reactor.count c.tally op ∧
      ∀ y, c.reactor.rewatched op ≠ some y → t.disabled y = c.disabled y := by
  obtain ⟨s, called, rfl⟩ := Option.map_eq_some_iff.mp step
  obtain ⟨allowed, performed⟩ := Option.ite_none_right_eq_some.mp called
  exact ⟨allowed, (Option.some.inj performed).symm, rfl, rfl, fun y other => enable_of_ne other⟩

/-- A call arms no write registration but the one it requests. -/
theorem call_armed (h : Agree c.reactor) {op : Op κ} (step : c.step (.call op) = some t)
    (unmade : ∀ cb dupFd, op = .addWrite fd cb dupFd true →
      (c.reactor.entryOf fd).writeFd dupFd = -1)
    (unrequested : ∀ events modified, op = .reqWrite fd events modified →
      c.reactor.rewatched op = none) (armed : t.armed fd = true) : c.armed fd = true := by
  obtain ⟨allowed, reactor, -, -, disabled⟩ := step_call step
  obtain ⟨e', w, he', active, enabled, watched, oneShot⟩ := armed_iff.mp armed
  rw [reactor] at he' watched
  obtain ⟨e, he, was, same, other, interest⟩ :=
    h.write_frame allowed unmade unrequested he' active
  rw [← same] at enabled watched
  rw [disabled _ other] at enabled
  rw [interest] at watched
  exact armed_iff.mpr ⟨e, w, he, was, enabled, watched, oneShot⟩

/-- A successful `add_write` leaves its registration unarmed. -/
theorem addWrite_unarmed {cb : Option κ} {dupFd : Int} {added : Bool}
    (step : c.step (.call (.addWrite fd cb dupFd added)) = some t)
    (made : (c.reactor.addWrite fd cb dupFd added).2 = true) : t.armed fd = false := by
  obtain ⟨-, reactor, -⟩ := step_call step
  obtain ⟨e, w, he, watched, quiet⟩ := addWrite_made made
  rw [Bool.eq_false_iff]
  intro armed
  obtain ⟨e', w', he', -, -, watched', oneShot⟩ := armed_iff.mp armed
  rw [reactor] at he' watched'
  obtain rfl := Option.some.inj (he.symm.trans he')
  obtain rfl := Option.some.inj (watched.symm.trans watched')
  unfold Watch.oneShot at oneShot
  rw [quiet] at oneShot
  cases oneShot

/-- No event is on its way to a new registration. -/
theorem Known.inFlight_subscribe (h : c.Known) (batch : t.batch = c.batch)
    (tally : t.tally = c.tally.subscribe fd) : t.inFlight fd = 0 := by
  unfold inFlight
  rw [List.countP_eq_zero, batch, tally]
  intro r hr isFor
  simp only [Report.isFor, decide_eq_true_eq, Tally.subscribe_subscriptions] at isFor
  have := h r hr fd _ isFor.1 isFor.2.2
  omega

/-- **A call moves the account of its own descriptor, as its answer says.** -/
theorem moves_call (h : Agree c.reactor) (known : c.Known) {op : Op κ}
    (step : c.step (.call op) = some t) (fd : Int) :
    Move (c.tally.account fd (c.credit fd)) (t.tally.account fd (t.credit fd)) := by
  obtain ⟨-, -, batch, tally, -⟩ := step_call step
  -- what a call neither makes nor requests gains nothing
  have other : ∀ fd, (∀ cb dupFd, op = .addWrite fd cb dupFd true →
      (c.reactor.entryOf fd).writeFd dupFd = -1) →
      (∀ events modified, op = .reqWrite fd events modified → c.reactor.rewatched op = none) →
      t.tally.subscriptions fd = c.tally.subscriptions fd → t.credit fd ≤ c.credit fd := by
    intro fd unmade unrequested same
    apply credit_le (call_armed h step unmade unrequested)
    exact Nat.le_of_eq (inFlight_of_same batch same)
  have idle : (∀ fd cb dupFd, op = .addWrite fd cb dupFd true →
      (c.reactor.entryOf fd).writeFd dupFd = -1) →
      (∀ fd events modified, op = .reqWrite fd events modified → c.reactor.rewatched op = none) →
      t.tally = c.tally → Move (c.tally.account fd (c.credit fd))
        (t.tally.account fd (t.credit fd)) := by
    intro unmade unrequested same
    rw [same]
    apply c.tally.moves_idle
    intro fd
    exact other fd (unmade fd) (unrequested fd) (by rw [same])
  cases op with
  | openFd x => exact idle (by simp) (by simp) tally
  | closeFd x => exact idle (by simp) (by simp) tally
  | addRead x events cb added => exact idle (by simp) (by simp) tally
  | remRead x => exact idle (by simp) (by simp) tally
  | remWrite x => exact idle (by simp) (by simp) tally
  | addWrite x cb dupFd added =>
    by_cases made : (c.reactor.addWrite x cb dupFd added).2 = true
    · simp only [Reactor.count, if_pos made] at tally
      rw [tally]
      apply c.tally.moves_subscribe x
      · unfold credit
        rw [addWrite_unarmed step made, known.inFlight_subscribe batch tally]
        rfl
      · intro fd' ne
        refine other fd' ?_ (by simp) ?_
        · intro cb dupFd same
          exact absurd (Op.addWrite.inj same).1.symm ne
        · rw [tally, Tally.subscribe_subscriptions_of_ne _ ne]
    · simp only [Reactor.count, if_neg made] at tally
      refine idle ?_ (by simp) tally
      intro fd' cb' dupFd' same
      obtain ⟨rfl, rfl, rfl, rfl⟩ := Op.addWrite.inj same
      exact addWrite_failed (eq_false_of_ne_true made)
  | reqWrite x events modified =>
    by_cases requested : (c.reactor.reqWrite x events modified).2 = true
    · simp only [Reactor.count, if_pos requested] at tally
      rw [tally]
      apply c.tally.moves_request x
      · have inFlight : t.inFlight x = c.inFlight x :=
          inFlight_of_same batch (by rw [tally]; rfl)
        have := Bool.toNat_le (t.armed x)
        unfold credit
        omega
      · intro fd' ne
        refine other fd' (by simp) ?_ (by rw [tally]; rfl)
        intro events modified same
        exact absurd (Op.reqWrite.inj same).1.symm ne
    · simp only [Reactor.count, if_neg requested] at tally
      refine idle (by simp) ?_ tally
      intro fd' events' modified' same
      obtain ⟨rfl, rfl, rfl⟩ := Op.reqWrite.inj same
      exact reqWrite_failed (eq_false_of_ne_true requested)

/-! ## Waits -/

/-- A wait takes credit from a watch to an event, and adds none. -/
theorem report_credit (h : Agree c.reactor) {event : Int × BitVec 32}
    (reported : c.report event = some t) (fd : Int) : t.credit fd ≤ c.credit fd := by
  unfold report at reported
  split at reported
  · cases reported
  · rename_i w watched
    obtain ⟨⟨enabled, -, -⟩, taken⟩ := Option.ite_none_right_eq_some.mp reported
    obtain rfl := Option.some.inj taken
    by_cases own : w.ptr.writeOf = some fd ∧ w.oneShot = true
    · -- the watch was armed, and is disabled now
      obtain ⟨e, he, active, watches⟩ := h.write_watched watched own.1
      have before : c.armed fd = true := by
        apply armed_iff.mpr
        rw [← watches] at enabled watched
        exact ⟨e, w, he, active, enabled, watched, own.2⟩
      have after : ∀ b : List Report, ({ c with
          disabled := if w.oneShot then Function.update c.disabled event.1 true else c.disabled
          batch := b } : Counted κ).armed fd = false := by
        intro b
        rw [Bool.eq_false_iff]
        intro armed
        obtain ⟨e', -, he', -, enabled', -⟩ := armed_iff.mp armed
        obtain rfl := Option.some.inj (he.symm.trans he')
        simp only [if_pos own.2, watches, Function.update_self, Bool.true_eq_false] at enabled'
      have isFor : (w.reported c.tally).isFor c.tally fd = true := by
        refine decide_eq_true ⟨own.1, own.2, ?_⟩
        exact congrArg (Option.map c.tally.subscriptions) own.1
      unfold credit
      rw [after, before]
      simp only [inFlight, List.countP_append, List.countP_cons, List.countP_nil, isFor, if_true,
        Bool.toNat_true, Bool.toNat_false]
      omega
    · apply credit_le
      · intro armed
        obtain ⟨e, w', he, active, enabled', watched', oneShot⟩ := armed_iff.mp armed
        refine armed_iff.mpr ⟨e, w', he, active, ?_, watched', oneShot⟩
        dsimp only at enabled'
        split at enabled'
        · by_cases same : e.writeCtx.fd = event.1
          · rw [same, Function.update_self] at enabled'
            cases enabled'
          · rw [Function.update_of_ne same] at enabled'
            exact enabled'
        · exact enabled'
      · have isFor : (w.reported c.tally).isFor c.tally fd = false :=
          decide_eq_false fun isFor => own ⟨isFor.1, isFor.2.1⟩
        simp only [inFlight, List.countP_append, List.countP_cons, List.countP_nil, isFor,
          Bool.false_eq_true, if_false]
        omega

/-- A report changes neither the reactor nor the tally, and is for a registration that is there. -/
theorem report_same {event : Int × BitVec 32} (reported : c.report event = some t) :
    t.reactor = c.reactor ∧ t.tally = c.tally ∧ (c.Known → t.Known) := by
  unfold report at reported
  split at reported
  · cases reported
  · rename_i w watched
    obtain ⟨-, taken⟩ := Option.ite_none_right_eq_some.mp reported
    obtain rfl := Option.some.inj taken
    refine ⟨rfl, rfl, fun known r hr fd n own number => ?_⟩
    rcases List.mem_append.mp hr with hr | hr
    · exact known r hr fd n own number
    · obtain rfl := List.mem_singleton.mp hr
      simp only [Watch.reported] at own number
      rw [own] at number
      exact Nat.le_of_eq (Option.some.inj number).symm

/-- A whole wait, one report after the other. -/
theorem wait_same {reports : List (Int × BitVec 32)} (waited : reports.foldlM report c = some t) :
    t.reactor = c.reactor ∧ t.tally = c.tally ∧ (c.Known → t.Known) := by
  induction reports generalizing c with
  | nil =>
    obtain rfl := Option.some.inj waited
    exact ⟨rfl, rfl, id⟩
  | cons event rest ih =>
    rw [List.foldlM_cons] at waited
    obtain ⟨u, reported, waited⟩ := Option.bind_eq_some_iff.mp waited
    obtain ⟨reactor, tally, known⟩ := report_same reported
    obtain ⟨reactor', tally', known'⟩ := ih waited
    exact ⟨reactor'.trans reactor, tally'.trans tally, known' ∘ known⟩

theorem wait_credit (h : Agree c.reactor) {reports : List (Int × BitVec 32)}
    (waited : reports.foldlM report c = some t) (fd : Int) : t.credit fd ≤ c.credit fd := by
  induction reports generalizing c with
  | nil =>
    obtain rfl := Option.some.inj waited
    exact Nat.le_refl _
  | cons event rest ih =>
    rw [List.foldlM_cons] at waited
    obtain ⟨u, reported, waited⟩ := Option.bind_eq_some_iff.mp waited
    obtain ⟨reactor, -⟩ := report_same reported
    exact Nat.le_trans (ih (reactor ▸ h) waited) (report_credit h reported fd)

/-! ## Dispatch and clean-up -/

/-- The dispatch of an event spends the credit it carries. -/
theorem moves_dispatch (asked : c.Asked .dispatch) (step : c.step .dispatch = some t) (fd : Int) :
    Move (c.tally.account fd (c.credit fd)) (t.tally.account fd (t.credit fd)) := by
  simp only [Counted.step] at step
  split at step
  · cases step
  · rename_i r rest head
    obtain rfl := Option.some.inj step
    -- without the event there is no more credit than with it
    have passed : ∀ (tally : Tally Int) fd, tally.subscriptions = c.tally.subscriptions →
        ({ c with batch := rest, tally := tally } : Counted κ).credit fd +
          (if r.isFor c.tally fd then 1 else 0) = c.credit fd := by
      intro tally fd same
      unfold credit inFlight
      simp only [head, List.countP_cons, Report.isFor, same]
      exact Nat.add_assoc ..
    have idle : Move (c.tally.account fd (c.credit fd))
        (c.tally.account fd (({ c with batch := rest } : Counted κ).credit fd)) := by
      apply c.tally.moves_idle
      intro fd
      have := passed c.tally fd rfl
      omega
    cases own : r.ptr.writeOf with
    | none => exact idle
    | some x =>
      by_cases invoked : (c.reactor.invokes r.ptr).isSome
      · simp only [invoked, if_true]
        have carried := passed (c.tally.invoke x) x rfl
        rw [if_pos (asked r rest x head own invoked)] at carried
        apply c.tally.moves_invoke x
        · exact Nat.le_of_eq carried
        · intro fd' _
          have := passed (c.tally.invoke x) fd' rfl
          omega
      · simp only [invoked, Bool.false_eq_true, if_false]
        exact idle

/-- A clean-up makes no watch. -/
theorem cleanup_interest (s : Reactor κ) {y : Int} {w : Watch}
    (watched : s.cleanup.kernel.interest y = some w) : s.kernel.interest y = some w := by
  have kept : s.cleanup.kernel.interest y = some w → s.kernel.interest y = some w := by
    apply cleanup_loop (P := fun t => t.kernel.interest y = some w → s.kernel.interest y = some w)
    · intro t x h hw
      apply h
      unfold Reactor.cleanupFd at hw
      split at hw
      · exact hw
      · rename_i e he
        split at hw
        · split at hw
          · change Function.update t.kernel.interest e.writeCtx.fd none y = some w at hw
            by_cases closed : y = e.writeCtx.fd
            · rw [closed, Function.update_self] at hw
              cases hw
            · rw [Function.update_of_ne closed] at hw
              exact hw
          · exact hw
        · exact hw
    · exact id
  exact kept watched

/-- A clean-up arms nothing. -/
theorem cleanup_credit (fd : Int) :
    ({ c with reactor := c.reactor.cleanup } : Counted κ).credit fd ≤ c.credit fd := by
  apply credit_le
  · intro armed
    obtain ⟨e, w, he, active, enabled, watched, oneShot⟩ := armed_iff.mp armed
    exact armed_iff.mpr ⟨e, w, cleanup_entry _ he, active, enabled, cleanup_interest _ watched,
      oneShot⟩
  · exact Nat.le_refl _

/-! ## Runs -/

/-- **Every step that meets the condition moves every account.** -/
theorem moves (h : Agree c.reactor) (known : c.Known) {action : Action κ} (asked : c.Asked action)
    (step : c.step action = some t) (fd : Int) :
    Move (c.tally.account fd (c.credit fd)) (t.tally.account fd (t.credit fd)) := by
  cases action with
  | call op => exact moves_call h known step fd
  | wait reports =>
    obtain ⟨-, waited⟩ := Option.ite_none_right_eq_some.mp step
    obtain ⟨-, tally, -⟩ := wait_same waited
    rw [tally]
    exact c.tally.moves_idle (wait_credit h waited) fd
  | dispatch => exact moves_dispatch asked step fd
  | cleanup =>
    obtain ⟨-, cleaned⟩ := Option.ite_none_right_eq_some.mp step
    obtain rfl := Option.some.inj cleaned
    exact c.tally.moves_idle cleanup_credit fd

/-- A call takes no registration back. -/
theorem count_subscriptions (s : Reactor κ) (tally : Tally Int) (op : Op κ) (fd : Int) :
    tally.subscriptions fd ≤ (s.count tally op).subscriptions fd := by
  unfold Reactor.count
  split
  · rename_i x cb dupFd added
    split
    · by_cases own : fd = x
      · subst own
        rw [Tally.subscribe_subscriptions]
        exact Nat.le_succ _
      · exact Nat.le_of_eq (Tally.subscribe_subscriptions_of_ne _ own).symm
    · exact Nat.le_refl _
  · split
    · exact Nat.le_refl _
    · exact Nat.le_refl _
  · exact Nat.le_refl _

/-- What the moves rest on. -/
theorem step_keeps (h : Agree c.reactor ∧ c.Known) {action : Action κ}
    (step : c.step action = some t) : Agree t.reactor ∧ t.Known := by
  obtain ⟨agree, known⟩ := h
  cases action with
  | call op =>
    obtain ⟨allowed, reactor, batch, tally, -⟩ := step_call step
    constructor
    · have called : c.reactor.call op = some t.reactor := by
        rw [reactor]
        exact if_pos allowed
      exact agree.call called
    · intro r hr fd n own number
      rw [batch] at hr
      rw [tally]
      exact Nat.le_trans (known r hr fd n own number) (count_subscriptions ..)
  | wait reports =>
    obtain ⟨-, waited⟩ := Option.ite_none_right_eq_some.mp step
    obtain ⟨reactor, -, knows⟩ := wait_same waited
    exact ⟨reactor ▸ agree, knows known⟩
  | dispatch =>
    simp only [Counted.step] at step
    split at step
    · cases step
    · rename_i r rest head
      obtain rfl := Option.some.inj step
      refine ⟨agree, fun r' hr fd n own number => ?_⟩
      have before := known r' (head ▸ List.mem_cons_of_mem r hr) fd n own number
      dsimp only
      split
      · exact before
      · split
        · exact before
        · exact before
  | cleanup =>
    obtain ⟨-, cleaned⟩ := Option.ite_none_right_eq_some.mp step
    obtain rfl := Option.some.inj cleaned
    exact ⟨agree.cleanup, known⟩

/-- **Write notifications of the epoll reactor are one-shot** in every run in which the events that
invoke a write callback were asked for. -/
theorem bounded (eventFd : Nat) (pollIn : BitVec 32) (actions : List (Action κ))
    (asked : Lts.AllSteps step Asked (init eventFd pollIn) actions) :
    Lts.AllStates step (fun c => c.tally.Bounded) (init eventFd pollIn) actions := by
  refine never_ahead tally credit (I := fun c => Agree c.reactor ∧ c.Known) ?_ ?_ asked ?_ ?_
  · intro c action t h step
    exact step_keeps h step
  · intro c action t h asked step
    exact moves h.1 h.2 asked step
  · exact ⟨.init eventFd pollIn, fun r hr => by cases hr⟩
  · intro fd
    exact Nat.le_refl 0

end Counted

end Bfc.EpollReactor
