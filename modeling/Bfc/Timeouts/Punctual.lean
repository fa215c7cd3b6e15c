import Bfc.Timeouts.Loop

/-!
# No timer is late by more than a wait and two stretches of work

A timer that is seen bounds the wait that comes next, and is extracted by the `schedule` call after
it. What a wait adds is its rounding, which is less than `minimum_timer_step`, and what it overruns;
the rest is the work between the waits. A wait that is interrupted adds as much again, because
`continue` skips the `schedule` call.

All this is for times that are not negative, a clock whose nanoseconds are stored as they are, and a
limit of `cv_reactor` that is not stored as a negative number: `wait_for` could make a long wait of
one.

The invariant follows a timer through the phases of a pass: until the wait, the last wait has ended
in time; during it, its end is in time; and after it again, up to the call that runs the timer.
-/

namespace Bfc.Timeouts.Loop

open Lts Timers

variable {κ : Type*}

/-! ## Limits -/

/-- The earliest deadline is at most that of any timer. -/
theorem earliest_of_mem {timer : Timer (Option κ)} {id : TimerId} (mem : id ∈ timer.cbMap.keys) :
    ∃ d, Earliest timer d ∧ d ≤ id.deadline := by
  have spec := getNextDeadlineUs_spec timer
  cases next : timer.getNextDeadlineUs with
  | none =>
    rw [next] at spec
    rw [spec] at mem
    cases mem
  | some d =>
    rw [next] at spec
    exact ⟨d, ⟨spec.1, spec.2⟩, spec.2 id mem⟩

/-- A wait is limited by what is left of the earliest deadline, but for its rounding. -/
theorem limitUs_le {waits : Waits} (stored : waits.LimitStored) {timer : Timer (Option κ)}
    {deadlineUs nowUs : Int} (deadline : IsTime deadlineUs) (now : IsTime nowUs)
    (earliest : Earliest timer deadlineUs) (queueBacklog : Bool) :
    ∃ limitUs, waits.limitUs timer queueBacklog nowUs = some limitUs ∧ 0 ≤ limitUs ∧
      limitUs < remaining deadlineUs nowUs + waits.minimumTimerStep := by
  have nonneg : 0 ≤ remaining deadlineUs nowUs := le_max_left _ _
  cases waits with
  | poll =>
    have bounded := pollBounded deadline now earliest queueBacklog
    refine ⟨_, if_neg (Int.not_lt.mpr bounded.nonneg),
      Int.mul_nonneg bounded.nonneg (by decide), ?_⟩
    have within := bounded.within
    show _ < _ + ((1000 : Nat) : Int)
    omega
  | epollPwait2 =>
    cases queueBacklog with
    | true => exact ⟨0, rfl, Int.le_refl 0, Int.lt_add_of_le_of_pos nonneg (by decide)⟩
    | false =>
      obtain ⟨ts, value, normalised, whole⟩ := epollExact deadline now earliest
      have sec := normalised.sec
      have nsec := normalised.nsec
      refine ⟨ts.tvSec * 1000000 + ts.tvNsec / 1000, by rw [Waits.limitUs, value]; rfl, ?_, ?_⟩
      · omega
      · show _ < _ + ((1 : Nat) : Int)
        omega
  | epollWait =>
    cases queueBacklog with
    | true => exact ⟨0, rfl, Int.le_refl 0, Int.lt_add_of_le_of_pos nonneg (by decide)⟩
    | false =>
      have bounded := epollBounded deadline now earliest
      refine ⟨_, if_neg (Int.not_lt.mpr bounded.nonneg),
        Int.mul_nonneg bounded.nonneg (by decide), ?_⟩
      have within := bounded.within
      show _ < _ + ((1000 : Nat) : Int)
      omega
  | cv timeoutMs =>
    have value := CvReactor.timeoutUs_eq deadline now earliest timeoutMs
    have positive : 0 ≤ int64 (1000 * timeoutMs.toNat : Nat) := stored
    have limit := min_le_left (deadlineUs - nowUs) (int64 (1000 * timeoutMs.toNat : Nat))
    have rest : deadlineUs - nowUs ≤ remaining deadlineUs nowUs := le_max_right _ _
    refine ⟨_, rfl, ?_, ?_⟩
    · rw [value]
      split
      · exact Int.le_refl 0
      · exact le_min (by omega) positive
    · rw [value]
      show _ < _ + ((1 : Nat) : Int)
      split
      · omega
      · omega

/-- A wait does not last longer than its limit. -/
theorem lastsUs_le (waits : Waits) {startUs limitUs : Int} (clock : IsTime (1000 * startUs))
    (nonneg : 0 ≤ limitUs) : waits.lastsUs startUs limitUs ≤ limitUs := by
  cases waits with
  | cv timeoutMs =>
    have within := waitForNs_le nonneg clock
    show waitForNs limitUs (1000 * startUs) / 1000 ≤ limitUs
    omega
  | poll | epollPwait2 | epollWait => exact Int.le_refl _

/-! ## The invariant -/

/-- What one wait and one stretch of work take, beyond what is waited for. -/
def Pace.passUs (pace : Pace) (waits : Waits) : Nat :=
  pace.workUs + pace.overrunUs + waits.minimumTimerStep

section Invariant

variable (waits : Waits) (pace : Pace)

/-- A timer that was due at `dueUs` is in time for its phase, when `slackUs` is what interrupted
waits have taken. -/
def InTime (w : World κ) (slackUs : Nat) (id : TimerId) (dueUs : Int) : Prop :=
  match w.phase with
  | .top => w.sinceUs ≤ dueUs + slackUs
  | .asked timer => w.sinceUs ≤ dueUs + slackUs ∧ id ∈ timer.cbMap.keys
  | .clocked nowUs limitUs => w.sinceUs ≤ dueUs + slackUs ∧
      ∃ limit, limitUs = some limit ∧ 0 ≤ limit ∧
        limit < max 0 (id.deadline - nowUs) + waits.minimumTimerStep
  | .waiting startUs limitUs => ∃ limit, limitUs = some limit ∧
      startUs + max 0 limit + pace.overrunUs ≤ dueUs + slackUs + pace.passUs waits
  | .working => w.sinceUs ≤ dueUs + slackUs + pace.passUs waits
  | .stamped _ => w.sinceUs ≤ dueUs + slackUs + pace.passUs waits
  | .calling _ => w.sinceUs ≤ dueUs + slackUs + pace.passUs waits ∧
      (id ∈ w.timers.pending → w.sinceUs ≤ dueUs)
  | .returned => True

/-- What holds of the phase itself. -/
def PhaseHolds (w : World κ) : Prop :=
  match w.phase with
  | .asked timer => ∀ id ∈ timer.cbMap.keys, id ∈ w.timers.created
  | .clocked nowUs _ => w.sinceUs ≤ nowUs
  | .stamped nowUs => w.sinceUs ≤ nowUs
  | .calling c => c < w.timers.calls.length
  | _ => True

/-- The invariant. -/
structure Punctual (w : World κ) : Prop where
  accounted : Timers.World.Accounted w.timers
  since : w.sinceUs ≤ w.nowUs
  inPhase : ∀ untilUs ∈ w.phase.untilUs pace w.sinceUs, w.nowUs ≤ untilUs
  holds : PhaseHolds w
  known : ∀ id, id ∈ w.timers.created ↔ id ∈ w.unseen ∨ id ∈ w.seen.map Prod.fst
  blind : w.phase.blind = false → w.phase ≠ .returned → w.unseen = []
  past : ∀ r ∈ w.seen, r.2 ≤ w.nowUs
  inTime : ∀ r ∈ w.seen, w.held r.1 →
    InTime waits pace w (w.interrupted * pace.passUs waits) r.1 (max r.1.deadline r.2)

end Invariant

/-! ## What a step of the timer leaves -/

/-- A timer that had been created is pending only if it was. -/
theorem pending_of_step {u v : Timers.World κ} {e : Event κ} (h : Timers.World.Accounted u)
    (step : Timers.World.Step u e v) {id : TimerId} (created : id ∈ u.created)
    (pending : id ∈ v.pending) : id ∈ u.pending := by
  have waited : ∀ (forUs : Int) (cb : Option κ) (nowUs : Int),
      id ∈ (u.armed (u.timer.waitUs forUs cb nowUs)).pending → id ∈ u.pending := by
    intro forUs cb nowUs mem
    have new : (u.timer.waitUs forUs cb nowUs).1 ∉ u.timer.cbMap.keys :=
      fun old => Nat.lt_irrefl _ (h.ctr_lt (h.created_of_pending old))
    rcases List.mem_cons.mp ((OrderedMap.keys_emplace new cb).mem_iff.mp mem) with rfl | mem
    · exact absurd (h.ctr_lt created) (Nat.lt_irrefl _)
    · exact mem
  cases e with
  | waitUs forUs cb nowUs => exact waited forUs cb nowUs (Option.some.inj step ▸ pending)
  | waitMs forMs cb nowUs => exact waited _ cb nowUs (Option.some.inj step ▸ pending)
  | getNextDeadlineUs => exact Option.some.inj step ▸ pending
  | cancel other =>
    obtain rfl := Option.some.inj step
    have keys : (u.timer.cancel other).2.cbMap.keys = u.pending.erase other :=
      OrderedMap.keys_erase _ _
    have still : id ∈ (u.timer.cancel other).2.cbMap.keys := pending
    rw [keys] at still
    exact List.mem_of_mem_erase still
  | schedule nowUs =>
    obtain rfl := Option.some.inj step
    exact (extract_perm u.timer nowUs).mem_iff.mpr (List.mem_append_left _ pending)
  | callback c =>
    obtain ⟨call, timer, -, -, -, ⟨-, rfl⟩ | ⟨-, rfl⟩⟩ :=
      Timers.World.Accounted.callback_cases step
    · exact pending
    · exact pending
  | callbackThrows c =>
    obtain ⟨call, -, -, -, rfl⟩ := Timers.World.Accounted.callbackThrows_cases step
    exact pending
  | scheduleReturns c =>
    obtain ⟨call, -, -, -, -, rfl⟩ := Timers.World.Accounted.returns_cases step
    exact pending

/-- The reactor's own call is left alone by the steps that are not its own. -/
theorem calls_of_step {u v : Timers.World κ} {e : Event κ} (step : Timers.World.Step u e v)
    {c : Nat} (other : Phase.own (.calling c : Phase κ) e = false) (there : c < u.calls.length) :
    v.calls[c]? = u.calls[c]? := by
  cases e with
  | waitUs forUs cb nowUs => exact Option.some.inj step ▸ rfl
  | waitMs forMs cb nowUs => exact Option.some.inj step ▸ rfl
  | getNextDeadlineUs => exact Option.some.inj step ▸ rfl
  | cancel other => exact Option.some.inj step ▸ rfl
  | schedule nowUs =>
    obtain rfl := Option.some.inj step
    exact List.getElem?_append_left there
  | callback d =>
    obtain ⟨call, timer, -, -, -, ⟨-, rfl⟩ | ⟨-, rfl⟩⟩ :=
      Timers.World.Accounted.callback_cases step
    · exact List.getElem?_set_ne (Ne.symm (beq_eq_false_iff_ne.mp other))
    · exact List.getElem?_set_ne (Ne.symm (beq_eq_false_iff_ne.mp other))
  | callbackThrows d =>
    obtain ⟨call, -, -, -, rfl⟩ := Timers.World.Accounted.callbackThrows_cases step
    exact List.getElem?_set_ne (Ne.symm (beq_eq_false_iff_ne.mp other))
  | scheduleReturns d =>
    obtain ⟨call, -, -, -, -, rfl⟩ := Timers.World.Accounted.returns_cases step
    exact List.getElem?_set_ne (Ne.symm (beq_eq_false_iff_ne.mp other))

namespace Punctual

variable {waits : Waits} {pace : Pace} {w w' : World κ}

theorem tick (h : Punctual waits pace w) {us : Nat}
    (step : World.Step waits pace w (.tick us) w') : Punctual waits pace w' := by
  simp only [World.Step, World.step] at step
  split at step
  · rename_i allowed
    obtain rfl := Option.some.inj step
    exact { h with
      since := Int.le_trans h.since (Int.le_add_of_nonneg_right (Int.natCast_nonneg us))
      inPhase := allowed
      past := fun r hr =>
        Int.le_trans (h.past r hr) (Int.le_add_of_nonneg_right (Int.natCast_nonneg us)) }
  · cases step

/-- A timer that is only now seen. -/
theorem inTime_now {id : TimerId} {slackUs : Nat} {dueUs : Int} (blind : w.phase.blind = false)
    (dueBy : w.sinceUs ≤ dueUs) : InTime waits pace w slackUs id dueUs := by
  unfold InTime
  split
  · omega
  · rename_i there
    rw [there] at blind
    cases blind
  · rename_i there
    rw [there] at blind
    cases blind
  · rename_i there
    rw [there] at blind
    cases blind
  · omega
  · omega
  · exact ⟨by omega, fun _ => dueBy⟩
  · trivial

/-- A step in which the phase stays keeps a timer in time. -/
theorem inTime_stays {id : TimerId} {slackUs : Nat} {dueUs : Int} (phase : w'.phase = w.phase)
    (since : w'.sinceUs = w.sinceUs)
    (pending : id ∈ w'.timers.pending → id ∈ w.timers.pending)
    (h : InTime waits pace w slackUs id dueUs) : InTime waits pace w' slackUs id dueUs := by
  unfold InTime at h ⊢
  rw [phase, since]
  revert h
  cases w.phase with
  | calling c => exact fun h => ⟨h.1, fun still => h.2 (pending still)⟩
  | top | asked | clocked | waiting | working | stamped | returned => exact fun h => h

/-- What a phase holds is not undone by the timers. -/
theorem holds_of_later {w next : World κ} (holds : PhaseHolds w) (phase : next.phase = w.phase)
    (since : next.sinceUs = w.sinceUs) (later : w.timers.Later next.timers) :
    PhaseHolds next := by
  unfold PhaseHolds at holds ⊢
  rw [phase, since]
  split
  · rename_i there
    rw [there] at holds
    exact fun id mem => later.created.subset (holds id mem)
  · rename_i there
    rw [there] at holds
    exact holds
  · rename_i there
    rw [there] at holds
    exact holds
  · rename_i c there
    rw [there] at holds
    obtain ⟨call, hc, -⟩ := later.calls c _ (List.getElem?_eq_getElem holds)
    exact (List.getElem?_eq_some_iff.mp hc).1
  · trivial

theorem timer (h : Punctual waits pace w) {e : Event κ}
    (step : World.Step waits pace w (.timer e) w') : Punctual waits pace w' := by
  simp only [World.Step, World.step] at step
  split at step
  · cases step
  · rename_i other
    have other := Bool.eq_false_iff.mpr other
    obtain ⟨timers, moved, rfl⟩ := Option.map_eq_some_iff.mp step
    have later := Timers.World.later_step moved
    obtain ⟨new, more⟩ := later.created
    have drop : timers.created.drop w.timers.created.length = new := by
      rw [← more, List.drop_left]
    have holds : ∀ next : World κ, next.phase = w.phase → next.sinceUs = w.sinceUs →
        next.timers = timers → PhaseHolds next := fun next phase since same =>
      holds_of_later h.holds phase since (same ▸ later)
    -- a timer that was seen is in its place, or has left it
    have kept : ∀ next : World κ, next.phase = w.phase → next.sinceUs = w.sinceUs →
        next.timers = timers → next.interrupted = w.interrupted → ∀ r ∈ w.seen, next.held r.1 →
        InTime waits pace next (next.interrupted * pace.passUs waits) r.1
          (max r.1.deadline r.2) := by
      intro next phase since same interrupted r hr held
      have created := (h.known r.1).mpr (.inr (List.mem_map_of_mem hr))
      have back : r.1 ∈ next.timers.pending → r.1 ∈ w.timers.pending := by
        rw [same]
        exact pending_of_step h.accounted moved created
      rw [interrupted]
      refine inTime_stays phase since back (h.inTime r hr ?_)
      rcases held with pending | ⟨c, call, there, hc, mem⟩
      · exact .inl (back pending)
      · rw [phase] at there
        have holds := h.holds
        unfold PhaseHolds at holds
        rw [there] at holds other
        rw [same, calls_of_step moved other holds] at hc
        exact .inr ⟨c, call, there, hc, mem⟩
    have accounted := h.accounted.step _ moved
    unfold World.moved
    rw [drop]
    cases blind : w.phase.blind with
    | true =>
      rw [if_pos rfl]
      refine { h with
        accounted := accounted
        holds := holds _ rfl rfl rfl
        known := ?_
        blind := ?_
        inTime := kept _ rfl rfl rfl rfl }
      · intro id
        rw [← more, List.mem_append, List.mem_append, h.known id]
        tauto
      · intro seeing
        rw [blind] at seeing
        cases seeing
    | false =>
      rw [if_neg (by decide)]
      refine { h with
        accounted := accounted
        holds := holds _ rfl rfl rfl
        known := ?_
        past := ?_
        inTime := ?_ }
      · intro id
        rw [← more, List.mem_append, List.map_append, List.mem_append, h.known id, List.map_map]
        simp only [Function.comp_def, List.map_id']
        tauto
      · intro r hr
        rcases List.mem_append.mp hr with hr | hr
        · exact h.past r hr
        · obtain ⟨id, -, rfl⟩ := List.mem_map.mp hr
          exact Int.le_refl _
      · intro r hr held
        rcases List.mem_append.mp hr with hr | hr
        · exact kept { w with timers := timers, seen := w.seen ++ _ } rfl rfl rfl rfl r hr held
        · obtain ⟨id, -, rfl⟩ := List.mem_map.mp hr
          exact inTime_now blind (Int.le_trans h.since (le_max_right _ _))

theorem ask (h : Punctual waits pace w) (step : World.Step waits pace w .ask w') :
    Punctual waits pace w' := by
  simp only [World.Step, World.step] at step
  split at step
  · rename_i top
    obtain rfl := Option.some.inj step
    refine { h with inPhase := ?_, holds := ?_, blind := ?_, inTime := ?_ }
    · have inPhase := h.inPhase
      rw [top] at inPhase
      exact inPhase
    · exact fun id mem => h.accounted.created_of_pending mem
    · intro blind
      cases blind
    · intro r hr held
      have pending : r.1 ∈ w.timers.pending := by
        rcases held with pending | ⟨c, call, there, -⟩
        · exact pending
        · cases there
      have inTime := h.inTime r hr (.inl pending)
      unfold InTime at inTime
      rw [top] at inTime
      exact ⟨inTime, pending⟩
  · cases step

theorem clock (h : Punctual waits pace w) (stored : waits.LimitStored) {queueBacklog : Bool}
    (now : IsTime w.nowUs) (times : ∀ id ∈ w.timers.created, IsTime id.deadline)
    (step : World.Step waits pace w (.clock queueBacklog) w') : Punctual waits pace w' := by
  simp only [World.Step, World.step] at step
  split at step
  · rename_i timer asked
    obtain rfl := Option.some.inj step
    have created := h.holds
    have inPhase := h.inPhase
    unfold PhaseHolds at created
    rw [asked] at created inPhase
    refine { h with inPhase := inPhase, holds := h.since, blind := ?_, inTime := ?_ }
    · intro blind
      cases blind
    · intro r hr held
      have inTime := h.inTime r hr (held.imp_right fun ⟨c, _, there, _⟩ => by cases there)
      unfold InTime at inTime
      rw [asked] at inTime
      obtain ⟨d, earliest, first⟩ := earliest_of_mem inTime.2
      obtain ⟨other, mem, rfl⟩ := earliest.pending
      obtain ⟨limit, value, nonneg, le⟩ :=
        limitUs_le stored (times other (created other mem)) now earliest queueBacklog
      refine ⟨inTime.1, limit, value, nonneg, ?_⟩
      unfold remaining at le
      omega
  · cases step

/-- The wait ends in time: what was left of the deadline was left after the work. -/
theorem wait (h : Punctual waits pace w) (now : IsTime (1000 * w.nowUs))
    (step : World.Step waits pace w .wait w') : Punctual waits pace w' := by
  simp only [World.Step, World.step] at step
  split at step
  · rename_i nowUs limitUs clocked
    obtain rfl := Option.some.inj step
    have inPhase := h.inPhase
    have holds := h.holds
    unfold PhaseHolds at holds
    rw [clocked] at inPhase holds
    have work : w.nowUs ≤ w.sinceUs + pace.workUs := inPhase _ rfl
    refine { h with inPhase := ?_, holds := trivial, blind := ?_, inTime := ?_ }
    · intro untilUs ends
      obtain ⟨lasts, -, rfl⟩ := Option.map_eq_some_iff.mp ends
      show w.nowUs ≤ w.nowUs + max 0 lasts + pace.overrunUs
      omega
    · intro blind
      cases blind
    · intro r hr held
      have inTime := h.inTime r hr (held.imp_right fun ⟨c, _, there, _⟩ => by cases there)
      unfold InTime at inTime
      rw [clocked] at inTime
      obtain ⟨since, limit, rfl, nonneg, le⟩ := inTime
      refine ⟨waits.lastsUs w.nowUs limit, rfl, ?_⟩
      have lasts := lastsUs_le waits now nonneg
      generalize waits.lastsUs w.nowUs limit = lastsUs at lasts
      have dueBy : r.1.deadline ≤ max r.1.deadline r.2 := le_max_left _ _
      generalize max r.1.deadline r.2 = dueUs at since dueBy ⊢
      generalize w.interrupted * pace.passUs waits = slackUs at since
      show w.nowUs + max 0 lastsUs + pace.overrunUs ≤ dueUs + (slackUs : Nat) +
        (pace.workUs + pace.overrunUs + waits.minimumTimerStep : Nat)
      push_cast
      omega
  · cases step

/-- After the wait. -/
theorem awake (h : Punctual waits pace w) {startUs : Int} {limitUs : Option Int}
    (waiting : w.phase = .waiting startUs limitUs) {phase : Phase κ} {interrupted : Nat}
    (next : phase = .working ∧ interrupted = w.interrupted ∨
      phase = .top ∧ interrupted = w.interrupted + 1) :
    Punctual waits pace (w.awake phase interrupted) := by
  have inPhase := h.inPhase
  rw [waiting] at inPhase
  have notCalling : ∀ c, phase ≠ .calling c := by
    rcases next with ⟨rfl, -⟩ | ⟨rfl, -⟩ <;> intro c hc <;> cases hc
  have seen : ∀ r ∈ (w.awake phase interrupted).seen, r ∈ w.seen ∨ r.2 = w.nowUs := by
    intro r hr
    rcases List.mem_append.mp hr with hr | hr
    · exact .inl hr
    · obtain ⟨id, -, rfl⟩ := List.mem_map.mp hr
      exact .inr rfl
  have late : ∀ r ∈ (w.awake phase interrupted).seen, (w.awake phase interrupted).held r.1 →
      w.nowUs ≤ max r.1.deadline r.2 + (w.interrupted * pace.passUs waits : Nat) +
        (pace.passUs waits : Nat) := by
    intro r hr held
    rcases seen r hr with hr | now
    · have pending : r.1 ∈ w.timers.pending := by
        rcases held with pending | ⟨c, call, there, -⟩
        · exact pending
        · exact absurd there (notCalling c)
      have inTime := h.inTime r hr (.inl pending)
      unfold InTime at inTime
      rw [waiting] at inTime
      obtain ⟨limit, rfl, le⟩ := inTime
      exact Int.le_trans (inPhase _ rfl) le
    · have dueBy : r.2 ≤ max r.1.deadline r.2 := le_max_right _ _
      omega
  refine
    { accounted := h.accounted
      since := Int.le_refl _
      inPhase := ?_
      holds := ?_
      known := ?_
      blind := fun _ _ => rfl
      past := ?_
      inTime := ?_ }
  · intro untilUs ends
    show w.nowUs ≤ untilUs
    rcases next with ⟨rfl, -⟩ | ⟨rfl, -⟩ <;>
      · obtain rfl := Option.some.inj ends
        exact Int.le_add_of_nonneg_right (Int.natCast_nonneg _)
  · rcases next with ⟨rfl, -⟩ | ⟨rfl, -⟩ <;> trivial
  · intro id
    show id ∈ w.timers.created ↔ id ∈ [] ∨ id ∈ (w.seen ++ w.unseen.map _).map Prod.fst
    rw [h.known id, List.map_append, List.mem_append, List.map_map]
    simp only [Function.comp_def, List.map_id', List.not_mem_nil, false_or]
    exact or_comm
  · intro r hr
    rcases seen r hr with hr | now
    · exact h.past r hr
    · exact Int.le_of_eq now
  · intro r hr held
    have now := late r hr held
    rcases next with ⟨rfl, rfl⟩ | ⟨rfl, rfl⟩
    · exact now
    · show w.nowUs ≤ max r.1.deadline r.2 + ((w.interrupted + 1) * pace.passUs waits : Nat)
      rw [Nat.add_mul, Nat.one_mul, Int.natCast_add, ← Int.add_assoc]
      exact now

theorem stamp (h : Punctual waits pace w) (step : World.Step waits pace w .stamp w') :
    Punctual waits pace w' := by
  simp only [World.Step, World.step] at step
  split at step
  · rename_i working
    obtain rfl := Option.some.inj step
    have inPhase := h.inPhase
    rw [working] at inPhase
    refine { h with inPhase := inPhase, holds := h.since, blind := ?_, inTime := ?_ }
    · exact fun _ _ => h.blind (by rw [working]; rfl) (by rw [working]; intro hc; cases hc)
    · intro r hr held
      have inTime := h.inTime r hr (held.imp_right fun ⟨c, _, there, _⟩ => by cases there)
      unfold InTime at inTime
      rw [working] at inTime
      exact inTime
  · cases step

/-- What the `schedule` call does not extract is not due. -/
theorem schedule (h : Punctual waits pace w) (step : World.Step waits pace w .schedule w') :
    Punctual waits pace w' := by
  simp only [World.Step, World.step] at step
  split at step
  · rename_i nowUs stamped
    obtain ⟨timers, called, rfl⟩ := Option.map_eq_some_iff.mp step
    have accounted := h.accounted.step _ called
    have call := Timers.World.schedule_call called
    obtain rfl := Option.some.inj called
    have inPhase := h.inPhase
    have holds := h.holds
    unfold PhaseHolds at holds
    rw [stamped] at inPhase holds
    refine { h with
      accounted := accounted
      inPhase := inPhase
      holds := ?_
      blind := ?_
      inTime := ?_ }
    · exact (List.getElem?_eq_some_iff.mp call).1
    · exact fun _ _ => h.blind (by rw [stamped]; rfl) (by rw [stamped]; intro hc; cases hc)
    · intro r hr held
      have split := extract_perm w.timers.timer nowUs
      have pending : r.1 ∈ w.timers.pending := by
        refine split.mem_iff.mpr (List.mem_append.mpr ?_)
        rcases held with pending | ⟨c, call', there, hc, mem⟩
        · exact .inl pending
        · obtain rfl := Phase.calling.inj there
          obtain rfl := Option.some.inj (call.symm.trans hc)
          exact .inr mem
      have inTime := h.inTime r hr (.inl pending)
      unfold InTime at inTime
      rw [stamped] at inTime
      refine ⟨inTime, fun still => ?_⟩
      have notDue : nowUs < r.1.deadline := by
        obtain ⟨e, he, same⟩ := List.mem_map.mp (show r.1 ∈
          (w.timers.timer.extract nowUs).2.cbMap.entries.map Prod.fst from still)
        rw [(extract_spec w.timers.timer nowUs).2.1] at he
        have notDue := (List.mem_filter.mp he).2
        rw [same, due, Bool.not_eq_true', decide_eq_false_iff_not] at notDue
        exact Int.not_le.mp notDue
      exact Int.le_trans (Int.le_trans holds (Int.le_of_lt notDue)) (le_max_left _ _)
  · cases step

/-- `run` is over. -/
theorem leave (h : Punctual waits pace w) (accounted : Timers.World.Accounted w'.timers)
    (ended : w' = { w with timers := w'.timers, phase := .returned })
    (created : w'.timers.created = w.timers.created) : Punctual waits pace w' := by
  rw [ended]
  refine
    { accounted := accounted
      since := h.since
      inPhase := fun untilUs ends => by cases ends
      holds := trivial
      known := fun id => by rw [← h.known id, ← created]
      blind := fun _ going => absurd rfl going
      past := h.past
      inTime := fun _ _ _ => trivial }

theorem callback (h : Punctual waits pace w) (step : World.Step waits pace w .callback w') :
    Punctual waits pace w' := by
  simp only [World.Step, World.step] at step
  split at step
  · rename_i c calling
    obtain ⟨timers, called, rfl⟩ := Option.map_eq_some_iff.mp step
    have accounted := h.accounted.step _ called
    have holds := h.holds
    unfold PhaseHolds at holds
    rw [calling] at holds
    obtain ⟨call, timer, hc, going, next, ⟨-, rfl⟩ | ⟨-, rfl⟩⟩ :=
      Timers.World.Accounted.callback_cases called
    · -- the call goes on
      have there := Tables.set_here hc { call with position := call.position + 1 }
      have on : World.threw { w.timers with
          calls := w.timers.calls.set c { call with position := call.position + 1 }
          ran := w.timers.ran ++ [(c, timer.1)] } c = false := by
        rw [World.threw, there, Option.any_some]
        exact going
      rw [on, if_neg (by decide), ← calling]
      refine { h with accounted := accounted, holds := ?_, inTime := ?_ }
      · unfold PhaseHolds
        dsimp only
        rw [calling]
        show c < (w.timers.calls.set c _).length
        rwa [List.length_set]
      · intro r hr held
        refine inTime_stays rfl rfl (fun still => still) (h.inTime r hr (held.imp_right ?_))
        rintro ⟨d, call', same, hd, mem⟩
        obtain rfl := Phase.calling.inj (calling.symm.trans same)
        obtain rfl := Option.some.inj (there.symm.trans hd)
        refine ⟨c, call, same, hc, ?_⟩
        rw [Call.left_cons next]
        exact List.mem_cons_of_mem _ mem
    · -- the callback is empty
      have there := Tables.set_here hc { call with threw := true }
      have threw : World.threw { w.timers with
          calls := w.timers.calls.set c { call with threw := true } } c = true := by
        rw [World.threw, there, Option.any_some]
      exact h.leave accounted (by rw [threw, if_pos rfl]) rfl
  · cases step

theorem callbackThrows (h : Punctual waits pace w)
    (step : World.Step waits pace w .callbackThrows w') : Punctual waits pace w' := by
  simp only [World.Step, World.step] at step
  split at step
  · obtain ⟨timers, called, rfl⟩ := Option.map_eq_some_iff.mp step
    have accounted := h.accounted.step _ called
    obtain ⟨call, -, -, -, rfl⟩ := Timers.World.Accounted.callbackThrows_cases called
    exact h.leave accounted rfl rfl
  · cases step

theorem scheduleReturns (h : Punctual waits pace w)
    (step : World.Step waits pace w .scheduleReturns w') : Punctual waits pace w' := by
  simp only [World.Step, World.step] at step
  split at step
  · rename_i c calling
    obtain ⟨timers, called, rfl⟩ := Option.map_eq_some_iff.mp step
    have accounted := h.accounted.step _ called
    obtain ⟨call, -, -, -, -, rfl⟩ := Timers.World.Accounted.returns_cases called
    have inPhase := h.inPhase
    rw [calling] at inPhase
    refine { h with
      accounted := accounted
      inPhase := inPhase
      holds := trivial
      blind := ?_
      inTime := ?_ }
    · exact fun _ _ => h.blind (by rw [calling]; rfl) (by rw [calling]; intro hc; cases hc)
    · intro r hr held
      have pending : r.1 ∈ w.timers.pending := by
        rcases held with pending | ⟨d, call', there, -⟩
        · exact pending
        · cases there
      have inTime := h.inTime r hr (.inl pending)
      unfold InTime at inTime
      rw [calling] at inTime
      have ended := inTime.2 pending
      show w.sinceUs ≤ _
      omega
  · cases step

/-- **Every step keeps the timers in time**, at a time that the clock has, while all deadlines are
times. -/
theorem keeps (h : Punctual waits pace w) (stored : waits.LimitStored)
    (now : IsTime (1000 * w.nowUs)) (times : ∀ id ∈ w.timers.created, IsTime id.deadline)
    {l : Label κ} (step : World.Step waits pace w l w') : Punctual waits pace w' := by
  cases l with
  | tick us => exact h.tick step
  | timer e => exact h.timer step
  | ask => exact h.ask step
  | clock queueBacklog => exact h.clock stored (now.of_ns) times step
  | wait => exact h.wait now step
  | wakes =>
    simp only [World.Step, World.step] at step
    split at step
    · rename_i startUs limitUs waiting
      exact Option.some.inj step ▸ h.awake waiting (.inl ⟨rfl, rfl⟩)
    · cases step
  | interrupts =>
    simp only [World.Step, World.step] at step
    split at step
    · rename_i startUs limitUs waiting
      split at step
      · exact Option.some.inj step ▸ h.awake waiting (.inr ⟨rfl, rfl⟩)
      · cases step
    · cases step
  | stamp => exact h.stamp step
  | schedule => exact h.schedule step
  | callback => exact h.callback step
  | callbackThrows => exact h.callbackThrows step
  | scheduleReturns => exact h.scheduleReturns step
  | leave =>
    simp only [World.Step, World.step] at step
    split at step
    · exact Option.some.inj step ▸ h.leave h.accounted rfl rfl
    · split at step
      · cases step
      · exact Option.some.inj step ▸ h.leave h.accounted rfl rfl
    · cases step

/-- At the beginning. -/
theorem start {ms : List (Event κ)} {timers : Timers.World κ} {nowUs : Int}
    (before : Run Timers.World.Step {} ms timers) : Punctual waits pace (start nowUs timers) where
  accounted := Timers.World.Accounted.run before
  since := Int.le_refl _
  inPhase untilUs ends := by
    obtain rfl := Option.some.inj ends
    exact Int.le_add_of_nonneg_right (Int.natCast_nonneg _)
  holds := trivial
  known id := by
    show id ∈ timers.created ↔ id ∈ [] ∨ id ∈ (timers.created.map _).map Prod.fst
    rw [List.map_map]
    simp only [Function.comp_def, List.map_id', List.not_mem_nil, false_or]
  blind _ _ := rfl
  past r hr := by
    obtain ⟨id, -, rfl⟩ := List.mem_map.mp hr
    exact Int.le_refl _
  inTime r hr _ := by
    obtain ⟨id, -, rfl⟩ := List.mem_map.mp hr
    exact inTime_now rfl (le_max_right _ _)

end Punctual

/-- Time goes on, and what has been created stays so. -/
theorem later_of_step {waits : Waits} {pace : Pace} {w w' : World κ} {l : Label κ}
    (step : World.Step waits pace w l w') :
    w.nowUs ≤ w'.nowUs ∧ w.timers.created ⊆ w'.timers.created := by
  have called : ∀ {e : Event κ} {timers : Timers.World κ}, w.timers.step e = some timers →
      w.nowUs ≤ w.nowUs ∧ w.timers.created ⊆ timers.created := fun step =>
    ⟨Int.le_refl _, (Timers.World.later_step step).created.subset⟩
  have still : w.nowUs ≤ w.nowUs ∧ w.timers.created ⊆ w.timers.created :=
    ⟨Int.le_refl _, List.Subset.refl _⟩
  cases l with
  | tick us =>
    simp only [World.Step, World.step] at step
    split at step
    · obtain rfl := Option.some.inj step
      exact ⟨Int.le_add_of_nonneg_right (Int.natCast_nonneg us), List.Subset.refl _⟩
    · cases step
  | timer e =>
    simp only [World.Step, World.step] at step
    split at step
    · cases step
    · obtain ⟨timers, moved, rfl⟩ := Option.map_eq_some_iff.mp step
      unfold World.moved
      dsimp only
      split
      · exact called moved
      · exact called moved
  | schedule | callback | callbackThrows | scheduleReturns =>
    simp only [World.Step, World.step] at step
    split at step
    · obtain ⟨timers, moved, rfl⟩ := Option.map_eq_some_iff.mp step
      exact called moved
    · cases step
  | ask | clock queueBacklog | wait | wakes | stamp =>
    simp only [World.Step, World.step] at step
    split at step
    · exact Option.some.inj step ▸ still
    · cases step
  | interrupts | leave =>
    simp only [World.Step, World.step] at step
    repeat' split at step
    all_goals first | exact Option.some.inj step ▸ still | cases step

/-- Every run from the beginning, up to a time that the clock has. -/
theorem punctual_run {waits : Waits} {pace : Pace} {ms : List (Event κ)}
    {timers : Timers.World κ} {nowUs : Int} {ls : List (Label κ)} {w : World κ}
    (stored : waits.LimitStored) (before : Run Timers.World.Step {} ms timers)
    (run : Run (World.Step waits pace) (start nowUs timers) ls w) (first : 0 ≤ nowUs) :
    nowUs ≤ w.nowUs ∧ (1000 * w.nowUs < 2 ^ 63 → (∀ id ∈ w.timers.created, IsTime id.deadline) →
      Punctual waits pace w) := by
  induction run with
  | nil => exact ⟨Int.le_refl _, fun _ _ => Punctual.start before⟩
  | snoc _ step ih =>
    obtain ⟨on, grows⟩ := later_of_step step
    refine ⟨Int.le_trans ih.1 on, fun last times => ?_⟩
    have started := ih.1
    have known : ∀ id ∈ World.timers _ |>.created, IsTime id.deadline :=
      fun id mem => times id (grows mem)
    exact (ih.2 (by omega) known).keeps stored ⟨by omega, by omega⟩ known step

/-- **No timer is late by more than the waits and the work take.** From the beginning of `run` on,
in every order of steps by the reactor and anyone else, a timer is seen when it is created, unless
that is between the question for the next deadline and the end of the wait, and then it is seen at
that end. As long as its callback is not started, no more than two stretches of work, what a wait
overruns and `minimum_timer_step` have passed since its deadline, or since it was seen if that was
later; and as much again for each wait that was interrupted, less the second stretch. All times are
not negative, and stored as they are. -/
theorem timers_punctual {waits : Waits} {pace : Pace} {ms : List (Event κ)}
    {timers : Timers.World κ} {nowUs : Int} {ls : List (Label κ)} {w : World κ}
    (stored : waits.LimitStored) (before : Run Timers.World.Step {} ms timers)
    (run : Run (World.Step waits pace) (start nowUs timers) ls w) (first : 0 ≤ nowUs)
    (last : 1000 * w.nowUs < 2 ^ 63) (times : ∀ id ∈ w.timers.created, IsTime id.deadline) :
    (∀ id ∈ w.timers.created,
      id ∈ w.unseen ∨ ∃ seenUs, (id, seenUs) ∈ w.seen ∧ seenUs ≤ w.nowUs) ∧
    (w.phase.blind = false → w.phase ≠ .returned → w.unseen = []) ∧
    ∀ id seenUs, (id, seenUs) ∈ w.seen → w.held id → w.phase ≠ .returned →
      w.nowUs ≤ max id.deadline seenUs + (w.interrupted + 1) * pace.passUs waits + pace.workUs := by
  have h := (punctual_run stored before run first).2 last times
  refine ⟨fun id mem => ((h.known id).mp mem).imp_right fun mem => ?_, h.blind, ?_⟩
  · obtain ⟨⟨_, seenUs⟩, hr, rfl⟩ := List.mem_map.mp mem
    exact ⟨seenUs, hr, h.past _ hr⟩
  · intro id seenUs hr held going
    have inTime := h.inTime _ hr held
    have inPhase := h.inPhase
    rw [Int.add_mul, Int.one_mul]
    unfold InTime at inTime
    dsimp only at inTime
    generalize max id.deadline seenUs = dueUs at inTime ⊢
    push_cast at inTime
    generalize (w.interrupted : Int) * pace.passUs waits = slackUs at inTime ⊢
    have passUs : (0 : Int) ≤ pace.passUs waits := Int.natCast_nonneg _
    cases phase : w.phase with
    | waiting startUs limitUs =>
      rw [phase] at inTime inPhase
      obtain ⟨limit, rfl, le⟩ := inTime
      have now := Int.le_trans (inPhase _ rfl) le
      omega
    | returned => exact absurd phase going
    | top | asked | clocked | working | stamped | calling =>
      rw [phase] at inTime inPhase
      have now := inPhase _ rfl
      dsimp only at inTime
      omega

/-- A timer of 1500 µs keeps `poll` waiting for a millisecond, and the next pass is in time. -/
theorem timers_punctual_poll :
    ∃ w : World Nat, ([.timer (.waitUs 1500 (some 7) 0), .ask, .clock false, .tick 10, .wait,
        .tick 1005, .wakes, .stamp, .schedule, .scheduleReturns, .ask, .clock false, .wait, .wakes,
        .tick 20] : List (Label Nat)).foldlM (World.step .poll ⟨30, 40⟩) (start 0 {}) = some w ∧
      w.nowUs = 1035 ∧
      (w.nowUs ≤ max 1500 0 + (w.interrupted + 1) * Pace.passUs ⟨30, 40⟩ .poll + 30) := by
  have run : Run (World.Step .poll ⟨30, 40⟩) (start 0 ({} : Timers.World Nat))
      [.timer (.waitUs 1500 (some 7) 0), .ask, .clock false, .tick 10, .wait, .tick 1005, .wakes,
        .stamp, .schedule, .scheduleReturns, .ask, .clock false, .wait, .wakes, .tick 20] _ :=
    run_of_foldlM rfl
  have stored : Waits.LimitStored .poll := trivial
  refine ⟨_, rfl, rfl, ?_⟩
  refine (timers_punctual stored Run.nil run (by decide) (by decide) ?_).2.2
    ⟨1500, 0⟩ 0 (by decide) (.inl (by decide)) (by intro h; cases h)
  intro id mem
  rw [List.mem_singleton.mp mem]
  exact ⟨by decide, by decide⟩

/-- A timer that another thread creates while a wait without a limit goes on does not end it: it is
late by as much as one likes. -/
theorem unseen_late {waits : Waits} (descriptors : waits.interruptible = true) (pace : Pace)
    (cb : Option κ) (lateUs : Nat) :
    ∃ (ls : List (Label κ)) (w : World κ), Run (World.Step waits pace) (start 0 {}) ls w ∧
      ⟨0, 0⟩ ∈ w.unseen ∧ ⟨0, 0⟩ ∈ w.timers.pending ∧ w.nowUs = lateUs := by
  refine ⟨[.ask, .clock false, .wait, .timer (.waitUs 0 cb 0), .tick lateUs], ?_⟩
  cases waits with
  | poll | epollPwait2 | epollWait =>
    refine ⟨_, run_of_foldlM rfl, List.mem_singleton_self _, List.mem_singleton_self _, ?_⟩
    exact Int.zero_add _
  | cv timeoutMs => cases descriptors

end Bfc.Timeouts.Loop
