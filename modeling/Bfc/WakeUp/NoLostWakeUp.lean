import Bfc.WakeUp.Signal

/-!
# No wake-up is lost

Data in a queue that is registered and bound waits only while the reactor owes a pass, a producer
has not notified yet, or `notify` will still come to the queue or tell the next pass not to block
(`World.Attended`). Every action keeps this (`attended_step`), from the moment the queue is bound
until it is unbound. With the posted callbacks, and with the token of the wake path, this leaves a
reactor that is about to block nothing to do.
-/

namespace Bfc.WakeUp

variable {τ ρ κ α : Type*} [DecidableEq τ] [DecidableEq ρ]

/-! ## Data in a queue -/

/-- A queue has work for the reactor. -/
def World.Needs (s : World τ ρ κ α) (q : ρ) : Prop :=
  (s.queues q).hasData = true ∧ q ∈ s.keys

/-- The queue's data will be seen: the reactor owes a pass, a producer has not notified yet, or
the pass comes to the queue. -/
def World.Attended (s : World τ ρ κ α) (q : ρ) : Prop :=
  WakeSignal.Owed s.signal ∨ (∃ c, s.calls c = .notifyPush q) ∨ s.scans q

omit [DecidableEq τ] [DecidableEq ρ] in
/-- Attention lasts over an action that does not show in the wake path, takes no producer out of
its notification and leaves the pass where it is. -/
theorem Attended.congr {s s' : World τ ρ κ α} {q : ρ} (h : s.Attended q)
    (signal : s'.signal = s.signal)
    (producers : ∀ c, s.calls c = .notifyPush q → s'.calls c = .notifyPush q)
    (scans : s.scans q → s'.scans q) : s'.Attended q := by
  rcases h with owed | ⟨c, hc⟩ | hs
  · exact .inl (signal ▸ owed)
  · exact .inr (.inl ⟨c, producers c hc⟩)
  · exact .inr (.inr (scans hs))

omit [DecidableEq ρ] in
/-- A caller's move takes no other producer out of its notification. -/
theorem goto_producers (s : World τ ρ κ α) {c : Option τ} {q : ρ} (call : Call ρ)
    (other : s.calls c ≠ .notifyPush q) (c' : Option τ) (h : s.calls c' = .notifyPush q) :
    (s.goto c call).calls c' = .notifyPush q := by
  have hne : c' ≠ c := fun hc => other (hc ▸ h)
  simpa only [World.goto, Function.update_of_ne hne] using h

omit [DecidableEq τ] in
/-- A change of some queue that brings no data brings none to any. -/
theorem onQueue_hasData (s : World τ ρ κ α) (q' q : ρ) {f : Queue α → Queue α}
    (brings : (f (s.queues q')).hasData = true → (s.queues q').hasData = true)
    (h : ((s.onQueue q' f).queues q).hasData = true) : (s.queues q).hasData = true := by
  by_cases hq : q = q'
  · subst hq
    exact brings (by simpa only [World.onQueue, Function.update_self] using h)
  · simpa only [World.onQueue, Function.update_of_ne hq] using h

theorem hasData_of_sublist {l l' : List α} (h : l'.Sublist l) :
    (!l'.isEmpty) = true → (!l.isEmpty) = true := by
  cases l with
  | nil => rw [List.sublist_nil.mp h]; exact id
  | cons a l => exact fun _ => rfl

/-- **Data in a bound queue stays attended**, whatever happens next. -/
theorem attended_step {room : Nat} {s s' : World τ ρ κ α} {l : Label τ ρ κ α} {q : ρ}
    (token : WakeSignal.Token s.signal) (pos : 0 < room) (bound : (s.queues q).bound = true)
    (h : s.Needs q → s.Attended q) (step : s.step room l = some s')
    (works : ∀ c, l ≠ .write c .failed) : s'.Needs q → s'.Attended q := by
  rintro ⟨data, registered⟩
  rcases signal_step step works with ⟨quiet | moved, stays⟩ | ⟨rfl, -⟩
  · cases World.Step.of_step step with
    | wakeUp cb may | stop may =>
      exact Attended.congr (h ⟨data, registered⟩) quiet
        (goto_producers s _ (by rw [may.1]; simp)) id
    | @addQueue c q' cb may =>
      -- `add_queue` wakes the reactor for the data that is there already
      refine .inl ?_
      rw [signal_goto]
      exact WakeSignal.owed_goto _ c (by simp [Call.phase])
    | @push c q' x may =>
      have others := goto_producers s (c := c) (q := q)
        (if (s.queues q').notifies then .notifyPush q' else .idle) (by rw [may.1]; simp)
      by_cases hq : q' = q
      · subst hq
        by_cases notifies : (s.queues q').notifies = true
        · refine .inr (.inl ⟨c, ?_⟩)
          simp only [World.goto, Function.update_self, if_pos notifies]
        · -- the element was discarded
          have zero : (s.queues q').capacity = some 0 := by
            simpa [Queue.notifies] using notifies
          refine Attended.congr (h ⟨?_, registered⟩) quiet others id
          refine onQueue_hasData s q' q' (f := (·.push x)) ?_ data
          simp only [Queue.push, zero, DropOldest.push_zero, Queue.hasData, imp_self]
      · refine Attended.congr (h ⟨?_, registered⟩) quiet others id
        have := data
        simpa only [World.goto, World.onQueue, Function.update_of_ne (Ne.symm hq)] using this
    | @notifyPush c q' call =>
      by_cases hq : q' = q
      · subst hq
        refine .inl ?_
        rw [signal_goto, if_pos bound]
        exact WakeSignal.owed_goto _ c (by simp [Call.phase])
      · exact Attended.congr (h ⟨data, registered⟩) quiet
          (goto_producers s _ (by rw [call]; simpa using hq)) id
    | pending call | claim call | write call | writeFull call | writeFailed call =>
      exact Attended.congr (h ⟨data, registered⟩) quiet
        (goto_producers s _ (by rw [call]; simp)) id
    | writeInterrupted => exact h ⟨data, registered⟩
    | remQueue q' =>
      have before : q ∈ s.keys := by
        obtain ⟨e, he, hkey⟩ := List.mem_map.mp registered
        exact List.mem_map.mpr ⟨e, (List.mem_filter.mp he).1, hkey⟩
      exact Attended.congr (h ⟨data, before⟩) quiet (fun _ => id) id
    | setReactor q' this =>
      exact Attended.congr (h ⟨onQueue_hasData s q' q id data, registered⟩) quiet (fun _ => id) id
    | pop q' n | setCapacity q' n =>
      exact Attended.congr (h ⟨onQueue_hasData s q' q
        (hasData_of_sublist (List.drop_sublist ..)) data, registered⟩) quiet (fun _ => id) id
    | wake | arrive | drained | store => exact .inr (.inr trivial)
    | drain pc => exact .inr (.inr (by simp only [World.scans, pc]))
    | takeCallbacks => exact absurd rfl stays
    | _ =>
      have still := pass_still step rfl
      have data' : (s.queues q).hasData = true := still.queues ▸ data
      have registered' : q ∈ s.keys := by rwa [World.keys, still.entries] at registered
      exact Attended.congr (h ⟨data', registered'⟩) quiet (fun c => by rw [still.calls]; exact id)
        (still.scans q data' registered')
  · exact .inl (WakeSignal.step_owed token moved pos)
  · refine .inr (.inr ?_)
    simp only [World.scans, (takeCallbacks_step step).2]

/-! ## From the binding on -/

/-- The queue has been bound to the reactor since before its first push. -/
def BoundThroughout (ls : List (Label τ ρ κ α)) (q : ρ) : Prop :=
  ∃ pre post, ls = pre ++ .setReactor q true :: post ∧ (∀ c x, .push c q x ∉ pre) ∧
    .setReactor q false ∉ post

/-- A queue that was never pushed to is empty. -/
theorem empty_step {room : Nat} {s s' : World τ ρ κ α} {l : Label τ ρ κ α} {q : ρ}
    (step : s.step room l = some s') (quiet : ∀ c x, l ≠ .push c q x)
    (empty : (s.queues q).items = []) : (s'.queues q).items = [] := by
  have frame := congrFun (frame_step step).1 q
  cases l with
  | push c q' x =>
    rw [frame]
    by_cases hq : q = q'
    · subst hq
      exact absurd rfl (quiet c x)
    · simpa only [Label.change, Option.elim, Function.update_of_ne hq] using empty
  | setReactor q' this | pop q' n | setCapacity q' n =>
    rw [frame]
    by_cases hq : q = q'
    · subst hq
      simp [Label.change, empty, DropOldest.keep_nil]
    · simpa only [Label.change, Option.elim, Function.update_of_ne hq] using empty
  | _ => exact (congrArg Queue.items frame).trans empty

/-- A queue stays bound until it is bound to something else. -/
theorem bound_step {room : Nat} {s s' : World τ ρ κ α} {l : Label τ ρ κ α} {q : ρ}
    (step : s.step room l = some s') (stays : l ≠ .setReactor q false)
    (bound : (s.queues q).bound = true) : (s'.queues q).bound = true := by
  have frame := congrFun (frame_step step).1 q
  cases l with
  | setReactor q' this =>
    rw [frame]
    by_cases hq : q = q'
    · subst hq
      cases this with
      | true => simp [Label.change]
      | false => exact absurd rfl stays
    · simpa only [Label.change, Option.elim, Function.update_of_ne hq] using bound
  | push c q' x | pop q' n | setCapacity q' n =>
    rw [frame]
    by_cases hq : q = q'
    · subst hq
      simp only [Label.change, Option.elim, Function.update_self]
      first | exact bound | (unfold Queue.push; split <;> exact bound)
    · simpa only [Label.change, Option.elim, Function.update_of_ne hq] using bound
  | _ => exact (congrArg Queue.bound frame).trans bound

/-! ## The result -/

/-- The reactor has drained the pipe and not yet stored `false`. -/
def World.emptied (s : World τ ρ κ α) : Bool :=
  match s.pc with
  | .clear => true
  | .drain => s.pipe = 0
  | _ => false

omit [DecidableEq τ] [DecidableEq ρ] in
theorem emptied_iff (s : World τ ρ κ α) : s.signal.emptied ↔ s.emptied = true := by
  unfold World.signal WakeSignal.State.emptied World.emptied
  cases s.pc <;> simp [Pc.server]

omit [DecidableEq τ] [DecidableEq ρ] in
theorem writing_iff (s : World τ ρ κ α) (c : Option τ) :
    s.signal.callers c = .writing ↔ s.calls c = .write := by
  unfold World.signal
  cases h : s.calls c <;> simp [h, Call.phase]

/-- The wake path is in order: the flag is on exactly while one byte is in the pipe, a writer is
about to put it there, or the reactor has emptied the pipe and is about to turn the flag off; and
no two of these are the case at once. -/
structure WakePathOk (s : World τ ρ κ α) : Prop where
  pending : s.wakePending = true ↔
    s.pipe = 1 ∨ (∃ c, s.calls c = .write) ∨ s.emptied = true
  oneByte : s.pipe ≤ 1
  oneWriter : ∀ c c', s.calls c = .write → s.calls c' = .write → c = c'
  byteOrWriter : s.pipe = 1 → ∀ c, s.calls c ≠ .write
  byteOrReactor : s.pipe = 1 → s.emptied = false
  writerOrReactor : ∀ c, s.calls c = .write → s.emptied = false

omit [DecidableEq τ] [DecidableEq ρ] in
theorem wakePathOk {s : World τ ρ κ α} (token : WakeSignal.Token s.signal) : WakePathOk s where
  pending := by
    refine token.held.trans ⟨?_, ?_⟩
    · rintro ⟨holder, hh⟩
      cases holder with
      | channel => exact .inl hh
      | caller c => exact .inr (.inl ⟨c, (writing_iff s c).mp hh⟩)
      | server => exact .inr (.inr ((emptied_iff s).mp hh))
    · rintro (hh | ⟨c, hh⟩ | hh)
      · exact ⟨.channel, hh⟩
      · exact ⟨.caller c, (writing_iff s c).mpr hh⟩
      · exact ⟨.server, (emptied_iff s).mpr hh⟩
  oneByte := token.single
  oneWriter c c' hc hc' := WakeSignal.Holder.caller.inj
    (token.unique (.caller c) (.caller c') ((writing_iff s c).mpr hc)
      ((writing_iff s c').mpr hc'))
  byteOrWriter byte c hc := by
    cases token.unique .channel (.caller c) byte ((writing_iff s c).mpr hc)
  byteOrReactor byte := by
    rw [← Bool.not_eq_true]
    intro he
    cases token.unique .channel .server byte ((emptied_iff s).mpr he)
  writerOrReactor c hc := by
    rw [← Bool.not_eq_true]
    intro he
    cases token.unique (.caller c) .server ((writing_iff s c).mpr hc)
      ((emptied_iff s).mpr he)

/-- What every reachable state keeps of the wake path and of the posted callbacks. -/
theorem run_signal {room : Nat} (pos : 0 < room) {s s' : World τ ρ κ α}
    {ls : List (Label τ ρ κ α)} (run : World.Run room s ls s')
    (works : ∀ c, .write c .failed ∉ ls) (start : WakeSignal.Token s.signal ∧ s.Posted) :
    WakeSignal.Token s'.signal ∧ s'.Posted := by
  refine run.invariant_of_mem (P := fun t => WakeSignal.Token t.signal ∧ t.Posted) start
    fun {a l b} hl ⟨token, posted⟩ step => ?_
  have ok : ∀ c, l ≠ .write c .failed := fun c hc => works c (hc ▸ hl)
  refine ⟨?_, posted_step token pos posted step ok⟩
  rcases signal_step step ok with ⟨quiet | moved, -⟩ | ⟨-, serve⟩
  · exact quiet ▸ token
  · exact WakeSignal.token_step token moved pos
  · exact WakeSignal.token_serve token serve

/-- A queue that is bound, and empty or attended, stays so as long as it is not unbound. -/
theorem run_attended {room : Nat} (pos : 0 < room) {s s' : World τ ρ κ α}
    {ls : List (Label τ ρ κ α)} {q : ρ} (run : World.Run room s ls s')
    (works : ∀ c, .write c .failed ∉ ls) (stays : .setReactor q false ∉ ls)
    (start : WakeSignal.Token s.signal ∧ s.Posted) (bound : (s.queues q).bound = true)
    (attended : s.Needs q → s.Attended q) : s'.Needs q → s'.Attended q := by
  have keeps := run.invariant_of_mem
    (P := fun t => (WakeSignal.Token t.signal ∧ t.Posted) ∧ (t.queues q).bound = true ∧
      (t.Needs q → t.Attended q)) ⟨start, bound, attended⟩
    (fun {a l b} hl ⟨signal, bound, attended⟩ step => by
      have ok : ∀ c, l ≠ .write c .failed := fun c hc => works c (hc ▸ hl)
      refine ⟨run_signal pos (.single step) (fun c hc => ok c (List.mem_singleton.mp hc).symm)
        signal, bound_step step (fun hu => stays (hu ▸ hl)) bound,
        attended_step signal.1 pos bound attended step ok⟩)
  exact keeps.2.2

omit [DecidableEq τ] [DecidableEq ρ] in
theorem init_signal (lossy : ρ → Bool) :
    WakeSignal.Token (World.init lossy : World τ ρ κ α).signal ∧
      (World.init lossy : World τ ρ κ α).Posted := by
  have free : ∀ holder, ¬(World.init lossy : World τ ρ κ α).signal.Holds holder := by
    intro holder held
    cases holder with
    | channel => cases held
    | caller c => cases held
    | server => rcases held with held | ⟨held, -⟩ <;> cases held
  refine ⟨⟨?_, fun holder _ held => (free holder held).elim, Nat.zero_le _⟩,
    fun waits => absurd rfl waits⟩
  exact ⟨fun on => (by cases on), fun ⟨holder, held⟩ => (free holder held).elim⟩

/-- A queue that has been bound throughout is attended whenever it needs to be. -/
theorem bound_attended {room : Nat} (pos : 0 < room) {lossy : ρ → Bool}
    {ls : List (Label τ ρ κ α)} {s : World τ ρ κ α} (run : World.Run room (World.init lossy) ls s)
    (works : ∀ c, .write c .failed ∉ ls) {q : ρ} (bound : BoundThroughout ls q) :
    s.Needs q → s.Attended q := by
  obtain ⟨pre, post, rfl, unpushed, stays⟩ := bound
  obtain ⟨t, before, rest⟩ := Lts.Run.split pre (.setReactor q true :: post) run
  obtain ⟨u, binding, after⟩ := Lts.Run.split [.setReactor q true] post rest
  have signal : WakeSignal.Token u.signal ∧ u.Posted := by
    refine run_signal pos (before.trans binding) (fun c hc => works c ?_) (init_signal lossy)
    rcases List.mem_append.mp hc with hc | hc
    · exact List.mem_append_left _ hc
    · exact List.mem_append_right _ (List.mem_cons.mpr (.inl (List.mem_singleton.mp hc)))
  have empty : (t.queues q).items = [] :=
    before.invariant_of_mem (P := fun t => (t.queues q).items = []) rfl
      fun hl empty step => empty_step step (fun c x hp => unpushed c x (hp ▸ hl)) empty
  have emptyBound : (u.queues q).items = [] ∧ (u.queues q).bound = true := by
    have step := binding.of_single
    obtain rfl := Option.some.inj step
    simp only [World.onQueue, Function.update_self, empty, and_self]
  refine run_attended pos after (fun c hc => works c ?_) stays signal emptyBound.2 ?_
  · exact List.mem_append_right _ (List.mem_cons_of_mem _ hc)
  · rintro ⟨data, -⟩
    rw [Queue.hasData, emptyBound.1] at data
    cases data

/-- **No wake-up is lost.** Any threads, any interleaving: the flag is on exactly while one byte
is in the pipe or on its way there, or the reactor is between its drain and its store. And when
the reactor is about to block with the pipe empty and no call in progress, no callback is posted,
and every queue that is registered and has been bound since before its first push is empty. The
pipe has room for a byte, and its writes do not fail when it has. -/
theorem no_wake_up_lost {room : Nat} (pos : 0 < room) {lossy : ρ → Bool}
    {ls : List (Label τ ρ κ α)} {s : World τ ρ κ α} (run : World.Run room (World.init lossy) ls s)
    (works : ∀ c, .write c .failed ∉ ls) :
    WakePathOk s ∧
      (s.pc = .poll → s.backlog = false → s.pipe = 0 → (∀ c, s.calls c = .idle) →
        s.wakeUpCb.waiting = [] ∧
          ∀ q, q ∈ s.keys → BoundThroughout ls q → (s.queues q).items = []) := by
  obtain ⟨token, posted⟩ := run_signal pos run works (init_signal lossy)
  refine ⟨wakePathOk token, ?_⟩
  intro hpc hbacklog hpipe hcalls
  have settled : ¬WakeSignal.Owed s.signal := by
    rintro (owed | ⟨c, owed⟩ | owed)
    · exact absurd hpipe (Nat.ne_of_gt owed)
    · exact owed (by simp only [World.signal, hcalls, Call.phase])
    · exact owed (by simp only [World.signal, hpc, Pc.server])
  refine ⟨?_, fun q registered bound => ?_⟩
  · by_contra waits
    exact settled (posted waits)
  · by_contra nonempty
    have data : (s.queues q).hasData = true := by
      rw [Queue.hasData, Bool.not_eq_true', List.isEmpty_eq_false_iff]
      exact nonempty
    rcases bound_attended pos run works bound ⟨data, registered⟩ with owed | ⟨c, hc⟩ | scans
    · exact settled owed
    · rw [hcalls] at hc
      cases hc
    · simp only [World.scans, hpc, hbacklog] at scans
      cases scans

/-- Two threads push to one queue while the reactor is between its drain and its store. Its pass
serves one element only, so the next one does not block and serves the other. -/
def coalescedRun : List (Label Bool Unit String Nat) :=
  [.setReactor () true, .addQueue (some false) () "queue", .compareExchange (some false),
    .write (some false) .one, .enter, .test, .pollReturns true, .read, .read,
    .push (some true) () 1, .notifyPush (some true), .compareExchange (some true), .store,
    .push (some false) () 2, .notifyPush (some false), .takeCallbacks, .notify, .hasData,
    .pop () 1, .recheck, .compareExchange (some false), .write (some false) .one, .notifyReturns,
    .endPass, .test, .pollReturns true, .read, .read, .store, .takeCallbacks, .notify, .hasData,
    .pop () 1, .recheck, .notifyReturns, .endPass, .test]

/-- The state `coalescedRun` reaches is one the result is about. -/
theorem no_wake_up_lost_coalesced :
    ∃ s : World Bool Unit String Nat,
      World.Run 1 (World.init fun _ => false) coalescedRun s ∧ WakePathOk s ∧
        s.wakePending = false ∧ s.pc = .poll ∧ s.keys = [()] ∧ (s.queues ()).items = [] := by
  let reached : Option (World Bool Unit String Nat) :=
    coalescedRun.foldlM (World.step 1) (World.init fun _ => false)
  have seen : reached.map (fun s => (s.wakePending, s.pc, s.backlog, s.pipe, s.keys)) =
      some (false, .poll, false, 0, [()]) := rfl
  have idle : reached.map (fun s => [none, some false, some true].map s.calls) =
      some [.idle, .idle, .idle] := rfl
  obtain ⟨s, hs⟩ : ∃ s, reached = some s := ⟨_, rfl⟩
  rw [hs] at seen idle
  simp only [Option.map_some, Option.some.injEq, Prod.mk.injEq] at seen
  simp only [Option.map_some, Option.some.injEq, List.map_cons, List.map_nil, List.cons.injEq]
    at idle
  obtain ⟨pending, hpc, backlog, pipe, keys⟩ := seen
  have run := Lts.run_of_foldlM hs
  obtain ⟨ok, quiet⟩ := no_wake_up_lost (by decide) run (by simp [coalescedRun])
  refine ⟨s, run, ok, pending, hpc, keys, ?_⟩
  have calls : ∀ c, s.calls c = .idle := by
    intro c
    match c with
    | none => exact idle.1
    | some false => exact idle.2.1
    | some true => exact idle.2.2.1
  refine (quiet hpc backlog pipe calls).2 () (by rw [keys]; decide) ?_
  exact ⟨[], _, rfl, by simp, by simp⟩

end Bfc.WakeUp
