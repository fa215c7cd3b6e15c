import Bfc.Lib.StopFlag
import Bfc.CvReactor.World
import Bfc.RunLoop.World

/-!
# Stops that are overwritten

`run` sets `m_running` after it was entered, so a `stop` that clears it in between is overwritten:
its wake-up ends one wait, and the next one is with the flag on. `stops_heeded` says that no other
`stop` is lost, in any of the three reactors.
-/

namespace Bfc

variable {τ ρ κ α : Type*} [DecidableEq τ] [DecidableEq ρ]

/-! ## The descriptor reactors -/

namespace RunLoop

/-- The run of a `stop` that has not cleared `m_running` yet. -/
def Call.begun : Call → Option Nat
  | .stopping run => some run
  | _ => none

/-- The run of a `stop` that has cleared `m_running` and not returned. -/
def Call.cleared : Call → Option Nat
  | .compareExchange stop | .write stop => stop
  | _ => none

/-- The reactor thread is blocked: it is in its wait, and nothing wakes it. -/
def World.blocked (s : World τ κ) : Prop := s.pc = .wait ∧ s.signal = 0

/-- No `stop` is lost: one that began in the current run and has returned does not leave the reactor
blocked with `m_running` on. -/
def World.HeedsStops (s : World τ κ) : Prop :=
  s.runs ∈ s.stopped → ¬ (s.blocked ∧ s.running = true)

/-- A `stop` does not clear `m_running` between the entry into the run that it began in and the
store of that run. -/
def ClearsInTime (s : World τ κ) (l : Label τ κ) : Prop :=
  ∀ c run, l = .clearRunning c → s.calls c = .stopping run → run = s.runs → s.pc ≠ .entered

/-- The flag and its stops. -/
def World.flag (s : World τ κ) : StopFlag.State :=
  .ofCallers Call.begun Call.cleared s.running s.runs (s.pc = .entered) s.calls s.stopped

/-- What `wake_up` goes on with after its append has begun no `stop`, and keeps the one it has. -/
theorem signal_stop (kind : Kind) (stop : Option Nat) :
    (kind.signal stop).begun = none ∧ (kind.signal stop).cleared = stop := by
  cases kind <;> exact ⟨rfl, rfl⟩

/-- A `wake_up` returns. -/
theorem flag_returns {s : World τ κ} {c : Option τ} {stop : Option Nat}
    (cleared : (s.calls c).cleared = stop) (pending : Bool) (signal : Nat) :
    StopFlag.Moves s.flag
      ({ s with wakePending := pending, signal := signal }.wakeUpReturns c stop).flag := by
  refine StopFlag.caller_moves Call.idle ⟨rfl, rfl, id⟩ (fun _ hc => by cases hc)
    (fun _ hc => by cases hc) fun r there => ?_
  rcases List.mem_append.mp there with old | new
  · exact .inl old
  · exact .inr (cleared.trans (Option.mem_toList.mp new))

/-- Every action but a `stop` that clears the flag too early moves it as it should. -/
theorem flag_moves {kind : Kind} {s s' : World τ κ} {l : Label τ κ} (inTime : ClearsInTime s l)
    (step : World.Step kind s l s') : StopFlag.Moves s.flag s'.flag := by
  cases step with
  | @wakeUp c cb may =>
    obtain ⟨noBegun, noStop⟩ := signal_stop kind none
    have moves : StopFlag.Moves s.flag (s.goto c (kind.signal none)).flag :=
      StopFlag.caller_moves _ ⟨rfl, rfl, id⟩ (fun r hc => by rw [noBegun] at hc; cases hc)
        (fun r hc => by rw [noStop] at hc; cases hc) fun _ => .inl
    cases cb <;> exact moves
  | stop may =>
    exact StopFlag.caller_moves _ ⟨rfl, rfl, id⟩ (fun r hc => .inr (Option.some.inj hc).symm)
      (fun r hc => by cases hc) fun _ => .inl
  | @clearRunning c run call =>
    obtain ⟨ended, clears⟩ := signal_stop kind (some run)
    exact StopFlag.caller_clears _ (by rw [call]; rfl) (inTime c run rfl call) ended clears
  | @pending c stop call on => exact flag_returns (by rw [call]; rfl) s.wakePending s.signal
  | @claim c stop call off =>
    exact StopFlag.caller_moves (Call.write stop) ⟨rfl, rfl, id⟩ (fun r hc => by cases hc)
      (fun r hc => by rw [call]; exact hc) fun _ => .inl
  | @write c stop answer call =>
    have clears : (s.calls c).cleared = stop := by rw [call]; rfl
    cases answer with
    | one => exact flag_returns clears s.wakePending (s.signal + 1)
    | full => exact flag_returns clears s.wakePending s.signal
    | interrupted =>
      cases kind with
      | poll => exact StopFlag.server_moves id
      | epoll => exact flag_returns clears s.wakePending s.signal
    | failed =>
      cases kind with
      | poll => exact flag_returns clears false s.signal
      | epoll => exact flag_returns clears s.wakePending s.signal
  | run pc => exact .enter rfl (fun _ => id) fun _ => id
  | setRunning pc => exact .set pc rfl (fun hc => by cases hc) (fun _ => id) fun _ => id
  | test pc =>
    refine StopFlag.server_moves fun there => ?_
    have notEntered : (if s.running then Pc.wait else .off) ≠ .entered := by
      split <;> exact fun hc => by cases hc
    exact absurd there notEntered
  | waitReturns pc target there =>
    refine StopFlag.server_moves fun entered => ?_
    rcases there with rfl | ⟨wake, rfl⟩ <;> cases entered
  | drain pc | runCallback pc => exact StopFlag.server_moves id
  | interrupted pc | drained pc | readOne pc | store pc | takeCallbacks pc | callbacksEnd pc _
  | endPass pc => exact StopFlag.server_moves fun hc => by cases hc

end RunLoop

/-! ## The condition-variable reactor -/

namespace CvReactor

/-- The run of a `stop` that has not cleared `m_running` yet. -/
def Call.begun : Call ρ → Option Nat
  | .stopping run => some run
  | _ => none

/-- The run of a `stop` that has cleared `m_running` and not returned. -/
def Call.cleared : Call ρ → Option Nat
  | .request stop => stop
  | _ => none

/-- No `stop` is lost: one that began in the current run and has returned does not leave the reactor
blocked with `m_running` on. -/
def World.HeedsStops (s : World τ ρ κ α) : Prop :=
  s.runs ∈ s.stopped → ¬ (s.pc = .blocked ∧ s.running = true)

/-- A `stop` does not clear `m_running` between the entry into the run that it began in and the
store of that run. -/
def ClearsInTime (s : World τ ρ κ α) (l : Label τ ρ κ α) : Prop :=
  ∀ c run, l = .clearRunning c → s.calls c = .stopping run → run = s.runs → s.pc ≠ .entered

/-- The flag and its stops. -/
def World.flag (s : World τ ρ κ α) : StopFlag.State :=
  .ofCallers Call.begun Call.cleared s.running s.runs (s.pc = .entered) s.calls s.stopped

omit [DecidableEq τ] in
/-- A pop does not bring the reactor thread to the beginning of `run`. -/
theorem popped_entered (q : ρ) (empty : Bool) (pc : Pc ρ)
    (there : World.popped q empty pc = .entered) : pc = .entered := by
  cases pc with
  | handler q' rest drained => cases there
  | entered => rfl
  | _ => cases there

/-- Every action but a `stop` that clears the flag too early moves it as it should. -/
theorem flag_moves {drains : ρ → Bool} {s s' : World τ ρ κ α} {l : Label τ ρ κ α}
    (inTime : ClearsInTime s l) (step : World.Step drains s l s') :
    StopFlag.Moves s.flag s'.flag := by
  -- a caller that is not in a `stop` before its move nor after it
  have calls : ∀ {c : Option τ} (call : Call ρ), call.begun = none → call.cleared = none →
      StopFlag.Moves s.flag (s.goto c call).flag := fun call noBegun noStop =>
    StopFlag.caller_moves _ ⟨rfl, rfl, id⟩ (fun r hc => by rw [noBegun] at hc; cases hc)
      (fun r hc => by rw [noStop] at hc; cases hc) fun _ => .inl
  cases step with
  | @wakeUp c cb may => cases cb <;> exact calls (.request none) rfl rfl
  | @request c stop call unlocked =>
    refine StopFlag.caller_moves Call.idle ⟨rfl, rfl, fun there => ?_⟩
      (fun r hc => by cases hc) (fun r hc => by cases hc) fun r there => ?_
    · unfold World.notified at there
      split at there
      · cases there
      · exact there
    · rcases List.mem_append.mp there with old | new
      · exact .inl old
      · refine .inr ?_
        rw [call]
        exact Option.mem_toList.mp new
  | stop may =>
    exact StopFlag.caller_moves _ ⟨rfl, rfl, id⟩ (fun r hc => .inr (Option.some.inj hc).symm)
      (fun r hc => by cases hc) fun _ => .inl
  | @clearRunning c run call =>
    exact StopFlag.caller_clears _ (by rw [call]; rfl) (inTime c run rfl call) rfl rfl
  | @push c q x may =>
    have plain : (if (s.queues q).notifies then Call.notifyPush q else .idle).begun = none ∧
        (if (s.queues q).notifies then Call.notifyPush q else .idle).cleared = none := by
      split <;> exact ⟨rfl, rfl⟩
    exact calls _ plain.1 plain.2
  | @notifyPush c q call =>
    have plain : (if (s.queues q).bound then Call.request (ρ := ρ) none else .idle).begun = none ∧
        (if (s.queues q).bound then Call.request (ρ := ρ) none else .idle).cleared = none := by
      split <;> exact ⟨rfl, rfl⟩
    exact calls _ plain.1 plain.2
  | @addReadRdy c q cb may => exact calls (.addContext q) rfl rfl
  | addContext call => exact calls .idle rfl rfl
  | @removeReadRdy c q may => exact calls (.removeContext q) rfl rfl
  | removeContext call => exact calls .idle rfl rfl
  | setReactor q this => exact StopFlag.server_moves id
  | setCapacity c lossy => exact StopFlag.server_moves id
  | @pop q n => exact StopFlag.server_moves (popped_entered q _ s.pc)
  | run pc => exact .enter rfl (fun _ => id) fun _ => id
  | setRunning pc => exact .set pc rfl (fun hc => by cases hc) (fun _ => id) fun _ => id
  | test pc | evaluate pc | testRunning pc | hasData pc | notifyCallback pc =>
    refine StopFlag.server_moves fun there => ?_
    dsimp only at there
    split at there <;> cases there
  | runCallback pc _ _ => exact StopFlag.server_moves id
  | timeout pc | spurious pc | requested pc _ | notRequested pc _ | snapshot pc
  | handlerReturns pc _ _ | scanned pc | takeCallbacks pc | callbacksEnd pc _ _ | endPass pc _ =>
    exact StopFlag.server_moves fun hc => by cases hc

end CvReactor

/-! ## The result -/

namespace RunLoop

/-- **A `stop` that clears `m_running` when `run` has set it is not lost**, in `poll_reactor`,
`epoll_reactor` and `cv_reactor` alike: in every state of every run in which no `stop` clears it
too early. -/
theorem stops_heeded (kind : Kind) (drains lossy : ρ → Bool) :
    (∀ ls : List (Label τ κ), Lts.AllSteps (World.step kind) ClearsInTime {} ls →
        Lts.AllStates (World.step kind) World.HeedsStops {} ls) ∧
      ∀ ls : List (CvReactor.Label τ ρ κ α),
        Lts.AllSteps (CvReactor.World.step drains) CvReactor.ClearsInTime
          (CvReactor.World.init lossy) ls →
        Lts.AllStates (CvReactor.World.step drains) CvReactor.World.HeedsStops
          (CvReactor.World.init lossy) ls := by
  constructor
  · intro ls inTime
    refine inTime.allStates (I := fun s => StopFlag.Heeded s.flag) ?_ ?_ ?_
    · exact fun heeded condition step =>
        heeded.step (flag_moves condition (World.Step.of_step step))
    · exact fun heeded returned => heeded.not_running (.inl returned)
    · exact StopFlag.heeded_start fun _ => ⟨rfl, rfl⟩
  · intro ls inTime
    refine inTime.allStates (I := fun s => StopFlag.Heeded s.flag) ?_ ?_ ?_
    · exact fun heeded condition step =>
        heeded.step (CvReactor.flag_moves condition (CvReactor.World.Step.of_step step))
    · exact fun heeded returned => heeded.not_running (.inl returned)
    · exact StopFlag.heeded_start fun _ => ⟨rfl, rfl⟩

/-- A `stop` of a thread that clears `m_running` in the first pass is one the result is about. -/
theorem stops_heeded_pass :
    Lts.AllStates (World.step .poll) World.HeedsStops ({} : World Unit Unit)
      [.run, .setRunning, .stop (some ()), .clearRunning (some ()), .compareExchange (some ()),
        .write (some ()) .one, .test] := by
  refine (stops_heeded (ρ := Unit) (α := Unit) .poll (fun _ => true) fun _ => true).1 _ ?_
  have other : ∀ {s : World Unit Unit} {l : Label Unit Unit}, (∀ c, l ≠ .clearRunning c) →
      ClearsInTime s l := fun noClear c run same => absurd same (noClear c)
  refine .cons rfl (other fun c hc => by cases hc) (.cons rfl (other fun c hc => by cases hc)
    (.cons rfl (other fun c hc => by cases hc) (.cons rfl (fun c run _ _ _ hc => by cases hc)
      (.cons rfl (other fun c hc => by cases hc) (.cons rfl (other fun c hc => by cases hc)
        (.cons rfl (other fun c hc => by cases hc) trivial))))))

/-- In each of the three reactors a thread enters `run`, another one clears `m_running` before it is
set, signals and returns; the signal ends one wait, and the reactor thread blocks in the next. -/
theorem stop_overwritten :
    (¬ ∀ ls : List (Label Unit Unit),
        Lts.AllStates (World.step .poll) World.HeedsStops ({} : World Unit Unit) ls) ∧
      (¬ ∀ ls : List (Label Unit Unit),
        Lts.AllStates (World.step .epoll) World.HeedsStops ({} : World Unit Unit) ls) ∧
      ¬ ∀ ls : List (CvReactor.Label Unit Unit Unit Unit),
        Lts.AllStates (CvReactor.World.step fun _ => true) CvReactor.World.HeedsStops
          (CvReactor.World.init fun _ => true : CvReactor.World Unit Unit Unit Unit) ls := by
  refine ⟨fun h => ?_, fun h => ?_, fun h => ?_⟩
  · have heeded := (h [.run, .stop (some ()), .clearRunning (some ()), .compareExchange (some ()),
      .write (some ()) .one, .setRunning, .test, .waitReturns true, .read, .read, .store,
      .takeCallbacks, .callbacksEnd, .endPass, .test]).last rfl
    exact heeded (List.mem_singleton_self _) ⟨⟨rfl, rfl⟩, rfl⟩
  · have heeded := (h [.run, .stop (some ()), .clearRunning (some ()), .write (some ()) .one,
      .setRunning, .test, .waitReturns true, .read, .takeCallbacks, .callbacksEnd, .endPass,
      .test]).last rfl
    exact heeded (List.mem_singleton_self _) ⟨⟨rfl, rfl⟩, rfl⟩
  · have heeded := (h [.run, .stop (some ()), .clearRunning (some ()), .request (some ()),
      .setRunning, .test, .evaluate, .testRunning, .branch, .snapshot, .scanned, .takeCallbacks,
      .callbacksEnd, .endPass, .test, .evaluate]).last rfl
    exact heeded (List.mem_singleton_self _) ⟨rfl, rfl⟩

end RunLoop

end Bfc
