import Bfc.CvReactor.World
import Bfc.RunLoop.World

/-!
# Wake-up callbacks run in the order of their appends

The three reactors serve `m_wake_up_cb` in batches: a batch is taken as a whole, by the reactor
thread, when it has run the last one to its end. They leave `run` at different places, the
condition-variable reactor between its wait and the next batch; but none leaves it in a batch.
-/

namespace Bfc

variable {τ ρ κ α : Type*} [DecidableEq τ] [DecidableEq ρ]

namespace RunLoop

/-- The wake-up callbacks of `poll_reactor` and `epoll_reactor`. -/
def service (kind : Kind) : Service (World τ κ) (Label τ κ) κ where
  step := World.step kind
  service s := s.wakeUpCb
  posted s := s.appended
  takes l := l = .takeCallbacks
  out s := s.pc = .off

/-- Outside the loop over a batch there is none. -/
def World.NoBatch (s : World τ κ) : Prop := s.pc ≠ .callbacks → s.wakeUpCb.batch = []

/-- What an action does to the wake-up callbacks. -/
theorem service_moves {kind : Kind} {s s' : World τ κ} {l : Label τ κ} (h : s.NoBatch)
    (step : World.Step kind s l s') :
    s'.NoBatch ∧
      Batched.Moves (l = .takeCallbacks) s.wakeUpCb s'.wakeUpCb s.appended s'.appended := by
  cases step with
  | @wakeUp c cb may =>
    cases cb with
    | none => exact ⟨h, .inl ⟨rfl, rfl⟩⟩
    | some cb => exact ⟨h, .inr (.inl ⟨cb, rfl, rfl⟩)⟩
  | @write c stop answer call =>
    cases answer with
    | one | full => exact ⟨h, .inl ⟨rfl, rfl⟩⟩
    | interrupted | failed => cases kind <;> exact ⟨h, .inl ⟨rfl, rfl⟩⟩
  | run pc | setRunning pc | test pc | interrupted pc | waitReturns pc _ _ | drained pc | readOne pc
  | store pc | endPass pc =>
    exact ⟨fun _ => h (by rw [pc]; exact fun hc => by cases hc), .inl ⟨rfl, rfl⟩⟩
  | takeCallbacks pc =>
    have noBatch : s.wakeUpCb.batch = [] := h (by rw [pc]; exact fun hc => by cases hc)
    exact ⟨fun hc => absurd rfl hc, .inr (.inr (.inl ⟨rfl, noBatch, rfl, rfl⟩))⟩
  | runCallback pc => exact ⟨fun hc => absurd pc hc, .inr (.inr (.inr ⟨rfl, rfl⟩))⟩
  | callbacksEnd pc batch => exact ⟨fun _ => batch, .inl ⟨rfl, rfl⟩⟩
  | _ => exact ⟨h, .inl ⟨rfl, rfl⟩⟩

end RunLoop

namespace CvReactor

/-- The wake-up callbacks of `cv_reactor`. -/
def service (drains : ρ → Bool) : Service (World τ ρ κ α) (Label τ ρ κ α) κ where
  step := World.step drains
  service s := s.wakeUpCb
  posted s := s.appended
  takes l := l = .takeCallbacks
  out s := s.pc = .off

/-- Outside the loop over a batch there is none. -/
def World.NoBatch (s : World τ ρ κ α) : Prop := s.pc ≠ .callbacks → s.wakeUpCb.batch = []

/-- What an action does to the wake-up callbacks. -/
theorem service_moves {drains : ρ → Bool} {s s' : World τ ρ κ α} {l : Label τ ρ κ α}
    (h : s.NoBatch) (step : World.Step drains s l s') :
    s'.NoBatch ∧
      Batched.Moves (l = .takeCallbacks) s.wakeUpCb s'.wakeUpCb s.appended s'.appended := by
  cases step with
  | @wakeUp c cb may =>
    cases cb with
    | none => exact ⟨h, .inl ⟨rfl, rfl⟩⟩
    | some cb => exact ⟨h, .inr (.inl ⟨cb, rfl, rfl⟩)⟩
  | request call unlocked =>
    refine ⟨fun there => h fun pc => there ?_, .inl ⟨rfl, rfl⟩⟩
    show World.notified s.pc = _
    rw [pc]
    rfl
  | @pop q n =>
    refine ⟨fun there => h fun pc => there ?_, .inl ⟨rfl, rfl⟩⟩
    show World.popped q _ s.pc = _
    rw [pc]
    rfl
  | run pc | setRunning pc | test pc | evaluate pc | timeout pc | spurious pc | testRunning pc
  | requested pc _ | notRequested pc _ | snapshot pc | hasData pc | notifyCallback pc
  | handlerReturns pc _ _ | scanned pc | endPass pc _ =>
    exact ⟨fun _ => h (by rw [pc]; exact fun hc => by cases hc), .inl ⟨rfl, rfl⟩⟩
  | takeCallbacks pc =>
    have noBatch : s.wakeUpCb.batch = [] := h (by rw [pc]; exact fun hc => by cases hc)
    exact ⟨fun hc => absurd rfl hc, .inr (.inr (.inl ⟨rfl, noBatch, rfl, rfl⟩))⟩
  | runCallback pc _ _ => exact ⟨fun hc => absurd pc hc, .inr (.inr (.inr ⟨rfl, rfl⟩))⟩
  | callbacksEnd pc _ batch => exact ⟨fun _ => batch, .inl ⟨rfl, rfl⟩⟩
  | _ => exact ⟨h, .inl ⟨rfl, rfl⟩⟩

end CvReactor

/-- **Wake-up callbacks run exactly once and in the order of their appends**, in `poll_reactor`,
`epoll_reactor` and `cv_reactor` alike: callers and stops in any number, `run` again and again, any
interleaving. -/
theorem RunLoop.wake_ups_in_order (kind : Kind) (drains lossy : ρ → Bool) :
    (service (τ := τ) (κ := κ) kind).InOrder {} ∧
      (CvReactor.service (τ := τ) (κ := κ) (α := α) drains).InOrder
        (CvReactor.World.init lossy) := by
  constructor
  · exact Service.inOrder _ World.NoBatch (fun _ => rfl)
      (fun h step => (service_moves h (World.Step.of_step step)).1)
      (fun h step => (service_moves h (World.Step.of_step step)).2)
      (fun h out => h (by rw [show _ = Pc.off from out]; exact fun hc => by cases hc)) rfl
  · exact Service.inOrder _ CvReactor.World.NoBatch (fun _ => rfl)
      (fun h step => (CvReactor.service_moves h (CvReactor.World.Step.of_step step)).1)
      (fun h step => (CvReactor.service_moves h (CvReactor.World.Step.of_step step)).2)
      (fun h out => h (by rw [show _ = CvReactor.Pc.off from out]; exact fun hc => by cases hc)) rfl

end Bfc
