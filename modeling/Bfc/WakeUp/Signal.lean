import Bfc.Lib.WakeSignal
import Bfc.WakeUp.World

/-!
# The poll reactor's wake path

The wake path of the poll reactor is a coalesced signal: `World.signal` reads the flag, the pipe,
the callers in `wake_up` and the reactor's way to its callbacks as a state of `WakeSignal`, and
`signal_step` says that every action of the world is a step of that protocol or none at all. The
token and the reactor's debt come from there.

The first thing the debt is for are the posted callbacks: one waits only while the reactor owes a
pass (`posted_step`). The reactor's own actions away from the wake path are gathered in
`pass_still`, with what they leave alone and what they do for a queue.
-/

namespace Bfc.WakeUp

variable {τ ρ κ α : Type*} [DecidableEq τ] [DecidableEq ρ]

/-! ## The wake path as a coalesced signal -/

/-- A caller's place, as the wake path sees it. -/
def Call.phase : Call ρ → WakeSignal.Phase
  | .idle | .notifyPush _ => .away
  | .compareExchange => .claiming
  | .write => .writing

/-- The reactor's place, as the wake path sees it: ready once only its pass is left between it
and the wake-up callbacks. -/
def Pc.server : Pc ρ κ → WakeSignal.Server
  | .drain => .draining
  | .clear => .clearing
  | .dispatch => .ready
  | _ => .away

/-- The wake path. -/
def World.signal (s : World τ ρ κ α) : WakeSignal.State (Option τ) :=
  { pending := s.wakePending, channel := s.pipe, callers := fun c => (s.calls c).phase,
    server := s.pc.server }

omit [DecidableEq ρ] in
/-- A caller's move, as the wake path sees it. -/
theorem signal_goto (s : World τ ρ κ α) (c : Option τ) (call : Call ρ) :
    (s.goto c call).signal = s.signal.goto c call.phase := by
  simp only [World.signal, World.goto, WakeSignal.State.goto, WakeSignal.State.mk.injEq,
    true_and, and_true]
  funext c'
  by_cases hc : c' = c
  · subst hc
    simp only [Function.update_self]
  · simp only [Function.update_of_ne hc]

omit [DecidableEq ρ] in
/-- The wake path over a call's move from outside `wake_up`. -/
theorem signal_goto_away {room : Nat} (s : World τ ρ κ α) {c : Option τ} {call : Call ρ}
    (away : (s.calls c).phase = .away) (target : call.phase ≠ .writing) :
    (s.goto c call).signal = s.signal ∨
      WakeSignal.Step room s.signal (s.goto c call).signal := by
  rw [signal_goto]
  cases hp : call.phase with
  | away =>
    refine .inl ?_
    simp only [WakeSignal.State.goto]
    rw [Function.update_eq_iff.mpr ⟨away.symm, fun _ _ => rfl⟩]
  | claiming => exact .inr (.request c away)
  | writing => exact absurd hp target

/-! ## The rest of a pass -/

/-- The queues that are registered. -/
def World.keys (s : World τ ρ κ α) : List ρ := s.entries.map (·.key)

/-- The pass will come to the queue yet, or tells the next one not to block. -/
def World.scans (s : World τ ρ κ α) (q : ρ) : Prop :=
  match s.pc with
  | .drain | .clear | .dispatch | .callbacks => True
  | .check rest backlog => q ∈ rest.map (·.key) ∨ backlog = true
  | .handler e rest backlog => e.key = q ∨ q ∈ rest.map (·.key) ∨ backlog = true
  | .off | .test | .poll | .tail => s.backlog = true

/-- The actions of the reactor thread away from the wake path. -/
def Label.ofPass : Label τ ρ κ α → Bool
  | .enter | .test | .interrupted | .runCallback | .notify | .hasData | .recheck
  | .notifyReturns | .endPass => true
  | _ => false

/-- What those actions leave alone, and what they do for a queue: one with data is scanned, and
if it still has data after its callback, the pass remembers. -/
structure Still (s s' : World τ ρ κ α) : Prop where
  pending : s'.wakePending = s.wakePending
  pipe : s'.pipe = s.pipe
  calls : s'.calls = s.calls
  waiting : s'.wakeUpCb.waiting = s.wakeUpCb.waiting
  entries : s'.entries = s.entries
  queues : s'.queues = s.queues
  awayBefore : s.pc.server = .away
  awayAfter : s'.pc.server = .away
  scans : ∀ q, (s.queues q).hasData = true → q ∈ s.keys → s.scans q → s'.scans q

omit [DecidableEq τ] [DecidableEq ρ] in
theorem Still.signal {s s' : World τ ρ κ α} (h : Still s s') : s'.signal = s.signal := by
  simp only [World.signal, h.pending, h.pipe, h.calls, h.awayBefore, h.awayAfter]

theorem pass_still {room : Nat} {s s' : World τ ρ κ α} {l : Label τ ρ κ α}
    (step : s.step room l = some s') (pass : l.ofPass = true) : Still s s' := by
  cases World.Step.of_step step with
  | enter pc | interrupted pc | endPass pc =>
    refine ⟨rfl, rfl, rfl, rfl, rfl, rfl, by rw [pc]; rfl, rfl, fun q _ _ => ?_⟩
    simp only [World.scans, pc, imp_self]
  | test pc =>
    refine ⟨rfl, rfl, rfl, rfl, rfl, rfl, by rw [pc]; rfl, ?_, fun q _ _ => ?_⟩
    · cases s.running <;> rfl
    · cases s.running <;> simp [World.scans, pc]
  | runCallback pc =>
    refine ⟨rfl, rfl, rfl, rfl, rfl, rfl, by rw [pc]; rfl, by rw [pc]; rfl, fun q _ _ => ?_⟩
    simp only [World.scans, pc, imp_self]
  | notifyNone pc unused =>
    refine ⟨rfl, rfl, rfl, rfl, rfl, rfl, by rw [pc]; rfl, rfl, fun q _ hq => ?_⟩
    rw [World.keys, unused] at hq
    cases hq
  | notify pc =>
    exact ⟨rfl, rfl, rfl, rfl, rfl, rfl, by rw [pc]; rfl, rfl, fun q _ hq _ => .inl hq⟩
  | @hasData e rest backlog pc =>
    refine ⟨rfl, rfl, rfl, rfl, rfl, rfl, by rw [pc]; rfl, ?_, fun q data _ => ?_⟩
    · cases (s.queues e.key).hasData <;> rfl
    · simp only [World.scans, pc, List.map_cons, List.mem_cons]
      cases here : (s.queues e.key).hasData with
      | true =>
        rintro ((rfl | hq) | hq)
        · exact .inl rfl
        · exact .inr (.inl hq)
        · exact .inr (.inr hq)
      | false =>
        rintro ((rfl | hq) | hq)
        · rw [here] at data
          cases data
        · exact .inl hq
        · exact .inr hq
  | recheck pc =>
    refine ⟨rfl, rfl, rfl, rfl, rfl, rfl, by rw [pc]; rfl, rfl, fun q data _ => ?_⟩
    simp only [World.scans, pc]
    rintro (rfl | hq | hq)
    · exact .inr (by rw [data, Bool.or_true])
    · exact .inl hq
    · exact .inr (by rw [hq, Bool.true_or])
  | notifyReturns pc =>
    refine ⟨rfl, rfl, rfl, rfl, rfl, rfl, by rw [pc]; rfl, rfl, fun q _ _ => ?_⟩
    simp only [World.scans, pc, List.map_nil, List.not_mem_nil, false_or, imp_self]
  | _ => cases pass

/-- **The world simulates the signal**: but for a failed write, an action is a step of the wake
path or does not show in it; taking the callbacks starts the reactor's round. -/
theorem signal_step {room : Nat} {s s' : World τ ρ κ α} {l : Label τ ρ κ α}
    (step : s.step room l = some s') (works : ∀ c, l ≠ .write c .failed) :
    (s'.signal = s.signal ∨ WakeSignal.Step room s.signal s'.signal) ∧ l ≠ .takeCallbacks ∨
      l = .takeCallbacks ∧ WakeSignal.Serve s.signal s'.signal := by
  cases World.Step.of_step step with
  | takeCallbacks pc =>
    exact .inr ⟨rfl, by rw [World.signal, pc]; rfl, by simp only [World.signal]; rfl⟩
  | wakeUp cb may | stop may | addQueue q cb may =>
    exact .inl ⟨signal_goto_away _ (by rw [may.1]; rfl) (by simp [Call.phase]), by simp⟩
  | push q x may =>
    refine .inl ⟨signal_goto_away _ ?_ (by split <;> simp [Call.phase]), by simp⟩
    exact congrArg Call.phase may.1
  | notifyPush call =>
    exact .inl ⟨signal_goto_away s (by rw [call]; rfl) (by split <;> simp [Call.phase]), by simp⟩
  | @pending c call on =>
    rw [signal_goto]
    exact .inl ⟨.inr (.rely c (congrArg Call.phase call) on), by simp⟩
  | @claim c call off =>
    rw [signal_goto]
    exact .inl ⟨.inr (.claim c (congrArg Call.phase call) off), by simp⟩
  | @write c call space =>
    rw [signal_goto]
    exact .inl ⟨.inr (.write c (congrArg Call.phase call) space), by simp⟩
  | @writeFull c call noSpace =>
    rw [signal_goto]
    exact .inl ⟨.inr (.full c (congrArg Call.phase call) noSpace), by simp⟩
  | @writeFailed c => exact absurd rfl (works c)
  | wake pc pos => exact .inl ⟨.inr (.wake (by rw [World.signal, pc]; rfl) pos), by simp⟩
  | arrive pc => exact .inl ⟨.inr (.arrive (by rw [World.signal, pc]; rfl)), by simp⟩
  | drained pc empty =>
    exact .inl ⟨.inr (.drained (by rw [World.signal, pc]; rfl) empty), by simp⟩
  | drain pc pos =>
    exact .inl ⟨.inr (.read 64 (by rw [World.signal, pc]; rfl) pos (by decide)), by simp⟩
  | store pc => exact .inl ⟨.inr (.clear (by rw [World.signal, pc]; rfl)), by simp⟩
  | writeInterrupted | remQueue | setReactor | pop | setCapacity =>
    exact .inl ⟨.inl rfl, by simp⟩
  | _ => exact .inl ⟨.inl (pass_still step rfl).signal, by simp⟩

/-! ## Posted callbacks -/

/-- The pass takes all callbacks posted so far. -/
theorem takeCallbacks_step {room : Nat} {s s' : World τ ρ κ α}
    (step : s.step room .takeCallbacks = some s') :
    s'.wakeUpCb.waiting = [] ∧ s'.pc = .callbacks := by
  cases World.Step.of_step step with
  | takeCallbacks => exact ⟨rfl, rfl⟩

/-- What an action does to a queue, if it is one on a queue. -/
def Label.change : Label τ ρ κ α → Option (ρ × (Queue α → Queue α))
  | .push _ q x => some (q, (·.push x))
  | .setReactor q this => some (q, fun queue => { queue with bound := this })
  | .pop q n => some (q, fun queue => { queue with items := queue.items.drop n })
  | .setCapacity q c =>
    some (q, fun queue =>
      { queue with capacity := some c, items := DropOldest.keep c queue.items })
  | _ => none

/-- The queues change by the actions on them, and the posted callbacks by `wake_up` and by the
pass that takes them; every other action leaves both alone. -/
theorem frame_step {room : Nat} {s s' : World τ ρ κ α} {l : Label τ ρ κ α}
    (step : s.step room l = some s') :
    s'.queues = l.change.elim s.queues
        (fun ch => Function.update s.queues ch.1 (ch.2 (s.queues ch.1))) ∧
      ((∀ c cb, l ≠ .wakeUp c cb) → l ≠ .takeCallbacks →
        s'.wakeUpCb.waiting = s.wakeUpCb.waiting) := by
  cases World.Step.of_step step with
  | @wakeUp c cb may => exact ⟨rfl, fun posts => absurd rfl (posts c cb)⟩
  | takeCallbacks => exact ⟨rfl, fun _ takes => absurd rfl takes⟩
  | _ => exact ⟨rfl, fun _ _ => rfl⟩

/-- A posted callback waits only while the reactor owes a pass. -/
def World.Posted (s : World τ ρ κ α) : Prop :=
  s.wakeUpCb.waiting ≠ [] → WakeSignal.Owed s.signal

theorem posted_step {room : Nat} {s s' : World τ ρ κ α} {l : Label τ ρ κ α}
    (token : WakeSignal.Token s.signal) (pos : 0 < room) (posted : s.Posted)
    (step : s.step room l = some s') (works : ∀ c, l ≠ .write c .failed) : s'.Posted := by
  intro waits
  by_cases takes : l = .takeCallbacks
  · subst takes
    exact absurd (takeCallbacks_step step).1 waits
  · by_cases posts : ∃ c cb, l = .wakeUp c cb
    · obtain ⟨c, cb, rfl⟩ := posts
      cases World.Step.of_step step with
      | wakeUp _ may =>
        rw [signal_goto]
        exact WakeSignal.owed_goto _ c (by simp [Call.phase])
    · have same := (frame_step step).2 (fun c cb hl => posts ⟨c, cb, hl⟩) takes
      rcases signal_step step works with ⟨quiet | moved, -⟩ | ⟨taken, -⟩
      · rw [quiet]
        exact posted (same ▸ waits)
      · exact WakeSignal.step_owed token moved pos
      · exact absurd taken takes

end Bfc.WakeUp
