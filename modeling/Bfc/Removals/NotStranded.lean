import Mathlib.Data.List.Nodup
import Bfc.Removals.InOrder

/-!
# No removal is stranded

No request is left behind in `m_removals`, because each has its own posted callback somewhere before
its swap: with the thread that is about to post it, in `m_wake_up_cb`, in the batch the reactor
runs, or called and about to swap. A swap takes every request, so the callbacks of those it takes
early find nothing to do, and that is all that comes of them.
-/

namespace Bfc.Removals

open Lts

variable {τ R κ : Type*}

/-- The request whose `run_removals` is running. -/
def Pc.ticket : Pc κ → Option Nat
  | .swap ticket | .remove ticket _ | .done ticket _ _ => some ticket
  | _ => none

/-- The request a callback was posted for. -/
def WakeUpCb.request : WakeUpCb κ → Option Nat
  | .given _ => none
  | .runRemovals ticket => some ticket

namespace World

/-- The requests whose callback has been posted, called or not. -/
def posted (w : World τ R κ) : List Nat := w.wakeUpCb.all.filterMap WakeUpCb.request

/-- A request in `m_removals` has its callback before it. -/
def Covered (w : World τ R κ) (ticket : Nat) : Prop :=
  (∃ t, w.posting t = some ticket) ∨ .runRemovals ticket ∈ w.wakeUpCb.waiting ∨
    .runRemovals ticket ∈ w.wakeUpCb.batch ∨ w.pc = .swap ticket

variable {reactor : Reactor R} {w w' : World τ R κ}

/-- Where the callbacks are: each request's is with its thread or has been posted once, a request
in `m_removals` has its own before it, and one whose own has been called is not left over in another
callback's batch. -/
structure Posted (w : World τ R κ) : Prop where
  idle : w.pc = .elsewhere → w.wakeUpCb.batch = []
  posting : ∀ t n, w.posting t = some n → n < w.appended.length ∧ n ∉ w.posted
  alone : ∀ t t' n, w.posting t = some n → w.posting t' = some n → t = t'
  once : w.posted.Nodup
  known : ∀ n ∈ w.posted, n < w.appended.length
  covered : ∀ removal ∈ w.removals, Covered w removal.ticket
  running : ∀ n, w.pc.ticket = some n → .runRemovals n ∈ w.wakeUpCb.started
  batch : ∀ removal ∈ w.pc.batch, .runRemovals removal.ticket ∈ w.wakeUpCb.started →
    w.pc.ticket = some removal.ticket

/-- A request in `m_removals` keeps a callback before it when every place it can be in leads to
one. -/
theorem Covered.imp {ticket : Nat} (h : Covered w ticket)
    (posting : ∀ t, w.posting t = some ticket → Covered w' ticket)
    (waiting : .runRemovals ticket ∈ w.wakeUpCb.waiting → Covered w' ticket)
    (batch : .runRemovals ticket ∈ w.wakeUpCb.batch → Covered w' ticket)
    (swap : w.pc = .swap ticket → Covered w' ticket) : Covered w' ticket := by
  rcases h with ⟨t, h⟩ | h | h | h
  · exact posting t h
  · exact waiting h
  · exact batch h
  · exact swap h

namespace Posted

/-- A callback that has been called has been posted. -/
theorem posted_of_started {n : Nat} (h : .runRemovals n ∈ w.wakeUpCb.started) : n ∈ w.posted :=
  List.mem_filterMap.mpr
    ⟨.runRemovals n, List.mem_append_left _ (List.mem_append_left _ h), rfl⟩

/-- A callback that has been called is not waiting to be called. -/
theorem not_covered_of_started (h : Posted w) {n : Nat}
    (started : .runRemovals n ∈ w.wakeUpCb.started) (covered : Covered w n) : w.pc = .swap n := by
  have once := h.once
  have apart : ∀ cbs : List (WakeUpCb κ), .runRemovals n ∈ cbs →
      n ∈ cbs.filterMap WakeUpCb.request :=
    fun cbs mem => List.mem_filterMap.mpr ⟨.runRemovals n, mem, rfl⟩
  simp only [posted, Batched.all, List.filterMap_append, List.nodup_append] at once
  rcases covered with ⟨t, posting⟩ | waiting | batch | pc
  · exact absurd (posted_of_started started) (h.posting t n posting).2
  · exact absurd rfl
      (once.2.2 n (List.mem_append_left _ (apart _ started)) n (apart _ waiting))
  · exact absurd rfl (once.1.2.2 n (apart _ started) n (apart _ batch))
  · exact pc

/-- The reactor thread moves on within `run_removals`, or leaves it. -/
theorem move (h : Posted w) {pc : Pc κ} (moves : pc ≠ .elsewhere)
    (noSwap : ∀ n, w.pc ≠ .swap n) (within : ∀ n, pc.ticket = some n → w.pc.ticket = some n)
    (batch : ∀ removal ∈ pc.batch, removal ∈ w.pc.batch ∧ pc.ticket = w.pc.ticket)
    (same : w'.wakeUpCb = w.wakeUpCb ∧ w'.posting = w.posting ∧ w'.removals = w.removals ∧
      w'.appended = w.appended ∧ w'.pc = pc) : Posted w' := by
  obtain ⟨table, removals, wakeUpCb, pc', posting, appended, acts⟩ := w'
  obtain ⟨rfl, rfl, rfl, rfl, rfl⟩ := same
  exact
    { idle := fun hp => absurd hp moves
      posting := h.posting
      alone := h.alone
      once := h.once
      known := h.known
      covered := fun removal hr => (h.covered removal hr).imp (fun t ht => .inl ⟨t, ht⟩)
        (fun hw => .inr (.inl hw)) (fun hb => .inr (.inr (.inl hb)))
        (fun hp => absurd hp (noSwap _))
      running := fun n hn => h.running n (within n hn)
      batch := fun removal hr started =>
        (batch removal hr).2.trans (h.batch removal (batch removal hr).1 started) }

variable [DecidableEq τ]

theorem append (h : Posted w) {t : τ} (idle : w.posting t = none) (fd : Int) (write : Bool)
    (doneCb : Option κ) : Posted (w.append t fd write doneCb) := by
  have other : ∀ t' n, Function.update w.posting t (some w.appended.length) t' = some n →
      t' = t ∧ n = w.appended.length ∨ t' ≠ t ∧ w.posting t' = some n := by
    intro t' n ht
    by_cases same : t' = t
    · subst same
      rw [Function.update_self] at ht
      exact .inl ⟨rfl, (Option.some.inj ht).symm⟩
    · rw [Function.update_of_ne same] at ht
      exact .inr ⟨same, ht⟩
  have longer : (w.append t fd write doneCb).appended.length = w.appended.length + 1 :=
    List.length_append
  refine
    { idle := h.idle
      posting := fun t' n ht => ?_
      alone := fun t₁ t₂ n h₁ h₂ => ?_
      once := h.once
      known := fun n hn => ?_
      covered := fun removal hr => ?_
      running := h.running
      batch := h.batch }
  · rw [longer]
    rcases other t' n ht with ⟨-, rfl⟩ | ⟨-, ht⟩
    · exact ⟨Nat.lt_succ_self _, fun hn => Nat.lt_irrefl _ (h.known _ hn)⟩
    · exact ⟨Nat.lt_succ_of_lt (h.posting t' n ht).1, (h.posting t' n ht).2⟩
  · rcases other t₁ n h₁ with ⟨e₁, e⟩ | ⟨-, h₁⟩ <;>
      rcases other t₂ n h₂ with ⟨e₂, e'⟩ | ⟨-, h₂⟩
    · exact e₁.trans e₂.symm
    · exact absurd (e ▸ (h.posting t₂ n h₂).1) (Nat.lt_irrefl _)
    · exact absurd (e' ▸ (h.posting t₁ n h₁).1) (Nat.lt_irrefl _)
    · exact h.alone t₁ t₂ n h₁ h₂
  · rw [longer]
    exact Nat.lt_succ_of_lt (h.known n hn)
  · rcases List.mem_append.mp hr with hr | hr
    · refine (h.covered removal hr).imp (fun t' ht => .inl ⟨t', ?_⟩) (fun hw => .inr (.inl hw))
        (fun hb => .inr (.inr (.inl hb))) (fun hp => .inr (.inr (.inr hp)))
      have ne : t' ≠ t := by
        rintro rfl
        rw [idle] at ht
        cases ht
      exact (Function.update_of_ne ne _ _).trans ht
    · rw [List.mem_singleton.mp hr]
      exact .inl ⟨t, Function.update_self _ _ _⟩

theorem post (h : Posted w) {t : τ} {ticket : Nat} (between : w.posting t = some ticket) :
    Posted (w.post t ticket) := by
  have other : ∀ t' n, Function.update w.posting t none t' = some n →
      t' ≠ t ∧ w.posting t' = some n := by
    intro t' n ht
    by_cases same : t' = t
    · subst same
      rw [Function.update_self] at ht
      cases ht
    · rw [Function.update_of_ne same] at ht
      exact ⟨same, ht⟩
  have posted : (w.post t ticket).posted = w.posted ++ [ticket] := by
    unfold World.posted World.post
    rw [Batched.all_post, List.filterMap_append]
    rfl
  obtain ⟨lt, unposted⟩ := h.posting t ticket between
  refine
    { idle := h.idle
      posting := fun t' n ht => ?_
      alone := fun t₁ t₂ n h₁ h₂ => h.alone t₁ t₂ n (other t₁ n h₁).2 (other t₂ n h₂).2
      once := ?_
      known := fun n hn => ?_
      covered := fun removal hr => ?_
      running := h.running
      batch := h.batch }
  · obtain ⟨ne, ht⟩ := other t' n ht
    refine ⟨(h.posting t' n ht).1, ?_⟩
    rw [posted, List.mem_append, List.mem_singleton]
    rintro (hn | hn)
    · exact (h.posting t' n ht).2 hn
    · exact ne (h.alone t' t n ht (hn ▸ between))
  · rw [posted]
    exact List.nodup_append.mpr ⟨h.once, List.nodup_singleton _,
      fun a ha b hb => by rintro rfl; exact unposted (List.mem_singleton.mp hb ▸ ha)⟩
  · rw [posted] at hn
    rcases List.mem_append.mp hn with hn | hn
    · exact h.known n hn
    · exact List.mem_singleton.mp hn ▸ lt
  · refine (h.covered removal hr).imp (fun t' ht => ?_) (fun hw => ?_)
      (fun hb => .inr (.inr (.inl hb))) (fun hp => .inr (.inr (.inr hp)))
    · by_cases same : t' = t
      · subst same
        rw [between] at ht
        rw [← Option.some.inj ht]
        exact .inr (.inl (List.mem_append_right _ (List.mem_singleton_self _)))
      · exact .inl ⟨t', (Function.update_of_ne same _ _).trans ht⟩
    · exact .inr (.inl (List.mem_append_left _ hw))

omit [DecidableEq τ] in
/-- A caller's callback is posted. -/
theorem wakeUp (h : Posted w) (cb : κ) :
    Posted { w with wakeUpCb := w.wakeUpCb.post (.given cb) } := by
  have posted : ({ w with wakeUpCb := w.wakeUpCb.post (.given cb) } : World τ R κ).posted =
      w.posted := by
    unfold World.posted
    rw [Batched.all_post, List.filterMap_append]
    exact List.append_nil _
  refine
    { idle := h.idle
      posting := fun t n ht => posted ▸ h.posting t n ht
      alone := h.alone
      once := posted ▸ h.once
      known := posted ▸ h.known
      covered := fun removal hr => ?_
      running := h.running
      batch := h.batch }
  exact (h.covered removal hr).imp (fun t ht => .inl ⟨t, ht⟩)
    (fun hw => .inr (.inl (List.mem_append_left _ hw)))
    (fun hb => .inr (.inr (.inl hb))) (fun hp => .inr (.inr (.inr hp)))

omit [DecidableEq τ] in
/-- The reactor takes the callbacks. -/
theorem takeCallbacks (h : Posted w) (pc : w.pc = .elsewhere) :
    Posted { w with wakeUpCb := w.wakeUpCb.take, pc := .callbacks } := by
  have posted : ({ w with wakeUpCb := w.wakeUpCb.take, pc := .callbacks } : World τ R κ).posted =
      w.posted := by
    unfold World.posted
    rw [Batched.all_take (h.idle pc)]
  refine
    { idle := fun hp => by cases hp
      posting := fun t n ht => posted ▸ h.posting t n ht
      alone := h.alone
      once := posted ▸ h.once
      known := posted ▸ h.known
      covered := fun removal hr => ?_
      running := fun n hn => by cases hn
      batch := fun removal hr => by cases hr }
  refine (h.covered removal hr).imp (fun t ht => .inl ⟨t, ht⟩)
    (fun hw => .inr (.inr (.inl hw))) (fun hb => ?_) (fun hp => ?_)
  · rw [h.idle pc] at hb
    cases hb
  · rw [pc] at hp
    cases hp

omit [DecidableEq τ] in
/-- The reactor calls the first callback of the batch. -/
theorem next (h : Posted w) {cb : WakeUpCb κ} {rest : List (WakeUpCb κ)}
    (pc : w.pc = .callbacks) (batch : w.wakeUpCb.batch = cb :: rest) : Posted (w.call cb) := by
  have posted : (w.call cb).posted = w.posted := by
    unfold World.posted World.call
    cases cb <;> exact congrArg (List.filterMap WakeUpCb.request) (Batched.all_next _)
  have started : (w.wakeUpCb.next).started = w.wakeUpCb.started ++ [cb] := by
    rw [Batched.next, batch]
    rfl
  have left : (w.wakeUpCb.next).batch = rest := by
    rw [Batched.next, batch]
    rfl
  cases cb with
  | given cb =>
    refine
      { idle := fun hp => absurd (pc.symm.trans hp) (by intro hc; cases hc)
        posting := fun t n ht => posted ▸ h.posting t n ht
        alone := h.alone
        once := posted ▸ h.once
        known := posted ▸ h.known
        covered := fun removal hr => ?_
        running := fun n hn => by rw [World.call, pc] at hn; cases hn
        batch := fun removal hr => by rw [World.call, pc] at hr; cases hr }
    refine (h.covered removal hr).imp (fun t ht => .inl ⟨t, ht⟩) (fun hw => .inr (.inl hw))
      (fun hb => .inr (.inr (.inl ?_))) (fun hp => .inr (.inr (.inr hp)))
    rw [batch] at hb
    rcases List.mem_cons.mp hb with hb | hb
    · cases hb
    · exact left ▸ hb
  | runRemovals ticket =>
    refine
      { idle := fun hp => by cases hp
        posting := fun t n ht => posted ▸ h.posting t n ht
        alone := h.alone
        once := posted ▸ h.once
        known := posted ▸ h.known
        covered := fun removal hr => ?_
        running := fun n hn => ?_
        batch := fun removal hr => by cases hr }
    · refine (h.covered removal hr).imp (fun t ht => .inl ⟨t, ht⟩) (fun hw => .inr (.inl hw))
        (fun hb => ?_) (fun hp => by rw [pc] at hp; cases hp)
      -- the callback that is called now is the one that is about to swap
      rw [batch] at hb
      rcases List.mem_cons.mp hb with hb | hb
      · exact .inr (.inr (.inr (congrArg Pc.swap (WakeUpCb.runRemovals.inj hb).symm)))
      · exact .inr (.inr (.inl (left ▸ hb)))
    · obtain rfl := Option.some.inj hn
      exact started ▸ List.mem_append_right _ (List.mem_singleton_self _)

omit [DecidableEq τ] in
/-- The callbacks have all been called. -/
theorem callbacksEnd (h : Posted w) (pc : w.pc = .callbacks) (batch : w.wakeUpCb.batch = []) :
    Posted { w with pc := .elsewhere } where
  idle _ := batch
  posting := h.posting
  alone := h.alone
  once := h.once
  known := h.known
  covered removal hr := (h.covered removal hr).imp (fun t ht => .inl ⟨t, ht⟩)
    (fun hw => .inr (.inl hw)) (fun hb => .inr (.inr (.inl hb)))
    (fun hp => by rw [pc] at hp; cases hp)
  running n hn := by cases hn
  batch removal hr := by cases hr

omit [DecidableEq τ] in
/-- `run_removals` takes every request. Those whose own callback has been called were waiting for
just this one. -/
theorem swap (h : Posted w) {ticket : Nat} (pc : w.pc = .swap ticket) :
    Posted { w with removals := [], pc := .remove ticket w.removals } where
  idle hp := by cases hp
  posting := h.posting
  alone := h.alone
  once := h.once
  known := h.known
  covered removal hr := by cases hr
  running n hn := h.running n (by rw [pc]; exact hn)
  batch removal hr started := by
    have own := h.not_covered_of_started started (h.covered removal hr)
    rw [pc] at own
    exact congrArg some (Pc.swap.inj own)

omit [DecidableEq τ] in
/-- A removal leaves the rest of the batch to the same callback. -/
theorem perform_pc (reactor : Reactor R) (w : World τ R κ) (ticket : Nat) (removal : Removal κ)
    (batch : List (Removal κ)) :
    (w.perform reactor ticket removal batch).pc ≠ .elsewhere ∧
      (w.perform reactor ticket removal batch).pc.ticket = some ticket ∧
      (w.perform reactor ticket removal batch).pc.batch = batch := by
  unfold World.perform
  cases removal.doneCb with
  | none => exact ⟨(fun hp => by cases hp), rfl, rfl⟩
  | some cb => exact ⟨(fun hp => by cases hp), rfl, rfl⟩

/-- Every step keeps the callbacks where they have to be. -/
theorem step (h : Posted w) {l : Label τ R κ} (step : Step reactor w l w') : Posted w' := by
  cases step with
  | append idle fd write doneCb => exact h.append idle fd write doneCb
  | post between => exact h.post between
  | wakeUp cb => exact h.wakeUp cb
  | table change => exact { h with }
  | takeCallbacks pc => exact h.takeCallbacks pc
  | given pc batch => exact h.next pc batch
  | runRemovals pc batch => exact h.next pc batch
  | callbacksEnd pc batch => exact h.callbacksEnd pc batch
  | swap pc => exact h.swap pc
  | @remove ticket removal batch pc =>
    obtain ⟨within, sameTicket, rest⟩ := perform_pc reactor w ticket removal batch
    refine h.move within (fun n hp => by rw [pc] at hp; cases hp) (fun n hn => ?_)
      (fun removal' hr => ?_) ⟨rfl, rfl, rfl, rfl, rfl⟩
    · rw [pc, ← hn, sameTicket]
      rfl
    · rw [rest] at hr
      rw [pc, sameTicket]
      exact ⟨List.mem_cons_of_mem _ hr, rfl⟩
  | runDone pc =>
    refine h.move (fun hp => by cases hp) (fun n hp => by rw [pc] at hp; cases hp)
      (fun n hn => by rw [pc]; exact hn) (fun removal hr => ?_) ⟨rfl, rfl, rfl, rfl, rfl⟩
    rw [pc]
    exact ⟨hr, rfl⟩
  | removalsEnd pc =>
    exact h.move (fun hp => by cases hp) (fun n hp => by rw [pc] at hp; cases hp)
      (fun n hn => by cases hn) (fun removal hr => by cases hr) ⟨rfl, rfl, rfl, rfl, rfl⟩

end Posted

/-! ## Runs -/

/-- A new reactor. -/
def init (table : R) : World τ R κ := { table := table }

/-- What holds of the removals at any time: they are performed in the order of the requests, each
once, and so are their `done_cb`s; a request in `m_removals` has its own callback before it; and a
callback that has returned leaves its own request performed. -/
structure Exact (w : World τ R κ) : Prop where
  order : w.performed ++ w.pc.batch ++ w.removals = w.appended
  acts : w.acts ++ w.pc.owed = w.performed.flatMap Removal.acts
  distinct : (w.appended.map Removal.ticket).Nodup
  covered : ∀ removal ∈ w.removals, Covered w removal.ticket
  own : w.posted.Nodup
  inTime : ∀ removal ∈ w.appended, .runRemovals removal.ticket ∈ w.wakeUpCb.started →
    w.pc.ticket ≠ some removal.ticket → removal ∈ w.performed

variable [DecidableEq τ]

theorem invariant {table : R} {ls : List (Label τ R κ)}
    (run : Run (fun w l w' => w.step reactor l = some w') (init table) ls w) :
    InOrder w ∧ Posted w := by
  refine run.invariant (P := fun w => InOrder w ∧ Posted w) ⟨?_, ?_⟩ fun h step => ?_
  · exact ⟨rfl, rfl, rfl⟩
  · exact
      { idle := fun _ => rfl
        posting := fun t n ht => by cases ht
        alone := fun t t' n ht => by cases ht
        once := List.nodup_nil
        known := fun n hn => by cases hn
        covered := fun removal hr => by cases hr
        running := fun n hn => by cases hn
        batch := fun removal hr => by cases hr }
  · exact ⟨h.1.step (.of_step step), h.2.step (.of_step step)⟩

/-- A removal on the epoll reactor, whose callback is run before the thread goes on. -/
example : (([.append true 6 false (some 1), .post true, .takeCallbacks, .nextCallback, .swap,
    .remove, .runDone] : List (Label Bool (EpollReactor.Reactor Nat) Nat)).foldlM
      (step epollReactor) (init (.init 3 1))).map (·.acts) =
    some [.removed ⟨0, 6, false, some 1⟩, .done 1] := rfl

end World

end Bfc.Removals
