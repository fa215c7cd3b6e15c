import Bfc.Timers.Runs

/-!
# Which timers are never early

The deadline of a timer is a sum, and in milliseconds a product, that wraps at the end of `int64_t`.
While neither does, the deadline is the instant that was asked for, and no `schedule` call extracts
the timer before it. As soon as one does, the deadline lies before that instant, and a `schedule`
call made in between runs the timer early, if it has a callback.
-/

namespace Bfc.Timers

open Lts

variable {κ : Type*}

/-! ## Deadlines -/

/-- A stored result is in the range of its type. -/
theorem int64_lt (n : Int) : int64 n < 2 ^ 63 := by
  have bound : int64 n < (((2 ^ 64 : Nat) : Int) + 1) / 2 := Int.bmod_lt (by decide)
  omega

/-- What fits is stored as it is. -/
theorem int64_eq {n : Int} (lower : 0 ≤ n) (upper : n < 2 ^ 63) : int64 n = n :=
  Int.bmod_eq_of_le_mul_two (by omega) (by omega)

namespace World

/-- From here on, a `schedule` call that is made at `nowUs` or later runs the timer only when the
delay has passed since `nowUs`. -/
def NeverEarlyFrom (w : World κ) (id : TimerId) (nowUs delayUs : Int) : Prop :=
  ∀ ms u t v ms' w', Run Step w ms u → nowUs ≤ t → t < 2 ^ 63 → Step u (.schedule t) v →
    Run Step v ms' w' → (u.calls.length, id) ∈ w'.ran → delayUs ≤ t - nowUs

/-! ## What a `schedule` call runs -/

/-- The call that a `schedule` begins. -/
theorem schedule_call {w w' : World κ} {t : Int} (step : Step w (.schedule t) w') :
    w'.calls[w.calls.length]? = some { extracted := (w.timer.extract t).1 } := by
  obtain rfl := Option.some.inj step
  exact List.getElem?_concat_length

/-- A `schedule` call runs only what is due. -/
theorem deadline_le_of_ran {ls ms : List (Event κ)} {u v w' : World κ} {t : Int} {id : TimerId}
    (run : Run Step {} ls u) (step : Step u (.schedule t) v) (more : Run Step v ms w')
    (ran : (u.calls.length, id) ∈ w'.ran) : id.deadline ≤ t := by
  have accounted' := Accounted.run ((run.trans (Run.single step)).trans more)
  obtain ⟨call, hc, same, -⟩ := (later_run more).calls _ _ (schedule_call step)
  have mem := accounted'.ran_extracted hc ran
  rw [same, (extract_spec u.timer t).1] at mem
  obtain ⟨e, he, rfl⟩ := List.mem_map.mp mem
  exact of_decide_eq_true (List.mem_filter.mp he).2

/-- Timers are cancelled one after the other. -/
theorem cancel_all (w : World κ) (ids : List TimerId) :
    ∃ u, Run Step w (ids.map .cancel) u ∧
      u.timer.cbMap.entries = w.timer.cbMap.entries.filter fun e => e.1 ∉ ids := by
  induction ids generalizing w with
  | nil =>
    refine ⟨w, Run.nil, ?_⟩
    rw [List.filter_eq_self.mpr]
    exact fun e _ => decide_eq_true List.not_mem_nil
  | cons id ids ih =>
    obtain ⟨v, step⟩ : ∃ v, Step w (.cancel id) v := ⟨_, rfl⟩
    obtain ⟨u, run, entries⟩ := ih v
    refine ⟨u, (Run.single step).trans run, ?_⟩
    obtain rfl := Option.some.inj step
    rw [entries]
    show (w.timer.cbMap.entries.filter fun e => e.1 ≠ id).filter _ = _
    rw [List.filter_filter]
    refine List.filter_congr fun e _ => ?_
    simp only [List.mem_cons, not_or, Bool.decide_and, Bool.and_comm, ne_eq]

/-- A `schedule` call can run any pending timer that is due and has a callback, when the others have
been cancelled. -/
theorem ran_of_due {w : World κ} {t : Int} {id : TimerId} {cb : Option κ}
    (entry : (id, cb) ∈ w.timer.cbMap.entries) (callable : cb ≠ none) (dueBy : id.deadline ≤ t) :
    ∃ ms u v ms' w', Run Step w ms u ∧ Step u (.schedule t) v ∧ Run Step v ms' w' ∧
      (u.calls.length, id) ∈ w'.ran := by
  obtain ⟨u, before, entries⟩ := cancel_all w (w.pending.filter (· ≠ id))
  obtain ⟨v, step⟩ : ∃ v, Step u (.schedule t) v := ⟨_, rfl⟩
  -- the only one that is left
  have only : ∀ e ∈ u.timer.cbMap.entries, e = (id, cb) := by
    intro e he
    rw [entries] at he
    obtain ⟨mem, kept⟩ := List.mem_filter.mp he
    refine OrderedMap.eq_of_key mem entry ?_
    by_contra other
    exact of_decide_eq_true kept
      (List.mem_filter.mpr ⟨List.mem_map_of_mem mem, decide_eq_true other⟩)
  have extracted : (id, cb) ∈ (u.timer.extract t).1 := by
    rw [(extract_spec u.timer t).1, entries]
    refine List.mem_filter.mpr ⟨List.mem_filter.mpr ⟨entry, decide_eq_true ?_⟩,
      decide_eq_true dueBy⟩
    exact fun mem => of_decide_eq_true (List.mem_filter.mp mem).2 rfl
  obtain ⟨first, after, cut⟩ := List.append_of_mem extracted
  have called : ∀ e ∈ first, e.2 ≠ none := by
    intro e he
    have mem : e ∈ (u.timer.extract t).1 := cut ▸ List.mem_append_left _ he
    rw [(extract_spec u.timer t).1] at mem
    exact only e (List.mem_filter.mp mem).1 ▸ callable
  obtain ⟨ms', w', run, ran⟩ := reaches_callback (schedule_call step) rfl cut called callable
  refine ⟨_, u, v, ms', w', before, step, run, ?_⟩
  exact ran ▸ List.mem_append_right _ (List.mem_singleton_self _)

/-- The promise is kept exactly if the instant asked for is not after both the deadline and the
time of the wait. -/
theorem neverEarlyFrom_iff {ls : List (Event κ)} {w : World κ} {id : TimerId} {cb : Option κ}
    {nowUs delayUs : Int} (run : Run Step {} ls w) (entry : (id, cb) ∈ w.timer.cbMap.entries)
    (callable : cb ≠ none) (deadline : id.deadline < 2 ^ 63) (now : nowUs < 2 ^ 63) :
    w.NeverEarlyFrom id nowUs delayUs ↔ nowUs + delayUs ≤ max nowUs id.deadline := by
  constructor
  · intro never
    obtain ⟨ms, u, v, ms', w', before, step, more, ran⟩ :=
      ran_of_due (t := max nowUs id.deadline) entry callable (Int.le_max_right _ _)
    have passed := never ms u _ v ms' w' before (Int.le_max_left _ _) (max_lt now deadline)
      step more ran
    omega
  · intro asked ms u t v ms' w' before later _ step more ran
    have reached := deadline_le_of_ran (run.trans before) step more ran
    have : max nowUs id.deadline ≤ t := max_le later reached
    omega

/-! ## Empty callbacks -/

/-- Wherever the timer is, its callback is empty. -/
def Empty (w : World κ) (id : TimerId) : Prop :=
  ∀ e, (e ∈ w.timer.cbMap.entries ∨ ∃ call ∈ w.calls, e ∈ call.extracted) → e.1 = id → e.2 = none

theorem empty_step {w w' : World κ} {e : Event κ} {id : TimerId} (h : Accounted w)
    (created : id ∈ w.created) (empty : Empty w id) (step : Step w e w') : Empty w' id := by
  have armed : ∀ (forUs : Int) (cb : Option κ) (nowUs : Int),
      Empty (w.armed (w.timer.waitUs forUs cb nowUs)) id := by
    intro forUs cb nowUs e place same
    rcases place with mem | there
    · rcases OrderedMap.mem_insertEntry mem with rfl | mem
      · exact absurd (same ▸ h.ctr_lt created) (Nat.lt_irrefl _)
      · exact empty e (.inl mem) same
    · exact empty e (.inr there) same
  -- a call that is rewritten has extracted what it had
  have set : ∀ {c : Nat} {call : Call κ} (new : Call κ), w.calls[c]? = some call →
      new.extracted = call.extracted → w'.timer = w.timer → w'.calls = w.calls.set c new →
      Empty w' id := by
    intro c call new hc extracted timer calls e place same
    rw [timer, calls] at place
    refine empty e (place.imp_right ?_) same
    rintro ⟨call', mem, he⟩
    rcases List.mem_or_eq_of_mem_set mem with mem | rfl
    · exact ⟨call', mem, he⟩
    · exact ⟨call, List.mem_of_getElem? hc, extracted ▸ he⟩
  cases e with
  | waitUs forUs cb nowUs => exact Option.some.inj step ▸ armed forUs cb nowUs
  | waitMs forMs cb nowUs => exact Option.some.inj step ▸ armed _ cb nowUs
  | getNextDeadlineUs => exact Option.some.inj step ▸ empty
  | cancel other =>
    obtain rfl := Option.some.inj step
    exact fun e place same => empty e (place.imp_left fun mem => (List.mem_filter.mp mem).1) same
  | schedule nowUs =>
    obtain rfl := Option.some.inj step
    obtain ⟨extracted, left, -⟩ := extract_spec w.timer nowUs
    intro e place same
    refine empty e ?_ same
    rcases place with mem | ⟨call, hcall, he⟩
    · have there : e ∈ (w.timer.extract nowUs).2.cbMap.entries := mem
      rw [left] at there
      exact .inl (List.mem_filter.mp there).1
    · rcases List.mem_append.mp hcall with old | new
      · exact .inr ⟨call, old, he⟩
      · obtain rfl := List.mem_singleton.mp new
        have there : e ∈ (w.timer.extract nowUs).1 := he
        rw [extracted] at there
        exact .inl (List.mem_filter.mp there).1
  | callback c =>
    obtain ⟨call, timer, hc, -, -, ⟨-, rfl⟩ | ⟨-, rfl⟩⟩ := Accounted.callback_cases step
    · exact set { call with position := call.position + 1 } hc rfl rfl rfl
    · exact set { call with threw := true } hc rfl rfl rfl
  | callbackThrows c =>
    obtain ⟨call, hc, -, -, rfl⟩ := Accounted.callbackThrows_cases step
    exact set { call with threw := true } hc rfl rfl rfl
  | scheduleReturns c =>
    obtain ⟨call, hc, -, -, -, rfl⟩ := Accounted.returns_cases step
    exact set { call with returned := true } hc rfl rfl rfl

/-- A timer without a callback is never run. -/
theorem not_ran_of_empty {w w' : World κ} {ms : List (Event κ)} {id : TimerId} (h : Accounted w)
    (created : id ∈ w.created) (empty : Empty w id) (run : Run Step w ms w') (c : Nat) :
    (c, id) ∉ w'.ran := by
  intro ran
  obtain ⟨h', -, empty'⟩ := run.invariant
    (P := fun u => Accounted u ∧ id ∈ u.created ∧ Empty u id) ⟨h, created, empty⟩
    fun ⟨h, created, empty⟩ step => ⟨h.step _ step, (later_step step).created.subset created,
      empty_step h created empty step⟩
  obtain ⟨call, hc⟩ : ∃ call, w'.calls[c]? = some call :=
    ⟨_, List.getElem?_eq_getElem (h'.ranCalls _ ran)⟩
  obtain ⟨e, he, same, called⟩ := h'.ran_entry hc ran
  exact called (empty' e (.inr ⟨call, List.mem_of_getElem? hc, he⟩) same)

/-! ## The exact condition -/

/-- A new timer has a new identifier. -/
theorem armed_new {w : World κ} (h : Accounted w) (forUs : Int) (cb : Option κ) (nowUs : Int) :
    (w.timer.waitUs forUs cb nowUs).1 ∉ w.created :=
  fun mem => Nat.lt_irrefl _ (h.ctr_lt mem)

/-- A wait leaves its timer pending. -/
theorem entry_armed {w : World κ} (h : Accounted w) (forUs : Int) (cb : Option κ) (nowUs : Int) :
    ((w.timer.waitUs forUs cb nowUs).1, cb) ∈
      (w.armed (w.timer.waitUs forUs cb nowUs)).timer.cbMap.entries := by
  have new : (w.timer.waitUs forUs cb nowUs).1 ∉ w.timer.cbMap.keys :=
    fun mem => armed_new h forUs cb nowUs (h.created_of_pending mem)
  exact (OrderedMap.insertEntry_perm cb new).mem_iff.mpr List.mem_cons_self

/-- A wait without a callback. -/
theorem empty_armed {w : World κ} (h : Accounted w) (forUs nowUs : Int) :
    Empty (w.armed (w.timer.waitUs forUs none nowUs)) (w.timer.waitUs forUs none nowUs).1 := by
  have new := armed_new h forUs none nowUs
  intro e place same
  rcases place with mem | ⟨call, mem, he⟩
  · rcases OrderedMap.mem_insertEntry mem with rfl | mem
    · rfl
    · exact absurd (same ▸ h.created_of_pending (List.mem_map_of_mem mem)) new
  · obtain ⟨c, hc⟩ := List.getElem?_of_mem mem
    exact absurd (same ▸ h.extracted_created hc (List.mem_map_of_mem he)) new

/-- A wait of a stored delay that is the requested one, where that can be. -/
theorem armed_neverEarly_iff {ls : List (Event κ)} {w : World κ} {e : Event κ} {cb : Option κ}
    {nowUs forUs delayUs : Int} (run : Run Step {} ls w)
    (step : Step w e (w.armed (w.timer.waitUs forUs cb nowUs))) (now : 0 ≤ nowUs ∧ nowUs < 2 ^ 63)
    (delayed : 0 ≤ delayUs) (stored : nowUs + delayUs < 2 ^ 63 → forUs = delayUs) :
    (w.armed (w.timer.waitUs forUs cb nowUs)).NeverEarlyFrom (w.timer.waitUs forUs cb nowUs).1
      nowUs delayUs ↔ cb = none ∨ nowUs + delayUs < 2 ^ 63 := by
  have accounted := Accounted.run run
  cases cb with
  | none =>
    refine iff_of_true ?_ (.inl rfl)
    intro ms u t v ms' w' before _ _ schedule more ran
    have created : (w.timer.waitUs forUs none nowUs).1 ∈
        (w.armed (w.timer.waitUs forUs none nowUs)).created :=
      List.mem_append_right _ (List.mem_singleton_self _)
    exact absurd ran (not_ran_of_empty (accounted.step e step) created
      (empty_armed accounted forUs nowUs) ((before.trans (Run.single schedule)).trans more) _)
  | some cb =>
    rw [neverEarlyFrom_iff (run.trans (Run.single step)) (entry_armed accounted forUs _ nowUs)
      (Option.some_ne_none cb) (int64_lt _) now.2]
    show nowUs + delayUs ≤ max nowUs (int64 (nowUs + forUs)) ↔ _
    constructor
    · intro asked
      exact .inr (lt_of_le_of_lt asked (max_lt now.2 (int64_lt _)))
    · intro fits
      have inside := fits.resolve_left (Option.some_ne_none cb)
      rw [stored inside, int64_eq (Int.add_nonneg now.1 delayed) inside]
      exact Int.le_max_right _ _

/-- **When a timer is never early**: no later `schedule` call runs it before the delay that was
passed to `wait_us` or to `wait_ms` has gone by, in any future, exactly if the instant asked for is
one that `int64_t` has, or there is no callback to run. -/
theorem never_early_iff {ls : List (Event κ)} {w : World κ} (run : Run Step {} ls w)
    (cb : Option κ) {nowUs delay : Int} (now : 0 ≤ nowUs ∧ nowUs < 2 ^ 63) (delayed : 0 ≤ delay) :
    (∀ w', Step w (.waitUs delay cb nowUs) w' →
      (w'.NeverEarlyFrom (w.timer.waitUs delay cb nowUs).1 nowUs delay ↔
        cb = none ∨ nowUs + delay < 2 ^ 63)) ∧
    ∀ w', Step w (.waitMs delay cb nowUs) w' →
      (w'.NeverEarlyFrom (w.timer.waitMs delay cb nowUs).1 nowUs (1000 * delay) ↔
        cb = none ∨ nowUs + 1000 * delay < 2 ^ 63) := by
  constructor
  · intro w' step
    obtain rfl := Option.some.inj step
    exact armed_neverEarly_iff run step now delayed fun _ => rfl
  · intro w' step
    obtain rfl := Option.some.inj step
    refine armed_neverEarly_iff run step now (by omega) fun inside => ?_
    rw [int64_eq (by omega) (by omega), Int.mul_comm]

/-- Ten milliseconds from 5: the timer is never early. -/
theorem never_early_iff_ten :
    ∃ w', Step ({} : World Nat) (.waitMs 10 (some 0) 5) w' ∧
      (w'.NeverEarlyFrom ⟨10005, 0⟩ 5 10000 ↔ some 0 = none ∨ (5 : Int) + 1000 * 10 < 2 ^ 63) :=
  ⟨_, rfl, (never_early_iff Run.nil (some 0) (by decide) (by decide)).2 _ rfl⟩

/-- A wait of the longest delay at 1 wraps to the least deadline: `schedule(1)` runs it at once. -/
theorem early_at_wrap :
    ¬∀ (ls : List (Event Nat)) (w w' : World Nat) (nowUs delay : Int), Run Step {} ls w →
      0 ≤ nowUs ∧ nowUs < 2 ^ 63 → 0 ≤ delay ∧ delay < 2 ^ 63 →
      Step w (.waitUs delay (some 0) nowUs) w' →
      w'.NeverEarlyFrom (w.timer.waitUs delay (some 0) nowUs).1 nowUs delay := by
  intro never
  have promise := never [] {} _ 1 (2 ^ 63 - 1) Run.nil (by decide) (by decide) rfl
  have passed := promise [] _ 1 _ [.callback 0] _ Run.nil (by decide) (by decide) rfl
    (Run.single rfl) (by decide)
  exact absurd passed (by decide)

end World

end Bfc.Timers
