import Bfc.Lib.Shares
import Bfc.Lib.Tables
import Bfc.Timers.Timer

/-!
# Scheduling is exact

Every timer is accounted for: the created timers are, each once, the pending ones, those extracted
and not run, those that have run and those that were cancelled. That is one permutation, and each
step moves at most one part of it to another; the order in which a call runs its timers is the order
of the map it took them from. Where an exception leaves a call, what it has not run stays so.
-/

namespace Bfc.Timers

variable {κ : Type*}

/-! ## The critical sections -/

/-- A timer is due. -/
def due (nowUs : Int) (id : TimerId) : Bool := decide (id.deadline ≤ nowUs)

theorem due_of_lt {nowUs : Int} (a b : TimerId) (lt : a < b) (h : due nowUs b = true) :
    due nowUs a = true := by
  unfold due at h ⊢
  rw [decide_eq_true_eq] at h ⊢
  exact Int.le_trans (TimerId.deadline_le (le_of_lt lt)) h

/-- The loop extracts the due timers, all of them although it stops early, and leaves the rest. -/
theorem extractDue_spec (nowUs : Int) (map : OrderedMap TimerId κ) {it : List (TimerId × κ)}
    (h : map.entries = it) :
    (Timer.extractDue nowUs map it).1 = it.filter (fun e => due nowUs e.1) ∧
      (Timer.extractDue nowUs map it).2.entries = it.filter (fun e => !due nowUs e.1) := by
  induction it generalizing map with
  | nil => exact ⟨rfl, h⟩
  | cons timer next ih =>
    unfold Timer.extractDue
    by_cases now : nowUs ≥ timer.1.deadline
    · have isDue : due nowUs timer.1 = true := decide_eq_true now
      obtain ⟨extracted, left⟩ := ih _ (OrderedMap.erase_first h)
      rw [if_pos now]
      constructor
      · rw [List.filter_cons_of_pos (p := fun e : TimerId × κ => due nowUs e.1) isDue, ← extracted]
      · rw [List.filter_cons_of_neg (p := fun e : TimerId × κ => !due nowUs e.1)
          (by rw [isDue]; decide), ← left]
    · have notDue : due nowUs timer.1 = false := decide_eq_false now
      have wantsNone := OrderedMap.none_wanted (h ▸ map.sorted) due_of_lt notDue
      rw [if_neg now]
      refine ⟨wantsNone.symm, ?_⟩
      rw [h]
      symm
      rw [List.filter_eq_self]
      intro e he
      rw [Bool.not_eq_true', ← Bool.not_eq_true]
      exact List.filter_eq_nil_iff.mp wantsNone e he

theorem extract_spec (t : Timer κ) (nowUs : Int) :
    (t.extract nowUs).1 = t.cbMap.entries.filter (fun e => due nowUs e.1) ∧
      (t.extract nowUs).2.cbMap.entries = t.cbMap.entries.filter (fun e => !due nowUs e.1) ∧
      (t.extract nowUs).2.timerCtr = t.timerCtr :=
  have spec := extractDue_spec nowUs t.cbMap rfl
  ⟨spec.1, spec.2, rfl⟩

/-- What is extracted and what stays is what was there. -/
theorem extract_perm (t : Timer κ) (nowUs : Int) :
    t.cbMap.keys.Perm
      ((t.extract nowUs).2.cbMap.keys ++ (t.extract nowUs).1.map Prod.fst) := by
  obtain ⟨extracted, left, -⟩ := extract_spec t nowUs
  unfold OrderedMap.keys
  rw [extracted, left, ← List.map_append]
  refine List.Perm.map _ ?_
  have split := List.filter_append_perm (fun e : TimerId × κ => due nowUs e.1) t.cbMap.entries
  exact split.symm.trans List.perm_append_comm

/-- The deadline reported is the least of the pending ones, and there is one unless none is
pending. -/
theorem getNextDeadlineUs_spec (t : Timer κ) :
    match t.getNextDeadlineUs with
    | none => t.cbMap.keys = []
    | some d => (∃ id ∈ t.cbMap.keys, id.deadline = d) ∧ ∀ id ∈ t.cbMap.keys, d ≤ id.deadline := by
  unfold Timer.getNextDeadlineUs
  cases h : t.cbMap.entries with
  | nil =>
    show t.cbMap.entries.map Prod.fst = []
    rw [h, List.map_nil]
  | cons e rest =>
    refine ⟨⟨e.1, List.mem_map_of_mem (h ▸ List.mem_cons_self), rfl⟩, ?_⟩
    intro id hid
    exact TimerId.deadline_le (OrderedMap.first_le h hid)

namespace World

/-! ## The account -/

/-- A call runs what it has extracted, in order, and no empty callback. -/
structure CallAccounted (w : World κ) (c : Nat) (call : Call κ) : Prop where
  inOrder : call.extracted.Pairwise (fun a b => a.1 < b.1)
  within : call.position ≤ call.extracted.length
  returned : call.returned = true → call.position = call.extracted.length
  ran : w.ranBy c = (call.extracted.take call.position).map Prod.fst
  called : ∀ e ∈ call.extracted.take call.position, e.2 ≠ none

/-- What a call does shows in what has been run. -/
theorem CallAccounted.congr {w w' : World κ} {c : Nat} {call : Call κ} (h : CallAccounted w c call)
    (ran : w'.ranBy c = w.ranBy c) : CallAccounted w' c call where
  inOrder := h.inOrder
  within := h.within
  returned := h.returned
  ran := ran.trans h.ran
  called := h.called

/-- Every timer is in one place, and every call runs what it has extracted. -/
structure Accounted (w : World κ) : Prop where
  counters : w.created.map TimerId.ctr = List.range w.timer.timerCtr
  states : w.created.Perm (w.pending ++ w.left ++ w.run ++ w.cancelled)
  calls : ∀ c call, w.calls[c]? = some call → CallAccounted w c call
  ranCalls : ∀ r ∈ w.ran, r.1 < w.calls.length

/-- A call that is rewritten: what it has not run is all that changes of what is not run. -/
theorem count_left_set (w : World κ) {c : Nat} {call : Call κ} (hcall : w.calls[c]? = some call)
    (new : Call κ) (id : TimerId) :
    (left { w with calls := w.calls.set c new }).count id + (call.left.map Prod.fst).count id =
      w.left.count id + (new.left.map Prod.fst).count id :=
  Shares.count_set hcall new id

namespace Accounted

variable {w w' : World κ}

/-- The timers are distinct, because their counters are. -/
theorem nodup (h : Accounted w) : w.created.Nodup := by
  refine List.Nodup.of_map TimerId.ctr ?_
  rw [h.counters]
  exact List.nodup_range

/-- Counters are handed out in turn. -/
theorem ctr_lt (h : Accounted w) {id : TimerId} (mem : id ∈ w.created) :
    id.ctr < w.timer.timerCtr := by
  have := List.mem_map_of_mem (f := TimerId.ctr) mem
  rwa [h.counters, List.mem_range] at this

theorem created_of_pending (h : Accounted w) {id : TimerId} (mem : id ∈ w.pending) :
    id ∈ w.created := by
  refine h.states.mem_iff.mpr ?_
  simp only [List.mem_append]
  exact .inl (.inl (.inl mem))

/-- A wait adds a pending timer under a new identifier. -/
theorem wait (h : Accounted w) (forUs : Int) (cb : Option κ) (nowUs : Int) :
    Accounted (w.armed (w.timer.waitUs forUs cb nowUs)) where
  counters := by
    show (w.created ++ [_]).map TimerId.ctr = List.range (w.timer.timerCtr + 1)
    rw [List.map_append, h.counters, List.range_succ]
    rfl
  states := by
    have new : (w.timer.waitUs forUs cb nowUs).1 ∉ w.timer.cbMap.keys := by
      intro mem
      exact Nat.lt_irrefl _ (h.ctr_lt (h.created_of_pending mem))
    have keys : (w.armed (w.timer.waitUs forUs cb nowUs)).pending.Perm
        ((w.timer.waitUs forUs cb nowUs).1 :: w.pending) := OrderedMap.keys_emplace new cb
    refine (List.perm_append_singleton _ _).trans ((h.states.cons _).trans ?_)
    exact ((keys.symm.append_right _).append_right _).append_right _
  calls c call hc := (h.calls c call hc).congr rfl
  ranCalls := h.ranCalls

/-- A cancelled timer was pending. -/
theorem cancel (h : Accounted w) (id : TimerId) (step : w.step (.cancel id) = some w') :
    Accounted w' := by
  obtain rfl := Option.some.inj step
  have keys : (w.timer.cancel id).2.cbMap.keys = w.pending.erase id := OrderedMap.keys_erase _ _
  refine
    { counters := h.counters
      states := ?_
      calls := fun c call hc => (h.calls c call hc).congr rfl
      ranCalls := h.ranCalls }
  show w.created.Perm ((w.timer.cancel id).2.cbMap.keys ++ w.left ++ w.run ++
    if decide (id ∈ w.pending) then w.cancelled ++ [id] else w.cancelled)
  rw [keys]
  by_cases mem : id ∈ w.pending
  · rw [if_pos (decide_eq_true mem)]
    refine h.states.trans ?_
    have moved := List.perm_cons_erase mem
    rw [List.perm_iff_count] at moved ⊢
    intro a
    have := moved a
    simp only [List.count_append, List.count_cons, List.count_nil] at this ⊢
    omega
  · rw [if_neg (by rw [decide_eq_true_eq]; exact mem), List.erase_of_not_mem mem]
    exact h.states

/-- A call of `schedule` begins with what it has extracted. -/
theorem schedule (h : Accounted w) (nowUs : Int) (step : w.step (.schedule nowUs) = some w') :
    Accounted w' := by
  obtain rfl := Option.some.inj step
  obtain ⟨extracted, -, ctr⟩ := extract_spec w.timer nowUs
  refine { counters := ?_, states := ?_, calls := ?_, ranCalls := ?_ }
  · show w.created.map TimerId.ctr = List.range (w.timer.extract nowUs).2.timerCtr
    rw [ctr]
    exact h.counters
  · refine h.states.trans ?_
    have split := extract_perm w.timer nowUs
    rw [List.perm_iff_count] at split ⊢
    intro a
    have := split a
    simp only [World.pending, World.left, World.run, List.count_append, List.flatMap_append,
      List.flatMap_singleton, Call.left, List.drop_zero] at this ⊢
    omega
  · intro c call hc
    rcases Tables.append_cases hc with ⟨rfl, rfl⟩ | ⟨-, old⟩
    · refine ⟨?_, Nat.zero_le _, (fun hr => by cases hr), ?_, fun e he => by cases he⟩
      · show (w.timer.extract nowUs).1.Pairwise _
        rw [extracted]
        exact w.timer.cbMap.sorted.filter _
      · -- nothing has run under a number that is only now given out
        show (w.ran.filter _).map Prod.snd = _
        rw [List.take_zero, List.map_nil, List.map_eq_nil_iff, List.filter_eq_nil_iff]
        intro r hr hc
        have := h.ranCalls r hr
        rw [of_decide_eq_true hc] at this
        exact Nat.lt_irrefl _ this
    · exact (h.calls c call old).congr rfl
  · intro r hr
    have := h.ranCalls r hr
    show r.1 < (w.calls ++ [_]).length
    rw [List.length_append]
    omega

/-- A callback is the next one of its call; an empty one throws. -/
theorem callback_cases {c : Nat} (step : w.step (.callback c) = some w') :
    ∃ call timer, w.calls[c]? = some call ∧ call.threw = false ∧
      call.extracted[call.position]? = some timer ∧
      (timer.2 ≠ none ∧ w' = { w with
        calls := w.calls.set c { call with position := call.position + 1 }
        ran := w.ran ++ [(c, timer.1)] } ∨
      timer.2 = none ∧ w' = { w with calls := w.calls.set c { call with threw := true } }) := by
  obtain ⟨call, hcall, step⟩ := Option.bind_eq_some_iff.mp step
  split at step
  · cases step
  · rename_i going
    obtain ⟨⟨id, cb⟩, htimer, step⟩ := Option.bind_eq_some_iff.mp step
    refine ⟨call, (id, cb), hcall, Bool.eq_false_iff.mpr going, htimer, ?_⟩
    cases cb with
    | some cb => exact .inl ⟨Option.some_ne_none cb, (Option.some.inj step).symm⟩
    | none => exact .inr ⟨rfl, (Option.some.inj step).symm⟩

/-- A callback throws while its call goes on. -/
theorem callbackThrows_cases {c : Nat} (step : w.step (.callbackThrows c) = some w') :
    ∃ call, w.calls[c]? = some call ∧ call.returned = false ∧ call.threw = false ∧
      w' = { w with calls := w.calls.set c { call with threw := true } } := by
  obtain ⟨call, hcall, step⟩ := Option.bind_eq_some_iff.mp step
  obtain ⟨⟨-, notReturned, going⟩, step⟩ := Option.ite_none_right_eq_some.mp step
  exact ⟨call, hcall, Bool.eq_false_iff.mpr notReturned, Bool.eq_false_iff.mpr going,
    (Option.some.inj step).symm⟩

/-- A call returns when it has called everything it extracted. -/
theorem returns_cases {c : Nat} (step : w.step (.scheduleReturns c) = some w') :
    ∃ call, w.calls[c]? = some call ∧ call.extracted.length ≤ call.position ∧
      call.returned = false ∧ call.threw = false ∧
      w' = { w with calls := w.calls.set c { call with returned := true } } := by
  obtain ⟨call, hcall, step⟩ := Option.bind_eq_some_iff.mp step
  obtain ⟨⟨all, notReturned, going⟩, step⟩ := Option.ite_none_right_eq_some.mp step
  exact ⟨call, hcall, all, Bool.eq_false_iff.mpr notReturned, Bool.eq_false_iff.mpr going,
    (Option.some.inj step).symm⟩

/-- A callback counts for its own call. -/
theorem ranBy_append {c : Nat} {id : TimerId} (ran : w'.ran = w.ran ++ [(c, id)]) (d : Nat) :
    w'.ranBy d = if d = c then w.ranBy d ++ [id] else w.ranBy d := by
  rw [World.ranBy, ran, List.filter_append, List.map_append]
  split
  · rename_i own
    subst own
    simp [World.ranBy]
  · rename_i other
    rw [List.filter_cons_of_neg (by simpa using Ne.symm other)]
    simp [World.ranBy]

/-- A call is over, and has run what it had. -/
theorem finished (h : Accounted w) {c : Nat} {call : Call κ} (hcall : w.calls[c]? = some call)
    (new : Call κ) (extracted : new.extracted = call.extracted)
    (position : new.position = call.position)
    (returned : new.returned = true → call.position = call.extracted.length) :
    Accounted { w with calls := w.calls.set c new } where
  counters := h.counters
  states := by
    have kept : w.left.Perm (World.left { w with calls := w.calls.set c new }) := by
      have same : new.left = call.left := by rw [Call.left, Call.left, extracted, position]
      rw [List.perm_iff_count]
      intro a
      have moved := count_left_set w hcall new a
      rw [same] at moved
      exact (Nat.add_right_cancel moved).symm
    exact h.states.trans (((kept.append_left _).append_right _).append_right _)
  calls := by
    intro d call' hd
    rcases Tables.set_cases hcall hd with ⟨rfl, rfl⟩ | ⟨-, hd⟩
    · obtain ⟨inOrder, within, -, ran, called⟩ := h.calls d call hcall
      constructor
      · exact extracted ▸ inOrder
      · rw [extracted, position]
        exact within
      · rw [extracted, position]
        exact returned
      · rw [extracted, position]
        exact ran
      · rw [extracted, position]
        exact called
    · exact (h.calls d call' hd).congr rfl
  ranCalls := by
    intro r hr
    show r.1 < (w.calls.set c _).length
    rw [List.length_set]
    exact h.ranCalls r hr

theorem callback (h : Accounted w) {c : Nat} (step : w.step (.callback c) = some w') :
    Accounted w' := by
  obtain ⟨call, timer, hcall, -, htimer, ⟨callable, rfl⟩ | ⟨-, rfl⟩⟩ := callback_cases step
  · obtain ⟨inOrder, -, ended, ran, called⟩ := h.calls c call hcall
    obtain ⟨inside, here⟩ := List.getElem?_eq_some_iff.mp htimer
    refine { counters := h.counters, states := ?_, calls := ?_, ranCalls := ?_ }
    · refine h.states.trans ?_
      rw [List.perm_iff_count]
      intro a
      have moved := count_left_set w hcall { call with position := call.position + 1 } a
      rw [Call.left, Call.left, List.drop_eq_getElem_cons inside, here, List.map_cons,
        List.count_cons] at moved
      simp only [World.pending, World.left, World.run, List.count_append, List.count_cons,
        List.map_append, List.map_cons, List.map_nil, List.count_nil] at moved ⊢
      omega
    · intro d call' hd
      have ranBy : World.ranBy { w with
            calls := w.calls.set c { call with position := call.position + 1 }
            ran := w.ran ++ [(c, timer.1)] } d =
          if d = c then w.ranBy d ++ [timer.1] else w.ranBy d := ranBy_append rfl d
      rcases Tables.set_cases hcall hd with ⟨rfl, rfl⟩ | ⟨ne, hd⟩
      · have taken : call.extracted.take (call.position + 1) =
            call.extracted.take call.position ++ [timer] := by
          rw [List.take_add_one, htimer]
          rfl
        refine ⟨inOrder, inside, fun hr => ?_, ?_, ?_⟩
        · have := ended hr
          omega
        · rw [ranBy, if_pos rfl, ran, taken, List.map_append]
          rfl
        · rw [taken]
          intro e he
          rcases List.mem_append.mp he with he | he
          · exact called e he
          · exact List.mem_singleton.mp he ▸ callable
      · exact (h.calls d call' hd).congr (by rw [ranBy, if_neg ne])
    · intro r hr
      show r.1 < (w.calls.set c _).length
      rw [List.length_set]
      rcases List.mem_append.mp hr with hr | hr
      · exact h.ranCalls r hr
      · rw [List.mem_singleton.mp hr]
        exact (List.getElem?_eq_some_iff.mp hcall).1
  · exact h.finished hcall _ rfl rfl (h.calls c call hcall).returned

theorem callbackThrows (h : Accounted w) {c : Nat}
    (step : w.step (.callbackThrows c) = some w') : Accounted w' := by
  obtain ⟨call, hcall, -, -, rfl⟩ := callbackThrows_cases step
  exact h.finished hcall _ rfl rfl (h.calls c call hcall).returned

theorem scheduleReturns (h : Accounted w) {c : Nat}
    (step : w.step (.scheduleReturns c) = some w') : Accounted w' := by
  obtain ⟨call, hcall, all, -, -, rfl⟩ := returns_cases step
  exact h.finished hcall _ rfl rfl fun _ => Nat.le_antisymm (h.calls c call hcall).within all

/-- Every step keeps the account. -/
theorem step (h : Accounted w) (e : Event κ) (step : w.step e = some w') : Accounted w' := by
  cases e with
  | waitUs forUs cb nowUs => exact Option.some.inj step ▸ h.wait forUs cb nowUs
  | waitMs forMs cb nowUs => exact Option.some.inj step ▸ h.wait (int64 (forMs * 1000)) cb nowUs
  | getNextDeadlineUs => exact Option.some.inj step ▸ h
  | cancel id => exact h.cancel id step
  | schedule nowUs => exact h.schedule nowUs step
  | callback c => exact h.callback step
  | callbackThrows c => exact h.callbackThrows step
  | scheduleReturns c => exact h.scheduleReturns step

/-- At the start there are no timers. -/
theorem start : Accounted ({} : World κ) where
  counters := rfl
  states := List.Perm.refl _
  calls c call hc := by cases hc
  ranCalls r hr := by cases hr

/-- Every run keeps the account. -/
theorem after (h : Accounted w) {ms : List (Event κ)} (more : Lts.Run Step w ms w') :
    Accounted w' :=
  more.invariant h fun h step => h.step _ step

theorem run {ls : List (Event κ)} (run : Lts.Run Step ({} : World κ) ls w) : Accounted w :=
  start.after run

end Accounted

end World

end Bfc.Timers
