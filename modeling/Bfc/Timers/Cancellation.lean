import Bfc.Timers.Runs

/-!
# Which cancellations are final

`cancel` takes a timer off the map of pending ones. A timer that a `schedule` call has extracted is
no longer there, and its call still runs it, whatever is cancelled in between, unless an exception
leaves the call before. So a cancellation is final except in that one place.
-/

namespace Bfc.Timers

open Lts

variable {κ : Type*}

namespace World

/-- From here on, the timer's callback is not started, in any future. -/
def NotStartedFrom (w : World κ) (id : TimerId) : Prop :=
  ∀ ms w', Run Step w ms w' → w'.run.count id = w.run.count id

/-- The timers that `schedule` calls have extracted and are going to run. -/
def upcoming (w : World κ) : List TimerId := w.calls.flatMap Call.upcoming

/-! ## Callbacks that have been started -/

/-- What has been started stays so. -/
theorem ran_extended {w w' : World κ} {ms : List (Event κ)} (run : Run Step w ms w') :
    w.ran <+: w'.ran := by
  refine run.invariant (P := fun u => w.ran <+: u.ran) (List.prefix_refl _) ?_
  intro a e b kept step
  refine kept.trans ?_
  cases e with
  | waitUs forUs cb nowUs => exact Option.some.inj step ▸ List.prefix_refl _
  | waitMs forMs cb nowUs => exact Option.some.inj step ▸ List.prefix_refl _
  | getNextDeadlineUs => exact Option.some.inj step ▸ List.prefix_refl _
  | cancel id => exact Option.some.inj step ▸ List.prefix_refl _
  | schedule nowUs => exact Option.some.inj step ▸ List.prefix_refl _
  | callback c =>
    obtain ⟨call, timer, -, -, -, ⟨-, rfl⟩ | ⟨-, rfl⟩⟩ := Accounted.callback_cases step
    · exact List.prefix_append _ _
    · exact List.prefix_refl _
  | callbackThrows c =>
    obtain ⟨call, -, -, -, rfl⟩ := Accounted.callbackThrows_cases step
    exact List.prefix_refl _
  | scheduleReturns c =>
    obtain ⟨call, -, -, -, -, rfl⟩ := Accounted.returns_cases step
    exact List.prefix_refl _

/-- A timer that a call is going to run can still be started. -/
theorem started_of_upcoming {w : World κ} {id : TimerId} (mem : id ∈ w.upcoming) :
    ¬w.NotStartedFrom id := by
  intro never
  obtain ⟨call, hcall, mem⟩ := List.mem_flatMap.mp mem
  obtain ⟨c, hc⟩ := List.getElem?_of_mem hcall
  unfold Call.upcoming at mem
  split at mem
  · cases mem
  · rename_i going
    obtain ⟨timer, ht, rfl⟩ := List.mem_map.mp mem
    obtain ⟨before, after, cut⟩ := List.append_of_mem ht
    have callable : ∀ e ∈ before ++ timer :: after, e.2 ≠ none := by
      intro e he
      exact Option.isSome_iff_ne_none.mp (List.all_eq_true.mp List.all_takeWhile e (cut ▸ he))
    have left : call.left = before ++ timer :: (after ++
        call.left.dropWhile fun e => e.2.isSome) := by
      rw [← List.cons_append, ← List.append_assoc, ← cut, List.takeWhile_append_dropWhile]
    obtain ⟨ms, w', run, ran⟩ := reaches_callback hc (Bool.eq_false_iff.mpr going) left
      (fun e he => callable e (List.mem_append_left _ he))
      (callable timer (List.mem_append_right _ List.mem_cons_self))
    have same := never ms w' run
    unfold World.run at same
    rw [ran, List.map_append, List.map_append, List.map_singleton, List.count_append,
      List.count_append, List.count_singleton_self] at same
    omega

/-- What a call is not going to run stays so. -/
theorem left_of_unreached {w w' : World κ} (later : Later w w') {id : TimerId} (mem : id ∈ w.left)
    (unreached : id ∉ w.upcoming) : id ∈ w'.left := by
  obtain ⟨call, hcall, mem⟩ := List.mem_flatMap.mp mem
  obtain ⟨c, hc⟩ := List.getElem?_of_mem hcall
  rw [call.left_eq] at mem
  have here : id ∈ call.unreached := (List.mem_append.mp mem).resolve_left fun going =>
    unreached (List.mem_flatMap.mpr ⟨call, hcall, going⟩)
  obtain ⟨call', hc', goesOn⟩ := later.calls c call hc
  refine List.mem_flatMap.mpr ⟨call', List.mem_of_getElem? hc', ?_⟩
  rw [call'.left_eq]
  exact List.mem_append_right _ (goesOn.unreached here)

namespace Accounted

variable {w : World κ}

/-- A created timer is counted once, in the place where it is. -/
theorem count_eq_one (h : Accounted w) {id : TimerId} (created : id ∈ w.created) :
    w.pending.count id + w.left.count id + w.run.count id + w.cancelled.count id = 1 := by
  have one := List.count_eq_one_of_mem h.nodup created
  rwa [h.states.count_eq, List.count_append, List.count_append, List.count_append] at one

end Accounted

/-! ## The exact condition -/

/-- **When a cancellation is final**: the callback of a timer that `cancel` has been called for is
not started after it, in any future, exactly if no `schedule` call had extracted the timer and was
going to run it. -/
theorem cancel_final_iff {ls : List (Event κ)} {w w₁ : World κ} {id : TimerId}
    (run : Run Step {} ls w) (created : id ∈ w.created) (step : Step w (.cancel id) w₁) :
    w₁.NotStartedFrom id ↔ id ∉ w.upcoming := by
  have same : w₁.calls = w.calls ∧ w₁.created = w.created := by
    obtain rfl := Option.some.inj step
    exact ⟨rfl, rfl⟩
  have upcoming : w₁.upcoming = w.upcoming := by
    unfold World.upcoming
    rw [same.1]
  constructor
  · intro never mem
    exact started_of_upcoming (upcoming.symm ▸ mem) never
  · intro past ms w' more
    have accounted := Accounted.run run
    have accounted₁ := accounted.step _ step
    have accounted' := accounted₁.after more
    have later := later_run more
    have one₁ := accounted₁.count_eq_one (same.2.symm ▸ created)
    have one' := accounted'.count_eq_one (later.created.subset (same.2.symm ▸ created))
    have ran : w₁.run.count id ≤ w'.run.count id :=
      ((ran_extended more).sublist.map Prod.snd).count_le id
    -- it was pending, and is cancelled now, or had run or been cancelled or dropped before
    have placed : id ∈ w₁.left ∨ id ∈ w₁.run ∨ id ∈ w₁.cancelled := by
      have places := accounted.states.mem_iff.mp created
      simp only [List.mem_append] at places
      obtain rfl := Option.some.inj step
      show id ∈ w.left ∨ id ∈ w.run ∨
        id ∈ if decide (id ∈ w.pending) then w.cancelled ++ [id] else w.cancelled
      rcases places with ((pending | left) | ran) | cancelled
      · rw [if_pos (decide_eq_true pending)]
        exact .inr (.inr (List.mem_append_right _ (List.mem_singleton_self id)))
      · exact .inl left
      · exact .inr (.inl ran)
      · refine .inr (.inr ?_)
        split
        · exact List.mem_append_left _ cancelled
        · exact cancelled
    rcases placed with placed | placed | placed
    · have := List.count_pos_iff.mpr placed
      have := List.count_pos_iff.mpr (left_of_unreached later placed (upcoming.symm ▸ past))
      omega
    · have := List.count_pos_iff.mpr placed
      omega
    · have := List.count_pos_iff.mpr placed
      have := List.count_pos_iff.mpr (later.cancelled.subset placed)
      omega

/-- A pending timer's cancellation is final. -/
theorem cancel_final_iff_pending :
    ∃ w w₁ : World Nat, ([.waitUs 5 (some 0) 0] : List (Event Nat)).foldlM step {} = some w ∧
      Step w (.cancel ⟨5, 0⟩) w₁ ∧ (w₁.NotStartedFrom ⟨5, 0⟩ ↔ ⟨5, 0⟩ ∉ w.upcoming) ∧
      ⟨5, 0⟩ ∉ w.upcoming :=
  have run : Run Step ({} : World Nat) [.waitUs 5 (some 0) 0] _ := run_of_foldlM rfl
  ⟨_, _, rfl, rfl, cancel_final_iff run (by decide) rfl, by decide⟩

/-- Two timers are due in one `schedule` call, and the callback of the first cancels the second: it
is run all the same. -/
theorem cancel_not_final :
    ¬∀ (ls : List (Event Nat)) (w w₁ : World Nat) (id : TimerId), Run Step {} ls w →
      id ∈ w.created → Step w (.cancel id) w₁ → w₁.NotStartedFrom id := by
  intro final
  have run : Run Step ({} : World Nat)
      [.waitUs 5 (some 0) 0, .waitUs 6 (some 1) 0, .schedule 10, .callback 0] _ := run_of_foldlM rfl
  have same := final _ _ _ ⟨6, 1⟩ run (by decide) rfl [.callback 0] _ (Run.single rfl)
  exact absurd same (by decide)

end World

end Bfc.Timers
