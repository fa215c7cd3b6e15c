import Bfc.Lib.SharedObjects

/-!
# Critical sections over shared objects

Functions that lock before they touch a slot, and unlock what they lock, keep the mutexes in order
(`Guarded`): a mutex is held by the thread that is in its critical section, and by one function of
it. What that says of threads that wait depends on what runs inside critical sections. A thread that
waits for itself waits for ever (`stuck`). It does so only when a destructor that was run inside a
critical section enters a function again; where none does, every function goes on (`goes_on`). A
function that lets nothing go inside its critical section runs nothing there (`calm_step`).
-/

namespace SharedObjects

namespace World

variable {μ κ ω π : Type*} [DecidableEq μ] [DecidableEq κ] [DecidableEq ω]

/-! ## Mutexes and critical sections -/

/-- What is left of a function that holds `guard` locks before it touches a slot, and what it locks,
it unlocks: it calls nothing in between. -/
def safe (guardOf : κ → μ) : Option μ → List (Instr μ κ) → Bool
  | none, [] => true
  | none, .lock m :: rest => safe guardOf (some m) rest
  | some _, .unlock :: rest => safe guardOf none rest
  | some m, .exchange k :: rest | some m, .load k :: rest | some m, .store k :: rest =>
    guardOf k = m && safe guardOf (some m) rest
  | none, .call :: rest => safe guardOf none rest
  | guard, .give :: rest | guard, .release :: rest => safe guardOf guard rest
  | _, _ => false

def Orderly (guardOf : κ → μ) (program : Program π μ κ ω) : Prop :=
  ∀ p arg body, program p arg = some body → safe guardOf none body = true

/-- A frame on a stack has the rest of such a function. -/
def frameOk (guardOf : κ → μ) : Frame μ κ ω → Bool
  | .code guard rest _ => safe guardOf guard rest
  | .callee | .destructor _ => true

/-- The mutexes a stack holds. -/
def heldBy (stack : List (Frame μ κ ω)) : List μ := stack.filterMap Frame.held

/-- A mutex is held by the thread that has it in one of its frames, and by one frame of it; all
functions in progress are in good order. -/
structure Guarded (guardOf : κ → μ) (s : World μ κ ω) : Prop where
  ok : ∀ (t : Nat) (stack : List (Frame μ κ ω)), s.threads[t]? = some stack →
    ∀ f ∈ stack, frameOk guardOf f = true
  owned : ∀ (m : μ) (t : Nat),
    s.owner m = some t ↔ ∃ stack, s.threads[t]? = some stack ∧ m ∈ heldBy stack
  nodup : ∀ (t : Nat) (stack : List (Frame μ κ ω)), s.threads[t]? = some stack →
    (heldBy stack).Nodup

section Guarded

variable {guardOf : κ → μ} {s s' : World μ κ ω} {t : Nat} {old stack : List (Frame μ κ ω)}

omit [DecidableEq κ] [DecidableEq ω] in
theorem Guarded.mine (h : Guarded guardOf s) (top : s.threads[t]? = some stack) (m : μ) :
    s.owner m = some t ↔ m ∈ heldBy stack := by
  rw [h.owned]
  exact ⟨fun ⟨_, ht, mem⟩ => Option.some.inj (ht.symm.trans top) ▸ mem, fun mem => ⟨_, top, mem⟩⟩

omit [DecidableEq κ] [DecidableEq ω] in
/-- **The rule of a changed stack**: its thread holds what is on it, and the others hold what they
held. -/
theorem Guarded.change (h : Guarded guardOf s) (top : s.threads[t]? = some old)
    (threads : s'.threads = s.threads.set t stack)
    (ok : ∀ f ∈ stack, frameOk guardOf f = true) (nodup : (heldBy stack).Nodup)
    (mine : ∀ m, s'.owner m = some t ↔ m ∈ heldBy stack)
    (others : ∀ m t', t' ≠ t → (s'.owner m = some t' ↔ s.owner m = some t')) :
    Guarded guardOf s' where
  ok t' st ht := by
    rw [threads] at ht
    rcases Tables.set_cases top ht with ⟨-, rfl⟩ | ⟨-, before⟩
    · exact ok
    · exact h.ok t' st before
  owned m t' := by
    rw [threads]
    by_cases ht : t' = t
    · subst ht
      rw [mine, Tables.set_here top]
      simp only [Option.some.injEq, exists_eq_left']
    · rw [others m t' ht, h.owned, List.getElem?_set_ne (Ne.symm ht)]
  nodup t' st ht := by
    rw [threads] at ht
    rcases Tables.set_cases top ht with ⟨-, rfl⟩ | ⟨-, before⟩
    · exact nodup
    · exact h.nodup t' st before

omit [DecidableEq κ] [DecidableEq ω] in
/-- A stack changes, and holds what it held. -/
theorem Guarded.goto (h : Guarded guardOf s) (top : s.threads[t]? = some old)
    (owner : s'.owner = s.owner) (threads : s'.threads = s.threads.set t stack)
    (held : heldBy stack = heldBy old) (ok : ∀ f ∈ stack, frameOk guardOf f = true) :
    Guarded guardOf s' :=
  h.change top threads ok (held ▸ h.nodup t old top)
    (fun m => by rw [owner, held, h.mine top]) (fun m t' _ => by rw [owner])

variable {m : μ} {rest : List (Instr μ κ)} {reg : Option ω} {below : List (Frame μ κ ω)}

omit [DecidableEq κ] [DecidableEq ω] in
/-- A thread locks a mutex that nobody holds. -/
theorem Guarded.lock (h : Guarded guardOf s)
    (top : s.threads[t]? = some (.code none (.lock m :: rest) reg :: below))
    (nobody : s.owner m = none) :
    Guarded guardOf ({ s with owner := Function.update s.owner m (some t) }.goto t
      (.code (some m) rest reg :: below)) := by
  have ok := List.forall_mem_cons.mp (h.ok t _ top)
  have held := h.nodup t _ top
  have unheld : m ∉ heldBy below := fun mem => by
    have := (h.mine top m).mpr mem
    rw [nobody] at this
    cases this
  refine h.change top rfl (List.forall_mem_cons.mpr ⟨ok.1, ok.2⟩)
    (List.nodup_cons.mpr ⟨unheld, held⟩) (fun m' => ?_) (fun m' t' ht => ?_)
  · show Function.update s.owner m (some t) m' = some t ↔ m' ∈ m :: heldBy below
    by_cases hm : m' = m
    · subst hm
      simp only [Function.update_self, List.mem_cons_self]
    · rw [Function.update_of_ne hm, List.mem_cons, or_iff_right hm]
      exact h.mine top m'
  · show Function.update s.owner m (some t) m' = some t' ↔ _
    by_cases hm : m' = m
    · subst hm
      simp only [Function.update_self, Option.some.injEq, Ne.symm ht, nobody, reduceCtorEq]
    · rw [Function.update_of_ne hm]

omit [DecidableEq κ] [DecidableEq ω] in
/-- A thread unlocks what it holds. -/
theorem Guarded.unlock (h : Guarded guardOf s)
    (top : s.threads[t]? = some (.code (some m) (.unlock :: rest) reg :: below)) :
    Guarded guardOf ({ s with owner := Function.update s.owner m none }.goto t
      (.code none rest reg :: below)) := by
  have ok := List.forall_mem_cons.mp (h.ok t _ top)
  have once := List.nodup_cons.mp (show (m :: heldBy below).Nodup from h.nodup t _ top)
  have mine : s.owner m = some t := (h.mine top m).mpr List.mem_cons_self
  refine h.change top rfl (List.forall_mem_cons.mpr ⟨ok.1, ok.2⟩) once.2 (fun m' => ?_)
    (fun m' t' ht => ?_)
  · show Function.update s.owner m none m' = some t ↔ m' ∈ heldBy below
    by_cases hm : m' = m
    · subst hm
      simp only [Function.update_self, reduceCtorEq, once.1]
    · rw [Function.update_of_ne hm, h.mine top]
      exact List.mem_cons.trans (or_iff_right hm)
  · show Function.update s.owner m none m' = some t' ↔ _
    by_cases hm : m' = m
    · subst hm
      simp only [Function.update_self, reduceCtorEq, mine, Option.some.injEq, Ne.symm ht]
    · rw [Function.update_of_ne hm]

omit [DecidableEq κ] in
/-- An owner goes, and nothing else changes that shows on the stacks. -/
theorem Guarded.release (h : Guarded guardOf s) (top : s.threads[t]? = some old)
    (owner : s'.owner = s.owner) (threads : s'.threads = s.threads)
    (held : heldBy stack = heldBy old) (ok : ∀ f ∈ stack, frameOk guardOf f = true)
    (gone : Option ω) : Guarded guardOf (s'.release t stack gone) := by
  have kept : Guarded guardOf (s'.goto t stack) :=
    h.goto top owner (by rw [World.goto, threads]) held ok
  cases gone with
  | none => exact kept
  | some r =>
    by_cases still : r ∈ (s'.goto t stack).owners
    · rwa [show s'.release t stack (some r) = s'.goto t stack from if_pos still]
    · rw [show s'.release t stack (some r) = { s'.goto t (.destructor r :: stack) with
        destroyed := s'.destroyed ++ [r] } from if_neg still]
      exact h.goto top owner
        (show _ = s.threads.set t (.destructor r :: stack) by rw [← threads]; rfl) held
        (List.forall_mem_cons.mpr ⟨rfl, ok⟩)

omit [DecidableEq κ] [DecidableEq ω] in
/-- A function is on to its next instruction, and holds what it held. -/
theorem Guarded.onward {guard : Option μ} {i : Instr μ κ} {reg' : Option ω}
    (h : Guarded guardOf s) (top : s.threads[t]? = some (.code guard (i :: rest) reg :: below))
    (same : s'.owner = s.owner ∧ s'.threads = s.threads)
    (left : safe guardOf guard rest = true) :
    Guarded guardOf (s'.goto t (.code guard rest reg' :: below)) := by
  have ok := List.forall_mem_cons.mp (h.ok t _ top)
  have good : ∀ f ∈ Frame.code guard rest reg' :: below, frameOk guardOf f = true :=
    List.forall_mem_cons.mpr ⟨left, ok.2⟩
  exact h.goto top same.1 (by rw [← same.2]; rfl) (by cases guard <;> rfl) good

end Guarded

/-- An instruction of a function in good order. -/
theorem guarded_exec {guardOf : κ → μ} {s s' : World μ κ ω} {t : Nat} {guard : Option μ}
    {i : Instr μ κ} {rest : List (Instr μ κ)} {reg : Option ω} {below : List (Frame μ κ ω)}
    (h : Guarded guardOf s) (top : s.threads[t]? = some (.code guard (i :: rest) reg :: below))
    (went : s.exec t guard rest reg below i = some s') : Guarded guardOf s' := by
  have ok := List.forall_mem_cons.mp (h.ok t _ top)
  have good : safe guardOf guard (i :: rest) = true := ok.1
  cases i with
  | lock m =>
    obtain ⟨⟨rfl, nobody⟩, moved⟩ := Option.ite_none_right_eq_some.mp went
    obtain rfl := Option.some.inj moved
    exact h.lock top nobody
  | unlock =>
    cases guard with
    | none => cases went
    | some m => exact Option.some.inj went ▸ h.unlock top
  | exchange k =>
    cases guard with
    | none => cases good
    | some m =>
      have left := (Bool.and_eq_true_iff.mp good).2
      exact Option.some.inj went ▸ h.onward top ⟨rfl, rfl⟩ left
  | load k =>
    cases guard with
    | none => cases good
    | some m =>
      have left := (Bool.and_eq_true_iff.mp good).2
      exact Option.some.inj went ▸ h.onward top ⟨rfl, rfl⟩ left
  | store k =>
    cases guard with
    | none => cases good
    | some m =>
      have left := (Bool.and_eq_true_iff.mp good).2
      dsimp only [exec] at went
      split at went
      · exact Option.some.inj went ▸ h.onward top ⟨rfl, rfl⟩ left
      · exact Option.some.inj went ▸ h.onward top ⟨rfl, rfl⟩ left
  | call =>
    cases guard with
    | some m => cases good
    | none =>
      dsimp only [exec] at went
      split at went
      · exact Option.some.inj went ▸ h.onward top ⟨rfl, rfl⟩ good
      · have goods : ∀ f ∈ Frame.callee :: Frame.code none rest reg :: below,
            frameOk guardOf f = true :=
          List.forall_mem_cons.mpr ⟨rfl, List.forall_mem_cons.mpr ⟨good, ok.2⟩⟩
        exact Option.some.inj went ▸ h.goto top rfl rfl rfl goods
  | give =>
    have left : safe guardOf guard rest = true := by cases guard <;> exact good
    exact Option.some.inj went ▸ h.onward top ⟨rfl, rfl⟩ left
  | release =>
    have left : safe guardOf guard rest = true := by cases guard <;> exact good
    have goods : ∀ f ∈ Frame.code guard rest none :: below, frameOk guardOf f = true :=
      List.forall_mem_cons.mpr ⟨left, ok.2⟩
    exact Option.some.inj went ▸ h.release top rfl rfl (by cases guard <;> rfl) goods _

/-- **Functions in good order, any action.** -/
theorem guarded_step {guardOf : κ → μ} {program : Program π μ κ ω} {s s' : World μ κ ω}
    {l : Label π κ ω} (orderly : Orderly guardOf program)
    (h : Guarded guardOf s) (step : Step program s l s') : Guarded guardOf s' := by
  cases step with
  | make new => exact ⟨h.ok, h.owned, h.nodup⟩
  | copy mem => exact ⟨h.ok, h.owned, h.nodup⟩
  | @drop t stack r top may mem =>
    refine h.release top ?_ ?_ rfl (h.ok t stack top) _ <;> rfl
  | @discard t stack k top may =>
    refine h.release top ?_ ?_ rfl (h.ok t stack top) _ <;> rfl
  | @enter t stack p arg body function top may mem =>
    have ok : ∀ f ∈ Frame.code none body arg :: stack, frameOk guardOf f = true :=
      List.forall_mem_cons.mpr ⟨orderly p arg body function, h.ok t stack top⟩
    exact h.goto top rfl rfl rfl ok
  | @ret t f below top may =>
    have ok := List.forall_mem_cons.mp (h.ok t _ top)
    refine h.goto top rfl rfl ?_ ok.2
    rw [heldBy, heldBy, List.filterMap_cons_none (free_cons may).1]
  | @leave t reg below top =>
    refine h.release top ?_ ?_ ?_ (List.forall_mem_cons.mp (h.ok t _ top)).2 _ <;> rfl
  | @exec t guard i rest reg below s' top went => exact guarded_exec h top went

/-! ## Threads that wait -/

/-- No function is on top of a critical section, on any thread: what runs inside critical sections
enters no function. -/
def apart : List (Frame μ κ ω) → Bool
  | [] => true
  | .code .. :: below => (heldBy below).isEmpty && apart below
  | .callee :: below | .destructor _ :: below => apart below

def Apart (s : World μ κ ω) : Prop :=
  ∀ (t : Nat) (stack : List (Frame μ κ ω)), s.threads[t]? = some stack → apart stack = true

omit [DecidableEq μ] [DecidableEq κ] in
/-- A release changes the stack of its thread, to the one it is given or to the destructor on top of
it. -/
theorem release_threads (s : World μ κ ω) (t : Nat) (stack : List (Frame μ κ ω))
    (gone : Option ω) :
    (s.release t stack gone).owner = s.owner ∧
      ((s.release t stack gone).threads = s.threads.set t stack ∨
        ∃ r, (s.release t stack gone).threads = s.threads.set t (.destructor r :: stack)) := by
  cases gone with
  | none => exact ⟨rfl, .inl rfl⟩
  | some r =>
    by_cases still : r ∈ (s.goto t stack).owners
    · rw [show s.release t stack (some r) = s.goto t stack from if_pos still]
      exact ⟨rfl, .inl rfl⟩
    · rw [show s.release t stack (some r) = { s.goto t (.destructor r :: stack) with
        destroyed := s.destroyed ++ [r] } from if_neg still]
      exact ⟨rfl, .inr ⟨r, rfl⟩⟩

/-- The other threads' stacks stay as they are. -/
theorem threads_step {program : Program π μ κ ω} {s s' : World μ κ ω} {l : Label π κ ω}
    (step : Step program s l s') {t : Nat} (other : t ≠ l.thread) :
    s'.threads[t]? = s.threads[t]? := by
  have aside : ∀ {t' : Nat} {stack : List (Frame μ κ ω)}, l.thread = t' →
      s'.threads = s.threads.set t' stack → s'.threads[t]? = s.threads[t]? := by
    rintro t' stack rfl threads
    rw [threads, List.getElem?_set_ne (Ne.symm other)]
  have released : ∀ {u : World μ κ ω} {t' : Nat} {stack : List (Frame μ κ ω)} {gone : Option ω},
      l.thread = t' → s' = u.release t' stack gone → u.threads = s.threads →
      s'.threads[t]? = s.threads[t]? := by
    rintro u t' stack gone same rfl threads
    rcases (release_threads u t' stack gone).2 with h | ⟨r, h⟩
    · exact aside same (h.trans (by rw [threads]))
    · exact aside same (h.trans (by rw [threads]))
  cases step with
  | make | copy => rfl
  | drop | discard => exact released rfl rfl rfl
  | enter | ret => exact aside rfl rfl
  | leave => exact released rfl rfl rfl
  | @exec t' guard i rest reg below s' top went =>
    cases i with
    | lock m =>
      obtain ⟨-, rfl⟩ := Option.ite_none_right_eq_some.mp went |>.imp_right Option.some.inj
      exact aside rfl rfl
    | unlock =>
      cases guard with
      | none => cases went
      | some m =>
        obtain rfl := Option.some.inj went
        exact aside rfl rfl
    | exchange k | load k | give =>
      obtain rfl := Option.some.inj went
      exact aside rfl rfl
    | store k | call =>
      dsimp only [exec] at went
      split at went
      · obtain rfl := Option.some.inj went
        exact aside rfl rfl
      · obtain rfl := Option.some.inj went
        exact aside rfl rfl
    | release => exact released rfl (Option.some.inj went).symm rfl

/-- **A thread that waits for a mutex it holds waits for ever**, and so does everyone who needs the
mutex. -/
theorem stuck {guardOf : κ → μ} {program : Program π μ κ ω} {s s' : World μ κ ω} {t : Nat}
    {guard : Option μ} {m : μ} {rest : List (Instr μ κ)} {reg : Option ω}
    {below : List (Frame μ κ ω)} {ls : List (Label π κ ω)}
    (orderly : Orderly guardOf program) (h : Guarded guardOf s)
    (top : s.threads[t]? = some (.code guard (.lock m :: rest) reg :: below))
    (own : m ∈ heldBy below) (run : Run program s ls s') :
    s'.threads[t]? = s.threads[t]? ∧ s'.owner m = some t := by
  have held : ∀ {u : World μ κ ω}, Guarded guardOf u → u.threads[t]? = s.threads[t]? →
      u.owner m = some t := by
    intro u hu same
    refine (hu.mine (same.trans top) m).mpr ?_
    rw [heldBy, List.filterMap_cons]
    cases guard with
    | none => exact own
    | some g => exact List.mem_cons_of_mem g own
  have kept : Guarded guardOf s' ∧ s'.threads[t]? = s.threads[t]? := by
    refine run.invariant (P := fun u => Guarded guardOf u ∧ u.threads[t]? = s.threads[t]?)
      ⟨h, rfl⟩ fun {u l v} ⟨hu, same⟩ went => ?_
    have step := Step.of_step went
    refine ⟨guarded_step orderly hu step, ?_⟩
    by_cases other : t = l.thread
    · -- the thread itself can do nothing
      exfalso
      have here : u.threads[l.thread]? = some (.code guard (.lock m :: rest) reg :: below) :=
        other ▸ same.trans top
      cases l with
      | make t' r | copy t' r | drop t' r | discard t' k | ret t' =>
        simp [World.step, show u.threads[t']? = _ from here, free] at went
      | enter t' p arg =>
        cases step with
        | enter function top' may mem =>
          obtain rfl := Option.some.inj (top'.symm.trans here)
          cases may
      | next t' =>
        simp [World.step, show u.threads[t']? = _ from here, exec, held hu same] at went
    · exact (threads_step step other).trans same
  exact ⟨kept.2, held kept.1 kept.2⟩

omit [DecidableEq μ] [DecidableEq κ] [DecidableEq ω] in
/-- Where nothing is on top of critical sections but code of the program, a mutex that a stack holds
is that of its first function. -/
theorem holder_top {m : μ} {stack : List (Frame μ κ ω)} (h : apart stack = true)
    (mem : m ∈ heldBy stack) :
    ∃ (above : List (Frame μ κ ω)) (rest : List (Instr μ κ)) (reg : Option ω)
      (below : List (Frame μ κ ω)), stack = above ++ .code (some m) rest reg :: below ∧
        ∀ f ∈ above, f = .callee ∨ ∃ r, f = .destructor r := by
  induction stack with
  | nil => cases mem
  | cons f below ih =>
    cases f with
    | code guard rest reg =>
      obtain ⟨empty, -⟩ := Bool.and_eq_true_iff.mp h
      rw [heldBy, List.filterMap_cons] at mem
      rw [List.isEmpty_iff, heldBy] at empty
      cases guard with
      | none =>
        rw [show Frame.held (.code none rest reg : Frame μ κ ω) = none from rfl, empty] at mem
        cases mem
      | some g =>
        rw [show Frame.held (.code (some g) rest reg : Frame μ κ ω) = some g from rfl, empty] at mem
        obtain rfl := List.mem_singleton.mp mem
        exact ⟨[], rest, reg, below, rfl, by simp⟩
    | callee =>
      obtain ⟨above, rest, reg, below', rfl, others⟩ := ih h mem
      exact ⟨.callee :: above, rest, reg, below', rfl,
        List.forall_mem_cons.mpr ⟨.inl rfl, others⟩⟩
    | destructor r =>
      obtain ⟨above, rest, reg, below', rfl, others⟩ := ih h mem
      exact ⟨.destructor r :: above, rest, reg, below', rfl,
        List.forall_mem_cons.mpr ⟨.inr ⟨r, rfl⟩, others⟩⟩

/-- **A critical section ends**, with what runs on top of it: its thread does that alone. -/
theorem section_ends {guardOf : κ → μ} {program : Program π μ κ ω} {s : World μ κ ω} {t : Nat}
    {m : μ} {above : List (Frame μ κ ω)} {rest : List (Instr μ κ)} {reg : Option ω}
    {below : List (Frame μ κ ω)} (orderly : Orderly guardOf program)
    (h : Guarded guardOf s)
    (top : s.threads[t]? = some (above ++ .code (some m) rest reg :: below))
    (others : ∀ f ∈ above, f = .callee ∨ ∃ r, f = .destructor r) :
    ∃ (ls : List (Label π κ ω)) (s' : World μ κ ω), Run program s ls s' ∧
      (∀ l ∈ ls, l = .next t ∨ l = .ret t) ∧ s'.owner m = none := by
  -- an instruction puts at most one destructor on top, and a return takes one away
  induction hn : 2 * rest.length + above.length using Nat.strong_induction_on
    generalizing s above rest reg with
  | _ n ih =>
    have go : ∀ (above' : List (Frame μ κ ω)) {u : World μ κ ω} {l : Label π κ ω}
        {rest' : List (Instr μ κ)} {reg' : Option ω}, s.step program l = some u →
        (l = .next t ∨ l = .ret t) →
        u.threads = s.threads.set t (above' ++ .code (some m) rest' reg' :: below) →
        (∀ f ∈ above', f = .callee ∨ ∃ r, f = .destructor r) →
        2 * rest'.length + above'.length < n →
        ∃ (ls : List (Label π κ ω)) (s' : World μ κ ω), Run program s ls s' ∧
          (∀ l ∈ ls, l = .next t ∨ l = .ret t) ∧ s'.owner m = none := by
      intro above' u l rest' reg' went own threads others less
      have top' : u.threads[t]? = some (above' ++ .code (some m) rest' reg' :: below) := by
        rw [threads, Tables.set_here top]
      obtain ⟨ls, s', run, owns, freed⟩ :=
        ih _ less (guarded_step orderly h (Step.of_step went)) top' others rfl
      refine ⟨l :: ls, s', (Lts.Run.single went).trans run, ?_, freed⟩
      exact List.forall_mem_cons.mpr ⟨own, owns⟩
    cases above with
    | cons f above =>
      obtain ⟨mine, others⟩ := List.forall_mem_cons.mp others
      have went : s.step program (.ret t) =
          some (s.goto t (above ++ .code (some m) rest reg :: below)) := by
        rcases mine with rfl | ⟨r, rfl⟩ <;> simp [World.step, top]
      exact go above went (.inr rfl) rfl others (by rw [← hn, List.length_cons]; omega)
    | nil =>
      have good := (List.forall_mem_cons.mp (h.ok t _ top)).1
      rw [List.nil_append] at top
      cases rest with
      | nil => cases good
      | cons i rest =>
        have next : s.step program (.next t) = s.exec t (some m) rest reg below i := by
          simp only [World.step, top]
        have less : 2 * rest.length + 1 < n := by rw [← hn, List.length_cons]; simp; omega
        cases i with
        | lock m' | call => cases good
        | unlock =>
          refine ⟨[.next t], _, .single next, by simp, ?_⟩
          exact Function.update_self ..
        | exchange k | load k | give =>
          exact go [] next (.inl rfl) rfl (by simp) (Nat.lt_of_succ_lt less)
        | store k =>
          by_cases room : s.slots.lookup k = none
          · exact go [] (next.trans (if_pos room)) (.inl rfl) rfl (by simp)
              (Nat.lt_of_succ_lt less)
          · exact go [] (next.trans (if_neg room)) (.inl rfl) rfl (by simp)
              (Nat.lt_of_succ_lt less)
        | release =>
          rcases (release_threads s t (.code (some m) rest none :: below) reg).2 with hr | ⟨r, hr⟩
          · exact go [] next (.inl rfl) hr (by simp) (Nat.lt_of_succ_lt less)
          · exact go [.destructor r] next (.inl rfl) hr (by simp) less

/-- A function can go on, but for a mutex that is held. -/
theorem next_enabled {guardOf : κ → μ} (program : Program π μ κ ω) {s : World μ κ ω} {t : Nat}
    {guard : Option μ} {rest : List (Instr μ κ)} {reg : Option ω} {below : List (Frame μ κ ω)}
    (h : Guarded guardOf s) (top : s.threads[t]? = some (.code guard rest reg :: below))
    (free : ∀ m rest', rest = .lock m :: rest' → s.owner m = none) :
    (s.step program (.next t)).isSome = true := by
  have good := (List.forall_mem_cons.mp (h.ok t _ top)).1
  cases rest with
  | nil =>
    cases guard with
    | none => simp only [World.step, top, Option.isSome_some]
    | some m => cases good
  | cons i rest =>
    simp only [World.step, top]
    cases i with
    | lock m =>
      cases guard with
      | some m' => cases good
      | none => simp only [exec, free m rest rfl, and_self, ↓reduceIte, Option.isSome_some]
    | unlock =>
      cases guard with
      | none => cases good
      | some m => rfl
    | exchange k | load k | give | release => rfl
    | store k | call =>
      dsimp only [exec]
      split <;> rfl

/-- **A function goes on**, after steps of one other thread at most, which end that thread's
critical section, where what runs inside critical sections enters no function. -/
theorem goes_on {guardOf : κ → μ} {program : Program π μ κ ω} {s : World μ κ ω} {t : Nat}
    {guard : Option μ} {rest : List (Instr μ κ)} {reg : Option ω} {below : List (Frame μ κ ω)}
    (orderly : Orderly guardOf program) (h : Guarded guardOf s) (entersNone : Apart s)
    (top : s.threads[t]? = some (.code guard rest reg :: below)) :
    ∃ t', t' ≠ t ∧ ∃ (ls : List (Label π κ ω)) (s' : World μ κ ω), Run program s ls s' ∧
      (∀ l ∈ ls, l = .next t' ∨ l = .ret t') ∧ (s'.step program (.next t)).isSome = true := by
  by_cases waits : ∃ m rest' t', rest = .lock m :: rest' ∧ s.owner m = some t'
  · obtain ⟨m, rest', t', rfl, owner⟩ := waits
    obtain ⟨stack, top', mem⟩ := (h.owned m t').mp owner
    have other : t' ≠ t := by
      rintro rfl
      obtain rfl := Option.some.inj (top'.symm.trans top)
      have good := (List.forall_mem_cons.mp (h.ok t' _ top)).1
      cases guard with
      | some g => cases good
      | none =>
        have empty := (Bool.and_eq_true_iff.mp (entersNone t' _ top)).1
        rw [List.isEmpty_iff] at empty
        rw [show heldBy (.code none (.lock m :: rest') reg :: below) = heldBy below from rfl,
          empty] at mem
        cases mem
    obtain ⟨above, rest₁, reg₁, below₁, rfl, others⟩ := holder_top (entersNone t' stack top') mem
    obtain ⟨ls, s', run, own, freed⟩ := section_ends orderly h top' others
    have elsewhere : ∀ l ∈ ls, l.thread ≠ t := by
      intro l hl
      rcases own l hl with rfl | rfl <;> exact other
    have kept : Guarded guardOf s' ∧ s'.threads[t]? = s.threads[t]? :=
      run.invariant_of_mem (P := fun u => Guarded guardOf u ∧ u.threads[t]? = s.threads[t]?)
        ⟨h, rfl⟩ fun hl ⟨hu, same⟩ went =>
          ⟨guarded_step orderly hu (Step.of_step went),
            (threads_step (Step.of_step went) (Ne.symm (elsewhere _ hl))).trans same⟩
    refine ⟨t', other, ls, s', run, own, ?_⟩
    refine next_enabled program kept.1 (kept.2.trans top) fun m' rest'' same => ?_
    rw [← Instr.lock.inj (List.cons.inj same).1]
    exact freed
  · refine ⟨t + 1, Nat.succ_ne_self t, [], s, .nil, by simp, ?_⟩
    refine next_enabled program h top fun m rest' same => ?_
    cases owner : s.owner m with
    | none => rfl
    | some t' => exact absurd ⟨m, rest', t', same, owner⟩ waits

/-! ## Nothing runs inside critical sections -/

/-- The functions let nothing go before they end. -/
def Quiet (program : Program π μ κ ω) : Prop :=
  ∀ p arg body, program p arg = some body → .release ∉ body

/-- No function in progress lets anything go inside a critical section, and only the function on top
of a stack is in one. -/
structure Calm (s : World μ κ ω) : Prop where
  quiet : ∀ (t : Nat) (stack : List (Frame μ κ ω)), s.threads[t]? = some stack →
    ∀ guard rest reg, .code guard rest reg ∈ stack → .release ∉ rest
  topOnly : ∀ (t : Nat) (f : Frame μ κ ω) (below : List (Frame μ κ ω)),
    s.threads[t]? = some (f :: below) → heldBy below = []

section Calm

variable {s s' : World μ κ ω} {t : Nat} {old stack : List (Frame μ κ ω)}

omit [DecidableEq μ] [DecidableEq κ] [DecidableEq ω] in
/-- Code of the program runs with no mutex held. -/
theorem Calm.free_holds_none (h : Calm s) (top : s.threads[t]? = some stack)
    (may : free stack = true) : heldBy stack = [] := by
  cases stack with
  | nil => rfl
  | cons f below =>
    have holdsNone := h.topOnly t f below top
    cases f with
    | code guard rest reg => cases may
    | callee | destructor r => exact holdsNone

omit [DecidableEq μ] [DecidableEq κ] [DecidableEq ω] in
theorem Calm.apart (h : Calm s) : Apart s := by
  intro t stack top
  have all : ∀ st : List (Frame μ κ ω), heldBy st = [] → World.apart st = true := by
    intro st
    induction st with
    | nil => exact fun _ => rfl
    | cons f below ih =>
      intro holdsNone
      have tail : heldBy below = [] := by
        rw [heldBy, List.filterMap_eq_nil_iff] at holdsNone ⊢
        exact fun g hg => holdsNone g (List.mem_cons_of_mem f hg)
      cases f with
      | code guard rest reg =>
        exact Bool.and_eq_true_iff.mpr ⟨List.isEmpty_iff.mpr tail, ih tail⟩
      | callee | destructor r => exact ih tail
  cases stack with
  | nil => rfl
  | cons f below =>
    have holdsNone := h.topOnly t f below top
    cases f with
    | code guard rest reg =>
      exact Bool.and_eq_true_iff.mpr ⟨List.isEmpty_iff.mpr holdsNone, all below holdsNone⟩
    | callee | destructor r => exact all below holdsNone

omit [DecidableEq μ] [DecidableEq κ] [DecidableEq ω] in
/-- The rule of a changed stack. -/
theorem Calm.change (h : Calm s) (top : s.threads[t]? = some old)
    (threads : s'.threads = s.threads.set t stack)
    (quiet : ∀ guard rest reg, .code guard rest reg ∈ stack → .release ∉ rest)
    (topOnly : heldBy stack.tail = []) : Calm s' where
  quiet t' st ht := by
    rw [threads] at ht
    rcases Tables.set_cases top ht with ⟨-, rfl⟩ | ⟨-, before⟩
    · exact quiet
    · exact h.quiet t' st before
  topOnly t' f below ht := by
    rw [threads] at ht
    rcases Tables.set_cases top ht with ⟨-, rfl⟩ | ⟨-, before⟩
    · exact topOnly
    · exact h.topOnly t' f below before

omit [DecidableEq μ] [DecidableEq κ] in
/-- An owner goes while the stack holds nothing. -/
theorem Calm.release (h : Calm s) (top : s.threads[t]? = some old)
    (threads : s'.threads = s.threads)
    (quiet : ∀ guard rest reg, .code guard rest reg ∈ stack → .release ∉ rest)
    (holdsNone : heldBy stack = []) (gone : Option ω) : Calm (s'.release t stack gone) := by
  have tail : heldBy stack.tail = [] := by
    cases stack with
    | nil => rfl
    | cons f below =>
      rw [heldBy, List.filterMap_eq_nil_iff] at holdsNone ⊢
      exact fun g hg => holdsNone g (List.mem_cons_of_mem f hg)
  rcases (release_threads s' t stack gone).2 with released | ⟨r, released⟩
  · exact h.change top (threads ▸ released) quiet tail
  · refine h.change top (show _ = s.threads.set t (.destructor r :: stack) from threads ▸ released)
      (fun guard rest reg mem => ?_) holdsNone
    rcases List.mem_cons.mp mem with new | mem
    · cases new
    · exact quiet guard rest reg mem

end Calm

/-- **Functions that let nothing go inside critical sections, any action.** -/
theorem calm_step {guardOf : κ → μ} {program : Program π μ κ ω} {s s' : World μ κ ω}
    {l : Label π κ ω} (quiet : Quiet program) (g : Guarded guardOf s) (h : Calm s)
    (step : Step program s l s') : Calm s' := by
  cases step with
  | make new => exact ⟨h.quiet, h.topOnly⟩
  | copy mem => exact ⟨h.quiet, h.topOnly⟩
  | @drop t stack r top may mem =>
    refine h.release top ?_ (h.quiet t stack top) (h.free_holds_none top may) _
    rfl
  | @discard t stack k top may =>
    refine h.release top ?_ (h.quiet t stack top) (h.free_holds_none top may) _
    rfl
  | @enter t stack p arg body function top may mem =>
    refine h.change top rfl (fun guard rest reg mem => ?_) (h.free_holds_none top may)
    rcases List.mem_cons.mp mem with new | mem
    · cases new
      exact quiet p arg body function
    · exact h.quiet t stack top guard rest reg mem
  | @ret t f below top may =>
    have holdsNone := h.topOnly t f below top
    refine h.change top rfl (fun guard rest reg mem =>
      h.quiet t _ top guard rest reg (List.mem_cons_of_mem f mem)) ?_
    rw [heldBy, List.filterMap_eq_nil_iff] at holdsNone ⊢
    exact fun f' hf => holdsNone f' (List.mem_of_mem_tail hf)
  | @leave t reg below top =>
    exact h.release top rfl (fun guard rest reg mem =>
      h.quiet t _ top guard rest reg (List.mem_cons_of_mem _ mem)) (h.topOnly t _ below top) _
  | @exec t guard i rest reg below s' top went =>
    have good := (List.forall_mem_cons.mp (g.ok t _ top)).1
    have holdsNone := h.topOnly t _ below top
    have left : .release ∉ i :: rest := h.quiet t _ top guard _ reg List.mem_cons_self
    have others : ∀ guard' rest' reg', .code guard' rest' reg' ∈ below → .release ∉ rest' :=
      fun guard' rest' reg' mem => h.quiet t _ top guard' rest' reg' (List.mem_cons_of_mem _ mem)
    -- the frame on top goes on
    have onward : ∀ {guard' : Option μ} {reg' : Option ω},
        s'.threads = s.threads.set t (.code guard' rest reg' :: below) → Calm s' := by
      intro guard' reg' threads
      refine h.change top threads (fun guard₁ rest₁ reg₁ mem => ?_) holdsNone
      rcases List.mem_cons.mp mem with new | mem
      · cases new
        exact fun mem => left (List.mem_cons_of_mem i mem)
      · exact others guard₁ rest₁ reg₁ mem
    cases i with
    | lock m =>
      obtain ⟨-, rfl⟩ := Option.ite_none_right_eq_some.mp went |>.imp_right Option.some.inj
      exact onward rfl
    | unlock =>
      cases guard with
      | none => cases went
      | some m =>
        obtain rfl := Option.some.inj went
        exact onward rfl
    | exchange k | load k | give =>
      obtain rfl := Option.some.inj went
      exact onward rfl
    | store k =>
      dsimp only [exec] at went
      split at went
      · obtain rfl := Option.some.inj went
        exact onward rfl
      · obtain rfl := Option.some.inj went
        exact onward rfl
    | call =>
      cases guard with
      | some m => cases good
      | none =>
        dsimp only [exec] at went
        split at went
        · obtain rfl := Option.some.inj went
          exact onward rfl
        · obtain rfl := Option.some.inj went
          refine h.change top rfl (fun guard₁ rest₁ reg₁ mem => ?_) holdsNone
          rcases List.mem_cons.mp mem with new | mem
          · cases new
          · rcases List.mem_cons.mp mem with new | mem
            · cases new
              exact fun mem => left (List.mem_cons_of_mem _ mem)
            · exact others guard₁ rest₁ reg₁ mem
    | release => exact absurd List.mem_cons_self left

/-! ## Runs -/

omit [DecidableEq κ] [DecidableEq ω] in
theorem guarded_init (guardOf : κ → μ) (n : Nat) : Guarded guardOf (init n : World μ κ ω) where
  ok t stack top f mem := by
    rw [init_stack top] at mem
    cases mem
  owned m t := by
    refine iff_of_false (by simp [init]) ?_
    rintro ⟨stack, top, mem⟩
    rw [init_stack top] at mem
    cases mem
  nodup t stack top := by
    rw [init_stack top]
    exact List.nodup_nil

omit [DecidableEq μ] [DecidableEq κ] [DecidableEq ω] in
theorem calm_init (n : Nat) : Calm (init n : World μ κ ω) where
  quiet t stack top guard rest reg mem := by
    rw [init_stack top] at mem
    cases mem
  topOnly t f below top := by cases init_stack top

theorem guarded_run {guardOf : κ → μ} {program : Program π μ κ ω} {n : Nat}
    {ls : List (Label π κ ω)} {s : World μ κ ω}
    (orderly : Orderly guardOf program) (run : Run program (init n) ls s) :
    Guarded guardOf s :=
  run.invariant (P := Guarded guardOf) (guarded_init guardOf n) fun h step =>
    guarded_step orderly h (Step.of_step step)

theorem calm_run {guardOf : κ → μ} {program : Program π μ κ ω} {n : Nat}
    {ls : List (Label π κ ω)} {s : World μ κ ω}
    (orderly : Orderly guardOf program) (quiet : Quiet program)
    (run : Run program (init n) ls s) : Calm s :=
  (run.invariant (P := fun u => Guarded guardOf u ∧ Calm u) ⟨guarded_init guardOf n, calm_init n⟩
    fun h step => ⟨guarded_step orderly h.1 (Step.of_step step),
      calm_step quiet h.1 h.2 (Step.of_step step)⟩).2

end World

end SharedObjects
