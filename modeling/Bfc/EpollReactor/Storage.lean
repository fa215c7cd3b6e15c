import Bfc.Lib.Translation
import Bfc.Function.Slots
import Bfc.EpollReactor.Pass

/-!
# Where the epoll reactor's callbacks live

The storages of `bfc::function` in the entries of `m_fd_entries`, and what the reactor's steps do to
them: an `add_*` moves its argument into the context, whether `EPOLL_CTL_ADD` then succeeds or not,
a `rem_*` assigns `nullptr` to it, and the clean-up destroys the contexts of the entries it erases.
On the reactor thread `rem_read_rdy` and `rem_write_rdy` are `rem_read` and `rem_write`, and then
run their `done_cb`, whose calls follow as calls of their own.
-/

namespace Bfc.EpollReactor

open Lts Bfc.Function

/-- The function objects of a reactor. -/
inductive Place where
  | ctx (fd : Int) (side : Side)
  | argument
deriving DecidableEq

/-- What callers give. -/
abbrev Callback (ω : Type) (N : Nat) := Callable Place ω Unit Unit N

/-- An operation of a function object. -/
abbrev Effect (ω : Type) (N : Nat) := Function.Op Place ω Unit Unit N

/-- The function objects there are, and whether each is engaged. -/
def Reactor.filled {κ : Type*} (s : Reactor κ) : Shape Place
  | .ctx fd side => (s.fdEntries fd).map fun e => (e.ctx side).cb.isSome
  | .argument => none

/-! ## What the steps do to function objects -/

section Programs

variable {ω : Type} {N : Nat}

/-- The removals: the context is emptied, if it is registered. -/
def Reactor.removal (s : Reactor (Callback ω N)) (fd : Int) (side : Side) : List (Effect ω N) :=
  match s.fdEntries fd with
  | none => []
  | some e => if e.active side = true ∧ (e.ctx side).fd ≠ -1 then [.reset (.ctx fd side)] else []

/-- The context that `add_write` stores in, if it has a descriptor or `dup` answers one. -/
def Reactor.writeSlot (s : Reactor (Callback ω N)) (fd dupFd : Int) : Option Place :=
  if (s.entryOf fd).writeFd dupFd = -1 then none else some (.ctx fd .write)

/-- What a call does. -/
def Reactor.callEffects (s : Reactor (Callback ω N)) : Op (Callback ω N) → List (Effect ω N)
  | .addRead fd _ cb _ =>
    addition (.ctx fd .read) (.ctx fd .write) .argument (s.fdEntries fd).isSome cb
      (some (.ctx fd .read))
  | .remRead fd => s.removal fd .read
  | .addWrite fd cb dupFd _ =>
    addition (.ctx fd .read) (.ctx fd .write) .argument (s.fdEntries fd).isSome cb
      (s.writeSlot fd dupFd)
  | .remWrite fd => s.removal fd .write
  | .openFd _ | .closeFd _ | .reqWrite .. => []

/-- One round of the clean-up loop: an entry is erased with its contexts. -/
def Reactor.erasure (s : Reactor (Callback ω N)) (fd : Int) : List (Effect ω N) :=
  match s.fdEntries fd with
  | none => []
  | some e =>
    if !e.readActive && !e.writeActive then
      [.destroy (.ctx fd .read), .destroy (.ctx fd .write)]
    else []

/-- What a step does. -/
def Reactor.effects (s : Reactor (Callback ω N)) : Event (Callback ω N) → List (Effect ω N)
  | .call op => s.callEffects op
  | .cleanup =>
    programs (fun t fd => some (Reactor.cleanupFd t fd)) Reactor.erasure s s.pendingCleanup

/-- What the steps do, one after the other. -/
def Reactor.storage (s : Reactor (Callback ω N)) (events : List (Event (Callback ω N))) :
    List (Effect ω N) :=
  programs Reactor.step Reactor.effects s events

/-- What calls do, one after the other. -/
def Reactor.callStorage (s : Reactor (Callback ω N)) (ops : List (Op (Callback ω N))) :
    List (Effect ω N) :=
  programs Reactor.call Reactor.callEffects s ops

end Programs

/-! ## What the calls change -/

section Changes

variable {κ : Type*} {s s' : Reactor κ}

theorem filled_congr (table : s'.fdEntries = s.fdEntries) : s'.filled = s.filled := by
  ext p : 1
  cases p with
  | ctx fd side => simp only [Reactor.filled, table]
  | argument => rfl

theorem addRead_writes (s : Reactor κ) (fd : Int) (events : BitVec 32) (cb : Option κ)
    (added : Bool) :
    ∃ e, (s.addRead fd events cb added).1.fdEntries = Function.update s.fdEntries fd (some e) ∧
      e.readCtx.cb = cb ∧ e.writeCtx.cb = (s.entryOf fd).writeCtx.cb := by
  cases added with
  | false => exact ⟨_, rfl, rfl, rfl⟩
  | true => exact ⟨_, rfl, rfl, rfl⟩

theorem addWrite_writes (s : Reactor κ) (fd : Int) (cb : Option κ) (dupFd : Int) (added : Bool) :
    ∃ e, (s.addWrite fd cb dupFd added).1.fdEntries = Function.update s.fdEntries fd (some e) ∧
      e.readCtx.cb = (s.entryOf fd).readCtx.cb ∧
      e.writeCtx.cb =
        if (s.entryOf fd).writeFd dupFd = -1 then (s.entryOf fd).writeCtx.cb else cb := by
  unfold Reactor.addWrite
  obtain ⟨s₀, hs₀⟩ : ∃ s₀ : Reactor κ, { s with adds := s.adds + 1 } = s₀ := ⟨_, rfl⟩
  have table : s₀.fdEntries = s.fdEntries := by rw [← hs₀]
  have entry : s₀.entryOf fd = s.entryOf fd := by
    rw [← hs₀]
    rfl
  dsimp only
  rw [hs₀, entry,
    show ((s.entryOf fd).named fd).writeFd dupFd = (s.entryOf fd).writeFd dupFd from rfl]
  by_cases closed : (s.entryOf fd).writeFd dupFd = -1
  · rw [if_pos closed, if_pos closed]
    exact ⟨_, congrArg (Function.update · fd _) table, rfl, rfl⟩
  · rw [if_neg closed, if_neg closed]
    have dupped := (Agree.dupped_same s₀ fd dupFd).1.trans table
    cases added with
    | false => exact ⟨_, congrArg (Function.update · fd _) dupped, rfl, rfl⟩
    | true => exact ⟨_, congrArg (Function.update · fd _) dupped, rfl, rfl⟩

/-- What a removal does to the table: it empties a context that is registered, and does nothing
else. -/
def Removal (s s' : Reactor κ) (fd : Int) (side : Side) : Prop :=
  (∃ e e', s.fdEntries fd = some e ∧ (e.active side = true ∧ (e.ctx side).fd ≠ -1) ∧
    s'.fdEntries = Function.update s.fdEntries fd (some e') ∧ (e'.ctx side).cb = none ∧
    ∀ other, other ≠ side → e'.ctx other = e.ctx other) ∨
  (∀ e, s.fdEntries fd = some e → ¬(e.active side = true ∧ (e.ctx side).fd ≠ -1)) ∧
    s'.fdEntries = s.fdEntries

theorem remRead_removal (s : Reactor κ) (fd : Int) : Removal s (s.remRead fd).1 fd .read := by
  unfold Reactor.remRead
  cases he : s.fdEntries fd with
  | none => exact .inr ⟨fun e hs => absurd (he.symm.trans hs) (by simp), rfl⟩
  | some e =>
    dsimp only
    by_cases registered : e.readActive = true ∧ e.readCtx.fd ≠ -1
    · rw [if_pos registered]
      refine .inl ⟨e, _, he, registered, (notePending_same _ fd _).1.trans rfl, rfl, ?_⟩
      intro other ne
      cases other with
      | read => exact absurd rfl ne
      | write => rfl
    · rw [if_neg registered]
      refine .inr ⟨fun e' hs => ?_, (notePending_same s fd e).1⟩
      rw [← Option.some.inj (he.symm.trans hs)]
      exact registered

theorem remWrite_removal (s : Reactor κ) (fd : Int) : Removal s (s.remWrite fd).1 fd .write := by
  unfold Reactor.remWrite
  cases he : s.fdEntries fd with
  | none => exact .inr ⟨fun e hs => absurd (he.symm.trans hs) (by simp), rfl⟩
  | some e =>
    dsimp only
    by_cases registered : e.writeActive = true ∧ e.writeCtx.fd ≠ -1
    · rw [if_pos registered]
      refine .inl ⟨e, _, he, registered, (notePending_same _ fd _).1.trans rfl, rfl, ?_⟩
      intro other ne
      cases other with
      | read => rfl
      | write => exact absurd rfl ne
    · rw [if_neg registered]
      refine .inr ⟨fun e' hs => ?_, (notePending_same s fd e).1⟩
      rw [← Option.some.inj (he.symm.trans hs)]
      exact registered

theorem reqWrite_filled (s : Reactor κ) (fd : Int) (events : BitVec 32) (modified : Bool) :
    (s.reqWrite fd events modified).1.filled = s.filled := by
  unfold Reactor.reqWrite
  cases he : s.fdEntries fd with
  | none => rfl
  | some e =>
    dsimp only
    split
    · rfl
    · have stored : ∀ s' : Reactor κ, s'.fdEntries = Function.update s.fdEntries fd
          (some { e with writeCtx := { e.writeCtx with events := events } }) →
          s'.filled = s.filled := by
        intro s' table
        ext p : 1
        cases p with
        | ctx fd' side =>
          simp only [Reactor.filled, table]
          by_cases same : fd' = fd
          · subst same
            rw [Function.update_self, he]
            cases side <;> rfl
          · rw [Function.update_of_ne same]
        | argument => rfl
      split
      · exact stored _ rfl
      · exact stored _ rfl

/-! ## What the table says there is -/

/-- An entry that is looked up has the callbacks it had, and none if it is made. -/
theorem filled_entryOf (s : Reactor κ) (fd : Int) (side : Side) :
    (s.filled (.ctx fd side)).getD false = ((s.entryOf fd).ctx side).cb.isSome := by
  cases he : s.fdEntries fd with
  | none => cases side <;> simp [Reactor.filled, Reactor.entryOf, he, FdEntry.ctx]
  | some e => simp [Reactor.filled, Reactor.entryOf, he]

/-- The two contexts of an entry. -/
theorem filled_present (s : Reactor κ) (fd : Int) (a : Place)
    (slot : a = .ctx fd .read ∨ a = .ctx fd .write) :
    (s.filled a).isSome = (s.fdEntries fd).isSome := by
  rcases slot with rfl | rfl
  · simp [Reactor.filled]
  · simp [Reactor.filled]

theorem filled_added {fd : Int} {e : FdEntry κ} {cb : Option κ} {slot : Option Place}
    (table : s'.fdEntries = Function.update s.fdEntries fd (some e))
    (own : ∀ a, slot = some a → a = .ctx fd .read ∨ a = .ctx fd .write)
    (stored : ∀ side, (e.ctx side).cb.isSome =
      if slot = some (.ctx fd side) then cb.isSome else ((s.entryOf fd).ctx side).cb.isSome) :
    s'.filled = fun b => if slot = some b then some cb.isSome
      else s.filled.entered (.ctx fd .read) (.ctx fd .write) b := by
  ext p : 1
  cases p with
  | ctx fd' side =>
    by_cases same : fd' = fd
    · subst same
      have mine : Place.ctx fd' side = .ctx fd' .read ∨ Place.ctx fd' side = .ctx fd' .write := by
        cases side with
        | read => exact .inl rfl
        | write => exact .inr rfl
      rw [Reactor.filled, table, Function.update_self, Option.map_some, stored side,
        Shape.entered, if_pos mine, filled_entryOf]
      split <;> rfl
    · have others :
          ¬(Place.ctx fd' side = .ctx fd .read ∨ Place.ctx fd' side = .ctx fd .write) := by
        simp [same]
      rw [if_neg fun hs => others (own _ hs), Shape.entered, if_neg others]
      simp only [Reactor.filled, table, Function.update_of_ne same]
  | argument =>
    rw [if_neg fun hs => by simpa using own _ hs, Shape.entered, if_neg (by simp)]
    rfl

end Changes

/-! ## The programs can run -/

section Run

variable {ω : Type} {N : Nat} {s s' : Reactor (Callback ω N)}

/-- A removal's program. -/
theorem Removal.run {fd : Int} {side : Side} (h : Removal s s' fd side) :
    (s.removal fd side).foldlM Shape.step s.filled = some s'.filled := by
  unfold Reactor.removal
  rcases h with ⟨e, e', he, registered, table, emptied, kept⟩ | ⟨idle, table⟩
  · have there : s.filled (.ctx fd side) = some (e.ctx side).cb.isSome := by
      rw [Reactor.filled, he, Option.map_some]
    rw [he]
    dsimp only
    rw [if_pos registered]
    simp only [List.foldlM_cons, List.foldlM_nil, Option.pure_def, Option.bind_eq_bind,
      Option.bind_some, Shape.step, there, Option.some.injEq]
    ext p : 1
    rw [Shape.put_apply]
    cases p with
    | ctx fd' other =>
      by_cases same : fd' = fd
      · subst same
        simp only [Place.ctx.injEq, true_and, Reactor.filled, table, Function.update_self,
          Option.map_some, he]
        by_cases own : other = side
        · rw [if_pos own, own, emptied]
          rfl
        · rw [if_neg own, kept other own]
      · simp [Reactor.filled, table, same]
    | argument => simp [Reactor.filled]
  · rw [filled_congr table]
    cases he : s.fdEntries fd with
    | none => rfl
    | some e =>
      dsimp only
      rw [if_neg (idle e he)]
      rfl

theorem writeSlot_eq {fd dupFd : Int} {a : Place} (h : s.writeSlot fd dupFd = some a) :
    a = .ctx fd .write := by
  unfold Reactor.writeSlot at h
  split at h
  · cases h
  · exact (Option.some.inj h).symm

theorem call_run (s : Reactor (Callback ω N)) (op : Op (Callback ω N)) :
    (s.callEffects op).foldlM Shape.step s.filled = some (s.perform op).filled := by
  cases op with
  | openFd fd | closeFd fd => exact congrArg some (filled_congr rfl).symm
  | addRead fd events cb added =>
    obtain ⟨e, table, read, write⟩ := addRead_writes s fd events cb added
    have own : ∀ a, some (Place.ctx fd .read) = some a →
        a = .ctx fd .read ∨ a = .ctx fd .write := fun a ha => .inl (Option.some.inj ha).symm
    have stored : ∀ side, (e.ctx side).cb.isSome =
        if some (Place.ctx fd .read) = some (.ctx fd side) then cb.isSome
        else ((s.entryOf fd).ctx side).cb.isSome := by
      intro side
      cases side with
      | read => simp [FdEntry.ctx, read]
      | write => simp [FdEntry.ctx, write]
    rw [Reactor.callEffects, Shape.addition_run (by simp) rfl ⟨by simp, by simp⟩
      (filled_present s fd) cb own]
    exact congrArg some (filled_added table own stored).symm
  | remRead fd => exact (remRead_removal s fd).run
  | addWrite fd cb dupFd added =>
    obtain ⟨e, table, read, write⟩ := addWrite_writes s fd cb dupFd added
    have own : ∀ a, s.writeSlot fd dupFd = some a → a = .ctx fd .read ∨ a = .ctx fd .write :=
      fun a ha => .inr (writeSlot_eq ha)
    have stored : ∀ side, (e.ctx side).cb.isSome =
        if s.writeSlot fd dupFd = some (.ctx fd side) then cb.isSome
        else ((s.entryOf fd).ctx side).cb.isSome := by
      intro side
      cases side with
      | read =>
        rw [if_neg fun hs => by simpa using writeSlot_eq hs]
        exact congrArg Option.isSome read
      | write =>
        rw [show (e.ctx .write).cb = e.writeCtx.cb from rfl, write, Reactor.writeSlot]
        by_cases closed : (s.entryOf fd).writeFd dupFd = -1
        · simp only [if_pos closed, reduceCtorEq, if_false, FdEntry.ctx]
        · simp only [if_neg closed, if_true]
    rw [Reactor.callEffects, Shape.addition_run (by simp) rfl ⟨by simp, by simp⟩
      (filled_present s fd) cb own]
    exact congrArg some (filled_added table own stored).symm
  | remWrite fd => exact (remWrite_removal s fd).run
  | reqWrite fd events modified =>
    exact congrArg some (reqWrite_filled s fd events modified).symm

theorem cleanupFd_run (s : Reactor (Callback ω N)) (fd : Int) :
    (s.erasure fd).foldlM Shape.step s.filled = some (s.cleanupFd fd).filled := by
  unfold Reactor.erasure Reactor.cleanupFd
  cases he : s.fdEntries fd with
  | none => rfl
  | some e =>
    dsimp only
    split
    · have there : ∀ side, s.filled (.ctx fd side) = some (e.ctx side).cb.isSome := by
        intro side
        simp [Reactor.filled, he]
      have write : Function.update s.filled (.ctx fd .read) none (.ctx fd .write) =
          some (e.ctx .write).cb.isSome :=
        (Function.update_of_ne (by simp) _ _).trans (there .write)
      simp only [List.foldlM_cons, List.foldlM_nil, Option.pure_def, Option.bind_eq_bind,
        Option.bind_some, Shape.step, there .read, write, Option.some.injEq]
      have erased : ∀ t : Reactor (Callback ω N), t.fdEntries = s.fdEntries →
          Function.update (Function.update s.filled (.ctx fd .read) none) (.ctx fd .write) none =
            ({ t with fdEntries := Function.update t.fdEntries fd none } : Reactor _).filled := by
        intro t table
        ext p : 1
        rw [Function.update_apply, Function.update_apply]
        cases p with
        | ctx fd' side =>
          by_cases same : fd' = fd
          · cases side <;> simp [Reactor.filled, same]
          · simp [Reactor.filled, same, table]
        | argument => simp [Reactor.filled]
      split
      · exact erased _ rfl
      · exact erased s rfl
    · rfl

theorem step_run {t : Reactor (Callback ω N)} {event : Event (Callback ω N)}
    (step : s.step event = some t) :
    (s.effects event).foldlM Shape.step s.filled = some t.filled := by
  cases event with
  | call op =>
    obtain ⟨-, performed⟩ := Option.ite_none_right_eq_some.mp step
    rw [← Option.some.inj performed]
    exact call_run s op
  | cleanup =>
    obtain rfl := Option.some.inj step
    have rounds : s.pendingCleanup.foldlM (fun t fd => some (Reactor.cleanupFd t fd)) s =
        some (s.pendingCleanup.foldl Reactor.cleanupFd s) := List.foldlM_pure
    have erased := programs_run (g := Shape.step) (e := Reactor.filled) (p := Reactor.erasure)
      (fun {s fd t} step => by
        obtain rfl := Option.some.inj step
        exact cleanupFd_run s fd) rounds
    exact erased.trans (congrArg some (filled_congr rfl).symm)

/-- **The storage follows the table.** From a new reactor, the programs of any steps can run, and
what they leave are the function objects that the table says there are. -/
theorem storage_run {eventFd : Nat} {pollIn : BitVec 32} {events : List (Event (Callback ω N))}
    (run : events.foldlM Reactor.step (.init eventFd pollIn) = some s) :
    ∃ l, ((Reactor.init eventFd pollIn).storage events).foldlM Lifetimes.step
      ({} : Lifetimes Place) = some l ∧ l.Numbered ∧ l.shape = s.filled := by
  have empty : ({} : Lifetimes Place).shape =
      (Reactor.init eventFd pollIn : Reactor (Callback ω N)).filled := by
    ext p : 1
    cases p <;> rfl
  have shapes := programs_run (g := Shape.step) (e := Reactor.filled) (p := Reactor.effects)
    step_run run
  have followed := Lifetimes.run_shape ((Reactor.init eventFd pollIn).storage events) {}
  rw [empty] at followed
  obtain ⟨l, made, shape⟩ := Option.map_eq_some_iff.mp (followed.trans shapes)
  exact ⟨l, made, Lifetimes.Numbered.empty.run made, shape⟩

/-- The programs of calls can run where the storage is as the table says. -/
theorem callStorage_run {t : Reactor (Callback ω N)} {ops : List (Op (Callback ω N))}
    (run : s.calls ops = some t) {l : Lifetimes Place} (shape : l.shape = s.filled) :
    ∃ l', (s.callStorage ops).foldlM Lifetimes.step l = some l' := by
  have shapes := programs_run (g := Shape.step) (e := Reactor.filled) (p := Reactor.callEffects)
    (fun {s op t} step => by
      obtain ⟨-, performed⟩ := Option.ite_none_right_eq_some.mp step
      rw [← Option.some.inj performed]
      exact call_run s op) run
  rw [← shape, ← Lifetimes.run_shape] at shapes
  obtain ⟨l', made, -⟩ := Option.map_eq_some_iff.mp shapes
  exact ⟨l', made⟩

end Run

end Bfc.EpollReactor
