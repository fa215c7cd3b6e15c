import Bfc.EpollReactor.Pass

/-!
# Stale events of the epoll reactor

An event has the pointer to a context and nothing else, and the context survives the removal of its
registration until the clean-up. So a callback that is stored in the context while the batch is
dispatched is invoked for an event that was reported before: `dispatch_stale` is such a batch.

When it happens depends on the calls alone. `Slot` follows, through the calls that the callbacks of
the batch have made, whether one of their callbacks is left in the context, and `dispatch_fresh_iff`
says that the batch is dispatched as it should be exactly when no event is reached in that case.
-/

namespace Bfc.EpollReactor

open Lts

variable {κ : Type*} {s t : Reactor κ}

/-! ## What dispatch should do -/

/-- An event that invokes a callback finds the registration that was active at the wait: still
active, armed by the same call, and its callback given before the batch. -/
def Fresh (s : Reactor κ) (v : Visit κ) : Prop :=
  ∀ fd node side, v.ptr = .ctx fd node side → v.invoked.isSome →
    ∃ e₀ e, s.fdEntries fd = some e₀ ∧ e₀.active side = true ∧
      v.before.fdEntries fd = some e ∧ e.node = node ∧ e.active side = true ∧
      (e.ctx side).armedBy = (e₀.ctx side).armedBy ∧ (e.ctx side).storedBy ≤ s.adds

/-! ## The condition -/

/-- What the calls of a batch have made of a direction that was registered when it began: whether
its context has a descriptor, whether it is registered, and whether a callback given in the batch is
left in the context. -/
structure Slot where
  held : Bool := true
  active : Bool := true
  left : Bool := false
deriving DecidableEq, Repr

/-- The slot of a direction after a call. An addition leaves its callback, also where
`EPOLL_CTL_ADD` fails, unless there is no duplicate to be had; a removal that finds the direction
registered clears it. -/
def Slot.after (fd : Int) (side : Side) (slot : Slot) : Op κ → Slot
  | .addRead x _ cb added =>
    if x = fd ∧ side = .read then
      { held := true, active := added || slot.active, left := cb.isSome }
    else slot
  | .addWrite x cb dupFd added =>
    if x = fd ∧ side = .write ∧ (slot.held ∨ dupFd ≠ -1) then
      { held := true, active := added || slot.active, left := cb.isSome }
    else slot
  | .remRead x =>
    if x = fd ∧ side = .read ∧ slot.active then
      { held := false, active := false, left := false }
    else slot
  | .remWrite x =>
    if x = fd ∧ side = .write ∧ slot.active then
      { held := false, active := false, left := false }
    else slot
  | .openFd _ | .closeFd _ | .reqWrite .. => slot

/-- A callback given by one of these calls is left in the context that a pointer points to. -/
def leaves (ops : List (Op κ)) : Ptr → Bool
  | .eventFdCtx => false
  | .ctx fd _ side => (ops.foldl (Slot.after fd side) {}).left

/-! ## Callbacks are stamped by calls made -/

/-- No callback comes from a call that is yet to be made. -/
def Stamped (s : Reactor κ) : Prop :=
  ∀ fd e side, s.fdEntries fd = some e → (e.ctx side).storedBy ≤ s.adds

theorem Op.le_addsAfter (op : Op κ) (adds : Nat) : adds ≤ op.addsAfter adds := by
  cases op with
  | addRead x events cb added => exact Nat.le_succ adds
  | addWrite x cb dupFd added => exact Nat.le_succ adds
  | openFd x => exact Nat.le_refl _
  | closeFd x => exact Nat.le_refl _
  | remRead x => exact Nat.le_refl _
  | remWrite x => exact Nat.le_refl _
  | reqWrite x events modified => exact Nat.le_refl _

/-- A call stamps the callback it stores with its own number. -/
theorem Op.onEntry_storedBy (op : Op κ) {fd : Int} {adds : Nat} {e : FdEntry κ} {side : Side}
    (stamped : (e.ctx side).storedBy ≤ adds) :
    ((op.onEntry fd (adds + 1) e).ctx side).storedBy ≤ op.addsAfter adds := by
  have later : (e.ctx side).storedBy ≤ op.addsAfter adds :=
    Nat.le_trans stamped (op.le_addsAfter adds)
  cases op with
  | openFd x => exact later
  | closeFd x => exact later
  | addRead x events cb added =>
    simp only [Op.onEntry]
    split
    · cases side with
      | read => exact Nat.le_refl _
      | write => exact later
    · exact later
  | addWrite x cb dupFd added =>
    simp only [Op.onEntry]
    split
    · split
      · cases side with
        | read => exact later
        | write => exact later
      · cases side with
        | read => exact later
        | write => exact Nat.le_refl _
    · exact later
  | remRead x | remWrite x | reqWrite x events modified =>
    simp only [Op.onEntry]
    split
    · cases side with
      | read => exact later
      | write => exact later
    · exact later

theorem Stamped.entryOf (h : Stamped s) (fd : Int) (side : Side) :
    ((s.entryOf fd).ctx side).storedBy ≤ s.adds := by
  cases he : s.fdEntries fd with
  | none =>
    rw [Reactor.entryOf, he]
    cases side with
    | read => exact Nat.zero_le _
    | write => exact Nat.zero_le _
  | some e =>
    rw [Agree.entryOf_eq he]
    exact h fd e side he

theorem Stamped.perform (h : Stamped s) (op : Op κ) : Stamped (s.perform op) := by
  intro fd e side he
  rw [perform_adds]
  rcases perform_entry s op fd with stored | ⟨same, -⟩
  · obtain rfl := Option.some.inj (stored.symm.trans he)
    exact op.onEntry_storedBy (h.entryOf fd side)
  · exact Nat.le_trans (h fd e side (same.symm.trans he)) (op.le_addsAfter s.adds)

theorem Stamped.cleanup (h : Stamped s) : Stamped s.cleanup := by
  intro fd e side he
  rw [cleanup_adds]
  exact h fd e side (cleanup_entry s he)

theorem Stamped.run {eventFd : Nat} {pollIn : BitVec 32} {events : List (Event κ)}
    (run : Run Step (.init eventFd pollIn) events s) : Stamped s := by
  refine Run.invariant (P := Stamped) run ?_ ?_
  · intro fd e side he
    cases he
  · intro s event t h step
    cases event with
    | call op =>
      obtain ⟨-, performed⟩ := Option.ite_none_right_eq_some.mp step
      exact Option.some.inj performed ▸ h.perform op
    | cleanup => exact Option.some.inj step ▸ h.cleanup

/-! ## The slot follows the context -/

/-- What a slot says of a direction of an entry; `adds` is the number of additions before the
batch, and `armedBy` the one that armed the direction then. -/
structure Tracks (adds armedBy : Nat) (e : FdEntry κ) (side : Side) (slot : Slot) : Prop where
  active : e.active side = slot.active
  held : (e.ctx side).fd ≠ -1 ↔ slot.held = true
  valid : slot.active = true → slot.held = true
  left : slot.left = true → (e.ctx side).cb.isSome ∧ adds < (e.ctx side).storedBy
  kept : slot.left = false → (e.ctx side).cb = none ∨
    slot.active = true ∧ (e.ctx side).armedBy = armedBy ∧ (e.ctx side).storedBy ≤ adds

section Step

variable {adds armedBy n : Nat} {fd : Int} {e e' : FdEntry κ} {side : Side} {slot : Slot}

/-- A context that is left alone is still as the slot says. -/
theorem Tracks.of_same (h : Tracks adds armedBy e side slot)
    (active : e'.active side = e.active side) (held : (e'.ctx side).fd = (e.ctx side).fd)
    (cb : (e'.ctx side).cb = (e.ctx side).cb)
    (armed : (e'.ctx side).armedBy = (e.ctx side).armedBy)
    (stored : (e'.ctx side).storedBy = (e.ctx side).storedBy) :
    Tracks adds armedBy e' side slot where
  active := active.trans h.active
  held := by rw [held]; exact h.held
  valid := h.valid
  left := by rw [cb, stored]; exact h.left
  kept := by rw [cb, armed, stored]; exact h.kept

/-- An addition of the batch leaves its callback. -/
theorem Tracks.added {cb : Option κ} {active : Bool} (isActive : e.active side = active)
    (valid : (e.ctx side).fd ≠ -1) (hcb : (e.ctx side).cb = cb)
    (stored : adds < (e.ctx side).storedBy) :
    Tracks adds armedBy e side { held := true, active := active, left := cb.isSome } where
  active := isActive
  held := ⟨fun _ => rfl, fun _ => valid⟩
  valid := fun _ => rfl
  left := fun left => ⟨hcb ▸ left, stored⟩
  kept := by
    intro left
    left
    rw [hcb]
    exact Option.isNone_iff_eq_none.mp (Option.isSome_eq_false_iff.mp left)

/-- A removal leaves nothing. -/
theorem Tracks.removed (isActive : e.active side = false) (held : (e.ctx side).fd = -1)
    (hcb : (e.ctx side).cb = none) :
    Tracks adds armedBy e side { held := false, active := false, left := false } where
  active := isActive
  held := ⟨fun valid => absurd held valid, fun h => by cases h⟩
  valid := fun h => by cases h
  left := fun h => by cases h
  kept := fun _ => .inl hcb

/-- A call changes the slot as it changes the context. -/
theorem Tracks.call (h : Tracks adds armedBy e side slot) (valid : side = .read → fd ≠ -1)
    (later : adds ≤ n) (op : Op κ) :
    Tracks adds armedBy (op.onEntry fd (n + 1) e) side (slot.after fd side op) := by
  have stored : adds < n + 1 := Nat.lt_succ_of_le later
  cases op with
  | openFd x => exact h
  | closeFd x => exact h
  | addRead x events cb added =>
    simp only [Op.onEntry, Slot.after]
    by_cases own : x = fd
    · rw [if_pos (c := x = fd) own]
      cases side with
      | read =>
        rw [if_pos (show x = fd ∧ Side.read = Side.read from ⟨own, rfl⟩)]
        exact .added (congrArg (added || ·) h.active) (valid rfl) rfl stored
      | write =>
        rw [if_neg (show ¬(x = fd ∧ Side.write = Side.read) from fun hc => by cases hc.2)]
        exact h.of_same rfl rfl rfl rfl rfl
    · rw [if_neg (c := x = fd) own, if_neg (c := x = fd ∧ _) fun hc => own hc.1]
      exact h
  | addWrite x cb dupFd added =>
    simp only [Op.onEntry, Slot.after]
    by_cases own : x = fd
    · rw [if_pos (c := x = fd) own]
      cases side with
      | read =>
        rw [if_neg (c := x = fd ∧ Side.read = Side.write ∧ _) fun hc => by cases hc.2.1]
        split
        · exact h.of_same rfl rfl rfl rfl rfl
        · exact h.of_same rfl rfl rfl rfl rfl
      | write =>
        have dups : e.writeFd dupFd ≠ -1 ↔ slot.held = true ∨ dupFd ≠ -1 := by
          rw [← h.held]
          show (if e.writeCtx.fd = -1 then dupFd else e.writeCtx.fd) ≠ -1 ↔ e.writeCtx.fd ≠ -1 ∨ _
          split
          · rename_i unheld
            exact ⟨.inr, fun hc => hc.resolve_left fun hc => hc unheld⟩
          · rename_i held
            exact ⟨.inl, fun _ => held⟩
        by_cases dup : e.writeFd dupFd = -1
        · rw [if_pos (c := e.writeFd dupFd = -1) dup,
            if_neg (c := x = fd ∧ Side.write = Side.write ∧ _) fun hc => dups.mpr hc.2.2 dup]
          exact h.of_same rfl rfl rfl rfl rfl
        · rw [if_neg (c := e.writeFd dupFd = -1) dup,
            if_pos (c := x = fd ∧ Side.write = Side.write ∧ _) ⟨own, rfl, dups.mp dup⟩]
          exact .added (congrArg (added || ·) h.active) dup rfl stored
    · rw [if_neg (c := x = fd) own, if_neg (c := x = fd ∧ _) fun hc => own hc.1]
      exact h
  | remRead x =>
    simp only [Op.onEntry, Slot.after]
    cases side with
    | read =>
      have removes : (x = fd ∧ e.readActive = true ∧ e.readCtx.fd ≠ -1) ↔
          x = fd ∧ Side.read = Side.read ∧ slot.active = true := by
        rw [← h.active]
        exact ⟨fun hc => ⟨hc.1, rfl, hc.2.1⟩, fun hc =>
          ⟨hc.1, hc.2.2, h.held.mpr (h.valid (h.active ▸ hc.2.2))⟩⟩
      by_cases hc : x = fd ∧ e.readActive = true ∧ e.readCtx.fd ≠ -1
      · rw [if_pos hc, if_pos (removes.mp hc)]
        exact .removed rfl rfl rfl
      · rw [if_neg hc, if_neg fun hs => hc (removes.mpr hs)]
        exact h
    | write =>
      rw [if_neg (c := x = fd ∧ Side.write = Side.read ∧ _) fun hc => by cases hc.2.1]
      split
      · exact h.of_same rfl rfl rfl rfl rfl
      · exact h
  | remWrite x =>
    simp only [Op.onEntry, Slot.after]
    cases side with
    | write =>
      have removes : (x = fd ∧ e.writeActive = true ∧ e.writeCtx.fd ≠ -1) ↔
          x = fd ∧ Side.write = Side.write ∧ slot.active = true := by
        rw [← h.active]
        exact ⟨fun hc => ⟨hc.1, rfl, hc.2.1⟩, fun hc =>
          ⟨hc.1, hc.2.2, h.held.mpr (h.valid (h.active ▸ hc.2.2))⟩⟩
      by_cases hc : x = fd ∧ e.writeActive = true ∧ e.writeCtx.fd ≠ -1
      · rw [if_pos hc, if_pos (removes.mp hc)]
        exact .removed rfl rfl rfl
      · rw [if_neg hc, if_neg fun hs => hc (removes.mpr hs)]
        exact h
    | read =>
      rw [if_neg (c := x = fd ∧ Side.read = Side.write ∧ _) fun hc => by cases hc.2.1]
      split
      · exact h.of_same rfl rfl rfl rfl rfl
      · exact h
  | reqWrite x events modified =>
    simp only [Op.onEntry, Slot.after]
    split
    · cases side with
      | read => exact h.of_same rfl rfl rfl rfl rfl
      | write => exact h.of_same rfl rfl rfl rfl rfl
    · exact h

end Step

/-- The slot follows the context through any calls. -/
theorem Tracks.calls {adds armedBy : Nat} {fd : Int} {e : FdEntry κ} {side : Side} {slot : Slot}
    {ops : List (Op κ)} (h : Tracks adds armedBy e side slot) (valid : side = .read → fd ≠ -1)
    (later : adds ≤ s.adds) (he : s.fdEntries fd = some e) (run : s.calls ops = some t) :
    ∃ e', t.fdEntries fd = some e' ∧ e'.node = e.node ∧
      Tracks adds armedBy e' side (ops.foldl (Slot.after fd side) slot) := by
  induction ops generalizing s e slot with
  | nil => exact ⟨e, Option.some.inj run ▸ he, rfl, h⟩
  | cons op ops ih =>
    rw [calls_cons] at run
    obtain ⟨u, first, rest⟩ := Option.bind_eq_some_iff.mp run
    obtain ⟨-, performed⟩ := Option.ite_none_right_eq_some.mp first
    obtain rfl := Option.some.inj performed
    have later' : adds ≤ (s.perform op).adds := by
      rw [perform_adds]
      exact Nat.le_trans later (op.le_addsAfter s.adds)
    obtain ⟨e', he', node, tracks⟩ := ih (h.call valid later op) later' (perform_some op he) rest
    exact ⟨e', he', node.trans (op.onEntry_node ..), tracks⟩

/-! ## When dispatch is as it should be -/

/-- A registered direction starts its slot. -/
theorem Agree.tracks (h : Agree s) (stamped : Stamped s) {fd : Int} {e : FdEntry κ} {side : Side}
    (he : s.fdEntries fd = some e) (active : e.active side = true) :
    (side = .read → fd ≠ -1) ∧ Tracks s.adds (e.ctx side).armedBy e side {} := by
  have ok := h.entries fd e he
  have valid : side = .read → fd ≠ -1 := by
    rintro rfl rfl
    obtain ⟨-, caller, -⟩ := ok.read active
    rw [h.invalid] at caller
    cases caller
  have held : (e.ctx side).fd ≠ -1 := by
    cases side with
    | read =>
      obtain ⟨own, -⟩ := ok.read active
      show e.readCtx.fd ≠ -1
      rw [own]
      exact valid rfl
    | write => exact (ok.write active).1
  exact ⟨valid,
    { active := active
      held := ⟨fun _ => rfl, fun _ => held⟩
      valid := fun _ => rfl
      left := fun left => by cases left
      kept := fun _ => .inr ⟨rfl, rfl, stamped fd e side he⟩ }⟩

/-- An event is dispatched as it should be exactly when no callback given in the batch is left in
its context. -/
theorem Agree.fresh_iff (h : Agree s) (stamped : Stamped s) {v : Visit κ}
    (reports : s.Reports v.ptr) (before : s.calls v.earlier = some v.before)
    (invoked : v.invoked = v.before.invokes v.ptr) :
    Fresh s v ↔ leaves v.earlier v.ptr = false := by
  rcases h.reported reports with event | ⟨fd, e, side, ptr, he, active⟩
  · constructor
    · intro _
      rw [event, leaves]
    · intro _ fd node side ptr
      rw [event] at ptr
      cases ptr
  · obtain ⟨valid, start⟩ := h.tracks stamped he active
    obtain ⟨e', he', node, tracks⟩ := start.calls valid (Nat.le_refl _) he before
    have holds : v.invoked = (e'.ctx side).cb := by
      rw [invoked, ptr]
      simp only [Reactor.invokes, Reactor.deref, he', node, if_true, Option.bind_some]
    rw [ptr, leaves]
    constructor
    · intro fresh
      by_contra left
      obtain ⟨given, late⟩ := tracks.left ((Bool.not_eq_false _).mp left)
      rw [← holds] at given
      obtain ⟨-, e₁, -, -, he₁, -, -, -, early⟩ := fresh fd e.node side ptr given
      obtain rfl := Option.some.inj (he'.symm.trans he₁)
      exact absurd late (Nat.not_lt.mpr early)
    · intro unleft fd' node' side' ptr' given
      obtain ⟨rfl, rfl, rfl⟩ := Ptr.ctx.inj (ptr.symm.trans ptr')
      rcases tracks.kept unleft with nothing | ⟨active', armed, stored⟩
      · rw [holds, nothing] at given
        cases given
      · exact ⟨e, e', he, active, he', node, tracks.active.trans active', armed, stored⟩

/-- **Events are fresh exactly when no callback of the batch is left in their context.** In every
reachable state, for every batch of events that a wait can report and every behaviour of the
callbacks, the events invoke only what was registered at the wait if and only if none is reached
with a callback in its context that the batch has given. -/
theorem dispatch_fresh_iff {eventFd : Nat} {pollIn : BitVec 32} {events : List (Event κ)}
    (run : Run Step (.init eventFd pollIn) events s) {calls : Nat → List (Op κ)} {batch : List Ptr}
    {visits : List (Visit κ)} (reported : ∀ ptr ∈ batch, s.Reports ptr)
    (done : s.dispatch calls batch = some (t, visits)) :
    (∀ v ∈ visits, Fresh s v) ↔ ∀ v ∈ visits, leaves v.earlier v.ptr = false := by
  obtain ⟨ptrs, visited⟩ := dispatch_visits done
  have each : ∀ v ∈ visits, Fresh s v ↔ leaves v.earlier v.ptr = false := by
    intro v hv
    have mem : v.ptr ∈ batch := ptrs ▸ List.mem_map_of_mem hv
    obtain ⟨before, invoked⟩ := visited v hv
    exact (Agree.run run).fresh_iff (.run run) (reported v.ptr mem) before invoked
  exact forall₂_congr each

/-- The callback of the second event adds the first one's descriptor again: its event is over. -/
theorem dispatch_fresh_iff_over :
    ∃ (s t : Reactor String) (visits : List (Visit String)),
      ([.call (.openFd 4), .call (.openFd 5), .call (.addRead 4 1 (some "first") true),
        .call (.addRead 5 1 (some "second") true)] : List (Event String)).foldlM Reactor.step
          (.init 3 1) = some s ∧
      s.dispatch (fun i => if i = 1 then [.remRead 4, .addRead 4 1 (some "new") true] else [])
        [.ctx 4 0 .read, .ctx 5 1 .read] = some (t, visits) ∧
      visits.map (·.invoked) = [some "first", some "second"] ∧ ∀ v ∈ visits, Fresh s v := by
  obtain ⟨s, t, visits, reached, reported, done, invoked, unleft⟩ :
      ∃ (s t : Reactor String) (visits : List (Visit String)),
        ([.call (.openFd 4), .call (.openFd 5), .call (.addRead 4 1 (some "first") true),
          .call (.addRead 5 1 (some "second") true)] : List (Event String)).foldlM Reactor.step
            (.init 3 1) = some s ∧
        (∀ ptr ∈ [Ptr.ctx 4 0 .read, .ctx 5 1 .read], s.Reports ptr) ∧
        s.dispatch (fun i => if i = 1 then [.remRead 4, .addRead 4 1 (some "new") true] else [])
          [.ctx 4 0 .read, .ctx 5 1 .read] = some (t, visits) ∧
        visits.map (·.invoked) = [some "first", some "second"] ∧
        (visits.map fun v => leaves v.earlier v.ptr) = [false, false] := by
    refine ⟨_, _, _, rfl, ?_, rfl, rfl, rfl⟩
    simp only [List.forall_mem_cons]
    exact ⟨⟨4, _, rfl, rfl⟩, ⟨5, _, rfl, rfl⟩, fun _ h => by cases h⟩
  refine ⟨s, t, visits, reached, done, invoked, ?_⟩
  apply (dispatch_fresh_iff (run_of_foldlM reached) reported done).mpr
  intro v hv
  have mem : leaves v.earlier v.ptr ∈ visits.map fun v => leaves v.earlier v.ptr :=
    List.mem_map_of_mem hv
  rw [unleft] at mem
  simpa using mem

/-- **A stale event is delivered.** Descriptors 4 and 5 are ready. The callback of 4 removes 5 and
closes it, opens it again and adds it for reading; the second event, reported for the old 5, invokes
the new callback. -/
theorem dispatch_stale :
    ∃ (s t : Reactor String) (visits : List (Visit String)),
      ([.call (.openFd 4), .call (.openFd 5), .call (.addRead 4 1 (some "first") true),
        .call (.addRead 5 1 (some "second") true)] : List (Event String)).foldlM Reactor.step
          (.init 3 1) = some s ∧
      (∀ ptr ∈ [Ptr.ctx 4 0 .read, .ctx 5 1 .read], s.Reports ptr) ∧
      s.dispatch (fun i => if i = 0 then [.remRead 5, .closeFd 5, .openFd 5,
          .addRead 5 1 (some "new") true] else [])
        [.ctx 4 0 .read, .ctx 5 1 .read] = some (t, visits) ∧
      visits.map (·.invoked) = [some "first", some "new"] ∧ ¬∀ v ∈ visits, Fresh s v := by
  refine ⟨_, _, _, rfl, ?_, rfl, rfl, ?_⟩
  · simp only [List.forall_mem_cons]
    exact ⟨⟨4, _, rfl, rfl⟩, ⟨5, _, rfl, rfl⟩, fun _ h => by cases h⟩
  · intro fresh
    obtain ⟨-, e, -, -, he, -, -, -, early⟩ :=
      fresh _ (.tail _ (.head _)) 5 1 .read rfl rfl
    have stamp : (e.ctx .read).storedBy = 3 := by
      rw [← Option.some.inj he]
      rfl
    rw [stamp] at early
    exact absurd early (by decide)

end Bfc.EpollReactor
