import Bfc.PollReactor.Storage

/-!
# The running callback

A callback runs in the storage of its context, and the calls it makes may be about its own
registration. `retire_cb` means to keep a removed callback to the end of the pass, but what it keeps
is another callable, moved from the one that runs, and the one that runs is destroyed; an addition
moves the new callback over it.

So the callable that runs stays where it is exactly if none of the calls is a removal or an addition
of its own registration: `running_callback_iff`. Calls for other descriptors, and for the other
direction of its own, leave it alone, wherever they move poll entries and table entries to.
-/

namespace Bfc.PollReactor

open Lts Bfc.Function

section Calls

variable {κ : Type*}

/-- The call is a removal or an addition of the registration. -/
def Op.Concerns : Op κ → Key → Prop
  | .addRead fd _ _, key | .remRead fd, key => key = (fd, .read)
  | .addWrite fd _ _, key | .remWrite fd, key => key = (fd, .write)
  | .reqWrite .., _ => False

instance (op : Op κ) (key : Key) : Decidable (op.Concerns key) :=
  match op with
  | .addRead fd _ _ | .remRead fd => inferInstanceAs (Decidable (key = (fd, .read)))
  | .addWrite fd _ _ | .remWrite fd => inferInstanceAs (Decidable (key = (fd, .write)))
  | .reqWrite .. => .isFalse id

theorem Op.Removes.concerns {op : Op κ} {key : Key} (h : op.Removes key) : op.Concerns key := by
  cases op with
  | remRead fd => exact h
  | remWrite fd => exact h
  | addRead fd events cb => cases h
  | addWrite fd cb dupFd => cases h
  | reqWrite fd events => cases h

/-- The steps of a visit: the round, and the calls of its callback. -/
def Visit.events (v : Visit κ) : List (Event κ) :=
  .visit v.pos v.revents :: v.calls.map .call

/-- The steps of a pass up to the callback of a visit. -/
def Visit.history (v : Visit κ) (visits : List (Visit κ)) : List (Event κ) :=
  .poll :: ((visits.take v.pos).flatMap Visit.events ++ [.visit v.pos v.revents])

variable {s : Reactor κ}

theorem calls_dispatch (s : Reactor κ) (ops : List (Op κ)) :
    (s.calls ops).dispatch = s.dispatch := by
  induction ops generalizing s with
  | nil => rfl
  | cons op ops ih => exact (ih _).trans (call_dispatch s op)

/-- The steps of a visit lead to the state after it. -/
theorem visit_events (s : Reactor κ) (v : Visit κ) (there : s.dispatch[v.pos]? = some v.item) :
    v.events.foldl Reactor.step s = (s.dispatchItem v.item v.revents).1.calls v.calls := by
  rw [Visit.events, List.foldl_cons, List.foldl_map, Reactor.step, there]
  rfl

/-- The state in which a round begins, by the rounds before it. -/
theorem loop_history {calls : Nat → List (Op κ)} {items : List (PollEntry × BitVec 16)} {i : Nat}
    {v : Visit κ} (there : ∀ j item revents, items[j]? = some (item, revents) →
      s.dispatch[i + j]? = some item)
    (hv : v ∈ (Reactor.dispatchLoop calls i items s).2) :
    v.before = (((Reactor.dispatchLoop calls i items s).2.take (v.pos - i)).flatMap
        Visit.events).foldl Reactor.step s ∧
      v.before.dispatch = s.dispatch := by
  induction items generalizing i s with
  | nil => cases hv
  | cons item rest ih =>
    obtain ⟨j, hj, -⟩ := loop_item hv
    rcases mem_dispatchLoop.mp hv with rfl | hv'
    · simp
    · obtain ⟨j', hj', -⟩ := loop_item hv'
      have first := there 0 item.1 item.2 rfl
      obtain ⟨u, hu⟩ : ∃ u : Visit κ, ({
          pos := i, item := item.1, revents := item.2, before := s
          invoked := (s.dispatchItem item.1 item.2).2
          calls := if (s.dispatchItem item.1 item.2).2.isSome then calls i else [] } : Visit κ) =
            u :=
        ⟨_, rfl⟩
      have loop : (Reactor.dispatchLoop calls i (item :: rest) s).2 =
          u :: (Reactor.dispatchLoop calls (i + 1) rest u.after).2 := by
        rw [← hu]
        rfl
      have after : u.events.foldl Reactor.step s = u.after := by
        rw [visit_events s u (by rw [← hu]; exact first), ← hu]
        rfl
      have kept : u.after.dispatch = s.dispatch := by
        rw [Visit.after, calls_dispatch, (dispatchItem_leaves ..).dispatch, ← hu]
      have later : v ∈ (Reactor.dispatchLoop calls (i + 1) rest u.after).2 := by
        rw [← hu]
        exact hv'
      obtain ⟨before, same⟩ := ih (s := u.after) (i := i + 1) (fun j item revents hitem => by
        rw [kept, Nat.add_assoc, Nat.add_comm 1 j]
        exact there (j + 1) item revents hitem) later
      refine ⟨?_, same.trans kept⟩
      rw [loop, show v.pos - i = v.pos - (i + 1) + 1 by omega, List.take_succ_cons,
        List.flatMap_cons, List.foldl_append, after]
      exact before

/-- The state in which a visit of a pass begins, and in which its callback runs. -/
theorem dispatch_history {calls : Nat → List (Op κ)} {revents : List (BitVec 16)} {v : Visit κ}
    (hv : v ∈ (s.dispatchReady calls revents).2) :
    (v.history (s.dispatchReady calls revents).2).foldl Reactor.step s =
      (v.before.dispatchItem v.item v.revents).1 := by
  unfold Reactor.dispatchReady at hv ⊢
  dsimp only at hv ⊢
  split at hv
  · rename_i ready
    rw [if_pos ready]
    have there : ∀ j item r, (s.snapshot.dispatch.zip revents)[j]? = some (item, r) →
        s.snapshot.dispatch[0 + j]? = some item := by
      intro j item r hitem
      rw [Nat.zero_add]
      exact (List.getElem?_zip_eq_some.mp hitem).1
    obtain ⟨before, same⟩ := loop_history there hv
    obtain ⟨j, hj, hitem⟩ := loop_item hv
    have own : v.before.dispatch[v.pos]? = some v.item := by
      rw [same, hj]
      exact there j _ _ hitem
    rw [Nat.sub_zero] at before
    rw [Visit.history, List.foldl_cons, List.foldl_append, List.foldl_cons, List.foldl_nil,
      show s.step .poll = s.snapshot from rfl, ← before, Reactor.step, own]
  · cases hv

end Calls

/-! ## What the calls disturb -/

section Storage

variable {ω : Type} {N : Nat} {s : Reactor (Callback ω N)} {wake : PollEntry}

/-- What a list of calls does to function objects. -/
def Reactor.callStorage (s : Reactor (Callback ω N)) (ops : List (Op (Callback ω N))) :
    List (Effect ω N) :=
  programs (fun t op => some (Reactor.call t op).1) Reactor.callEffects s ops

theorem calls_foldlM (s : Reactor (Callback ω N)) (ops : List (Op (Callback ω N))) :
    ops.foldlM (fun t op => some (Reactor.call t op).1) s = some (s.calls ops) :=
  List.foldlM_pure

/-- The programs of calls can run where the storage is as the tables say. -/
theorem callStorage_run (s : Reactor (Callback ω N)) (ops : List (Op (Callback ω N)))
    {l : Lifetimes Place} (shape : l.shape = s.filled) :
    ∃ l', (s.callStorage ops).foldlM Lifetimes.step l = some l' := by
  have shapes := programs_run (g := Shape.step) (e := Reactor.filled) (p := Reactor.callEffects)
    (fun {s op t} step => by
      obtain rfl := Option.some.inj step
      exact call_run s op) (calls_foldlM s ops)
  rw [← shape, ← Lifetimes.run_shape] at shapes
  obtain ⟨l', run, -⟩ := Option.map_eq_some_iff.mp shapes
  exact ⟨l', run⟩

/-- The context of a registration is registered. -/
theorem Consistent.registered_ctx (h : Consistent wake s) {fd : Int} {k : PollKind} {gen : Nat}
    (there : s.registration (fd, k) = some gen) (hkey : (fd, k) ≠ (-1, .read)) :
    ∃ e, s.fdEntries fd = some e ∧ e.activeOf k = true ∧ (e.ctxOf k).fd ≠ -1 := by
  obtain ⟨e, he, registered⟩ := Option.bind_eq_some_iff.mp there
  obtain ⟨active, -⟩ := FdEntry.registered_eq_some.mp registered
  refine ⟨e, he, active, ?_⟩
  have ok := h.entries fd e he
  cases k with
  | wake => cases active
  | read =>
    intro invalid
    apply hkey
    rw [← ok.readFd active]
    exact congrArg (·, PollKind.read) invalid
  | write => exact ok.writeFd.mpr active

/-- A registration's generation was given. -/
theorem Consistent.registration_gen_le (h : Consistent wake s) {key : Key} {gen : Nat}
    (there : s.registration key = some gen) : gen ≤ s.gen := by
  obtain ⟨e, he, registered⟩ := Option.bind_eq_some_iff.mp there
  obtain ⟨active, rfl⟩ := FdEntry.registered_eq_some.mp registered
  rw [(h.entries key.1 e he).active_iff] at active
  obtain ⟨i, hi⟩ := Option.isSome_iff_exists.mp active
  obtain ⟨p, hp, -, -, -, hgen⟩ := h.at_own he hi
  rw [← hgen]
  exact h.gen_le p (List.mem_of_getElem? hp)

/-- A removal disturbs the context of its own registration, and no other. -/
theorem removal_undisturbed {fd : Int} {k : PollKind} {e : FdEntry (Callback ω N)}
    (he : s.fdEntries fd = some e) (registered : e.activeOf k = true ∧ (e.ctxOf k).fd ≠ -1)
    (x : Int) (k' : PollKind) :
    (∀ m ∈ s.removal x k', ¬m.Disturbs (.ctx (fd, k))) ↔ (fd, k) ≠ (x, k') := by
  by_cases own : (fd, k) = (x, k')
  · obtain ⟨rfl, rfl⟩ := Prod.mk.inj own
    rw [Reactor.removal, he]
    dsimp only
    rw [if_pos registered, retire_undisturbed (by simp)]
    exact not_congr (by simp)
  · refine iff_of_true ?_ own
    unfold Reactor.removal
    cases s.fdEntries x with
    | none => simp
    | some e' =>
      dsimp only
      split
      · rw [retire_undisturbed (by simp)]
        exact fun same => own (Place.ctx.inj same).symm
      · simp

/-- An addition looks up an entry that is there if it is the one of a registration. -/
theorem addition_apart {fd : Int} {k : PollKind} {e : FdEntry (Callback ω N)}
    (he : s.fdEntries fd = some e) (x : Int) : (s.fdEntries x).isSome = true ∨
      Place.ctx (fd, k) ≠ .ctx (x, .read) ∧ Place.ctx (fd, k) ≠ .ctx (x, .write) := by
  by_cases same : fd = x
  · rw [← same, he]
    exact .inl rfl
  · exact .inr ⟨by simp [same], by simp [same]⟩

/-- **What a call disturbs.** A call disturbs the context of a registration exactly if it is a
removal or an addition of that registration. -/
theorem call_undisturbed (h : Consistent wake s) {key : Key} {gen : Nat}
    (there : s.registration key = some gen) (hkey : key ≠ (-1, .read)) (op : Op (Callback ω N)) :
    (∀ m ∈ s.callEffects op, ¬m.Disturbs (.ctx key)) ↔ ¬op.Concerns key := by
  obtain ⟨fd, k⟩ := key
  obtain ⟨e, he, registered⟩ := h.registered_ctx there hkey
  cases op with
  | addRead x events cb =>
    rw [Reactor.callEffects, addition_undisturbed (by simp) (addition_apart he x)]
    simp [Op.Concerns, eq_comm]
  | remRead x => exact removal_undisturbed he registered x .read
  | addWrite x cb dupFd =>
    rw [Reactor.callEffects, addition_undisturbed (by simp) (addition_apart he x)]
    apply not_congr
    constructor
    · intro stored
      exact Place.ctx.inj (writeSlot_eq stored)
    · intro own
      obtain ⟨rfl, rfl⟩ := Prod.mk.inj own
      have held : (s.entryOf fd).writeCtx.fd ≠ -1 := by
        rw [Reactor.entryOf, he]
        exact registered.2
      rw [Reactor.writeSlot, if_neg held, if_neg held]
  | remWrite x => exact removal_undisturbed he registered x .write
  | reqWrite x events => simp [Reactor.callEffects, Op.Concerns]

theorem calls_undisturbed (h : Consistent wake s) {key : Key} {gen : Nat}
    (there : s.registration key = some gen) (hgen : gen ≤ s.gen) (hkey : key ≠ (-1, .read))
    (ops : List (Op (Callback ω N))) :
    (∀ m ∈ s.callStorage ops, ¬m.Disturbs (.ctx key)) ↔ ∀ op ∈ ops, ¬op.Concerns key := by
  refine programs_avoid_iff (I := fun s => Consistent wake s ∧ s.registration key = some gen ∧
    gen ≤ s.gen) ?_ ?_ ⟨h, there, hgen⟩ (calls_foldlM s ops)
  · intro s op t inv _
    exact call_undisturbed inv.1 inv.2.1 hkey op
  · intro s op t inv step other
    obtain rfl := Option.some.inj step
    obtain ⟨h, there, hgen⟩ := inv
    refine ⟨(call_kept h op).consistent, ?_, Nat.le_trans hgen (call_gen s op).1⟩
    exact (call_registration h op hkey hgen).mpr ⟨there, fun removes => other removes.concerns⟩

/-! ## The callback that runs -/

/-- **When the running callback stays.** In every pass of every run, whatever `::poll` answers and
the callbacks do: a callback that is invoked is a callable in the storage of its context; and until
the invocation returns, the callable that is in the storage is still that one, exactly if none of
the calls made is a removal or an addition of the callback's own registration. -/
theorem running_callback_iff (wakeFd : Int) (pollIn : BitVec 16)
    (events : List (Event (Callback ω N))) (calls : Nat → List (Op (Callback ω N)))
    (revents : List (BitVec 16)) (answers : PollAnswers
      ((Reactor.run wakeFd pollIn events).snapshot.pollEntries.map (·.pfd)) revents) :
    let visits := ((Reactor.run wakeFd pollIn events).dispatchReady calls revents).2
    ∀ v ∈ visits, v.invoked.isSome →
      ∃ (l l' : Lifetimes Place) (n : Nat),
        ((Reactor.init wakeFd pollIn).storage (events ++ v.history visits)).foldlM Lifetimes.step
          {} = some l ∧
        l.living (.ctx v.item.key) = some (some n) ∧
        let made := (v.before.dispatchItem v.item v.revents).1.callStorage v.calls
        made.foldlM Lifetimes.step l = some l' ∧
        (l.Stays (.ctx v.item.key) n made ↔ ∀ op ∈ v.calls, ¬op.Concerns v.item.key) := by
  intro visits v hv invoked
  have h := run_consistent wakeFd pollIn events
  have isExact := h.exactDispatch calls answers
  obtain ⟨cb, invoked⟩ := Option.isSome_iff_exists.mp invoked
  obtain ⟨ready, there, e, he, stored⟩ := (isExact.invokes v hv cb).mp invoked
  have hk : v.item.kind ≠ .wake := by
    intro wake
    rw [wake] at stored
    cases stored
  obtain ⟨polled, answered⟩ := isExact.fromSnapshot v hv
  have hkey : v.item.key ≠ (-1, .read) := ready_key h answers polled answered ready
  obtain ⟨t, ht⟩ : ∃ t, (v.before.dispatchItem v.item v.revents).1 = t := ⟨_, rfl⟩
  have reached : Reactor.run wakeFd pollIn (events ++ v.history visits) = t := by
    rw [← ht, ← dispatch_history hv, Reactor.run, List.foldl_append]
    rfl
  obtain ⟨l, run, numbered, shape⟩ := storage_run wakeFd pollIn (events ++ v.history visits)
  rw [reached] at shape
  have registered : t.registration v.item.key = some v.item.gen := by
    rw [← ht, dispatchItem_registration]
    exact there
  have engaged : (l.living (.ctx v.item.key)).map Option.isSome = some true := by
    rw [show (l.living (.ctx v.item.key)).map Option.isSome = t.filled (.ctx v.item.key) from
      congrFun shape _, ← ht, (dispatchItem_leaves ..).filled, PollEntry.key, filled_ctx _ _ hk,
      Reactor.held, he, Option.map_some, stored]
    rfl
  obtain ⟨living, hliving, hn⟩ := Option.map_eq_some_iff.mp engaged
  obtain ⟨n, rfl⟩ := Option.isSome_iff_exists.mp hn
  rw [ht]
  obtain ⟨l', made⟩ := callStorage_run t v.calls shape
  refine ⟨l, l', n, run, hliving, made, ?_⟩
  have consistent := run_consistent wakeFd pollIn (events ++ v.history visits)
  rw [reached] at consistent
  rw [numbered.stays_iff hliving made]
  exact calls_undisturbed consistent registered (consistent.registration_gen_le registered) hkey
    v.calls

end Storage

/-- Two descriptors are ready. The first one's callback removes the second and adds it again, and
adds a write registration of its own descriptor; the callable that runs stays. -/
theorem running_callback_kept :
    let s : Reactor (Callback Unit 0) := Reactor.run 3 1
      [.call (.addRead 4 1 (some (stateless .argument))),
        .call (.addRead 5 1 (some (stateless .argument)))]
    let calls : Nat → List (Op (Callback Unit 0)) := fun i =>
      if i = 1 then [.remRead 5, .addRead 5 1 none, .addWrite 4 none 6] else []
    ∃ v ∈ (s.dispatchReady calls [0, 1, 0]).2, ∃ (l : Lifetimes Place) (n : Nat),
      l.living (.ctx (4, .read)) = some (some n) ∧
      l.Stays (.ctx (4, .read)) n
        ((v.before.dispatchItem v.item v.revents).1.callStorage v.calls) := by
  have runs := running_callback_iff 3 1
    [.call (.addRead 4 1 (some (stateless .argument))),
      .call (.addRead 5 1 (some (stateless .argument)))]
    (fun i => if i = 1 then [.remRead 5, .addRead 5 1 none, .addWrite 4 none 6] else [])
    [0, 1, 0] ⟨rfl, fun i p r hp hr negative => by
      match i, hp with
      | 0, hp => exact absurd negative (by cases hp; decide)
      | 1, hp => exact absurd negative (by cases hp; decide)
      | 2, hp => exact absurd negative (by cases hp; decide)⟩
  obtain ⟨l, l', n, -, living, -, stays⟩ := runs _ (.tail _ (.head _)) rfl
  exact ⟨_, .tail _ (.head _), l, n, living, stays.mpr (by decide)⟩

/-- **A callback that removes itself is destroyed while it runs.** Descriptor 4 is ready and its
callback removes it. When the call returns, the context is empty, and what is retired is another
callable than the one that runs. -/
theorem removed_while_running :
    let s : Reactor (Callback Unit 0) :=
      Reactor.run 3 1 [.call (.addRead 4 1 (some (stateless .argument)))]
    let visits := (s.dispatchReady (fun _ => [.remRead 4]) [0, 1]).2
    ∃ v ∈ visits, v.invoked.isSome ∧ v.calls = [.remRead 4] ∧
      ∃ (l l' : Lifetimes Place) (n m : Nat),
      ((Reactor.init 3 1).storage (.call (.addRead 4 1 (some (stateless .argument))) ::
        v.history visits)).foldlM Lifetimes.step {} = some l ∧
      l.living (.ctx (4, .read)) = some (some n) ∧
      ((v.before.dispatchItem v.item v.revents).1.callStorage v.calls).foldlM Lifetimes.step l =
        some l' ∧
      l'.living (.ctx (4, .read)) = some none ∧ l'.living (.retired 0) = some (some m) ∧ m ≠ n ∧
      ¬l.Stays (.ctx (4, .read)) n
        ((v.before.dispatchItem v.item v.revents).1.callStorage v.calls) := by
  refine ⟨_, .tail _ (.head _), rfl, rfl, _, _, 1, 2, rfl, rfl, rfl, rfl, rfl, by decide, ?_⟩
  intro stays
  exact absurd (stays.2 _ rfl).first (by decide)

end Bfc.PollReactor
