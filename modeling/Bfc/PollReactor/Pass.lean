import Bfc.PollReactor.Operations

/-!
# Passes of the poll reactor

One pass of `poll_reactor::run` as far as the tables go: the snapshot taken before `::poll`, the
dispatch loop over it, and the clean-up. A callback run by the loop may make any calls, so the
loop takes what each callback does as an argument: `calls i` is the list of calls the callback
invoked at snapshot position `i` makes. A run fixes such a list for each position, whatever the
callbacks base their calls on, so a statement for every `calls` is one for every behaviour.

`Reactor.step` is the finest view: a call by anyone on the reactor thread (a callback, a wake-up
callback, a timer, or the owner before `run`), the snapshot, the round of the loop that may disarm
a write, and the clean-up, in any order. Every state of every pass is a state of such a run.
-/

namespace Bfc.PollReactor

variable {κ : Type*}

namespace Reactor

/-- The copy of the poll vector that a pass dispatches from; the vector's `revents` are zeroed. -/
def snapshot (s : Reactor κ) : Reactor κ :=
  { s with
    dispatch := s.pollEntries
    pollEntries := s.pollEntries.map fun p => { p with pfd := { p.pfd with revents := 0 } } }

/-- One round of the dispatch loop, up to the call: the state the callback runs in, and the
callback if one runs. The wake entry's callback drains the pipe and touches no table. -/
def dispatchItem (s : Reactor κ) (item : PollEntry) (revents : BitVec 16) :
    Reactor κ × Option κ :=
  if revents = 0 then (s, none)
  else match item.kind with
    | .wake => (s, none)
    | .read =>
      match s.fdEntries item.ownerFd with
      | none => (s, none)
      | some entry =>
        if entry.readActive ∧ entry.readGen = item.gen then (s, entry.readCtx.cb) else (s, none)
    | .write =>
      match s.fdEntries item.ownerFd with
      | none => (s, none)
      | some entry =>
        if entry.writeActive ∧ entry.writeGen = item.gen ∧ entry.writeCtx.cb.isSome then
          -- one-shot: the callback must re-arm through req_write
          (s.setPollEvents entry.writePollIndex 0, entry.writeCtx.cb)
        else (s, none)

end Reactor

/-- One round of the dispatch loop, on record: the position and what the snapshot and `::poll`
have there, the state when the round begins, the callback invoked and the calls it made. -/
structure Visit (κ : Type*) where
  pos : Nat
  item : PollEntry
  revents : BitVec 16
  before : Reactor κ
  invoked : Option κ
  calls : List (Op κ)

/-- The dispatch loop from position `i` on. -/
def Reactor.dispatchLoop (calls : Nat → List (Op κ)) :
    Nat → List (PollEntry × BitVec 16) → Reactor κ → Reactor κ × List (Visit κ)
  | _, [], s => (s, [])
  | i, (item, revents) :: rest, s =>
    let round := s.dispatchItem item revents
    let made := if round.2.isSome then calls i else []
    let done := dispatchLoop calls (i + 1) rest (round.1.calls made)
    (done.1, { pos := i, item := item, revents := revents, before := s, invoked := round.2
               calls := made } :: done.2)

/-- The dispatch of a pass whose `::poll` answered `revents`: the loop runs if `nfds`, the number
of non-zero ones, is positive. -/
def Reactor.dispatchReady (s : Reactor κ) (calls : Nat → List (Op κ))
    (revents : List (BitVec 16)) : Reactor κ × List (Visit κ) :=
  let s := s.snapshot
  if 0 < (revents.filter (· ≠ 0)).length then
    Reactor.dispatchLoop calls 0 (s.dispatch.zip revents) s
  else (s, [])

/-- What `::poll` may answer for the snapshot's descriptors: one `revents` for each, and zero for
a negative descriptor, which it ignores. -/
structure PollAnswers (fds : List Pollfd) (revents : List (BitVec 16)) : Prop where
  length : revents.length = fds.length
  ignored : ∀ (i : Nat) (p : Pollfd) (r : BitVec 16),
    fds[i]? = some p → revents[i]? = some r → p.fd < 0 → r = 0

/-! ## Runs -/

/-- A step of the reactor thread on the tables. -/
inductive Event (κ : Type*) where
  | call (op : Op κ)
  | poll
  | visit (pos : Nat) (revents : BitVec 16)
  | cleanup

/-- The state after a step. -/
def Reactor.step (s : Reactor κ) : Event κ → Reactor κ
  | .call op => (s.call op).1
  | .poll => s.snapshot
  | .visit pos revents =>
    match s.dispatch[pos]? with
    | none => s
    | some item => (s.dispatchItem item revents).1
  | .cleanup => s.cleanup

/-- The state after a sequence of steps from a new reactor. -/
def Reactor.run (wakeFd : Int) (pollIn : BitVec 16) (events : List (Event κ)) : Reactor κ :=
  events.foldl Reactor.step (Reactor.init wakeFd pollIn)

/-! ## Every step keeps the tables in agreement -/

variable {wake : PollEntry} {s : Reactor κ}

theorem init_consistent (wakeFd : Int) (pollIn : BitVec 16) :
    Consistent (wakeEntry wakeFd pollIn) (Reactor.init wakeFd pollIn : Reactor κ) where
  wakeKey := rfl
  wakeQuiet := rfl
  wakeFirst := rfl
  linked := {
    ref := by
      rintro ⟨fd, k⟩ i hi
      cases k with
      | wake =>
        rw [indexTable_wake] at hi
        split at hi
        · rename_i hfd
          subst hfd
          exact Option.some.inj hi ▸ ⟨_, rfl, rfl⟩
        · cases hi
      | read => cases hi
      | write => cases hi
    back := by
      rintro (_ | i) a ha
      · exact Option.some.inj ha ▸ rfl
      · cases ha }
  backed p _ _ e he := by cases he
  gens := List.nodup_singleton _
  gen_le p hp := by
    rw [List.mem_singleton.mp hp]
    exact Nat.le_refl _
  entries fd e he := by cases he
  unguarded := rfl

/-- Zeroing every `revents` keeps the tables. -/
theorem snapshot_consistent (h : Consistent wake s) : Consistent wake s.snapshot where
  wakeKey := h.wakeKey
  wakeQuiet := h.wakeQuiet
  wakeFirst := by
    have quiet : ({ wake with pfd := { wake.pfd with revents := 0 } } : PollEntry) = wake := by
      rw [← h.wakeQuiet]
    simp only [Reactor.snapshot, List.getElem?_map, h.wakeFirst, Option.map_some, quiet]
  linked := {
    ref := fun {key i} hi => by
      obtain ⟨p, hp, hkey⟩ := h.linked.ref (k := key) (i := i) (by
        obtain ⟨fd, k⟩ := key
        cases k <;> exact hi)
      exact ⟨{ p with pfd := { p.pfd with revents := 0 } }, by
        simp only [Reactor.snapshot, List.getElem?_map, hp, Option.map_some], hkey⟩
    back := fun {i q} hq => by
      simp only [Reactor.snapshot, List.getElem?_map, Option.map_eq_some_iff] at hq
      obtain ⟨p, hp, rfl⟩ := hq
      have := h.linked.back hp
      rw [PollEntry.key] at this
      show s.snapshot.indexTable (p.ownerFd, p.kind) = some i
      revert this
      cases p.kind <;> exact id }
  backed q hq hk e he := by
    obtain ⟨p, hp, rfl⟩ := List.mem_map.mp hq
    exact h.backed p hp hk e he
  gens := by
    simpa only [Reactor.snapshot, List.map_map, Function.comp_def] using h.gens
  gen_le q hq := by
    obtain ⟨p, hp, rfl⟩ := List.mem_map.mp hq
    exact h.gen_le p hp
  entries := h.entries
  unguarded := h.unguarded

/-- A round of the dispatch loop disarms at most its own write registration. -/
theorem dispatchItem_kept (h : Consistent wake s) (item : PollEntry) (revents : BitVec 16) :
    Kept wake item.ownerFd s (s.dispatchItem item revents).1 := by
  have same : Kept wake item.ownerFd s s := ⟨h, Frame.refl _ _⟩
  unfold Reactor.dispatchItem
  split
  · exact same
  · split
    · exact same
    · split
      · exact same
      · split <;> exact same
    · split
      · exact same
      · rename_i e he
        split
        · rename_i hc
          obtain ⟨i, hi⟩ := Option.isSome_iff_exists.mp
            (((h.entries _ e he).active_iff .write).symm.trans hc.1)
          have hidx : e.writePollIndex = some i := hi
          rw [hidx]
          exact setPollEvents_kept h (k := .write) he hi 0
        · exact same

theorem step_consistent (h : Consistent wake s) (event : Event κ) :
    Consistent wake (s.step event) := by
  cases event with
  | call op => exact (call_kept h op).consistent
  | poll => exact snapshot_consistent h
  | visit pos revents =>
    simp only [Reactor.step]
    split
    · exact h
    · exact (dispatchItem_kept h _ revents).consistent
  | cleanup => exact cleanup_consistent h

/-- Every reachable state is consistent. -/
theorem run_consistent (wakeFd : Int) (pollIn : BitVec 16) (events : List (Event κ)) :
    Consistent (wakeEntry wakeFd pollIn) (Reactor.run wakeFd pollIn events) := by
  have steps : ∀ (events : List (Event κ)) (s : Reactor κ),
      Consistent (wakeEntry wakeFd pollIn) s →
      Consistent (wakeEntry wakeFd pollIn) (events.foldl Reactor.step s) := by
    intro events
    induction events with
    | nil => exact fun _ h => h
    | cons event events ih => exact fun s h => ih _ (step_consistent h event)
  exact steps events _ (init_consistent wakeFd pollIn)

/-! ## The generation counter -/

@[simp] theorem setPollEntry_gen (s : Reactor κ) (index : Option Nat) (fd : Int)
    (events : BitVec 16) : (s.setPollEntry index fd events).gen = s.gen := by
  unfold Reactor.setPollEntry
  split <;> rfl

@[simp] theorem setPollEvents_gen (s : Reactor κ) (index : Option Nat) (events : BitVec 16) :
    (s.setPollEvents index events).gen = s.gen := by
  unfold Reactor.setPollEvents
  split <;> rfl

@[simp] theorem updatePollIndex_gen (s : Reactor κ) (fd : Int) (kind : PollKind) (i : Nat) :
    (s.updatePollIndex fd kind i).gen = s.gen := by
  unfold Reactor.updatePollIndex
  split
  · rfl
  · split <;> rfl

@[simp] theorem removePollEntryByIndex_gen (s : Reactor κ) (index : Option Nat) :
    (s.removePollEntryByIndex index).gen = s.gen := by
  unfold Reactor.removePollEntryByIndex
  split
  · rfl
  · split
    · rfl
    · dsimp only
      split
      · rw [updatePollIndex_gen]
      · rfl

@[simp] theorem retireCb_gen (s : Reactor κ) (cb : Option κ) : (s.retireCb cb).gen = s.gen := by
  rw [retireCb_eq]

@[simp] theorem notePending_gen (s : Reactor κ) (fd : Int) : (s.notePending fd).gen = s.gen := by
  unfold Reactor.notePending
  split
  · rfl
  · split <;> rfl

theorem cleanup_gen (s : Reactor κ) : s.cleanup.gen = s.gen := by
  apply cleanup_loop (P := fun t => t.gen = s.gen)
  · intro t fd same
    rw [← same]
    unfold Reactor.cleanupFd
    split
    · rfl
    · split <;> rfl
  · rfl

/-- A call takes one generation at most. -/
theorem call_gen (s : Reactor κ) (op : Op κ) :
    s.gen ≤ (s.call op).1.gen ∧ (s.call op).1.gen ≤ s.gen + 1 := by
  cases op with
  | addRead fd events cb =>
    simp only [Reactor.call, Reactor.addRead]
    split
    · exact ⟨Nat.le_succ _, Nat.le_refl _⟩
    · rw [setPollEntry_gen]
      exact ⟨Nat.le_refl _, Nat.le_succ _⟩
  | remRead fd =>
    simp only [Reactor.call, Reactor.remRead]
    split
    · exact ⟨Nat.le_refl _, Nat.le_succ _⟩
    · rw [notePending_gen]
      split
      · simp [Reactor.modifyEntry]
      · exact ⟨Nat.le_refl _, Nat.le_succ _⟩
  | addWrite fd cb dupFd =>
    simp only [Reactor.call, Reactor.addWrite]
    generalize (if (Reactor.named fd (s.entryOf fd)).writeCtx.fd = -1 then dupFd
      else (Reactor.named fd (s.entryOf fd)).writeCtx.fd) = ctxFd
    split
    · exact ⟨Nat.le_refl _, Nat.le_succ _⟩
    · split
      · exact ⟨Nat.le_succ _, Nat.le_refl _⟩
      · rw [setPollEntry_gen]
        exact ⟨Nat.le_refl _, Nat.le_succ _⟩
  | remWrite fd =>
    simp only [Reactor.call, Reactor.remWrite]
    split
    · exact ⟨Nat.le_refl _, Nat.le_succ _⟩
    · rw [notePending_gen]
      split
      · simp [Reactor.modifyEntry]
      · exact ⟨Nat.le_refl _, Nat.le_succ _⟩
  | reqWrite fd events =>
    simp only [Reactor.call, Reactor.reqWrite]
    split
    · exact ⟨Nat.le_refl _, Nat.le_succ _⟩
    · split
      · exact ⟨Nat.le_refl _, Nat.le_succ _⟩
      · rw [setPollEvents_gen]
        exact ⟨Nat.le_refl _, Nat.le_succ _⟩

@[simp] theorem dispatchItem_gen (s : Reactor κ) (item : PollEntry) (revents : BitVec 16) :
    (s.dispatchItem item revents).1.gen = s.gen := by
  unfold Reactor.dispatchItem
  split
  · rfl
  · split
    · rfl
    · split
      · rfl
      · split <;> rfl
    · split
      · rfl
      · split
        · exact setPollEvents_gen ..
        · rfl

/-- The generation counter is at most the number of steps, so on `uint64_t` it does not wrap in a
run of fewer than 2^64 steps. -/
theorem run_gen_le (wakeFd : Int) (pollIn : BitVec 16) (events : List (Event κ)) :
    (Reactor.run wakeFd pollIn events).gen ≤ events.length := by
  have steps : ∀ (events : List (Event κ)) (s : Reactor κ),
      (events.foldl Reactor.step s).gen ≤ s.gen + events.length := by
    intro events
    induction events with
    | nil => exact fun _ => Nat.le_refl _
    | cons event events ih =>
      intro s
      have one : (s.step event).gen ≤ s.gen + 1 := by
        cases event with
        | call op => exact (call_gen s op).2
        | poll => exact Nat.le_succ _
        | visit pos revents =>
          simp only [Reactor.step]
          split
          · exact Nat.le_succ _
          · rw [dispatchItem_gen]
            exact Nat.le_succ _
        | cleanup =>
          rw [show s.step (.cleanup : Event κ) = s.cleanup from rfl, cleanup_gen]
          exact Nat.le_succ _
      have rest := ih (s.step event)
      rw [List.foldl_cons, List.length_cons]
      omega
  have := steps events (Reactor.init wakeFd pollIn)
  rwa [show (Reactor.init wakeFd pollIn : Reactor κ).gen = 0 from rfl, Nat.zero_add] at this

/-! ## The agreement, in the words of the tables -/

/-- The registration table and the poll vector belong together: the wake entry comes first, a
registration is active exactly while its poll index is in range and then finds its own poll entry
there, every other poll entry is the one of exactly one active registration, no two generations
are the same, and the write side holds a duplicate exactly while it is active. -/
structure Agreement (wakeFd : Int) (pollIn : BitVec 16) (s : Reactor κ) : Prop where
  wakeFirst : s.pollEntries[0]? = some (wakeEntry wakeFd pollIn)
  readIff : ∀ fd e, s.fdEntries fd = some e →
    (e.readActive = true ↔ ∃ i, e.readPollIndex = some i ∧ i < s.pollEntries.length)
  readAt : ∀ fd e i, s.fdEntries fd = some e → e.readPollIndex = some i →
    ∃ p, s.pollEntries[i]? = some p ∧ p.ownerFd = fd ∧ p.kind = .read ∧ p.pfd.fd = fd ∧
      p.gen = e.readGen
  writeIff : ∀ fd e, s.fdEntries fd = some e →
    (e.writeActive = true ↔ ∃ i, e.writePollIndex = some i ∧ i < s.pollEntries.length)
  writeAt : ∀ fd e i, s.fdEntries fd = some e → e.writePollIndex = some i →
    ∃ p, s.pollEntries[i]? = some p ∧ p.ownerFd = fd ∧ p.kind = .write ∧
      p.pfd.fd = e.writeCtx.fd ∧ p.gen = e.writeGen
  referenced : ∀ (i : Nat) (p : PollEntry), s.pollEntries[i]? = some p → p.kind ≠ .wake →
    ∃! key : Key, ∃ e, s.fdEntries key.1 = some e ∧ e.activeOf key.2 = true ∧
      e.indexOf key.2 = some i
  gens : (s.pollEntries.map (·.gen)).Nodup
  dup : ∀ fd e, s.fdEntries fd = some e → (e.writeCtx.fd ≠ -1 ↔ e.writeActive = true)

/-- A registration finds its own poll entry at its index. -/
theorem Consistent.at_own (h : Consistent wake s) {fd : Int} {e : FdEntry κ} {k : PollKind}
    {i : Nat} (he : s.fdEntries fd = some e) (hi : e.indexOf k = some i) :
    ∃ p, s.pollEntries[i]? = some p ∧ p.ownerFd = fd ∧ p.kind = k ∧
      p.pfd.fd = (e.ctxOf k).fd ∧ p.gen = e.genOf k := by
  obtain ⟨hk, -, p, hp, hkey, -⟩ := h.at_index he hi
  have owner : p.ownerFd = fd := congrArg Prod.fst hkey
  have kind : p.kind = k := congrArg Prod.snd hkey
  obtain ⟨hfd, hgen⟩ := h.backed p (List.mem_of_getElem? hp) (kind ▸ hk) e (owner ▸ he)
  rw [kind] at hfd hgen
  exact ⟨p, hp, owner, kind, hfd, hgen⟩

/-- A registration is active exactly while its poll index is in range. -/
theorem Consistent.active_iff_lt (h : Consistent wake s) {fd : Int} {e : FdEntry κ}
    (k : PollKind) (he : s.fdEntries fd = some e) :
    e.activeOf k = true ↔ ∃ i, e.indexOf k = some i ∧ i < s.pollEntries.length := by
  rw [(h.entries fd e he).active_iff k, Option.isSome_iff_exists]
  constructor
  · rintro ⟨i, hi⟩
    obtain ⟨p, hp, -⟩ := h.at_own he hi
    exact ⟨i, hi, (List.getElem?_eq_some_iff.mp hp).1⟩
  · rintro ⟨i, hi, -⟩
    exact ⟨i, hi⟩

theorem Consistent.agreement {wakeFd : Int} {pollIn : BitVec 16}
    (h : Consistent (wakeEntry wakeFd pollIn) s) : Agreement wakeFd pollIn s where
  wakeFirst := h.wakeFirst
  readIff _ _ he := h.active_iff_lt .read he
  readAt fd e i he hi := by
    obtain ⟨p, hp, owner, kind, hfd, hgen⟩ := h.at_own (k := .read) he hi
    have active : e.readActive = true :=
      ((h.entries fd e he).active_iff .read).trans (congrArg Option.isSome hi)
    exact ⟨p, hp, owner, kind, hfd.trans ((h.entries fd e he).readFd active), hgen⟩
  writeIff _ _ he := h.active_iff_lt .write he
  writeAt _ _ _ he hi := h.at_own (k := .write) he hi
  referenced i p hp hk := by
    obtain ⟨e, j, he, hj, hpj, active, -⟩ := h.owner (List.mem_of_getElem? hp) hk
    obtain rfl : j = i := h.linked.key_inj hpj hp rfl
    refine ⟨p.key, ⟨e, he, active, hj⟩, ?_⟩
    rintro ⟨fd, k⟩ ⟨e', he', -, hi'⟩
    obtain ⟨-, -, q, hq, hkey, -⟩ := h.at_index he' hi'
    rw [hp] at hq
    rw [← hkey, Option.some.inj hq]
  gens := h.gens
  dup fd e he := (h.entries fd e he).writeFd

/-- **The registration table and the poll vector stay consistent.** In every state of every run,
whatever is called and in whatever order, and with one-shot disarming and clean-ups anywhere in
between: the tables agree, no helper has ever taken its out-of-range guard, what a call or a
disarming does stays with the registrations of its own descriptor, and a clean-up leaves every
entry that has an active registration. -/
theorem tables_agree (wakeFd : Int) (pollIn : BitVec 16) (events : List (Event κ)) :
    let s : Reactor κ := Reactor.run wakeFd pollIn events
    Agreement wakeFd pollIn s ∧ s.guardHits = 0 ∧
      (∀ op, Frame op.fd s (s.call op).1) ∧
      (∀ item revents, Frame item.ownerFd s (s.dispatchItem item revents).1) ∧
      ∀ fd e, s.fdEntries fd = some e → e.readActive = true ∨ e.writeActive = true →
        s.cleanup.fdEntries fd = some e := by
  intro s
  have h : Consistent (wakeEntry wakeFd pollIn) s := run_consistent wakeFd pollIn events
  exact ⟨h.agreement, h.unguarded, fun op => (call_kept h op).frame,
    fun item revents => (dispatchItem_kept h item revents).frame,
    fun _ _ he active => cleanup_active s he active⟩

end Bfc.PollReactor
