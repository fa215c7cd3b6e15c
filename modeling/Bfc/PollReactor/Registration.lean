import Bfc.PollReactor.Operations

/-!
# What the tables stand for

Read as a component, the reactor holds a set of registrations: a descriptor and a kind, each with
the generation it got when it was made. `Reactor.registration` is that set, and
`registration_call` says what every call does to it: a removal takes its registration out, an
addition that finds none makes one with the next generation, and nothing else changes. A poll
entry's place, the swap of a removal, and the deferred clean-up do not show at this level.

One descriptor is outside the rule. `rem_read` leaves a read registration of `-1` in place,
because `-1` is also how a context says that it is empty. `::poll` never reports that descriptor.
-/

namespace Bfc.PollReactor

variable {κ : Type*} {wake : PollEntry} {s : Reactor κ}

/-- The generation of a registration that is active. -/
def FdEntry.registered (e : FdEntry κ) (k : PollKind) : Option Nat :=
  if e.activeOf k = true then some (e.genOf k) else none

/-- The reactor's registrations, each with its generation. -/
def Reactor.registration (s : Reactor κ) (key : Key) : Option Nat :=
  (s.fdEntries key.1).bind fun e => e.registered key.2

/-- The call removes the registration, if there is one. -/
def Op.Removes : Op κ → Key → Prop
  | .remRead fd, key => key = (fd, .read)
  | .remWrite fd, key => key = (fd, .write)
  | _, _ => False

/-- The call makes the registration, if there is none. Adding a write needs a duplicate. -/
def Op.Adds : Op κ → Key → Prop
  | .addRead fd _ _, key => key = (fd, .read)
  | .addWrite fd _ dupFd, key => key = (fd, .write) ∧ dupFd ≠ -1
  | _, _ => False

instance (op : Op κ) (key : Key) : Decidable (op.Removes key) := by
  cases op <;> unfold Op.Removes <;> infer_instance

instance (op : Op κ) (key : Key) : Decidable (op.Adds key) := by
  cases op <;> unfold Op.Adds <;> infer_instance

theorem FdEntry.registered_clear (e : FdEntry κ) (k k' : PollKind) :
    (e.clear k).registered k' = if k' = k then none else e.registered k' := by
  unfold FdEntry.registered
  rw [FdEntry.clear_activeOf, FdEntry.clear_genOf]
  by_cases hk : k' = k
  · simp only [if_pos hk, Bool.false_eq_true, if_false]
  · simp only [if_neg hk]

@[simp] theorem FdEntry.registered_setIndex (e : FdEntry κ) (k k' : PollKind) (i : Nat) :
    (e.setIndex k i).registered k' = e.registered k' := by
  unfold FdEntry.registered
  rw [FdEntry.setIndex_activeOf, FdEntry.setIndex_genOf]

/-- An entry's registrations do not depend on its poll indices. -/
theorem FdEntry.registered_of_unplaced {e e' : FdEntry κ} (h : e.unplaced = e'.unplaced)
    (k : PollKind) : e.registered k = e'.registered k := by
  have active : e.activeOf k = e'.activeOf k := by
    have := congrArg (FdEntry.activeOf · k) h
    cases k <;> exact this
  have gen : e.genOf k = e'.genOf k := by
    have := congrArg (FdEntry.genOf · k) h
    cases k <;> exact this
  rw [FdEntry.registered, FdEntry.registered, active, gen]

/-! ## Reading the registrations off the state -/

theorem registration_of_entry {fd : Int} {e : FdEntry κ} (he : s.fdEntries fd = some e)
    (k : PollKind) : s.registration (fd, k) = e.registered k := by
  rw [Reactor.registration, he, Option.bind_some]

theorem registration_none {fd : Int} (he : s.fdEntries fd = none) (k : PollKind) :
    s.registration (fd, k) = none := by
  rw [Reactor.registration, he, Option.bind_none]

theorem registration_congr {s' : Reactor κ} {key : Key}
    (h : s'.fdEntries key.1 = s.fdEntries key.1) : s'.registration key = s.registration key := by
  rw [Reactor.registration, Reactor.registration, h]

/-- `m_fd_entries[fd]` and the entry it finds or makes have the same registrations. -/
theorem registration_entryOf (s : Reactor κ) (fd : Int) (k : PollKind) :
    s.registration (fd, k) = (s.entryOf fd).registered k := by
  rw [Reactor.registration, Reactor.entryOf]
  cases s.fdEntries fd with
  | none => cases k <;> rfl
  | some e => rfl

theorem registration_putEntry (s : Reactor κ) (fd : Int) (e : FdEntry κ) (k : PollKind) :
    (s.putEntry fd e).registration (fd, k) = e.registered k :=
  registration_of_entry (Function.update_self ..) k

/-- A step on one descriptor keeps the registrations of the others. -/
theorem Frame.registration {fd : Int} {s' : Reactor κ} (h : Frame fd s s') {key : Key}
    (hne : key.1 ≠ fd) : s'.registration key = s.registration key := by
  have table := h.table key.1 hne
  unfold Reactor.registration
  cases he : s.fdEntries key.1 with
  | none =>
    rw [he, Option.map_none, Option.map_eq_none_iff] at table
    rw [table]
  | some e =>
    rw [he, Option.map_some, Option.map_eq_some_iff] at table
    obtain ⟨e', he', hu⟩ := table
    rw [he', Option.bind_some, Option.bind_some]
    exact FdEntry.registered_of_unplaced hu key.2

/-- A registration is there exactly if it has a poll index. -/
theorem Consistent.registered_iff (h : Consistent wake s) {fd : Int} {e : FdEntry κ}
    (he : s.fdEntries fd = some e) (k : PollKind) :
    (e.registered k).isSome = (e.indexOf k).isSome := by
  rw [← (h.entries fd e he).active_iff, FdEntry.registered]
  cases e.activeOf k <;> rfl

/-- Every poll entry but the wake entry is of a registration, with its generation. -/
theorem Consistent.registration_of_mem (h : Consistent wake s) {p : PollEntry}
    (hp : p ∈ s.pollEntries) (hk : p.kind ≠ .wake) : s.registration p.key = some p.gen := by
  obtain ⟨e, i, he, -, -, active, -, gen⟩ := h.owner hp hk
  rw [PollEntry.key, registration_of_entry he, FdEntry.registered, if_pos active, gen]

/-! ## What the helpers change -/

theorem setPollEntry_fdEntries (s : Reactor κ) (index : Option Nat) (fd : Int)
    (events : BitVec 16) : (s.setPollEntry index fd events).fdEntries = s.fdEntries := by
  unfold Reactor.setPollEntry
  split <;> rfl

theorem setPollEvents_fdEntries (s : Reactor κ) (index : Option Nat) (events : BitVec 16) :
    (s.setPollEvents index events).fdEntries = s.fdEntries := by
  unfold Reactor.setPollEvents
  split <;> rfl

theorem notePending_fdEntries (s : Reactor κ) (fd : Int) :
    (s.notePending fd).fdEntries = s.fdEntries := by
  unfold Reactor.notePending
  split
  · rfl
  · split <;> rfl

/-- A removal takes its own registration out. -/
theorem removal_registration (h : Consistent wake s) {fd : Int} {e : FdEntry κ} {k : PollKind}
    (he : s.fdEntries fd = some e) (active : e.activeOf k = true) (closed : List Int)
    (cb : Option κ) (k' : PollKind) :
    ((({ s.removePollEntryByIndex (e.indexOf k) with closed := closed } : Reactor κ).retireCb
      cb).modifyEntry fd fun e => e.clear k).registration (fd, k') =
      if k' = k then none else s.registration (fd, k') := by
  obtain ⟨i, hi⟩ : ∃ i, e.indexOf k = some i := by
    rw [(h.entries fd e he).active_iff] at active
    exact Option.isSome_iff_exists.mp active
  obtain ⟨m, -, heq⟩ := removePollEntryByIndex_eq h he hi
  rw [hi, heq, retireCb_eq, registration_of_entry he]
  simp only [Reactor.registration, Reactor.modifyEntry, Function.update_self, he, Option.map_some,
    Option.bind_some]
  rw [FdEntry.registered_clear]
  by_cases hm : fd = m.ownerFd
  · rw [if_pos hm, FdEntry.registered_setIndex]
  · rw [if_neg hm]

/-! ## What the calls change -/

theorem remRead_registration (h : Consistent wake s) {fd : Int} {k : PollKind}
    (hkey : (fd, k) ≠ (-1, .read)) :
    (s.remRead fd).1.registration (fd, k) =
      if k = .read then none else s.registration (fd, k) := by
  unfold Reactor.remRead
  split
  · rename_i he
    rw [registration_none he, ite_self]
  · rename_i e he
    rw [registration_congr (congrFun (notePending_fdEntries _ fd) fd)]
    by_cases hc : e.readActive ∧ e.readCtx.fd ≠ -1
    · rw [if_pos hc]
      exact removal_registration h (k := .read) he hc.1 _ e.readCtx.cb k
    · rw [if_neg hc]
      split
      · rename_i hk
        subst hk
        have idle : e.activeOf .read = false := by
          cases ha : e.readActive with
          | false => exact ha
          | true =>
            have hfd : e.readCtx.fd = fd := (h.entries fd e he).readFd ha
            exact absurd ⟨ha, fun hm => hkey (by rw [← hfd, hm])⟩ hc
        rw [registration_of_entry he, FdEntry.registered, idle]
        rfl
      · rfl

theorem remWrite_registration (h : Consistent wake s) (fd : Int) (k : PollKind) :
    (s.remWrite fd).1.registration (fd, k) =
      if k = .write then none else s.registration (fd, k) := by
  unfold Reactor.remWrite
  split
  · rename_i he
    rw [registration_none he, ite_self]
  · rename_i e he
    rw [registration_congr (congrFun (notePending_fdEntries _ fd) fd)]
    by_cases hc : e.writeActive ∧ e.writeCtx.fd ≠ -1
    · rw [if_pos hc]
      exact removal_registration h (k := .write) he hc.1 _ e.writeCtx.cb k
    · rw [if_neg hc]
      have idle : e.activeOf .write = false := by
        cases ha : e.writeActive with
        | false => exact ha
        | true => exact absurd ⟨ha, (h.entries fd e he).writeFd.mpr ha⟩ hc
      split
      · rename_i hk
        rw [hk, registration_of_entry he, FdEntry.registered, idle]
        rfl
      · rfl

theorem reqWrite_registration (s : Reactor κ) (fd : Int) (events : BitVec 32) (key : Key) :
    (s.reqWrite fd events).1.registration key = s.registration key := by
  unfold Reactor.reqWrite
  split
  · rfl
  · split
    · rfl
    · exact registration_congr (congrFun (setPollEvents_fdEntries ..) _)

/-- The entry an addition starts from: its kind has a poll index exactly if it is registered. -/
theorem Consistent.entryOf_registered (h : Consistent wake s) (fd : Int) (k : PollKind) :
    ((s.entryOf fd).registered k).isSome = ((s.entryOf fd).indexOf k).isSome := by
  unfold Reactor.entryOf
  cases he : s.fdEntries fd with
  | none => cases k <;> rfl
  | some e => exact h.registered_iff he k

/-- An addition's own entry: the kind it adds is registered anew only where it was not, and the
other kind stays. -/
theorem added_registration {fd : Int} {k : PollKind} {s' : Reactor κ} {e : FdEntry κ}
    (stored : s'.fdEntries fd = some e)
    (made : (s.entryOf fd).registered k = none → e.registered k = some (s.gen + 1))
    (kept : (s.entryOf fd).registered k ≠ none →
      e.registered k = (s.entryOf fd).registered k)
    (other : ∀ k', k' ≠ k → e.registered k' = (s.entryOf fd).registered k') (k' : PollKind) :
    s'.registration (fd, k') = if k' = k ∧ s.registration (fd, k') = none then some (s.gen + 1)
      else s.registration (fd, k') := by
  rw [registration_of_entry stored, registration_entryOf s]
  by_cases hk : k' = k
  · subst hk
    by_cases hn : (s.entryOf fd).registered k' = none
    · rw [if_pos ⟨rfl, hn⟩, made hn]
    · rw [if_neg (fun hc => hn hc.2), kept hn]
  · rw [if_neg (fun hc => hk hc.1), other k' hk]

theorem addRead_registration (h : Consistent wake s) (fd : Int) (events : BitVec 32)
    (cb : Option κ) (k : PollKind) :
    (s.addRead fd events cb).1.registration (fd, k) =
      if k = .read ∧ s.registration (fd, k) = none then some (s.gen + 1)
      else s.registration (fd, k) := by
  have placed := h.entryOf_registered fd .read
  cases hidx : (s.entryOf fd).readPollIndex with
  | none =>
    have gone : (s.entryOf fd).registered .read = none := by
      rw [show (s.entryOf fd).indexOf .read = none from hidx] at placed
      simpa using placed
    rw [addRead_fresh hidx]
    exact added_registration (k := .read) (Function.update_self ..) (fun _ => rfl)
      (fun there => absurd gone there)
      (fun k' hk => by cases k' <;> first | rfl | exact absurd rfl hk) k
  | some i =>
    have hsome : (Reactor.named fd (s.entryOf fd)).readPollIndex = some i := hidx
    have there : (s.entryOf fd).readActive = true := by
      rw [show (s.entryOf fd).indexOf .read = some i from hidx, FdEntry.registered] at placed
      cases ha : (s.entryOf fd).readActive with
      | true => rfl
      | false => simp [FdEntry.activeOf, ha] at placed
    have same : (s.entryOf fd).registered .read = some (s.entryOf fd).readGen := if_pos there
    simp only [Reactor.addRead, if_neg (hsome ▸ Option.some_ne_none i)]
    refine added_registration (s := s) (k := .read)
      ((congrFun (setPollEntry_fdEntries ..) _).trans (Function.update_self ..)) ?_ ?_ ?_ k
    · intro gone
      rw [gone] at same
      cases same
    · intro _
      exact same.symm
    · intro k' hk
      cases k' <;> first | rfl | exact absurd rfl hk

theorem addWrite_registration (h : Consistent wake s) (fd : Int) (cb : Option κ) (dupFd : Int)
    (k : PollKind) :
    (s.addWrite fd cb dupFd).1.registration (fd, k) =
      if (k = .write ∧ dupFd ≠ -1) ∧ s.registration (fd, k) = none then some (s.gen + 1)
      else s.registration (fd, k) := by
  have ok := named_ok h fd
  have placed := h.entryOf_registered fd .write
  obtain ⟨ctxFd, hctx⟩ : ∃ ctxFd, (if (s.entryOf fd).writeCtx.fd = -1 then dupFd
      else (s.entryOf fd).writeCtx.fd) = ctxFd := ⟨_, rfl⟩
  have hctx' : (if (Reactor.named fd (s.entryOf fd)).writeCtx.fd = -1 then dupFd
      else (Reactor.named fd (s.entryOf fd)).writeCtx.fd) = ctxFd := hctx
  by_cases closed : ctxFd = -1
  · -- `dup` was called and failed, so there was no registration and none is made
    have failed : dupFd = -1 := by
      split at hctx
      · exact hctx.trans closed
      · rename_i hne
        exact absurd (hctx.trans closed) hne
    simp only [Reactor.addWrite, hctx', if_pos closed]
    rw [if_neg (fun hc => hc.1.2 failed), registration_putEntry, registration_entryOf]
    cases k <;> rfl
  · cases hidx : (s.entryOf fd).writePollIndex with
    | none =>
      have gone : (s.entryOf fd).registered .write = none := by
        rw [show (s.entryOf fd).indexOf .write = none from hidx] at placed
        simpa using placed
      have idle : (s.entryOf fd).writeActive = false :=
        (ok.active_iff .write).trans (congrArg Option.isSome hidx)
      have duped : dupFd ≠ -1 := by
        have hnone : (s.entryOf fd).writeCtx.fd = -1 := by
          by_contra hne
          have := ok.writeFd.mp hne
          rw [show (Reactor.named fd (s.entryOf fd)).writeActive = _ from idle] at this
          cases this
        rw [if_pos hnone] at hctx
        exact hctx ▸ closed
      rw [addWrite_fresh hidx hctx closed]
      simp only [duped, ne_eq, not_false_eq_true, and_true]
      exact added_registration (k := .write) (Function.update_self ..) (fun _ => rfl)
        (fun there => absurd gone there)
        (fun k' hk => by cases k' <;> first | rfl | exact absurd rfl hk) k
    | some i =>
      have hsome : (Reactor.named fd (s.entryOf fd)).writePollIndex = some i := hidx
      have there : (s.entryOf fd).writeActive = true :=
        (ok.active_iff .write).trans (congrArg Option.isSome hsome)
      have same : (s.entryOf fd).registered .write = some (s.entryOf fd).writeGen := if_pos there
      have held : ¬(k = .write ∧ s.registration (fd, k) = none) := by
        rintro ⟨rfl, gone⟩
        rw [registration_entryOf, same] at gone
        cases gone
      simp only [Reactor.addWrite, hctx', if_neg closed, if_neg (hsome ▸ Option.some_ne_none i)]
      rw [if_neg (fun hc => held ⟨hc.1.1, hc.2⟩)]
      refine (added_registration (s := s) (k := .write)
        ((congrFun (setPollEntry_fdEntries ..) _).trans (Function.update_self ..)) ?_ ?_ ?_ k).trans
        (if_neg held)
      · intro gone
        rw [gone] at same
        cases same
      · intro _
        exact same.symm
      · intro k' hk
        cases k' <;> first | rfl | exact absurd rfl hk

/-- **What a call does to the registrations.** It takes out the one it removes, makes the one it
adds where there is none, with the next generation, and leaves every other as it is. -/
theorem registration_call (h : Consistent wake s) (op : Op κ) {key : Key}
    (hkey : key ≠ (-1, .read)) :
    (s.call op).1.registration key =
      if op.Removes key then none
      else if op.Adds key ∧ s.registration key = none then some (s.gen + 1)
      else s.registration key := by
  obtain ⟨fd', k⟩ := key
  by_cases hf : fd' = op.fd
  · subst hf
    cases op with
    | addRead fd events cb =>
      simp only [Op.Removes, Op.Adds, Op.fd, Prod.mk.injEq, true_and, if_false]
      exact addRead_registration h fd events cb k
    | remRead fd =>
      simp only [Op.Removes, Op.Adds, Op.fd, Prod.mk.injEq, true_and, false_and, if_false]
      exact remRead_registration h hkey
    | addWrite fd cb dupFd =>
      simp only [Op.Removes, Op.Adds, Op.fd, Prod.mk.injEq, true_and, if_false]
      exact addWrite_registration h fd cb dupFd k
    | remWrite fd =>
      simp only [Op.Removes, Op.Adds, Op.fd, Prod.mk.injEq, true_and, false_and, if_false]
      exact remWrite_registration h fd k
    | reqWrite fd events =>
      simp only [Op.Removes, Op.Adds, false_and, if_false]
      exact reqWrite_registration s fd events _
  · rw [(call_kept h op).frame.registration hf]
    have other : ∀ (fd : Int) (k' : PollKind), fd = op.fd → (fd', k) ≠ (fd, k') :=
      fun fd k' hfd hkk => hf ((congrArg Prod.fst hkk).trans hfd)
    rw [if_neg, if_neg]
    · rintro ⟨hadd, -⟩
      cases op with
      | addRead fd events cb => exact other fd _ rfl hadd
      | addWrite fd cb dupFd => exact other fd _ rfl hadd.1
      | _ => exact hadd
    · intro hrem
      cases op with
      | remRead fd => exact other fd _ rfl hrem
      | remWrite fd => exact other fd _ rfl hrem
      | _ => exact hrem

end Bfc.PollReactor
