import Bfc.EpollReactor.Pass

/-!
# What calls do to watches

A call changes what the kernel has at one descriptor at most, `Reactor.rewatched`. So the watch of a
write registration stays as it is under every call but its own removal, and its own `req_write`:
another registration watches another descriptor, and `EPOLL_CTL_ADD` fails for one that is watched.
`Agree.write_frame` says so from the other end, of a registration that is there after the call.
-/

namespace Bfc.EpollReactor

variable {κ : Type*} {s : Reactor κ} {fd : Int}

/-- The descriptor whose watch a call makes, changes or takes away. -/
def Reactor.rewatched (s : Reactor κ) : Op κ → Option Int
  | .openFd _ => none
  | .closeFd fd => some fd
  | .addRead fd _ _ added => if added then some fd else none
  | .remRead fd =>
    match s.fdEntries fd with
    | none => none
    | some e => if e.readActive ∧ e.readCtx.fd ≠ -1 then some e.readCtx.fd else none
  | .addWrite fd _ dupFd added =>
    if added ∧ (s.entryOf fd).writeFd dupFd ≠ -1 then some ((s.entryOf fd).writeFd dupFd) else none
  | .remWrite fd =>
    match s.fdEntries fd with
    | none => none
    | some e => if e.writeActive ∧ e.writeCtx.fd ≠ -1 then some e.writeCtx.fd else none
  | .reqWrite fd _ modified =>
    match s.fdEntries fd with
    | none => none
    | some e =>
      if modified ∧ e.writeActive ∧ e.writeCtx.fd ≠ -1 then some e.writeCtx.fd else none

/-- The descriptor whose write registration a pointer points to. -/
def Ptr.writeOf : Ptr → Option Int
  | .ctx fd _ .write => some fd
  | .ctx _ _ .read | .eventFdCtx => none

/-! ## What a call leaves of a write registration -/

theorem notePending_kernel (s : Reactor κ) (fd : Int) (e : FdEntry κ) :
    (s.notePending fd e).kernel = s.kernel := by
  unfold Reactor.notePending
  split <;> rfl

/-- A call changes one watch at most. -/
theorem perform_interest (s : Reactor κ) (op : Op κ) {y : Int} (other : s.rewatched op ≠ some y) :
    (s.perform op).kernel.interest y = s.kernel.interest y := by
  have apart : ∀ (k : Kernel) (x : Int) (watch : Option Watch), some x ≠ some y →
      (k.ctl x watch).interest y = k.interest y :=
    fun k x watch ne => Function.update_of_ne (fun same => ne (congrArg some same.symm)) _ _
  cases op with
  | openFd x => rfl
  | closeFd x => exact Function.update_of_ne (fun same => other (congrArg some same.symm)) _ _
  | addRead x events cb added =>
    cases added with
    | false => rfl
    | true => exact apart _ x _ other
  | remRead x =>
    simp only [Reactor.perform, Reactor.remRead]
    simp only [Reactor.rewatched] at other
    cases he : s.fdEntries x with
    | none => rfl
    | some e =>
      simp only [he] at other
      dsimp only
      split
      · rename_i removes
        rw [if_pos removes] at other
        rw [notePending_kernel]
        exact apart _ _ _ other
      · rw [notePending_kernel]
  | addWrite x cb dupFd added =>
    obtain ⟨-, -, dupped⟩ := Agree.dupped_same { s with adds := s.adds + 1 } x dupFd
    simp only [Reactor.rewatched] at other
    simp only [Reactor.perform, Reactor.addWrite]
    by_cases invalid : (s.entryOf x).writeFd dupFd = -1
    · rw [if_pos (show (({ s with adds := s.adds + 1 } : Reactor κ).entryOf x |>.named x).writeFd
        dupFd = -1 from invalid)]
      rfl
    · rw [if_neg (show ¬(({ s with adds := s.adds + 1 } : Reactor κ).entryOf x |>.named x).writeFd
        dupFd = -1 from invalid)]
      cases added with
      | false => exact congrFun dupped y
      | true =>
        rw [if_pos ⟨rfl, invalid⟩] at other
        exact (apart _ _ _ other).trans (congrFun dupped y)
  | remWrite x =>
    simp only [Reactor.perform, Reactor.remWrite]
    simp only [Reactor.rewatched] at other
    cases he : s.fdEntries x with
    | none => rfl
    | some e =>
      simp only [he] at other
      dsimp only
      split
      · rename_i removes
        rw [if_pos removes] at other
        rw [notePending_kernel]
        have ne : y ≠ e.writeCtx.fd := fun same => other (congrArg some same.symm)
        exact (Function.update_of_ne ne _ _).trans (apart _ _ _ other)
      · rw [notePending_kernel]
  | reqWrite x events modified =>
    simp only [Reactor.perform, Reactor.reqWrite]
    simp only [Reactor.rewatched] at other
    cases he : s.fdEntries x with
    | none => rfl
    | some e =>
      simp only [he] at other
      dsimp only
      split
      · rfl
      · rename_i armed
        cases modified with
        | false => rfl
        | true =>
          rw [not_or, Bool.not_eq_true'] at armed
          rw [if_pos ⟨rfl, by simpa using armed.1, armed.2⟩] at other
          exact apart _ _ _ other

/-- The watch of a write registration that is there is changed only by a call for it. -/
theorem Agree.rewatched_ne (h : Agree s) {op : Op κ} (allowed : s.allows op) {e : FdEntry κ}
    (he : s.fdEntries fd = some e) (active : e.writeActive = true)
    (unremoved : op ≠ .remWrite fd)
    (unrequested : ∀ events modified, op = .reqWrite fd events modified → s.rewatched op = none) :
    s.rewatched op ≠ some e.writeCtx.fd := by
  have ok := h.entries fd e he
  obtain ⟨valid, events, watched⟩ := ok.write active
  -- what is watched cannot be added, and no other entry has this duplicate
  have unadded : ∀ x, s.kernel.interest x = none → x ≠ e.writeCtx.fd := by
    rintro x free rfl
    rw [watched] at free
    cases free
  have apart : ∀ x e', x ≠ fd → s.fdEntries x = some e' → e'.writeCtx.fd ≠ -1 →
      e'.writeCtx.fd ≠ e.writeCtx.fd := by
    intro x e' other he' valid' same
    have dup := (h.entries x e' he').duplicate valid'
    rw [same, ok.duplicate valid] at dup
    exact other (Owner.duplicate.inj (Option.some.inj dup)).symm
  intro same
  cases op with
  | openFd x => cases same
  | closeFd x => exact ok.write_ne allowed.1 valid (Option.some.inj same).symm
  | addRead x events cb added =>
    obtain ⟨added, own⟩ := Option.ite_none_right_eq_some.mp same
    exact unadded x (allowed.2 added).2 (Option.some.inj own)
  | remRead x =>
    simp only [Reactor.rewatched] at same
    split at same
    · cases same
    · rename_i e' he'
      obtain ⟨removes, own⟩ := Option.ite_none_right_eq_some.mp same
      obtain ⟨reads, caller, -⟩ := (h.entries x e' he').read removes.1
      rw [reads] at own
      exact ok.write_ne caller valid (Option.some.inj own).symm
  | addWrite x cb dupFd added =>
    obtain ⟨added, own⟩ := Option.ite_none_right_eq_some.mp same
    exact unadded _ (allowed.2.2 added.1) (Option.some.inj own)
  | remWrite x =>
    have other : x ≠ fd := fun own => unremoved (by rw [own])
    simp only [Reactor.rewatched] at same
    split at same
    · cases same
    · rename_i e' he'
      obtain ⟨removes, own⟩ := Option.ite_none_right_eq_some.mp same
      exact apart x e' other he' removes.2 (Option.some.inj own)
  | reqWrite x events modified =>
    by_cases own : x = fd
    · subst own
      rw [unrequested events modified rfl] at same
      cases same
    · simp only [Reactor.rewatched] at same
      split at same
      · cases same
      · rename_i e' he'
        obtain ⟨requests, watches⟩ := Option.ite_none_right_eq_some.mp same
        exact apart x e' own he' requests.2.2 (Option.some.inj watches)

/-- A write registration that is there after a call was there before it, on the same duplicate,
unless the call made it. -/
theorem Op.onEntry_write (op : Op κ) {adds : Nat} {e : FdEntry κ}
    (valid : e.writeActive = true → e.writeCtx.fd ≠ -1)
    (unmade : ∀ cb dupFd, op = .addWrite fd cb dupFd true → e.writeFd dupFd = -1)
    (active : (op.onEntry fd adds e).writeActive = true) :
    e.writeActive = true ∧ op ≠ .remWrite fd ∧
      (op.onEntry fd adds e).writeCtx.fd = e.writeCtx.fd := by
  cases op with
  | openFd x => exact ⟨active, by simp, rfl⟩
  | closeFd x => exact ⟨active, by simp, rfl⟩
  | addRead x events cb added | remRead x | reqWrite x events modified =>
    revert active
    simp only [Op.onEntry]
    split
    · exact fun active => ⟨active, by simp, rfl⟩
    · exact fun active => ⟨active, by simp, rfl⟩
  | addWrite x cb dupFd added =>
    simp only [Op.onEntry] at active ⊢
    by_cases own : x = fd
    · subst own
      simp only [if_true] at active ⊢
      by_cases invalid : e.writeFd dupFd = -1
      · simp only [if_pos invalid] at active ⊢
        exact ⟨active, by simp, rfl⟩
      · simp only [if_neg invalid] at active ⊢
        cases added with
        | true => exact absurd (unmade cb dupFd rfl) invalid
        | false =>
          rw [Bool.false_or] at active
          exact ⟨active, by simp, if_neg (valid active)⟩
    · simp only [if_neg own] at active ⊢
      exact ⟨active, by simp, trivial⟩
  | remWrite x =>
    revert active
    simp only [Op.onEntry]
    split
    · intro active
      cases active
    · rename_i kept
      intro active
      refine ⟨active, fun same => kept ?_, rfl⟩
      exact ⟨Op.remWrite.inj same, active, valid active⟩

/-- **The frame of a write registration**: one that a call leaves there, and neither makes nor
requests, was there before on the same duplicate, and its watch is the same. -/
theorem Agree.write_frame (h : Agree s) {op : Op κ} (allowed : s.allows op)
    (unmade : ∀ cb dupFd, op = .addWrite fd cb dupFd true → (s.entryOf fd).writeFd dupFd = -1)
    (unrequested : ∀ events modified, op = .reqWrite fd events modified → s.rewatched op = none)
    {e' : FdEntry κ} (he' : (s.perform op).fdEntries fd = some e')
    (active : e'.writeActive = true) :
    ∃ e, s.fdEntries fd = some e ∧ e.writeActive = true ∧ e.writeCtx.fd = e'.writeCtx.fd ∧
      s.rewatched op ≠ some e.writeCtx.fd ∧
      (s.perform op).kernel.interest e.writeCtx.fd = s.kernel.interest e.writeCtx.fd := by
  obtain ⟨e, he⟩ : ∃ e, s.entryOf fd = e := ⟨_, rfl⟩
  have ok := h.entryOf_ok fd
  have is : e' = op.onEntry fd (s.adds + 1) e := by
    rcases perform_entry s op fd with stored | ⟨same, kept⟩
    · rw [← he]
      exact Option.some.inj (he'.symm.trans stored)
    · rw [same] at he'
      rw [← he, kept, Agree.entryOf_eq he']
  rw [he] at ok unmade
  rw [is] at active
  obtain ⟨was, unremoved, watches⟩ :=
    op.onEntry_write (fun active => (ok.write active).1) unmade active
  have there : s.fdEntries fd = some e := by
    cases present : s.fdEntries fd with
    | some e₀ => rw [← he, Agree.entryOf_eq present]
    | none =>
      rw [Reactor.entryOf, present, Option.getD_none] at he
      rw [← he] at was
      cases was
  have ne := h.rewatched_ne allowed there was unremoved unrequested
  exact ⟨e, there, was, (is ▸ watches).symm, ne, perform_interest s op ne⟩

/-- An `add_write` that succeeds has the kernel watch the duplicate for no events. -/
theorem addWrite_made {cb : Option κ} {dupFd : Int} {added : Bool}
    (made : (s.addWrite fd cb dupFd added).2 = true) :
    ∃ e w, (s.addWrite fd cb dupFd added).1.fdEntries fd = some e ∧
      (s.addWrite fd cb dupFd added).1.kernel.interest e.writeCtx.fd = some w ∧ w.events = 0 := by
  unfold Reactor.addWrite at made ⊢
  dsimp only at made ⊢
  split at made
  · cases made
  · rename_i valid
    rw [if_neg valid]
    cases added with
    | false => cases made
    | true =>
      exact ⟨_, _, Function.update_self .., Function.update_self .., rfl⟩

/-- One that fails has added no watch. -/
theorem addWrite_failed {cb : Option κ} {dupFd : Int}
    (failed : (s.addWrite fd cb dupFd true).2 = false) : (s.entryOf fd).writeFd dupFd = -1 := by
  by_contra valid
  unfold Reactor.addWrite at failed
  dsimp only at failed
  rw [if_neg (show ¬((({ s with adds := s.adds + 1 } : Reactor κ).entryOf fd).named fd).writeFd
    dupFd = -1 from valid)] at failed
  cases failed

/-- A `req_write` that fails has changed no watch. -/
theorem reqWrite_failed {events : BitVec 32} {modified : Bool}
    (failed : (s.reqWrite fd events modified).2 = false) :
    s.rewatched (.reqWrite fd events modified) = none := by
  unfold Reactor.reqWrite at failed
  unfold Reactor.rewatched
  dsimp only
  split
  · rfl
  · rename_i e he
    apply if_neg
    rintro ⟨rfl, active, valid⟩
    rw [he] at failed
    dsimp only at failed
    rw [if_neg (by simp [active, valid])] at failed
    cases failed

/-- A watch that points to a write context is that of the registration. -/
theorem Agree.write_watched (h : Agree s) {x : Int} {w : Watch}
    (watched : s.kernel.interest x = some w) (own : w.ptr.writeOf = some fd) :
    ∃ e, s.fdEntries fd = some e ∧ e.writeActive = true ∧ e.writeCtx.fd = x := by
  have ok := h.watches x w watched
  revert own ok
  cases w.ptr with
  | eventFdCtx => exact fun own => by cases own
  | ctx fd' node side =>
    cases side with
    | read => exact fun own => by cases own
    | write =>
      intro own
      obtain rfl := Option.some.inj own
      rintro ⟨e, he, -, active, watches⟩
      exact ⟨e, he, active, watches⟩

end Bfc.EpollReactor
