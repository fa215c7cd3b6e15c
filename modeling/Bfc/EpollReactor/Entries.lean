import Bfc.EpollReactor.Operations

/-!
# Entries under calls

What a call does to an entry, whichever descriptor the call is for: `Op.onEntry`, from which the
later modules read off how a context changes. An entry that is there stays there, in its node.
-/

namespace Bfc.EpollReactor

variable {κ : Type*}

/-- What a call does to the entry of a descriptor; `adds` is the number of the
call among those of `add_read` and `add_write`. -/
def Op.onEntry (fd : Int) (adds : Nat) (e : FdEntry κ) : Op κ → FdEntry κ
  | .addRead x events cb added =>
    if x = fd then
      { e.named fd with
        readCtx := { e.readCtx with
          fd := fd, events := events, cb := cb, storedBy := adds
          armedBy := if added then adds else e.readCtx.armedBy }
        readActive := added || e.readActive }
    else e
  | .remRead x =>
    if x = fd ∧ e.readActive ∧ e.readCtx.fd ≠ -1 then
      { e with readActive := false, readCtx := { e.readCtx with cb := none, fd := -1 } }
    else e
  | .addWrite x cb dupFd added =>
    if x = fd then
      if e.writeFd dupFd = -1 then e.named fd
      else
        { e.named fd with
          writeCtx := { e.writeCtx with
            fd := e.writeFd dupFd, events := 0, cb := cb, storedBy := adds
            armedBy := if added then adds else e.writeCtx.armedBy }
          writeActive := added || e.writeActive }
    else e
  | .remWrite x =>
    if x = fd ∧ e.writeActive ∧ e.writeCtx.fd ≠ -1 then
      { e with writeActive := false, writeCtx := { e.writeCtx with fd := -1, cb := none } }
    else e
  | .reqWrite x events _ =>
    if x = fd ∧ e.writeActive ∧ e.writeCtx.fd ≠ -1 then
      { e with writeCtx := { e.writeCtx with events := events } }
    else e
  | .openFd _ | .closeFd _ => e

/-- The number of the next call among those of `add_read` and `add_write`. -/
def Op.addsAfter (adds : Nat) : Op κ → Nat
  | .addRead .. | .addWrite .. => adds + 1
  | _ => adds

theorem notePending_same (s : Reactor κ) (fd : Int) (e : FdEntry κ) :
    (s.notePending fd e).fdEntries = s.fdEntries ∧ (s.notePending fd e).adds = s.adds := by
  unfold Reactor.notePending
  split
  · exact ⟨rfl, rfl⟩
  · exact ⟨rfl, rfl⟩

/-- The entry of a descriptor is what a function makes of it; one that is not there may stay away if
nothing is done to it. -/
def Rewritten (s s' : Reactor κ) (fd : Int) (e' : FdEntry κ) : Prop :=
  s'.fdEntries fd = some e' ∨ s'.fdEntries fd = s.fdEntries fd ∧ e' = s.entryOf fd

/-- An entry is stored, whether it was there or not. -/
theorem Rewritten.of_put {s s' : Reactor κ} {x : Int} {f : Int → FdEntry κ → FdEntry κ}
    (stored : s'.fdEntries = Function.update s.fdEntries x (some (f x (s.entryOf x)))) (fd : Int) :
    Rewritten s s' fd (if x = fd then f fd (s.entryOf fd) else s.entryOf fd) := by
  by_cases own : x = fd
  · subst own
    left
    rw [stored, Function.update_self, if_pos rfl]
  · right
    rw [stored, Function.update_of_ne (Ne.symm own), if_neg own]
    exact ⟨rfl, rfl⟩

/-- An entry that is there is rewritten if it meets a condition, which a new one does not. -/
theorem Rewritten.of_there {s s' : Reactor κ} {x : Int} {f : FdEntry κ → FdEntry κ}
    {p : FdEntry κ → Prop} [DecidablePred p] (fresh : ∀ n, ¬p { node := n })
    (stored : ∀ e, s.fdEntries x = some e → p e →
      s'.fdEntries = Function.update s.fdEntries x (some (f e)))
    (kept : (∀ e, s.fdEntries x = some e → ¬p e) → s'.fdEntries = s.fdEntries) (fd : Int) :
    Rewritten s s' fd (if x = fd ∧ p (s.entryOf fd) then f (s.entryOf fd) else s.entryOf fd) := by
  by_cases met : ∃ e, s.fdEntries x = some e ∧ p e
  · obtain ⟨e, he, meets⟩ := met
    by_cases own : x = fd
    · subst own
      left
      rw [stored e he meets, Function.update_self, Agree.entryOf_eq he, if_pos ⟨rfl, meets⟩]
    · right
      rw [stored e he meets, Function.update_of_ne (Ne.symm own), if_neg fun h => own h.1]
      exact ⟨rfl, rfl⟩
  · have unmet : ∀ e, s.fdEntries x = some e → ¬p e := fun e he meets => met ⟨e, he, meets⟩
    right
    rw [kept unmet, if_neg]
    · exact ⟨rfl, rfl⟩
    · rintro ⟨rfl, meets⟩
      cases he : s.fdEntries x with
      | none =>
        rw [Reactor.entryOf, he] at meets
        exact fresh _ meets
      | some e =>
        rw [Agree.entryOf_eq he] at meets
        exact unmet e he meets

/-- What a call does to an entry, it does to the one of each descriptor. -/
theorem perform_entry (s : Reactor κ) (op : Op κ) (fd : Int) :
    Rewritten s (s.perform op) fd (op.onEntry fd (s.adds + 1) (s.entryOf fd)) := by
  have noted : ∀ (s' : Reactor κ) (x : Int) (e' : FdEntry κ),
      (s'.notePending x e').fdEntries = s'.fdEntries := fun s' x e' => (notePending_same s' x e').1
  cases op with
  | openFd x => exact .inr ⟨rfl, rfl⟩
  | closeFd x => exact .inr ⟨rfl, rfl⟩
  | addRead x events cb added =>
    simp only [Op.onEntry]
    refine Rewritten.of_put (f := fun fd e => { e.named fd with
      readCtx := { e.readCtx with
        fd := fd, events := events, cb := cb, storedBy := s.adds + 1
        armedBy := if added then s.adds + 1 else e.readCtx.armedBy }
      readActive := added || e.readActive }) ?_ fd
    cases added with
    | false => rfl
    | true => rfl
  | remRead x =>
    simp only [Op.onEntry]
    refine Rewritten.of_there (p := fun e => e.readActive = true ∧ e.readCtx.fd ≠ -1)
      (f := fun e =>
        { e with readActive := false, readCtx := { e.readCtx with cb := none, fd := -1 } })
      (fun n h => Bool.false_ne_true h.1) (fun e he removes => ?_) (fun kept => ?_) fd
    · simp only [Reactor.perform, Reactor.remRead, he, if_pos removes]
      exact noted ..
    · simp only [Reactor.perform, Reactor.remRead]
      split
      · rfl
      · rename_i e he
        rw [if_neg (kept e he)]
        exact noted ..
  | addWrite x cb dupFd added =>
    obtain ⟨dupped, -, -⟩ := Agree.dupped_same { s with adds := s.adds + 1 } x dupFd
    simp only [Op.onEntry]
    refine Rewritten.of_put (f := fun fd e =>
      if e.writeFd dupFd = -1 then e.named fd
      else { e.named fd with
        writeCtx := { e.writeCtx with
          fd := e.writeFd dupFd, events := 0, cb := cb, storedBy := s.adds + 1
          armedBy := if added then s.adds + 1 else e.writeCtx.armedBy }
        writeActive := added || e.writeActive }) ?_ fd
    simp only [Reactor.perform, Reactor.addWrite]
    by_cases invalid : (s.entryOf x).writeFd dupFd = -1
    · rw [if_pos (show ((({ s with adds := s.adds + 1 } : Reactor κ).entryOf x).named x).writeFd
        dupFd = -1 from invalid), if_pos invalid]
      rfl
    · rw [if_neg (show ¬((({ s with adds := s.adds + 1 } : Reactor κ).entryOf x).named x).writeFd
        dupFd = -1 from invalid), if_neg invalid]
      have adds := Agree.dupped_adds { s with adds := s.adds + 1 } x dupFd
      cases added with
      | false =>
        simp only [Reactor.putEntry, dupped, adds]
        rfl
      | true =>
        simp only [Reactor.putEntry, Reactor.withKernel, dupped, adds]
        rfl
  | remWrite x =>
    simp only [Op.onEntry]
    refine Rewritten.of_there (p := fun e => e.writeActive = true ∧ e.writeCtx.fd ≠ -1)
      (f := fun e =>
        { e with writeActive := false, writeCtx := { e.writeCtx with fd := -1, cb := none } })
      (fun n h => Bool.false_ne_true h.1) (fun e he removes => ?_) (fun kept => ?_) fd
    · simp only [Reactor.perform, Reactor.remWrite, he, if_pos removes]
      exact noted ..
    · simp only [Reactor.perform, Reactor.remWrite]
      split
      · rfl
      · rename_i e he
        rw [if_neg (kept e he)]
        exact noted ..
  | reqWrite x events modified =>
    simp only [Op.onEntry]
    refine Rewritten.of_there (p := fun e => e.writeActive = true ∧ e.writeCtx.fd ≠ -1)
      (f := fun e => { e with writeCtx := { e.writeCtx with events := events } })
      (fun n h => Bool.false_ne_true h.1) (fun e he armed => ?_) (fun kept => ?_) fd
    · simp only [Reactor.perform, Reactor.reqWrite, he]
      rw [if_neg (by simp [armed.1, armed.2])]
      cases modified with
      | false => rfl
      | true => rfl
    · simp only [Reactor.perform, Reactor.reqWrite]
      split
      · rfl
      · rename_i e he
        rw [if_pos]
        by_contra idle
        exact kept e he (by simpa using idle)

/-- An entry that is there stays there. -/
theorem perform_some {s : Reactor κ} (op : Op κ) {fd : Int} {e : FdEntry κ}
    (he : s.fdEntries fd = some e) :
    (s.perform op).fdEntries fd = some (op.onEntry fd (s.adds + 1) e) := by
  rcases perform_entry s op fd with h | ⟨same, kept⟩
  · rw [h, Agree.entryOf_eq he]
  · rw [Agree.entryOf_eq he] at kept
    rw [same, he, kept]

/-- The calls of `add_read` and `add_write` are counted. -/
theorem perform_adds (s : Reactor κ) (op : Op κ) : (s.perform op).adds = op.addsAfter s.adds := by
  have noted : ∀ (s' : Reactor κ) (x : Int) (e' : FdEntry κ),
      (s'.notePending x e').adds = s'.adds := fun s' x e' => (notePending_same s' x e').2
  cases op with
  | openFd x => rfl
  | closeFd x => rfl
  | addRead x events cb added => cases added <;> rfl
  | remRead x =>
    simp only [Reactor.perform, Reactor.remRead]
    split
    · rfl
    · split
      · exact noted _ _ _
      · exact noted _ _ _
  | addWrite x cb dupFd added =>
    simp only [Reactor.perform, Reactor.addWrite]
    split
    · rfl
    · cases added with
      | false => exact Agree.dupped_adds _ _ _
      | true => exact Agree.dupped_adds _ _ _
  | remWrite x =>
    simp only [Reactor.perform, Reactor.remWrite]
    split
    · rfl
    · split
      · exact noted _ _ _
      · exact noted _ _ _
  | reqWrite x events modified =>
    simp only [Reactor.perform, Reactor.reqWrite]
    split
    · rfl
    · split
      · rfl
      · split <;> rfl

/-- An entry keeps its node. -/
theorem Op.onEntry_node (op : Op κ) (fd : Int) (adds : Nat) (e : FdEntry κ) :
    (op.onEntry fd adds e).node = e.node := by
  cases op with
  | openFd x => rfl
  | closeFd x => rfl
  | addRead x events cb added | remRead x | remWrite x | reqWrite x events modified =>
    simp only [Op.onEntry]
    split <;> rfl
  | addWrite x cb dupFd added =>
    simp only [Op.onEntry]
    split
    · split <;> rfl
    · rfl

end Bfc.EpollReactor
