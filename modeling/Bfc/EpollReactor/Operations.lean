import Bfc.EpollReactor.Agreement

/-!
# Every call keeps the agreement

The calls of callers, one by one, and the clean-up: each rewrites one entry and changes what the
kernel has at one descriptor, which is the one that entry watches. An `EPOLL_CTL_ADD` that fails, a
`dup` that fails, a second removal and an addition before the clean-up are branches of these proofs
and no cases of their own.
-/

namespace Bfc.EpollReactor

variable {κ : Type*} {s : Reactor κ}

namespace Agree

/-- An entry that is not there yet is in order, and one that is has its fields. -/
theorem entryOf_ok (h : Agree s) (fd : Int) : EntryOk s.kernel fd (s.entryOf fd) := by
  unfold Reactor.entryOf
  cases he : s.fdEntries fd with
  | none =>
    refine ⟨fun active => (by cases active), fun active => (by cases active), fun valid => ?_⟩
    exact absurd rfl valid
  | some e => exact h.entries fd e he

theorem entryOf_eq {fd : Int} {e : FdEntry κ} (he : s.fdEntries fd = some e) :
    s.entryOf fd = e := by
  rw [Reactor.entryOf, he, Option.getD_some]

theorem notePending (h : Agree s) (fd : Int) (e : FdEntry κ) : Agree (s.notePending fd e) := by
  unfold Reactor.notePending
  split
  · exact h.of_same rfl rfl rfl
  · exact h

theorem addRead (h : Agree s) {fd : Int} {events : BitVec 32} {cb : Option κ} {added : Bool}
    (allowed : s.allows (.addRead fd events cb added)) :
    Agree (s.addRead fd events cb added).1 := by
  have ok := h.entryOf_ok fd
  have counted : Agree { s with adds := s.adds + 1 } := h.of_same rfl rfl rfl
  unfold Reactor.addRead
  cases added with
  | false =>
    refine counted.putSame (fun e he => ?_) ⟨fun active => ?_, ok.write, ok.duplicate⟩
    · obtain rfl : s.entryOf fd = e := entryOf_eq he
      refine ⟨rfl, fun side active => ?_⟩
      cases side with
      | read => exact ⟨active, (ok.read active).1.symm⟩
      | write => exact ⟨active, rfl⟩
    · exact ⟨rfl, (ok.read active).2⟩
  | true =>
    obtain ⟨-, possible⟩ := allowed
    obtain ⟨caller, -⟩ := possible rfl
    have apart : ∀ y, y ≠ fd → ∀ watch, Function.update s.kernel.interest fd watch y =
        s.kernel.interest y := fun y ne watch => Function.update_of_ne ne _ _
    have valid : fd ≠ -1 := by
      rintro rfl
      rw [h.invalid] at caller
      cases caller
    refine counted.put (x := fd) (.inr (.inl ⟨rfl, caller⟩)) valid (fun _ _ => rfl)
      (fun y ne => apart y ne _) (fun e he => ?_) ⟨fun _ => ?_, fun active => ?_, ok.duplicate⟩
      (fun w hw => ?_)
    · obtain rfl : s.entryOf fd = e := entryOf_eq he
      refine ⟨rfl, fun side active ne => ?_⟩
      cases side with
      | read => exact absurd (ok.read active).1 ne
      | write => exact ⟨active, rfl⟩
    · exact ⟨rfl, caller, events, Function.update_self _ _ _⟩
    · -- the write's duplicate is another descriptor
      obtain ⟨dup, events', watched⟩ := ok.write active
      exact ⟨dup, events', (apart _ (ok.write_ne caller dup) _).trans watched⟩
    · change Function.update s.kernel.interest fd _ fd = some w at hw
      rw [Function.update_self] at hw
      exact ⟨.read, by rw [← Option.some.inj hw], rfl, rfl⟩

theorem remRead (h : Agree s) (fd : Int) : Agree (s.remRead fd).1 := by
  unfold Reactor.remRead
  cases he : s.fdEntries fd with
  | none => exact h
  | some e =>
    have ok := h.entries fd e he
    dsimp only
    split
    · rename_i removes
      obtain ⟨own, caller, -⟩ := ok.read removes.1
      rw [own]
      have gone : Function.update s.kernel.interest fd none fd = none := Function.update_self _ _ _
      refine Agree.notePending ?_ _ _
      refine h.put (x := fd) (.inr (.inl ⟨rfl, caller⟩)) (own ▸ removes.2) (fun _ _ => rfl)
        (fun y ne => Function.update_of_ne ne _ _) (fun e' he' => ?_)
        ⟨fun active => (by cases active), fun active => ?_, ok.duplicate⟩ (fun w hw => ?_)
      · obtain rfl := Option.some.inj (he.symm.trans he')
        refine ⟨rfl, fun side active ne => ?_⟩
        cases side with
        | read => exact absurd own ne
        | write => exact ⟨active, rfl⟩
      · obtain ⟨dup, events, watched⟩ := ok.write active
        exact ⟨dup, events,
          (Function.update_of_ne (ok.write_ne caller dup) _ _).trans watched⟩
      · exact absurd (gone.symm.trans hw) (by intro hc; cases hc)
    · exact h.notePending _ _

/-- Whatever watches a descriptor of an entry's is that entry. -/
theorem watched_own (h : Agree s) {fd x : Int} (concerns : Concerns s.kernel fd x) {w : Watch}
    (hw : s.kernel.interest x = some w) :
    ∃ e side, s.fdEntries fd = some e ∧ w.ptr = .ctx fd e.node side ∧ e.active side = true ∧
      (e.ctx side).fd = x := by
  have ok := h.watches x w hw
  obtain ⟨notEvent, others⟩ := h.apart concerns
  revert ok
  cases w.ptr with
  | eventFdCtx => exact fun same => absurd same notEvent
  | ctx fd' node side =>
    rintro ⟨e, he, rfl, active, rfl⟩
    by_cases own : fd' = fd
    · subst own
      exact ⟨e, side, he, rfl, active, rfl⟩
    · obtain ⟨readApart, writeApart⟩ := others fd' e own he
      have ok := h.entries fd' e he
      cases side with
      | read => exact absurd (ok.read active).1.symm (readApart active)
      | write => exact absurd rfl (writeApart (ok.write active).1)

/-- `dup` makes a descriptor for an entry that has none. -/
theorem dup (h : Agree s) {fd dupFd : Int} {e e' : FdEntry κ} (ok : EntryOk s.kernel fd e)
    (he : ∀ e₀, s.fdEntries fd = some e₀ → e₀ = e) (fresh : e.writeCtx.fd = -1)
    (valid : dupFd ≠ -1) (free : s.kernel.fds dupFd = none)
    (new : e' = { e with fd := e'.fd, writeCtx := { e.writeCtx with fd := dupFd } }) :
    Agree ((s.withKernel (s.kernel.openFd dupFd (.duplicate fd))).putEntry fd e') := by
  have apart : ∀ y, y ≠ dupFd →
      (s.kernel.openFd dupFd (.duplicate fd)).fds y = s.kernel.fds y :=
    fun y ne => Function.update_of_ne ne _ _
  have idle : e.writeActive = true → False := fun active => (ok.write active).1 fresh
  refine h.put (.inl free) valid apart (fun _ _ => rfl) (fun e₀ h₀ => ?_)
    ⟨fun active => ?_, fun active => ?_, fun _ => ?_⟩ (fun w hw => ?_)
  · obtain rfl := he e₀ h₀
    rw [new]
    refine ⟨rfl, fun side active _ => ?_⟩
    cases side with
    | read => exact ⟨active, rfl⟩
    | write => exact (idle active).elim
  · rw [new] at active ⊢
    obtain ⟨own, caller, watched⟩ := ok.read active
    have ne : fd ≠ dupFd := by
      rintro rfl
      rw [free] at caller
      cases caller
    exact ⟨own, (apart fd ne).trans caller, watched⟩
  · rw [new] at active
    exact (idle active).elim
  · rw [new]
    exact Function.update_self _ _ _
  · -- nothing watches a descriptor that is not open
    obtain ⟨e₀, side, h₀, -, active, watches⟩ := h.watched_own (.inl free) hw
    obtain rfl := he e₀ h₀
    cases side with
    | read =>
      obtain ⟨own, caller, -⟩ := ok.read active
      rw [← own, show e₀.readCtx.fd = dupFd from watches, free] at caller
      cases caller
    | write => exact (idle active).elim

/-- A write context with a descriptor is rewritten, and watched if it is armed. -/
theorem storeWrite (h : Agree s) {fd : Int} {e : FdEntry κ} (he : s.fdEntries fd = some e)
    (valid : e.writeCtx.fd ≠ -1) (ctx : FdCtx κ) (same : ctx.fd = e.writeCtx.fd) :
    Agree (s.putEntry fd { e with writeCtx := ctx }) := by
  have ok := h.entries fd e he
  refine h.putSame (fun e₀ h₀ => ?_) ⟨ok.read, fun active => ?_, fun _ => ?_⟩
  · obtain rfl := Option.some.inj (he.symm.trans h₀)
    refine ⟨rfl, fun side active => ?_⟩
    cases side with
    | read => exact ⟨active, rfl⟩
    | write => exact ⟨active, same⟩
  · dsimp only
    rw [same]
    exact ok.write active
  · dsimp only
    rw [same]
    exact ok.duplicate valid

theorem watchWrite (h : Agree s) {fd : Int} {e : FdEntry κ} (he : s.fdEntries fd = some e)
    (valid : e.writeCtx.fd ≠ -1) (ctx : FdCtx κ) (same : ctx.fd = e.writeCtx.fd)
    (k : Kernel) (fds : k.fds = s.kernel.fds)
    (interest : ∀ y, y ≠ ctx.fd → k.interest y = s.kernel.interest y) (events : BitVec 32)
    (watched : k.interest ctx.fd = some { events := events, ptr := .ctx fd e.node .write }) :
    Agree ((s.withKernel k).putEntry fd { e with writeCtx := ctx, writeActive := true }) := by
  have ok := h.entries fd e he
  have dup := ok.duplicate valid
  refine h.put (x := ctx.fd) (.inr (.inr (same ▸ dup))) (same ▸ valid)
    (fun y _ => congrFun fds y) interest (fun e₀ h₀ => ?_)
    ⟨fun active => ?_, fun _ => ?_, fun _ => ?_⟩ (fun w hw => ?_)
  · obtain rfl := Option.some.inj (he.symm.trans h₀)
    refine ⟨rfl, fun side active ne => ?_⟩
    cases side with
    | read => exact ⟨active, rfl⟩
    | write => exact absurd same.symm ne
  · obtain ⟨own, caller, events', reads⟩ := ok.read active
    have ne : fd ≠ ctx.fd := fun hc => ok.write_ne caller valid (same.symm.trans hc.symm)
    exact ⟨own, fds ▸ caller, events', (interest fd ne).trans reads⟩
  · exact ⟨same ▸ valid, events, watched⟩
  · dsimp only
    rw [fds, same]
    exact dup
  · rw [watched] at hw
    exact ⟨.write, by rw [← Option.some.inj hw], rfl, rfl⟩

/-- The state in which `add_write` has a descriptor to watch: the entry has it, as its duplicate. -/
theorem addWrite_ready (h : Agree s) {fd dupFd : Int}
    (answers : dupFd = -1 ∨ 0 ≤ dupFd ∧ s.kernel.fds dupFd = none ∧ s.kernel.fds fd = some .caller)
    (valid : (s.entryOf fd).writeFd dupFd ≠ -1) :
    ∃ (t : Reactor κ) (e : FdEntry κ), Agree t ∧ t.fdEntries fd = some e ∧
      e = { (s.entryOf fd).named fd with
        writeCtx := { (s.entryOf fd).writeCtx with fd := (s.entryOf fd).writeFd dupFd } } ∧
      t.kernel = (s.dupped fd dupFd).kernel ∧ t.eventFd = s.eventFd ∧
      ∀ e', Function.update t.fdEntries fd e' = Function.update s.fdEntries fd e' := by
  have ok := h.entryOf_ok fd
  have he : ∀ e₀, s.fdEntries fd = some e₀ → e₀ = s.entryOf fd := fun e₀ h₀ => (entryOf_eq h₀).symm
  unfold FdEntry.writeFd at valid ⊢
  unfold Reactor.dupped
  by_cases fresh : (s.entryOf fd).writeCtx.fd = -1
  · simp only [if_pos fresh] at valid ⊢
    obtain ⟨-, free, -⟩ := answers.resolve_left valid
    exact ⟨_, _, h.dup ok he fresh valid free rfl, Function.update_self _ _ _, rfl, rfl, rfl,
      fun e' => Function.update_idem _ _ _⟩
  · simp only [if_neg fresh] at valid ⊢
    refine ⟨s.putEntry fd ((s.entryOf fd).named fd), _, h.putSame (fun e₀ h₀ => ?_)
      ⟨ok.read, ok.write, ok.duplicate⟩, Function.update_self _ _ _, rfl, rfl, rfl,
      fun e' => Function.update_idem _ _ _⟩
    obtain rfl := he e₀ h₀
    refine ⟨rfl, fun side active => ⟨?_, ?_⟩⟩
    · cases side <;> exact active
    · cases side <;> rfl

/-- A duplicate is made on the kernel's side only. -/
theorem dupped_same (s : Reactor κ) (fd dupFd : Int) :
    (s.dupped fd dupFd).fdEntries = s.fdEntries ∧ (s.dupped fd dupFd).eventFd = s.eventFd ∧
      (s.dupped fd dupFd).kernel.interest = s.kernel.interest := by
  unfold Reactor.dupped
  split
  · exact ⟨rfl, rfl, rfl⟩
  · exact ⟨rfl, rfl, rfl⟩

theorem dupped_adds (s : Reactor κ) (fd dupFd : Int) : (s.dupped fd dupFd).adds = s.adds := by
  unfold Reactor.dupped
  split <;> rfl

theorem addWrite (h : Agree s) {fd : Int} {cb : Option κ} {dupFd : Int} {added : Bool}
    (allowed : s.allows (.addWrite fd cb dupFd added)) :
    Agree (s.addWrite fd cb dupFd added).1 := by
  obtain ⟨-, answers, -⟩ := allowed
  unfold Reactor.addWrite
  obtain ⟨s₀, hs₀⟩ : ∃ s₀ : Reactor κ, { s with adds := s.adds + 1 } = s₀ := ⟨_, rfl⟩
  have counted : Agree s₀ := hs₀ ▸ h.of_same rfl rfl rfl
  have answers₀ : dupFd = -1 ∨
      0 ≤ dupFd ∧ s₀.kernel.fds dupFd = none ∧ s₀.kernel.fds fd = some .caller := hs₀ ▸ answers
  have ok := counted.entryOf_ok fd
  dsimp only
  rw [hs₀]
  by_cases valid : (s₀.entryOf fd).writeFd dupFd = -1
  · -- there is no descriptor, and only the entry is made
    rw [if_pos (show ((s₀.entryOf fd).named fd).writeFd dupFd = -1 from valid)]
    refine counted.putSame (fun e he => ?_) ⟨ok.read, ok.write, ok.duplicate⟩
    obtain rfl : s₀.entryOf fd = e := entryOf_eq he
    refine ⟨rfl, fun side active => ⟨?_, ?_⟩⟩
    · cases side <;> exact active
    · cases side <;> rfl
  · rw [if_neg (show ¬((s₀.entryOf fd).named fd).writeFd dupFd = -1 from valid)]
    obtain ⟨t, e, agree, he, rfl, kernel, eventFd, idem⟩ := counted.addWrite_ready answers₀ valid
    obtain ⟨entries, event, interest⟩ := dupped_same s₀ fd dupFd
    cases added with
    | false =>
      have stored := agree.storeWrite he valid { (s₀.entryOf fd).writeCtx with
        fd := (s₀.entryOf fd).writeFd dupFd, events := 0, cb := cb
        storedBy := (s₀.dupped fd dupFd).adds } rfl
      refine stored.of_same ?_ kernel.symm (event.trans eventFd.symm)
      exact (congrArg (fun f => Function.update f fd _) entries).trans (idem _).symm
    | true =>
      have watched := agree.watchWrite he valid { (s₀.entryOf fd).writeCtx with
          fd := (s₀.entryOf fd).writeFd dupFd, events := 0, cb := cb
          storedBy := (s₀.dupped fd dupFd).adds, armedBy := (s₀.dupped fd dupFd).adds } rfl
        ((s₀.dupped fd dupFd).kernel.ctl ((s₀.entryOf fd).writeFd dupFd)
          (some { events := 0, ptr := .ctx fd (s₀.entryOf fd).node .write }))
        (show (s₀.dupped fd dupFd).kernel.fds = t.kernel.fds by rw [kernel])
        (fun y ne => (Function.update_of_ne ne _ _).trans (by rw [kernel])) 0
        (Function.update_self _ _ _)
      refine watched.of_same ?_ rfl (event.trans eventFd.symm)
      exact (congrArg (fun f => Function.update f fd _) entries).trans (idem _).symm

theorem remWrite (h : Agree s) (fd : Int) : Agree (s.remWrite fd).1 := by
  unfold Reactor.remWrite
  cases he : s.fdEntries fd with
  | none => exact h
  | some e =>
    have ok := h.entries fd e he
    dsimp only
    split
    · rename_i removes
      have dup := ok.duplicate removes.2
      refine Agree.notePending ?_ _ _
      refine h.put (x := e.writeCtx.fd) (.inr (.inr dup)) removes.2
        (fun y ne => Function.update_of_ne ne _ _)
        (fun y ne => (Function.update_of_ne ne _ _).trans (Function.update_of_ne ne _ _))
        (fun e' he' => ?_) ⟨fun active => ?_, fun active => (by cases active), fun valid => ?_⟩
        (fun w hw => ?_)
      · obtain rfl := Option.some.inj (he.symm.trans he')
        refine ⟨rfl, fun side active ne => ?_⟩
        cases side with
        | read => exact ⟨active, rfl⟩
        | write => exact absurd rfl ne
      · obtain ⟨own, caller, events, watched⟩ := ok.read active
        have ne : fd ≠ e.writeCtx.fd := (ok.write_ne caller removes.2).symm
        exact ⟨own, (Function.update_of_ne ne _ _).trans caller, events,
          ((Function.update_of_ne ne _ _).trans (Function.update_of_ne ne _ _)).trans watched⟩
      · exact absurd rfl valid
      · exact absurd ((Function.update_self _ _ _).symm.trans hw) (by intro hc; cases hc)
    · exact h.notePending _ _

theorem reqWrite (h : Agree s) (fd : Int) (events : BitVec 32) (modified : Bool) :
    Agree (s.reqWrite fd events modified).1 := by
  unfold Reactor.reqWrite
  cases he : s.fdEntries fd with
  | none => exact h
  | some e =>
    have ok := h.entries fd e he
    dsimp only
    split
    · exact h
    · rename_i armed
      have active : e.writeActive = true := by
        by_contra idle
        rw [Bool.not_eq_true] at idle
        exact armed (.inl (by rw [idle]; rfl))
      obtain ⟨valid, old, watched⟩ := ok.write active
      have stored := h.storeWrite he valid { e.writeCtx with events := events } rfl
      cases modified with
      | false => exact stored
      | true =>
        have modifies : (s.kernel.modify e.writeCtx.fd events).interest e.writeCtx.fd =
            some { events := events, ptr := .ctx fd e.node .write } := by
          refine (Function.update_self _ _ _).trans ?_
          rw [watched]
          rfl
        have rewritten := h.watchWrite he valid { e.writeCtx with events := events } rfl
          (s.kernel.modify e.writeCtx.fd events) rfl (fun y ne => Function.update_of_ne ne _ _)
          events modifies
        rw [← active] at rewritten
        exact rewritten.of_same rfl rfl rfl

/-! ## Callers' descriptors -/

/-- What the kernel has at a descriptor of nobody's or of a caller's may change, if no entry reads
from it. -/
theorem foreignFd (h : Agree s) {x : Int} {k : Kernel} (valid : x ≠ -1)
    (foreign : s.foreign x) (unread : ∀ e, s.fdEntries x = some e → e.readActive = false)
    (fds : ∀ y, y ≠ x → k.fds y = s.kernel.fds y)
    (interest : ∀ y w, k.interest y = some w → s.kernel.interest y = some w)
    (other : ∀ y, y ≠ x → k.interest y = s.kernel.interest y) : Agree (s.withKernel k) := by
  have notEvent : s.eventFd ≠ x := by
    rintro rfl
    rcases foreign with free | caller
    · exact absurd (free.symm.trans h.owner) (by intro hc; cases hc)
    · exact absurd (caller.symm.trans h.owner) (by intro hc; cases hc)
  refine
    { entries := fun fd e he => ?_
      watches := fun y w hw => h.watches y w (interest y w hw)
      event := ?_
      owner := (fds _ notEvent).trans h.owner
      invalid := (fds _ (Ne.symm valid)).trans h.invalid }
  · have ok := h.entries fd e he
    have readApart : e.readActive = true → fd ≠ x := by
      rintro active rfl
      rw [unread e he] at active
      cases active
    have writeApart : e.writeCtx.fd ≠ -1 → e.writeCtx.fd ≠ x := by
      rintro valid rfl
      have dup := ok.duplicate valid
      rcases foreign with free | caller
      · exact absurd (free.symm.trans dup) (by intro hc; cases hc)
      · exact absurd (caller.symm.trans dup) (by intro hc; cases hc)
    refine ⟨fun active => ?_, fun active => ?_, fun valid => ?_⟩
    · obtain ⟨own, caller, events, watched⟩ := ok.read active
      exact ⟨own, (fds _ (readApart active)).trans caller, events,
        (other _ (readApart active)).trans watched⟩
    · obtain ⟨valid, events, watched⟩ := ok.write active
      exact ⟨valid, events, (other _ (writeApart valid)).trans watched⟩
    · exact (fds _ (writeApart valid)).trans (ok.duplicate valid)
  · obtain ⟨events, watched⟩ := h.event
    exact ⟨events, (other _ notEvent).trans watched⟩

theorem openFd (h : Agree s) {fd : Int} (allowed : s.allows (.openFd fd)) :
    Agree (s.perform (.openFd fd)) := by
  obtain ⟨valid, free⟩ := allowed
  refine h.foreignFd (x := fd) (by omega) (.inl free) (fun e he => ?_)
    (fun y ne => Function.update_of_ne ne _ _) (fun _ _ hw => hw) (fun _ _ => rfl)
  rw [← Bool.not_eq_true]
  intro active
  obtain ⟨-, caller, -⟩ := (h.entries fd e he).read active
  exact absurd (free.symm.trans caller) (by intro hc; cases hc)

theorem closeFd (h : Agree s) {fd : Int} (allowed : s.allows (.closeFd fd)) :
    Agree (s.perform (.closeFd fd)) := by
  obtain ⟨caller, removed⟩ := allowed
  have valid : fd ≠ -1 := by
    rintro rfl
    exact absurd (h.invalid.symm.trans caller) (by intro hc; cases hc)
  have kept : ∀ y w, (s.kernel.close fd).interest y = some w → s.kernel.interest y = some w := by
    intro y w hw
    by_cases same : y = fd
    · subst same
      exact absurd ((Function.update_self _ _ _).symm.trans hw) (by intro hc; cases hc)
    · exact (Function.update_of_ne same _ _).symm.trans hw
  refine h.foreignFd (x := fd) valid (.inr caller) (fun e he => ?_)
    (fun y ne => Function.update_of_ne ne _ _) kept (fun y ne => Function.update_of_ne ne _ _)
  rw [he] at removed
  exact Bool.not_eq_true' _ ▸ removed

/-- **Every call keeps the agreement.** -/
theorem call (h : Agree s) {op : Op κ} {s' : Reactor κ} (step : s.call op = some s') :
    Agree s' := by
  obtain ⟨allowed, performed⟩ := Option.ite_none_right_eq_some.mp step
  obtain rfl := Option.some.inj performed
  cases op with
  | openFd fd => exact h.openFd allowed
  | closeFd fd => exact h.closeFd allowed
  | addRead fd events cb added => exact h.addRead allowed
  | remRead fd => exact h.remRead fd
  | addWrite fd cb dupFd added => exact h.addWrite allowed
  | remWrite fd => exact h.remWrite fd
  | reqWrite fd events modified => exact h.reqWrite fd events modified

end Agree

end Bfc.EpollReactor
