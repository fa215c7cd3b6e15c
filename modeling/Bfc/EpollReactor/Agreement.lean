import Bfc.EpollReactor.Table

/-!
# The kernel and the map agree

`Agree s` is the correspondence between the interest set and `m_fd_entries`: a registered direction
is watched with the pointer to its own context, and whatever is watched, the eventfd apart, is such
a direction. Descriptors keep the parties apart. A read watches a descriptor of the caller's, a
write the duplicate made for its entry, so a call for one descriptor never touches what another
entry watches. That is `Agree.put`, from which the calls follow one by one.
-/

namespace Bfc.EpollReactor

variable {κ : Type*}

/-- An entry, as the kernel has it: the descriptor of a read is its own and the caller's, that of a
write its duplicate, and both are watched while they are registered. -/
structure EntryOk (k : Kernel) (fd : Int) (e : FdEntry κ) : Prop where
  read : e.readActive = true →
    e.readCtx.fd = fd ∧ k.fds fd = some .caller ∧
      ∃ events, k.interest fd = some { events := events, ptr := .ctx fd e.node .read }
  write : e.writeActive = true →
    e.writeCtx.fd ≠ -1 ∧
      ∃ events, k.interest e.writeCtx.fd = some { events := events, ptr := .ctx fd e.node .write }
  duplicate : e.writeCtx.fd ≠ -1 → k.fds e.writeCtx.fd = some (.duplicate fd)

/-- A duplicate is no descriptor of the caller's. -/
theorem EntryOk.write_ne {k : Kernel} {fd x : Int} {e : FdEntry κ} (ok : EntryOk k fd e)
    (caller : k.fds x = some .caller) (valid : e.writeCtx.fd ≠ -1) : e.writeCtx.fd ≠ x := by
  rintro rfl
  rw [ok.duplicate valid] at caller
  cases caller

/-- What a watched descriptor's pointer points to. -/
def WatchOk (s : Reactor κ) (x : Int) (ptr : Ptr) : Prop :=
  match ptr with
  | .eventFdCtx => x = s.eventFd
  | .ctx fd node side =>
    ∃ e, s.fdEntries fd = some e ∧ e.node = node ∧ e.active side = true ∧ (e.ctx side).fd = x

/-- The interest set is the eventfd and the registered contexts. -/
structure Agree (s : Reactor κ) : Prop where
  entries : ∀ fd e, s.fdEntries fd = some e → EntryOk s.kernel fd e
  watches : ∀ x w, s.kernel.interest x = some w → WatchOk s x w.ptr
  event : ∃ events, s.kernel.interest s.eventFd = some { events := events, ptr := .eventFdCtx }
  owner : s.kernel.fds s.eventFd = some .event
  invalid : s.kernel.fds (-1) = none

/-- A descriptor that a call for `fd` may concern: nobody's, the caller's own, or the duplicate made
for it. -/
def Concerns (k : Kernel) (fd x : Int) : Prop :=
  k.fds x = none ∨ x = fd ∧ k.fds x = some .caller ∨ k.fds x = some (.duplicate fd)

variable {s s' : Reactor κ}

/-- Nothing else matters. -/
theorem Agree.of_same (h : Agree s) (entries : s'.fdEntries = s.fdEntries)
    (kernel : s'.kernel = s.kernel) (eventFd : s'.eventFd = s.eventFd) : Agree s' where
  entries := by rw [entries, kernel]; exact h.entries
  watches := by
    intro x w hw
    rw [kernel] at hw
    have ok := h.watches x w hw
    unfold WatchOk at ok ⊢
    rw [entries, eventFd]
    exact ok
  event := by rw [kernel, eventFd]; exact h.event
  owner := by rw [kernel, eventFd]; exact h.owner
  invalid := by rw [kernel]; exact h.invalid

/-! ## Descriptors keep entries apart -/

namespace Agree

/-- What a call for `fd` concerns is neither the eventfd nor of use to another entry. -/
theorem apart (h : Agree s) {fd x : Int} (concerns : Concerns s.kernel fd x) :
    x ≠ s.eventFd ∧ ∀ fd' e, fd' ≠ fd → s.fdEntries fd' = some e →
      (e.readActive = true → fd' ≠ x) ∧ (e.writeCtx.fd ≠ -1 → e.writeCtx.fd ≠ x) := by
  have owner := h.owner
  constructor
  · rintro rfl
    rcases concerns with hx | ⟨-, hx⟩ | hx <;> rw [owner] at hx <;> cases hx
  · intro fd' e ne he
    have ok := h.entries fd' e he
    constructor
    · rintro active rfl
      obtain ⟨-, caller, -⟩ := ok.read active
      rcases concerns with hx | ⟨rfl, -⟩ | hx
      · rw [caller] at hx
        cases hx
      · exact ne rfl
      · rw [caller] at hx
        cases hx
    · rintro valid rfl
      have dup := ok.duplicate valid
      rcases concerns with hx | ⟨-, hx⟩ | hx <;> rw [dup] at hx
      · cases hx
      · cases hx
      · exact ne (Owner.duplicate.inj (Option.some.inj hx))

/-- Another entry is as good with what the kernel has now. -/
theorem entryOk_other (h : Agree s) {fd x : Int} {k' : Kernel}
    (concerns : Concerns s.kernel fd x) (fds : ∀ y, y ≠ x → k'.fds y = s.kernel.fds y)
    (interest : ∀ y, y ≠ x → k'.interest y = s.kernel.interest y) {fd' : Int} {e : FdEntry κ}
    (ne : fd' ≠ fd) (he : s.fdEntries fd' = some e) : EntryOk k' fd' e := by
  have ok := h.entries fd' e he
  obtain ⟨readApart, writeApart⟩ := (h.apart concerns).2 fd' e ne he
  refine ⟨fun active => ?_, fun active => ?_, fun valid => ?_⟩
  · rw [fds _ (readApart active), interest _ (readApart active)]
    exact ok.read active
  · obtain ⟨valid, watched⟩ := ok.write active
    rw [interest _ (writeApart valid)]
    exact ⟨valid, watched⟩
  · rw [fds _ (writeApart valid)]
    exact ok.duplicate valid

/-- A call for a descriptor rewrites its entry, and changes what the kernel has at one descriptor
that it concerns. -/
theorem put (h : Agree s) {fd x : Int} {e' : FdEntry κ} {k' : Kernel}
    (concerns : Concerns s.kernel fd x) (valid : x ≠ -1)
    (fds : ∀ y, y ≠ x → k'.fds y = s.kernel.fds y)
    (interest : ∀ y, y ≠ x → k'.interest y = s.kernel.interest y)
    (keeps : ∀ e, s.fdEntries fd = some e → e'.node = e.node ∧
      ∀ side, e.active side = true → (e.ctx side).fd ≠ x →
        e'.active side = true ∧ (e'.ctx side).fd = (e.ctx side).fd)
    (own : EntryOk k' fd e')
    (watch : ∀ w, k'.interest x = some w →
      ∃ side, w.ptr = .ctx fd e'.node side ∧ e'.active side = true ∧ (e'.ctx side).fd = x) :
    Agree ((s.withKernel k').putEntry fd e') where
  entries fd' e he := by
    change Function.update s.fdEntries fd (some e') fd' = some e at he
    by_cases same : fd' = fd
    · subst same
      rw [Function.update_self] at he
      exact Option.some.inj he ▸ own
    · rw [Function.update_of_ne same] at he
      exact h.entryOk_other concerns fds interest same he
  watches y w hw := by
    change k'.interest y = some w at hw
    by_cases same : y = x
    · subst same
      obtain ⟨side, ptr, active, watches⟩ := watch w hw
      rw [ptr]
      exact ⟨e', Function.update_self _ _ _, rfl, active, watches⟩
    · rw [interest y same] at hw
      have ok := h.watches y w hw
      revert ok
      cases w.ptr with
      | eventFdCtx => exact id
      | ctx fd' node side =>
        rintro ⟨e, he, rfl, active, rfl⟩
        by_cases own : fd' = fd
        · subst own
          obtain ⟨node, kept⟩ := keeps e he
          obtain ⟨active', watches'⟩ := kept side active same
          exact ⟨e', Function.update_self _ _ _, node, active', watches'⟩
        · exact ⟨e, (Function.update_of_ne own _ _).trans he, rfl, active, rfl⟩
  event := by
    obtain ⟨events, he⟩ := h.event
    exact ⟨events, (interest _ (Ne.symm (h.apart concerns).1)).trans he⟩
  owner := (fds _ (Ne.symm (h.apart concerns).1)).trans h.owner
  invalid := (fds _ (Ne.symm valid)).trans h.invalid

/-- A call that asks nothing of the kernel rewrites an entry. -/
theorem putSame (h : Agree s) {fd : Int} {e' : FdEntry κ}
    (keeps : ∀ e, s.fdEntries fd = some e → e'.node = e.node ∧
      ∀ side, e.active side = true →
        e'.active side = true ∧ (e'.ctx side).fd = (e.ctx side).fd)
    (own : EntryOk s.kernel fd e') : Agree (s.putEntry fd e') := by
  -- as if it concerned the descriptor that there is not, which nothing watches
  have concerns : Concerns s.kernel fd (-1) := .inl h.invalid
  refine
    { entries := fun fd' e he => ?_
      watches := fun y w hw => ?_
      event := h.event
      owner := h.owner
      invalid := h.invalid }
  · change Function.update s.fdEntries fd (some e') fd' = some e at he
    by_cases same : fd' = fd
    · subst same
      rw [Function.update_self] at he
      exact Option.some.inj he ▸ own
    · rw [Function.update_of_ne same] at he
      exact h.entryOk_other concerns (fun _ _ => rfl) (fun _ _ => rfl) same he
  · have ok := h.watches y w hw
    revert ok
    cases w.ptr with
    | eventFdCtx => exact id
    | ctx fd' node side =>
      rintro ⟨e, he, rfl, active, rfl⟩
      by_cases own : fd' = fd
      · subst own
        obtain ⟨node, kept⟩ := keeps e he
        obtain ⟨active', watches'⟩ := kept side active
        exact ⟨e', Function.update_self _ _ _, node, active', watches'⟩
      · exact ⟨e, (Function.update_of_ne own _ _).trans he, rfl, active, rfl⟩

end Agree

end Bfc.EpollReactor
