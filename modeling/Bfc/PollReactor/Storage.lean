import Bfc.Lib.Translation
import Bfc.Function.Slots
import Bfc.PollReactor.Dispatch

/-!
# Where the poll reactor's callbacks live

`cb_t` is `bfc::function`, so a callback is in the storage of a function object: the two contexts of
a table entry, the elements of `m_retired_cbs`, and the argument of a call. This module is what the
reactor's steps do to these objects, as programs of the operations of `bfc::function`: an `add_*`
moves its argument into the context, `retire_cb` moves the context's callable into a new element of
the vector and assigns `nullptr`, and the clean-up destroys the contexts of the entries it erases
and the retired ones. A retired element keeps its place here; where the vector's own growth moves it
is of no concern to the contexts.

`storage_run` is the connection: the programs of a run can run, and what they leave are the objects
that the tables say there are, each engaged exactly if the table has a callback there.
-/

namespace Bfc.PollReactor

open Lts Bfc.Function

/-- The function objects of a reactor. -/
inductive Place where
  | ctx (key : Key)
  | retired (i : Nat)
  | argument
deriving DecidableEq

/-- What callers give. -/
abbrev Callback (ω : Type) (N : Nat) := Callable Place ω Unit Unit N

/-- An operation of a function object. -/
abbrev Effect (ω : Type) (N : Nat) := Function.Op Place ω Unit Unit N

section Held

variable {κ : Type*}

/-- The context of a kind in an entry, if there is one: whether it has a callback. -/
def Reactor.held (s : Reactor κ) (fd : Int) (k : PollKind) : Option Bool :=
  (s.fdEntries fd).map fun e => (e.ctxOf k).cb.isSome

/-- The function objects there are, and whether each is engaged. -/
def Reactor.filled (s : Reactor κ) : Shape Place
  | .ctx (_, .wake) => none
  | .ctx (fd, .read) => s.held fd .read
  | .ctx (fd, .write) => s.held fd .write
  | .retired i => s.retiredCbs[i]?.map fun _ => true
  | .argument => none

end Held

/-! ## What the steps do to function objects -/

section Programs

variable {ω : Type} {N : Nat}

/-- The removals: `retire_cb` of the context, if it is registered. -/
def Reactor.removal (s : Reactor (Callback ω N)) (fd : Int) (k : PollKind) : List (Effect ω N) :=
  match s.fdEntries fd with
  | none => []
  | some e =>
    if e.activeOf k = true ∧ (e.ctxOf k).fd ≠ -1 then
      retire (.ctx (fd, k)) (.retired s.retiredCbs.length) (e.ctxOf k).cb.isSome
    else []

/-- The context that `add_write` stores in, if it has a descriptor or `dup` answers one. -/
def Reactor.writeSlot (s : Reactor (Callback ω N)) (fd dupFd : Int) : Option Place :=
  if (if (s.entryOf fd).writeCtx.fd = -1 then dupFd else (s.entryOf fd).writeCtx.fd) = -1 then none
  else some (.ctx (fd, .write))

/-- What a call does. -/
def Reactor.callEffects (s : Reactor (Callback ω N)) : Op (Callback ω N) → List (Effect ω N)
  | .addRead fd _ cb =>
    addition (.ctx (fd, .read)) (.ctx (fd, .write)) .argument (s.fdEntries fd).isSome cb
      (some (.ctx (fd, .read)))
  | .remRead fd => s.removal fd .read
  | .addWrite fd cb dupFd =>
    addition (.ctx (fd, .read)) (.ctx (fd, .write)) .argument (s.fdEntries fd).isSome cb
      (s.writeSlot fd dupFd)
  | .remWrite fd => s.removal fd .write
  | .reqWrite .. => []

/-- One round of the clean-up loop: an entry is erased with its contexts. -/
def Reactor.erasure (s : Reactor (Callback ω N)) (fd : Int) : List (Effect ω N) :=
  match s.fdEntries fd with
  | none => []
  | some e =>
    if !e.readActive && !e.writeActive then
      [.destroy (.ctx (fd, .read)), .destroy (.ctx (fd, .write))]
    else []

/-- What a step does. A callback that is invoked is called before it makes its own calls. -/
def Reactor.effects (s : Reactor (Callback ω N)) : Event (Callback ω N) → List (Effect ω N)
  | .call op => s.callEffects op
  | .poll => []
  | .visit pos revents =>
    match s.dispatch[pos]? with
    | none => []
    | some item => if (s.dispatchItem item revents).2.isSome then [.call (.ctx item.key) ()] else []
  | .cleanup =>
    programs (fun t fd => some (Reactor.cleanupFd t fd)) Reactor.erasure s s.pendingCleanup ++
      (List.range s.retiredCbs.length).map fun i => .destroy (.retired i)

/-- What the steps do, one after the other. -/
def Reactor.storage (s : Reactor (Callback ω N)) (events : List (Event (Callback ω N))) :
    List (Effect ω N) :=
  programs (fun t event => some (Reactor.step t event)) Reactor.effects s events

end Programs

/-! ## What the helpers leave alone -/

section Leaves

variable {κ : Type*} {s s' s'' : Reactor κ}

/-- A step on the poll vector changes no callback and no snapshot. -/
structure Leaves (s s' : Reactor κ) : Prop where
  held : ∀ fd k, s'.held fd k = s.held fd k
  retired : s'.retiredCbs = s.retiredCbs
  dispatch : s'.dispatch = s.dispatch

theorem Leaves.refl (s : Reactor κ) : Leaves s s := ⟨fun _ _ => rfl, rfl, rfl⟩

theorem Leaves.trans (h : Leaves s s') (h' : Leaves s' s'') : Leaves s s'' where
  held fd k := (h'.held fd k).trans (h.held fd k)
  retired := h'.retired.trans h.retired
  dispatch := h'.dispatch.trans h.dispatch

theorem Leaves.of_table (table : s'.fdEntries = s.fdEntries)
    (retired : s'.retiredCbs = s.retiredCbs) (dispatch : s'.dispatch = s.dispatch) :
    Leaves s s' where
  held fd k := by rw [Reactor.held, Reactor.held, table]
  retired := retired
  dispatch := dispatch

theorem Leaves.filled (h : Leaves s s') : s'.filled = s.filled := by
  ext p : 1
  rcases p with ⟨fd, k⟩ | i | _
  · cases k with
    | wake => rfl
    | read => exact h.held fd .read
    | write => exact h.held fd .write
  · simp only [Reactor.filled, h.retired]
  · rfl

theorem setPollEntry_leaves (s : Reactor κ) (index : Option Nat) (fd : Int) (events : BitVec 16) :
    Leaves s (s.setPollEntry index fd events) := by
  unfold Reactor.setPollEntry
  split
  · exact .of_table rfl rfl rfl
  · exact .of_table rfl rfl rfl

theorem setPollEvents_leaves (s : Reactor κ) (index : Option Nat) (events : BitVec 16) :
    Leaves s (s.setPollEvents index events) := by
  unfold Reactor.setPollEvents
  split
  · exact .of_table rfl rfl rfl
  · exact .of_table rfl rfl rfl

theorem addPollEntry_leaves (s : Reactor κ) (watched owner : Int) (kind : PollKind)
    (events : BitVec 16) : Leaves s (s.addPollEntry watched owner kind events).1 :=
  .of_table rfl rfl rfl

theorem putEntry_held (s : Reactor κ) (fd : Int) (e : FdEntry κ) (fd' : Int) (k : PollKind) :
    (s.putEntry fd e).held fd' k =
      if fd' = fd then some (e.ctxOf k).cb.isSome else s.held fd' k := by
  unfold Reactor.held Reactor.putEntry
  by_cases same : fd' = fd
  · simp [same]
  · simp [same]

theorem updatePollIndex_leaves (s : Reactor κ) (fd : Int) (kind : PollKind) (i : Nat) :
    Leaves s (s.updatePollIndex fd kind i) := by
  have indexed : ∀ e e' : FdEntry κ, s.fdEntries fd = some e → (∀ k, e'.ctxOf k = e.ctxOf k) →
      Leaves s (s.putEntry fd e') := by
    intro e e' he same
    refine ⟨fun fd' k => ?_, rfl, rfl⟩
    rw [putEntry_held]
    split
    · rename_i own
      rw [own, Reactor.held, he, same k, Option.map_some]
    · rfl
  unfold Reactor.updatePollIndex
  split
  · exact .refl s
  · rename_i e he
    split
    · exact indexed e _ he fun k => by cases k <;> rfl
    · exact indexed e _ he fun k => by cases k <;> rfl
    · exact .refl s

theorem removePollEntryByIndex_leaves (s : Reactor κ) (index : Option Nat) :
    Leaves s (s.removePollEntryByIndex index) := by
  unfold Reactor.removePollEntryByIndex
  split
  · exact .of_table rfl rfl rfl
  · split
    · exact .refl s
    · rename_i i _ _ _ moved _
      dsimp only
      have set : Leaves s { s with pollEntries := s.pollEntries.set i moved } :=
        .of_table rfl rfl rfl
      split
      · exact (set.trans (updatePollIndex_leaves _ moved.ownerFd moved.kind i)).trans
          (.of_table rfl rfl rfl)
      · exact .of_table rfl rfl rfl

theorem notePending_leaves (s : Reactor κ) (fd : Int) : Leaves s (s.notePending fd) := by
  unfold Reactor.notePending
  split
  · exact .refl s
  · split
    · exact .of_table rfl rfl rfl
    · exact .refl s

theorem dispatchItem_leaves (s : Reactor κ) (item : PollEntry) (revents : BitVec 16) :
    Leaves s (s.dispatchItem item revents).1 := by
  unfold Reactor.dispatchItem
  split
  · exact .refl s
  · split
    · exact .refl s
    · split
      · exact .refl s
      · split
        · exact .refl s
        · exact .refl s
    · split
      · exact .refl s
      · split
        · exact setPollEvents_leaves ..
        · exact .refl s

/-! ## What the calls change -/

/-- The entry of one descriptor becomes this, and nothing else changes that holds a callback. -/
structure Writes (s s' : Reactor κ) (fd : Int) (e : FdEntry κ) : Prop where
  held : ∀ fd' k, s'.held fd' k = if fd' = fd then some (e.ctxOf k).cb.isSome else s.held fd' k
  retired : s'.retiredCbs = s.retiredCbs
  dispatch : s'.dispatch = s.dispatch

theorem Writes.putEntry (h : Leaves s s') (fd : Int) (e : FdEntry κ) :
    Writes s (s'.putEntry fd e) fd e where
  held fd' k := by rw [putEntry_held, h.held]
  retired := h.retired
  dispatch := h.dispatch

theorem Writes.leaves {fd : Int} {e : FdEntry κ} (h : Writes s s' fd e) (h' : Leaves s' s'') :
    Writes s s'' fd e where
  held fd' k := (h'.held fd' k).trans (h.held fd' k)
  retired := h'.retired.trans h.retired
  dispatch := h'.dispatch.trans h.dispatch

theorem addRead_writes (s : Reactor κ) (fd : Int) (events : BitVec 32) (cb : Option κ) :
    ∃ e, Writes s (s.addRead fd events cb).1 fd e ∧ e.readCtx.cb = cb ∧
      e.writeCtx.cb = (s.entryOf fd).writeCtx.cb := by
  unfold Reactor.addRead
  dsimp only
  split
  · exact ⟨_, .putEntry (addPollEntry_leaves s fd fd .read (events.setWidth 16)) fd _, rfl, rfl⟩
  · exact ⟨_, (Writes.putEntry (.refl s) fd _).leaves (setPollEntry_leaves ..), rfl, rfl⟩

theorem addWrite_writes (s : Reactor κ) (fd : Int) (cb : Option κ) (dupFd : Int) :
    ∃ e, Writes s (s.addWrite fd cb dupFd).1 fd e ∧
      e.readCtx.cb = (s.entryOf fd).readCtx.cb ∧
      e.writeCtx.cb =
        if (if (s.entryOf fd).writeCtx.fd = -1 then dupFd else (s.entryOf fd).writeCtx.fd) = -1
          then (s.entryOf fd).writeCtx.cb else cb := by
  obtain ⟨x, hx⟩ : ∃ x, (if (s.entryOf fd).writeCtx.fd = -1 then dupFd
      else (s.entryOf fd).writeCtx.fd) = x := ⟨_, rfl⟩
  have named : (if (Reactor.named fd (s.entryOf fd)).writeCtx.fd = -1 then dupFd
      else (Reactor.named fd (s.entryOf fd)).writeCtx.fd) = x := hx
  simp only [Reactor.addWrite, named, hx]
  by_cases closed : x = -1
  · rw [if_pos closed, if_pos closed]
    exact ⟨_, .putEntry (.refl s) fd _, rfl, rfl⟩
  · rw [if_neg closed, if_neg closed]
    by_cases fresh : (Reactor.named fd (s.entryOf fd)).writePollIndex = none
    · rw [if_pos fresh]
      exact ⟨_, .putEntry (addPollEntry_leaves s x fd .write 0) fd _, rfl, rfl⟩
    · rw [if_neg fresh]
      exact ⟨_, (Writes.putEntry (.refl s) fd _).leaves (setPollEntry_leaves ..), rfl, rfl⟩

/-- What a removal changes that holds a callback. -/
structure Clears (s s' : Reactor κ) (fd : Int) (k : PollKind) (cb : Option κ) : Prop where
  held : ∀ fd' k', s'.held fd' k' =
    if fd' = fd ∧ k' = k then (s.held fd k).map fun _ => false else s.held fd' k'
  retired : s'.retiredCbs = s.retiredCbs ++ cb.toList
  dispatch : s'.dispatch = s.dispatch

theorem clear_held (s : Reactor κ) (fd : Int) {k : PollKind} (hk : k ≠ .wake) (fd' : Int)
    (k' : PollKind) : (s.modifyEntry fd fun e => e.clear k).held fd' k' =
      if fd' = fd ∧ k' = k then (s.held fd k).map fun _ => false else s.held fd' k' := by
  show (Function.update s.fdEntries fd _ fd').map _ = _
  by_cases same : fd' = fd
  · subst same
    rw [Function.update_self, Option.map_map]
    unfold Reactor.held
    by_cases own : k' = k
    · subst own
      rw [if_pos ⟨rfl, rfl⟩, Option.map_map]
      congr 1
      ext e : 1
      cases k' with
      | wake => exact absurd rfl hk
      | read => rfl
      | write => rfl
    · rw [if_neg fun hc => own hc.2]
      congr 1
      ext e : 1
      rw [Function.comp, FdEntry.clear_ctxOf_ne e own]
  · rw [Function.update_of_ne same, if_neg fun hc => same hc.1]
    rfl

theorem Clears.of_removal {t : Reactor κ} (h : Leaves s t) (fd : Int) {k : PollKind}
    (hk : k ≠ .wake) (cb : Option κ) :
    Clears s ((t.retireCb cb).modifyEntry fd fun e => e.clear k) fd k cb where
  held fd' k' := by
    have same : ∀ fd k, (t.retireCb cb).held fd k = s.held fd k := by
      intro fd k
      rw [← h.held, Reactor.held, Reactor.held, retireCb_eq]
    rw [clear_held _ fd hk, same, same]
  retired := by
    show (t.retireCb cb).retiredCbs = _
    rw [retireCb_eq, h.retired]
  dispatch := by
    show (t.retireCb cb).dispatch = _
    rw [retireCb_eq, h.dispatch]

theorem Clears.leaves {fd : Int} {k : PollKind} {cb : Option κ} (h : Clears s s' fd k cb)
    (h' : Leaves s' s'') : Clears s s'' fd k cb where
  held fd' k' := (h'.held fd' k').trans (h.held fd' k')
  retired := h'.retired.trans h.retired
  dispatch := h'.dispatch.trans h.dispatch

/-- What a removal does: it clears a context that is registered, and does nothing else. -/
def Removal (s s' : Reactor κ) (fd : Int) (k : PollKind) : Prop :=
  (∃ e, s.fdEntries fd = some e ∧ (e.activeOf k = true ∧ (e.ctxOf k).fd ≠ -1) ∧
    Clears s s' fd k (e.ctxOf k).cb) ∨
  (∀ e, s.fdEntries fd = some e → ¬(e.activeOf k = true ∧ (e.ctxOf k).fd ≠ -1)) ∧ Leaves s s'

theorem remRead_removal (s : Reactor κ) (fd : Int) : Removal s (s.remRead fd).1 fd .read := by
  unfold Reactor.remRead
  cases he : s.fdEntries fd with
  | none => exact .inr ⟨fun e hs => absurd (he.symm.trans hs) (by simp), .refl s⟩
  | some e =>
    dsimp only
    by_cases registered : e.readActive = true ∧ e.readCtx.fd ≠ -1
    · rw [if_pos registered]
      exact .inl ⟨e, he, registered,
        (Clears.of_removal (removePollEntryByIndex_leaves s e.readPollIndex) fd (by decide)
          e.readCtx.cb).leaves (notePending_leaves _ fd)⟩
    · rw [if_neg registered]
      refine .inr ⟨fun e' hs => ?_, notePending_leaves s fd⟩
      rw [← Option.some.inj (he.symm.trans hs)]
      exact registered

theorem remWrite_removal (s : Reactor κ) (fd : Int) : Removal s (s.remWrite fd).1 fd .write := by
  unfold Reactor.remWrite
  cases he : s.fdEntries fd with
  | none => exact .inr ⟨fun e hs => absurd (he.symm.trans hs) (by simp), .refl s⟩
  | some e =>
    dsimp only
    by_cases registered : e.writeActive = true ∧ e.writeCtx.fd ≠ -1
    · rw [if_pos registered]
      have closes : Leaves s { s.removePollEntryByIndex e.writePollIndex with
          closed := (s.removePollEntryByIndex e.writePollIndex).closed ++ [e.writeCtx.fd] } :=
        (removePollEntryByIndex_leaves s e.writePollIndex).trans (.of_table rfl rfl rfl)
      exact .inl ⟨e, he, registered,
        (Clears.of_removal closes fd (by decide) e.writeCtx.cb).leaves (notePending_leaves _ fd)⟩
    · rw [if_neg registered]
      refine .inr ⟨fun e' hs => ?_, notePending_leaves s fd⟩
      rw [← Option.some.inj (he.symm.trans hs)]
      exact registered

theorem Removal.dispatch {fd : Int} {k : PollKind} (h : Removal s s' fd k) :
    s'.dispatch = s.dispatch := by
  rcases h with ⟨e, -, -, clears⟩ | ⟨-, leaves⟩
  · exact clears.dispatch
  · exact leaves.dispatch

theorem reqWrite_leaves (s : Reactor κ) (fd : Int) (events : BitVec 32) :
    Leaves s (s.reqWrite fd events).1 := by
  unfold Reactor.reqWrite
  split
  · exact .refl s
  · split
    · exact .refl s
    · exact setPollEvents_leaves ..

/-- The snapshot of a pass is the same throughout. -/
theorem call_dispatch (s : Reactor κ) (op : Op κ) : (s.call op).1.dispatch = s.dispatch := by
  cases op with
  | addRead fd events cb =>
    obtain ⟨e, writes, -⟩ := addRead_writes s fd events cb
    exact writes.dispatch
  | remRead fd => exact (remRead_removal s fd).dispatch
  | addWrite fd cb dupFd =>
    obtain ⟨e, writes, -⟩ := addWrite_writes s fd cb dupFd
    exact writes.dispatch
  | remWrite fd => exact (remWrite_removal s fd).dispatch
  | reqWrite fd events => exact (reqWrite_leaves s fd events).dispatch

/-! ## What the tables say there is -/

theorem filled_ctx (s : Reactor κ) (fd : Int) {k : PollKind} (hk : k ≠ .wake) :
    s.filled (.ctx (fd, k)) = s.held fd k := by
  cases k with
  | wake => exact absurd rfl hk
  | read => rfl
  | write => rfl

/-- An entry that is looked up has the callbacks it had, and none if it is made. -/
theorem held_entryOf (s : Reactor κ) (fd : Int) (k : PollKind) :
    (s.held fd k).getD false = ((s.entryOf fd).ctxOf k).cb.isSome := by
  unfold Reactor.held Reactor.entryOf
  cases s.fdEntries fd with
  | none => cases k <;> simp [FdEntry.ctxOf]
  | some e => simp

/-- The two contexts of an entry. -/
theorem filled_present (s : Reactor κ) (fd : Int) (a : Place)
    (slot : a = .ctx (fd, .read) ∨ a = .ctx (fd, .write)) :
    (s.filled a).isSome = (s.fdEntries fd).isSome := by
  rcases slot with rfl | rfl
  · simp [Reactor.filled, Reactor.held]
  · simp [Reactor.filled, Reactor.held]

theorem Writes.filled {fd : Int} {e : FdEntry κ} {cb : Option κ} {slot : Option Place}
    (h : Writes s s' fd e) (own : ∀ a, slot = some a → a = .ctx (fd, .read) ∨ a = .ctx (fd, .write))
    (stored : ∀ k, k ≠ .wake → (e.ctxOf k).cb.isSome =
      if slot = some (.ctx (fd, k)) then cb.isSome else ((s.entryOf fd).ctxOf k).cb.isSome) :
    s'.filled = fun b => if slot = some b then some cb.isSome
      else s.filled.entered (.ctx (fd, .read)) (.ctx (fd, .write)) b := by
  have context : ∀ fd' k, k ≠ .wake → s'.filled (.ctx (fd', k)) =
      if slot = some (.ctx (fd', k)) then some cb.isSome
      else s.filled.entered (.ctx (fd, .read)) (.ctx (fd, .write)) (.ctx (fd', k)) := by
    intro fd' k hk
    rw [filled_ctx s' fd' hk, h.held]
    by_cases same : fd' = fd
    · subst same
      have mine :
          Place.ctx (fd', k) = .ctx (fd', .read) ∨ Place.ctx (fd', k) = .ctx (fd', .write) := by
        cases k with
        | wake => exact absurd rfl hk
        | read => exact .inl rfl
        | write => exact .inr rfl
      rw [if_pos rfl, stored k hk, Shape.entered, if_pos mine, filled_ctx s fd' hk, held_entryOf]
      split <;> rfl
    · have others :
          ¬(Place.ctx (fd', k) = .ctx (fd, .read) ∨ Place.ctx (fd', k) = .ctx (fd, .write)) := by
        simp [same]
      rw [if_neg same, Shape.entered, if_neg others, if_neg fun hs => others (own _ hs),
        filled_ctx s fd' hk]
  ext p : 1
  rcases p with ⟨fd', k⟩ | i | _
  · cases k with
    | wake =>
      rw [if_neg fun hs => by simpa using own _ hs, Shape.entered, if_neg (by simp)]
      rfl
    | read => exact context fd' .read (by decide)
    | write => exact context fd' .write (by decide)
  · rw [if_neg fun hs => by simpa using own _ hs, Shape.entered, if_neg (by simp)]
    simp only [Reactor.filled, h.retired]
  · rw [if_neg fun hs => by simpa using own _ hs, Shape.entered, if_neg (by simp)]
    rfl

theorem Clears.filled {fd : Int} {k : PollKind} {cb : Option κ} (h : Clears s s' fd k cb)
    (hk : k ≠ .wake) (there : s.held fd k = some cb.isSome) :
    s'.filled = (if cb.isSome then s.filled.put (.retired s.retiredCbs.length) true
      else s.filled).put (.ctx (fd, k)) false := by
  have context : ∀ fd' k', k' ≠ .wake → s'.filled (.ctx (fd', k')) =
      if Place.ctx (fd', k') = .ctx (fd, k) then some false else s.filled (.ctx (fd', k')) := by
    intro fd' k' hk'
    rw [filled_ctx s' fd' hk', h.held, there, Option.map_some, filled_ctx s fd' hk']
    simp only [Place.ctx.injEq, Prod.mk.injEq]
  ext p : 1
  rw [Shape.put_apply]
  rcases p with ⟨fd', k'⟩ | i | _
  · have rest : (if cb.isSome then s.filled.put (.retired s.retiredCbs.length) true
        else s.filled) (.ctx (fd', k')) = s.filled (.ctx (fd', k')) := by
      split <;> simp [Shape.put_apply]
    rw [rest]
    cases k' with
    | wake =>
      rw [if_neg (by simp [Ne.symm hk])]
      rfl
    | read => exact context fd' .read (by decide)
    | write => exact context fd' .write (by decide)
  · rw [if_neg (by simp)]
    simp only [Reactor.filled, h.retired]
    cases cb with
    | none => simp [Reactor.filled]
    | some c =>
      simp only [Option.toList_some, Option.isSome_some, if_true, Shape.put_apply,
        Place.retired.injEq, Reactor.filled]
      by_cases new : i = s.retiredCbs.length
      · simp [new]
      · rw [if_neg new]
        rcases Nat.lt_or_gt_of_ne new with lt | gt
        · rw [List.getElem?_append_left lt]
        · rw [List.getElem?_eq_none (by simp; omega), List.getElem?_eq_none (by omega)]
  · rw [if_neg (by simp)]
    split <;> simp [Shape.put_apply, Reactor.filled]

end Leaves

/-! ## The programs can run -/

section Run

variable {ω : Type} {N : Nat} {s s' : Reactor (Callback ω N)}

/-- A removal's program. -/
theorem Removal.run {fd : Int} {k : PollKind} (h : Removal s s' fd k) (hk : k ≠ .wake) :
    (s.removal fd k).foldlM Shape.step s.filled = some s'.filled := by
  unfold Reactor.removal
  rcases h with ⟨e, he, registered, clears⟩ | ⟨idle, leaves⟩
  · have there : s.held fd k = some (e.ctxOf k).cb.isSome := by
      rw [Reactor.held, he, Option.map_some]
    rw [he]
    dsimp only
    rw [if_pos registered, Shape.retire_run, clears.filled hk there]
    · rw [filled_ctx s fd hk, there]
    · simp [Reactor.filled]
  · rw [leaves.filled]
    cases he : s.fdEntries fd with
    | none => rfl
    | some e =>
      dsimp only
      rw [if_neg (idle e he)]
      rfl

theorem writeSlot_eq {fd dupFd : Int} {a : Place} (h : s.writeSlot fd dupFd = some a) :
    a = .ctx (fd, .write) := by
  unfold Reactor.writeSlot at h
  by_cases closed : (if (s.entryOf fd).writeCtx.fd = -1 then dupFd
      else (s.entryOf fd).writeCtx.fd) = -1
  · rw [if_pos closed] at h
    cases h
  · rw [if_neg closed] at h
    exact (Option.some.inj h).symm

theorem call_run (s : Reactor (Callback ω N)) (op : Op (Callback ω N)) :
    (s.callEffects op).foldlM Shape.step s.filled = some (s.call op).1.filled := by
  cases op with
  | addRead fd events cb =>
    obtain ⟨e, writes, read, write⟩ := addRead_writes s fd events cb
    have own : ∀ a, some (Place.ctx (fd, .read)) = some a →
        a = .ctx (fd, .read) ∨ a = .ctx (fd, .write) := fun a ha => .inl (Option.some.inj ha).symm
    have stored : ∀ k, k ≠ .wake → (e.ctxOf k).cb.isSome =
        if some (Place.ctx (fd, .read)) = some (.ctx (fd, k)) then cb.isSome
        else ((s.entryOf fd).ctxOf k).cb.isSome := by
      intro k hk
      cases k with
      | wake => exact absurd rfl hk
      | read => simp [FdEntry.ctxOf, read]
      | write => simp [FdEntry.ctxOf, write]
    rw [Reactor.callEffects, Shape.addition_run (by simp) rfl ⟨by simp, by simp⟩
      (filled_present s fd) cb own]
    exact congrArg some (writes.filled own stored).symm
  | remRead fd => exact (remRead_removal s fd).run (by decide)
  | addWrite fd cb dupFd =>
    obtain ⟨e, writes, read, write⟩ := addWrite_writes s fd cb dupFd
    have own : ∀ a, s.writeSlot fd dupFd = some a →
        a = .ctx (fd, .read) ∨ a = .ctx (fd, .write) := by
      intro a ha
      exact .inr (writeSlot_eq ha)
    have stored : ∀ k, k ≠ .wake → (e.ctxOf k).cb.isSome =
        if s.writeSlot fd dupFd = some (.ctx (fd, k)) then cb.isSome
        else ((s.entryOf fd).ctxOf k).cb.isSome := by
      intro k hk
      cases k with
      | wake => exact absurd rfl hk
      | read =>
        rw [if_neg fun hs => by simpa using writeSlot_eq hs]
        exact congrArg Option.isSome read
      | write =>
        rw [show (e.ctxOf .write).cb = e.writeCtx.cb from rfl, write]
        unfold Reactor.writeSlot
        by_cases closed : (if (s.entryOf fd).writeCtx.fd = -1 then dupFd
            else (s.entryOf fd).writeCtx.fd) = -1
        · simp only [if_pos closed, reduceCtorEq, if_false, FdEntry.ctxOf]
        · simp only [if_neg closed, if_true]
    rw [Reactor.callEffects, Shape.addition_run (by simp) rfl ⟨by simp, by simp⟩
      (filled_present s fd) cb own]
    exact congrArg some (writes.filled own stored).symm
  | remWrite fd => exact (remWrite_removal s fd).run (by decide)
  | reqWrite fd events => exact congrArg some (reqWrite_leaves s fd events).filled.symm

/-! ### The clean-up -/

theorem cleanupFd_run (s : Reactor (Callback ω N)) (fd : Int) :
    (s.erasure fd).foldlM Shape.step s.filled = some (s.cleanupFd fd).filled := by
  unfold Reactor.erasure Reactor.cleanupFd
  cases he : s.fdEntries fd with
  | none => rfl
  | some e =>
    dsimp only
    split
    · have read : s.filled (.ctx (fd, .read)) = some e.readCtx.cb.isSome := by
        simp [Reactor.filled, Reactor.held, he, FdEntry.ctxOf]
      have write : s.filled (.ctx (fd, .write)) = some e.writeCtx.cb.isSome := by
        simp [Reactor.filled, Reactor.held, he, FdEntry.ctxOf]
      have write' : Function.update s.filled (.ctx (fd, .read)) none (.ctx (fd, .write)) =
          some e.writeCtx.cb.isSome := (Function.update_of_ne (by simp) _ _).trans write
      simp only [List.foldlM_cons, List.foldlM_nil, Option.pure_def, Option.bind_eq_bind,
        Option.bind_some, Shape.step, read, write', Option.some.injEq]
      ext p : 1
      rcases p with ⟨fd', k⟩ | i | _
      · by_cases same : fd' = fd
        · subst same
          cases k <;> simp [Reactor.filled, Reactor.held]
        · cases k <;> simp [Reactor.filled, Reactor.held, same]
      · simp [Reactor.filled]
      · simp [Reactor.filled]
    · rfl

theorem cleanupFd_same (s : Reactor (Callback ω N)) (fd : Int) :
    (s.cleanupFd fd).retiredCbs = s.retiredCbs := by
  unfold Reactor.cleanupFd
  split
  · rfl
  · split <;> rfl

/-- The retired callbacks are destroyed, one after the other. -/
theorem release_run {x : Shape Place} {n : Nat} (there : ∀ i, i < n → (x (.retired i)).isSome) :
    ((List.range n).map fun i => (.destroy (.retired i) : Effect ω N)).foldlM Shape.step x =
      some fun p => match p with
        | .retired i => if i < n then none else x (.retired i)
        | .ctx key => x (.ctx key)
        | .argument => x .argument := by
  induction n with
  | zero =>
    refine congrArg some ?_
    ext p : 1
    cases p <;> simp
  | succ n ih =>
    obtain ⟨engaged, last⟩ := Option.isSome_iff_exists.mp (there n (Nat.lt_succ_self n))
    rw [List.range_succ, List.map_append, List.foldlM_append,
      ih fun i hi => there i (Nat.lt_succ_of_lt hi)]
    simp only [List.map_cons, List.map_nil, List.foldlM_cons, List.foldlM_nil, Option.pure_def,
      Option.bind_eq_bind, Option.bind_some, Shape.step, Nat.lt_irrefl, if_false, last,
      Option.some.injEq]
    ext p : 1
    rw [Function.update_apply]
    cases p with
    | ctx key => simp
    | argument => simp
    | retired i =>
      simp only [Place.retired.injEq, Nat.lt_succ_iff_lt_or_eq]
      by_cases own : i = n
      · simp [own]
      · simp [own]

theorem cleanup_run (s : Reactor (Callback ω N)) :
    (s.effects .cleanup).foldlM Shape.step s.filled = some s.cleanup.filled := by
  obtain ⟨t, ht⟩ : ∃ t, s.pendingCleanup.foldl Reactor.cleanupFd s = t := ⟨_, rfl⟩
  have rounds : s.pendingCleanup.foldlM (fun t fd => some (Reactor.cleanupFd t fd)) s = some t :=
    List.foldlM_pure.trans (congrArg some ht)
  have erased := programs_run (g := Shape.step) (e := Reactor.filled) (p := Reactor.erasure)
    (fun {s fd t} step => by
      obtain rfl := Option.some.inj step
      exact cleanupFd_run s fd) rounds
  have retired : t.retiredCbs = s.retiredCbs := by
    rw [← ht]
    exact List.foldlRecOn (motive := fun t => t.retiredCbs = s.retiredCbs) _ _ rfl
      fun t ih fd _ => (cleanupFd_same t fd).trans ih
  have there : ∀ i, i < s.retiredCbs.length → (t.filled (.retired i)).isSome := by
    intro i hi
    simp [Reactor.filled, retired, hi]
  rw [Reactor.effects, List.foldlM_append, erased]
  refine (release_run there).trans (congrArg some ?_)
  ext p : 1
  unfold Reactor.cleanup
  rw [ht]
  rcases p with ⟨fd, k⟩ | i | _
  · cases k <;> rfl
  · simp only [Reactor.filled, List.getElem?_nil, Option.map_none, retired]
    split
    · rfl
    · rename_i beyond
      rw [List.getElem?_eq_none (Nat.le_of_not_lt beyond), Option.map_none]
  · rfl

/-! ### Whole runs -/

theorem step_run (s : Reactor (Callback ω N)) (event : Event (Callback ω N)) :
    (s.effects event).foldlM Shape.step s.filled = some (s.step event).filled := by
  cases event with
  | call op => exact call_run s op
  | poll => exact congrArg some (Leaves.of_table rfl rfl rfl).filled
  | visit pos revents =>
    simp only [Reactor.effects, Reactor.step]
    cases s.dispatch[pos]? with
    | none => rfl
    | some item =>
      dsimp only
      rw [(dispatchItem_leaves s item revents).filled]
      split
      · rename_i invoked
        obtain ⟨cb, invoked⟩ := Option.isSome_iff_exists.mp invoked
        obtain ⟨-, -, e, he, stored⟩ := (dispatchItem_invoked s item revents cb).mp invoked
        have hk : item.kind ≠ .wake := by
          intro wake
          rw [wake] at stored
          cases stored
        have there : s.filled (.ctx item.key) = some true := by
          rw [PollEntry.key, filled_ctx s _ hk, Reactor.held, he, Option.map_some, stored]
          rfl
        simp only [List.foldlM_cons, List.foldlM_nil, Option.pure_def, Option.bind_eq_bind,
          Shape.step, there, Option.bind_some]
      · rfl
  | cleanup => exact cleanup_run s

/-- **The storage follows the tables.** From a new reactor, the programs of any steps can run, and
what they leave are the function objects that the tables say there are. -/
theorem storage_run (wakeFd : Int) (pollIn : BitVec 16) (events : List (Event (Callback ω N))) :
    ∃ l, ((Reactor.init wakeFd pollIn).storage events).foldlM Lifetimes.step
      ({} : Lifetimes Place) = some l ∧ l.Numbered ∧
      l.shape = (Reactor.run wakeFd pollIn events).filled := by
  have steps : events.foldlM (fun t event => some (Reactor.step t event))
      (Reactor.init wakeFd pollIn) = some (Reactor.run wakeFd pollIn events) := List.foldlM_pure
  have empty : ({} : Lifetimes Place).shape =
      (Reactor.init wakeFd pollIn : Reactor (Callback ω N)).filled := by
    ext p : 1
    rcases p with ⟨fd, k⟩ | i | _
    · cases k <;> rfl
    · rfl
    · rfl
  have shapes := programs_run (g := Shape.step) (e := Reactor.filled) (p := Reactor.effects)
    (fun {s event t} step => by
      obtain rfl := Option.some.inj step
      exact step_run s event) steps
  have followed := Lifetimes.run_shape ((Reactor.init wakeFd pollIn).storage events) {}
  rw [empty] at followed
  obtain ⟨l, run, shape⟩ := Option.map_eq_some_iff.mp (followed.trans shapes)
  exact ⟨l, run, Lifetimes.Numbered.empty.run run, shape⟩

end Run

end Bfc.PollReactor
