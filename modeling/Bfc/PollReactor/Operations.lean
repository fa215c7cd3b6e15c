import Bfc.PollReactor.Consistency

/-!
# Each operation keeps the tables in agreement

One specification per operation of the source, over the four changes of
`Bfc.PollReactor.Consistency`: from a consistent state the operation reaches a consistent state,
and it leaves the registrations of every other descriptor alone. `call_kept` gathers them over the
calls a caller can make; the clean-up and the one-shot disarming of a dispatched write have their
own.
-/

namespace Bfc.PollReactor

open IndexedVector

variable {κ : Type*} {wake : PollEntry} {s : Reactor κ}

/-- The invariant reads four fields of the state. -/
theorem Consistent.of_same {s' : Reactor κ} (h : Consistent wake s)
    (polled : s'.pollEntries = s.pollEntries) (entries : s'.fdEntries = s.fdEntries)
    (counter : s'.gen = s.gen) (guard : s'.guardHits = s.guardHits) : Consistent wake s' where
  wakeKey := h.wakeKey
  wakeQuiet := h.wakeQuiet
  wakeFirst := by rw [polled]; exact h.wakeFirst
  linked := by
    rw [polled]
    refine h.linked.congr fun ⟨fd, k⟩ => ?_
    cases k <;> simp only [Reactor.indexTable, entries]
  backed := by rw [polled, entries]; exact h.backed
  gens := by rw [polled]; exact h.gens
  gen_le := by rw [polled, counter]; exact h.gen_le
  entries := by rw [entries]; exact h.entries
  unguarded := by rw [guard]; exact h.unguarded

/-- A step that changes none of those fields keeps everything. -/
theorem Consistent.kept_of_same {s' : Reactor κ} (h : Consistent wake s) (fd : Int)
    (polled : s'.pollEntries = s.pollEntries) (entries : s'.fdEntries = s.fdEntries)
    (counter : s'.gen = s.gen) (guard : s'.guardHits = s.guardHits) : Kept wake fd s s' where
  consistent := h.of_same polled entries counter guard
  frame := ⟨fun _ _ => by rw [polled], fun _ _ => by rw [entries]⟩

/-! ## The helpers -/

/-- The last lines of a removal keep the tables. -/
theorem notePending_kept (h : Consistent wake s) (fd : Int) :
    Kept wake fd s (s.notePending fd) := by
  unfold Reactor.notePending
  split
  · exact h.kept_of_same fd rfl rfl rfl rfl
  · split <;> exact h.kept_of_same fd rfl rfl rfl rfl

theorem retireCb_eq (s : Reactor κ) (cb : Option κ) :
    s.retireCb cb = { s with retiredCbs := s.retiredCbs ++ cb.toList } := by
  cases cb <;> simp [Reactor.retireCb]

/-- `set_poll_entry` on a registration's own index, with the descriptor it watches. -/
theorem setPollEntry_kept (h : Consistent wake s) {fd : Int} {e : FdEntry κ} {k : PollKind}
    {i : Nat} (he : s.fdEntries fd = some e) (hi : e.indexOf k = some i) {watched : Int}
    (hw : watched = (e.ctxOf k).fd) (events : BitVec 16) :
    Kept wake fd s (s.setPollEntry (some i) watched events) := by
  obtain ⟨hk, hi0, p, hp, hkey, hat⟩ := h.at_index he hi
  have owner : p.ownerFd = fd := congrArg Prod.fst hkey
  have kind : p.kind = k := congrArg Prod.snd hkey
  have hb := h.backed p (List.mem_of_getElem? hp) (kind ▸ hk) e (owner ▸ he)
  unfold Reactor.setPollEntry
  rw [hat]
  rw [← owner]
  exact h.setEntry hi0 hp rfl rfl (by rw [hb.1, kind]; exact hw)

/-- `set_poll_events` on a registration's own index. -/
theorem setPollEvents_kept (h : Consistent wake s) {fd : Int} {e : FdEntry κ} {k : PollKind}
    {i : Nat} (he : s.fdEntries fd = some e) (hi : e.indexOf k = some i) (events : BitVec 16) :
    Kept wake fd s (s.setPollEvents (some i) events) := by
  obtain ⟨hk, hi0, p, hp, hkey, hat⟩ := h.at_index he hi
  have owner : p.ownerFd = fd := congrArg Prod.fst hkey
  unfold Reactor.setPollEvents
  rw [hat]
  rw [← owner]
  exact h.setEntry hi0 hp rfl rfl rfl

/-- What `remove_poll_entry_by_index` does on a registration's own index: `swapRemove`, and the
moved entry's owner has the new place. Where the entry is the last one, that owner is the
registration itself and has the place already. -/
theorem removePollEntryByIndex_eq (h : Consistent wake s) {fd : Int} {e : FdEntry κ}
    {k : PollKind} {i : Nat} (he : s.fdEntries fd = some e) (hi : e.indexOf k = some i) :
    ∃ m, s.pollEntries[s.pollEntries.length - 1]? = some m ∧
      s.removePollEntryByIndex (some i) =
        { s with
          pollEntries := swapRemove s.pollEntries i
          fdEntries := fun fd' => (s.fdEntries fd').map fun e =>
            if fd' = m.ownerFd then e.setIndex m.kind i else e } := by
  obtain ⟨hk, hi0, p, hp, hkey, hat⟩ := h.at_index he hi
  have hlt := (List.getElem?_eq_some_iff.mp hp).1
  obtain ⟨m, hm⟩ : ∃ m, s.pollEntries[s.pollEntries.length - 1]? = some m :=
    ⟨_, List.getElem?_eq_getElem (by omega)⟩
  have hlast : s.pollEntries.getLast? = some m := by rw [List.getLast?_eq_getElem?, hm]
  have htable : (fun fd' => (s.fdEntries fd').map fun e' =>
      if fd' = m.ownerFd then e'.setIndex m.kind i else e') =
      Function.update s.fdEntries m.ownerFd
        ((s.fdEntries m.ownerFd).map fun e' => e'.setIndex m.kind i) := by
    funext fd'
    by_cases hf : fd' = m.ownerFd
    · subst hf
      simp
    · simp [hf]
  refine ⟨m, hm, ?_⟩
  rw [htable]
  unfold Reactor.removePollEntryByIndex
  simp only [hat, hlast, swapRemove]
  by_cases hil : i = s.pollEntries.length - 1
  · have hpm : p = m := by
      rw [← hil, hp] at hm
      exact Option.some.inj hm
    have howner : m.ownerFd = fd := by rw [← hpm]; exact congrArg Prod.fst hkey
    have hkind : m.kind = k := by rw [← hpm]; exact congrArg Prod.snd hkey
    have hset : s.pollEntries.set i m = s.pollEntries := by
      obtain ⟨_, rfl⟩ := List.getElem?_eq_some_iff.mp hp
      rw [← hpm, List.set_getElem_self]
    rw [if_neg (not_not_intro hil), hset, howner, hkind, he, Option.map_some,
      FdEntry.setIndex_self hi, ← he, Function.update_eq_self]
  · rw [if_pos hil]
    unfold Reactor.updatePollIndex
    simp only
    cases hem : s.fdEntries m.ownerFd with
    | none =>
      have same : Function.update s.fdEntries m.ownerFd none = s.fdEntries := by
        rw [← hem, Function.update_eq_self]
      simp only [Option.map_none, same]
    | some em =>
      cases hmk : m.kind with
      | wake =>
        have same : Function.update s.fdEntries m.ownerFd (some em) = s.fdEntries := by
          rw [← hem, Function.update_eq_self]
        simp only [Option.map_some, FdEntry.setIndex, same]
      | read => rfl
      | write => rfl

/-- A registration's removal, retirement of its callback included. -/
theorem removal_kept (h : Consistent wake s) {fd : Int} {e : FdEntry κ} {k : PollKind}
    (he : s.fdEntries fd = some e) (active : e.activeOf k = true) (closed : List Int)
    (cb : Option κ) :
    Kept wake fd s ((({ s.removePollEntryByIndex (e.indexOf k) with
      closed := closed } : Reactor κ).retireCb cb).modifyEntry fd fun e => e.clear k) := by
  obtain ⟨i, hi⟩ : ∃ i, e.indexOf k = some i := by
    rw [(h.entries fd e he).active_iff] at active
    exact Option.isSome_iff_exists.mp active
  obtain ⟨m, hm, heq⟩ := removePollEntryByIndex_eq h he hi
  rw [hi, heq, retireCb_eq]
  refine h.unregister he hi hm ?_ rfl rfl rfl
  intro fd'
  by_cases hf : fd' = fd
  · subst hf
    simp only [Reactor.modifyEntry, Function.update_self, Option.map_map]
    congr 1
    funext e'
    simp only [Function.comp, Consistent.afterRemoval, ↓reduceIte]
  · simp only [Reactor.modifyEntry, Function.update_of_ne hf]
    congr 1
    funext e'
    simp only [Consistent.afterRemoval, if_neg hf]

/-! ## The calls -/

theorem remRead_kept (h : Consistent wake s) (fd : Int) : Kept wake fd s (s.remRead fd).1 := by
  unfold Reactor.remRead
  split
  · exact h.kept_of_same fd rfl rfl rfl rfl
  · rename_i e he
    by_cases hc : e.readActive ∧ e.readCtx.fd ≠ -1
    · have step := removal_kept h (k := .read) he hc.1
        (s.removePollEntryByIndex e.readPollIndex).closed e.readCtx.cb
      simp only [if_pos hc]
      exact step.trans (notePending_kept step.consistent fd)
    · simp only [if_neg hc]
      exact notePending_kept h fd

theorem remWrite_kept (h : Consistent wake s) (fd : Int) : Kept wake fd s (s.remWrite fd).1 := by
  unfold Reactor.remWrite
  split
  · exact h.kept_of_same fd rfl rfl rfl rfl
  · rename_i e he
    by_cases hc : e.writeActive ∧ e.writeCtx.fd ≠ -1
    · have step := removal_kept h (k := .write) he hc.1
        ((s.removePollEntryByIndex e.writePollIndex).closed ++ [e.writeCtx.fd]) e.writeCtx.cb
      simp only [if_pos hc]
      exact step.trans (notePending_kept step.consistent fd)
    · simp only [if_neg hc]
      exact notePending_kept h fd

theorem reqWrite_kept (h : Consistent wake s) (fd : Int) (events : BitVec 32) :
    Kept wake fd s (s.reqWrite fd events).1 := by
  unfold Reactor.reqWrite
  split
  · exact h.kept_of_same fd rfl rfl rfl rfl
  · rename_i e he
    split
    · exact h.kept_of_same fd rfl rfl rfl rfl
    · rename_i hc
      have active : e.writeActive = true := by
        cases ha : e.writeActive
        · simp [ha] at hc
        · rfl
      obtain ⟨i, hi⟩ := Option.isSome_iff_exists.mp
        (((h.entries fd e he).active_iff .write).symm.trans active)
      have hidx : e.writePollIndex = some i := hi
      rw [hidx]
      exact setPollEvents_kept h (k := .write) he hi _

/-- The entry both adds start from is in order: an existing one is, and a new one holds nothing. -/
theorem named_ok (h : Consistent wake s) (fd : Int) :
    EntryOk fd (Reactor.named fd (s.entryOf fd)) := by
  cases he : s.fdEntries fd with
  | none =>
    have hnew : s.entryOf fd = {} := by rw [Reactor.entryOf, he, Option.getD_none]
    rw [hnew]
    exact {
      named := rfl
      active_iff := fun k => by cases k <;> rfl
      readFd := fun active => by cases active
      writeFd := ⟨fun ne => absurd rfl ne, fun active => by cases active⟩ }
  | some e =>
    have hold : s.entryOf fd = e := by rw [Reactor.entryOf, he, Option.getD_some]
    have ok := h.entries fd e he
    rw [hold]
    exact {
      named := by
        unfold Reactor.named
        split
        · rfl
        · exact ok.named
      active_iff := fun k => by
        have := ok.active_iff k
        cases k <;> exact this
      readFd := ok.readFd
      writeFd := ok.writeFd }

/-- The new poll entry's generation, read back from the vector. -/
theorem genAt_addPollEntry (s : Reactor κ) (watched owner : Int) (kind : PollKind)
    (events : BitVec 16) :
    (s.addPollEntry watched owner kind events).1.genAt s.pollEntries.length = s.gen + 1 := by
  simp [Reactor.addPollEntry, Reactor.genAt]

/-- `add_read` of a descriptor with no read registration: a new poll entry at the end. -/
theorem addRead_fresh {fd : Int} (hidx : (s.entryOf fd).readPollIndex = none)
    (events : BitVec 32) (cb : Option κ) :
    (s.addRead fd events cb).1 =
      { s with
        gen := s.gen + 1
        pollEntries := s.pollEntries ++
          [{ pfd := { fd := fd, events := events.setWidth 16 }, ownerFd := fd, kind := .read
             gen := s.gen + 1 }]
        fdEntries := Function.update s.fdEntries fd (some
          { Reactor.named fd (s.entryOf fd) with
            readCtx := { fd := fd, cb := cb }, readActive := true
            readPollIndex := some s.pollEntries.length, readGen := s.gen + 1 }) } := by
  have hnone : (Reactor.named fd (s.entryOf fd)).readPollIndex = none := hidx
  have hgen := genAt_addPollEntry s fd fd .read (events.setWidth 16)
  simp only [Reactor.addRead, hnone, ↓reduceIte]
  rw [show (s.addPollEntry fd fd .read (events.setWidth 16)).2 = s.pollEntries.length from rfl,
    hgen]
  rfl

/-- `add_write` of a descriptor with no write registration, once the write side has a
descriptor. -/
theorem addWrite_fresh {fd : Int} (hidx : (s.entryOf fd).writePollIndex = none) {dupFd ctxFd : Int}
    (hctx : (if (s.entryOf fd).writeCtx.fd = -1 then dupFd else (s.entryOf fd).writeCtx.fd) = ctxFd)
    (opened : ctxFd ≠ -1) (cb : Option κ) :
    (s.addWrite fd cb dupFd).1 =
      { s with
        gen := s.gen + 1
        pollEntries := s.pollEntries ++
          [{ pfd := { fd := ctxFd, events := 0 }, ownerFd := fd, kind := .write
             gen := s.gen + 1 }]
        fdEntries := Function.update s.fdEntries fd (some
          { Reactor.named fd (s.entryOf fd) with
            writeCtx := { fd := ctxFd, cb := cb }, writeActive := true
            writePollIndex := some s.pollEntries.length, writeGen := s.gen + 1 }) } := by
  have hnone : (Reactor.named fd (s.entryOf fd)).writePollIndex = none := hidx
  have hctx' : (if (Reactor.named fd (s.entryOf fd)).writeCtx.fd = -1 then dupFd
      else (Reactor.named fd (s.entryOf fd)).writeCtx.fd) = ctxFd := hctx
  have hgen := genAt_addPollEntry s ctxFd fd .write 0
  simp only [Reactor.addWrite, hctx', if_neg opened, hnone, ↓reduceIte]
  rw [show (s.addPollEntry ctxFd fd .write 0).2 = s.pollEntries.length from rfl, hgen]
  rfl

theorem addRead_kept (h : Consistent wake s) (fd : Int) (events : BitVec 32) (cb : Option κ) :
    Kept wake fd s (s.addRead fd events cb).1 := by
  have ok := named_ok h fd
  cases hidx : (s.entryOf fd).readPollIndex with
  | none =>
    rw [addRead_fresh hidx]
    exact h.register (k := .read) (by decide) hidx
      (ok.watchRead cb s.pollEntries.length (s.gen + 1)) rfl rfl
      (fun k hk => by cases k <;> first | exact ⟨rfl, rfl, rfl⟩ | exact absurd rfl hk)
      rfl rfl rfl rfl rfl rfl rfl
  | some i =>
    have hsome : (Reactor.named fd (s.entryOf fd)).readPollIndex = some i := hidx
    have active : (Reactor.named fd (s.entryOf fd)).readActive = true :=
      (ok.active_iff .read).trans (congrArg Option.isSome hsome)
    have placed := ok.watchRead cb i (s.entryOf fd).readGen
    rw [← hsome] at placed
    have put := h.putEntry placed (fun k => by cases k <;> rfl)
      (fun k j _ => by
        cases k with
        | wake => exact ⟨rfl, rfl⟩
        | read => exact ⟨(ok.readFd active).symm, rfl⟩
        | write => exact ⟨rfl, rfl⟩)
    have set : Kept wake fd _ _ := setPollEntry_kept put.consistent (k := .read)
      (Function.update_self ..) hsome rfl (events.setWidth 16)
    rw [← hsome] at set
    simp only [Reactor.addRead, if_neg (hsome ▸ Option.some_ne_none i)]
    exact put.trans set

theorem addWrite_kept (h : Consistent wake s) (fd : Int) (cb : Option κ) (dupFd : Int) :
    Kept wake fd s (s.addWrite fd cb dupFd).1 := by
  have ok := named_ok h fd
  obtain ⟨ctxFd, hctx⟩ : ∃ ctxFd, (if (s.entryOf fd).writeCtx.fd = -1 then dupFd
      else (s.entryOf fd).writeCtx.fd) = ctxFd := ⟨_, rfl⟩
  have hctx' : (if (Reactor.named fd (s.entryOf fd)).writeCtx.fd = -1 then dupFd
      else (Reactor.named fd (s.entryOf fd)).writeCtx.fd) = ctxFd := hctx
  by_cases closed : ctxFd = -1
  · -- `dup` failed: only a new entry, or a name, is left behind
    have hnone : (Reactor.named fd (s.entryOf fd)).writeCtx.fd = -1 := by
      by_contra hne
      rw [if_neg hne] at hctx'
      exact hne (hctx'.trans closed)
    simp only [Reactor.addWrite, hctx', if_pos closed]
    refine h.putEntry
      { named := ok.named
        active_iff := fun k => ?_
        readFd := ok.readFd
        writeFd := ?_ }
      (fun k => by cases k <;> rfl)
      (fun k j _ => by
        cases k with
        | wake => exact ⟨rfl, rfl⟩
        | read => exact ⟨rfl, rfl⟩
        | write => exact ⟨closed.trans hnone.symm, rfl⟩)
    · have := ok.active_iff k
      cases k <;> exact this
    · have := ok.writeFd
      rw [hnone, ← closed] at this
      rw [closed] at this ⊢
      exact this
  · cases hidx : (s.entryOf fd).writePollIndex with
    | none =>
      rw [addWrite_fresh hidx hctx closed]
      exact h.register (k := .write) (by decide) hidx
        (ok.watchWrite closed cb s.pollEntries.length (s.gen + 1)) rfl rfl
        (fun k hk => by cases k <;> first | exact ⟨rfl, rfl, rfl⟩ | exact absurd rfl hk)
        rfl rfl rfl rfl rfl rfl rfl
    | some i =>
      have hsome : (Reactor.named fd (s.entryOf fd)).writePollIndex = some i := hidx
      have active : (Reactor.named fd (s.entryOf fd)).writeActive = true :=
        (ok.active_iff .write).trans (congrArg Option.isSome hsome)
      have held : (Reactor.named fd (s.entryOf fd)).writeCtx.fd = ctxFd := by
        rw [← hctx', if_neg (ok.writeFd.mpr active)]
      have placed := ok.watchWrite closed cb i (s.entryOf fd).writeGen
      rw [← hsome] at placed
      have put := h.putEntry placed (fun k => by cases k <;> rfl)
        (fun k j _ => by
          cases k with
          | wake => exact ⟨rfl, rfl⟩
          | read => exact ⟨rfl, rfl⟩
          | write => exact ⟨held.symm, rfl⟩)
      have set : Kept wake fd _ _ := setPollEntry_kept put.consistent (k := .write)
        (Function.update_self ..) hsome rfl 0
      rw [← hsome] at set
      simp only [Reactor.addWrite, hctx', if_neg closed, if_neg (hsome ▸ Option.some_ne_none i)]
      exact put.trans set

/-- **Every call keeps the tables in agreement** and leaves the other descriptors alone. -/
theorem call_kept (h : Consistent wake s) (op : Op κ) : Kept wake op.fd s (s.call op).1 := by
  cases op with
  | addRead fd events cb => exact addRead_kept h fd events cb
  | remRead fd => exact remRead_kept h fd
  | addWrite fd cb dupFd => exact addWrite_kept h fd cb dupFd
  | remWrite fd => exact remWrite_kept h fd
  | reqWrite fd events => exact reqWrite_kept h fd events

theorem calls_consistent (h : Consistent wake s) (ops : List (Op κ)) :
    Consistent wake (s.calls ops) := by
  induction ops generalizing s with
  | nil => exact h
  | cons op ops ih => exact ih (call_kept h op).consistent

/-! ## The clean-up -/

theorem cleanupFd_consistent (h : Consistent wake s) (fd : Int) :
    Consistent wake (s.cleanupFd fd) := by
  unfold Reactor.cleanupFd
  split
  · exact h
  · rename_i e he
    split
    · rename_i idle
      simp only [Bool.and_eq_true, Bool.not_eq_true'] at idle
      -- an entry with no active registration has no poll entry to leave behind
      have gone : ∀ k, e.indexOf k = none := by
        intro k
        have := (h.entries fd e he).active_iff k
        cases k with
        | wake => rfl
        | read => simpa [FdEntry.activeOf, idle.1] using this.symm
        | write => simpa [FdEntry.activeOf, idle.2] using this.symm
      exact {
        h with
        linked := h.linked.congr fun ⟨fd', k⟩ => by
          by_cases hk : k = .wake
          · subst hk; rfl
          · rw [indexTable_of_ne _ _ hk, indexTable_of_ne _ _ hk]
            by_cases hf : fd' = fd
            · subst hf
              simp only [Function.update_self, he, Option.bind_none, Option.bind_some, gone]
            · simp only [Function.update_of_ne hf]
        backed := fun p hp hk e' he' => by
          by_cases hf : p.ownerFd = fd
          · simp [hf] at he'
          · simp only [Function.update_of_ne hf] at he'
            exact h.backed p hp hk e' he'
        entries := fun fd' e' he' => by
          by_cases hf : fd' = fd
          · simp [hf] at he'
          · simp only [Function.update_of_ne hf] at he'
            exact h.entries fd' e' he' }
    · exact h

/-- The clean-up of one descriptor leaves an entry with an active registration as it is. -/
theorem cleanupFd_active (s : Reactor κ) (fd fd' : Int) {e : FdEntry κ}
    (he : s.fdEntries fd' = some e) (active : e.readActive = true ∨ e.writeActive = true) :
    (s.cleanupFd fd).fdEntries fd' = some e := by
  unfold Reactor.cleanupFd
  split
  · exact he
  · rename_i e' he'
    split
    · rename_i idle
      have hne : fd' ≠ fd := by
        rintro rfl
        rw [he] at he'
        obtain rfl := Option.some.inj he'
        rcases active with a | a <;> simp [a] at idle
      simp only [Function.update_of_ne hne]
      exact he
    · exact he

/-- The rule of the clean-up loop: what each round keeps, the loop keeps. -/
theorem cleanup_loop {P : Reactor κ → Prop} (round : ∀ t fd, P t → P (t.cleanupFd fd)) (h : P s) :
    P (s.pendingCleanup.foldl Reactor.cleanupFd s) :=
  List.foldlRecOn _ _ h fun t ht fd _ => round t fd ht

theorem cleanup_consistent (h : Consistent wake s) : Consistent wake s.cleanup := by
  have loop := cleanup_loop (P := Consistent wake) (fun _ fd h => cleanupFd_consistent h fd) h
  exact loop.of_same rfl rfl rfl rfl

/-- **The clean-up erases no entry with an active registration.** -/
theorem cleanup_active (s : Reactor κ) {fd : Int} {e : FdEntry κ}
    (he : s.fdEntries fd = some e) (active : e.readActive = true ∨ e.writeActive = true) :
    s.cleanup.fdEntries fd = some e := by
  apply cleanup_loop (P := fun t => t.fdEntries fd = some e)
  · intro t x there
    exact cleanupFd_active t x fd there active
  · exact he

end Bfc.PollReactor
