import Bfc.PollReactor.Pass
import Bfc.PollReactor.Registration

/-!
# Dispatch is exact

The dispatch loop goes over a snapshot while the callbacks it runs add and remove registrations,
move poll entries about and replace callbacks. What makes it exact is the generation in each
snapshot item: a generation is given once, so a registration whose generation is still in the
table is the one that was polled, and no removal of it happened since.

`calls_registration` is the induction over the calls of one callback, `loop_registration` the one
over the rounds of the loop. Their statement is about one fixed registration: it is still there
exactly if none of the calls made so far removes it. `dispatch_exact` puts the loop's order, its
test in each round and this history together.
-/

namespace Bfc.PollReactor

variable {κ : Type*} {wake : PollEntry} {s : Reactor κ}

/-- The registration a snapshot item was taken from is still in the table, the very one, and its
callback is `cb`. -/
def Reactor.Holds (s : Reactor κ) (item : PollEntry) (cb : κ) : Prop :=
  s.registration item.key = some item.gen ∧
    ∃ e, s.fdEntries item.ownerFd = some e ∧ (e.ctxOf item.kind).cb = some cb

/-- The state in which the round after a visit begins. -/
def Visit.after (v : Visit κ) : Reactor κ :=
  (v.before.dispatchItem v.item v.revents).1.calls v.calls

/-! ## One round -/

/-- A registration by its parts. -/
theorem FdEntry.registered_eq_some {e : FdEntry κ} {k : PollKind} {gen : Nat} :
    e.registered k = some gen ↔ e.activeOf k = true ∧ e.genOf k = gen := by
  unfold FdEntry.registered
  split
  · rename_i active
    simp only [Option.some.injEq, active, true_and]
  · rename_i idle
    simp only [reduceCtorEq, false_iff, not_and]
    exact fun active => absurd active idle

/-- The test of a round: the callback runs if the item is ready and its registration holds. -/
theorem dispatchItem_invoked (s : Reactor κ) (item : PollEntry) (revents : BitVec 16) (cb : κ) :
    (s.dispatchItem item revents).2 = some cb ↔ revents ≠ 0 ∧ s.Holds item cb := by
  unfold Reactor.dispatchItem Reactor.Holds PollEntry.key
  by_cases hr : revents = 0
  · rw [if_pos hr]
    simp only [reduceCtorEq, hr, ne_eq, not_true_eq_false, false_and]
  · rw [if_neg hr]
    simp only [ne_eq, hr, not_false_eq_true, true_and]
    cases he : s.fdEntries item.ownerFd with
    | none =>
      have unregistered : s.registration (item.ownerFd, item.kind) = none := registration_none he _
      cases hk : item.kind <;> simp [hk ▸ unregistered]
    | some e =>
      rw [registration_of_entry he, FdEntry.registered_eq_some]
      cases hk : item.kind with
      | wake => simp [FdEntry.activeOf]
      | read =>
        simp only [Option.some.injEq, exists_eq_left', FdEntry.activeOf, FdEntry.genOf,
          FdEntry.ctxOf]
        split
        · rename_i hc
          simp only [hc, and_self, true_and]
        · rename_i hc
          simp only [reduceCtorEq, hc, false_and]
      | write =>
        simp only [Option.some.injEq, exists_eq_left', FdEntry.activeOf, FdEntry.genOf,
          FdEntry.ctxOf]
        split
        · rename_i hc
          simp only [hc.1, hc.2.1, and_self, true_and]
        · rename_i hc
          simp only [reduceCtorEq, false_iff]
          rintro ⟨⟨active, gen⟩, hcb⟩
          exact hc ⟨active, gen, by rw [hcb]; rfl⟩

/-- Disarming a write changes no registration. -/
theorem dispatchItem_registration (s : Reactor κ) (item : PollEntry) (revents : BitVec 16)
    (key : Key) : (s.dispatchItem item revents).1.registration key = s.registration key := by
  unfold Reactor.dispatchItem
  split
  · rfl
  · split
    · rfl
    · split
      · rfl
      · split <;> rfl
    · split
      · rfl
      · split
        · exact registration_congr (congrFun (setPollEvents_fdEntries ..) _)
        · rfl

/-! ## The history of one registration -/

/-- A registration made before a call is still there after it exactly if it was there and the
call does not remove it: one that the call makes has a later generation. -/
theorem call_registration (h : Consistent wake s) (op : Op κ) {key : Key} {gen : Nat}
    (hkey : key ≠ (-1, .read)) (hgen : gen ≤ s.gen) :
    (s.call op).1.registration key = some gen ↔
      s.registration key = some gen ∧ ¬op.Removes key := by
  rw [registration_call h op hkey]
  split
  · rename_i hrem
    simp only [reduceCtorEq, hrem, not_true_eq_false, and_false]
  · rename_i hrem
    split
    · rename_i hadd
      simp only [hadd.2, reduceCtorEq, false_and, iff_false, Option.some.injEq]
      omega
    · simp only [hrem, not_false_eq_true, and_true]

theorem calls_registration (h : Consistent wake s) (ops : List (Op κ)) {key : Key} {gen : Nat}
    (hkey : key ≠ (-1, .read)) (hgen : gen ≤ s.gen) :
    (s.calls ops).registration key = some gen ↔
      s.registration key = some gen ∧ ∀ op ∈ ops, ¬op.Removes key := by
  induction ops generalizing s with
  | nil => simp only [Reactor.calls, List.foldl_nil, List.not_mem_nil, false_implies,
      implies_true, and_true]
  | cons op ops ih =>
    have rest := ih (call_kept h op).consistent (Nat.le_trans hgen (call_gen s op).1)
    rw [Reactor.calls, List.foldl_cons, ← Reactor.calls, rest, call_registration h op hkey hgen,
      List.forall_mem_cons, and_assoc]

theorem calls_gen (s : Reactor κ) (ops : List (Op κ)) : s.gen ≤ (s.calls ops).gen := by
  induction ops generalizing s with
  | nil => exact Nat.le_refl _
  | cons op ops ih => exact Nat.le_trans (call_gen s op).1 (ih _)

/-! ## The loop -/

variable {calls : Nat → List (Op κ)}

/-- The loop's rounds, one by one: the first is at the loop's own position and state, and the
others are the loop's from the next position on. -/
theorem mem_dispatchLoop {i : Nat} {item : PollEntry} {revents : BitVec 16}
    {rest : List (PollEntry × BitVec 16)} {v : Visit κ} :
    let first : Visit κ :=
      { pos := i, item := item, revents := revents, before := s
        invoked := (s.dispatchItem item revents).2
        calls := if (s.dispatchItem item revents).2.isSome then calls i else [] }
    v ∈ (Reactor.dispatchLoop calls i ((item, revents) :: rest) s).2 ↔
      v = first ∨ v ∈ (Reactor.dispatchLoop calls (i + 1) rest first.after).2 :=
  List.mem_cons

/-- The positions are the snapshot's, in its order. -/
theorem loop_pos (i : Nat) (items : List (PollEntry × BitVec 16)) (s : Reactor κ) :
    (Reactor.dispatchLoop calls i items s).2.map (·.pos) = List.range' i items.length := by
  induction items generalizing i s with
  | nil => rfl
  | cons item rest ih =>
    rw [List.length_cons, List.range'_succ, ← ih (i + 1)]
    rfl

/-- Each round reads its own place of the snapshot. -/
theorem loop_item {i : Nat} {items : List (PollEntry × BitVec 16)} {v : Visit κ}
    (hv : v ∈ (Reactor.dispatchLoop calls i items s).2) :
    ∃ j, v.pos = i + j ∧ items[j]? = some (v.item, v.revents) := by
  induction items generalizing i s with
  | nil => cases hv
  | cons item rest ih =>
    rcases mem_dispatchLoop.mp hv with rfl | hv
    · exact ⟨0, rfl, rfl⟩
    · obtain ⟨j, hj, hitem⟩ := ih hv
      exact ⟨j + 1, by omega, hitem⟩

/-- What a round records of the callback and of its calls. -/
theorem loop_round {i : Nat} {items : List (PollEntry × BitVec 16)} {v : Visit κ}
    (hv : v ∈ (Reactor.dispatchLoop calls i items s).2) :
    v.invoked = (v.before.dispatchItem v.item v.revents).2 ∧
      v.calls = if v.invoked.isSome then calls v.pos else [] := by
  induction items generalizing i s with
  | nil => cases hv
  | cons item rest ih =>
    rcases mem_dispatchLoop.mp hv with rfl | hv
    · exact ⟨rfl, rfl⟩
    · exact ih hv

/-- A round begins where the one before it ended, the first where the loop did. -/
theorem loop_before {i : Nat} {items : List (PollEntry × BitVec 16)} {v : Visit κ}
    (hv : v ∈ (Reactor.dispatchLoop calls i items s).2) :
    (v.pos = i → v.before = s) ∧
      ∀ u ∈ (Reactor.dispatchLoop calls i items s).2, v.pos = u.pos + 1 → v.before = u.after := by
  induction items generalizing i s with
  | nil => cases hv
  | cons item rest ih =>
    rcases mem_dispatchLoop.mp hv with rfl | hv
    · refine ⟨fun _ => rfl, fun u hu hpos => ?_⟩
      obtain ⟨j, hj, -⟩ := loop_item hu
      exact absurd hpos (by dsimp only; omega)
    · obtain ⟨j, hj, -⟩ := loop_item hv
      refine ⟨fun hpos => by omega, fun u hu hpos => ?_⟩
      rcases mem_dispatchLoop.mp hu with rfl | hu
      · exact (ih hv).1 hpos
      · exact (ih hv).2 u hu hpos

/-- **The history of a registration over the loop**: in any round it is still there exactly if no
call of an earlier round removes it. -/
theorem loop_registration (h : Consistent wake s) {i : Nat}
    {items : List (PollEntry × BitVec 16)} {key : Key} {gen : Nat} (hkey : key ≠ (-1, .read))
    (hgen : gen ≤ s.gen) {v : Visit κ} (hv : v ∈ (Reactor.dispatchLoop calls i items s).2) :
    v.before.registration key = some gen ↔ s.registration key = some gen ∧
      ∀ u ∈ (Reactor.dispatchLoop calls i items s).2, u.pos < v.pos →
        ∀ op ∈ u.calls, ¬op.Removes key := by
  induction items generalizing i s with
  | nil => cases hv
  | cons item rest ih =>
    rcases mem_dispatchLoop.mp hv with rfl | hv'
    · refine ⟨fun there => ⟨there, fun u hu hpos => ?_⟩, And.left⟩
      obtain ⟨j, hj, -⟩ := loop_item hu
      exact absurd hpos (by dsimp only; omega)
    · -- the first round comes before this one, and the others are the shorter loop's
      have round := dispatchItem_kept h item.1 item.2
      have same := dispatchItem_registration s item.1 item.2 key
      have dispatched : gen ≤ (s.dispatchItem item.1 item.2).1.gen := by
        rw [dispatchItem_gen]
        exact hgen
      have next := ih (calls_consistent round.consistent _)
        (Nat.le_trans dispatched (calls_gen _ _)) hv'
      have made := calls_registration round.consistent
        (if (s.dispatchItem item.1 item.2).2.isSome then calls i else []) hkey dispatched
      rw [next, made, same]
      obtain ⟨j, hj, -⟩ := loop_item hv'
      constructor
      · rintro ⟨⟨there, first⟩, others⟩
        refine ⟨there, fun u hu hpos => ?_⟩
        rcases mem_dispatchLoop.mp hu with rfl | hu
        · exact first
        · exact others u hu hpos
      · rintro ⟨there, all⟩
        exact ⟨⟨there, all _ (mem_dispatchLoop.mpr (.inl rfl)) (by dsimp only; omega)⟩,
          fun u hu => all u (mem_dispatchLoop.mpr (.inr hu))⟩

/-! ## Exactness -/

/-- What an exact dispatch of a pass is, for the state `s` at its `::poll`. The visits go through
the snapshot in order and miss nothing that is ready. A visit begins where the one before it
ended, runs a callback exactly if its item is ready and its registration holds one, and then makes
that callback's calls. And the registration is there exactly if no callback before removed it. -/
structure ExactDispatch (s : Reactor κ) (calls : Nat → List (Op κ)) (revents : List (BitVec 16))
    (visits : List (Visit κ)) : Prop where
  inOrder : visits.map (·.pos) = List.range visits.length
  reached : ∀ (i : Nat) (r : BitVec 16), revents[i]? = some r → r ≠ 0 → ∃ v ∈ visits, v.pos = i
  fromSnapshot : ∀ v ∈ visits,
    s.pollEntries[v.pos]? = some v.item ∧ revents[v.pos]? = some v.revents
  begins : ∀ v ∈ visits, v.pos = 0 → v.before = s.snapshot
  follows : ∀ u ∈ visits, ∀ v ∈ visits, v.pos = u.pos + 1 → v.before = u.after
  makes : ∀ v ∈ visits, v.calls = if v.invoked.isSome then calls v.pos else []
  invokes : ∀ v ∈ visits, ∀ cb, v.invoked = some cb ↔ v.revents ≠ 0 ∧ v.before.Holds v.item cb
  still : ∀ v ∈ visits, v.revents ≠ 0 → v.item.kind ≠ .wake →
    (v.before.registration v.item.key = some v.item.gen ↔
      ∀ u ∈ visits, u.pos < v.pos → ∀ op ∈ u.calls, ¬op.Removes v.item.key)
  removed : ∀ v ∈ visits, ∀ u ∈ visits, u.pos < v.pos → (∃ op ∈ u.calls, op.Removes v.item.key) →
    v.invoked = none
  once : ∀ u ∈ visits, ∀ v ∈ visits, u.item.key = v.item.key → u.pos = v.pos

/-- The items of the snapshot that `::poll` may report are of registrations `rem_read` removes. -/
theorem ready_key (h : Consistent wake s) {revents : List (BitVec 16)}
    (answers : PollAnswers (s.snapshot.pollEntries.map (·.pfd)) revents) {i : Nat}
    {item : PollEntry} {r : BitVec 16} (hitem : s.pollEntries[i]? = some item)
    (hr : revents[i]? = some r) (ready : r ≠ 0) : item.key ≠ (-1, .read) := by
  intro hkey
  have owner : item.ownerFd = -1 := congrArg Prod.fst hkey
  have kind : item.kind = .read := congrArg Prod.snd hkey
  have hk : item.kind ≠ .wake := by rw [kind]; decide
  obtain ⟨e, -, he, -, -, active, backed, -⟩ := h.owner (List.mem_of_getElem? hitem) hk
  rw [kind] at active backed
  have watched : e.readCtx.fd = item.ownerFd := (h.entries _ e he).readFd active
  have negative : item.pfd.fd < 0 := by
    rw [backed, show (e.ctxOf .read).fd = e.readCtx.fd from rfl, watched, owner]
    decide
  refine ready (answers.ignored i { item.pfd with revents := 0 } r ?_ hr negative)
  simp only [Reactor.snapshot, List.getElem?_map, hitem, Option.map_some]

/-- A dispatch from consistent tables is exact. -/
theorem Consistent.exactDispatch (h : Consistent wake s) (calls : Nat → List (Op κ))
    {revents : List (BitVec 16)}
    (answers : PollAnswers (s.snapshot.pollEntries.map (·.pfd)) revents) :
    ExactDispatch s calls revents (s.dispatchReady calls revents).2 := by
  have length : revents.length = s.pollEntries.length := by
    simpa only [Reactor.snapshot, List.length_map] using answers.length
  unfold Reactor.dispatchReady
  by_cases hn : 0 < (revents.filter (· ≠ 0)).length
  · rw [if_pos hn]
    have hs := snapshot_consistent h
    generalize hvisits : (Reactor.dispatchLoop calls 0 (s.snapshot.dispatch.zip revents)
      s.snapshot).2 = visits
    have pos : visits.map (·.pos) = List.range s.pollEntries.length := by
      rw [← hvisits, loop_pos, List.length_zip, length, List.range_eq_range']
      simp only [Reactor.snapshot, Nat.min_self]
    have count : visits.length = s.pollEntries.length := by
      simpa only [List.length_map, List.length_range] using congrArg List.length pos
    have item : ∀ v ∈ visits,
        s.pollEntries[v.pos]? = some v.item ∧ revents[v.pos]? = some v.revents := by
      intro v hv
      obtain ⟨j, hj, hz⟩ := loop_item (hvisits.symm ▸ hv)
      obtain rfl : v.pos = j := by omega
      exact List.getElem?_zip_eq_some.mp hz
    have invokes : ∀ v ∈ visits, ∀ cb,
        v.invoked = some cb ↔ v.revents ≠ 0 ∧ v.before.Holds v.item cb := by
      intro v hv cb
      rw [(loop_round (hvisits.symm ▸ hv)).1, dispatchItem_invoked]
    have still : ∀ v ∈ visits, v.revents ≠ 0 → v.item.kind ≠ .wake →
        (v.before.registration v.item.key = some v.item.gen ↔
          ∀ u ∈ visits, u.pos < v.pos → ∀ op ∈ u.calls, ¬op.Removes v.item.key) := by
      intro v hv ready hk
      have mem := List.mem_of_getElem? (item v hv).1
      have there : s.snapshot.registration v.item.key = some v.item.gen :=
        h.registration_of_mem mem hk
      have history := loop_registration hs (ready_key h answers (item v hv).1 (item v hv).2 ready)
        (h.gen_le _ mem) (hvisits.symm ▸ hv)
      rw [hvisits] at history
      rw [history]
      exact and_iff_right there
    exact {
      inOrder := by rw [pos, count]
      reached := fun i r hr _ => by
        have hi : i ∈ visits.map (·.pos) := by
          rw [pos, List.mem_range, ← length]
          exact (List.getElem?_eq_some_iff.mp hr).1
        obtain ⟨v, hv, hi⟩ := List.mem_map.mp hi
        exact ⟨v, hv, hi⟩
      fromSnapshot := item
      begins := fun v hv => (loop_before (hvisits.symm ▸ hv)).1
      follows := fun u hu v hv => (loop_before (hvisits.symm ▸ hv)).2 u (hvisits.symm ▸ hu)
      makes := fun v hv => (loop_round (hvisits.symm ▸ hv)).2
      invokes := invokes
      still := still
      removed := by
        intro v hv u hu hlt removes
        obtain ⟨op, hop, hrem⟩ := removes
        by_contra hne
        obtain ⟨cb, hcb⟩ := Option.ne_none_iff_exists'.mp hne
        obtain ⟨ready, there, e, he, held⟩ := (invokes v hv cb).mp hcb
        have hk : v.item.kind ≠ .wake := fun hk => by rw [hk] at held; cases held
        exact (still v hv ready hk).mp there u hu hlt op hop hrem
      once := fun u hu v hv hkey => h.linked.key_inj (item u hu).1 (item v hv).1 hkey }
  · -- nothing is ready, so the loop is not entered
    rw [if_neg hn]
    have quiet : ∀ (i : Nat) (r : BitVec 16), revents[i]? = some r → r = 0 := by
      intro i r hr
      by_contra hne
      exact hn (List.length_pos_of_mem
        (List.mem_filter.mpr ⟨List.mem_of_getElem? hr, by simpa using hne⟩))
    exact {
      inOrder := rfl
      reached := fun i r hr hne => absurd (quiet i r hr) hne
      fromSnapshot := fun v hv => by cases hv
      begins := fun v hv => by cases hv
      follows := fun u hu => by cases hu
      makes := fun v hv => by cases hv
      invokes := fun v hv => by cases hv
      still := fun v hv => by cases hv
      removed := fun v hv => by cases hv
      once := fun u hu => by cases hu }

/-- **Dispatch is exact.** In every reachable state, for every answer of `::poll` and every
behaviour of the callbacks, the dispatch of the pass is exact. -/
theorem dispatch_exact (wakeFd : Int) (pollIn : BitVec 16) (events : List (Event κ))
    (calls : Nat → List (Op κ)) (revents : List (BitVec 16))
    (answers : PollAnswers
      ((Reactor.run wakeFd pollIn events).snapshot.pollEntries.map (·.pfd)) revents) :
    let s := Reactor.run wakeFd pollIn events
    ExactDispatch s calls revents (s.dispatchReady calls revents).2 :=
  (run_consistent wakeFd pollIn events).exactDispatch calls answers

/-- Three descriptors are ready, and the first one's callback removes the second and adds it
again. The new callback waits for an event of its own; the third, whose poll entry moved, runs. -/
theorem dispatch_exact_reused :
    let s : Reactor String := Reactor.run 3 1
      [.call (.addRead 5 1 (some "a")), .call (.addRead 6 1 (some "b")),
        .call (.addRead 7 1 (some "c"))]
    let calls : Nat → List (Op String) := fun i =>
      if i = 1 then [.remRead 6, .addRead 6 1 (some "new")] else []
    let visits := (s.dispatchReady calls [0, 1, 1, 1]).2
    ExactDispatch s calls [0, 1, 1, 1] visits ∧
      visits.map (·.invoked) = [none, some "a", none, some "c"] := by
  refine ⟨dispatch_exact 3 1 _ _ [0, 1, 1, 1] ⟨rfl, ?_⟩, by decide⟩
  intro i p r hp hr negative
  match i, hp with
  | 0, hp => exact absurd negative (by cases hp; decide)
  | 1, hp => exact absurd negative (by cases hp; decide)
  | 2, hp => exact absurd negative (by cases hp; decide)
  | 3, hp => exact absurd negative (by cases hp; decide)

end Bfc.PollReactor
