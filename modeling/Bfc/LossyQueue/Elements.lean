import Bfc.Lib.Shares
import Bfc.Lib.Tables
import Bfc.LossyQueue.Refinement

/-!
# The elements of the circular lossy queue

The same calls with the objects they move: a slot is an optional that is engaged or not, and what it
is engaged with is an element or what a move has left of one. `take` is a move out of a slot,
`emplace` and `reset` destroy what the slot is engaged with, and each destruction is on record, with
whether `m_queue_mtx` was held. The locals of `push`, `pop` and `set_capacity` that outlive their
critical sections are destroyed after it.

The element handed to `push` is the caller's object, and so is what `pop` returns.
-/

namespace Bfc.LossyQueue

variable {α ρ : Type}

/-- A destructor's run: of an element, or of what a move has left of one. -/
structure Destruction (α : Type) where
  locked : Bool
  content : Option α
deriving DecidableEq

/-- The queue, with `none` for a slot that is not engaged and `some none` for one that is with what
a move has left. -/
abbrev Elements (α ρ : Type) := Queue (Option α) ρ

namespace Elements

/-- `std::move(*m_slots[i])`, moved from. -/
def take (slots : List (Option (Option α))) (i : Nat) :
    Except Fault (Option α × List (Option (Option α))) := do
  let content ← deref slots i
  .ok (content, slots.set i (some none))

/-- `m_slots[i].emplace(x)`, and `m_slots[i].reset()` for `none`, in the critical section. -/
def assign (slots : List (Option (Option α))) (i : Nat) (x : Option (Option α)) :
    Except Fault (List (Option (Option α)) × List (Destruction α)) :=
  match slots[i]? with
  | some old => .ok (slots.set i x, old.toList.map fun content => ⟨true, content⟩)
  | none => .error .outOfRange

/-- `push`. -/
def push (q : Elements α ρ) (u : α) :
    Except Fault (Elements α ρ × Answer α ρ × List (Destruction α)) := do
  let sizeBefore := q.count
  if q.capacity = 0 then
    .ok (q, .pushed sizeBefore (some u) [], [⟨false, some u⟩])
  else if q.count < q.capacity then
    let tail ← modSize (addSize q.head q.count) q.capacity
    let (slots, gone) ← assign q.slots tail (some (some u))
    .ok ({ q with slots := slots, count := addSize q.count 1 },
      .pushed sizeBefore none q.notifyPush, gone)
  else
    let (dropped, slots) ← take q.slots q.head
    let (slots, gone) ← assign slots q.head (some (some u))
    let head ← modSize (addSize q.head 1) q.capacity
    .ok ({ q with slots := slots, head := head }, .pushed sizeBefore dropped q.notifyPush,
      gone ++ [⟨false, dropped⟩])

/-- `pop`. -/
def pop (q : Elements α ρ) :
    Except Fault (Elements α ρ × Answer α ρ × List (Destruction α)) := do
  if q.count = 0 then
    .ok (q, .popped none, [])
  else
    let (out, slots) ← take q.slots q.head
    let (slots, gone) ← assign slots q.head none
    let head ← modSize (addSize q.head 1) q.capacity
    .ok ({ q with slots := slots, head := head, count := q.count - 1 }, .popped out, gone)

/-- The loop of `set_capacity` with `n` elements to go, at `new_slots[i]` and `m_slots[idx]`. -/
def moveSlots (capacity : Nat) : Nat → Nat → Nat → List (Option (Option α)) →
    List (Option (Option α)) → List (Destruction α) →
    Except Fault (List (Option (Option α)) × List (Option (Option α)) × List (Destruction α))
  | 0, _, _, slots, newSlots, gone => .ok (slots, newSlots, gone)
  | n + 1, i, idx, slots, newSlots, gone => do
    let (x, slots) ← take slots idx
    let (newSlots, more) ← assign newSlots i (some x)
    let idx ← modSize (addSize idx 1) capacity
    moveSlots capacity n (i + 1) idx slots newSlots (gone ++ more)

/-- The end of a vector of slots, outside the critical section. -/
def retire (slots : List (Option (Option α))) : List (Destruction α) :=
  (slots.filterMap id).map fun content => ⟨false, content⟩

/-- `set_capacity`: the old slots are swapped into `retired`, which goes when the mutex is
unlocked. -/
def setCapacity (q : Elements α ρ) (capacity : Nat) (allocates : Bool) :
    Except Fault (Elements α ρ × Answer α ρ × List (Destruction α)) := do
  if capacity = q.capacity then
    .ok (q, .done, [])
  else if allocates = false ∨ maxSize < capacity then
    .ok (q, .badAlloc, [])
  else
    let newSlots := List.replicate capacity none
    let keep := if q.capacity = 0 then 0 else min q.count capacity
    let (slots, newSlots, gone) ←
      if keep ≠ 0 then do
        let drop := q.count - keep
        let idx ← modSize (addSize q.head drop) q.capacity
        moveSlots q.capacity keep 0 idx q.slots newSlots []
      else .ok (q.slots, newSlots, [])
    .ok ({ q with slots := newSlots, capacity := capacity, head := 0, count := keep }, .done,
      gone ++ retire slots)

/-- A call. -/
def call (q : Elements α ρ) :
    Op α ρ → Except Fault (Elements α ρ × Answer α ρ × List (Destruction α))
  | .push u => push q u
  | .pop => pop q
  | .size => .ok (q, .number q.count, [])
  | .capacity => .ok (q, .number q.capacity, [])
  | .hasData => .ok (q, .flag (q.count ≠ 0), [])
  | .setCapacity capacity allocates => setCapacity q capacity allocates
  | .setReactor reactor => .ok ({ q with wakeCallback := reactor }, .done, [])

/-- The calls one after the other, with their answers and the destructors run. -/
def run (q : Elements α ρ) :
    List (Op α ρ) → Except Fault (Elements α ρ × List (Answer α ρ) × List (Destruction α))
  | [] => .ok (q, [], [])
  | op :: ops => do
    let (q, answer, gone) ← call q op
    let (q, answers, more) ← run q ops
    .ok (q, answer :: answers, gone ++ more)

end Elements

/-! ## Where the elements are -/

/-- The elements in the slots. -/
def contents (slots : List (Option (Option α))) : List α := Shares.whole (·.join.toList) slots

/-- The elements that were destroyed. -/
def destroyed (gone : List (Destruction α)) : List α := gone.filterMap (·.content)

/-- The element that a call hands over. -/
def Op.hands : Op α ρ → List α
  | .push u => [u]
  | _ => []

/-- The element that a call hands back. -/
def Answer.handsBack : Answer α ρ → List α
  | .popped out => out.toList
  | _ => []

/-- The elements a queue has between calls. -/
def engaged (q : Queue α ρ) : Elements α ρ :=
  { capacity := q.capacity
    head := q.head
    count := q.count
    slots := q.slots.map (Option.map some)
    wakeCallback := q.wakeCallback }

@[simp] theorem engaged_capacity (q : Queue α ρ) : (engaged q).capacity = q.capacity := rfl

@[simp] theorem engaged_head (q : Queue α ρ) : (engaged q).head = q.head := rfl

@[simp] theorem engaged_count (q : Queue α ρ) : (engaged q).count = q.count := rfl

@[simp] theorem engaged_slots (q : Queue α ρ) :
    (engaged q).slots = q.slots.map (Option.map some) := rfl

namespace Elements

/-! ## The parts of the calls -/

theorem contents_engaged (slots : List (Option α)) :
    contents (slots.map (Option.map some)) = slots.filterMap id := by
  induction slots with
  | nil => rfl
  | cons slot rest ih =>
    have tail : Shares.whole (·.join.toList) (rest.map (Option.map some)) = rest.filterMap id := ih
    cases slot with
    | none => simpa [contents, Shares.whole] using tail
    | some x => simpa [contents, Shares.whole] using tail

theorem set_engaged (slots : List (Option α)) (i : Nat) (x : Option α) :
    (slots.map (Option.map some)).set i (x.map some) = (slots.set i x).map (Option.map some) :=
  List.map_set.symm

/-- A move takes the element out of its slot. -/
theorem take_eq {slots : List (Option (Option α))} {i : Nat} {x : α}
    (h : slots[i]? = some (some (some x))) :
    take slots i = .ok (some x, slots.set i (some none)) ∧
      (x :: contents (slots.set i (some none))).Perm (contents slots) := by
  refine ⟨by simp only [take, deref_eq h, bind, Except.bind], ?_⟩
  have moved := Shares.set_perm (fun slot : Option (Option α) => slot.join.toList) h
    (some none)
  simpa [contents] using List.perm_append_comm.trans moved

/-- An assignment to a slot without an element destroys at most what a move has left. -/
theorem assign_eq {slots : List (Option (Option α))} {i : Nat} {old : Option (Option α)}
    (h : slots[i]? = some old) (without : old.join = none) (x : Option (Option α)) :
    ∃ gone, assign slots i x = .ok (slots.set i x, gone) ∧
      (∀ d ∈ gone, d = ⟨true, none⟩) ∧
      (contents (slots.set i x)).Perm (contents slots ++ x.join.toList) := by
  refine ⟨old.toList.map fun content => ⟨true, content⟩, by simp only [assign, h], ?_, ?_⟩
  · intro d hd
    cases old with
    | none => cases hd
    | some content =>
      cases content with
      | none => simpa using hd
      | some y => cases without
  · have moved := Shares.set_perm (fun slot : Option (Option α) => slot.join.toList) h x
    simpa [contents, without] using moved

/-- What a call makes of the elements: under the mutex only what moves have left is destroyed, and
what the slots had and the call was handed is handed back, destroyed or in the slots. -/
structure Settles (before after : List (Option (Option α))) (hands handsBack : List α)
    (gone : List (Destruction α)) : Prop where
  husks : ∀ d ∈ gone, d.locked = true → d.content = none
  balance : (contents before ++ hands).Perm (handsBack ++ destroyed gone ++ contents after)

/-- Husks hold no elements. -/
theorem destroyed_husks {gone : List (Destruction α)} (h : ∀ d ∈ gone, d = ⟨true, none⟩) :
    destroyed gone = [] :=
  List.filterMap_eq_nil_iff.mpr fun d hd => by rw [h d hd]

/-- The slot that `deref` has read is engaged. -/
theorem engaged_of_deref {slots : List (Option α)} {i : Nat} {x : α} (h : deref slots i = .ok x) :
    slots[i]? = some (some x) := by
  unfold deref at h
  split at h
  · cases h
  · cases h
  · rename_i y hy
    rw [hy, Except.ok.inj h]

theorem push_settles {q q' : Queue α ρ} {u : α} {answer : Answer α ρ}
    (h : q.push u = .ok (q', answer))
    (room : q.count < q.capacity →
      q.slots[addSize q.head q.count % q.capacity]? = some none) :
    ∃ gone, push (engaged q) u = .ok (engaged q', answer, gone) ∧
      Settles (engaged q).slots (engaged q').slots [u] answer.handsBack gone := by
  unfold Queue.push at h
  unfold push
  by_cases zero : q.capacity = 0
  · rw [if_pos zero] at h
    rw [if_pos (show (engaged q).capacity = 0 from zero)]
    obtain ⟨rfl, rfl⟩ := Prod.mk.inj (Except.ok.inj h)
    exact ⟨_, rfl, ⟨by simp, List.perm_append_comm⟩⟩
  · rw [if_neg zero] at h
    rw [if_neg (show ¬(engaged q).capacity = 0 from zero)]
    by_cases free : q.count < q.capacity
    · rw [if_pos free, modSize_eq zero] at h
      rw [if_pos (show (engaged q).count < (engaged q).capacity from free)]
      have here : (q.slots.map (Option.map some))[addSize q.head q.count % q.capacity]? =
          some none := by
        rw [List.getElem?_map, room free]
        rfl
      obtain ⟨gone, assigned, husks, moved⟩ := assign_eq here rfl (some (some u))
      have inside := (List.getElem?_eq_some_iff.mp (room free)).1
      rw [show some (some u) = (some u).map some from rfl, set_engaged] at assigned moved
      simp only [bind, Except.bind, store_eq inside] at h
      obtain ⟨rfl, rfl⟩ := Prod.mk.inj (Except.ok.inj h)
      refine ⟨gone, ?_, fun d hd _ => (husks d hd) ▸ rfl, ?_⟩
      · simp only [engaged_head, engaged_count, engaged_capacity, engaged_slots, modSize_eq zero,
          bind, Except.bind]
        rw [show some (some u) = (some u).map some from rfl, assigned]
        rfl
      · rw [destroyed_husks husks]
        exact moved.symm
    · rw [if_neg free] at h
      rw [if_neg (show ¬(engaged q).count < (engaged q).capacity from free)]
      cases read : deref q.slots q.head with
      | error fault => simp [bind, Except.bind, read] at h
      | ok x =>
        have here := engaged_of_deref read
        have inside := (List.getElem?_eq_some_iff.mp here).1
        simp only [bind, Except.bind, read, store_eq inside, modSize_eq zero] at h
        obtain ⟨rfl, rfl⟩ := Prod.mk.inj (Except.ok.inj h)
        have full : (q.slots.map (Option.map some))[q.head]? = some (some (some x)) := by
          rw [List.getElem?_map, here]
          rfl
        obtain ⟨taken, out⟩ := take_eq full
        obtain ⟨gone, assigned, husks, moved⟩ :=
          assign_eq (Tables.set_here full (some none)) rfl (some (some u))
        refine ⟨gone ++ [⟨false, some x⟩], ?_, fun d hd locked => ?_, ?_⟩
        · simp only [engaged_head, engaged_capacity, engaged_slots, bind, Except.bind, taken,
            assigned, modSize_eq zero]
          rw [List.set_set, show some (some u) = (some u).map some from rfl, set_engaged]
          rfl
        · rcases List.mem_append.mp hd with hd | hd
          · rw [husks d hd]
          · rw [List.mem_singleton.mp hd] at locked
            cases locked
        · rw [List.set_set, show some (some u) = (some u).map some from rfl, set_engaged] at moved
          rw [destroyed, List.filterMap_append,
            show gone.filterMap (·.content) = [] from destroyed_husks husks]
          exact (out.symm.append_right [u]).trans (List.Perm.cons x moved.symm)

theorem pop_settles {q q' : Queue α ρ} {answer : Answer α ρ} (h : q.pop = .ok (q', answer)) :
    ∃ gone, pop (engaged q) = .ok (engaged q', answer, gone) ∧
      Settles (engaged q).slots (engaged q').slots [] answer.handsBack gone := by
  unfold Queue.pop at h
  unfold pop
  by_cases empty : q.count = 0
  · rw [if_pos empty] at h
    rw [if_pos (show (engaged q).count = 0 from empty)]
    obtain ⟨rfl, rfl⟩ := Prod.mk.inj (Except.ok.inj h)
    refine ⟨[], rfl, ⟨fun d hd => absurd hd List.not_mem_nil, ?_⟩⟩
    rw [List.append_nil]
    exact List.Perm.refl _
  · rw [if_neg empty] at h
    rw [if_neg (show ¬(engaged q).count = 0 from empty)]
    cases read : deref q.slots q.head with
    | error fault => simp [bind, Except.bind, read] at h
    | ok x =>
      have here := engaged_of_deref read
      have inside := (List.getElem?_eq_some_iff.mp here).1
      by_cases zero : q.capacity = 0
      · simp [bind, Except.bind, read, store_eq inside, modSize, zero] at h
      · simp only [bind, Except.bind, read, store_eq inside, modSize_eq zero] at h
        obtain ⟨rfl, rfl⟩ := Prod.mk.inj (Except.ok.inj h)
        have full : (q.slots.map (Option.map some))[q.head]? = some (some (some x)) := by
          rw [List.getElem?_map, here]
          rfl
        obtain ⟨taken, out⟩ := take_eq full
        obtain ⟨gone, assigned, husks, moved⟩ :=
          assign_eq (Tables.set_here full (some none)) rfl none
        refine ⟨gone, ?_, fun d hd _ => (husks d hd) ▸ rfl, ?_⟩
        · simp only [engaged_head, engaged_capacity, engaged_count, engaged_slots, bind,
            Except.bind, taken, assigned, modSize_eq zero]
          rw [List.set_set, show none = (none : Option α).map some from rfl, set_engaged]
          rfl
        · rw [List.set_set, show none = (none : Option α).map some from rfl, set_engaged] at moved
          rw [destroyed_husks husks, List.append_nil]
          exact out.symm.trans (List.Perm.cons x (by simpa using moved.symm))

/-- The loop of `set_capacity`: what it reads has not been moved from yet, and what it fills was
not engaged. -/
theorem moveSlots_settles {q : Queue α ρ} (small : q.capacity ≤ maxSize) :
    ∀ (n i idx : Nat) (slots : List (Option (Option α))) (newSlots newSlots' : List (Option α))
      (gone : List (Destruction α)),
    q.moveSlots n i idx newSlots = .ok newSlots' → n ≤ q.capacity → idx < q.capacity →
    (∀ j < n, slots[(idx + j) % q.capacity]? =
      (q.slots.map (Option.map some))[(idx + j) % q.capacity]?) →
    (∀ j, i ≤ j → ∀ slot, newSlots[j]? = some slot → slot = none) →
    (∀ d ∈ gone, d = ⟨true, none⟩) →
    ∃ slots' gone', moveSlots q.capacity n i idx slots (newSlots.map (Option.map some)) gone =
        .ok (slots', newSlots'.map (Option.map some), gone') ∧
      (∀ d ∈ gone', d = ⟨true, none⟩) ∧
      (contents slots ++ contents (newSlots.map (Option.map some))).Perm
        (contents slots' ++ contents (newSlots'.map (Option.map some))) := by
  intro n
  induction n with
  | zero =>
    intro i idx slots newSlots newSlots' gone h _ _ _ _ husks
    obtain rfl := Except.ok.inj h
    exact ⟨slots, gone, rfl, husks, List.Perm.refl _⟩
  | succ n ih =>
    intro i idx slots newSlots newSlots' gone h few hidx left free husks
    have zero : q.capacity ≠ 0 := by omega
    have sum : addSize idx 1 = idx + 1 := by
      refine addSize_eq ?_
      rw [maxSize] at small
      omega
    unfold Queue.moveSlots at h
    cases read : deref q.slots idx with
    | error fault => simp [bind, Except.bind, read] at h
    | ok x =>
      by_cases inside : i < newSlots.length
      · simp only [bind, Except.bind, read, store_eq inside, sum, modSize_eq zero] at h
        have full : slots[idx]? = some (some (some x)) := by
          have first := left 0 (Nat.zero_lt_succ n)
          rw [Nat.add_zero, Nat.mod_eq_of_lt hidx] at first
          rw [first, List.getElem?_map, engaged_of_deref read]
          rfl
        have vacant : (newSlots.map (Option.map some))[i]? = some none := by
          rw [List.getElem?_map, List.getElem?_eq_getElem inside,
            free i (Nat.le_refl i) _ (List.getElem?_eq_getElem inside)]
          rfl
        obtain ⟨taken, out⟩ := take_eq full
        obtain ⟨more, assigned, fresh, moved⟩ := assign_eq vacant rfl (some (some x))
        rw [show some (some x) = (some x).map some from rfl, set_engaged] at assigned moved
        have left' : ∀ j < n, (slots.set idx (some none))[((idx + 1) % q.capacity + j) %
            q.capacity]? = (q.slots.map (Option.map some))[((idx + 1) % q.capacity + j) %
            q.capacity]? := by
          intro j hj
          rw [show ((idx + 1) % q.capacity + j) % q.capacity = (idx + (j + 1)) % q.capacity by
            rw [Nat.mod_add_mod, Nat.add_assoc, Nat.add_comm 1 j]]
          rw [List.getElem?_set_ne, left (j + 1) (by omega)]
          intro same
          have first : (idx + 0) % q.capacity = (idx + (j + 1)) % q.capacity := by
            rw [← same, Nat.add_zero, Nat.mod_eq_of_lt hidx]
          cases Ring.place_inj (Nat.pos_of_ne_zero zero) (by omega) first
        have free' : ∀ j, i + 1 ≤ j → ∀ slot, (newSlots.set i (some x))[j]? = some slot →
            slot = none := by
          intro j hj slot hslot
          rw [List.getElem?_set_ne (by omega)] at hslot
          exact free j (by omega) slot hslot
        have husks' : ∀ d ∈ gone ++ more, d = ⟨true, none⟩ := fun d hd =>
          (List.mem_append.mp hd).elim (husks d) (fresh d)
        obtain ⟨slots', gone', rest, still, kept⟩ := ih (i + 1) ((idx + 1) % q.capacity)
          (slots.set idx (some none)) (newSlots.set i (some x)) newSlots' (gone ++ more) h
          (by omega) (Nat.mod_lt _ (Nat.pos_of_ne_zero zero)) left' free' husks'
        refine ⟨slots', gone', ?_, still, ?_⟩
        · simp only [moveSlots, taken, bind, Except.bind, sum, modSize_eq zero]
          rw [show some (some x) = (some x).map some from rfl, assigned]
          exact rest
        · refine List.Perm.trans ?_ kept
          refine (out.symm.append_right _).trans ?_
          refine List.Perm.trans ?_ (moved.symm.append_left _)
          rw [← List.append_assoc]
          exact (List.perm_append_singleton x _).symm
      · simp [bind, Except.bind, read, store, inside] at h

theorem contents_replicate (n : Nat) :
    contents (List.replicate n (none : Option (Option α))) = [] := by
  induction n with
  | zero => rfl
  | succ n ih => exact ih

/-- The end of a vector of slots destroys its elements, and not under the mutex. -/
theorem destroyed_retire (slots : List (Option (Option α))) :
    destroyed (retire slots) = contents slots := by
  induction slots with
  | nil => rfl
  | cons slot rest ih =>
    cases slot with
    | none => exact ih
    | some content =>
      cases content with
      | none => exact ih
      | some x => exact congrArg (x :: ·) ih

/-- The old slots go with what was not moved out of them. -/
theorem retired {before slots after : List (Option (Option α))} {gone : List (Destruction α)}
    (husks : ∀ d ∈ gone, d = ⟨true, none⟩)
    (moved : (contents before).Perm (contents slots ++ contents after)) :
    Settles before after [] [] (gone ++ retire slots) where
  husks d hd locked := by
    rcases List.mem_append.mp hd with hd | hd
    · rw [husks d hd]
    · obtain ⟨content, _, rfl⟩ := List.mem_map.mp hd
      cases locked
  balance := by
    rw [destroyed, List.filterMap_append,
      show gone.filterMap (·.content) = [] from destroyed_husks husks,
      show (retire slots).filterMap (·.content) = contents slots from destroyed_retire slots]
    simpa using moved

theorem setCapacity_settles {q q' : Queue α ρ} {capacity : Nat} {allocates : Bool}
    {answer : Answer α ρ} (small : q.capacity ≤ maxSize) (fits : q.count ≤ q.capacity)
    (h : q.setCapacity capacity allocates = .ok (q', answer)) :
    ∃ gone, setCapacity (engaged q) capacity allocates = .ok (engaged q', answer, gone) ∧
      Settles (engaged q).slots (engaged q').slots [] answer.handsBack gone := by
  have still : Settles (engaged q).slots (engaged q).slots [] [] [] :=
    ⟨fun d hd => absurd hd List.not_mem_nil, by rw [List.append_nil]; exact List.Perm.refl _⟩
  unfold Queue.setCapacity at h
  unfold setCapacity
  by_cases same : capacity = q.capacity
  · rw [if_pos same] at h
    rw [if_pos (show capacity = (engaged q).capacity from same)]
    obtain ⟨rfl, rfl⟩ := Prod.mk.inj (Except.ok.inj h)
    exact ⟨[], rfl, still⟩
  · rw [if_neg same] at h
    rw [if_neg (show ¬capacity = (engaged q).capacity from same)]
    by_cases fails : allocates = false ∨ maxSize < capacity
    · rw [if_pos fails] at h
      rw [if_pos fails]
      obtain ⟨rfl, rfl⟩ := Prod.mk.inj (Except.ok.inj h)
      exact ⟨[], rfl, still⟩
    · rw [if_neg fails] at h
      rw [if_neg fails]
      have kept : (if q.capacity = 0 then 0 else min q.count capacity) = min q.count capacity := by
        split <;> omega
      have kept' : (if (engaged q).capacity = 0 then 0 else min (engaged q).count capacity) =
          min q.count capacity := kept
      have empty : List.replicate capacity none =
          (List.replicate capacity (none : Option α)).map (Option.map some) := by
        rw [List.map_replicate]
        rfl
      have vacant : contents ((List.replicate capacity (none : Option α)).map (Option.map some)) =
          [] := by
        rw [← empty, contents_replicate]
      simp only [kept, bind, Except.bind] at h
      simp only [kept', bind, Except.bind]
      by_cases nothing : min q.count capacity = 0
      · rw [if_neg (not_not_intro nothing)] at h
        rw [if_neg (not_not_intro nothing), empty]
        obtain ⟨rfl, rfl⟩ := Prod.mk.inj (Except.ok.inj h)
        refine ⟨_, rfl, retired (fun d hd => absurd hd List.not_mem_nil) ?_⟩
        rw [engaged_slots, engaged_slots, vacant, List.append_nil]
      · have zero : q.capacity ≠ 0 := by omega
        rw [if_pos nothing] at h
        rw [if_pos nothing, empty]
        simp only [modSize_eq zero] at h
        simp only [engaged_head, engaged_capacity, engaged_count, engaged_slots, modSize_eq zero]
        cases loop : q.moveSlots (min q.count capacity) 0
            (addSize q.head (q.count - min q.count capacity) % q.capacity)
            (List.replicate capacity none) with
        | error fault => simp [loop] at h
        | ok newSlots =>
          simp only [loop] at h
          obtain ⟨rfl, rfl⟩ := Prod.mk.inj (Except.ok.inj h)
          obtain ⟨slots, gone, run, husks, moved⟩ := moveSlots_settles small _ _ _
            (q.slots.map (Option.map some)) _ _ [] loop (by omega)
            (Nat.mod_lt _ (Nat.pos_of_ne_zero zero)) (fun j hj => rfl)
            (fun j _ slot hslot => (List.mem_replicate.mp (List.mem_of_getElem? hslot)).2)
            (fun d hd => absurd hd List.not_mem_nil)
          rw [vacant, List.append_nil] at moved
          rw [run]
          exact ⟨_, rfl, retired husks moved⟩

/-- **Each call does with the elements what the plain call does.** -/
theorem call_settles {q q' : Queue α ρ} {b : Bounded α ρ} (h : Represents q b) {op : Op α ρ}
    {answer : Answer α ρ} (step : q.call op = .ok (q', answer)) :
    ∃ gone, call (engaged q) op = .ok (engaged q', answer, gone) ∧
      Settles (engaged q).slots (engaged q').slots op.hands answer.handsBack gone := by
  have still : Settles (engaged q).slots (engaged q).slots [] [] [] :=
    ⟨fun d hd => absurd hd List.not_mem_nil, by rw [List.append_nil]; exact List.Perm.refl _⟩
  cases op with
  | push u =>
    refine push_settles step fun free => ?_
    have small := h.small
    have sum : addSize q.head q.count = q.head + q.count := by
      refine addSize_eq ?_
      have head := h.head_lt (Nat.zero_lt_of_lt free)
      rw [maxSize] at small
      omega
    have tail := h.window.place b.items.length (by rw [h.slots, ← h.count]; exact free)
    rw [h.slots, ← h.count] at tail
    rw [sum, tail, h.count, List.getElem?_eq_none (Nat.le_refl _)]
  | pop => exact pop_settles step
  | setCapacity capacity allocates => exact setCapacity_settles h.small h.count_le step
  | size | capacity | hasData | setReactor reactor =>
    obtain ⟨rfl, rfl⟩ := Prod.mk.inj (Except.ok.inj step)
    exact ⟨[], rfl, still⟩

/-- What is handed back and what is in the list are of what was there and was handed over, in
order. -/
theorem call_sublist (b : Bounded α ρ) (op : Op α ρ) :
    ((b.call op).2.handsBack ++ (b.call op).1.items).Sublist (b.items ++ op.hands) := by
  cases op with
  | push u =>
    show (DropOldest.push b.bound b.items u).Sublist (b.items ++ [u])
    unfold DropOldest.push
    split
    · exact List.sublist_append_left _ _
    · split
      · exact List.Sublist.refl _
      · exact (List.drop_sublist 1 b.items).append_right [u]
  | pop =>
    show (b.items.head?.toList ++ b.items.drop 1).Sublist (b.items ++ [])
    cases b.items with
    | nil => exact List.Sublist.refl _
    | cons x rest => rw [List.append_nil]; exact List.Sublist.refl _
  | setCapacity capacity allocates =>
    show ((b.setBound capacity allocates).2.handsBack ++
      (b.setBound capacity allocates).1.items).Sublist (b.items ++ [])
    rw [List.append_nil]
    unfold Bounded.setBound
    split
    · exact List.Sublist.refl _
    · exact List.drop_sublist _ _
  | size | capacity | hasData | setReactor reactor =>
    show b.items.Sublist (b.items ++ [])
    rw [List.append_nil]

theorem run_sublist (ops : List (Op α ρ)) (b : Bounded α ρ) :
    ((b.run ops).2.flatMap Answer.handsBack ++ (b.run ops).1.items).Sublist
      (b.items ++ ops.flatMap Op.hands) := by
  induction ops generalizing b with
  | nil => rw [List.flatMap_nil, List.append_nil]; exact List.Sublist.refl _
  | cons op ops ih =>
    rw [Bounded.run, List.flatMap_cons, List.flatMap_cons, List.append_assoc]
    refine ((ih (b.call op).1).append_left _).trans ?_
    rw [← List.append_assoc, ← List.append_assoc]
    exact (call_sublist b op).append_right _

/-- A run of calls does with the elements what the plain run does. -/
theorem run_settles {q : Queue α ρ} {b : Bounded α ρ} (h : Represents q b)
    (ops : List (Op α ρ)) :
    ∃ q' gone, run (engaged q) ops = .ok (engaged q', (b.run ops).2, gone) ∧
      Represents q' (b.run ops).1 ∧
      Settles (engaged q).slots (engaged q').slots (ops.flatMap Op.hands)
        ((b.run ops).2.flatMap Answer.handsBack) gone := by
  induction ops generalizing q b with
  | nil =>
    refine ⟨q, [], rfl, h, fun d hd => absurd hd List.not_mem_nil, ?_⟩
    rw [List.flatMap_nil, List.append_nil]
    exact List.Perm.refl _
  | cons op ops ih =>
    obtain ⟨q₁, plain, h₁⟩ := h.call op
    obtain ⟨gone, first, settles⟩ := call_settles h plain
    obtain ⟨q₂, more, rest, h₂, settled⟩ := ih h₁
    refine ⟨q₂, gone ++ more, ?_, h₂, ?_, ?_⟩
    · simp only [run, bind, Except.bind, first, rest, Bounded.run]
    · intro d hd
      exact (List.mem_append.mp hd).elim (settles.husks d) (settled.husks d)
    · have both : destroyed (gone ++ more) = destroyed gone ++ destroyed more :=
        List.filterMap_append
      rw [List.flatMap_cons, Bounded.run, List.flatMap_cons, ← List.append_assoc, both]
      refine (settles.balance.append_right _).trans ?_
      rw [List.append_assoc _ (contents _) _]
      refine (settled.balance.append_left _).trans ?_
      simp only [List.append_assoc]
      exact List.perm_append_comm_assoc _ _ _ |>.append_left _

end Elements

/-- **No element is lost, none is handed out twice, and none is destroyed under the queue's
mutex.** Whatever is called on a new queue, the calls do without a fault what the bounded list does
and answer the same. The elements handed to `push` are those that `pop` handed back, those that were
destroyed and those in the list; what was handed back comes in the order of the pushes and before
what is in the list; and a destructor that runs with `m_queue_mtx` held runs on what a move has
left. -/
theorem elements_accounted (ops : List (Op α ρ)) :
    ∃ (q : Queue α ρ) (gone : List (Destruction α)),
      Elements.run {} ops = .ok (engaged q, (({} : Bounded α ρ).run ops).2, gone) ∧
      Represents q (({} : Bounded α ρ).run ops).1 ∧
      (∀ d ∈ gone, d.locked = true → d.content = none) ∧
      (ops.flatMap Op.hands).Perm
        ((({} : Bounded α ρ).run ops).2.flatMap Answer.handsBack ++ destroyed gone ++
          (({} : Bounded α ρ).run ops).1.items) ∧
      ((({} : Bounded α ρ).run ops).2.flatMap Answer.handsBack ++
        (({} : Bounded α ρ).run ops).1.items).Sublist (ops.flatMap Op.hands) := by
  obtain ⟨q, gone, run, h, settles⟩ := Elements.run_settles represents_fresh ops
  refine ⟨q, gone, run, h, settles.husks, ?_, Elements.run_sublist ops {}⟩
  refine settles.balance.trans (List.Perm.append_left _ ?_)
  rw [engaged_slots, Elements.contents_engaged]
  exact h.window.perm

/-- A full queue destroys the element it drops, and a smaller capacity those that do not fit. -/
example : ∃ q, Elements.run ({} : Elements Nat Unit) [.setCapacity 3 true, .push 1, .push 2,
    .push 3, .push 4, .setCapacity 1 true, .pop] =
      .ok (q, [.done, .pushed 0 none [], .pushed 1 none [], .pushed 2 none [],
        .pushed 3 (some 1) [], .done, .popped (some 4)],
        [⟨true, none⟩, ⟨false, some 1⟩, ⟨false, none⟩, ⟨false, some 2⟩, ⟨false, some 3⟩,
          ⟨true, none⟩]) := by
  exact ⟨_, rfl⟩

end Bfc.LossyQueue
