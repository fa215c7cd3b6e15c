import Bfc.MemoryPool.SharedOwners

/-!
# A view keeps its block

Every call is a sequence of the transfers of `Bfc.MemoryPool.SharedOwners`, aliasing included, and
no call of the pools but its destructor takes a shared buffer away. So `views_keep_blocks`: in every
run, the block that a view shows is no other buffer's and in no free list. A shared buffer may be
reset or moved from by anyone, and `view` checks nothing; where the calls do neither, the bytes that
a view shows are inside its block.
-/

namespace Bfc.MemoryPool

open Bfc.Buffers Lts References

namespace Counted

variable {fits : Prop} {w : Shared} {L : List Nat}

/-! ## The calls -/

/-- A copy of what a variable refers to, as a new variable. -/
theorem copied (h : Counted fits [] w) {i : Nat} {holder : Holder} (new : Holder)
    (hi : w.holders[i]? = some (some holder)) (refers : new.refers = holder.refers)
    (ok : fits → ∀ v, new = .view v → ViewOk w v) :
    ∃ w', w.acquire holder.refers = .ok w' ∧ Counted fits [] (w'.newHolder new) := by
  obtain ⟨w', acquired, counted, -, same⟩ := h.acquire fun id own => held_pos hi own
  rw [← refers] at counted
  exact ⟨w', acquired, counted.newHolder new fun fit v hv => same.viewOk (ok fit v hv)⟩

/-- A variable that refers to what another does, and lets go of its own. -/
theorem assigned (h : Counted fits [] w) {this other : Nat} {old holder : Holder} (new : Holder)
    (hi : w.holders[this]? = some (some old)) (ho : w.holders[other]? = some (some holder))
    (refers : new.refers = holder.refers) (ok : fits → ∀ v, new = .view v → ViewOk w v) :
    ∃ w₁ w', w.acquire holder.refers = .ok w₁ ∧
      (w₁.setHolder this (some new)).release old.refers = .ok w' ∧ Counted fits [] w' := by
  obtain ⟨w₁, acquired, counted, holders, same⟩ := h.acquire fun id own => held_pos ho own
  rw [← refers] at counted
  have here : w₁.holders[this]? = some (some old) := holders ▸ hi
  have written : Counted fits (old.refers.toList ++ []) (w₁.setHolder this (some new)) :=
    counted.setHolder (some new) here fun fit v hv => same.viewOk (ok fit v (Option.some.inj hv))
  obtain ⟨w', released, counted, -⟩ := written.release
  exact ⟨w₁, w', acquired, released, counted⟩

theorem copyPointer (h : Counted fits [] w) {other : Nat} {p : Option Nat}
    (hp : w.pointer other = .ok p) : ∃ w', w.copyPointer other = .ok w' ∧ Counted fits [] w' := by
  obtain ⟨w', acquired, counted⟩ := h.copied (.pointer p) (pointer_eq hp) rfl
    fun _ v hv => by cases hv
  have run : w.acquire p = .ok w' := acquired
  refine ⟨_, ?_, counted⟩
  simp only [Shared.copyPointer, bind, Except.bind, hp, run]

theorem movePointer (h : Counted fits [] w) {other : Nat} {p : Option Nat}
    (hp : w.pointer other = .ok p) : ∃ w', w.movePointer other = .ok w' ∧ Counted fits [] w' := by
  have moved : Counted fits ((Holder.pointer p).refers.toList ++ [])
      (w.setHolder other (some (.pointer none))) :=
    h.setHolder (some (.pointer none)) (pointer_eq hp) fun _ v hv => by cases hv
  refine ⟨_, ?_, moved.newHolder (.pointer p) fun _ v hv => by cases hv⟩
  simp only [Shared.movePointer, bind, Except.bind, hp]

theorem assignPointer (h : Counted fits [] w) {this other : Nat} {old p : Option Nat}
    (hthis : w.pointer this = .ok old) (hother : w.pointer other = .ok p) :
    ∃ w', w.assignPointer this other = .ok w' ∧ Counted fits [] w' := by
  obtain ⟨w₁, w', acquired, released, counted⟩ := h.assigned (.pointer p)
    (pointer_eq hthis) (pointer_eq hother) rfl fun _ v hv => by cases hv
  have run : w.acquire p = .ok w₁ := acquired
  refine ⟨w', ?_, counted⟩
  simp only [Shared.assignPointer, bind, Except.bind, hthis, hother, run]
  exact released

theorem moveAssignPointer (h : Counted fits [] w) {this other : Nat} {old p : Option Nat}
    (hthis : w.pointer this = .ok old) (hother : w.pointer other = .ok p) :
    ∃ w', w.moveAssignPointer this other = .ok w' ∧ Counted fits [] w' := by
  have moved : Counted fits ((Holder.pointer p).refers.toList ++ [])
      (w.setHolder other (some (.pointer none))) :=
    h.setHolder (some (.pointer none)) (pointer_eq hother) fun _ v hv => by cases hv
  -- what is assigned to has been moved from, if it is the same
  obtain ⟨left, there⟩ : ∃ left, (w.setHolder other (some (.pointer none))).holders[this]? =
      some (some (.pointer left)) := by
    by_cases same : this = other
    · exact ⟨none, same ▸ Tables.set_here (pointer_eq hother) _⟩
    · exact ⟨old, (List.getElem?_set_ne (Ne.symm same)).trans (pointer_eq hthis)⟩
  have written := moved.setHolder (some (.pointer p)) there fun _ v hv => by cases hv
  obtain ⟨w', released, counted, -⟩ := written.release
  refine ⟨w', ?_, counted⟩
  have holds := pointer_of there
  simp only [Shared.moveAssignPointer, bind, Except.bind, hother, holds]
  exact released

theorem drop (h : Counted fits [] w) {this : Nat} {holder : Holder}
    (hi : w.holders[this]? = some (some holder)) :
    ∃ w', w.drop this = .ok w' ∧ Counted fits [] w' := by
  have gone : Counted fits (holder.refers.toList ++ []) (w.setHolder this none) :=
    h.setHolder none hi fun _ v hv => by cases hv
  obtain ⟨w', released, counted, -⟩ := gone.release
  refine ⟨w', ?_, counted⟩
  simp only [Shared.drop, Shared.holder, hi, bind, Except.bind]
  exact released

/-- The argument of a constructor. -/
theorem argument (h : Counted fits [] w) {p : Nat} {buffer : Option Nat}
    (hp : w.pointer p = .ok buffer) (moved : Bool) :
    ∃ w', w.argument p moved = .ok (buffer, w') ∧ Counted fits (buffer.toList ++ []) w' ∧
      SameBuffers w w' := by
  cases moved with
  | true =>
    refine ⟨w.setHolder p (some (.pointer none)), ?_, ?_, rfl, fun id c hc => ⟨c, hc, rfl⟩⟩
    · simp only [Shared.argument, bind, Except.bind, hp]
      rfl
    · exact h.setHolder (some (.pointer none)) (pointer_eq hp) fun _ v hv => by cases hv
  | false =>
    obtain ⟨w', acquired, counted, -, same⟩ := h.acquire fun id own => held_pos (pointer_eq hp) own
    have run : w.acquire buffer = .ok w' := acquired
    refine ⟨w', ?_, counted, same⟩
    simp only [Shared.argument, bind, Except.bind, hp, run]
    rfl

theorem partView (h : Counted fits [] w) {p : Nat} {buffer : Option Nat} {offset size : Nat}
    (hp : w.pointer p = .ok buffer) (room : w.room buffer offset size = true) (moved : Bool) :
    ∃ w', w.partView offset size p moved = .ok w' ∧ Counted fits [] w' := by
  have ok := h.viewOk_of_room (.inl (pointer_eq hp)) room
  obtain ⟨w₁, argued, counted, same⟩ := h.argument hp moved
  refine ⟨_, ?_, counted.newHolder
    (.view { buffer := buffer, offset := offset, size := size }) fun _ v hv => ?_⟩
  · simp only [Shared.partView, bind, Except.bind, argued]
  · obtain rfl := Holder.view.inj hv
    exact same.viewOk ok

theorem fullView (h : Counted fits [] w) {p : Nat} {buffer : Option Nat}
    (hp : w.pointer p = .ok buffer) (room : w.room buffer 0 0 = true) (moved : Bool) :
    ∃ w', w.fullView p moved = .ok w' ∧ Counted fits [] w' := by
  obtain ⟨id, rfl⟩ : ∃ id, buffer = some id := by
    cases buffer with
    | none => cases room
    | some id => exact ⟨id, rfl⟩
  obtain ⟨w₁, argued, counted, same⟩ := h.argument hp moved
  have pos : 0 < w₁.held ((some id).toList ++ []) id :=
    Nat.lt_of_lt_of_le (List.count_pos_iff.mpr (List.mem_singleton_self id)) (Nat.le_add_left ..)
  obtain ⟨b, run, there⟩ := counted.deref pos
  refine ⟨_, ?_, counted.newHolder
    (.view { buffer := some id, offset := 0, size := b.size }) fun _ v hv id' own => ?_⟩
  · simp only [Shared.fullView, bind, Except.bind, argued, run]
  · obtain rfl := Holder.view.inj hv
    obtain rfl := Option.some.inj own
    exact ⟨b, there, Nat.le_of_eq (Nat.zero_add _)⟩

theorem copyView (h : Counted fits [] w) {other : Nat} {v : View} (hv : w.view other = .ok v) :
    ∃ w', w.copyView other = .ok w' ∧ Counted fits [] w' := by
  obtain ⟨w', acquired, counted⟩ := h.copied (.view v) (view_eq hv) rfl fun fit v' same =>
    Holder.view.inj same ▸ h.views fit other v (view_eq hv)
  have run : w.acquire v.buffer = .ok w' := acquired
  refine ⟨_, ?_, counted⟩
  simp only [Shared.copyView, bind, Except.bind, hv, run]

/-- A view of `const` bytes is a copy. -/
theorem constView_eq (w : Shared) (other : Nat) : w.constView other = w.copyView other := by
  unfold Shared.constView Shared.copyView Shared.getSharedBuffer
  simp only [bind, Except.bind]
  cases w.view other with
  | error e => rfl
  | ok v =>
    dsimp only
    cases w.acquire v.buffer with
    | error e => rfl
    | ok w' => rfl

theorem sharedBuffer (h : Counted fits [] w) {this : Nat} {v : View} (hv : w.view this = .ok v) :
    ∃ w', w.sharedBuffer this = .ok w' ∧ Counted fits [] w' := by
  obtain ⟨w', acquired, counted⟩ := h.copied (.pointer v.buffer) (view_eq hv) rfl
    fun _ v' same => by cases same
  have run : w.acquire v.buffer = .ok w' := acquired
  refine ⟨_, ?_, counted⟩
  simp only [Shared.sharedBuffer, Shared.getSharedBuffer, bind, Except.bind, hv, run]

/-- The assignment of a view is that of its members at once. -/
theorem assignView (h : Counted fits [] w) {this other : Nat} {old v : View}
    (hthis : w.view this = .ok old) (hother : w.view other = .ok v) :
    ∃ w', w.assignView this other = .ok w' ∧ Counted fits [] w' := by
  obtain ⟨w₁, w', acquired, released, counted⟩ := h.assigned (.view v)
    (view_eq hthis) (view_eq hother) rfl fun fit v' same =>
      Holder.view.inj same ▸ h.views fit other v (view_eq hother)
  have run : w.acquire v.buffer = .ok w₁ := acquired
  have run' : (w₁.setHolder this (some (.view v))).release old.buffer = .ok w' := released
  refine ⟨w', ?_, counted⟩
  simp only [Shared.assignView, bind, Except.bind, hthis, hother, run]
  rw [release_setHolder] at run' ⊢
  obtain ⟨w₂, gone, run'⟩ := of_bind_ok run'
  obtain rfl := Except.ok.inj run'
  simp only [gone, bind, Except.bind]
  show Except.ok ((w₂.setHolder this _).setHolder this _) = _
  simp only [Shared.setHolder, List.set_set]

theorem setView (h : Counted fits [] w) {this offset size : Nat} {v : View}
    (hv : w.view this = .ok v)
    (room : fits → v.buffer.isNone = true ∨ w.room v.buffer offset size = true) :
    ∃ w', w.setView this offset size = .ok w' ∧ Counted fits [] w' := by
  have ok : fits → ViewOk w { v with offset := offset, size := size } := by
    intro fit
    rcases room fit with null | room
    · intro id same
      rw [Option.isNone_iff_eq_none.mp null] at same
      cases same
    · exact h.viewOk_of_room (.inr ⟨v, view_eq hv, rfl⟩) room
  refine ⟨_, ?_, h.rewrite (.view { v with offset := offset, size := size }) (view_eq hv)
    rfl fun fit v' same => Holder.view.inj same ▸ ok fit⟩
  simp only [Shared.setView, bind, Except.bind, hv]

/-! ## Calls of the pools -/

theorem ne_of_unmanaged {i : Nat} (unmanaged : w.managed i = false) {id : Nat} {c : Control}
    (hc : w.controls[id]? = some c) : c.buffer ≠ i := by
  intro own
  have found : w.managed i = true :=
    List.any_eq_true.mpr ⟨c, List.mem_of_getElem? hc, decide_eq_true own⟩
  rw [unmanaged] at found
  cases found

/-- The pools change, and the shared buffers stay there; what is in them stays if the calls fit. -/
theorem of_pools (h : Counted fits L w) {pools : World} (accounted : Accounted [] pools)
    (stays : ∀ (id : Nat) (c : Control) (slot : Option Buffer), w.controls[id]? = some c →
      w.pools.buffers[c.buffer]? = some slot → pools.Stays c.buffer slot)
    (kept : fits → ∀ (id : Nat) (c : Control) (slot : Option Buffer), w.controls[id]? = some c →
      w.pools.buffers[c.buffer]? = some slot → pools.buffers[c.buffer]? = some slot) :
    Counted fits L { w with pools := pools } := by
  refine
    { pools := accounted
      uses := h.uses
      known := h.known
      gone := fun id c hc unused => ?_
      there := fun id c hc used => ?_
      apart := h.apart
      views := fun fit i v hv id hid => ?_ }
  · obtain ⟨slot, there, same⟩ := stays id c _ hc (h.gone id c hc unused)
    rw [Option.isSome_none, Option.isSome_eq_false_iff, Option.isNone_iff_eq_none] at same
    exact same ▸ there
  · obtain ⟨b, c', hc', hb⟩ := h.there id c hc used
    obtain ⟨slot, there, same⟩ := stays id c' _ hc' hb
    obtain ⟨b', rfl⟩ := Option.isSome_iff_exists.mp (same.trans rfl)
    exact ⟨b', c', hc', there⟩
  · obtain ⟨b, ⟨c, hc, hb⟩, within⟩ := h.views fit i v hv id hid
    exact ⟨b, ⟨c, hc, kept fit id c _ hc hb⟩, within⟩

theorem poolCall (h : Counted fits L w) (op : Op)
    (owners : ∀ i ∈ op.destroys, w.managed i = false)
    (unmanaged : fits → ∀ i ∈ op.objects, w.managed i = false) :
    ∃ pools, w.pools.call op = .ok pools ∧ Counted fits L { w with pools := pools } := by
  obtain ⟨pools, run, accounted⟩ := h.pools.call op
  refine ⟨pools, run, h.of_pools accounted (fun id c slot hc hb => ?_)
    fun fit id c slot hc hb => ?_⟩
  · refine World.call_stays run hb fun named => ?_
    exact ne_of_unmanaged (owners _ named) hc rfl
  · refine World.call_buffers run hb fun named => ?_
    exact ne_of_unmanaged (unmanaged fit _ named) hc rfl

/-- The new control block, and a local that refers to it. -/
theorem addControl (h : Counted fits L w) {k : Nat} {b : Buffer}
    (hk : w.pools.buffers[k]? = some (some b))
    (unmanaged : ∀ (id : Nat) (c : Control), w.controls[id]? = some c → c.buffer ≠ k) :
    Counted fits (w.controls.length :: L)
      { w with controls := w.controls ++ [{ buffer := k, uses := 1 }] } := by
  let w' : Shared := { w with controls := w.controls ++ [{ buffer := k, uses := 1 }] }
  have unheld : w.held L w.controls.length = 0 := by
    by_contra held
    exact Nat.lt_irrefl _ (h.known _ (Nat.pos_of_ne_zero held))
  have counts : ∀ id, w'.held (w.controls.length :: L) id =
      w.held L id + if id = w.controls.length then 1 else 0 := held_cons w _ L
  have manages : ∀ {id : Nat} {b : Buffer}, w.Manages id b → w'.Manages id b := by
    rintro id b ⟨c, hc, hb⟩
    exact ⟨c, Tables.append_kept hc _, hb⟩
  refine
    { pools := h.pools
      uses := fun id c hc => ?_
      known := fun id pos => ?_
      gone := fun id c hc unused => ?_
      there := fun id c hc inUse => ?_
      apart := fun id id' c c' hc hc' same => ?_
      views := fun fit i v hv id hid => ?_ }
  · rw [counts]
    rcases Tables.append_cases hc with ⟨rfl, rfl⟩ | ⟨ne, old⟩
    · rw [unheld, if_pos rfl]
    · rw [if_neg ne, h.uses id c old, Nat.add_zero]
  · rw [counts] at pos
    show id < (w.controls ++ [_]).length
    rw [List.length_append, List.length_singleton]
    by_cases new : id = w.controls.length
    · omega
    · rw [if_neg new] at pos
      have old := h.known id pos
      omega
  · rcases Tables.append_cases hc with ⟨rfl, rfl⟩ | ⟨-, old⟩
    · cases unused
    · exact h.gone id c old unused
  · rcases Tables.append_cases hc with ⟨rfl, rfl⟩ | ⟨-, old⟩
    · exact ⟨b, _, hc, hk⟩
    · obtain ⟨b', there⟩ := h.there id c old inUse
      exact ⟨b', manages there⟩
  · rcases Tables.append_cases hc with ⟨rfl, rfl⟩ | ⟨-, old⟩
    · rcases Tables.append_cases hc' with ⟨rfl, rfl⟩ | ⟨-, old'⟩
      · rfl
      · exact absurd same.symm (unmanaged id' c' old')
    · rcases Tables.append_cases hc' with ⟨rfl, rfl⟩ | ⟨-, old'⟩
      · exact absurd same (unmanaged id c old)
      · exact h.apart id id' c c' old old' same
  · obtain ⟨b', there, within⟩ := h.views fit i v hv id hid
    exact ⟨b', manages there, within⟩

theorem makeShared (h : Counted fits [] w) {b : Nat} {o : Buffer}
    (hb : w.pools.buffers[b]? = some (some o)) (unmanaged : fits → w.managed b = false) :
    ∃ w', w.makeShared b = .ok w' ∧ Counted fits [] w' := by
  have moved := World.moveConstruct_eq hb
  obtain ⟨pools, run, kept⟩ := h.poolCall (.moveConstruct b) (fun i mem => by cases mem)
    fun fit i mem => List.mem_singleton.mp mem ▸ unmanaged fit
  have live : w.pools.valid (.moveConstruct b) = true := Accounted.live_iff.mpr ⟨o, hb⟩
  rw [World.call, if_pos live] at run
  obtain rfl := Except.ok.inj (moved.symm.trans run)
  have length : (w.pools.buffers.set b (some {})).length = w.pools.buffers.length :=
    List.length_set
  have made := kept.addControl (k := w.pools.buffers.length) (b := o) ?_ fun id c hc own => ?_
  · refine ⟨_, ?_, made.newHolder (.pointer (some w.controls.length))
      fun _ v hv => by cases hv⟩
    simp only [Shared.makeShared, bind, Except.bind, moved]
    rfl
  · show (w.pools.buffers.set b (some {}) ++ [some o])[w.pools.buffers.length]? = _
    rw [← length, List.getElem?_concat_length]
  · -- a control block's buffer has a slot of the table
    have inside : ∃ slot, w.pools.buffers[c.buffer]? = some slot := by
      by_cases unused : c.uses = 0
      · exact ⟨_, h.gone id c hc unused⟩
      · obtain ⟨b', c', hc', hb'⟩ := h.there id c hc unused
        exact Option.some.inj (hc.symm.trans hc') ▸ ⟨_, hb'⟩
    obtain ⟨slot, hs⟩ := inside
    exact absurd own (Nat.ne_of_lt (List.getElem?_eq_some_iff.mp hs).1)

/-- **Every call goes through, and keeps the counts**; and the views, if it fits. -/
theorem call (h : Counted fits [] w) (op : SharedOp) (fit : fits → w.fits op = true) :
    ∃ w', w.call op = .ok w' ∧ Counted fits [] w' := by
  unfold Shared.call
  by_cases valid : w.valid op = true
  · rw [if_pos valid]
    cases op with
    | pools op =>
      have owners : ∀ i ∈ op.destroys, w.managed i = false := fun i mem =>
        (Bool.not_eq_true' _).mp (List.all_eq_true.mp valid i mem)
      have unmanaged : fits → ∀ i ∈ op.objects, w.managed i = false := fun ok i mem =>
        (Bool.not_eq_true' _).mp (List.all_eq_true.mp (fit ok) i mem)
      obtain ⟨pools, run, counted⟩ := h.poolCall op owners unmanaged
      refine ⟨_, ?_, counted⟩
      simp only [Shared.perform, bind, Except.bind, run]
      rfl
    | makeShared b =>
      obtain ⟨o, hb⟩ := Accounted.live_iff.mp valid
      exact h.makeShared hb fun ok => (Bool.not_eq_true' _).mp (fit ok)
    | newPointer => exact ⟨_, rfl, h.newHolder (.pointer none) fun _ v hv => by cases hv⟩
    | copyPointer other =>
      obtain ⟨p, hp⟩ := isPointer_iff.mp valid
      exact h.copyPointer hp
    | movePointer other =>
      obtain ⟨p, hp⟩ := isPointer_iff.mp valid
      exact h.movePointer hp
    | assignPointer this other =>
      obtain ⟨first, second⟩ := Bool.and_eq_true_iff.mp valid
      obtain ⟨old, hold⟩ := isPointer_iff.mp first
      obtain ⟨p, hp⟩ := isPointer_iff.mp second
      exact h.assignPointer hold hp
    | moveAssignPointer this other =>
      obtain ⟨first, second⟩ := Bool.and_eq_true_iff.mp valid
      obtain ⟨old, hold⟩ := isPointer_iff.mp first
      obtain ⟨p, hp⟩ := isPointer_iff.mp second
      exact h.moveAssignPointer hold hp
    | newView =>
      refine ⟨_, rfl, h.newHolder (.view {}) fun _ v hv id hid => ?_⟩
      obtain rfl := Holder.view.inj hv
      cases hid
    | fullView p moved =>
      unfold Shared.valid at valid
      cases hp : w.pointer p with
      | error e => simp only [hp, Bool.false_eq_true] at valid
      | ok buffer =>
        simp only [hp] at valid
        exact h.fullView hp valid moved
    | partView offset size p moved =>
      unfold Shared.valid at valid
      cases hp : w.pointer p with
      | error e => simp only [hp, Bool.false_eq_true] at valid
      | ok buffer =>
        simp only [hp] at valid
        exact h.partView hp valid moved
    | constView other =>
      obtain ⟨v, hv⟩ := isView_iff.mp valid
      rw [Shared.perform, constView_eq]
      exact h.copyView hv
    | copyView other =>
      obtain ⟨v, hv⟩ := isView_iff.mp valid
      exact h.copyView hv
    | assignView this other =>
      obtain ⟨first, second⟩ := Bool.and_eq_true_iff.mp valid
      obtain ⟨old, hold⟩ := isView_iff.mp first
      obtain ⟨v, hv⟩ := isView_iff.mp second
      exact h.assignView hold hv
    | setView this offset size =>
      obtain ⟨v, hv⟩ := isView_iff.mp valid
      refine h.setView hv fun ok => ?_
      have inside := fit ok
      simp only [Shared.fits, hv] at inside
      exact Bool.or_eq_true_iff.mp inside
    | sharedBuffer this =>
      obtain ⟨v, hv⟩ := isView_iff.mp valid
      exact h.sharedBuffer hv
    | drop this =>
      rcases Bool.or_eq_true_iff.mp valid with pointer | view
      · obtain ⟨p, hp⟩ := isPointer_iff.mp pointer
        exact h.drop (pointer_eq hp)
      · obtain ⟨v, hv⟩ := isView_iff.mp view
        exact h.drop (view_eq hv)
  · rw [if_neg valid]
    exact ⟨w, rfl, h⟩

/-- So does every sequence of calls. -/
theorem run (h : Counted fits [] w) (ops : List SharedOp) (fit : fits → w.allFit ops = true) :
    ∃ w', w.run ops = .ok w' ∧ Counted fits [] w' := by
  induction ops generalizing w with
  | nil => exact ⟨w, rfl, h⟩
  | cons op ops ih =>
    obtain ⟨w₁, called, counted⟩ := h.call op fun ok => (Bool.and_eq_true_iff.mp (fit ok)).1
    obtain ⟨w', run, counted⟩ := ih counted fun ok => by
      have rest := (Bool.and_eq_true_iff.mp (fit ok)).2
      rwa [called] at rest
    refine ⟨w', ?_, counted⟩
    rw [Shared.run, List.foldlM_cons, called]
    exact run

end Counted

/-! ## The main theorem -/

/-- What a view shows is there: `data` answers, and if there is a block, one buffer owns it and no
free list has it. -/
def Shows (w : Shared) (v : View) : Prop :=
  ∃ data, w.data v = .ok (data, v.offset) ∧ ∀ block, data = some block →
    w.pools.owned.count block = 1 ∧ block ∉ w.pools.freed

/-- The bytes that a view shows are in the block: it has as many, after the place, as the view says;
a view of a buffer without a block is null and has none. -/
def Inside (w : Shared) (v : View) : Prop :=
  ∃ data, w.data v = .ok (data, v.offset) ∧ (data = none → v.offset = 0 ∧ v.size = 0) ∧
    ∀ block, data = some block →
      ∃ p size, w.pools.obtained[block]? = some (p, size) ∧ v.offset + v.size ≤ size

/-- What every run leaves. -/
structure Kept (w : Shared) : Prop where
  uses : ∀ (id : Nat) (c : Control), w.controls[id]? = some c →
    c.uses = holders Holder.refers w.holders id
  destroyed : ∀ (id : Nat) (c : Control), w.controls[id]? = some c →
    (w.pools.buffers[c.buffer]? = some none ↔ holders Holder.refers w.holders id = 0)
  blocks : (w.pools.owned ++ w.pools.freed).Perm (List.range w.pools.obtained.length)
  views : ∀ (i : Nat) (v : View), w.holders[i]? = some (some (.view v)) → v.buffer.isSome →
    Shows w v

/-- A block of a live buffer is in one place. -/
theorem Accounted.owned_once {w : World} (h : Accounted [] w) {i : Nat} {b : Buffer} {block : Nat}
    (hb : w.buffers[i]? = some (some b)) (data : b.data = some block) :
    w.owned.count block = 1 ∧ block ∉ w.freed := by
  have here : block ∈ World.blockOf (some b) := by
    simp only [World.blockOf, Option.bind_some, data, Option.toList_some, List.mem_singleton]
  have owned : 0 < w.owned.count block :=
    List.count_pos_iff.mpr (Shares.mem_whole.mpr ⟨i, some b, hb, here⟩)
  have held := h.held block
  rw [List.count_nil, Nat.add_zero] at held
  have most : w.owned.count block + w.freed.count block ≤ 1 := by
    rw [held]
    split <;> omega
  refine ⟨by omega, fun freed => ?_⟩
  have counted := List.count_pos_iff.mpr freed
  omega

/-- What a view of a buffer answers. -/
theorem Counted.data {fits : Prop} {w : Shared} (h : Counted fits [] w) {i : Nat} {v : View}
    (hv : w.holders[i]? = some (some (.view v))) {id : Nat} (hid : v.buffer = some id) :
    ∃ c b, w.controls[id]? = some c ∧ w.pools.buffers[c.buffer]? = some (some b) ∧
      w.data v = .ok (b.data, v.offset) := by
  obtain ⟨b, run, c, hc, hb⟩ := h.deref (Counted.held_pos hv hid)
  refine ⟨c, b, hc, hb, ?_⟩
  rw [← hid] at run
  simp only [Shared.data, bind, Except.bind, run]

/-- A view of a buffer shows it. -/
theorem Counted.shows {fits : Prop} {w : Shared} (h : Counted fits [] w) {i : Nat} {v : View}
    (hv : w.holders[i]? = some (some (.view v))) (holds : v.buffer.isSome) : Shows w v := by
  obtain ⟨id, hid⟩ := Option.isSome_iff_exists.mp holds
  obtain ⟨c, b, hc, hb, answer⟩ := h.data hv hid
  exact ⟨_, answer, fun block data => h.pools.owned_once hb data⟩

/-- And inside its block, if the calls fit. -/
theorem Counted.inside {fits : Prop} {w : Shared} (h : Counted fits [] w) (fit : fits) {i : Nat}
    {v : View} (hv : w.holders[i]? = some (some (.view v))) (holds : v.buffer.isSome) :
    Inside w v := by
  obtain ⟨id, hid⟩ := Option.isSome_iff_exists.mp holds
  obtain ⟨c, b, hc, hb, answer⟩ := h.data hv hid
  obtain ⟨b', ⟨c', hc', hb'⟩, within⟩ := h.views fit i v hv id hid
  obtain rfl := Option.some.inj (hc.symm.trans hc')
  obtain rfl := Option.some.inj (Option.some.inj (hb.symm.trans hb'))
  have ok := h.pools.buffers c.buffer b hb
  refine ⟨_, answer, fun nowhere => ?_, fun block data => ?_⟩
  · have empty := ok.formed.empty nowhere
    omega
  · obtain ⟨p, pool, -, -, size, there⟩ := ok.block block data
    exact ⟨p, pool.size, there, size ▸ within⟩

-- A view outlives the pointer it was made of; when it goes, the block is in the free list. The
-- calls fit.
example : (({} : Shared).run [.pools (.sizedMemoryPool 64), .pools (.allocate 0), .makeShared 0,
    .partView 8 16 0 false, .drop 0]).map (fun w => (w.pools.owned, w.pools.freed)) =
      .ok ([0], []) ∧
    (({} : Shared).run [.pools (.sizedMemoryPool 64), .pools (.allocate 0), .makeShared 0,
    .partView 8 16 0 false, .drop 0, .drop 1]).map (fun w => (w.pools.owned, w.pools.freed)) =
      .ok ([], [0]) ∧
    ({} : Shared).allFit [.pools (.sizedMemoryPool 64), .pools (.allocate 0), .makeShared 0,
    .partView 8 16 0 false, .drop 0, .drop 1] = true := ⟨rfl, rfl, rfl⟩

end Bfc.MemoryPool
