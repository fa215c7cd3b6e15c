import Bfc.MemoryPool.Frame

/-!
# Shared buffers and their owners

`Counted fits locals w` is the invariant, with the pointers that a function holds in its local
variables on the books: a use count is the number of variables and locals that refer to the control
block, and the buffer is there exactly while there are any. Where `fits` holds, which stands for
what the calls so far were, a view shows a part of its buffer.

A copy of a pointer is a local's, a variable that is written exchanges its reference for the
local's, and a local that goes takes the buffer with it if it is the last owner; each has its law.
-/

namespace Bfc.MemoryPool

open Bfc.Buffers Lts References

/-! ## The invariant -/

namespace Shared

/-- The references to a control block: from variables and from locals. -/
def held (w : Shared) (locals : List Nat) (id : Nat) : Nat :=
  References.holders Holder.refers w.holders id + locals.count id

/-- A control block's buffer is there. -/
def Manages (w : Shared) (id : Nat) (b : Buffer) : Prop :=
  ∃ c, w.controls[id]? = some c ∧ w.pools.buffers[c.buffer]? = some (some b)

end Shared

/-- A view shows a part of its buffer. -/
def ViewOk (w : Shared) (v : View) : Prop :=
  ∀ id, v.buffer = some id → ∃ b, w.Manages id b ∧ v.offset + v.size ≤ b.size

/-- The counts are right, with the pointers in `locals` on the books, and shared buffers are there
while they have owners. -/
structure Counted (fits : Prop) (locals : List Nat) (w : Shared) : Prop where
  pools : Accounted [] w.pools
  uses : ∀ (id : Nat) (c : Control), w.controls[id]? = some c → c.uses = w.held locals id
  known : ∀ id, 0 < w.held locals id → id < w.controls.length
  gone : ∀ (id : Nat) (c : Control), w.controls[id]? = some c → c.uses = 0 →
    w.pools.buffers[c.buffer]? = some none
  there : ∀ (id : Nat) (c : Control), w.controls[id]? = some c → c.uses ≠ 0 → ∃ b, w.Manages id b
  apart : ∀ (id id' : Nat) (c c' : Control), w.controls[id]? = some c →
    w.controls[id']? = some c' → c.buffer = c'.buffer → id = id'
  views : fits → ∀ (i : Nat) (v : View), w.holders[i]? = some (some (.view v)) → ViewOk w v

/-- The buffers are the same, and who manages them. -/
structure SameBuffers (w w' : Shared) : Prop where
  pools : w'.pools = w.pools
  controls : ∀ (id : Nat) (c : Control), w.controls[id]? = some c →
    ∃ c' : Control, w'.controls[id]? = some c' ∧ c'.buffer = c.buffer

theorem SameBuffers.manages {w w' : Shared} (h : SameBuffers w w') {id : Nat} {b : Buffer}
    (there : w.Manages id b) : w'.Manages id b := by
  obtain ⟨c, hc, hb⟩ := there
  obtain ⟨c', hc', same⟩ := h.controls id c hc
  refine ⟨c', hc', ?_⟩
  rw [h.pools, same]
  exact hb

theorem SameBuffers.viewOk {w w' : Shared} (h : SameBuffers w w') {v : View} (ok : ViewOk w v) :
    ViewOk w' v := by
  intro id hv
  obtain ⟨b, there, within⟩ := ok id hv
  exact ⟨b, h.manages there, within⟩

/-- A local more. -/
theorem held_cons (w : Shared) (id : Nat) (L : List Nat) (id' : Nat) :
    w.held (id :: L) id' = w.held L id' + if id' = id then 1 else 0 := by
  unfold Shared.held
  rw [List.count_cons, ← Nat.add_assoc]
  simp only [beq_iff_eq, eq_comm (a := id)]

/-- A use count is written, and what there was before. -/
theorem control_set {controls : List Control} {id : Nat} {c : Control}
    (hc : controls[id]? = some c) {n id' : Nat} {c' : Control}
    (hc' : (controls.set id { c with uses := n })[id']? = some c') :
    ∃ c₀ : Control, controls[id']? = some c₀ ∧ c₀.buffer = c'.buffer ∧
      c'.uses = if id' = id then n else c₀.uses := by
  rcases Tables.set_cases hc hc' with ⟨rfl, rfl⟩ | ⟨ne, old⟩
  · exact ⟨c, hc, rfl, (if_pos rfl).symm⟩
  · exact ⟨c', old, rfl, (if_neg ne).symm⟩

namespace Counted

variable {fits : Prop} {w : Shared} {L : List Nat}

/-- At the start nothing is shared. -/
theorem start (fits : Prop) : Counted fits [] {} where
  pools := Accounted.start
  uses id c hc := by cases hc
  known id pos := absurd pos (Nat.lt_irrefl 0)
  gone id c hc := by cases hc
  there id c hc := by cases hc
  apart id id' c c' hc := by cases hc
  views _ i v hv := by cases hv

/-- A buffer that is referred to is there. -/
theorem managed (h : Counted fits L w) {id : Nat} (pos : 0 < w.held L id) :
    ∃ c b, w.control id = .ok c ∧ w.controls[id]? = some c ∧
      w.pools.buffers[c.buffer]? = some (some b) ∧ 0 < c.uses := by
  obtain ⟨c, hc⟩ : ∃ c, w.controls[id]? = some c :=
    ⟨_, List.getElem?_eq_getElem (h.known id pos)⟩
  have uses := h.uses id c hc
  have inUse : c.uses ≠ 0 := by omega
  obtain ⟨b, c', hc', hb⟩ := h.there id c hc inUse
  obtain rfl := Option.some.inj (hc.symm.trans hc')
  refine ⟨c, b, ?_, hc, hb, Nat.pos_of_ne_zero inUse⟩
  simp only [Shared.control, hc, if_neg inUse]

/-- What a pointer points to. -/
theorem deref (h : Counted fits L w) {id : Nat} (pos : 0 < w.held L id) :
    ∃ b, w.deref (some id) = .ok b ∧ w.Manages id b := by
  obtain ⟨c, b, control, hc, hb, -⟩ := h.managed pos
  refine ⟨b, ?_, c, hc, hb⟩
  simp only [Shared.deref, bind, Except.bind, control, Accounted.buffer_eq hb, Shared.inPools,
    Except.mapError]

/-! ## The transfers -/

/-- The variables change, with the same references to each control block. -/
theorem of_held (h : Counted fits L w) {L' : List Nat} {slots : List (Option Holder)}
    (balance : ∀ id, References.holders Holder.refers slots id + L'.count id = w.held L id)
    (views : fits → ∀ (i : Nat) (v : View), slots[i]? = some (some (.view v)) → ViewOk w v) :
    Counted fits L' { w with holders := slots } where
  pools := h.pools
  uses id c hc := (h.uses id c hc).trans (balance id).symm
  known id pos := h.known id (Nat.lt_of_lt_of_eq pos (balance id))
  gone := h.gone
  there := h.there
  apart := h.apart
  views := views

/-- A variable is written: it gets the local's reference, and its own is the local's. -/
theorem setHolder {i : Nat} {slot : Option Holder} (new : Option Holder)
    (h : Counted fits ((target Holder.refers new).toList ++ L) w) (hi : w.holders[i]? = some slot)
    (ok : fits → ∀ v, new = some (.view v) → ViewOk w v) :
    Counted fits ((target Holder.refers slot).toList ++ L) (w.setHolder i new) := by
  refine h.of_held (fun id => ?_) fun fit j v hv => ?_
  · have set := holders_set Holder.refers hi new id
    rw [Shared.held, List.count_append, List.count_append, count_toList, count_toList]
    omega
  · rcases Tables.set_cases hi hv with ⟨-, written⟩ | ⟨-, old⟩
    · exact ok fit v written.symm
    · exact h.views fit j v old

/-- A variable is written that refers to what it did. -/
theorem rewrite {i : Nat} {old : Holder} (new : Holder) (h : Counted fits L w)
    (hi : w.holders[i]? = some (some old)) (refers : new.refers = old.refers)
    (ok : fits → ∀ v, new = .view v → ViewOk w v) :
    Counted fits L (w.setHolder i (some new)) := by
  refine h.of_held (fun id => ?_) fun fit j v hv => ?_
  · have set := holders_set Holder.refers hi (some new) id
    rw [target_some, target_some, refers] at set
    rw [Shared.held]
    omega
  · rcases Tables.set_cases hi hv with ⟨-, written⟩ | ⟨-, there⟩
    · exact ok fit v (Option.some.inj written).symm
    · exact h.views fit j v there

/-- A new variable takes the local's reference. -/
theorem newHolder (new : Holder) (h : Counted fits (new.refers.toList ++ L) w)
    (ok : fits → ∀ v, new = .view v → ViewOk w v) : Counted fits L (w.newHolder new) := by
  refine h.of_held (fun id => ?_) fun fit j v hv => ?_
  · rw [Shared.held, List.count_append, count_toList, holders_append, target_some]
    omega
  · rcases Tables.append_cases hv with ⟨-, made⟩ | ⟨-, old⟩
    · exact ok fit v (Option.some.inj made).symm
    · exact h.views fit j v old

/-- A copy of a pointer is a local's. -/
theorem acquire (h : Counted fits L w) {ref : Option Nat}
    (pos : ∀ id, ref = some id → 0 < w.held L id) :
    ∃ w', w.acquire ref = .ok w' ∧ Counted fits (ref.toList ++ L) w' ∧ w'.holders = w.holders ∧
      SameBuffers w w' := by
  cases ref with
  | none => exact ⟨w, rfl, h, rfl, rfl, fun id c hc => ⟨c, hc, rfl⟩⟩
  | some id =>
    obtain ⟨c, b, control, hc, hb, used⟩ := h.managed (pos id rfl)
    let w' : Shared := { w with controls := w.controls.set id { c with uses := c.uses + 1 } }
    have same : SameBuffers w w' := ⟨rfl, fun id' c' hc' => Tables.set_kept hc hc' rfl
      fun _ own => own ▸ rfl⟩
    have counts : ∀ id', w'.held ((some id).toList ++ L) id' =
        w.held L id' + if id' = id then 1 else 0 := held_cons w id L
    refine ⟨w', ?_, ?_, rfl, same⟩
    · simp only [Shared.acquire, bind, Except.bind, control]
      rfl
    refine
      { pools := h.pools
        uses := fun id' c' hc' => ?_
        known := fun id' held => ?_
        gone := fun id' c' hc' unused => ?_
        there := fun id' c' hc' inUse => ?_
        apart := fun id₁ id₂ c₁ c₂ h₁ h₂ eq => ?_
        views := fun fit i v hv => same.viewOk (h.views fit i v hv) }
    · obtain ⟨c₀, hc₀, -, uses⟩ := control_set hc hc'
      rw [uses, counts]
      split
      · rename_i own
        obtain rfl := own
        rw [h.uses id' c hc]
      · rw [h.uses id' c₀ hc₀, Nat.add_zero]
    · have length : w'.controls.length = w.controls.length := List.length_set
      rw [counts] at held
      rw [length]
      by_cases own : id' = id
      · exact own ▸ h.known id (pos id rfl)
      · rw [if_neg own] at held
        exact h.known id' held
    · obtain ⟨c₀, hc₀, buffer, uses⟩ := control_set hc hc'
      by_cases own : id' = id
      · rw [if_pos own] at uses
        omega
      · rw [if_neg own] at uses
        exact buffer ▸ h.gone id' c₀ hc₀ (uses ▸ unused)
    · obtain ⟨c₀, hc₀, -, uses⟩ := control_set hc hc'
      by_cases own : id' = id
      · exact own ▸ ⟨b, same.manages ⟨c, hc, hb⟩⟩
      · rw [if_neg own] at uses
        obtain ⟨b', there⟩ := h.there id' c₀ hc₀ (uses ▸ inUse)
        exact ⟨b', same.manages there⟩
    · obtain ⟨c₁', h₁', b₁, -⟩ := control_set hc h₁
      obtain ⟨c₂', h₂', b₂, -⟩ := control_set hc h₂
      exact h.apart id₁ id₂ c₁' c₂' h₁' h₂' (b₁.trans (eq.trans b₂.symm))

/-- A buffer that has an owner left is there after another has gone. -/
theorem released {w' : Shared} (h : Counted fits L w) {id : Nat} {c : Control}
    (hc : w.controls[id]? = some c)
    (controls : w'.controls = w.controls.set id { c with uses := c.uses - 1 })
    (buffers : ∀ j slot, j ≠ c.buffer ∨ 1 < c.uses → w.pools.buffers[j]? = some slot →
      w'.pools.buffers[j]? = some slot) {id' : Nat} {b : Buffer} (there : w.Manages id' b)
    (left : id' ≠ id ∨ 1 < c.uses) : w'.Manages id' b := by
  obtain ⟨c', hc', hb⟩ := there
  have kept : ∃ c₁ : Control, w'.controls[id']? = some c₁ ∧ c₁.buffer = c'.buffer := by
    rw [controls]
    exact Tables.set_kept hc hc' rfl fun _ own => own ▸ rfl
  obtain ⟨c₁, hc₁, same⟩ := kept
  refine ⟨c₁, hc₁, same ▸ buffers _ _ (left.imp_left fun ne own => ne ?_) hb⟩
  exact h.apart id' id c' c hc' hc own

/-- An owner has gone, and with the last one the buffer. -/
theorem lowered {id : Nat} (h : Counted fits (id :: L) w) {c : Control}
    (hc : w.controls[id]? = some c) {pools : World} (accounted : Accounted [] pools)
    (others : ∀ j slot, j ≠ c.buffer ∨ 1 < c.uses → w.pools.buffers[j]? = some slot →
      pools.buffers[j]? = some slot)
    (gone : c.uses = 1 → pools.buffers[c.buffer]? = some none) :
    Counted fits L { w with
      controls := w.controls.set id { c with uses := c.uses - 1 }
      pools := pools } := by
  have counts := held_cons w id L
  have own := (h.uses id c hc).trans (counts id)
  rw [if_pos rfl] at own
  have keeps : ∀ {id' : Nat} {b : Buffer}, w.Manages id' b → id' ≠ id ∨ 1 < c.uses →
      Shared.Manages { w with
        controls := w.controls.set id { c with uses := c.uses - 1 }
        pools := pools } id' b :=
    fun there left => h.released hc rfl others there left
  refine
    { pools := accounted
      uses := fun id' c' hc' => ?_
      known := fun id' held => ?_
      gone := fun id' c' hc' unused => ?_
      there := fun id' c' hc' inUse => ?_
      apart := fun id₁ id₂ c₁ c₂ h₁ h₂ eq => ?_
      views := fun fit i v hv id' hid => ?_ }
  · obtain ⟨c₀, hc₀, -, uses⟩ := control_set hc hc'
    have before := (h.uses id' c₀ hc₀).trans (counts id')
    rw [uses]
    split
    · rename_i here
      obtain rfl := here
      exact Nat.sub_eq_of_eq_add own
    · rename_i ne
      rwa [if_neg ne] at before
  · show id' < (w.controls.set id _).length
    rw [List.length_set]
    refine h.known id' (Nat.lt_of_lt_of_le held ?_)
    exact (counts id').symm ▸ Nat.le_add_right ..
  · obtain ⟨c₀, hc₀, buffer, uses⟩ := control_set hc hc'
    rw [← buffer]
    by_cases here : id' = id
    · obtain rfl := here
      obtain rfl := Option.some.inj (hc.symm.trans hc₀)
      rw [if_pos rfl] at uses
      exact gone (by omega)
    · rw [if_neg here] at uses
      refine others _ _ (.inl fun same => here ?_) (h.gone id' c₀ hc₀ (uses ▸ unused))
      exact h.apart id' id c₀ c hc₀ hc same
  · obtain ⟨c₀, hc₀, -, uses⟩ := control_set hc hc'
    by_cases here : id' = id
    · obtain rfl := here
      obtain rfl := Option.some.inj (hc.symm.trans hc₀)
      rw [if_pos rfl] at uses
      obtain ⟨b, there⟩ := h.there id' c hc (by omega)
      exact ⟨b, keeps there (.inr (by omega))⟩
    · rw [if_neg here] at uses
      obtain ⟨b, there⟩ := h.there id' c₀ hc₀ (uses ▸ inUse)
      exact ⟨b, keeps there (.inl here)⟩
  · obtain ⟨c₁', h₁', b₁, -⟩ := control_set hc h₁
    obtain ⟨c₂', h₂', b₂, -⟩ := control_set hc h₂
    exact h.apart id₁ id₂ c₁' c₂' h₁' h₂' (b₁.trans (eq.trans b₂.symm))
  · obtain ⟨b, there, within⟩ := h.views fit i v hv id' hid
    refine ⟨b, keeps there ?_, within⟩
    have holder : 0 < holders Holder.refers w.holders id' := holders_pos hv hid
    by_cases same : id' = id
    · obtain rfl := same
      refine .inr ?_
      rw [own, Shared.held]
      omega
    · exact .inl same

/-- A local's pointer goes: the last owner takes the buffer with it. -/
theorem release {ref : Option Nat} (h : Counted fits (ref.toList ++ L) w) :
    ∃ w', w.release ref = .ok w' ∧ Counted fits L w' ∧ w'.holders = w.holders := by
  cases ref with
  | none => exact ⟨w, rfl, h, rfl⟩
  | some id =>
    have pos : 0 < w.held (id :: L) id := by
      rw [held_cons, if_pos rfl]
      exact Nat.succ_pos _
    obtain ⟨c, b, control, hc, hb, used⟩ := h.managed pos
    by_cases last : c.uses = 1
    · obtain ⟨pools, destroyed, accounted⟩ := h.pools.destroy hb
      refine ⟨_, ?_, h.lowered hc accounted ?_ fun _ => ?_, rfl⟩
      · simp only [Shared.release, bind, Except.bind, control, if_pos last]
        rw [destroyed]
        rfl
      · intro j slot other hj
        rw [World.destroy_buffers destroyed, List.getElem?_set_ne, hj]
        rintro rfl
        omega
      · rw [World.destroy_buffers destroyed]
        exact Tables.set_here hb none
    · refine ⟨_, ?_, h.lowered hc h.pools (fun _ _ _ hj => hj) fun one => absurd one last, rfl⟩
      simp only [Shared.release, bind, Except.bind, control, if_neg last]

/-- A release does not look at the variables. -/
theorem release_setHolder (w : Shared) (ref : Option Nat) (i : Nat) (new : Option Holder) :
    (w.setHolder i new).release ref =
      (do let w ← w.release ref; .ok (w.setHolder i new)) := by
  cases ref with
  | none => rfl
  | some id =>
    simp only [Shared.release, Shared.control, Shared.setHolder, bind, Except.bind]
    cases w.controls[id]? with
    | none => rfl
    | some c =>
      dsimp only
      by_cases unused : c.uses = 0
      · rw [if_pos unused]
      · rw [if_neg unused]
        dsimp only
        by_cases last : c.uses = 1
        · rw [if_pos last, if_pos last]
          cases w.pools.destroy c.buffer with
          | error e => rfl
          | ok pools => rfl
        · rw [if_neg last, if_neg last]

/-! ## Variables -/

theorem pointer_eq {i : Nat} {buffer : Option Nat} (run : w.pointer i = .ok buffer) :
    w.holders[i]? = some (some (.pointer buffer)) := by
  obtain ⟨holder, there, run⟩ := of_bind_ok run
  unfold Shared.holder at there
  split at there
  · rename_i here
    obtain rfl := Except.ok.inj there
    split at run
    · rw [here, Except.ok.inj run]
    · cases run
  · cases there

theorem pointer_of {i : Nat} {buffer : Option Nat}
    (there : w.holders[i]? = some (some (.pointer buffer))) : w.pointer i = .ok buffer := by
  simp only [Shared.pointer, Shared.holder, there, bind, Except.bind]

theorem view_eq {i : Nat} {v : View} (run : w.view i = .ok v) :
    w.holders[i]? = some (some (.view v)) := by
  obtain ⟨holder, there, run⟩ := of_bind_ok run
  unfold Shared.holder at there
  split at there
  · rename_i here
    obtain rfl := Except.ok.inj there
    split at run
    · cases run
    · rw [here, Except.ok.inj run]
  · cases there

theorem isPointer_iff {i : Nat} : w.isPointer i = true ↔ ∃ buffer, w.pointer i = .ok buffer := by
  unfold Shared.isPointer
  cases w.pointer i with
  | ok buffer => exact ⟨fun _ => ⟨buffer, rfl⟩, fun _ => rfl⟩
  | error e => exact ⟨fun h => (by cases h), fun ⟨_, h⟩ => (by cases h)⟩

theorem isView_iff {i : Nat} : w.isView i = true ↔ ∃ v, w.view i = .ok v := by
  unfold Shared.isView
  cases w.view i with
  | ok v => exact ⟨fun _ => ⟨v, rfl⟩, fun _ => rfl⟩
  | error e => exact ⟨fun h => (by cases h), fun ⟨_, h⟩ => (by cases h)⟩

/-- What a variable refers to has an owner. -/
theorem held_pos {i : Nat} {holder : Holder} {id : Nat} (hi : w.holders[i]? = some (some holder))
    (refers : holder.refers = some id) : 0 < w.held L id :=
  Nat.lt_of_lt_of_le (holders_pos hi refers) (Nat.le_add_right ..)

/-- A part that there is room for can be shown. -/
theorem viewOk_of_room (h : Counted fits L w) {i : Nat} {buffer : Option Nat} {offset size : Nat}
    (hi : w.holders[i]? = some (some (.pointer buffer)) ∨
      ∃ v, w.holders[i]? = some (some (.view v)) ∧ v.buffer = buffer)
    (room : w.room buffer offset size = true) :
    ViewOk w { buffer := buffer, offset := offset, size := size } := by
  intro id same
  obtain rfl : buffer = some id := same
  have pos : 0 < w.held L id := by
    rcases hi with hi | ⟨v, hi, refers⟩
    · exact held_pos hi rfl
    · exact held_pos hi refers
  obtain ⟨b, run, there⟩ := h.deref pos
  rw [Shared.room, run] at room
  exact ⟨b, there, of_decide_eq_true room⟩

end Counted

end Bfc.MemoryPool
