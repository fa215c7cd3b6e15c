import Mathlib.Data.List.Basic
import Bfc.Lib.Tables
import Bfc.Lib.Transition
import Bfc.Buffers.SizedBuffer

/-!
# When a sized buffer stays within its storage

An object is in order when its storage has the bytes that its capacity promises and its size is not
beyond that. From a program whose objects are all in order, every call goes through, and leaves them
in order unless it moves a size away from under its storage: a defaulted move copies the size and
takes the storage, so that an object of a size other than zero that is moved from claims bytes which
it does not have.
-/

namespace Bfc.Buffers

variable {ρ : Type}

/-- The size is within the capacity, and the capacity within the storage. -/
structure SizedBuffer.Within (b : SizedBuffer ρ) : Prop where
  formed : b.storage.Formed
  stored : ∀ bytes, b.storage.data = some bytes → b.capacity ≤ bytes.length
  size : b.size ≤ b.capacity

namespace SizedBuffer.Within

variable {b : SizedBuffer ρ}

theorem default : ({} : SizedBuffer ρ).Within where
  formed := SimpleBuffer.formed_default
  stored bytes h := by cases h
  size := Nat.le_refl _

/-- The payload has as many bytes as the size says. -/
theorem payload_length (h : b.Within) : b.payload.length = b.size := by
  unfold payload
  rw [List.length_take]
  cases data : b.storage.data with
  | none =>
    have noCapacity := h.formed.empty data
    have := h.size
    unfold capacity at this
    rw [Option.getD_none, List.length_nil]
    omega
  | some bytes =>
    have := h.stored bytes data
    have := h.size
    rw [Option.getD_some]
    omega

/-! ## The functions -/

theorem clear (h : b.Within) : b.clear = .ok {} := by
  obtain ⟨deletion, reset, -⟩ := h.formed.reset
  simp only [SizedBuffer.clear, bind, Except.bind, reset]

theorem newBytes_length (n : Nat) (memory : Nat → UInt8) : (newBytes n memory).length = n := by
  rw [newBytes, List.length_map, List.length_range]

/-- A copy within both storages. -/
theorem memcpy_ok {dest src : List UInt8} {n : Nat} (hd : n ≤ dest.length) (hs : n ≤ src.length) :
    ∃ bytes, memcpy dest src n = .ok bytes ∧ bytes.length = dest.length ∧
      bytes.take n = src.take n := by
  refine ⟨src.take n ++ dest.drop n, if_neg (by omega), ?_, ?_⟩
  · rw [List.length_append, List.length_take, List.length_drop]
    omega
  · have : (src.take n).length = n := by
      rw [List.length_take]
      omega
    rw [List.take_append_of_le_length (Nat.le_of_eq this.symm), List.take_take, Nat.min_self]

/-- What `reserve` copies into its new memory begins with the payload. -/
theorem copyStorage (h : b.Within) {data : List UInt8} (grows : b.capacity < data.length) :
    ∃ bytes, b.copyStorage data = .ok bytes ∧ bytes.length = data.length ∧
      bytes.take b.size = b.payload := by
  have size := h.size
  unfold SizedBuffer.copyStorage
  cases source : b.storage.data with
  | none =>
    have noCapacity : b.capacity = 0 := h.formed.empty source
    have zero : b.size = 0 := by omega
    refine ⟨data, rfl, rfl, ?_⟩
    rw [payload, source, zero]
    rfl
  | some bytes =>
    have stored := h.stored bytes source
    by_cases positive : 0 < b.size
    · obtain ⟨copy, run, length, take⟩ :=
        memcpy_ok (by omega : b.size ≤ data.length) (by omega : b.size ≤ bytes.length)
      refine ⟨copy, (if_pos positive).trans run, length, ?_⟩
      rw [take, payload, source]
      rfl
    · have zero : b.size = 0 := by omega
      refine ⟨data, if_neg positive, rfl, ?_⟩
      rw [payload, zero, List.take_zero, List.take_zero]

/-- `reserve` keeps the payload, and never lowers the capacity. -/
theorem reserve (h : b.Within) (newCapacity : Nat) (memory : Nat → UInt8) :
    ∃ b', b.reserve newCapacity memory = .ok b' ∧ b'.Within ∧ b'.size = b.size ∧
      b.capacity ≤ b'.capacity ∧ newCapacity ≤ b'.capacity ∧ b'.payload = b.payload := by
  unfold SizedBuffer.reserve
  by_cases enough : newCapacity ≤ b.capacity
  · rw [if_pos enough]
    exact ⟨b, rfl, h, rfl, Nat.le_refl _, enough, rfl⟩
  · rw [if_neg enough]
    have grows : b.capacity < newCapacity := Nat.not_le.mp enough
    obtain ⟨bytes, copy, length, take⟩ :=
      h.copyStorage ((newBytes_length newCapacity memory).symm ▸ grows)
    rw [newBytes_length] at length
    obtain ⟨deletion, assign, -⟩ :=
      h.formed.moveAssign (.make bytes newCapacity (.deleteArray : Deleter ρ))
    refine ⟨{ b with storage := .make bytes newCapacity .deleteArray }, ?_, ?_, rfl,
      Nat.le_of_lt grows, Nat.le_refl _, take⟩
    · simp only [copy, bind, Except.bind, assign]
    · refine ⟨⟨fun null => (by cases null), fun _ => rfl⟩, fun bytes' same => ?_, ?_⟩
      · obtain rfl := Option.some.inj same
        exact Nat.le_of_eq length.symm
      · exact Nat.le_trans h.size (Nat.le_of_lt grows)

/-- `resize` gives the object the size asked for, and keeps the payload as far as it goes. -/
theorem resize (h : b.Within) (newSize : Nat) (memory : Nat → UInt8) :
    ∃ b', b.resize newSize memory = .ok b' ∧ b'.Within ∧ b'.size = newSize ∧
      b'.payload.take (min b.size newSize) = b.payload.take (min b.size newSize) := by
  -- a smaller or a larger view of the same storage
  have resized (b₁ : SizedBuffer ρ) (h₁ : b₁.Within) (room : newSize ≤ b₁.capacity)
      (same : b₁.size = b.size) (payload : b₁.payload = b.payload) :
      ({ b₁ with size := newSize } : SizedBuffer ρ).Within ∧
        ({ b₁ with size := newSize } : SizedBuffer ρ).payload.take (min b.size newSize) =
          b.payload.take (min b.size newSize) := by
    refine ⟨⟨h₁.formed, h₁.stored, room⟩, ?_⟩
    rw [← payload]
    unfold SizedBuffer.payload
    rw [List.take_take, List.take_take, same]
    congr 1
    dsimp only
    omega
  unfold SizedBuffer.resize
  by_cases grows : b.capacity < newSize
  · obtain ⟨b₁, reserve, h₁, same, -, room, payload⟩ := h.reserve newSize memory
    refine ⟨{ b₁ with size := newSize }, ?_, (resized b₁ h₁ room same payload).1, rfl,
      (resized b₁ h₁ room same payload).2⟩
    simp only [if_pos grows, bind, Except.bind, reserve]
  · have room := Nat.not_lt.mp grows
    refine ⟨{ b with size := newSize }, ?_, (resized b h room rfl rfl).1, rfl,
      (resized b h room rfl rfl).2⟩
    simp only [if_neg grows, bind, Except.bind]

/-- `to_buffer` answers the payload, and leaves nothing. -/
theorem toBuffer (h : b.Within) (memory : Nat → UInt8) :
    ∃ out, b.toBuffer memory = .ok (out, {}) ∧ out.size = b.size ∧ bytesOf out = b.payload := by
  unfold SizedBuffer.toBuffer
  by_cases zero : b.size = 0
  · refine ⟨{}, ?_, zero.symm, ?_⟩
    · simp only [if_pos zero, bind, Except.bind, h.clear]
    · rw [payload, zero, List.take_zero]
      rfl
  · by_cases all : b.size = b.storage.size
    · refine ⟨b.storage, ?_, all.symm, ?_⟩
      · rw [if_neg zero, if_pos all]
        rfl
      · rw [payload, all]
        rfl
    · obtain ⟨source, data⟩ : ∃ source, b.storage.data = some source := by
        rw [← Option.ne_none_iff_exists']
        intro null
        have empty : b.capacity = 0 := h.formed.empty null
        exact zero (Nat.le_zero.mp (empty ▸ h.size))
      obtain ⟨bytes, copy, length, take⟩ := memcpy_ok (n := b.size)
        (Nat.le_of_eq (newBytes_length b.size memory).symm)
        (Nat.le_trans h.size (h.stored source data))
      refine ⟨.make bytes b.size .deleteArray, ?_, rfl, ?_⟩
      · simp only [if_neg zero, if_neg all, data, copy, bind, Except.bind, h.clear]
      · show bytes.take b.size = _
        rw [take, payload, data]
        rfl

/-- A buffer that a program has, with a size within it. -/
theorem ofBuffer {buffer : Buffer ρ} {size : Nat} (formed : wellFormed buffer = true)
    (fits : size ≤ buffer.size) :
    ∃ b, SizedBuffer.ofBuffer buffer size = .ok b ∧ b.Within := by
  obtain ⟨deletion, assign, -⟩ := SimpleBuffer.formed_default.moveAssign buffer
  refine ⟨{ storage := buffer, size := size }, ?_, ?_⟩
  · simp only [SizedBuffer.ofBuffer, bind, Except.bind, assign]
  · unfold wellFormed at formed
    refine ⟨⟨fun null => ?_, fun holds => ?_⟩, fun bytes data => ?_, fits⟩
    · rw [null] at formed
      exact of_decide_eq_true formed
    · obtain ⟨bytes, data⟩ := Option.isSome_iff_exists.mp holds
      rw [data] at formed
      exact (Bool.and_eq_true_iff.mp formed).2
    · rw [data] at formed
      exact of_decide_eq_true (Bool.and_eq_true_iff.mp formed).1

theorem write (h : b.Within) (k : Nat) (byte : UInt8) : (b.write k byte).Within where
  formed :=
    { empty := fun null => h.formed.empty (Option.map_eq_none_iff.mp null)
      deletes := fun holds => by
        rw [SizedBuffer.write, Option.isSome_map] at holds
        exact h.formed.deletes holds }
  stored bytes data := by
    obtain ⟨before, hb, rfl⟩ := Option.map_eq_some_iff.mp data
    rw [List.length_set]
    exact h.stored before hb
  size := h.size

end SizedBuffer.Within

/-! ## Calls -/

namespace World

/-- Every object is in order. -/
def InOrder (w : World ρ) : Prop := ∀ i b, w.object i = some b → b.Within

variable {w : World ρ}

theorem object_eq_some {i : Nat} {b : SizedBuffer ρ} :
    w.object i = some b ↔ w[i]? = some (some b) := Option.join_eq_some_iff

/-- A new object that is in order. -/
theorem InOrder.append (h : w.InOrder) {b : SizedBuffer ρ} (ok : b.Within) :
    InOrder (w ++ [some b]) := by
  intro i c hc
  rw [object_eq_some] at hc
  rcases Tables.append_cases hc with ⟨-, new⟩ | ⟨-, old⟩
  · exact (Option.some.inj new).symm ▸ ok
  · exact h i c (object_eq_some.mpr old)

/-- A slot that is rewritten with an object in order, or with none. -/
theorem InOrder.set (h : w.InOrder) (this : Nat) {slot : Option (SizedBuffer ρ)}
    (ok : ∀ b, slot = some b → b.Within) : InOrder (w.set this slot) := by
  intro i c hc
  rw [object_eq_some, List.getElem?_set] at hc
  split at hc
  · split at hc
    · exact ok c (Option.some.inj hc)
    · cases hc
  · exact h i c (object_eq_some.mpr hc)

/-- A call on one object that keeps it in order. -/
theorem InOrder.onObject (h : w.InOrder) (this : Nat)
    {f : SizedBuffer ρ → Except Fault (Option (SizedBuffer ρ))}
    (spec : ∀ b, b.Within → ∃ slot, f b = .ok slot ∧ ∀ b', slot = some b' → b'.Within) :
    ∃ w', w.onObject this f = .ok w' ∧ InOrder w' := by
  unfold World.onObject
  cases hb : w.object this with
  | none => exact ⟨w, rfl, h⟩
  | some b =>
    obtain ⟨slot, run, ok⟩ := spec b (h this b hb)
    refine ⟨w.set this slot, ?_, h.set this ok⟩
    simp only [bind, Except.bind, run]

/-- What is left of an object that has been moved from is in order if it had no size. -/
theorem within_left {size : Nat} :
    ({ size := size, storage := {} } : SizedBuffer ρ).Within ↔ size = 0 := by
  constructor
  · intro h
    exact Nat.le_zero.mp h.size
  · rintro rfl
    exact SizedBuffer.Within.default

/-- A program that has moved from an object is in order if the object had no size. -/
theorem inOrder_left {w' : World ρ} {other size : Nat}
    (left : w'.object other = some { size := size, storage := {} })
    (rest : ∀ i b, i ≠ other → w'.object i = some b → b.Within) : w'.InOrder ↔ size = 0 := by
  constructor
  · intro h
    exact within_left.mp (h other _ left)
  · intro zero i b hb
    by_cases same : i = other
    · subst same
      obtain rfl := Option.some.inj (left.symm.trans hb)
      exact within_left.mpr zero
    · exact rest i b same hb

/-- A new object, which is what it was constructed from. -/
theorem InOrder.construct (h : w.InOrder) {b : SizedBuffer ρ} (ok : b.Within)
    {x : Except Fault (SizedBuffer ρ)} (made : x = .ok b) :
    ∃ w', w.construct x = .ok w' ∧ InOrder w' := by
  refine ⟨w ++ [some b], ?_, h.append ok⟩
  simp only [World.construct, bind, Except.bind, made]

/-- The moved-from object of a move construction keeps its size. -/
theorem InOrder.moveConstruct (h : w.InOrder) (other : Nat) :
    InOrder (w.moveConstruct other) ↔ (w.object other).elim 0 SizedBuffer.size = 0 := by
  unfold World.moveConstruct
  cases ho : w.object other with
  | none => exact iff_of_true h rfl
  | some o =>
    have there := object_eq_some.mp ho
    have ok : InOrder (w.set other none ++ [some o]) :=
      (h.set other fun b null => by cases null).append (h other o ho)
    have left : World.object (w.set other (some o.moveConstruct.2) ++ [some o]) other =
        some { size := o.size, storage := {} } := by
      rw [object_eq_some]
      exact Tables.append_kept (Tables.set_here there _) _
    refine inOrder_left left fun i b ne hb => ok i b ?_
    rw [object_eq_some] at hb ⊢
    rw [List.getElem?_append, List.length_set] at hb ⊢
    rwa [List.getElem?_set_ne (Ne.symm ne)] at hb ⊢

/-- So does the source of a move assignment. -/
theorem InOrder.moveAssign (h : w.InOrder) (this other : Nat) :
    ∃ w', w.moveAssign this other = .ok w' ∧
      (InOrder w' ↔ (if this = other ∨ w.object this = none then 0
        else (w.object other).elim 0 SizedBuffer.size) = 0) := by
  unfold World.moveAssign
  cases hb : w.object this with
  | none => exact ⟨w, rfl, iff_of_true h (if_pos (.inr rfl))⟩
  | some b =>
    cases ho : w.object other with
    | none => exact ⟨w, rfl, iff_of_true h (by split <;> rfl)⟩
    | some o =>
      by_cases same : this = other
      · exact ⟨w, if_pos same, iff_of_true h (if_pos (.inl same))⟩
      · obtain ⟨deletion, assign, -⟩ := (h this b hb).formed.moveAssign o.storage
        refine ⟨(w.set other (some { size := o.size, storage := {} })).set this (some o), ?_, ?_⟩
        · simp only [if_neg same, SizedBuffer.moveAssign, bind, Except.bind, assign]
        · rw [if_neg (not_or.mpr ⟨same, fun null => by cases null⟩)]
          have there := object_eq_some.mp ho
          have ok : InOrder ((w.set other none).set this (some o)) :=
            (h.set other fun b null => by cases null).set this
              fun c same => Option.some.inj same ▸ h other o ho
          have left : World.object ((w.set other (some { size := o.size, storage := {} })).set this
              (some o)) other = some { size := o.size, storage := {} } := by
            rw [object_eq_some, List.getElem?_set_ne same]
            exact Tables.set_here there _
          refine inOrder_left left fun i c ne hc => ok i c ?_
          rw [object_eq_some, List.set_comm _ _ (Ne.symm same), List.getElem?_set_ne (Ne.symm ne)]
            at hc ⊢
          exact hc

/-- **Every call goes through, and keeps the objects in order exactly if it leaves no size
behind.** -/
theorem InOrder.call (h : w.InOrder) (op : Op ρ) :
    ∃ w', w.call op = .ok w' ∧ (InOrder w' ↔ w.leftSize op = 0) := by
  have kept {x : Except Fault (World ρ)} (goes : ∃ w', x = .ok w' ∧ InOrder w') :
      ∃ w', x = .ok w' ∧ (InOrder w' ↔ 0 = 0) := by
    obtain ⟨w', run, ok⟩ := goes
    exact ⟨w', run, iff_of_true ok rfl⟩
  cases op with
  | construct => exact kept (h.construct .default rfl)
  | constructSized initialSize memory =>
    obtain ⟨b, run, ok, -⟩ := SizedBuffer.Within.default.resize (ρ := ρ) initialSize memory
    exact kept (h.construct ok run)
  | ofBuffer buffer size =>
    refine kept ?_
    by_cases valid : (wellFormed buffer && size ≤ buffer.size) = true
    · obtain ⟨formed, fits⟩ := Bool.and_eq_true_iff.mp valid
      obtain ⟨b, run, ok⟩ := SizedBuffer.Within.ofBuffer formed (of_decide_eq_true fits)
      obtain ⟨w', made, ok'⟩ := h.construct ok run
      exact ⟨w', (if_pos valid).trans made, ok'⟩
    · exact ⟨w, if_neg valid, h⟩
  | moveConstruct other => exact ⟨_, rfl, h.moveConstruct other⟩
  | moveAssign this other => exact h.moveAssign this other
  | destroy this =>
    refine kept (h.onObject this fun b ok => ?_)
    obtain ⟨deletion, reset, -⟩ := ok.formed.reset
    refine ⟨none, ?_, fun b' null => by cases null⟩
    simp only [bind, Except.bind, reset]
  | clear this =>
    refine kept (h.onObject this fun b ok => ⟨some {}, ?_, fun b' same => ?_⟩)
    · simp only [bind, Except.bind, ok.clear]
    · exact Option.some.inj same ▸ .default
  | reserve this newCapacity memory =>
    refine kept (h.onObject this fun b ok => ?_)
    obtain ⟨b', run, ok', -⟩ := ok.reserve newCapacity memory
    refine ⟨some b', ?_, fun c same => Option.some.inj same ▸ ok'⟩
    simp only [bind, Except.bind, run]
  | resize this newSize memory =>
    refine kept (h.onObject this fun b ok => ?_)
    obtain ⟨b', run, ok', -⟩ := ok.resize newSize memory
    refine ⟨some b', ?_, fun c same => Option.some.inj same ▸ ok'⟩
    simp only [bind, Except.bind, run]
  | toBuffer this memory =>
    refine kept (h.onObject this fun b ok => ?_)
    obtain ⟨out, run, -⟩ := ok.toBuffer memory
    refine ⟨some {}, ?_, fun c same => Option.some.inj same ▸ .default⟩
    simp only [bind, Except.bind, run]
  | write this k byte =>
    refine kept (h.onObject this fun b ok => ⟨_, rfl, fun c same => ?_⟩)
    obtain rfl := Option.some.inj same
    split
    · exact ok.write k byte
    · exact ok

/-! ## Runs -/

/-- What a program may rely on: each object is in order, every call goes through, and `reserve`,
`resize` and `to_buffer` do on each object what they say. -/
structure Sound (w : World ρ) : Prop where
  within : ∀ i b, w.object i = some b → b.Within ∧ b.payload.length = b.size
  goes : ∀ op, ∃ w', w.call op = .ok w'
  reserve : ∀ i b, w.object i = some b → ∀ newCapacity memory,
    ∃ b', b.reserve newCapacity memory = .ok b' ∧ b'.size = b.size ∧ b.capacity ≤ b'.capacity ∧
      newCapacity ≤ b'.capacity ∧ b'.payload = b.payload
  resize : ∀ i b, w.object i = some b → ∀ newSize memory,
    ∃ b', b.resize newSize memory = .ok b' ∧ b'.size = newSize ∧
      b'.payload.take (min b.size newSize) = b.payload.take (min b.size newSize)
  toBuffer : ∀ i b, w.object i = some b → ∀ memory,
    ∃ out b', b.toBuffer memory = .ok (out, b') ∧ out.size = b.size ∧ bytesOf out = b.payload ∧
      b'.size = 0 ∧ b'.capacity = 0

theorem InOrder.sound (h : w.InOrder) : w.Sound where
  within i b hb := ⟨h i b hb, (h i b hb).payload_length⟩
  goes op := by
    obtain ⟨w', run, -⟩ := h.call op
    exact ⟨w', run⟩
  reserve i b hb newCapacity memory := by
    obtain ⟨b', run, -, spec⟩ := (h i b hb).reserve newCapacity memory
    exact ⟨b', run, spec⟩
  resize i b hb newSize memory := by
    obtain ⟨b', run, -, spec⟩ := (h i b hb).resize newSize memory
    exact ⟨b', run, spec⟩
  toBuffer i b hb memory := by
    obtain ⟨out, run, size, bytes⟩ := (h i b hb).toBuffer memory
    exact ⟨out, {}, run, size, bytes, rfl, rfl⟩

theorem sound_iff_inOrder : w.Sound ↔ w.InOrder :=
  ⟨fun h i b hb => (h.within i b hb).1, InOrder.sound⟩

/-- **When sized buffers stay within their storage**: in the states that any calls pass through,
every object is in order and does what it says, exactly if no call moves from an object that has a
size, to another. -/
theorem within_iff (ops : List (Op ρ)) :
    Lts.AllStates step Sound [] ops ↔ Lts.AllSteps step (fun w op => w.leftSize op = 0) [] ops := by
  have start : InOrder ([] : World ρ) := fun i b hb => by cases hb
  refine Lts.allStates_iff_allSteps (I := fun _ => True) (fun _ _ => trivial) ?_ ops trivial
    start.sound
  intro w op w' _ sound run
  obtain ⟨w₁, goes, isExact⟩ := (sound_iff_inOrder.mp sound).call op
  unfold step at run
  rw [goes] at run
  obtain rfl := Option.some.inj run
  rw [sound_iff_inOrder]
  exact isExact

/-- The object that has been moved from has a size of 8 bytes and no storage. -/
theorem moved_from_not_within : ¬∀ ops : List (Op Unit), Lts.AllStates step Sound [] ops := by
  intro all
  have sound := (all [.constructSized 8 fun _ => 0, .moveConstruct 0]).last rfl
  have within := (sound.within 0 _ rfl).1.size
  exact absurd within (by decide)

end World

end Bfc.Buffers
