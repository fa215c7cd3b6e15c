import Mathlib.Algebra.Group.Nat.Defs
import Mathlib.Data.List.Count
import Mathlib.Data.List.Nodup
import Bfc.Lib.Tables
import Bfc.Lib.Transition
import Bfc.MemoryPool.Pool

/-!
# No block is handed out twice

`Accounted hand w` is the invariant, with the blocks that a function has in hand on the books: each
block obtained is once with a buffer, in a free list or in hand. A free list has blocks of its own
pool, and a buffer a block of the pool that its deleter holds, of its size.

An allocation takes a block in hand and gives it to a buffer, a move passes it on, and a deleter's
call gives it back to its pool; each has its law, and the calls are composed of them, aliasing
included.
-/

namespace Bfc.MemoryPool

open Bfc.Buffers World

/-- A buffer's block is of the pool that its deleter holds, and was obtained with its size. -/
structure BufferOk (w : World) (b : Buffer) : Prop where
  formed : b.Formed
  block : ∀ block, b.data = some block → ∃ (p : Nat) (pool : SizedMemoryPool),
    b.deleter = some p ∧ w.pools[p]? = some pool ∧ b.size = pool.size ∧
      w.obtained[block]? = some (p, pool.size)

/-- A `log2_memory_pool` has a pool for each of its sizes. -/
structure Log2Ok (w : World) (pools : List Nat) : Prop where
  length : pools.length = log2Sizes.length
  sizes : ∀ (k size : Nat), log2Sizes[k]? = some size → ∃ (p : Nat) (pool : SizedMemoryPool),
    pools[k]? = some p ∧ w.pools[p]? = some pool ∧ pool.size = size

/-- Each block is in one place, with the blocks in `hand` on the books. -/
structure Accounted (hand : List Nat) (w : World) : Prop where
  held : ∀ block, w.owned.count block + w.freed.count block + hand.count block =
    if block < w.obtained.length then 1 else 0
  freed : ∀ (p : Nat) (pool : SizedMemoryPool) (block : Nat), w.pools[p]? = some pool →
    block ∈ pool.allocations → w.obtained[block]? = some (p, pool.size)
  buffers : ∀ (i : Nat) (b : Buffer), w.buffers[i]? = some (some b) → BufferOk w b
  log2 : ∀ pools ∈ w.log2, Log2Ok w pools

/-! ## What no call undoes -/

/-- Pools keep their sizes, and what has been obtained stays so. -/
structure Later (w w' : World) : Prop where
  pools : ∀ (p : Nat) (pool : SizedMemoryPool), w.pools[p]? = some pool →
    ∃ pool' : SizedMemoryPool, w'.pools[p]? = some pool' ∧ pool'.size = pool.size
  obtained : w.obtained <+: w'.obtained

/-- One pool's free list changes. -/
theorem Later.setPool {w : World} {p : Nat} {pool pool' : SizedMemoryPool}
    (h : w.pools[p]? = some pool) (size : pool'.size = pool.size) :
    Later w { w with pools := w.pools.set p pool' } where
  pools q other hq := by
    refine Tables.set_kept h hq rfl ?_
    rintro rfl rfl
    exact size
  obtained := List.prefix_refl _

/-- New pools come after the others. -/
theorem Later.append {w w' : World} {more : List SizedMemoryPool}
    (pools : w'.pools = w.pools ++ more) (obtained : w'.obtained = w.obtained) : Later w w' where
  pools _ pool h :=
    ⟨pool, pools ▸ Tables.append_kept h more, rfl⟩
  obtained := obtained ▸ List.prefix_refl _

theorem Later.there {w w' : World} (h : Later w w') {block : Nat} {o : Nat × Nat}
    (there : w.obtained[block]? = some o) : w'.obtained[block]? = some o := by
  obtain ⟨more, eq⟩ := h.obtained
  exact eq ▸ Tables.append_kept there more

theorem Later.bufferOk {w w' : World} (h : Later w w') {b : Buffer} (ok : BufferOk w b) :
    BufferOk w' b where
  formed := ok.formed
  block block hb := by
    obtain ⟨p, pool, deleter, hp, size, there⟩ := ok.block block hb
    obtain ⟨pool', hp', same⟩ := h.pools p pool hp
    refine ⟨p, pool', deleter, hp', size.trans same.symm, ?_⟩
    rw [same]
    exact h.there there

theorem Later.log2Ok {w w' : World} (h : Later w w') {pools : List Nat} (ok : Log2Ok w pools) :
    Log2Ok w' pools where
  length := ok.length
  sizes k size hk := by
    obtain ⟨p, pool, there, hp, sized⟩ := ok.sizes k size hk
    obtain ⟨pool', hp', same⟩ := h.pools p pool hp
    exact ⟨p, pool', there, hp', same.trans sized⟩

/-- A slot is written; what is said of blocks stays. -/
theorem later_setBuffer (w : World) (i : Nat) (slot : Option Buffer) :
    Later w (w.setBuffer i slot) where
  pools _ pool h := ⟨pool, h, rfl⟩
  obtained := List.prefix_refl _

theorem bufferOk_empty (w : World) : BufferOk w {} where
  formed := SimpleBuffer.formed_default
  block block hb := by cases hb

namespace Accounted

variable {w : World} {hand : List Nat}

/-- At the start there are no blocks. -/
theorem start : Accounted [] {} where
  held _ := rfl
  freed p pool block hp := by cases hp
  buffers i b hb := by cases hb
  log2 pools mem := by cases mem

/-! ## The transfers -/

/-- Blocks move between buffers and the hand. -/
theorem transfer (h : Accounted hand w) {hand' : List Nat} {w' : World} (pools : w'.pools = w.pools)
    (log2 : w'.log2 = w.log2) (obtained : w'.obtained = w.obtained)
    (balance : ∀ block, w'.owned.count block + hand'.count block =
      w.owned.count block + hand.count block)
    (buffers : ∀ (i : Nat) (b : Buffer), w'.buffers[i]? = some (some b) → BufferOk w b) :
    Accounted hand' w' := by
  have later : Later w w' := by
    refine ⟨fun p pool hp => ⟨pool, pools ▸ hp, rfl⟩, ?_⟩
    exact obtained ▸ List.prefix_refl w.obtained
  refine ⟨fun block => ?_, ?_, fun i b hb => later.bufferOk (buffers i b hb), fun l hl => ?_⟩
  · have before := h.held block
    have same : w'.freed = w.freed := by rw [World.freed, World.freed, pools]
    have moved := balance block
    rw [obtained, same]
    omega
  · rw [pools, obtained]
    exact h.freed
  · exact later.log2Ok (h.log2 l (log2 ▸ hl))

/-- A new object takes its block from the hand. -/
theorem newBuffer {b : Buffer} (h : Accounted (blockOf (some b) ++ hand) w) (ok : BufferOk w b) :
    Accounted hand (w.newBuffer b) := by
  refine h.transfer rfl rfl rfl (fun block => ?_) fun i b' hb => ?_
  · show (Shares.whole blockOf (w.buffers ++ [some b])).count block + _ = _
    rw [Shares.whole_append, Shares.whole_singleton, List.count_append, List.count_append]
    show (Shares.whole blockOf w.buffers).count block + _ + _ =
      (Shares.whole blockOf w.buffers).count block + _
    omega
  · rcases Tables.append_cases hb with ⟨-, new⟩ | ⟨-, old⟩
    · exact (Option.some.inj new).symm ▸ ok
    · exact h.buffers i b' old

/-- A slot takes its block from the hand, and gives its own. -/
theorem setBuffer {i : Nat} {slot : Option Buffer} (new : Option Buffer)
    (h : Accounted (blockOf new ++ hand) w) (hi : w.buffers[i]? = some slot)
    (ok : ∀ b, new = some b → BufferOk w b) :
    Accounted (blockOf slot ++ hand) (w.setBuffer i new) := by
  refine h.transfer rfl rfl rfl (fun block => ?_) fun j b hb => ?_
  · have set : (Shares.whole blockOf (w.buffers.set i new)).count block + _ = _ :=
      Shares.count_set hi new block
    show (Shares.whole blockOf (w.buffers.set i new)).count block + _ =
      (Shares.whole blockOf w.buffers).count block + _
    rw [List.count_append, List.count_append]
    omega
  · rcases Tables.set_cases hi hb with ⟨-, written⟩ | ⟨-, old⟩
    · exact ok b written.symm
    · exact h.buffers j b old

/-- One pool's free list changes, and the blocks in hand. -/
theorem setPool (h : Accounted hand w) {p : Nat} {pool : SizedMemoryPool}
    (hp : w.pools[p]? = some pool) (allocations hand' : List Nat)
    (balance : ∀ block, allocations.count block + hand'.count block =
      pool.allocations.count block + hand.count block)
    (home : ∀ block ∈ allocations, w.obtained[block]? = some (p, pool.size)) :
    Accounted hand' { w with pools := w.pools.set p { pool with allocations := allocations } } ∧
      Later w { w with pools := w.pools.set p { pool with allocations := allocations } } := by
  let pool' : SizedMemoryPool := { pool with allocations := allocations }
  have later : Later w { w with pools := w.pools.set p pool' } := .setPool hp rfl
  refine ⟨⟨fun block => ?_, fun q other block hq mem => ?_,
    fun i b hb => later.bufferOk (h.buffers i b hb), fun l hl => later.log2Ok (h.log2 l hl)⟩, later⟩
  · have before := h.held block
    have moved := balance block
    have set : (Shares.whole SizedMemoryPool.allocations (w.pools.set p pool')).count block +
        pool.allocations.count block = w.freed.count block + allocations.count block :=
      Shares.count_set hp pool' block
    show w.owned.count block +
      (Shares.whole SizedMemoryPool.allocations (w.pools.set p pool')).count block + _ = _
    dsimp only
    omega
  · rcases Tables.set_cases hp hq with ⟨rfl, rfl⟩ | ⟨-, old⟩
    · exact home block mem
    · exact h.freed q other block old mem

/-- A block in hand goes back to its pool. -/
theorem free {p block : Nat} {pool : SizedMemoryPool} (h : Accounted (block :: hand) w)
    (hp : w.pools[p]? = some pool) (home : w.obtained[block]? = some (p, pool.size)) :
    ∃ w', w.free p block = .ok w' ∧ Accounted hand w' ∧ w'.buffers = w.buffers := by
  refine ⟨_, ?_, (h.setPool hp (pool.allocations ++ [block]) hand ?_ ?_).1, rfl⟩
  · simp only [World.free, World.pool, hp, bind, Except.bind]
  · intro b
    rw [List.count_append, List.count_cons, List.count_cons, List.count_nil]
    omega
  · intro b mem
    rcases List.mem_append.mp mem with mem | mem
    · exact h.freed p pool b hp mem
    · rw [List.mem_singleton.mp mem]
      exact home

/-- An allocation takes a block in hand: one of the pool's, or a new one. -/
theorem allocateRaw (h : Accounted hand w) {p : Nat} {pool : SizedMemoryPool}
    (hp : w.pools[p]? = some pool) :
    ∃ rv w', w.allocateRaw p = .ok (rv, w') ∧ Accounted (rv :: hand) w' ∧ Later w w' ∧
      w'.obtained[rv]? = some (p, pool.size) ∧ w'.buffers = w.buffers := by
  cases last : pool.allocations.getLast? with
  | some rv =>
    have split := List.dropLast_append_getLast? rv (Option.mem_def.mpr last)
    have kept := h.setPool hp pool.allocations.dropLast (rv :: hand)
      (fun b => by
        conv_rhs => rw [← split]
        rw [List.count_append, List.count_cons, List.count_cons, List.count_nil]
        omega)
      fun b mem => h.freed p pool b hp (List.dropLast_subset _ mem)
    refine ⟨rv, _, ?_, kept.1, kept.2, ?_, rfl⟩
    · simp only [World.allocateRaw, World.pool, hp, bind, Except.bind, last]
    · exact h.freed p pool rv hp (split ▸ List.mem_append_right _ (List.mem_singleton_self _))
  | none =>
    have later : Later w { w with obtained := w.obtained ++ [(p, pool.size)] } :=
      ⟨fun _ pool' hq => ⟨pool', hq, rfl⟩, List.prefix_append _ _⟩
    refine ⟨w.obtained.length, _, ?_, ?_, later, List.getElem?_concat_length, rfl⟩
    · simp only [World.allocateRaw, World.pool, hp, bind, Except.bind, last]
    · refine ⟨fun b => ?_, fun q pool' b hq mem => later.there (h.freed q pool' b hq mem),
        fun i b hb => later.bufferOk (h.buffers i b hb), fun l hl => later.log2Ok (h.log2 l hl)⟩
      -- the new block is the next number
      have before := h.held b
      show w.owned.count b + w.freed.count b + (w.obtained.length :: hand).count b =
        if b < (w.obtained ++ [(p, pool.size)]).length then 1 else 0
      rw [List.count_cons, List.length_append, List.length_singleton]
      by_cases new : w.obtained.length = b
      · rw [if_neg (by omega)] at before
        rw [if_pos (beq_iff_eq.mpr new), if_pos (by omega)]
        omega
      · rw [if_neg (by rw [beq_iff_eq]; exact new)]
        by_cases old : b < w.obtained.length
        · rw [if_pos old] at before
          rw [if_pos (by omega)]
          omega
        · rw [if_neg old] at before
          rw [if_neg (by omega)]
          omega

/-! ## The operations -/

/-- `allocate` on a pool makes a buffer of its size. -/
theorem allocate (h : Accounted [] w) {p : Nat} {pool : SizedMemoryPool}
    (hp : w.pools[p]? = some pool) :
    ∃ rv w', w.allocate p = .ok w' ∧ Accounted [] w' ∧
      w'.buffers = w.buffers ++ [some (.make rv pool.size p)] := by
  obtain ⟨rv, w₁, raw, counted, later, home, buffers⟩ := h.allocateRaw hp
  have ok : BufferOk w₁ (.make rv pool.size p) := by
    refine ⟨⟨fun null => (by cases null), fun _ => rfl⟩, fun block hb => ?_⟩
    obtain rfl := Option.some.inj hb
    obtain ⟨pool', hp', same⟩ := later.pools p pool hp
    exact ⟨p, pool', rfl, hp', same.symm, same ▸ home⟩
  refine ⟨rv, w₁.newBuffer (.make rv pool.size p), ?_, newBuffer counted ok, ?_⟩
  · simp only [World.allocate, World.pool, hp, bind, Except.bind, raw]
  · rw [World.newBuffer, buffers]

/-- What a buffer's deleter is called with goes back to its pool. -/
theorem delete {b : Buffer} {deletion : Option (Deletion Nat Nat)}
    (h : Accounted (b.data.toList ++ hand) w) (ok : BufferOk w b)
    (data : deletion.map Deletion.data = b.data)
    (deleter : ∀ d, deletion = some d → b.deleter = some d.deleter) :
    ∃ w', w.delete deletion = .ok w' ∧ Accounted hand w' ∧ w'.buffers = w.buffers := by
  cases deletion with
  | none => exact ⟨w, rfl, by rwa [← data] at h, rfl⟩
  | some d =>
    obtain ⟨p, pool, held, hp, -, home⟩ := ok.block d.data data.symm
    obtain rfl := Option.some.inj ((deleter d rfl).symm.trans held)
    rw [← data] at h
    have counted : Accounted (d.data :: hand) w := h
    exact counted.free hp home

/-- A deleter's call does not look at the buffers. -/
theorem delete_setBuffer (w : World) (deletion : Option (Deletion Nat Nat)) (i : Nat)
    (slot : Option Buffer) :
    (w.setBuffer i slot).delete deletion =
      (do let w ← w.delete deletion; .ok (w.setBuffer i slot)) := by
  cases deletion with
  | none => rfl
  | some d =>
    simp only [World.delete, World.free, World.pool, World.setBuffer, bind, Except.bind]
    cases w.pools[d.deleter]? with
    | none => rfl
    | some pool => rfl

theorem buffer_eq {i : Nat} {b : Buffer} (hi : w.buffers[i]? = some (some b)) :
    w.buffer i = .ok b := by
  simp only [World.buffer, hi]

/-- The new object has what the other had. -/
theorem moveConstruct (h : Accounted [] w) {other : Nat} {o : Buffer}
    (ho : w.buffers[other]? = some (some o)) :
    ∃ w', w.moveConstruct other = .ok w' ∧ Accounted [] w' := by
  have taken : Accounted (blockOf (some o) ++ []) (w.setBuffer other (some {})) :=
    h.setBuffer (some {}) ho fun b hb => Option.some.inj hb ▸ bufferOk_empty w
  refine ⟨(w.setBuffer other (some {})).newBuffer o, ?_, 
    taken.newBuffer ((later_setBuffer w other _).bufferOk (h.buffers other o ho))⟩
  simp only [World.moveConstruct, bind, Except.bind, buffer_eq ho]
  rfl

/-- The target gives its own block back and has what the source had; an object assigned to itself
keeps it. -/
theorem moveAssign (h : Accounted [] w) {this other : Nat} {b o : Buffer}
    (hb : w.buffers[this]? = some (some b)) (ho : w.buffers[other]? = some (some o)) :
    ∃ w', w.moveAssign this other = .ok w' ∧ Accounted [] w' := by
  by_cases same : this = other
  · exact ⟨w, by rw [World.moveAssign, if_pos same], h⟩
  · have okb := h.buffers this b hb
    obtain ⟨deletion, assign, reset⟩ := okb.formed.moveAssign o
    obtain ⟨deletion', reset', data, deleter⟩ := okb.formed.reset
    obtain rfl := (Prod.mk.inj (Except.ok.inj (reset.symm.trans reset'))).2
    -- the source's block is in hand, then the target's
    have taken : Accounted (blockOf (some o) ++ []) (w.setBuffer other (some {})) :=
      h.setBuffer (some {}) ho fun c hc => Option.some.inj hc ▸ bufferOk_empty w
    have hb' : (w.setBuffer other (some {})).buffers[this]? = some (some b) := by
      rw [World.setBuffer, List.getElem?_set_ne (Ne.symm same), hb]
    have given : Accounted (b.data.toList ++ [])
        ((w.setBuffer other (some {})).setBuffer this (some o)) :=
      taken.setBuffer (some o) hb' fun c hc => Option.some.inj hc ▸
        (later_setBuffer w other _).bufferOk (h.buffers other o ho)
    obtain ⟨w', run, counted, -⟩ := given.delete
      ((later_setBuffer _ this _).bufferOk ((later_setBuffer w other _).bufferOk okb)) data deleter
    refine ⟨w', ?_, counted⟩
    rw [delete_setBuffer, delete_setBuffer] at run
    simp only [World.moveAssign, if_neg same, buffer_eq hb, buffer_eq ho, bind, Except.bind,
      assign, World.lift, Except.mapError]
    cases gone : w.delete deletion with
    | error e =>
      rw [gone] at run
      cases run
    | ok w₁ =>
      rw [gone] at run
      exact run

/-- `reset` gives the block back. -/
theorem reset (h : Accounted [] w) {this : Nat} {b : Buffer}
    (hb : w.buffers[this]? = some (some b)) :
    ∃ w', w.reset this = .ok w' ∧ Accounted [] w' ∧ w'.buffers[this]? = some (some {}) := by
  have okb := h.buffers this b hb
  obtain ⟨deletion, reset, data, deleter⟩ := okb.formed.reset
  have taken : Accounted (b.data.toList ++ []) (w.setBuffer this (some {})) :=
    h.setBuffer (some {}) hb fun c hc => Option.some.inj hc ▸ bufferOk_empty w
  obtain ⟨w', run, counted, buffers⟩ :=
    taken.delete ((later_setBuffer w this _).bufferOk okb) data deleter
  rw [delete_setBuffer] at run
  refine ⟨w', ?_, counted, ?_⟩
  · simp only [World.reset, buffer_eq hb, bind, Except.bind, reset, World.lift, Except.mapError]
    exact run
  · rw [buffers]
    exact Tables.set_here hb _

/-- The destructor gives the block back, and the object is gone. -/
theorem destroy (h : Accounted [] w) {this : Nat} {b : Buffer}
    (hb : w.buffers[this]? = some (some b)) :
    ∃ w', w.destroy this = .ok w' ∧ Accounted [] w' := by
  obtain ⟨w₁, reset, counted, empty⟩ := h.reset hb
  refine ⟨w₁.setBuffer this none, ?_, ?_⟩
  · simp only [World.destroy, bind, Except.bind, reset]
  · exact counted.setBuffer none empty fun c hc => by cases hc

/-! ## The pools -/

/-- New pools have no blocks. -/
theorem newPools (h : Accounted [] w) (sizes : List Nat) (log2 : List (List Nat))
    (ok : ∀ pools ∈ log2, pools ∈ w.log2 ∨ Log2Ok { w with
      pools := w.pools ++ sizes.map fun size => { size := size }, log2 := log2 } pools) :
    Accounted [] { w with
      pools := w.pools ++ sizes.map fun size => { size := size }, log2 := log2 } := by
  have later : Later w { w with
      pools := w.pools ++ sizes.map fun size => { size := size }, log2 := log2 } := .append rfl rfl
  have unfreed : Shares.whole SizedMemoryPool.allocations
      (sizes.map fun size => { size := size }) = [] := by
    unfold Shares.whole
    rw [List.flatMap_eq_nil_iff]
    intro pool mem
    obtain ⟨size, -, rfl⟩ := List.mem_map.mp mem
    rfl
  refine ⟨fun block => ?_, fun p pool block hp mem => ?_,
    fun i b hb => later.bufferOk (h.buffers i b hb), fun l hl => ?_⟩
  · have before := h.held block
    unfold World.freed
    rw [Shares.whole_append, unfreed, List.append_nil]
    exact before
  · rcases Nat.lt_or_ge p w.pools.length with old | new
    · exact h.freed p pool block ((List.getElem?_append_left old).symm.trans hp) mem
    · rw [List.getElem?_append_right new, List.getElem?_map] at hp
      obtain ⟨size, -, rfl⟩ := Option.map_eq_some_iff.mp hp
      cases mem
  · rcases ok l hl with old | new
    · exact later.log2Ok (h.log2 l old)
    · exact new

theorem sizedMemoryPool (h : Accounted [] w) (size : Nat) : Accounted [] (w.sizedMemoryPool size) :=
  h.newPools [size] w.log2 fun _ mem => .inl mem

theorem log2MemoryPool (h : Accounted [] w) : Accounted [] w.log2MemoryPool := by
  refine h.newPools log2Sizes _ fun pools mem => ?_
  rcases List.mem_append.mp mem with old | new
  · exact .inl old
  · right
    obtain rfl := List.mem_singleton.mp new
    refine ⟨by rw [List.length_map, List.length_range], fun k size hk => ?_⟩
    have inside := (List.getElem?_eq_some_iff.mp hk).1
    refine ⟨w.pools.length + k, { size := size }, ?_, ?_, rfl⟩
    · rw [List.getElem?_map, List.getElem?_range inside]
      rfl
    · rw [List.getElem?_append_right (Nat.le_add_right _ _), Nat.add_sub_cancel_left,
        List.getElem?_map, hk]
      rfl

end Accounted

/-! ## The classes -/

/-- The smallest size of a `log2_memory_pool` that has room for `n` bytes. -/
def SmallestClass (n size : Nat) : Prop :=
  size ∈ log2Sizes ∧ n ≤ size ∧ ∀ c ∈ log2Sizes, n ≤ c → size ≤ c

theorem log2Sizes_eq : log2Sizes = (List.range 11).map fun k => 2 ^ (k + 4) := by decide

theorem log2Sizes_get {k : Nat} (inside : k < 11) : log2Sizes[k]? = some (2 ^ (k + 4)) := by
  rw [log2Sizes_eq, List.getElem?_map, List.getElem?_range inside]
  rfl

/-- The index is that of the smallest class, where there is one. -/
theorem log2Index_class {n : Nat} (more : 8 < n) (fits : n ≤ 16384) :
    log2Index n < 11 ∧ SmallestClass n (2 ^ (log2Index n + 4)) := by
  have above : n ≤ 2 ^ Nat.clog 2 n := Nat.le_pow_clog (by decide) n
  have least {m : Nat} (h : n ≤ 2 ^ m) : Nat.clog 2 n ≤ m := Nat.clog_le_of_le_pow h
  have upper : Nat.clog 2 n ≤ 14 := least (by omega)
  have lower : 4 ≤ Nat.clog 2 n := by
    by_contra small
    have : 2 ^ Nat.clog 2 n ≤ 2 ^ 3 := Nat.pow_le_pow_right (by decide) (by omega)
    omega
  have index : log2Index n + 4 = Nat.clog 2 n := by
    unfold log2Index
    omega
  have inside : log2Index n < 11 := by omega
  refine ⟨inside, List.mem_of_getElem? (log2Sizes_get inside), by rwa [index], ?_⟩
  intro c mem room
  rw [log2Sizes_eq] at mem
  obtain ⟨k, -, rfl⟩ := List.mem_map.mp mem
  rw [index]
  exact Nat.pow_le_pow_right (by decide) (least room)

/-- There is no index past the classes. -/
theorem log2Index_past {n : Nat} (past : 16384 < n) : 11 ≤ log2Index n := by
  have above : n ≤ 2 ^ Nat.clog 2 n := Nat.le_pow_clog (by decide) n
  unfold log2Index
  by_contra small
  have : 2 ^ Nat.clog 2 n ≤ 2 ^ 14 := Nat.pow_le_pow_right (by decide) (by omega)
  omega

/-- A call of `log2_memory_pool::allocate` makes a buffer of the smallest class, or throws and
changes nothing. -/
def Log2Exact (w : World) (l n : Nat) : Prop :=
  if 9 ≤ n ∧ n ≤ 16384 then
    ∃ w' b block, w.log2Allocate l n = .ok (w', none) ∧ w'.buffers = w.buffers ++ [some b] ∧
      b.data = some block ∧ SmallestClass n b.size
  else ∃ e, w.log2Allocate l n = .ok (w, some e)

namespace Accounted

variable {w : World}

/-- `allocate` of a `log2_memory_pool`. -/
theorem log2Allocate (h : Accounted [] w) {l : Nat} {pools : List Nat}
    (hl : w.log2[l]? = some pools) (n : Nat) :
    (∃ w' e, w.log2Allocate l n = .ok (w', e) ∧ Accounted [] w') ∧ Log2Exact w l n := by
  have ok := h.log2 pools (List.mem_of_getElem? hl)
  by_cases small : n ≤ 8
  · have run : w.log2Allocate l n = .ok (w, some .badAlloc) := by
      simp only [World.log2Allocate, hl, if_pos small]
    rw [Log2Exact, if_neg (by omega)]
    exact ⟨⟨w, _, run, h⟩, _, run⟩
  · by_cases fits : n ≤ 16384
    · obtain ⟨inside, smallest⟩ := log2Index_class (Nat.not_le.mp small) fits
      obtain ⟨p, pool, hp, hpool, size⟩ := ok.sizes _ _ (log2Sizes_get inside)
      obtain ⟨rv, w', made, counted, buffers⟩ := h.allocate hpool
      have run : w.log2Allocate l n = .ok (w', none) := by
        simp only [World.log2Allocate, hl, if_neg small, hp, bind, Except.bind, made]
      rw [Log2Exact, if_pos ⟨Nat.lt_of_not_le small, fits⟩]
      exact ⟨⟨w', _, run, counted⟩, w', _, rv, run, buffers, rfl, size ▸ smallest⟩
    · have past : pools[log2Index n]? = none := by
        rw [List.getElem?_eq_none_iff, ok.length]
        exact log2Index_past (Nat.not_le.mp fits)
      have run : w.log2Allocate l n = .ok (w, some .outOfRange) := by
        simp only [World.log2Allocate, hl, if_neg small, past]
      rw [Log2Exact, if_neg fun both => fits both.2]
      exact ⟨⟨w, _, run, h⟩, _, run⟩

/-! ## Calls -/

theorem live_iff {i : Nat} : w.live i = true ↔ ∃ b, w.buffers[i]? = some (some b) := by
  unfold World.live
  split
  · rename_i b hb
    exact ⟨fun _ => ⟨b, hb⟩, fun _ => rfl⟩
  · rename_i ne
    exact ⟨fun h => (by cases h), fun ⟨b, hb⟩ => (ne b hb).elim⟩

/-- **Every call goes through, and keeps the account.** -/
theorem call (h : Accounted [] w) (op : Op) : ∃ w', w.call op = .ok w' ∧ Accounted [] w' := by
  unfold World.call
  by_cases valid : w.valid op = true
  · rw [if_pos valid]
    cases op with
    | sizedMemoryPool size => exact ⟨_, rfl, h.sizedMemoryPool size⟩
    | log2MemoryPool => exact ⟨_, rfl, h.log2MemoryPool⟩
    | allocate p =>
      have hp := List.getElem?_eq_getElem (of_decide_eq_true valid)
      obtain ⟨-, w', run, counted, -⟩ := h.allocate hp
      exact ⟨w', run, counted⟩
    | log2Allocate l size =>
      have hl := List.getElem?_eq_getElem (of_decide_eq_true valid)
      obtain ⟨w', e, run, counted⟩ := (h.log2Allocate hl size).1
      refine ⟨w', ?_, counted⟩
      simp only [World.perform, bind, Except.bind, run]
    | construct => exact ⟨_, rfl, newBuffer h (bufferOk_empty w)⟩
    | moveConstruct other =>
      obtain ⟨o, ho⟩ := live_iff.mp valid
      exact h.moveConstruct ho
    | moveAssign this other =>
      obtain ⟨hthis, hother⟩ := Bool.and_eq_true_iff.mp valid
      obtain ⟨b, hb⟩ := live_iff.mp hthis
      obtain ⟨o, ho⟩ := live_iff.mp hother
      exact h.moveAssign hb ho
    | reset this =>
      obtain ⟨b, hb⟩ := live_iff.mp valid
      obtain ⟨w', run, counted, -⟩ := h.reset hb
      exact ⟨w', run, counted⟩
    | destroy this =>
      obtain ⟨b, hb⟩ := live_iff.mp valid
      exact h.destroy hb
  · rw [if_neg valid]
    exact ⟨w, rfl, h⟩

/-- So does every sequence of calls. -/
theorem run (h : Accounted [] w) (ops : List Op) : ∃ w', w.run ops = .ok w' ∧ Accounted [] w' :=
  Lts.foldlM_goes (fun _ op accounted => accounted.call op) ops h

end Accounted

/-! ## The main theorem -/

/-- Where the blocks are: each one obtained is with one buffer or once in one free list, that of
the pool that obtained it; a buffer's block was obtained with its size, and a buffer without a block
has no size. And what an allocation of a `log2_memory_pool` does next. -/
structure Exact (w : World) : Prop where
  held : (w.owned ++ w.freed).Perm (List.range w.obtained.length)
  freed : ∀ (p : Nat) (pool : SizedMemoryPool) (block : Nat), w.pools[p]? = some pool →
    block ∈ pool.allocations → w.obtained[block]? = some (p, pool.size)
  owned : ∀ (i : Nat) (b : Buffer) (block : Nat), w.buffers[i]? = some (some b) →
    b.data = some block → ∃ p, b.deleter = some p ∧ w.obtained[block]? = some (p, b.size)
  empty : ∀ (i : Nat) (b : Buffer), w.buffers[i]? = some (some b) → b.data = none → b.size = 0
  log2 : ∀ l < w.log2.length, ∀ n, Log2Exact w l n

/-- **No block is handed out twice**: after any calls, none of which goes wrong, the blocks of the
live buffers and of the free lists are distinct and are all the blocks ever obtained. -/
theorem blocks_exact (ops : List Op) : ∃ w, ({} : World).run ops = .ok w ∧ Exact w := by
  obtain ⟨w, run, h⟩ := Accounted.start.run ops
  refine ⟨w, run, ?_⟩
  refine
    { held := ?_
      freed := h.freed
      owned := ?_
      empty := fun i b hb null => (h.buffers i b hb).formed.empty null
      log2 := fun l hl n => (h.log2Allocate (List.getElem?_eq_getElem hl) n).2 }
  · rw [List.perm_iff_count]
    intro block
    have held := h.held block
    rw [List.count_nil, Nat.add_zero] at held
    rw [List.count_append, held, List.nodup_range.count]
    simp only [List.mem_range]
  · intro i b block hb data
    obtain ⟨p, pool, deleter, -, size, there⟩ := (h.buffers i b hb).block block data
    exact ⟨p, deleter, size ▸ there⟩

-- A buffer is moved and its block given back: the next allocation of the pool hands it out again.
example : (({} : World).run [.sizedMemoryPool 64, .allocate 0, .moveConstruct 0, .destroy 1,
    .allocate 0]).map (fun w => (w.owned, w.freed, w.obtained)) = .ok ([0], [], [(0, 64)]) := rfl

end Bfc.MemoryPool
